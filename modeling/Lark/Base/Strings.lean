import Lark.Base.Double
import Lark.Base.Exn
import Mathlib.Data.List.TakeWhile

namespace Lark.Base

def isSpace (c : Char) : Bool := c = ' ' || ('\t' ≤ c && c ≤ '\r')

def isHexDigit (c : Char) : Bool :=
  c.isDigit || ('a' ≤ c && c ≤ 'f') || ('A' ≤ c && c ≤ 'F')

def hexValue (c : Char) : Nat :=
  if c.isDigit then c.toNat - '0'.toNat else 10 + (c.toLower.toNat - 'a'.toNat)

def ofHexDigits (cs : List Char) : Nat := cs.foldl (fun n c => 16 * n + hexValue c) 0

def takeSign : List Char → Bool × List Char
  | '-' :: cs => (true, cs)
  | '+' :: cs => (false, cs)
  | cs => (false, cs)

def scanExponent (mark : Char) (cs : List Char) : Int :=
  match cs with
  | [] => 0
  | c :: cs =>
    if c.toLower = mark then
      let (negative, ds) := takeSign cs
      let e : Int := Nat.ofDigitChars 10 (ds.takeWhile Char.isDigit) 0
      if negative then -e else e
    else 0

structure Scanned where
  int : List Char
  frac : List Char
  rest : List Char

def scanMantissa (isDigit : Char → Bool) (cs : List Char) : Scanned :=
  let rest := cs.dropWhile isDigit
  match rest with
  | '.' :: cs' => ⟨cs.takeWhile isDigit, cs'.takeWhile isDigit, cs'.dropWhile isDigit⟩
  | _ => ⟨cs.takeWhile isDigit, [], rest⟩

def scanDecimal (cs : List Char) : Option ℚ :=
  let m := scanMantissa Char.isDigit cs
  if m.int = [] ∧ m.frac = [] then none
  else some (Nat.ofDigitChars 10 (m.int ++ m.frac) 0 * 10 ^ (scanExponent 'e' m.rest - m.frac.length))

def scanHex (cs : List Char) : Option ℚ :=
  let m := scanMantissa isHexDigit cs
  if m.int = [] ∧ m.frac = [] then none
  else some (ofHexDigits (m.int ++ m.frac) * 2 ^ (scanExponent 'p' m.rest - 4 * m.frac.length))

def startsWith (word cs : List Char) : Bool := (cs.take word.length).map Char.toLower = word

-- strtod: the longest prefix that reads as a number, `none` when there is none.
def strtod (cs : List Char) : Option Double :=
  let (negative, body) := takeSign (cs.dropWhile isSpace)
  let signed : Double → Double := fun d => if negative then -d else d
  if startsWith ['i', 'n', 'f'] body then some (signed (.inf false))
  else if startsWith ['n', 'a', 'n'] body then some .nan
  else
    let hex := if startsWith ['0', 'x'] body then scanHex (body.drop 2) else none
    match hex <|> scanDecimal body with
    | some q => some (signed (.num q))
    | none => none

-- strtod reports ERANGE when the value overflows, or is subnormal and not exact.
def inDoubleRange (q : ℚ) : Bool :=
  q = 0 || (|q| < 2 ^ 1024 - 2 ^ 970 && (1 / 2 ^ 1022 ≤ |q| || (q * 2 ^ 1074).den = 1))

def stod (s : String) : Except Exn Double :=
  match strtod s.toList with
  | none => .error (.invalidArgument "stod")
  | some (.num q) => if inDoubleRange q then .ok (.num q) else .error (.outOfRange "stod")
  | some d => .ok d

def stoll (s : String) : Except Exn Int :=
  let (negative, body) := takeSign (s.toList.dropWhile isSpace)
  let ds := body.takeWhile Char.isDigit
  if ds = [] then .error (.invalidArgument "stoll")
  else
    let n : Int := Nat.ofDigitChars 10 ds 0
    let n := if negative then -n else n
    if -2 ^ 63 ≤ n ∧ n < 2 ^ 63 then .ok n else .error (.outOfRange "stoll")

def stoull (s : String) : Except Exn Nat :=
  let (negative, body) := takeSign (s.toList.dropWhile isSpace)
  let ds := body.takeWhile Char.isDigit
  if ds = [] then .error (.invalidArgument "stoull")
  else
    let n := Nat.ofDigitChars 10 ds 0
    if 2 ^ 64 ≤ n then .error (.outOfRange "stoull")
    else .ok (if negative then (2 ^ 64 - n) % 2 ^ 64 else n)

def intToChars (n : Int) : List Char :=
  if n < 0 then '-' :: Nat.toDigits 10 n.natAbs else Nat.toDigits 10 n.natAbs

def intToString (n : Int) : String := String.ofList (intToChars n)

def roundHalfEven (q : ℚ) : Int :=
  let r := q - ⌊q⌋
  if r < 1 / 2 then ⌊q⌋
  else if 1 / 2 < r then ⌊q⌋ + 1
  else if ⌊q⌋ % 2 = 0 then ⌊q⌋ else ⌊q⌋ + 1

def padDigits (width n : Nat) : List Char :=
  List.replicate (width - (Nat.toDigits 10 n).length) '0' ++ Nat.toDigits 10 n

-- std::to_string(double), that is printf("%f"): six fractional digits.
def fixedToChars (q : ℚ) : List Char :=
  let m := (roundHalfEven (|q| * 10 ^ 6)).toNat
  let digits := Nat.toDigits 10 (m / 10 ^ 6) ++ '.' :: padDigits 6 (m % 10 ^ 6)
  if q < 0 then '-' :: digits else digits

def fixedToString (q : ℚ) : String := String.ofList (fixedToChars q)

theorem isDigit_mem {c : Char} (h : c.isDigit = true) :
    c ∈ ['0', '1', '2', '3', '4', '5', '6', '7', '8', '9'] := by
  have hc : 48 ≤ c.toNat ∧ c.toNat ≤ 57 := by
    simpa [Char.isDigit, UInt32.le_iff_toNat_le] using h
  have hv : c = Char.ofNat c.toNat := (Char.ofNat_toNat c).symm
  obtain ⟨h₁, h₂⟩ := hc
  rw [hv]
  interval_cases c.toNat <;> simp

def decimalChars (ds : List Char) : Option (List Char) → List Char
  | none => ds
  | some fs => ds ++ '.' :: fs

def decimalValue (ds : List Char) (frac : Option (List Char)) : ℚ :=
  Nat.ofDigitChars 10 (ds ++ frac.getD []) 0 / 10 ^ (frac.getD []).length

structure IsDecimal (ds : List Char) (frac : Option (List Char)) : Prop where
  int : ∀ c ∈ ds, c.isDigit = true
  fractional : ∀ c ∈ frac.getD [], c.isDigit = true
  nonempty : ds ≠ [] ∨ frac.getD [] ≠ []

structure IsRun (cs : List Char) : Prop where
  nonempty : cs ≠ []
  chars : ∀ c ∈ cs, c.isDigit = true ∨ c = '.'

section Run

variable {cs : List Char}

theorem IsRun.head (h : IsRun cs) : ∃ c cs', cs = c :: cs' ∧ (c.isDigit = true ∨ c = '.') ∧
    ∀ d ∈ cs'.head?, d.isDigit = true ∨ d = '.' := by
  obtain ⟨c, cs', rfl⟩ := List.exists_cons_of_ne_nil h.nonempty
  refine ⟨c, cs', rfl, h.chars c (by simp), fun d hd => h.chars d ?_⟩
  exact List.mem_cons_of_mem _ (List.mem_of_mem_head? hd)

theorem toLower_decimal {c : Char} (h : c.isDigit = true ∨ c = '.') : c.toLower = c := by
  rcases h with h | rfl
  · have := isDigit_mem h
    fin_cases this <;> rfl
  · rfl

theorem IsRun.startsWith (word : List Char)
    (hw : ∃ w ∈ word.head?, w.isDigit = false ∧ w ≠ '.') (h : IsRun cs) :
    startsWith word cs = false := by
  obtain ⟨c, cs', rfl, hc, -⟩ := h.head
  obtain ⟨w, hw, hd, hdot⟩ := hw
  cases word with
  | nil => simp at hw
  | cons w' word =>
    obtain rfl : w' = w := by simpa using hw
    simp only [Base.startsWith, List.length_cons, List.take_succ_cons, List.map_cons,
      toLower_decimal hc, List.cons.injEq, decide_eq_false_iff_not, not_and]
    rintro rfl
    rcases hc with hc | hc
    · simp [hd] at hc
    · exact absurd hc hdot

theorem IsRun.startsWith_hex (h : IsRun cs) : Base.startsWith ['0', 'x'] cs = false := by
  obtain ⟨c, cs', rfl, -, hcs⟩ := h.head
  cases cs' with
  | nil => simp [Base.startsWith]
  | cons d cs' =>
    have hd := hcs d rfl
    simp only [Base.startsWith, List.length_cons, List.length_nil, List.take_succ_cons,
      List.map_cons, toLower_decimal hd, List.cons.injEq, decide_eq_false_iff_not, not_and]
    rintro - rfl
    rcases hd with hd | hd <;> simp [Char.isDigit] at hd

theorem isSpace_decimal {c : Char} (h : c.isDigit = true ∨ c = '.') : isSpace c = false := by
  rcases h with h | rfl
  · have := isDigit_mem h
    fin_cases this <;> rfl
  · rfl

def signed (negative : Bool) (q : ℚ) : ℚ := if negative then -q else q

def signChars (negative : Bool) : List Char := if negative then ['-'] else []

theorem IsRun.takeSign (h : IsRun cs) : Base.takeSign cs = (false, cs) := by
  obtain ⟨c, cs', rfl, hc, -⟩ := h.head
  unfold Base.takeSign
  split
  · rename_i heq
    obtain ⟨rfl, -⟩ := List.cons.inj heq
    rcases hc with hc | hc <;> simp [Char.isDigit] at hc
  · rename_i heq
    obtain ⟨rfl, -⟩ := List.cons.inj heq
    rcases hc with hc | hc <;> simp [Char.isDigit] at hc
  · rfl

theorem IsRun.takeSign_signed (negative : Bool) (h : IsRun cs) :
    Base.takeSign ((signChars negative ++ cs).dropWhile isSpace) = (negative, cs) := by
  obtain ⟨c, cs', hb, hc, -⟩ := h.head
  cases negative with
  | true => rfl
  | false =>
    have hskip : cs.dropWhile isSpace = cs := by simp [hb, isSpace_decimal hc]
    simpa [signChars, hskip] using h.takeSign

theorem IsRun.strtod (negative : Bool) (h : IsRun cs) : Base.strtod (signChars negative ++ cs) =
    (scanDecimal cs).map fun q => .num (signed negative q) := by
  have hinf := h.startsWith ['i', 'n', 'f'] ⟨'i', by simp, by decide, by decide⟩
  have hnan := h.startsWith ['n', 'a', 'n'] ⟨'n', by simp, by decide, by decide⟩
  simp only [Base.strtod, h.takeSign_signed negative, hinf, hnan, h.startsWith_hex,
    Bool.false_eq_true, if_false]
  cases hscan : scanDecimal cs with
  | none => rfl
  | some q => cases negative <;> simp [signed]

end Run

section

variable {ds : List Char} {frac : Option (List Char)}

theorem scanMantissa_decimal (h : IsDecimal ds frac) :
    scanMantissa Char.isDigit (decimalChars ds frac) = ⟨ds, frac.getD [], []⟩ := by
  cases frac with
  | none =>
    simp [scanMantissa, decimalChars, List.takeWhile_eq_self_iff.2 h.int,
      List.dropWhile_eq_nil_iff.2 h.int]
  | some fs =>
    have hfs : ∀ c ∈ fs, c.isDigit = true := h.fractional
    have hdot : ('.' : Char).isDigit = false := rfl
    simp [scanMantissa, decimalChars, List.takeWhile_append, List.dropWhile_append,
      List.takeWhile_eq_self_iff.2 h.int, List.dropWhile_eq_nil_iff.2 h.int,
      List.takeWhile_eq_self_iff.2 hfs, List.dropWhile_eq_nil_iff.2 hfs, hdot]

theorem scanDecimal_decimal (h : IsDecimal ds frac) :
    scanDecimal (decimalChars ds frac) = some (decimalValue ds frac) := by
  have hne : ¬ (ds = [] ∧ frac.getD [] = []) := by
    have := h.nonempty
    tauto
  simp only [scanDecimal, scanMantissa_decimal h, if_neg hne, scanExponent, decimalValue, zero_sub,
    zpow_neg, zpow_natCast, div_eq_mul_inv]

theorem decimalChars_mem (h : IsDecimal ds frac) {c : Char} (hc : c ∈ decimalChars ds frac) :
    c.isDigit = true ∨ c = '.' := by
  cases frac with
  | none => exact .inl (h.int c hc)
  | some fs =>
    simp only [decimalChars, List.mem_append, List.mem_cons] at hc
    rcases hc with hc | hc | hc
    · exact .inl (h.int c hc)
    · exact .inr hc
    · exact .inl (h.fractional c hc)

theorem IsDecimal.isRun (h : IsDecimal ds frac) : IsRun (decimalChars ds frac) := by
  refine ⟨?_, fun c hc => decimalChars_mem h hc⟩
  cases frac with
  | none => simpa [decimalChars] using h.nonempty
  | some fs => simp [decimalChars]

theorem decimalChars_head (h : IsDecimal ds frac) :
    ∃ c cs, decimalChars ds frac = c :: cs ∧ (c.isDigit = true ∨ c = '.') ∧
      ∀ d ∈ cs.head?, d.isDigit = true ∨ d = '.' := h.isRun.head

theorem strtod_decimal (negative : Bool) (h : IsDecimal ds frac) :
    strtod (signChars negative ++ decimalChars ds frac) =
      some (.num (signed negative (decimalValue ds frac))) := by
  rw [h.isRun.strtod negative, scanDecimal_decimal h, Option.map_some]

theorem stod_signed (negative : Bool) (h : IsDecimal ds frac) :
    stod (String.ofList (signChars negative ++ decimalChars ds frac)) =
      if inDoubleRange (signed negative (decimalValue ds frac)) then
        .ok (.num (signed negative (decimalValue ds frac)))
      else .error (.outOfRange "stod") := by
  simp [stod, strtod_decimal negative h]

theorem stod_decimal (negative : Bool) (h : IsDecimal ds frac)
    (hr : inDoubleRange (signed negative (decimalValue ds frac)) = true) :
    stod (String.ofList (signChars negative ++ decimalChars ds frac)) =
      .ok (.num (signed negative (decimalValue ds frac))) := by
  rw [stod_signed negative h, if_pos hr]

def leadingDecimal (cs : List Char) : List Char × Option (List Char) :=
  match cs.dropWhile Char.isDigit with
  | '.' :: fs => (cs.takeWhile Char.isDigit, some (fs.takeWhile Char.isDigit))
  | _ => (cs.takeWhile Char.isDigit, none)

theorem dropWhile_digit {cs : List Char} (h : ∀ c ∈ cs, c.isDigit = true ∨ c = '.') :
    cs.dropWhile Char.isDigit = [] ∨ ∃ fs, cs.dropWhile Char.isDigit = '.' :: fs := by
  cases hdrop : cs.dropWhile Char.isDigit with
  | nil => exact .inl rfl
  | cons c fs =>
    have hmem : c ∈ cs := (List.dropWhile_sublist _).subset (hdrop ▸ List.mem_cons_self)
    have hc : c.isDigit = false := by
      have hhead := List.head?_dropWhile_not Char.isDigit cs
      simpa [hdrop] using hhead
    obtain rfl := (h c hmem).resolve_left (by simp [hc])
    exact .inr ⟨fs, rfl⟩

theorem IsRun.scanDecimal {cs : List Char} (h : IsRun cs)
    (hd : IsDecimal (leadingDecimal cs).1 (leadingDecimal cs).2) :
    Base.scanDecimal cs = some (decimalValue (leadingDecimal cs).1 (leadingDecimal cs).2) := by
  have hne : ¬ ((leadingDecimal cs).1 = [] ∧ (leadingDecimal cs).2.getD [] = []) := by
    have := hd.nonempty
    tauto
  rcases dropWhile_digit h.chars with hdrop | ⟨fs, hdrop⟩
  · simp only [leadingDecimal, hdrop, Option.getD_none, and_true] at hne ⊢
    simp only [Base.scanDecimal, scanMantissa, hdrop, and_true]
    rw [if_neg hne]
    simp [scanExponent, decimalValue]
  · have hfs : ∀ c ∈ fs, c.isDigit = true ∨ c = '.' := by
      intro c hc
      refine h.chars c ((List.dropWhile_sublist Char.isDigit).subset ?_)
      rw [hdrop]
      exact List.mem_cons_of_mem _ hc
    have hexp : scanExponent 'e' (fs.dropWhile Char.isDigit) = 0 := by
      rcases dropWhile_digit hfs with hrest | ⟨rest, hrest⟩
      · rw [hrest]
        rfl
      · rw [hrest, scanExponent, if_neg (by decide)]
    simp only [leadingDecimal, hdrop, Option.getD_some] at hne ⊢
    simp only [Base.scanDecimal, scanMantissa, hdrop, hexp, zero_sub, zpow_neg, zpow_natCast]
    rw [if_neg hne]
    simp [decimalValue, div_eq_mul_inv]

theorem IsRun.stod {cs : List Char} (h : IsRun cs)
    (hd : IsDecimal (leadingDecimal cs).1 (leadingDecimal cs).2) :
    Base.stod (String.ofList cs) =
      if inDoubleRange (decimalValue (leadingDecimal cs).1 (leadingDecimal cs).2) then
        .ok (.num (decimalValue (leadingDecimal cs).1 (leadingDecimal cs).2))
      else .error (.outOfRange "stod") := by
  have hscan := h.strtod false
  rw [h.scanDecimal hd] at hscan
  simp only [signChars, Bool.false_eq_true, if_false, List.nil_append, Option.map_some,
    signed] at hscan
  rw [Base.stod, String.toList_ofList, hscan]

theorem comma_notMem_signed (negative : Bool) (h : IsDecimal ds frac) :
    ',' ∉ signChars negative ++ decimalChars ds frac := by
  intro hmem
  rcases List.mem_append.1 hmem with hmem | hmem
  · cases negative <;> simp [signChars] at hmem
  · rcases decimalChars_mem h hmem with hdigit | hdot
    · cases hdigit
    · cases hdot

end

theorem isDecimal_toDigits (n : Nat) : IsDecimal (Nat.toDigits 10 n) none :=
  ⟨fun _ hc => Nat.isDigit_of_mem_toDigits (by decide) (by decide) hc, by simp,
    .inl Nat.toDigits_ne_nil⟩

theorem intToChars_eq (n : Int) :
    intToChars n = signChars (n < 0) ++ decimalChars (Nat.toDigits 10 n.natAbs) none := by
  by_cases hn : n < 0 <;> simp [intToChars, signChars, decimalChars, hn]

theorem scan_intToChars (n : Int) :
    takeSign ((intToChars n).dropWhile isSpace) = (decide (n < 0), Nat.toDigits 10 n.natAbs) ∧
      (Nat.toDigits 10 n.natAbs).takeWhile Char.isDigit = Nat.toDigits 10 n.natAbs := by
  refine ⟨?_, List.takeWhile_eq_self_iff.2 (isDecimal_toDigits _).int⟩
  rw [intToChars_eq, (isDecimal_toDigits _).isRun.takeSign_signed]
  rfl

theorem stoll_intToString {n : Int} (h : -2 ^ 63 ≤ n ∧ n < 2 ^ 63) :
    stoll (intToString n) = .ok n := by
  obtain ⟨hscan, htake⟩ := scan_intToChars n
  have hval : (if n < 0 then -(n.natAbs : Int) else n.natAbs) = n := by
    split_ifs <;> omega
  simp only [stoll, intToString, String.toList_ofList, hscan, htake, Nat.toDigits_ne_nil, if_false,
    Nat.ofDigitChars_ten_toDigits, decide_eq_true_eq, hval, h, and_self, if_true]

theorem stoull_intToString {n : Nat} (h : n < 2 ^ 64) : stoull (intToString n) = .ok n := by
  obtain ⟨hscan, htake⟩ := scan_intToChars n
  have hneg : ¬ ((n : Int) < 0) := by omega
  rw [Int.natAbs_natCast] at hscan htake
  simp only [stoull, intToString, String.toList_ofList, hscan, htake, Nat.toDigits_ne_nil, if_false,
    Nat.ofDigitChars_ten_toDigits, not_le.2 h, hneg, decide_false,
    Bool.false_eq_true]

theorem stod_intToString {n : Int} (h : inDoubleRange n = true) :
    stod (intToString n) = .ok (.num n) := by
  have hval : signed (n < 0) (decimalValue (Nat.toDigits 10 n.natAbs) none) = n := by
    simp only [signed, decimalValue, Option.getD_none, List.append_nil, List.length_nil, pow_zero,
      div_one, Nat.ofDigitChars_ten_toDigits, decide_eq_true_eq]
    split_ifs with hn
    · rw [Nat.cast_natAbs, abs_of_neg hn, Int.cast_neg, neg_neg]
    · rw [Nat.cast_natAbs, abs_of_nonneg (not_lt.1 hn)]
  rw [intToString, intToChars_eq, stod_decimal _ (isDecimal_toDigits _) (by rw [hval]; exact h), hval]

theorem roundHalfEven_intCast (n : Int) : roundHalfEven n = n := by
  simp [roundHalfEven]

theorem padDigits_length {width n : Nat} (hw : 0 < width) (h : n < 10 ^ width) :
    (padDigits width n).length = width := by
  have hlen : (Nat.toDigits 10 n).length ≤ width :=
    (Nat.length_toDigits_le_iff (by decide) hw).2 h
  simp [padDigits]
  omega

theorem ofDigitChars_padDigits (width n : Nat) :
    Nat.ofDigitChars 10 (padDigits width n) 0 = n := by
  simp [padDigits, Nat.ofDigitChars_append]

theorem isDigit_padDigits {width n : Nat} {c : Char} (hc : c ∈ padDigits width n) :
    c.isDigit = true := by
  rcases List.mem_append.1 hc with hc | hc
  · rw [(List.mem_replicate.1 hc).2]
    rfl
  · exact Nat.isDigit_of_mem_toDigits (by decide) (by decide) hc

theorem roundHalfEven_mem (q : ℚ) : ⌊q⌋ ≤ roundHalfEven q ∧ roundHalfEven q ≤ ⌈q⌉ := by
  have hlt {r : ℚ} (hr : ¬ r < 1 / 2) (h : r = q - ⌊q⌋) : ⌊q⌋ + 1 ≤ ⌈q⌉ := by
    have hq : ((⌊q⌋ : Int) : ℚ) < q := by linarith
    exact Int.lt_ceil.mpr hq
  have hle : ⌊q⌋ ≤ ⌈q⌉ := Int.floor_le_ceil q
  simp only [roundHalfEven]
  split_ifs with h₁ h₂ h₃
  · exact ⟨le_rfl, hle⟩
  · exact ⟨by omega, hlt h₁ rfl⟩
  · exact ⟨le_rfl, hle⟩
  · exact ⟨by omega, hlt h₁ rfl⟩

def fixedValue (q : ℚ) : ℚ := signed (q < 0) (roundHalfEven (|q| * 10 ^ 6) / 10 ^ 6)

theorem fixedToChars_decimal (q : ℚ) : ∃ ds fs, IsDecimal ds (some fs) ∧
    fixedToChars q = signChars (q < 0) ++ decimalChars ds (some fs) ∧
      signed (q < 0) (decimalValue ds (some fs)) = fixedValue q := by
  obtain ⟨m, hm⟩ : ∃ m : Nat, roundHalfEven (|q| * 10 ^ 6) = m := by
    apply Int.eq_ofNat_of_zero_le
    apply le_trans _ (roundHalfEven_mem _).1
    exact Int.floor_nonneg.mpr (by positivity)
  refine ⟨Nat.toDigits 10 (m / 10 ^ 6), padDigits 6 (m % 10 ^ 6), ?_, ?_, ?_⟩
  · exact ⟨(isDecimal_toDigits _).int, fun c hc => isDigit_padDigits hc, .inl Nat.toDigits_ne_nil⟩
  · by_cases hn : q < 0 <;> simp [fixedToChars, hm, signChars, decimalChars, hn]
  · have hlen : (padDigits 6 (m % 10 ^ 6)).length = 6 :=
      padDigits_length (by decide) (Nat.mod_lt _ (by norm_num))
    have hdiv : 10 ^ 6 * (m / 10 ^ 6) + m % 10 ^ 6 = m := Nat.div_add_mod m (10 ^ 6)
    have hval : decimalValue (Nat.toDigits 10 (m / 10 ^ 6)) (some (padDigits 6 (m % 10 ^ 6))) =
        m / 10 ^ 6 := by
      simp only [decimalValue, Option.getD_some, Nat.ofDigitChars_append,
        Nat.ofDigitChars_ten_toDigits, @Nat.ofDigitChars_eq_ofDigitChars_zero _ (m / 10 ^ 6),
        ofDigitChars_padDigits, hlen, hdiv]
    rw [hval, fixedValue, hm, Int.cast_natCast]

theorem stod_fixed (q : ℚ) : stod (fixedToString q) =
    if inDoubleRange (fixedValue q) then .ok (.num (fixedValue q))
    else .error (.outOfRange "stod") := by
  obtain ⟨ds, fs, hdec, hchars, hvalue⟩ := fixedToChars_decimal q
  rw [fixedToString, hchars, stod_signed _ hdec, hvalue]

theorem stod_fixedToString {q : ℚ} (h : inDoubleRange (fixedValue q) = true) :
    stod (fixedToString q) = .ok (.num (fixedValue q)) := by
  rw [stod_fixed, if_pos h]

theorem comma_notMem_fixed (q : ℚ) : ',' ∉ fixedToChars q := by
  obtain ⟨ds, fs, hdec, hchars, -⟩ := fixedToChars_decimal q
  rw [hchars]
  exact comma_notMem_signed _ hdec

theorem comma_notMem_int (n : Int) : ',' ∉ intToChars n := by
  rw [intToChars_eq]
  exact comma_notMem_signed _ (isDecimal_toDigits _)

theorem signed_abs (q : ℚ) : signed (q < 0) |q| = q := by
  by_cases hn : q < 0
  · simp [signed, hn, abs_of_neg]
  · simp [signed, hn, abs_of_nonneg (not_lt.1 hn)]

theorem abs_signed (negative : Bool) (q : ℚ) : |signed negative q| = |q| := by
  cases negative <;> simp [signed]

theorem doubleMax_gt : (2 : ℚ) ^ 63 < 2 ^ 1024 - 2 ^ 970 := by
  have hsplit : (2 : ℚ) ^ 1024 = 2 ^ 970 * 2 ^ 54 := by rw [← pow_add]
  have hle : (2 : ℚ) ^ 63 ≤ 2 ^ 970 := pow_le_pow_right₀ one_le_two (by decide)
  have hpos : (0 : ℚ) < 2 ^ 970 := by positivity
  calc (2 : ℚ) ^ 63 ≤ 2 ^ 970 := hle
    _ < 2 ^ 970 * (2 ^ 54 - 1) := lt_mul_of_one_lt_right hpos (by norm_num)
    _ = 2 ^ 1024 - 2 ^ 970 := by rw [hsplit, mul_sub, mul_one]

theorem inDoubleRange_of_abs_le {q : ℚ} (hz : q = 0 ∨ 1 / 10 ^ 6 ≤ |q|) (h : |q| ≤ 2 ^ 63) :
    inDoubleRange q = true := by
  rcases hz with rfl | hz
  · simp [inDoubleRange]
  · have hupper : |q| < 2 ^ 1024 - 2 ^ 970 := lt_of_le_of_lt h doubleMax_gt
    have hpow : (10 : ℚ) ^ 6 ≤ 2 ^ 1022 := by
      calc (10 : ℚ) ^ 6 ≤ 2 ^ 20 := by norm_num
        _ ≤ 2 ^ 1022 := pow_le_pow_right₀ one_le_two (by decide)
    have hlower : (1 : ℚ) / 2 ^ 1022 ≤ |q| :=
      le_trans (one_div_le_one_div_of_le (by norm_num) hpow) hz
    simp only [inDoubleRange, Bool.or_eq_true, Bool.and_eq_true, decide_eq_true_eq]
    exact .inr ⟨hupper, .inl hlower⟩

theorem inDoubleRange_fixedValue {q : ℚ} (h : |q| ≤ 2 ^ 63) :
    inDoubleRange (fixedValue q) = true := by
  obtain ⟨hlo, hhi⟩ := roundHalfEven_mem (|q| * 10 ^ 6)
  have hnonneg : 0 ≤ roundHalfEven (|q| * 10 ^ 6) :=
    le_trans (Int.floor_nonneg.mpr (by positivity)) hlo
  have habs : |fixedValue q| = roundHalfEven (|q| * 10 ^ 6) / 10 ^ 6 := by
    rw [fixedValue, abs_signed, abs_of_nonneg]
    have : (0 : ℚ) ≤ roundHalfEven (|q| * 10 ^ 6) := by exact_mod_cast hnonneg
    positivity
  apply inDoubleRange_of_abs_le
  · rcases hnonneg.eq_or_lt with hz | hpos
    · left
      rw [← abs_eq_zero, habs, ← hz]
      simp
    · right
      have hone : (1 : ℚ) ≤ roundHalfEven (|q| * 10 ^ 6) := by exact_mod_cast hpos
      rw [habs]
      exact div_le_div_of_nonneg_right hone (by norm_num)
  · have hceil : ⌈|q| * 10 ^ 6⌉ ≤ 2 ^ 63 * 10 ^ 6 := by
      apply Int.ceil_le.mpr
      push_cast
      nlinarith
    have hle : (roundHalfEven (|q| * 10 ^ 6) : ℚ) ≤ 2 ^ 63 * 10 ^ 6 := by
      exact_mod_cast le_trans hhi hceil
    rw [habs, div_le_iff₀ (by norm_num)]
    exact hle

theorem fixedValue_eq_iff (q : ℚ) : fixedValue q = q ↔ (q * 10 ^ 6).den = 1 := by
  have habs : |q * 10 ^ 6| = |q| * 10 ^ 6 := by
    rw [abs_mul, abs_of_pos (by norm_num : (0 : ℚ) < 10 ^ 6)]
  constructor
  · intro h
    have hscaled : q * 10 ^ 6 = ((if q < 0 then -roundHalfEven (|q| * 10 ^ 6)
        else roundHalfEven (|q| * 10 ^ 6) : Int) : ℚ) := by
      nth_rewrite 1 [← h]
      by_cases hn : q < 0 <;> simp [fixedValue, signed, hn]
    rw [hscaled]
    exact Rat.den_intCast _
  · intro h
    obtain ⟨n, hn⟩ : ∃ n : Int, |q| * 10 ^ 6 = n := by
      refine ⟨|(q * 10 ^ 6).num|, ?_⟩
      rw [Int.cast_abs, Rat.coe_int_num_of_den_eq_one h, habs]
    have hq : |q| = n / 10 ^ 6 := by
      rw [← hn]
      field_simp
    rw [fixedValue, hn, roundHalfEven_intCast, ← hq, signed_abs]

end Lark.Base
