import Lark.Column.Exec.ScalarOps

namespace Lark.Column.Compute

open Lark.Base Lark.Column.Exec

inductive Simd where
  | neon
  | avx512
  | avx2
  | sse2
  | scalar
  deriving DecidableEq

def Simd.lanes : Simd → Nat
  | neon => 2
  | avx512 => 8
  | avx2 => 4
  | sse2 => 2
  | scalar => 1

-- Only the NEON build compares by registers.
def Simd.compareLanes : Simd → Nat
  | neon => 2
  | _ => 1

section Loop

variable {α β : Type}

-- `k` registers of `w` lanes, then the scalar loop over the rest.
def registers (w : Nat) (f : α → α → β) : Nat → List α → List α → List β
  | 0, xs, ys => List.zipWith f xs ys
  | k + 1, xs, ys =>
    List.zipWith f (xs.take w) (ys.take w) ++ registers w f k (xs.drop w) (ys.drop w)

def simdLoop (w : Nat) (f : α → α → β) (xs ys : List α) : List β :=
  registers w f (xs.length / w) xs ys

theorem registers_eq_zipWith (w : Nat) (f : α → α → β) (k : Nat) (xs ys : List α) :
    registers w f k xs ys = List.zipWith f xs ys := by
  induction k generalizing xs ys with
  | zero => rfl
  | succ k ih =>
    rw [registers, ih, ← List.take_zipWith, ← List.drop_zipWith, List.take_append_drop]

theorem simdLoop_eq_zipWith (w : Nat) (f : α → α → β) (xs ys : List α) :
    simdLoop w f xs ys = List.zipWith f xs ys :=
  registers_eq_zipWith w f _ xs ys

end Loop

-- The first `n` elements of a buffer through a pointer of another type.
def readAs (t : ScalarType) (n : Nat) (a : Tensor) : Except Exn (List t.Carrier) :=
  if n = 0 then .ok []
  else do
    let p ← a.dataAs t
    if n ≤ p.length then .ok (p.take n) else .error (.undefined "element read past the end")

-- The loops of the kernels run over the first operand's size and read both operands at one type.
def readPair (t : ScalarType) (a b : Tensor) : Except Exn (List t.Carrier × List t.Carrier) := do
  let pa ← readAs t a.size a
  let pb ← readAs t a.size b
  .ok (pa, pb)

def writeDoubles (dtype : DType) (r : List Double) : Except Exn Tensor :=
  match dtype with
  | .scalar .float64 => .ok (.scalar .float64 r)
  | .scalar t =>
    if r = [] then .ok (.scalar t []) else .error (.undefined "element written at another type")
  | .q8_0 =>
    if r = [] then .ok (.q8_0 0 []) else .error (.undefined "element written at another type")

structure ArithKernel where
  name : String
  onInt64 : Int64 → Int64 → Int64
  onDouble : Double → Double → Double

def typeMismatch (name : String) : Exn := .runtimeError ("Type mismatch in " ++ name)

def arithInt64 (k : ArithKernel) (a b : Tensor) : Except Exn Tensor := do
  let (pa, pb) ← readPair .int64 a b
  .ok (.scalar .int64 (List.zipWith k.onInt64 pa pb))

def arithF64 (k : ArithKernel) (simd : Simd) (a b : Tensor) : Except Exn Tensor := do
  let (pa, pb) ← readPair .float64 a b
  writeDoubles a.dtype (simdLoop simd.lanes k.onDouble pa pb)

def arith (k : ArithKernel) (simd : Simd) (a b : Tensor) : Except Exn Tensor :=
  if a.dtype ≠ b.dtype then .error (typeMismatch k.name)
  else if a.dtype = .int64 then arithInt64 k a b
  else arithF64 k simd a b

def add : Simd → Tensor → Tensor → Except Exn Tensor := arith ⟨"add", (· + ·), (· + ·)⟩

def sub : Simd → Tensor → Tensor → Except Exn Tensor := arith ⟨"sub", (· - ·), (· - ·)⟩

def mul : Simd → Tensor → Tensor → Except Exn Tensor := arith ⟨"mul", (· * ·), (· * ·)⟩

-- The result is a double tensor on both paths.
def div (simd : Simd) (a b : Tensor) : Except Exn Tensor :=
  if a.dtype ≠ b.dtype then .error (typeMismatch "div")
  else if a.dtype = .int64 then do
    let (pa, pb) ← readPair .int64 a b
    .ok (.scalar .float64
      (List.zipWith (fun (x y : Int64) => Elem.toDouble x / Elem.toDouble y) pa pb))
  else do
    let (pa, pb) ← readPair .float64 a b
    .ok (.scalar .float64 (simdLoop simd.lanes (· / ·) pa pb))

-- The dtypes and lengths of the operands are not compared.
def compareTT (op : CmpOp) (simd : Simd) (a b : Tensor) : Except Exn Tensor :=
  if a.dtype = .int64 then do
    let (pa, pb) ← readPair .int64 a b
    .ok (.scalar .int64 (List.zipWith (fun (x y : Int64) => maskOf (op.apply x y)) pa pb))
  else do
    let (pa, pb) ← readPair .float64 a b
    .ok (.scalar .int64
      (simdLoop simd.compareLanes (fun (x y : Double) => maskOf (op.apply x y)) pa pb))

def gt : Simd → Tensor → Tensor → Except Exn Tensor := compareTT .gt

def lt : Simd → Tensor → Tensor → Except Exn Tensor := compareTT .lt

def ge : Simd → Tensor → Tensor → Except Exn Tensor := compareTT .ge

def le : Simd → Tensor → Tensor → Except Exn Tensor := compareTT .le

def eq : Simd → Tensor → Tensor → Except Exn Tensor := compareTT .eq

inductive Function where
  | add
  | sub
  | mul
  | div
  | gt
  | ge
  | lt
  | le
  | eq
  deriving DecidableEq

namespace Function

def apply (simd : Simd) : Function → Tensor → Tensor → Except Exn Tensor
  | add => Compute.add simd
  | sub => Compute.sub simd
  | mul => Compute.mul simd
  | div => Compute.div simd
  | gt => Compute.gt simd
  | ge => Compute.ge simd
  | lt => Compute.lt simd
  | le => Compute.le simd
  | eq => Compute.eq simd

def op : Function → Tensor → Tensor → Except Exn Tensor
  | add => binaryArith .add
  | sub => binaryArith .sub
  | mul => binaryArith .mul
  | div => binaryArith .div
  | gt => Exec.compare .gt
  | ge => Exec.compare .ge
  | lt => Exec.compare .lt
  | le => Exec.compare .le
  | eq => Exec.compare .eq

def isArith : Function → Bool
  | add | sub | mul | div => true
  | _ => false

end Function

-- A kernel that throws, or returns what the op computes; undefined behaviour is neither.
inductive Matches : Except Exn Tensor → Except Exn Tensor → Prop
  | throws {e : Exn} {r : Except Exn Tensor} (h : ∀ what, e ≠ .undefined what) :
      Matches (.error e) r
  | returns {x y : Tensor} (h : x.values = y.values) : Matches (.ok x) (.ok y)

theorem Matches.of_eq {r r' : Except Exn Tensor} {x : Tensor} (h : r = .ok x) (h' : r' = .ok x) :
    Matches r r' := by
  rw [h, h']
  exact .returns rfl

section Reading

variable {s t u : ScalarType} {xs : List s.Carrier} {ys : List t.Carrier}

theorem readAs_error {n : Nat} {a : Tensor} {e : Exn} (h : readAs u n a = .error e) :
    ∃ what, e = .undefined what := by
  unfold readAs at h
  split_ifs at h with hn
  cases hp : a.dataAs u with
  | error e' =>
    rw [hp] at h
    obtain rfl : e' = e := Except.error.inj h
    unfold Tensor.dataAs at hp
    split at hp
    · split_ifs at hp
      exact ⟨_, (Except.error.inj hp).symm⟩
    · split_ifs at hp
      exact ⟨_, (Except.error.inj hp).symm⟩
  | ok p =>
    rw [hp, except_ok_bind] at h
    split_ifs at h
    exact ⟨_, (Except.error.inj h).symm⟩

theorem readPair_error {a b : Tensor} {e : Exn} (h : readPair u a b = .error e) :
    ∃ what, e = .undefined what := by
  unfold readPair at h
  cases ha : readAs u a.size a with
  | error e' =>
    rw [ha] at h
    obtain rfl : e' = e := Except.error.inj h
    exact readAs_error ha
  | ok pa =>
    rw [ha, except_ok_bind] at h
    cases hb : readAs u a.size b with
    | error e' =>
      rw [hb] at h
      obtain rfl : e' = e := Except.error.inj h
      exact readAs_error hb
    | ok pb =>
      rw [hb] at h
      cases h

theorem type_of_readAs {n : Nat} {p : List u.Carrier} (h : readAs u n (.scalar s xs) = .ok p)
    (hn : n ≠ 0) : s = u := by
  rw [readAs, if_neg hn] at h
  by_contra hne
  rw [Tensor.dataAs_ne hne] at h
  split_ifs at h with hnil
  · rw [except_ok_bind, if_neg (by simpa using hn)] at h
    cases h
  · cases h

theorem types_of_readPair {p : List u.Carrier × List u.Carrier}
    (h : readPair u (.scalar s xs) (.scalar t ys) = .ok p) : xs.length = 0 ∨ s = u ∧ t = u := by
  obtain ⟨pa, ha, h⟩ := except_bind_eq_ok.mp h
  obtain ⟨pb, hb, -⟩ := except_bind_eq_ok.mp h
  by_cases hn : xs.length = 0
  · exact .inl hn
  · exact .inr ⟨type_of_readAs ha hn, type_of_readAs hb hn⟩

theorem readAs_same {n : Nat} {zs : List u.Carrier} (h : n = zs.length) :
    readAs u n (.scalar u zs) = .ok zs := by
  rw [readAs]
  split_ifs with hn
  · rw [List.length_eq_zero_iff.mp (h.symm.trans hn)]
  · simp [h]

theorem readPair_same {xs ys : List u.Carrier} (h : xs.length = ys.length) :
    readPair u (.scalar u xs) (.scalar u ys) = .ok (xs, ys) := by
  have hx : readAs u (Tensor.scalar u xs).size (.scalar u xs) = .ok xs := readAs_same rfl
  have hy : readAs u (Tensor.scalar u xs).size (.scalar u ys) = .ok ys := readAs_same h
  rw [readPair, hx, except_ok_bind, hy, except_ok_bind]

end Reading

section Outcomes

variable {s t : ScalarType} {xs : List s.Carrier} {ys : List t.Carrier}

inductive Dispatches (a b : Tensor) : Except Exn Tensor → Prop
  | int64 {g : List Int64 × List Int64 → Tensor} (h : a.dtype = .int64) :
      Dispatches a b (readPair .int64 a b >>= fun p => .ok (g p))
  | double {g : List Double × List Double → Except Exn Tensor} (h : a.dtype ≠ .int64)
      (hg : ∀ p e, g p = .error e → ∃ what, e = .undefined what) :
      Dispatches a b (readPair .float64 a b >>= g)

theorem writeDoubles_error {dtype : DType} {r : List Double} {e : Exn}
    (h : writeDoubles dtype r = .error e) : ∃ what, e = .undefined what := by
  unfold writeDoubles at h
  split at h
  · cases h
  · split_ifs at h
    exact ⟨_, (Except.error.inj h).symm⟩
  · split_ifs at h
    exact ⟨_, (Except.error.inj h).symm⟩

theorem Dispatches.error {a b : Tensor} {r : Except Exn Tensor} (h : Dispatches a b r) {e : Exn}
    (he : r = .error e) : ∃ what, e = .undefined what := by
  cases h with
  | int64 h =>
    cases hp : readPair .int64 a b with
    | error e' =>
      rw [hp] at he
      exact Except.error.inj he ▸ readPair_error hp
    | ok p =>
      rw [hp] at he
      cases he
  | double h hg =>
    cases hp : readPair .float64 a b with
    | error e' =>
      rw [hp] at he
      exact Except.error.inj he ▸ readPair_error hp
    | ok p =>
      rw [hp] at he
      exact hg p e he

theorem Dispatches.types {r : Except Exn Tensor}
    (h : Dispatches (.scalar s xs) (.scalar t ys) r) {x : Tensor} (hx : r = .ok x) :
    xs.length = 0 ∨ s = t ∧ (s = .int64 ∨ s = .float64) := by
  cases h with
  | int64 h =>
    obtain ⟨p, hp, -⟩ := except_bind_eq_ok.mp hx
    rcases types_of_readPair hp with hn | ⟨rfl, rfl⟩
    · exact .inl hn
    · exact .inr ⟨rfl, .inl rfl⟩
  | double h hg =>
    obtain ⟨p, hp, -⟩ := except_bind_eq_ok.mp hx
    rcases types_of_readPair hp with hn | ⟨rfl, rfl⟩
    · exact .inl hn
    · exact .inr ⟨rfl, .inr rfl⟩

theorem arith_dispatches (k : ArithKernel) (simd : Simd) {a b : Tensor} (h : a.dtype = b.dtype) :
    Dispatches a b (arith k simd a b) := by
  rw [arith, if_neg (not_not.mpr h)]
  split_ifs with hint
  · exact .int64 hint
  · exact .double hint fun p e => writeDoubles_error

theorem div_dispatches (simd : Simd) {a b : Tensor} (h : a.dtype = b.dtype) :
    Dispatches a b (div simd a b) := by
  rw [div, if_neg (not_not.mpr h)]
  split_ifs with hint
  · exact .int64 hint
  · exact .double hint fun p e he => nomatch he

theorem compareTT_dispatches (op : CmpOp) (simd : Simd) (a b : Tensor) :
    Dispatches a b (compareTT op simd a b) := by
  rw [compareTT]
  split_ifs with hint
  · exact .int64 hint
  · exact .double hint fun p e he => nomatch he

theorem apply_dispatches (f : Function) (simd : Simd) {a b : Tensor}
    (h : f.isArith → a.dtype = b.dtype) : Dispatches a b (f.apply simd a b) := by
  cases f with
  | add => exact arith_dispatches _ simd (h rfl)
  | sub => exact arith_dispatches _ simd (h rfl)
  | mul => exact arith_dispatches _ simd (h rfl)
  | div => exact div_dispatches simd (h rfl)
  | _ => exact compareTT_dispatches _ simd a b

theorem apply_mismatch (f : Function) (simd : Simd) {a b : Tensor} (hf : f.isArith)
    (h : a.dtype ≠ b.dtype) : ∃ name, f.apply simd a b = .error (typeMismatch name) := by
  cases f with
  | add => exact ⟨_, if_pos h⟩
  | sub => exact ⟨_, if_pos h⟩
  | mul => exact ⟨_, if_pos h⟩
  | div => exact ⟨_, if_pos h⟩
  | _ => cases hf

theorem size_of_binaryArith {op : ArithOp} {a b x : Tensor} (h : binaryArith op a b = .ok x) :
    a.size = b.size := by
  by_contra hne
  rw [binaryArith, elementwiseBinary, if_pos (Ne.symm hne)] at h
  cases h

theorem size_of_compare {op : CmpOp} {a b x : Tensor} (h : Exec.compare op a b = .ok x) :
    a.size = b.size := by
  by_contra hne
  rw [Exec.compare, if_pos hne] at h
  cases h

theorem size_of_op {f : Function} {a b x : Tensor} (h : f.op a b = .ok x) : a.size = b.size := by
  cases f with
  | add => exact size_of_binaryArith h
  | sub => exact size_of_binaryArith h
  | mul => exact size_of_binaryArith h
  | div => exact size_of_binaryArith h
  | _ => exact size_of_compare h

end Outcomes

section Agreement

variable {u : ScalarType} {xs ys : List u.Carrier}

theorem binaryArith_same {op : ArithOp} (hop : op ≠ .div) {g : u.Carrier → u.Carrier → u.Carrier}
    (hg : ∀ x y, op.apply u x y = .ok (g x y)) (h : xs.length = ys.length) :
    binaryArith op (.scalar u xs) (.scalar u ys) = .ok (.scalar u (List.zipWith g xs ys)) := by
  have hsize : (Tensor.scalar u xs).size = (Tensor.scalar u ys).size := h
  have hpro : promote (Tensor.scalar u xs).dtype (Tensor.scalar u ys).dtype = .scalar u :=
    if_pos rfl
  have hmap := mapM_ok fun p (_ : p ∈ List.zip xs ys) => hg p.1 p.2
  rw [binaryArith_readable op hop hsize hpro (readable_same xs) (readable_same ys), hmap,
    except_ok_bind]
  exact congrArg (fun l => Except.ok (Tensor.scalar u l)) List.map_zip_eq_zipWith

theorem binaryArith_div_same (h : xs.length = ys.length) :
    binaryArith .div (.scalar u xs) (.scalar u ys) =
      .ok (.scalar .float64
        (List.zipWith (fun x y => Elem.toDouble x / Elem.toDouble y) xs ys)) := by
  have hmap := mapM_ok fun p (_ : p ∈ List.zip (xs.map Elem.toDouble) (ys.map Elem.toDouble)) =>
    apply_double .div p.1 p.2
  have hsize : (Tensor.scalar u xs).size = (Tensor.scalar u ys).size := h
  rw [binaryArith, if_pos rfl]
  refine (elementwiseBinary_readable ArithOp.div.apply hsize (readable_double xs)
    (readable_double ys)).trans ?_
  rw [hmap, except_ok_bind, List.map_zip_eq_zipWith, List.zipWith_map]
  rfl

theorem compare_same (op : CmpOp) (h : xs.length = ys.length) :
    Exec.compare op (.scalar u xs) (.scalar u ys) =
      .ok (.scalar .int64 (List.zipWith (fun x y => maskOf (op.apply x y)) xs ys)) := by
  have hsize : (Tensor.scalar u xs).size = (Tensor.scalar u ys).size := h
  have hpro : promote (Tensor.scalar u xs).dtype (Tensor.scalar u ys).dtype = .scalar u :=
    if_pos rfl
  rw [compare_readable op hsize hpro (readable_same xs) (readable_same ys)]
  exact congrArg (fun l => Except.ok (Tensor.scalar .int64 l)) List.map_zip_eq_zipWith

theorem arith_int64 (k : ArithKernel) (simd : Simd) {xs ys : List Int64}
    (h : xs.length = ys.length) :
    arith k simd (.scalar .int64 xs) (.scalar .int64 ys) =
      .ok (.scalar .int64 (List.zipWith k.onInt64 xs ys)) := by
  change arithInt64 k _ _ = _
  rw [arithInt64, readPair_same h, except_ok_bind]

theorem arith_float64 (k : ArithKernel) (simd : Simd) {xs ys : List Double}
    (h : xs.length = ys.length) :
    arith k simd (.scalar .float64 xs) (.scalar .float64 ys) =
      .ok (.scalar .float64 (List.zipWith k.onDouble xs ys)) := by
  change arithF64 k simd _ _ = _
  rw [arithF64, readPair_same h, except_ok_bind]
  simp only [simdLoop_eq_zipWith]
  rfl

theorem div_int64 (simd : Simd) {xs ys : List Int64} (h : xs.length = ys.length) :
    div simd (.scalar .int64 xs) (.scalar .int64 ys) = .ok (.scalar .float64
      (List.zipWith (fun (x y : Int64) => Elem.toDouble x / Elem.toDouble y) xs ys)) := by
  change readPair .int64 _ _ >>= _ = _
  rw [readPair_same h, except_ok_bind]

theorem div_float64 (simd : Simd) {xs ys : List Double} (h : xs.length = ys.length) :
    div simd (.scalar .float64 xs) (.scalar .float64 ys) =
      .ok (.scalar .float64 (List.zipWith (· / ·) xs ys)) := by
  change readPair .float64 _ _ >>= _ = _
  rw [readPair_same h, except_ok_bind]
  simp only [simdLoop_eq_zipWith]

theorem compareTT_int64 (op : CmpOp) (simd : Simd) {xs ys : List Int64}
    (h : xs.length = ys.length) :
    compareTT op simd (.scalar .int64 xs) (.scalar .int64 ys) =
      .ok (.scalar .int64 (List.zipWith (fun (x y : Int64) => maskOf (op.apply x y)) xs ys)) := by
  change readPair .int64 _ _ >>= _ = _
  rw [readPair_same h, except_ok_bind]

theorem compareTT_float64 (op : CmpOp) (simd : Simd) {xs ys : List Double}
    (h : xs.length = ys.length) :
    compareTT op simd (.scalar .float64 xs) (.scalar .float64 ys) =
      .ok (.scalar .int64 (List.zipWith (fun (x y : Double) => maskOf (op.apply x y)) xs ys)) := by
  change readPair .float64 _ _ >>= _ = _
  rw [readPair_same h, except_ok_bind]
  simp only [simdLoop_eq_zipWith]

theorem arith_matches (k : ArithKernel) (simd : Simd) {op : ArithOp} (hop : op ≠ .div)
    (hint : ∀ x y, op.apply .int64 x y = .ok (k.onInt64 x y))
    (hdouble : ∀ x y, op.apply .float64 x y = .ok (k.onDouble x y))
    (hu : u = .int64 ∨ u = .float64) (h : xs.length = ys.length) :
    Matches (arith k simd (.scalar u xs) (.scalar u ys))
      (binaryArith op (.scalar u xs) (.scalar u ys)) := by
  rcases hu with rfl | rfl
  · exact .of_eq (arith_int64 k simd h) (binaryArith_same hop hint h)
  · exact .of_eq (arith_float64 k simd h) (binaryArith_same hop hdouble h)

theorem div_matches (simd : Simd) (hu : u = .int64 ∨ u = .float64) (h : xs.length = ys.length) :
    Matches (div simd (.scalar u xs) (.scalar u ys))
      (binaryArith .div (.scalar u xs) (.scalar u ys)) := by
  rcases hu with rfl | rfl
  · exact .of_eq (div_int64 simd h) (binaryArith_div_same h)
  · exact .of_eq (div_float64 simd h) (binaryArith_div_same h)

theorem compareTT_matches (op : CmpOp) (simd : Simd) (hu : u = .int64 ∨ u = .float64)
    (h : xs.length = ys.length) :
    Matches (compareTT op simd (.scalar u xs) (.scalar u ys))
      (Exec.compare op (.scalar u xs) (.scalar u ys)) := by
  rcases hu with rfl | rfl
  · exact .of_eq (compareTT_int64 op simd h) (compare_same op h)
  · exact .of_eq (compareTT_float64 op simd h) (compare_same op h)

theorem apply_matches (f : Function) (simd : Simd) (hu : u = .int64 ∨ u = .float64)
    (h : xs.length = ys.length) :
    Matches (f.apply simd (.scalar u xs) (.scalar u ys)) (f.op (.scalar u xs) (.scalar u ys)) := by
  cases f with
  | add => exact arith_matches _ simd (by decide) (fun _ _ => rfl) (fun _ _ => rfl) hu h
  | sub => exact arith_matches _ simd (by decide) (fun _ _ => rfl) (fun _ _ => rfl) hu h
  | mul => exact arith_matches _ simd (by decide) (fun _ _ => rfl) (fun _ _ => rfl) hu h
  | div => exact div_matches simd hu h
  | _ => exact compareTT_matches _ simd hu h

theorem simdLoop_nil {α β : Type} (w : Nat) (f : α → α → β) : simdLoop w f [] [] = [] :=
  simdLoop_eq_zipWith w f [] []

theorem arith_nil (k : ArithKernel) (simd : Simd) (u : ScalarType) :
    arith k simd (.scalar u []) (.scalar u []) = .ok (.scalar u []) := by
  have hdouble : arithF64 k simd (.scalar u []) (.scalar u []) =
      writeDoubles (.scalar u) (simdLoop simd.lanes k.onDouble [] []) := rfl
  rw [simdLoop_nil] at hdouble
  cases u with
  | int64 => rfl
  | _ => exact hdouble

theorem div_nil (simd : Simd) (u : ScalarType) :
    div simd (.scalar u []) (.scalar u []) = .ok (.scalar .float64 []) := by
  have hdouble : (.ok (.scalar .float64 (simdLoop simd.lanes (· / ·) [] [])) : Except Exn Tensor) =
      .ok (.scalar .float64 []) := by
    rw [simdLoop_nil]
  cases u with
  | int64 => rfl
  | _ => exact hdouble

theorem compareTT_nil (op : CmpOp) (simd : Simd) (s t : ScalarType) :
    compareTT op simd (.scalar s []) (.scalar t []) = .ok (.scalar .int64 []) := by
  have hdouble : (.ok (.scalar .int64 (simdLoop simd.compareLanes
      (fun (x y : Double) => maskOf (op.apply x y)) [] [])) : Except Exn Tensor) =
        .ok (.scalar .int64 []) := by
    rw [simdLoop_nil]
  cases s with
  | int64 => rfl
  | _ => exact hdouble

theorem compare_nil (op : CmpOp) (s t : ScalarType) :
    Exec.compare op (.scalar s []) (.scalar t []) = .ok (.scalar .int64 []) := by
  cases s <;> cases t <;> rfl

theorem binaryArith_nil {op : ArithOp} (hop : op ≠ .div) (u : ScalarType) :
    binaryArith op (.scalar u []) (.scalar u []) = .ok (.scalar u []) := by
  rw [binaryArith, if_neg hop]
  cases u <;> rfl

theorem apply_nil (f : Function) (simd : Simd) {s t : ScalarType} (h : f.isArith → s = t) :
    Matches (f.apply simd (.scalar s []) (.scalar t [])) (f.op (.scalar s []) (.scalar t [])) := by
  cases f with
  | add =>
    obtain rfl := h rfl
    exact .of_eq (arith_nil _ simd s) (binaryArith_nil (by decide) s)
  | sub =>
    obtain rfl := h rfl
    exact .of_eq (arith_nil _ simd s) (binaryArith_nil (by decide) s)
  | mul =>
    obtain rfl := h rfl
    exact .of_eq (arith_nil _ simd s) (binaryArith_nil (by decide) s)
  | div =>
    obtain rfl := h rfl
    exact .of_eq (div_nil simd s) (binaryArith_div_same rfl)
  | _ => exact .of_eq (compareTT_nil _ simd s t) (compare_nil _ s t)

end Agreement

def Function.Handles (f : Function) (s t : ScalarType) (n m : Nat) : Prop :=
  (f.isArith ∧ s ≠ t) ∨ (n = m ∧ (n = 0 ∨ s = t ∧ (s = .int64 ∨ s = .float64)))

instance (f : Function) (s t : ScalarType) (n m : Nat) : Decidable (f.Handles s t n m) :=
  inferInstanceAs (Decidable (_ ∨ _))

theorem handles_of_matches {f : Function} {simd : Simd} {s t : ScalarType} {xs : List s.Carrier}
    {ys : List t.Carrier}
    (h : Matches (f.apply simd (.scalar s xs) (.scalar t ys))
      (f.op (.scalar s xs) (.scalar t ys))) :
    f.Handles s t xs.length ys.length := by
  by_cases hmis : f.isArith ∧ s ≠ t
  · exact .inl hmis
  have hdispatch : Dispatches _ _ (f.apply simd (.scalar s xs) (.scalar t ys)) :=
    apply_dispatches f simd fun hf => by
      have hst : s = t := not_not.mp fun hne => hmis ⟨hf, hne⟩
      rw [Tensor.dtype, Tensor.dtype, hst]
  generalize hk : f.apply simd (.scalar s xs) (.scalar t ys) = r at h hdispatch
  generalize ho : f.op (.scalar s xs) (.scalar t ys) = r' at h
  cases h with
  | throws he =>
    obtain ⟨what, rfl⟩ := hdispatch.error rfl
    exact absurd rfl (he what)
  | returns hvalues =>
    have hsize : xs.length = ys.length := size_of_op ho
    exact .inr ⟨hsize, hdispatch.types rfl⟩

theorem mismatch_matches {f : Function} (simd : Simd) (hf : f.isArith) {s t : ScalarType}
    (hne : s ≠ t) (xs : List s.Carrier) (ys : List t.Carrier) (r : Except Exn Tensor) :
    Matches (f.apply simd (.scalar s xs) (.scalar t ys)) r := by
  have hdtype : (Tensor.scalar s xs).dtype ≠ (Tensor.scalar t ys).dtype :=
    fun h => hne (DType.scalar.inj h)
  obtain ⟨name, hname⟩ := apply_mismatch f simd hf hdtype
  rw [hname]
  exact .throws fun what h => nomatch h

theorem compute_agrees_iff (simd : Simd) (f : Function) {s t : ScalarType} (xs : List s.Carrier)
    (ys : List t.Carrier) :
    Matches (f.apply simd (.scalar s xs) (.scalar t ys)) (f.op (.scalar s xs) (.scalar t ys)) ↔
      f.Handles s t xs.length ys.length := by
  refine ⟨handles_of_matches, ?_⟩
  by_cases hmis : f.isArith ∧ s ≠ t
  · exact fun _ => mismatch_matches simd hmis.1 hmis.2 xs ys _
  rintro (h | ⟨hlen, hn | ⟨rfl, hu⟩⟩)
  · exact absurd h hmis
  · obtain rfl := List.length_eq_zero_iff.mp hn
    obtain rfl := List.length_eq_zero_iff.mp (hlen.symm.trans hn)
    exact apply_nil f simd fun hf => not_not.mp fun hne => hmis ⟨hf, hne⟩
  · exact apply_matches f simd hu hlen

theorem compute_disagrees :
    (add .neon (.scalar .float32 [.num 1]) (.scalar .float32 [.num 2]) =
        .error (.undefined "element read at another type") ∧
      binaryArith .add (.scalar .float32 [.num 1]) (.scalar .float32 [.num 2]) =
        .ok (.scalar .float32 [.num 3])) ∧
      ¬ Matches (Function.apply .neon .add (.scalar .float32 [.num 1]) (.scalar .float32 [.num 2]))
        (Function.add.op (.scalar .float32 [.num 1]) (.scalar .float32 [.num 2])) ∧
      ¬ Matches (Function.apply .neon .add (.scalar .int64 [1, 2]) (.scalar .int64 [3]))
        (Function.add.op (.scalar .int64 [1, 2]) (.scalar .int64 [3])) ∧
      ¬ Matches (Function.apply .neon .gt (.scalar .int64 [1]) (.scalar .float64 [.num 0]))
        (Function.gt.op (.scalar .int64 [1]) (.scalar .float64 [.num 0])) := by
  refine ⟨⟨by decide +kernel, by decide +kernel⟩, ?_, ?_, ?_⟩
  · exact fun h => absurd (handles_of_matches h) (by decide)
  · exact fun h => absurd (handles_of_matches h) (by decide)
  · exact fun h => absurd (handles_of_matches h) (by decide)

end Lark.Column.Compute
