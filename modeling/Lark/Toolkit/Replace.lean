import Lark.Toolkit.Str

namespace Lark.Toolkit.Str

open Lark.Base

-- std::string::find: the lowest place from pos on where the whole pattern is found.
def find (s pattern : List Char) (pos : Nat) : Option Nat :=
  (List.range (s.length + 1)).find? fun i => pos ≤ i ∧ pattern <+: s.drop i

def substr (s : List Char) (start count : Nat) : List Char := (s.drop start).take count

def replace (s : List Char) (pos count : Nat) (into : List Char) : List Char :=
  s.take pos ++ into ++ s.drop (pos + count)

-- The loops run on fuel; `none` means that it has run out.
def splitLoop (s delim : List Char) (skipEmpty : Bool) :
    Nat → Nat → List (List Char) → Option (List (List Char))
  | 0, _, _ => none
  | fuel + 1, start, out =>
    let pos := find s delim start
    let part := match pos with
      | none => s.drop start
      | some p => substr s start (p - start)
    let out := if skipEmpty ∧ part = [] then out else out ++ [part]
    match pos with
    | none => some out
    | some p => splitLoop s delim skipEmpty fuel (p + delim.length) out

def splitScan (fuel : Nat) (s delim : String) (skipEmpty : Bool) : Option (List String) :=
  if delim = "" then some [s]
  else (splitLoop s.toList delim.toList skipEmpty fuel 0 []).map fun out => out.map String.ofList

def joinScan (parts : List String) (sep : String) : String :=
  parts.zipIdx.foldl (fun out x => (if x.2 ≠ 0 then out ++ sep else out) ++ x.1) ""

def replaceLoop (pattern into : List Char) : Nat → List Char → Nat → Option (List Char)
  | 0, _, _ => none
  | fuel + 1, s, pos =>
    match find s pattern pos with
    | none => some s
    | some p => replaceLoop pattern into fuel (replace s p pattern.length into) (p + into.length)

def replaceAll (fuel : Nat) (s pattern into : String) : Option String :=
  if pattern = "" then some s
  else (replaceLoop pattern.toList into.toList fuel s.toList 0).map String.ofList

section Find

variable {s pattern : List Char} {pos : Nat}

theorem find_eq_some {i : Nat} : find s pattern pos = some i ↔
    (pos ≤ i ∧ pattern <+: s.drop i) ∧ i ≤ s.length ∧
      ∀ j < i, ¬ (pos ≤ j ∧ pattern <+: s.drop j) := by
  rw [find, List.find?_range_eq_some]
  simp only [decide_eq_true_eq, List.mem_range, Nat.lt_succ_iff, Bool.not_eq_true',
    decide_eq_false_iff_not]

theorem find_eq_none : find s pattern pos = none ↔
    ∀ i ≤ s.length, ¬ (pos ≤ i ∧ pattern <+: s.drop i) := by
  rw [find, List.find?_range_eq_none]
  simp only [Nat.lt_succ_iff, Bool.not_eq_true', decide_eq_false_iff_not]

theorem find_here (hpos : pos ≤ s.length) (h : pattern <+: s.drop pos) :
    find s pattern pos = some pos :=
  find_eq_some.2 ⟨⟨le_rfl, h⟩, hpos, fun _ hj hat => absurd hat.1 (by omega)⟩

theorem find_next (h : ¬ pattern <+: s.drop pos) :
    find s pattern pos = find s pattern (pos + 1) := by
  have hsame : ∀ i, (pos ≤ i ∧ pattern <+: s.drop i) ↔
      (pos + 1 ≤ i ∧ pattern <+: s.drop i) := by
    intro i
    rcases eq_or_ne i pos with rfl | hne
    · simp [h]
    · exact and_congr_left fun _ => by omega
  simp only [find, hsame]

theorem find_append (pattern before rest : List Char) :
    find (before ++ rest) pattern before.length =
      (breakAt pattern rest).map fun p => before.length + p.1.length := by
  induction rest generalizing before with
  | nil =>
    rw [breakAt]
    split_ifs with hp
    · exact find_here (by simp) (by simp [hp])
    · rw [Option.map_none, find_eq_none]
      rintro i hi ⟨hle, hpre⟩
      rw [List.drop_eq_nil_of_le (by simpa using hle)] at hpre
      exact hp (List.prefix_nil.1 hpre)
  | cons c cs ih =>
    rw [breakAt]
    split_ifs with hp
    · exact find_here (by simp) (by simpa using hp)
    · rw [find_next (by simpa using hp)]
      have hcs := ih (before ++ [c])
      rw [List.append_assoc, List.singleton_append, List.length_append,
        List.length_singleton] at hcs
      rw [hcs, Option.map_map]
      congr 1
      funext p
      simp only [Function.comp_apply, List.length_cons]
      omega

end Find

section Loops

variable {delim pattern : List Char} {fuel : Nat}

def kept (skipEmpty : Bool) (part : List Char) : Bool := ¬ (skipEmpty ∧ part = [])

theorem push_kept (skipEmpty : Bool) (part : List Char) (parts out : List (List Char)) :
    (if skipEmpty ∧ part = [] then out else out ++ [part]) ++ parts.filter (kept skipEmpty) =
      out ++ (part :: parts).filter (kept skipEmpty) := by
  by_cases hskip : skipEmpty = true ∧ part = []
  · rw [if_pos hskip, List.filter_cons_of_neg (by simp [kept, hskip])]
  · have hkept : kept skipEmpty part = true := decide_eq_true hskip
    rw [if_neg hskip, List.filter_cons_of_pos hkept, List.append_assoc]
    rfl

theorem splitLoop_eq (skipEmpty : Bool) (hne : delim ≠ []) (rest before : List Char)
    (out : List (List Char)) (hfuel : rest.length < fuel) :
    splitLoop (before ++ rest) delim skipEmpty fuel before.length out =
      some (out ++ (splitAround delim rest).filter (kept skipEmpty)) := by
  induction rest using splitAround_induction hne generalizing before out fuel with
  | last rest hb =>
    obtain ⟨fuel, rfl⟩ := Nat.exists_eq_add_one.2 (Nat.zero_lt_of_lt hfuel)
    rw [splitLoop, find_append, hb, splitAround_of_none hne hb, ← push_kept]
    simp only [Option.map_none, List.drop_left, List.filter_nil, List.append_nil]
  | step rest part after hb ih =>
    obtain ⟨fuel, rfl⟩ := Nat.exists_eq_add_one.2 (Nat.zero_lt_of_lt hfuel)
    have hlen := length_breakAt hne hb
    have hrest : rest = part ++ delim ++ after := (breakAt_eq_some hb).1
    have hpart : substr (before ++ rest) before.length
        (before.length + part.length - before.length) = part := by
      rw [substr, List.drop_left, Nat.add_sub_cancel_left, hrest, List.append_assoc, List.take_left]
    have hwhole : before ++ rest = (before ++ part ++ delim) ++ after := by
      simp [hrest]
    have hstart : before.length + part.length + delim.length =
        (before ++ part ++ delim).length := by
      simp [Nat.add_assoc]
    rw [splitLoop, find_append, hb]
    simp only [Option.map_some, hpart]
    rw [hwhole, hstart, ih _ _ (by omega), splitAround_of_some hne hb, ← push_kept]

theorem replaceLoop_eq (hne : pattern ≠ []) (into rest before : List Char)
    (hfuel : rest.length < fuel) :
    replaceLoop pattern into fuel (before ++ rest) before.length =
      some (before ++ into.intercalate (splitAround pattern rest)) := by
  induction rest using splitAround_induction hne generalizing before fuel with
  | last rest hb =>
    obtain ⟨fuel, rfl⟩ := Nat.exists_eq_add_one.2 (Nat.zero_lt_of_lt hfuel)
    rw [replaceLoop, find_append, hb, splitAround_of_none hne hb, List.intercalate_singleton]
    rfl
  | step rest part after hb ih =>
    obtain ⟨fuel, rfl⟩ := Nat.exists_eq_add_one.2 (Nat.zero_lt_of_lt hfuel)
    have hlen := length_breakAt hne hb
    have hrest : rest = part ++ pattern ++ after := (breakAt_eq_some hb).1
    have hplace : before.length + part.length = (before ++ part).length := by
      simp
    -- what is scanned next starts behind the replacement, whatever that contains
    have hreplace : replace (before ++ rest) (before.length + part.length) pattern.length into =
        (before ++ part ++ into) ++ after := by
      have hwhole : before ++ rest = (before ++ part) ++ (pattern ++ after) := by
        simp [hrest]
      rw [replace, hplace, hwhole, List.take_left, ← List.drop_drop, List.drop_left, List.drop_left]
    have hpos : before.length + part.length + into.length = (before ++ part ++ into).length := by
      simp [Nat.add_assoc]
    rw [replaceLoop, find_append, hb]
    simp only [Option.map_some, hreplace, hpos]
    rw [ih _ (by omega), splitAround_of_some hne hb,
      List.intercalate_cons_of_ne_nil (splitAround_ne_nil _ _)]
    simp

end Loops

section Strings

variable {s delim into : String} {fuel : Nat}

theorem splitScan_eq (skipEmpty : Bool) (hfuel : s.length < fuel) :
    splitScan fuel s delim skipEmpty = some (split s delim skipEmpty) := by
  rw [splitScan]
  split_ifs with hd
  · simp [split, hd, splitAround]
  · have hlen : s.toList.length < fuel := by rwa [String.length_toList]
    have hloop := splitLoop_eq skipEmpty (toList_ne_nil hd) s.toList [] [] hlen
    rw [List.nil_append, List.length_nil, List.nil_append] at hloop
    rw [hloop, Option.map_some, split]
    cases skipEmpty with
    | false =>
      have hall : kept false = fun _ => true := by
        funext part
        simp [kept]
      simp [hall]
    | true =>
      have hnonempty : kept true = (fun part => decide (part ≠ "")) ∘ String.ofList := by
        funext part
        simp [kept]
      rw [if_pos ⟨rfl, hd⟩, List.filter_map, hnonempty]

theorem joinScan_eq (parts : List String) (sep : String) : joinScan parts sep = join parts sep := by
  induction parts using List.reverseRecOn with
  | nil => rfl
  | append_singleton parts part ih =>
    rw [joinScan, List.zipIdx_append, List.foldl_append, ← joinScan, ih, join, join]
    rcases eq_or_ne parts [] with rfl | hne
    · simp
    · have hlen : parts.length ≠ 0 := by simpa using hne
      rw [String.intercalate_append_of_ne_nil hne (by simp), String.intercalate_singleton]
      simp [hlen]

theorem replaceAll_eq (hd : delim ≠ "") (hfuel : s.length < fuel) :
    replaceAll fuel s delim into = some (join (split s delim false) into) := by
  have hlen : s.toList.length < fuel := by rwa [String.length_toList]
  have hloop := replaceLoop_eq (toList_ne_nil hd) into.toList s.toList [] hlen
  rw [List.nil_append, List.length_nil, List.nil_append] at hloop
  rw [replaceAll, if_neg hd, hloop, Option.map_some, Option.some.injEq]
  apply String.toList_injective
  rw [join, String.toList_intercalate, map_toList_split, String.toList_ofList]

theorem contains_of_mem_split (hd : delim ≠ "") :
    ∀ part ∈ split s delim false, contains part delim = false := by
  intro part hpart
  rw [contains, decide_eq_false_iff_not]
  apply not_infix_of_mem_splitAround (toList_ne_nil hd) s.toList
  rw [← map_toList_split]
  exact List.mem_map_of_mem hpart

theorem split_ne_nil (s delim : String) : split s delim false ≠ [] := by
  intro h
  have hnil := map_toList_split s delim
  rw [h, List.map_nil] at hnil
  exact splitAround_ne_nil _ _ hnil.symm

theorem split_join_replaceAll (s : String) {delim : String} (hd : delim ≠ "") (into : String) :
    ∃ parts, (∀ fuel, s.length < fuel → splitScan fuel s delim false = some parts) ∧
      parts ≠ [] ∧ (∀ part ∈ parts, contains part delim = false) ∧ joinScan parts delim = s ∧
      ∀ fuel, s.length < fuel → replaceAll fuel s delim into = some (joinScan parts into) := by
  refine ⟨split s delim false, fun fuel hfuel => splitScan_eq false hfuel, split_ne_nil s delim,
    contains_of_mem_split hd, ?_, fun fuel hfuel => ?_⟩
  · rw [joinScan_eq, join_split hd]
  · rw [joinScan_eq, replaceAll_eq hd hfuel]

-- The replacement contains the pattern, and occurrences overlap.
theorem split_join_replaceAll_overlap :
    ∃ parts, (∀ fuel, "aaab".length < fuel → splitScan fuel "aaab" "aa" false = some parts) ∧
      parts ≠ [] ∧ (∀ part ∈ parts, contains part "aa" = false) ∧ joinScan parts "aa" = "aaab" ∧
      ∀ fuel, "aaab".length < fuel →
        replaceAll fuel "aaab" "aa" "aaa" = some (joinScan parts "aaa") :=
  split_join_replaceAll "aaab" (by decide) "aaa"

example : splitScan 5 "aaab" "aa" false = some ["", "ab"] := by decide

example : replaceAll 5 "aaab" "aa" "aaa" = some "aaaab" := by decide

end Strings

end Lark.Toolkit.Str
