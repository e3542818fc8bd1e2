import Mathlib.Data.Finmap
import Lark.Base.Fold
import Lark.Column.FeedFetch

namespace Lark.Column

open Lark.Base

-- The hash map, the insertion order and the cached row count of a `TensorTable`.
@[ext] structure TableObject where
  tensors : Finmap fun _ : String => Tensor
  order : List String
  numRows : Nat
  deriving DecidableEq

namespace TableObject

def empty : TableObject := ⟨∅, [], 0⟩

def sizeMismatch (expected got : Nat) : Exn :=
  .runtimeError ("Tensor size mismatch: expected " ++ toString expected ++ ", got " ++ toString got)

def put (t : TableObject) (name : String) (tensor : Tensor) : TableObject where
  tensors := t.tensors.insert name tensor
  order := if name ∈ t.tensors then t.order else t.order ++ [name]
  numRows := tensor.size

def add (t : TableObject) (name : String) (tensor : Tensor) : TableObject × Except Exn Unit :=
  if (t.tensors ≠ ∅ ∧ tensor.size ≠ t.numRows) ∧ (0 < t.numRows ∧ tensor.size ≠ t.numRows) then
    (t, .error (sizeMismatch t.numRows tensor.size))
  else (t.put name tensor, .ok ())

def drop (t : TableObject) (name : String) : TableObject where
  tensors := t.tensors.erase name
  order := t.order.erase name
  numRows := if t.tensors.erase name = ∅ then 0 else t.numRows

def remove (t : TableObject) (name : String) : TableObject × Except Exn Unit :=
  if name ∉ t.tensors then (t, .ok ())
  else if name ∉ t.order then (t, .error (.undefined "erase past the end"))
  else (t.drop name, .ok ())

def names (t : TableObject) : List String := t.order

-- `Tensor::clone` copies the elements, so the copy is the tensor itself.
def cloneStep (t result : TableObject) (name : String) : Except Exn TableObject :=
  match t.tensors.lookup name with
  | none => .error (.outOfRange "unordered_map::at")
  | some x =>
    match result.add name x with
    | (r, .ok ()) => .ok r
    | (_, .error e) => .error e

def clone (t : TableObject) : Except Exn TableObject := t.order.foldlM t.cloneStep empty

inductive Call where
  | create
  | add (i : Nat) (name : String) (tensor : Tensor)
  | set (i : Nat) (name : String) (tensor : Tensor)
  | remove (i : Nat) (name : String)
  | clone (i : Nat)

def onTable (w : List TableObject) (i : Nat) (f : TableObject → TableObject × Except Exn Unit) :
    List TableObject × Except Exn Unit :=
  match w[i]? with
  | none => (w, .ok ())
  | some t => (w.set i (f t).1, (f t).2)

-- The tables in existence before and after the call; a call on none of them does nothing.
def Call.apply (w : List TableObject) : Call → List TableObject × Except Exn Unit
  | create => (w ++ [empty], .ok ())
  | add i name tensor => onTable w i fun t => t.add name tensor
  | set i name tensor => onTable w i fun t => t.add name tensor
  | remove i name => onTable w i fun t => t.remove name
  | clone i =>
    match w[i]? with
    | none => (w, .ok ())
    | some t =>
      match t.clone with
      | .ok c => (w ++ [c], .ok ())
      | .error e => (w, .error e)

def run (calls : List Call) : List TableObject := calls.foldl (fun w c => (c.apply w).1) []

structure OneRowCount (t : TableObject) : Prop where
  rows : ∀ name x, t.tensors.lookup name = some x → x.size = t.numRows
  once : t.names.Nodup
  stored : ∀ name, name ∈ t.names ↔ name ∈ t.tensors
  clone : t.clone = .ok t

structure RowCounted (calls : List Call) : Prop where
  tables : ∀ before, before <+: calls → ∀ t ∈ run before, t.OneRowCount
  unchanged : ∀ before c, before ++ [c] <+: calls → ∀ e, (c.apply (run before)).2 = .error e →
    (c.apply (run before)).1 = run before

def AddFits (w : List TableObject) (i : Nat) (name : String) (tensor : Tensor) : Prop :=
  ∀ t, w[i]? = some t → t.numRows = 0 → tensor.size ≠ 0 → ∀ other ∈ t.tensors, other = name

def Call.Fits (w : List TableObject) : Call → Prop
  | add i name tensor => AddFits w i name tensor
  | set i name tensor => AddFits w i name tensor
  | _ => True

section Columns

variable {t : TableObject} {name : String} {tensor : Tensor}

theorem add_cases (t : TableObject) (name : String) (tensor : Tensor) :
    (0 < t.numRows ∧ tensor.size ≠ t.numRows ∧
      t.add name tensor = (t, .error (sizeMismatch t.numRows tensor.size))) ∨
    ((t.tensors ≠ ∅ → 0 < t.numRows → tensor.size = t.numRows) ∧
      t.add name tensor = (t.put name tensor, .ok ())) := by
  unfold add
  split_ifs with h
  · exact .inl ⟨h.2.1, h.2.2, rfl⟩
  · refine .inr ⟨fun hne hpos => ?_, rfl⟩
    by_contra hsize
    exact h ⟨⟨hne, hsize⟩, hpos, hsize⟩

theorem remove_cases (t : TableObject) (name : String) :
    (t.remove name).1 = t ∨ name ∈ t.tensors ∧ t.remove name = (t.drop name, .ok ()) := by
  unfold remove
  split_ifs with h horder
  · exact .inr ⟨h, rfl⟩
  · exact .inl rfl
  · exact .inl rfl

structure Aligned (t : TableObject) : Prop where
  once : t.order.Nodup
  stored : ∀ name, name ∈ t.order ↔ name ∈ t.tensors
  rows : ∀ name x, t.tensors.lookup name = some x → x.size = t.numRows
  noRows : t.tensors = ∅ → t.numRows = 0

theorem aligned_empty : empty.Aligned where
  once := List.nodup_nil
  stored _ := ⟨fun h => (List.not_mem_nil h).elim, fun h => (Finmap.notMem_empty h).elim⟩
  rows name x h := by simp [empty] at h
  noRows _ := rfl

theorem Aligned.put (h : t.Aligned)
    (hrows : ∀ other x, other ≠ name → t.tensors.lookup other = some x → x.size = tensor.size) :
    (t.put name tensor).Aligned where
  once := by
    rw [TableObject.put]
    split_ifs with hname
    · exact h.once
    · have hnew : name ∉ t.order := fun ho => hname ((h.stored name).mp ho)
      exact List.nodup_append.mpr ⟨h.once, List.nodup_singleton name, fun a ha b hb heq =>
        hnew (List.mem_singleton.mp hb ▸ heq ▸ ha)⟩
  stored other := by
    rw [TableObject.put, Finmap.mem_insert, ← h.stored other]
    split_ifs with hname
    · exact ⟨.inr, fun ho => ho.elim (fun heq => heq ▸ (h.stored name).mpr hname) id⟩
    · rw [List.mem_append, List.mem_singleton]
      exact or_comm
  rows other x hx := by
    rw [TableObject.put] at hx ⊢
    by_cases ho : other = name
    · subst ho
      rw [Finmap.lookup_insert] at hx
      exact congrArg Tensor.size (Option.some.inj hx).symm
    · rw [Finmap.lookup_insert_of_ne _ ho] at hx
      exact hrows other x ho hx
  noRows hempty := by
    have hmem : name ∈ (t.put name tensor).tensors := Finmap.mem_insert.mpr (.inl rfl)
    rw [hempty] at hmem
    exact absurd hmem Finmap.notMem_empty

theorem Aligned.drop (h : t.Aligned) (name : String) : (t.drop name).Aligned where
  once := h.once.erase name
  stored other := by
    rw [TableObject.drop, h.once.mem_erase_iff, Finmap.mem_erase, h.stored]
  rows other x hx := by
    have hmem : other ∈ t.tensors.erase name := Finmap.mem_of_lookup_eq_some hx
    have hne : other ≠ name := (Finmap.mem_erase.mp hmem).1
    have hnot : t.tensors.erase name ≠ ∅ := fun he => Finmap.notMem_empty (he ▸ hmem)
    rw [TableObject.drop, Finmap.lookup_erase_ne hne] at hx
    rw [TableObject.drop, if_neg hnot]
    exact h.rows other x hx
  noRows hempty := if_pos hempty

theorem Aligned.add (h : t.Aligned)
    (hfit : t.numRows = 0 → tensor.size ≠ 0 → ∀ other ∈ t.tensors, other = name) :
    (t.add name tensor).1.Aligned := by
  rcases add_cases t name tensor with ⟨-, -, he⟩ | ⟨hsize, he⟩
  · rw [he]
    exact h
  · rw [he]
    refine h.put fun other x hne hx => ?_
    have hmem : other ∈ t.tensors := Finmap.mem_of_lookup_eq_some hx
    rw [h.rows other x hx]
    rcases Nat.eq_zero_or_pos t.numRows with hzero | hpos
    · by_contra hdiff
      exact hne (hfit hzero (fun hs => hdiff (hzero.trans hs.symm)) other hmem)
    · exact (hsize (fun hempty => Finmap.notMem_empty (hempty ▸ hmem)) hpos).symm

theorem Aligned.remove (h : t.Aligned) (name : String) : (t.remove name).1.Aligned := by
  rcases remove_cases t name with he | ⟨-, he⟩
  · rw [he]
    exact h
  · rw [he]
    exact h.drop name

end Columns

section View

variable {t : TableObject}

def view (t : TableObject) : TensorTable where
  entries := t.order.filterMap fun name => (t.tensors.lookup name).map fun x => (name, x)
  numRows := t.numRows

theorem view_get? (h : ∀ name, name ∈ t.order ↔ name ∈ t.tensors) (name : String) :
    t.view.get? name = t.tensors.lookup name := by
  have hlookup (names : List String) : List.lookup name (names.filterMap fun n =>
      (t.tensors.lookup n).map fun x => (n, x)) =
        if name ∈ names then t.tensors.lookup name else none := by
    induction names with
    | nil => rfl
    | cons n names ih =>
      cases hn : t.tensors.lookup n with
      | none =>
        rw [List.filterMap_cons_none (by simp [hn]), ih]
        by_cases heq : name = n
        · subst heq
          simp [hn]
        · simp [heq]
      | some x =>
        rw [List.filterMap_cons_some (b := (n, x)) (by simp [hn]), List.lookup_cons, ih]
        by_cases heq : name = n
        · subst heq
          simp [hn]
        · simp [heq, beq_eq_false_iff_ne.mpr heq]
  rw [TensorTable.get?, view, hlookup]
  split_ifs with hname
  · rfl
  · exact (Finmap.lookup_eq_none.mpr fun hm => hname ((h name).mpr hm)).symm

theorem view_entries_eq_nil (h : ∀ name, name ∈ t.order ↔ name ∈ t.tensors) :
    t.view.entries = [] ↔ t.tensors = ∅ := by
  constructor
  · intro hnil
    refine Finmap.ext_lookup fun name => ?_
    rw [← view_get? h, TensorTable.get?, hnil, Finmap.lookup_empty]
    rfl
  · intro hempty
    simp [view, hempty]

theorem view_put_stored {name : String} (hname : name ∈ t.tensors) (tensor : Tensor) :
    (t.put name tensor).view.entries =
      t.view.entries.map fun e => if e.1 = name then (name, tensor) else e := by
  obtain ⟨x, hx⟩ := Finmap.mem_iff.mp hname
  rw [view, put, if_pos hname, view, List.map_filterMap]
  refine List.filterMap_congr fun n _ => ?_
  by_cases hn : n = name
  · subst hn
    simp [hx]
  · rw [Finmap.lookup_insert_of_ne _ hn]
    simp [hn, Function.comp_def]

theorem view_put_new (h : ∀ name, name ∈ t.order ↔ name ∈ t.tensors) {name : String}
    (hname : name ∉ t.tensors) (tensor : Tensor) :
    (t.put name tensor).view.entries = t.view.entries ++ [(name, tensor)] := by
  have hfresh : t.order.filterMap (fun n =>
      ((t.tensors.insert name tensor).lookup n).map fun x => (n, x)) = t.view.entries := by
    refine List.filterMap_congr fun n hmem => ?_
    have hn : n ≠ name := by
      rintro rfl
      exact hname ((h n).mp hmem)
    rw [Finmap.lookup_insert_of_ne _ hn]
  rw [view, put, if_neg hname, List.filterMap_append, hfresh]
  simp

theorem view_add (h : ∀ name, name ∈ t.order ↔ name ∈ t.tensors) (name : String)
    (tensor : Tensor) :
    t.view.add name tensor = (t.add name tensor).2.map fun _ => (t.add name tensor).1.view := by
  have hsome : (t.view.get? name).isSome = true ↔ name ∈ t.tensors := by
    rw [view_get? h, Finmap.lookup_isSome]
  have hguard : (t.view.entries ≠ [] ∧ 0 < t.view.numRows ∧ tensor.size ≠ t.view.numRows) ↔
      (t.tensors ≠ ∅ ∧ tensor.size ≠ t.numRows) ∧ (0 < t.numRows ∧ tensor.size ≠ t.numRows) := by
    rw [Ne, view_entries_eq_nil h]
    change (t.tensors ≠ ∅ ∧ 0 < t.numRows ∧ tensor.size ≠ t.numRows) ↔ _
    tauto
  unfold TensorTable.add add
  by_cases hthrow : t.view.entries ≠ [] ∧ 0 < t.view.numRows ∧ tensor.size ≠ t.view.numRows
  · rw [if_pos hthrow, if_pos (hguard.mp hthrow)]
    rfl
  · rw [if_neg hthrow, if_neg fun hc => hthrow (hguard.mpr hc)]
    by_cases hname : name ∈ t.tensors
    · rw [if_pos (hsome.mpr hname), ← view_put_stored hname]
      rfl
    · rw [if_neg fun hs => hname (hsome.mp hs), ← view_put_new h hname]
      rfl

end View

section Copies

variable {t : TableObject}

structure Copied (t : TableObject) (done : List String) (r : TableObject) : Prop where
  order : r.order = done
  lookup : ∀ name, r.tensors.lookup name = if name ∈ done then t.tensors.lookup name else none
  numRows : r.numRows = if done = [] then 0 else t.numRows

theorem Copied.step (h : t.Aligned) {done : List String} {name : String} {r : TableObject}
    (hr : Copied t done r) (hname : name ∈ t.order) (hnew : name ∉ done) :
    ∃ r', t.cloneStep r name = .ok r' ∧ Copied t (done ++ [name]) r' := by
  obtain ⟨x, hx⟩ := Finmap.mem_iff.mp ((h.stored name).mp hname)
  have hsize : x.size = t.numRows := h.rows name x hx
  have hnot : name ∉ r.tensors := by
    rw [← Finmap.lookup_eq_none, hr.lookup, if_neg hnew]
  refine ⟨r.put name x, ?_, ?_⟩
  · rcases add_cases r name x with ⟨hpos, hne, -⟩ | ⟨-, he⟩
    · rw [hr.numRows] at hpos hne
      split_ifs at hpos hne with hdone
      · exact absurd hpos (lt_irrefl 0)
      · exact absurd hsize hne
    · simp only [cloneStep, hx, he]
  · refine ⟨?_, fun other => ?_, ?_⟩
    · rw [put, if_neg hnot, hr.order]
    · rw [put]
      by_cases ho : other = name
      · subst ho
        simp [hx]
      · rw [Finmap.lookup_insert_of_ne _ ho, hr.lookup]
        simp [ho]
    · simpa [put] using hsize

theorem Copied.run (h : t.Aligned) {rest done : List String} {r : TableObject}
    (hr : Copied t done r) (hsplit : done ++ rest = t.order) :
    ∃ r', rest.foldlM t.cloneStep r = .ok r' ∧ Copied t t.order r' := by
  induction rest generalizing done r with
  | nil =>
    rw [List.append_nil] at hsplit
    exact ⟨r, rfl, hsplit ▸ hr⟩
  | cons name rest ih =>
    have honce : (done ++ name :: rest).Nodup := hsplit ▸ h.once
    have hnew : name ∉ done := fun hd =>
      (List.nodup_append.mp honce).2.2 name hd name (by simp) rfl
    obtain ⟨r', hr', hcopy⟩ := hr.step h (hsplit ▸ by simp) hnew
    obtain ⟨r'', hrun, hfinal⟩ := ih hcopy (by simpa using hsplit)
    exact ⟨r'', by rw [List.foldlM_cons, hr', except_ok_bind, hrun], hfinal⟩

theorem Aligned.clone (h : t.Aligned) : t.clone = .ok t := by
  obtain ⟨r, hrun, hr⟩ := Copied.run h (r := empty)
    ⟨rfl, fun name => by simp [empty], rfl⟩ (List.nil_append t.order)
  rw [TableObject.clone, hrun]
  have hlookup : r.tensors = t.tensors := Finmap.ext_lookup fun name => by
    rw [hr.lookup]
    split_ifs with hname
    · rfl
    · exact (Finmap.lookup_eq_none.mpr fun hm => hname ((h.stored name).mpr hm)).symm
  have hrows : r.numRows = t.numRows := by
    rw [hr.numRows]
    split_ifs with hnil
    · refine (h.noRows (Finmap.ext_lookup fun name => ?_)).symm
      rw [Finmap.lookup_empty, Finmap.lookup_eq_none, ← h.stored, hnil]
      exact List.not_mem_nil
    · rfl
  exact congrArg Except.ok (TableObject.ext hlookup hr.order hrows)

theorem Aligned.oneRowCount (h : t.Aligned) : t.OneRowCount := ⟨h.rows, h.once, h.stored, h.clone⟩

end Copies

section Runs

variable {w : List TableObject}

theorem onTable_none {i : Nat} (hi : w[i]? = none)
    (f : TableObject → TableObject × Except Exn Unit) : onTable w i f = (w, .ok ()) := by
  rw [onTable, hi]

theorem onTable_some {i : Nat} {t : TableObject} (hi : w[i]? = some t)
    (f : TableObject → TableObject × Except Exn Unit) :
    onTable w i f = (w.set i (f t).1, (f t).2) := by
  rw [onTable, hi]

theorem onTable_all {P : TableObject → Prop} {i : Nat}
    {f : TableObject → TableObject × Except Exn Unit} (hw : ∀ t ∈ w, P t)
    (hf : ∀ t, w[i]? = some t → P (f t).1) : ∀ t ∈ (onTable w i f).1, P t := by
  intro t ht
  cases hi : w[i]? with
  | none =>
    rw [onTable_none hi] at ht
    exact hw t ht
  | some u =>
    rw [onTable_some hi] at ht
    rcases List.mem_or_eq_of_mem_set ht with hold | rfl
    · exact hw t hold
    · exact hf u hi

theorem Call.apply_aligned {c : Call} (hw : ∀ t ∈ w, t.Aligned) (hc : c.Fits w) :
    ∀ t ∈ (c.apply w).1, t.Aligned := by
  have hadd {i : Nat} {name : String} {tensor : Tensor} (h : AddFits w i name tensor) :
      ∀ t ∈ (onTable w i fun t => t.add name tensor).1, t.Aligned :=
    onTable_all hw fun t hi => (hw t (List.mem_of_getElem? hi)).add (h t hi)
  cases c with
  | create =>
    intro t ht
    rcases List.mem_append.mp ht with hold | hnew
    · exact hw t hold
    · rw [List.mem_singleton.mp hnew]
      exact aligned_empty
  | add i name tensor => exact hadd hc
  | set i name tensor => exact hadd hc
  | remove i name =>
    exact onTable_all hw fun t hi => (hw t (List.mem_of_getElem? hi)).remove name
  | clone i =>
    intro t ht
    cases hi : w[i]? with
    | none => exact hw t (by simpa [Call.apply, hi] using ht)
    | some u =>
      have hu : u.Aligned := hw u (List.mem_of_getElem? hi)
      rcases (show t ∈ w ∨ t = u by simpa [Call.apply, hi, hu.clone] using ht) with hold | rfl
      · exact hw t hold
      · exact hu

theorem onTable_error {i : Nat} {f : TableObject → TableObject × Except Exn Unit} {e : Exn}
    (hf : ∀ t, (f t).2 = .error e → (f t).1 = t) (h : (onTable w i f).2 = .error e) :
    (onTable w i f).1 = w := by
  cases hi : w[i]? with
  | none => rw [onTable_none hi]
  | some t =>
    rw [onTable_some hi] at h ⊢
    have hsame : (f t).1 = t := hf t h
    obtain ⟨hlt, rfl⟩ := List.getElem?_eq_some_iff.mp hi
    exact hsame.symm ▸ List.set_getElem_self hlt

theorem add_error {t : TableObject} {name : String} {tensor : Tensor} {e : Exn}
    (h : (t.add name tensor).2 = .error e) : (t.add name tensor).1 = t := by
  rcases add_cases t name tensor with ⟨-, -, he⟩ | ⟨-, he⟩
  · rw [he]
  · rw [he] at h
    cases h

theorem remove_error {t : TableObject} {name : String} {e : Exn}
    (h : (t.remove name).2 = .error e) : (t.remove name).1 = t := by
  rcases remove_cases t name with he | ⟨-, he⟩
  · exact he
  · rw [he] at h
    cases h

theorem Call.apply_error {c : Call} {e : Exn} (h : (c.apply w).2 = .error e) :
    (c.apply w).1 = w := by
  cases c with
  | create => cases h
  | add i name tensor => exact onTable_error (fun t => add_error) h
  | set i name tensor => exact onTable_error (fun t => add_error) h
  | remove i name => exact onTable_error (fun t => remove_error) h
  | clone i =>
    cases hi : w[i]? with
    | none => simp [Call.apply, hi]
    | some t =>
      cases hc : t.clone with
      | error e' => simp [Call.apply, hi, hc]
      | ok c => simp [Call.apply, hi, hc] at h

theorem run_snoc (before : List Call) (c : Call) :
    run (before ++ [c]) = (c.apply (run before)).1 := by
  simp [run]

theorem run_aligned {calls : List Call}
    (h : ∀ before c, before ++ [c] <+: calls → c.Fits (run before)) :
    ∀ before, before <+: calls → ∀ t ∈ run before, t.Aligned := by
  have hstep (w : List TableObject) (c : Call) (hw : ∀ t ∈ w, t.Aligned) (hc : c.Fits w) :
      ∀ t ∈ (c.apply w).1, t.Aligned := Call.apply_aligned hw hc
  exact foldl_along (P := fun w => ∀ t ∈ w, t.Aligned) (by simp) hstep h

theorem addFits_of_rows {i : Nat} {name : String} {tensor : Tensor}
    (hw : ∀ t ∈ w, t.OneRowCount)
    (hw' : ∀ t ∈ (onTable w i fun t => t.add name tensor).1, t.OneRowCount) :
    AddFits w i name tensor := by
  intro t hi hzero hsize other hother
  by_contra hne
  obtain ⟨x, hx⟩ := Finmap.mem_iff.mp hother
  have hrows : x.size = 0 := ((hw t (List.mem_of_getElem? hi)).rows other x hx).trans hzero
  have hadd : t.add name tensor = (t.put name tensor, .ok ()) := by
    rcases add_cases t name tensor with ⟨hpos, -, -⟩ | ⟨-, he⟩
    · omega
    · exact he
  obtain ⟨hlt, -⟩ := List.getElem?_eq_some_iff.mp hi
  have hmem : t.put name tensor ∈ (onTable w i fun t => t.add name tensor).1 := by
    rw [onTable_some hi, hadd]
    exact List.mem_set hlt (t.put name tensor)
  have hlookup : (t.put name tensor).tensors.lookup other = some x := by
    rw [put, Finmap.lookup_insert_of_ne _ hne, hx]
  have hnew : x.size = tensor.size := (hw' _ hmem).rows other x hlookup
  omega

theorem Call.fits_of_rows {c : Call} (hw : ∀ t ∈ w, t.OneRowCount)
    (hw' : ∀ t ∈ (c.apply w).1, t.OneRowCount) : c.Fits w := by
  cases c with
  | add i name tensor => exact addFits_of_rows hw hw'
  | set i name tensor => exact addFits_of_rows hw hw'
  | _ => trivial

end Runs

theorem one_row_count_iff (calls : List Call) :
    RowCounted calls ↔ ∀ before c, before ++ [c] <+: calls → c.Fits (run before) := by
  constructor
  · intro h before c hc
    refine Call.fits_of_rows (h.tables before ((List.prefix_append before [c]).trans hc)) ?_
    rw [← run_snoc]
    exact h.tables (before ++ [c]) hc
  · intro h
    refine ⟨fun before hbefore t ht => ?_, fun before c _ e he => Call.apply_error he⟩
    exact (run_aligned h before hbefore t ht).oneRowCount

def unevenCalls : List Call :=
  [.create, .add 0 "a" (.scalar .int64 []), .add 0 "b" (.scalar .int64 []),
    .set 0 "a" (.scalar .int64 [1])]

def uneven : TableObject where
  tensors := Finmap.insert "a" (.scalar .int64 [1]) (Finmap.singleton "b" (.scalar .int64 []))
  order := ["a", "b"]
  numRows := 1

theorem one_row_count_fails :
    run unevenCalls = [uneven] ∧ uneven.clone = .error (sizeMismatch 1 0) ∧
      ¬ RowCounted unevenCalls := by
  have hrun : run unevenCalls = [uneven] := by decide +kernel
  have hclone : uneven.clone = .error (sizeMismatch 1 0) := by decide +kernel
  refine ⟨hrun, hclone, fun h => ?_⟩
  have huneven := (h.tables unevenCalls List.prefix_rfl uneven (by simp [hrun])).clone
  rw [hclone] at huneven
  cases huneven

end TableObject

end Lark.Column
