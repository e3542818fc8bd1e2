import Lark.Column.FetchRows

namespace Lark.Column.FilterNode

open Lark.Base

def keptRows (i : Nat) : List Int64 → List Nat
  | [] => []
  | x :: m => if x ≠ 0 then i :: keptRows (i + 1) m else keptRows (i + 1) m

section Copy

variable {α : Type}

def readElem (data : List α) (i : Nat) : Except Exn α :=
  match data[i]? with
  | some x => .ok x
  | none => .error (.undefined "element read past the end")

def copyElems (data : List α) (kept : List Nat) : Except Exn (List α) := kept.mapM (readElem data)

end Copy

-- A block is copied for each kept row, into storage for as many elements as there are kept rows.
def copyBlocks (blocks : List BlockQ8) (kept : List Nat) : Except Exn (List BlockQ8) :=
  kept.zipIdx.mapM fun p =>
    if p.2 < Tensor.numBlocks kept.length then readElem blocks p.1
    else .error (.undefined "block written past the end")

def filterColumn (m : List Int64) : Tensor → Except Exn Tensor
  | .scalar t data => do
    let r ← copyElems data (keptRows 0 m)
    .ok (.scalar t r)
  | .q8_0 _ blocks => do
    let r ← copyBlocks blocks (keptRows 0 m)
    .ok (.q8_0 (keptRows 0 m).length r)

def addFiltered (m : List Int64) (filtered : TensorTable) (e : String × Tensor) :
    Except Exn TensorTable := filterColumn m e.2 >>= filtered.add e.1

def execute (maskFn : TensorTable → Except Exn Tensor) (input : TensorTable) :
    Except Exn TensorTable := do
  match ← maskFn input with
  | .scalar .int64 m => input.entries.foldlM (addFiltered m) .empty
  | _ => .error (.runtimeError "FilterNode: mask must be int64")

structure Agrees (input : TensorTable) (mask : Tensor) (r : Except Exn TensorTable) : Prop where
  defined : ∀ what, r ≠ .error (.undefined what)
  succeeds : (∃ table, r = .ok table) ↔
    ∀ e ∈ input.entries, ∃ out, Exec.filter e.2 mask = .ok out
  columns : ∀ table, r = .ok table →
    List.Forall₂ (fun e out => out.1 = e.1 ∧ Exec.filter e.2 mask = .ok out.2) input.entries
      table.entries

def Handles (input : TensorTable) (mask : Tensor) : Prop :=
  (mask.dtype = .int64 ∧
    ∀ e ∈ input.entries, mask.size = e.2.size ∧ ¬ e.2.dtype.isQuantized) ∨
  (mask.dtype ≠ .int64 ∧ input.entries ≠ [])

section Columns

variable {m : List Int64}

theorem readElem_error {α : Type} {data : List α} {i : Nat} {e : Exn}
    (h : readElem data i = .error e) : ∃ what, e = .undefined what := by
  unfold readElem at h
  split at h
  · cases h
  · exact ⟨_, (Except.error.inj h).symm⟩

theorem filterColumn_error {t : Tensor} {e : Exn} (h : filterColumn m t = .error e) :
    ∃ what, e = .undefined what := by
  cases t with
  | scalar u data =>
    cases hcopy : copyElems data (keptRows 0 m) with
    | ok r =>
      rw [filterColumn, hcopy] at h
      cases h
    | error e' =>
      rw [filterColumn, hcopy] at h
      obtain rfl : e' = e := Except.error.inj h
      obtain ⟨i, -, hi⟩ := exists_of_mapM_error hcopy
      exact readElem_error hi
  | q8_0 n blocks =>
    cases hcopy : copyBlocks blocks (keptRows 0 m) with
    | ok r =>
      rw [filterColumn, hcopy] at h
      cases h
    | error e' =>
      rw [filterColumn, hcopy] at h
      obtain rfl : e' = e := Except.error.inj h
      obtain ⟨p, -, hp⟩ := exists_of_mapM_error hcopy
      split_ifs at hp
      · exact readElem_error hp
      · exact ⟨_, (Except.error.inj hp).symm⟩

theorem filterColumn_size {t r : Tensor} (h : filterColumn m t = .ok r) :
    r.size = (keptRows 0 m).length := by
  cases t with
  | scalar u data =>
    obtain ⟨xs, hxs, rfl⟩ := except_map_eq_ok.mp h
    exact (mapM_eq_ok_iff.mp hxs).length_eq.symm
  | q8_0 n blocks =>
    obtain ⟨xs, -, rfl⟩ := except_map_eq_ok.mp h
    rfl

theorem copyElems_kept {α : Type} (before : List α) {xs : List α} (h : m.length = xs.length) :
    copyElems (before ++ xs) (keptRows before.length m) =
      .ok (((List.zip m xs).filter fun p => p.1 ≠ 0).map Prod.snd) := by
  induction m generalizing before xs with
  | nil => rfl
  | cons k m ih =>
    cases xs with
    | nil => cases h
    | cons x xs =>
      have hrest := ih (before ++ [x]) (Nat.succ.inj h)
      rw [List.append_assoc, List.singleton_append, List.length_append,
        List.length_singleton] at hrest
      have hread : readElem (before ++ x :: xs) before.length = .ok x := by
        simp [readElem]
      by_cases hk : k = 0
      · simpa [keptRows, hk] using hrest
      · rw [keptRows, if_pos hk, copyElems, List.mapM_cons, hread, except_ok_bind]
        unfold copyElems at hrest
        rw [hrest]
        simp [hk, pure, Except.pure]

theorem filterColumn_eq_filter {t : Tensor} (hsize : m.length = t.size)
    (hplain : ¬ t.dtype.isQuantized) :
    ∃ out, filterColumn m t = .ok out ∧ Exec.filter t (.scalar .int64 m) = .ok out := by
  cases t with
  | scalar u data =>
    refine ⟨_, ?_, if_neg fun h => h hsize⟩
    rw [filterColumn]
    exact congrArg (· >>= fun r => Except.ok (Tensor.scalar u r)) (copyElems_kept [] hsize)
  | q8_0 n blocks => exact absurd rfl hplain

theorem filter_ok_spec {t out : Tensor} (h : Exec.filter t (.scalar .int64 m) = .ok out) :
    m.length = t.size ∧ ¬ t.dtype.isQuantized := by
  unfold Exec.filter at h
  by_cases hsize : m.length = t.size
  · refine ⟨hsize, ?_⟩
    cases t with
    | scalar u data => simp [Tensor.dtype, DType.isQuantized]
    | q8_0 n blocks =>
      simp only at h
      rw [if_neg fun hne => hne hsize] at h
      cases h
  · simp only at h
    rw [if_pos hsize] at h
    cases h

end Columns

section Agreement

variable {input : TensorTable} {m : List Int64}

theorem run_cases (hnodup : (input.entries.map Prod.fst).Nodup) :
    (∃ what, input.entries.foldlM (addFiltered m) .empty = .error (.undefined what) ∧
      ∃ e ∈ input.entries, ∀ out, filterColumn m e.2 ≠ .ok out) ∨
    ∃ table, input.entries.foldlM (addFiltered m) .empty = .ok table ∧
      List.Forall₂ (fun e out => out.1 = e.1 ∧ filterColumn m e.2 = .ok out.2) input.entries
        table.entries := by
  rcases TensorTable.addColumns .empty (fun e _ t ht => filterColumn_size (m := m) ht)
      (fun hne => absurd rfl hne) (fun _ _ => rfl) hnodup with
    ⟨e, he, x, hx, hrun⟩ | ⟨table, outs, hrun, heq, hall⟩
  · obtain ⟨what, rfl⟩ := filterColumn_error hx
    refine .inl ⟨what, hrun, e, he, fun out hout => ?_⟩
    rw [hx] at hout
    cases hout
  · exact .inr ⟨table, hrun, by rwa [heq]⟩

theorem run_agrees_iff (hnodup : (input.entries.map Prod.fst).Nodup) :
    Agrees input (.scalar .int64 m) (input.entries.foldlM (addFiltered m) .empty) ↔
      ∀ e ∈ input.entries, m.length = e.2.size ∧ ¬ e.2.dtype.isQuantized := by
  constructor
  · intro h e he
    rcases run_cases (m := m) hnodup with ⟨what, hrun, -⟩ | ⟨table, hrun, -⟩
    · exact absurd hrun (h.defined what)
    · obtain ⟨out, hout⟩ := h.succeeds.mp ⟨table, hrun⟩ e he
      exact filter_ok_spec hout
  · intro h
    have hcolumn : ∀ e ∈ input.entries, ∃ out, filterColumn m e.2 = .ok out ∧
        Exec.filter e.2 (.scalar .int64 m) = .ok out :=
      fun e he => filterColumn_eq_filter (h e he).1 (h e he).2
    rcases run_cases (m := m) hnodup with ⟨what, -, e, he, hbad⟩ | ⟨table, hrun, hall⟩
    · obtain ⟨out, hout, -⟩ := hcolumn e he
      exact absurd hout (hbad out)
    · refine ⟨?_, ?_, ?_⟩
      · intro what hw
        rw [hrun] at hw
        cases hw
      · refine ⟨fun _ e he => ?_, fun _ => ⟨table, hrun⟩⟩
        obtain ⟨out, -, hout⟩ := hcolumn e he
        exact ⟨out, hout⟩
      · intro table' htable'
        obtain rfl : table = table' := Except.ok.inj (hrun.symm.trans htable')
        refine ((List.forall₂_and_left _ _).mpr ⟨hcolumn, hall⟩).imp fun e out hboth => ?_
        obtain ⟨⟨r, hr, hfilter⟩, hname, hout⟩ := hboth
        obtain rfl : r = out.2 := Except.ok.inj (hr.symm.trans hout)
        exact ⟨hname, hfilter⟩

theorem filter_mask_error {t mask : Tensor} (h : mask.dtype ≠ .int64) :
    Exec.filter t mask = .error (.runtimeError "filter: mask must be int64") := by
  cases mask with
  | scalar u m =>
    cases u with
    | int64 => exact absurd rfl h
    | _ => rfl
  | q8_0 n blocks => rfl

theorem execute_mask_error {maskFn : TensorTable → Except Exn Tensor} {mask : Tensor}
    (hmask : maskFn input = .ok mask) (h : mask.dtype ≠ .int64) :
    execute maskFn input = .error (.runtimeError "FilterNode: mask must be int64") := by
  rw [execute, hmask, except_ok_bind]
  cases mask with
  | scalar u m =>
    cases u with
    | int64 => exact absurd rfl h
    | _ => rfl
  | q8_0 n blocks => rfl

theorem execute_agrees_of_mask_error {maskFn : TensorTable → Except Exn Tensor} {mask : Tensor}
    (hmask : maskFn input = .ok mask) (h : mask.dtype ≠ .int64) :
    Agrees input mask (execute maskFn input) ↔ input.entries ≠ [] := by
  have hexec := execute_mask_error hmask h
  constructor
  · intro hagree hnil
    obtain ⟨table, htable⟩ := hagree.succeeds.mpr (by simp [hnil])
    rw [hexec] at htable
    cases htable
  · intro hne
    obtain ⟨e, he⟩ := List.exists_mem_of_ne_nil _ hne
    refine ⟨fun what hw => ?_, ⟨fun ⟨table, htable⟩ => ?_, fun hall => ?_⟩, fun table htable => ?_⟩
    · rw [hexec] at hw
      cases hw
    · rw [hexec] at htable
      cases htable
    · obtain ⟨out, hout⟩ := hall e he
      rw [filter_mask_error h] at hout
      cases hout
    · rw [hexec] at htable
      cases htable

end Agreement

theorem filter_node_agrees_iff (maskFn : TensorTable → Except Exn Tensor) (input : TensorTable)
    (mask : Tensor) (hnodup : (input.entries.map Prod.fst).Nodup)
    (hmask : maskFn input = .ok mask) :
    Agrees input mask (execute maskFn input) ↔ Handles input mask := by
  by_cases h : mask.dtype = .int64
  · obtain ⟨m, rfl⟩ : ∃ m, mask = .scalar .int64 m := by
      cases mask with
      | scalar u m =>
        obtain rfl : u = .int64 := DType.scalar.inj h
        exact ⟨m, rfl⟩
      | q8_0 n blocks => cases h
    have hexec : execute maskFn input = input.entries.foldlM (addFiltered m) .empty := by
      rw [execute, hmask]
      rfl
    rw [hexec, run_agrees_iff hnodup]
    exact ⟨fun hall => .inl ⟨rfl, hall⟩, fun hh => hh.elim And.right fun hne => absurd rfl hne.1⟩
  · rw [execute_agrees_of_mask_error hmask h]
    exact ⟨fun hne => .inr ⟨h, hne⟩, fun hh => hh.elim (fun hint => absurd hint.1 h) And.right⟩

def threeRows : TensorTable where
  entries := [("x", .scalar .int64 [1, 2, 3]), ("y", .scalar .float32 [4, 5, 6])]
  numRows := 3

theorem filter_node_agrees_three :
    Agrees threeRows (.scalar .int64 [1, 0, 2])
      (execute (fun _ => .ok (.scalar .int64 [1, 0, 2])) threeRows) := by
  refine (filter_node_agrees_iff _ _ _ (by decide) rfl).mpr (.inl ⟨rfl, ?_⟩)
  decide

theorem filter_node_disagrees :
    execute (fun _ => .ok (.scalar .int64 [1])) threeRows =
        .ok ⟨[("x", .scalar .int64 [1]), ("y", .scalar .float32 [4])], 1⟩ ∧
      execute (fun _ => .ok (.scalar .int64 [1, 0, 0, 1])) threeRows =
        .error (.undefined "element read past the end") ∧
      ¬ Agrees threeRows (.scalar .int64 [1])
        (execute (fun _ => .ok (.scalar .int64 [1])) threeRows) ∧
      ¬ Agrees threeRows (.scalar .int64 [1, 0, 0, 1])
        (execute (fun _ => .ok (.scalar .int64 [1, 0, 0, 1])) threeRows) := by
  have hshort : execute (fun _ => .ok (.scalar .int64 [1])) threeRows =
      .ok ⟨[("x", .scalar .int64 [1]), ("y", .scalar .float32 [4])], 1⟩ := by decide +kernel
  have hlong : execute (fun _ => .ok (.scalar .int64 [1, 0, 0, 1])) threeRows =
      .error (.undefined "element read past the end") := by decide +kernel
  refine ⟨hshort, hlong, fun h => ?_, fun h => h.defined _ hlong⟩
  obtain ⟨out, hout⟩ := h.succeeds.mp ⟨_, hshort⟩ ("x", .scalar .int64 [1, 2, 3]) (by decide)
  cases hout

end Lark.Column.FilterNode
