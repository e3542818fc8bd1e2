import Lark.Base.Fold
import Lark.Column.FeedFetch
import Lark.Column.Exec.Conversions

namespace Lark.Column

open Lark.Base

section Adding

variable {table : TensorTable} {name : String} {t : Tensor}

theorem TensorTable.add_ok (table : TensorTable) (name : String) (t : Tensor)
    (h : table.entries ≠ [] → t.size = table.numRows) : ∃ table', table.add name t = .ok table' ∧
      table'.numRows = t.size ∧
      ∀ other, table'.get? other = if other = name then some t else table.get? other := by
  unfold add
  rw [if_neg fun hc => hc.2.2 (h hc.1)]
  split_ifs with hname
  · refine ⟨_, rfl, rfl, fun other => ?_⟩
    split_ifs with ho
    · subst ho
      exact lookup_replace_self hname t
    · exact lookup_replace_ne ho t table.entries
  · exact ⟨_, rfl, rfl, lookup_snoc (Option.not_isSome_iff_eq_none.mp hname) t⟩

theorem TensorTable.add_new (hsize : table.entries ≠ [] → t.size = table.numRows)
    (hname : table.get? name = none) :
    table.add name t = .ok ⟨table.entries ++ [(name, t)], t.size⟩ := by
  unfold TensorTable.add
  rw [if_neg fun hc => hc.2.2 (hsize hc.1), hname]
  rfl

theorem TensorTable.addColumns {ι : Type} {col : ι → Except Exn Tensor} {n : Nat}
    {ps : List (String × ι)} (table : TensorTable)
    (hsize : ∀ p ∈ ps, ∀ t, col p.2 = .ok t → t.size = n)
    (hrows : table.entries ≠ [] → table.numRows = n) (hnew : ∀ p ∈ ps, table.get? p.1 = none)
    (hnodup : (ps.map Prod.fst).Nodup) :
    (∃ p ∈ ps, ∃ e, col p.2 = .error e ∧
      ps.foldlM (fun table p => col p.2 >>= table.add p.1) table = .error e) ∨
    ∃ table' outs, ps.foldlM (fun table p => col p.2 >>= table.add p.1) table = .ok table' ∧
      table'.entries = table.entries ++ outs ∧
      List.Forall₂ (fun p out => out.1 = p.1 ∧ col p.2 = .ok out.2) ps outs := by
  induction ps generalizing table with
  | nil => exact .inr ⟨table, [], rfl, by simp, .nil⟩
  | cons p ps ih =>
    rw [List.foldlM_cons]
    cases hcol : col p.2 with
    | error e => exact .inl ⟨p, by simp, e, hcol, rfl⟩
    | ok t =>
      have ht : t.size = n := hsize p (by simp) t hcol
      have hnone : table.get? p.1 = none := hnew p (by simp)
      obtain ⟨hp, hrest⟩ := List.nodup_cons.mp hnodup
      have hfresh : ∀ q ∈ ps,
          TensorTable.get? ⟨table.entries ++ [(p.1, t)], t.size⟩ q.1 = none := by
        intro q hq
        have hne : ¬ q.1 = p.1 := fun h => hp (h ▸ List.mem_map_of_mem hq)
        have hlookup := (lookup_snoc hnone t q.1).trans (if_neg hne)
        exact hlookup.trans (hnew q (by simp [hq]))
      rw [except_ok_bind, TensorTable.add_new (fun hne => ht.trans (hrows hne).symm) hnone,
        except_ok_bind]
      rcases ih _ (fun q hq => hsize q (by simp [hq])) (fun _ => ht) hfresh hrest with
        ⟨q, hq, e, he, hrun⟩ | ⟨table', outs, hrun, heq, hall⟩
      · exact .inl ⟨q, by simp [hq], e, he, hrun⟩
      · exact .inr ⟨table', (p.1, t) :: outs, hrun, by simpa using heq, .cons ⟨rfl, hcol⟩ hall⟩

end Adding

namespace TensorStore

def toTableStep (s : TensorStore) (acc : TensorTable × Option Nat) (name : String) :
    Except Exn (TensorTable × Option Nat) :=
  match s.find name with
  | none => .error (.outOfRange ("TensorStore::to_table: unknown tensor '" ++ name ++ "'"))
  | some t =>
    if acc.2.any (· ≠ t.size) then
      .error (.runtimeError ("TensorStore::to_table: length mismatch for column '" ++ name ++ "'"))
    else do
      let table ← acc.1.add name t
      .ok (table, some (acc.2.getD t.size))

variable {s : TensorStore} {names : List String} {table : TensorTable}

theorem toTable_eq_ok : s.toTable names = .ok table ↔
    ∃ rows, names.foldlM s.toTableStep (.empty, none) = .ok (table, rows) := by
  have hfold : s.toTable names =
      names.foldlM s.toTableStep (.empty, none) >>= fun acc => .ok acc.1 := rfl
  rw [hfold, except_bind_eq_ok]
  constructor
  · rintro ⟨⟨table', rows⟩, hrun, htable⟩
    exact ⟨rows, Except.ok.inj htable ▸ hrun⟩
  · rintro ⟨rows, hrun⟩
    exact ⟨(table, rows), hrun, rfl⟩

structure Projected (s : TensorStore) (rows : Nat) (done : List String)
    (acc : TensorTable × Option Nat) : Prop where
  get : ∀ name, acc.1.get? name = if name ∈ done then s.find name else none
  sizes : ∀ name ∈ done, ∃ t, s.find name = some t ∧ t.size = rows
  length : acc.2 = if done = [] then none else some rows
  numRows : acc.1.numRows = if done = [] then 0 else rows
  nothing : done = [] → acc.1.entries = []

theorem projected_empty (s : TensorStore) (rows : Nat) : s.Projected rows [] (.empty, none) :=
  ⟨fun _ => rfl, fun _ h => absurd h List.not_mem_nil, rfl, rfl, fun _ => rfl⟩

theorem Projected.step {rows : Nat} {done : List String} {acc : TensorTable × Option Nat}
    (h : s.Projected rows done acc) {name : String} {t : Tensor} (hfind : s.find name = some t)
    (hsize : t.size = rows) :
    ∃ acc', s.toTableStep acc name = .ok acc' ∧ s.Projected rows (done ++ [name]) acc' := by
  have hguard : ¬ acc.2.any (· ≠ t.size) := by
    rw [h.length]
    split_ifs
    · simp
    · simp [hsize]
  obtain ⟨table, hadd, hrows, hget⟩ := acc.1.add_ok name t fun hne => by
    rw [hsize, h.numRows, if_neg fun hd => hne (h.nothing hd)]
  refine ⟨(table, some (acc.2.getD t.size)), ?_, ?_, ?_, ?_, ?_, ?_⟩
  · simp only [toTableStep, hfind]
    rw [if_neg hguard, hadd]
    rfl
  · intro other
    rw [hget, h.get]
    by_cases ho : other = name
    · simp [ho, hfind]
    · simp [ho]
  · intro other ho
    rcases List.mem_append.mp ho with hd | hn
    · exact h.sizes other hd
    · exact ⟨t, List.mem_singleton.mp hn ▸ hfind, hsize⟩
  · rw [h.length]
    split_ifs <;> simp_all
  · simpa [hrows] using hsize
  · simp

theorem Projected.run {rows : Nat} {rest done : List String} {acc : TensorTable × Option Nat}
    (h : s.Projected rows done acc)
    (hrest : ∀ name ∈ rest, ∃ t, s.find name = some t ∧ t.size = rows) :
    ∃ acc', rest.foldlM s.toTableStep acc = .ok acc' ∧ s.Projected rows (done ++ rest) acc' := by
  induction rest generalizing done acc with
  | nil => exact ⟨acc, rfl, by rwa [List.append_nil]⟩
  | cons name rest ih =>
    obtain ⟨t, hfind, hsize⟩ := hrest name (by simp)
    obtain ⟨acc', hstep, hacc'⟩ := h.step hfind hsize
    obtain ⟨acc'', hrun, hacc''⟩ := ih hacc' fun other ho => hrest other (by simp [ho])
    refine ⟨acc'', ?_, by simpa using hacc''⟩
    rw [List.foldlM_cons, hstep, except_ok_bind, hrun]

theorem toTable_columns (rows : Nat)
    (h : ∀ name ∈ names, ∃ t, s.find name = some t ∧ t.size = rows) :
    ∃ table, s.toTable names = .ok table ∧ ∀ name ∈ names, table.get? name = s.find name := by
  obtain ⟨acc, hrun, hacc⟩ := (projected_empty s rows).run h
  refine ⟨acc.1, toTable_eq_ok.mpr ⟨acc.2, hrun⟩, fun name hname => ?_⟩
  rw [hacc.get, if_pos (by simpa using hname)]

theorem Projected.sizes_of_run {rows : Nat} {rest done : List String}
    {acc acc' : TensorTable × Option Nat} (h : s.Projected rows done acc) (hne : done ≠ [])
    (hrun : rest.foldlM s.toTableStep acc = .ok acc') :
    ∀ name ∈ rest, ∃ t, s.find name = some t ∧ t.size = rows := by
  induction rest generalizing done acc with
  | nil => simp
  | cons name rest ih =>
    rw [List.foldlM_cons] at hrun
    obtain ⟨acc₁, hstep, hrun⟩ := except_bind_eq_ok.mp hrun
    have hfirst : ∃ t, s.find name = some t ∧ t.size = rows := by
      cases hfind : s.find name with
      | none => simp [toTableStep, hfind] at hstep
      | some t =>
        refine ⟨t, rfl, ?_⟩
        by_contra hsize
        have hguard : acc.2.any (· ≠ t.size) := by
          rw [h.length, if_neg hne]
          simpa using Ne.symm hsize
        simp only [toTableStep, hfind] at hstep
        rw [if_pos hguard] at hstep
        cases hstep
    obtain ⟨t, hfind, hsize⟩ := hfirst
    obtain ⟨acc₂, hstep', hacc₂⟩ := h.step hfind hsize
    obtain rfl : acc₁ = acc₂ := Except.ok.inj (hstep.symm.trans hstep')
    rintro other (_ | ⟨_, ho⟩)
    · exact ⟨t, hfind, hsize⟩
    · exact ih hacc₂ (by simp) hrun other ho

theorem sizes_of_toTable (h : s.toTable names = .ok table) :
    ∃ rows, ∀ name ∈ names, ∃ t, s.find name = some t ∧ t.size = rows := by
  cases names with
  | nil => exact ⟨0, by simp⟩
  | cons first rest =>
    obtain ⟨last, hrun⟩ := toTable_eq_ok.mp h
    rw [List.foldlM_cons] at hrun
    obtain ⟨acc, hstep, hrun⟩ := except_bind_eq_ok.mp hrun
    cases hfind : s.find first with
    | none => simp [toTableStep, hfind] at hstep
    | some t =>
      obtain ⟨acc', hstep', hacc'⟩ := (projected_empty s t.size).step hfind rfl
      obtain rfl : acc = acc' := Except.ok.inj (hstep.symm.trans hstep')
      refine ⟨t.size, ?_⟩
      rintro other (_ | ⟨_, ho⟩)
      · exact ⟨t, hfind, rfl⟩
      · exact hacc'.sizes_of_run (by simp) hrun other ho

end TensorStore

section Rows

variable {table : TensorTable} {names : List String} {rows : Nat}

def rowsOf (rows : Nat) (columns : List (List Cell)) : List Row :=
  (List.range rows).map fun r => columns.map fun c => c.getD r .monostate

def checkColumn (table : TensorTable) (rows : Nat) (name : String) : Except Exn Unit :=
  match table.get? name with
  | none => .error (.runtimeError ("fetch_rows: unknown column '" ++ name ++ "'"))
  | some t =>
    if t.size ≠ rows then
      .error (.runtimeError ("fetch_rows: column '" ++ name ++ "' length mismatch"))
    else .ok ()

theorem fetchRows_cons (table : TensorTable) (first : String) (rest : List String) :
    fetchRows table (first :: rest) = table.get first >>= fun t =>
      (first :: rest).forM (checkColumn table t.size) >>= fun _ =>
        ((first :: rest).mapM fun name => table.get name >>= toCells) >>= fun columns =>
          .ok (rowsOf t.size columns) := rfl

theorem fetchRows_columns (col : String → Tensor) (hne : names ≠ [])
    (hget : ∀ name ∈ names, table.get? name = some (col name))
    (hsize : ∀ name ∈ names, (col name).size = rows) :
    fetchRows table names =
      (names.mapM fun name => toCells (col name)) >>= fun columns => .ok (rowsOf rows columns) := by
  have hat {name : String} (hname : name ∈ names) : table.get name = .ok (col name) := by
    rw [TensorTable.get, hget name hname]
  have hcheck : names.forM (checkColumn table rows) = .ok () := by
    refine forM_ok fun name hname => ?_
    simp only [checkColumn, hget name hname, hsize name hname, ne_eq, not_true_eq_false, if_false]
  have hcells : (names.mapM fun name => table.get name >>= toCells) =
      names.mapM fun name => toCells (col name) := by
    refine mapM_congr fun name hname => ?_
    rw [hat hname, except_ok_bind]
  cases names with
  | nil => exact absurd rfl hne
  | cons first rest =>
    have hfirst : first ∈ first :: rest := List.mem_cons_self
    rw [fetchRows_cons, hat hfirst, except_ok_bind, hsize first hfirst, hcheck, hcells]
    rfl

theorem getElem?_rowsOf {columns : List (List Cell)} {r c : Nat} {cells : List Cell} (hr : r < rows)
    (hc : columns[c]? = some cells) (hlen : cells.length = rows) :
    ((rowsOf rows columns)[r]?.bind fun row => row[c]?) = cells[r]? := by
  have hrow : (rowsOf rows columns)[r]? =
      some (columns.map fun c => c.getD r .monostate) := by
    simp [rowsOf, hr]
  rw [hrow, Option.bind_some, List.getElem?_map, hc, Option.map_some, List.getD_eq_getElem?_getD,
    List.getElem?_eq_getElem (hlen ▸ hr), Option.getD_some]

end Rows

def Num.toCell : Num → Cell
  | .int n => .int64 (Int64.ofInt n)
  | .dbl d => .double d

-- A quantised tensor is dequantised to doubles first.
def fetchScalar : Tensor → Except Exn Double
  | .scalar _ [] => .ok 0
  | .scalar _ (x :: _) => .ok (Elem.toDouble x)
  | .q8_0 n blocks =>
    if n = 0 then .ok 0
    else
      match Tensor.dequantizeBlocks n blocks with
      | [] => .ok 0
      | x :: _ => .ok x

section Values

theorem toCells_scalar {t : ScalarType} (data : List t.Carrier) :
    toCells (.scalar t data) = .ok ((Tensor.scalar t data).elems.map Num.toCell) := by
  cases t with
  | int64 =>
    have hcell (x : Int64) : Num.toCell (Elem.toNum x) = .int64 x :=
      congrArg Cell.int64 (Int64.ofInt_toInt x)
    simp only [toCells, Tensor.elems, List.map_map]
    exact congrArg Except.ok (List.map_congr_left fun x _ => (hcell x).symm)
  | _ =>
    simp only [toCells, Tensor.elems, List.map_map]
    rfl

theorem toCells_nil {n : Nat} {blocks : List BlockQ8} (h : n = 0) :
    toCells (.q8_0 n blocks) = .ok ((Tensor.q8_0 n blocks).elems.map Num.toCell) := by
  simp [toCells, h, Tensor.elems, Tensor.elems_of_empty]

theorem toCells_elems {a : Tensor} (h : a.dtype.isQuantized → a.size = 0) :
    toCells a = .ok (a.elems.map Num.toCell) := by
  cases a with
  | scalar t data => exact toCells_scalar data
  | q8_0 n blocks => exact toCells_nil (h rfl)

theorem toCells_quantized {a : Tensor} (h : a.dtype.isQuantized) (hsize : a.size ≠ 0) :
    toCells a = .error (.undefined "element read at another type") := by
  cases a with
  | scalar t data => simp [DType.isQuantized, Tensor.dtype] at h
  | q8_0 n blocks => exact if_neg hsize

theorem toDouble_toCell {t : ScalarType} (x : t.Carrier) :
    (Num.toCell (Elem.toNum x)).toDouble = Elem.toDouble x := by
  cases t with
  | int32 =>
    have hrange : (Int64.ofInt (Int32.toInt x)).toInt = Int32.toInt x :=
      Int64.toInt_ofInt_of_le (by have := Int32.le_toInt x; omega)
        (by have := Int32.toInt_lt x; omega)
    exact congrArg (fun n : Int => Double.num n) hrange
  | int64 => exact congrArg (fun v : Int64 => Double.num v.toInt) (Int64.ofInt_toInt x)
  | float32 => rfl
  | float64 => rfl

theorem fetchScalar_first {a : Tensor} {x : Num} (h : a.elems[0]? = some x) :
    fetchScalar a = .ok (Num.toCell x).toDouble := by
  cases a with
  | scalar t data =>
    cases data with
    | nil => simp [Tensor.elems] at h
    | cons y data =>
      obtain rfl : Elem.toNum y = x := by simpa [Tensor.elems] using h
      rw [toDouble_toCell, fetchScalar]
  | q8_0 n blocks =>
    have hn : n ≠ 0 := by
      rintro rfl
      simp [Tensor.elems, Tensor.elems_of_empty] at h
    cases hd : Tensor.dequantizeBlocks n blocks with
    | nil => simp [Tensor.elems, hd] at h
    | cons y ys =>
      obtain rfl : Num.dbl y = x := by simpa [Tensor.elems, hd] using h
      simp only [fetchScalar, hd]
      exact if_neg hn

end Values

structure ColumnFetched (rows : List Row) (c : Nat) (t : Tensor) : Prop where
  length : rows.length = t.size
  cell : ∀ r < t.size, ∃ x, t.elems[r]? = some x ∧
    (rows[r]?.bind fun row => row[c]?) = some (Num.toCell x)
  scalar : t.size = 1 → ∃ cell, (rows[0]?.bind fun row => row[c]?) = some cell ∧
    fetchScalar t = .ok cell.toDouble

def FetchesValues (table : TensorTable) (names : List String) : Prop :=
  ∃ rows, fetchRows table names = .ok rows ∧ (∀ row ∈ rows, row.length = names.length) ∧
    ∀ c name t, names[c]? = some name → table.get? name = some t → ColumnFetched rows c t

section

variable {table : TensorTable} {names : List String}

theorem columnFetched_rowsOf {columns : List (List Cell)} {c : Nat} {t : Tensor}
    (ht : t.WellFormed) (hc : columns[c]? = some (t.elems.map Num.toCell)) :
    ColumnFetched (rowsOf t.size columns) c t := by
  have hlen : (t.elems.map Num.toCell).length = t.size := by
    rw [List.length_map, Tensor.length_elems ht]
  have hcell : ∀ r < t.size, ∃ x, t.elems[r]? = some x ∧
      ((rowsOf t.size columns)[r]?.bind fun row => row[c]?) = some (Num.toCell x) := by
    intro r hr
    have hr' : r < t.elems.length := by rwa [Tensor.length_elems ht]
    refine ⟨t.elems[r], List.getElem?_eq_getElem hr', ?_⟩
    rw [getElem?_rowsOf hr hc hlen, List.getElem?_map, List.getElem?_eq_getElem hr',
      Option.map_some]
  refine ⟨by simp [rowsOf], hcell, fun hone => ?_⟩
  obtain ⟨x, hx, hrow⟩ := hcell 0 (by omega)
  exact ⟨Num.toCell x, hrow, fetchScalar_first hx⟩

theorem fetch_rows_values_iff {n : Nat} (hne : names ≠ [])
    (hnames : ∀ name ∈ names, (table.get? name).isSome)
    (hsize : ∀ name t, table.get? name = some t → t.size = n)
    (hwf : ∀ name t, table.get? name = some t → t.WellFormed) :
    FetchesValues table names ↔
      ∀ name ∈ names, ∀ t, table.get? name = some t → t.dtype.isQuantized → t.size = 0 := by
  have hget : ∀ name ∈ names, table.get? name = some ((table.get? name).getD .empty) := by
    intro name hname
    obtain ⟨t, ht⟩ := Option.isSome_iff_exists.mp (hnames name hname)
    rw [ht, Option.getD_some]
  have hrows := fetchRows_columns _ hne hget fun name hname => hsize name _ (hget name hname)
  constructor
  · rintro ⟨rows, hok, -, -⟩ name hname t ht hq
    by_contra hpos
    rw [hrows] at hok
    obtain ⟨columns, hcols, -⟩ := except_bind_eq_ok.mp hok
    obtain ⟨c, hc⟩ := List.mem_iff_getElem?.mp hname
    obtain ⟨cells, -, hcells⟩ := getElem?_mapM hcols hc
    rw [ht, Option.getD_some, toCells_quantized hq hpos] at hcells
    cases hcells
  · intro h
    have hcols : (names.mapM fun name => toCells ((table.get? name).getD .empty)) =
        .ok (names.map fun name => ((table.get? name).getD .empty).elems.map Num.toCell) :=
      mapM_ok fun name hname => toCells_elems (h name hname _ (hget name hname))
    refine ⟨_, by rw [hrows, hcols, except_ok_bind], ?_, ?_⟩
    · intro row hrow
      obtain ⟨r, -, rfl⟩ := List.mem_map.mp hrow
      simp
    · intro c name t hc ht
      rw [← hsize name t ht]
      exact columnFetched_rowsOf (hwf name t ht) (by simp [hc, ht])

end

theorem TensorTable.mem_of_get? {table : TensorTable} {name : String} {t : Tensor}
    (h : table.get? name = some t) : (name, t) ∈ table.entries := by
  obtain ⟨before, after, hsplit, -⟩ := List.lookup_eq_some_iff.mp h
  simp [hsplit]

def mixedTable : TensorTable where
  entries := [("x", .scalar .int32 [1, 2]), ("y", .scalar .float32 [0, 1])]
  numRows := 2

theorem fetch_rows_values_mixed : FetchesValues mixedTable ["y", "x"] := by
  have hcolumn {name : String} {t : Tensor} (h : mixedTable.get? name = some t) :
      t = .scalar .int32 [1, 2] ∨ t = .scalar .float32 [0, 1] := by
    have hmem := TensorTable.mem_of_get? h
    simp only [mixedTable, List.mem_cons, Prod.mk.injEq, List.not_mem_nil, or_false] at hmem
    exact hmem.imp And.right And.right
  refine (fetch_rows_values_iff (n := 2) (by simp) (by decide) ?_ ?_).mpr ?_
  · intro name t ht
    rcases hcolumn ht with rfl | rfl <;> rfl
  · intro name t ht
    rcases hcolumn ht with rfl | rfl <;> trivial
  · intro name _ t ht hq
    rcases hcolumn ht with rfl | rfl <;> cases hq

def quantizedTable : TensorTable where
  entries := [("q", .q8_0 1 [⟨.num 1, 127 :: List.replicate 31 0⟩])]
  numRows := 1

theorem fetch_rows_quantized :
    Tensor.quantizeQ8_0 (.scalar .float64 [.num 127]) =
        .ok (.q8_0 1 [⟨.num 1, 127 :: List.replicate 31 0⟩]) ∧
      fetchScalar (.q8_0 1 [⟨.num 1, 127 :: List.replicate 31 0⟩]) = .ok (.num 127) ∧
      fetchRows quantizedTable ["q"] = .error (.undefined "element read at another type") ∧
      ¬ FetchesValues quantizedTable ["q"] := by
  have hrows : fetchRows quantizedTable ["q"] =
      .error (.undefined "element read at another type") := rfl
  refine ⟨by decide +kernel, by decide +kernel, hrows, ?_⟩
  rintro ⟨rows, hok, -⟩
  rw [hrows] at hok
  cases hok

end Lark.Column
