import Lark.Column.FetchRows
import Lark.Column.Biz.Reuse

namespace Lark.Column

open Lark.Base

def hasDouble (rows : List Row) (c : Nat) : Bool :=
  rows.any fun row => (row.getD c .monostate).isDouble

-- A cell of a column as feeding leaves it; `found` says that some cell of the column is a double.
def Cell.normalised (found : Bool) : Cell → Cell
  | .monostate => if found then .double 0 else .int64 0
  | .int64 v => if found then .double (.num v.toInt) else .int64 v
  | .double v => .double v

def normalisedRow (rows : List Row) (width : Nat) (row : Row) : Row :=
  (List.range width).map fun c => (row.getD c .monostate).normalised (hasDouble rows c)

def tooFewCells : Exn := .runtimeError "feed_table: row has fewer cells than columns"

section Feeding

variable {rows : List Row} {c : Nat}

def seesDouble (c : Nat) (found : Bool) (row : Row) : Except Exn Bool :=
  match row[c]? with
  | none => .error tooFewCells
  | some cell => .ok (found || cell.isDouble)

theorem anyDouble_eq (rows : List Row) (c : Nat) :
    anyDouble rows c = rows.foldlM (seesDouble c) false := rfl

theorem seesDouble_ok {row : Row} (h : c < row.length) (found : Bool) :
    seesDouble c found row = .ok (found || (row.getD c .monostate).isDouble) := by
  simp [seesDouble, List.getElem?_eq_getElem h]

theorem seesDouble_short {row : Row} (h : row.length ≤ c) (found : Bool) :
    seesDouble c found row = .error tooFewCells := by
  simp [seesDouble, List.getElem?_eq_none h]

theorem anyDouble_ok (h : ∀ row ∈ rows, c < row.length) :
    anyDouble rows c = .ok (hasDouble rows c) := by
  have hrun (found : Bool) :
      rows.foldlM (seesDouble c) found = .ok (found || hasDouble rows c) := by
    induction rows generalizing found with
    | nil => simp [hasDouble, pure, Except.pure]
    | cons row rows ih =>
      rw [List.foldlM_cons, seesDouble_ok (h row (by simp)), except_ok_bind,
        ih fun r hr => h r (by simp [hr])]
      simp [hasDouble, Bool.or_assoc]
  rw [anyDouble_eq, hrun, Bool.false_or]

theorem anyDouble_short (h : ∃ row ∈ rows, row.length ≤ c) :
    anyDouble rows c = .error tooFewCells := by
  have hrun (found : Bool) : rows.foldlM (seesDouble c) found = .error tooFewCells := by
    induction rows generalizing found with
    | nil => simp at h
    | cons row rows ih =>
      rw [List.foldlM_cons]
      rcases Nat.lt_or_ge c row.length with hc | hc
      · have hrest : ∃ row ∈ rows, row.length ≤ c := by
          obtain ⟨r, hr, hshort⟩ := h
          rcases List.mem_cons.mp hr with rfl | hr
          · omega
          · exact ⟨r, hr, hshort⟩
        rw [seesDouble_ok hc, except_ok_bind]
        exact ih hrest _
      · rw [seesDouble_short hc, except_error_bind]
  rw [anyDouble_eq]
  exact hrun false

theorem toInt64_of_not_double {cell : Cell} (h : cell.isDouble = false) :
    ∃ v, cell.toInt64 = .ok v ∧ Cell.int64 v = cell.normalised false := by
  cases cell with
  | monostate => exact ⟨0, rfl, rfl⟩
  | int64 v => exact ⟨v, rfl, rfl⟩
  | double v => cases h

theorem feedColumn_ok (h : ∀ row ∈ rows, c < row.length) :
    ∃ t, feedColumn rows c = .ok t ∧ t.size = rows.length ∧
      toCells t = .ok (rows.map fun row =>
        (row.getD c .monostate).normalised (hasDouble rows c)) := by
  unfold feedColumn
  rw [anyDouble_ok h, except_ok_bind]
  cases hd : hasDouble rows c with
  | true =>
    refine ⟨_, rfl, by simp [Tensor.size], ?_⟩
    simp only [toCells, List.map_map]
    refine congrArg Except.ok (List.map_congr_left fun row _ => ?_)
    rw [Function.comp_apply, Function.comp_apply]
    cases row.getD c .monostate <;> rfl
  | false =>
    have hcell : ∀ row ∈ rows, (row.getD c .monostate).isDouble = false := by
      simpa [hasDouble] using hd
    choose! v hv hnorm using fun row hr => toInt64_of_not_double (hcell row hr)
    have hmap : (rows.map fun row => row.getD c .monostate).mapM Cell.toInt64 =
        .ok (rows.map v) := by
      rw [List.mapM_map]
      exact mapM_ok hv
    refine ⟨.scalar .int64 (rows.map v), ?_, by simp [Tensor.size], ?_⟩
    · simp only [hmap]
      rfl
    · simp only [toCells, List.map_map]
      exact congrArg Except.ok (List.map_congr_left hnorm)

theorem feedColumn_short (h : ∃ row ∈ rows, row.length ≤ c) :
    feedColumn rows c = .error tooFewCells := by
  rw [feedColumn, anyDouble_short h]
  rfl

theorem feedColumn_cases (rows : List Row) (c : Nat) :
    ((∃ row ∈ rows, row.length ≤ c) ∧ feedColumn rows c = .error tooFewCells) ∨
      ∃ t, feedColumn rows c = .ok t ∧ t.size = rows.length := by
  by_cases h : ∃ row ∈ rows, row.length ≤ c
  · exact .inl ⟨h, feedColumn_short h⟩
  · push Not at h
    obtain ⟨t, ht, hsize, -⟩ := feedColumn_ok h
    exact .inr ⟨t, ht, hsize⟩

theorem feedTable_cases {names : List String} (hnodup : names.Nodup) (rows : List Row) :
    (feedTable names rows = .error tooFewCells ∧ ∃ row ∈ rows, row.length < names.length) ∨
      ∃ table, feedTable names rows = .ok table ∧ List.Forall₂
        (fun p out => out.1 = p.1 ∧ feedColumn rows p.2 = .ok out.2) names.zipIdx
          table.entries := by
  have hsize : ∀ p ∈ names.zipIdx, ∀ t, feedColumn rows p.2 = .ok t → t.size = rows.length := by
    intro p _ t ht
    rcases feedColumn_cases rows p.2 with ⟨-, he⟩ | ⟨u, hu, hlen⟩
    · rw [he] at ht
      cases ht
    · rw [Except.ok.inj (ht.symm.trans hu), hlen]
  have hkeys : (names.zipIdx.map Prod.fst).Nodup := by rwa [List.zipIdx_map_fst]
  rcases TensorTable.addColumns .empty hsize (fun hne => absurd rfl hne) (fun _ _ => rfl) hkeys with
    ⟨p, hp, e, he, hrun⟩ | ⟨table, outs, hrun, heq, hall⟩
  · rcases feedColumn_cases rows p.2 with ⟨⟨row, hrow, hshort⟩, hfew⟩ | ⟨u, hu, -⟩
    · obtain rfl : e = tooFewCells := Except.error.inj (he.symm.trans hfew)
      exact .inl ⟨hrun, row, hrow, hshort.trans_lt (List.snd_lt_of_mem_zipIdx hp)⟩
    · rw [he] at hu
      cases hu
  · exact .inr ⟨table, hrun, by rwa [heq]⟩

end Feeding

section Storing

variable {names : List String}

theorem find_addTable_of_notMem {entries : List (String × Tensor)} {name : String}
    (h : name ∉ entries.map Prod.fst) (s : TensorStore) :
    (entries.foldl (fun store e => store.set e.1 e.2) s).find name = s.find name := by
  induction entries generalizing s with
  | nil => rfl
  | cons e entries ih =>
    rw [List.map_cons, List.mem_cons, not_or] at h
    rw [List.foldl_cons, ih h.2, TensorStore.set_find_of_ne _ _ _ h.1]

theorem find_addTable {entries : List (String × Tensor)} (hnodup : (entries.map Prod.fst).Nodup)
    {e : String × Tensor} (he : e ∈ entries) (s : TensorStore) :
    (entries.foldl (fun store e => store.set e.1 e.2) s).find e.1 = some e.2 := by
  induction entries generalizing s with
  | nil => cases he
  | cons d entries ih =>
    obtain ⟨hd, hrest⟩ := List.nodup_cons.mp hnodup
    rw [List.foldl_cons]
    rcases List.mem_cons.mp he with rfl | he
    · rw [find_addTable_of_notMem hd, TensorStore.set_find_self]
    · exact ih hrest he _

theorem map_idxOf (hnodup : names.Nodup) {α : Type} (f : Nat → α) :
    (names.map fun name => f (names.idxOf name)) = (List.range names.length).map f := by
  apply List.ext_getElem
  · simp
  · intro i hi _
    have hi' : i < names.length := by simpa using hi
    simp [hnodup.idxOf_getElem i hi']

theorem rowsOf_columns (rows : List Row) (width : Nat) (f : Nat → Row → Cell) :
    rowsOf rows.length ((List.range width).map fun c => rows.map (f c)) =
      rows.map fun row => (List.range width).map fun c => f c row := by
  apply List.ext_getElem
  · simp [rowsOf]
  · intro r hr _
    have hr' : r < rows.length := by simpa [rowsOf] using hr
    simp [rowsOf, hr']

end Storing

namespace Biz

section RoundTrip

theorem feed_stores (s : Session) {names : List String} {rows : List Row} (hnodup : names.Nodup)
    (hwide : ∀ row ∈ rows, names.length ≤ row.length) :
    ∃ col : Nat → Tensor, (s.feed names rows).2 = .ok () ∧
      (∀ c < names.length, (col c).size = rows.length ∧ toCells (col c) = .ok (rows.map fun row =>
        (row.getD c .monostate).normalised (hasDouble rows c))) ∧
      ∀ name ∈ names, (s.feed names rows).1.pipeline.store.find name =
        some (col (names.idxOf name)) := by
  have hcell {c : Nat} (hc : c < names.length) : ∀ row ∈ rows, c < row.length :=
    fun row hr => hc.trans_le (hwide row hr)
  have hne : Nonempty Tensor := ⟨.empty⟩
  choose! col hcol hsize hcells using fun c (hc : c < names.length) => feedColumn_ok (hcell hc)
  rcases feedTable_cases hnodup rows with ⟨-, row, hrow, hlt⟩ | ⟨table, hrun, hall⟩
  · exact absurd (hwide row hrow) (not_le.mpr hlt)
  have hentries : names.zipIdx.map (fun p => (p.1, col p.2)) = table.entries := by
    have hmem : ∀ p ∈ names.zipIdx, p.2 < names.length := fun p hp => List.snd_lt_of_mem_zipIdx hp
    rw [← List.forall₂_eq_eq_eq, List.forall₂_map_left_iff]
    refine ((List.forall₂_and_left _ _).mpr ⟨hmem, hall⟩).imp fun p out hboth => ?_
    obtain ⟨hp, hname, hout⟩ := hboth
    exact Prod.ext hname.symm (Except.ok.inj ((hcol p.2 hp).symm.trans hout))
  have hfeed : s.feed names rows =
      ({ s with pipeline := s.pipeline.feed table.entries, feedTable := table }, .ok ()) := by
    rw [Session.feed, hrun]
  refine ⟨col, by rw [hfeed], fun c hc => ⟨hsize c hc, hcells c hc⟩, fun name hname => ?_⟩
  have hmem : (name, col (names.idxOf name)) ∈ table.entries := by
    rw [← hentries]
    refine List.mem_map.mpr ⟨(name, names.idxOf name), ?_, rfl⟩
    rw [List.mem_zipIdx_iff_getElem?]
    exact List.getElem?_idxOf hname
  have hkeys : (table.entries.map Prod.fst).Nodup := by
    rw [← hentries, List.map_map]
    have hfst : names.zipIdx.map (Prod.fst ∘ fun p => (p.1, col p.2)) = names :=
      List.zipIdx_map_fst 0 names
    rwa [hfst]
  rw [hfeed]
  exact find_addTable hkeys hmem TensorStore.empty

theorem fetch_undoes_feed (s : Session) (names : List String) (rows : List Row) (hne : names ≠ [])
    (hnodup : names.Nodup) :
    ((∀ row ∈ rows, names.length ≤ row.length) →
      (s.feed names rows).2 = .ok () ∧
        ((s.feed names rows).1.fetch names).2 = .ok (rows.map (normalisedRow rows names.length))) ∧
      ((∃ row ∈ rows, row.length < names.length) →
        s.feed names rows = (s, .error tooFewCells)) := by
  constructor
  · intro hwide
    obtain ⟨col, hfeed, hcol, hfind⟩ := feed_stores s hnodup hwide
    refine ⟨hfeed, ?_⟩
    have hidx {name : String} (hname : name ∈ names) : names.idxOf name < names.length :=
      List.idxOf_lt_length_iff.mpr hname
    obtain ⟨table, htable, hget⟩ := TensorStore.toTable_columns rows.length
      fun name hname => ⟨_, hfind name hname, (hcol _ (hidx hname)).1⟩
    rw [Session.fetch, htable]
    have hrows := fetchRows_columns (fun name => col (names.idxOf name)) hne
      (fun name hname => (hget name hname).trans (hfind name hname))
      fun name hname => (hcol _ (hidx hname)).1
    have hcells := mapM_ok fun name (hname : name ∈ names) => (hcol _ (hidx hname)).2
    refine hrows.trans ?_
    rw [hcells, except_ok_bind, map_idxOf hnodup fun c => rows.map fun row =>
      (row.getD c .monostate).normalised (hasDouble rows c), rowsOf_columns]
    rfl
  · rintro ⟨row, hrow, hlt⟩
    rcases feedTable_cases hnodup rows with ⟨hfew, -⟩ | ⟨table, -, hall⟩
    · rw [Session.feed, hfew]
    · have hok : ∀ p ∈ names.zipIdx, ∃ t, feedColumn rows p.2 = .ok t :=
        ((List.forall₂_and_left _ _).mp (hall.imp fun p out h => ⟨⟨out.2, h.2⟩, h.1⟩)).1
      obtain ⟨t, ht⟩ := hok (names[row.length], row.length)
        (List.mem_zipIdx_iff_getElem?.mpr (List.getElem?_eq_getElem hlt))
      rw [feedColumn_short ⟨row, hrow, le_rfl⟩] at ht
      cases ht

theorem fetch_undoes_feed_mixed :
    let rows : List Row := [[.int64 1, .monostate, .int64 7], [.double (5 / 2), .int64 4]]
    (((Session.register []).feed ["x", "y"] rows).1.fetch ["x", "y"]).2 =
        .ok [[.double 1, .int64 0], [.double (5 / 2), .int64 4]] ∧
      (Session.register []).feed ["x", "y", "z"] rows =
        (Session.register [], .error tooFewCells) := by
  intro rows
  have hwide := (fetch_undoes_feed (Session.register []) ["x", "y"] rows (by simp) (by decide)).1
    (by decide)
  have hshort := (fetch_undoes_feed (Session.register []) ["x", "y", "z"] rows (by simp)
    (by decide)).2 (by decide)
  exact ⟨hwide.2.trans (by decide +kernel), hshort⟩

end RoundTrip

-- What a table holds once it has been moved out of.
def movedFrom (table : TensorTable) : TensorTable := ⟨[], table.numRows⟩

-- The local table is moved into the context and then returned.
def Pipeline.fetchTable (names : List String) (s : Session) : Session × Except Exn TensorTable :=
  match s.pipeline.store.toTable names with
  | .error e => (s, .error e)
  | .ok table => ({ s with fetchTable := table }, .ok (movedFrom table))

def Pipeline.fetchScalar (name : String) (s : Session) : Session × Except Exn Double :=
  match s.pipeline.store.find name with
  | none => (s, .error (.outOfRange ("TensorStore::get: unknown tensor '" ++ name ++ "'")))
  | some t => (s, Column.fetchScalar t)

def firstCell (rows : List Row) : Option Cell := rows[0]?.bind fun row => row[0]?

structure FetchesAgree (s : Session) (names : List String) : Prop where
  table : ∃ table, (Pipeline.fetchTable names s).2 = .ok table ∧
    (∀ name ∈ names, table.get? name = s.pipeline.store.find name) ∧
    fetchRows table names = (s.fetch names).2
  scalar : ∀ name rows cell, (s.fetch [name]).2 = .ok rows → firstCell rows = some cell →
    (Pipeline.fetchScalar name s).2 = .ok cell.toDouble
  store : (s.fetch names).1.pipeline.store = s.pipeline.store ∧
    (Pipeline.fetchTable names s).1.pipeline.store = s.pipeline.store ∧
    ∀ name, (Pipeline.fetchScalar name s).1.pipeline.store = s.pipeline.store

section Agreement

variable {s : Session} {names : List String} {rows : List Row}

theorem toTable_of_fetch (h : (s.fetch names).2 = .ok rows) :
    ∃ table, s.pipeline.store.toTable names = .ok table ∧ fetchRows table names = .ok rows := by
  rw [Session.fetch] at h
  cases htable : s.pipeline.store.toTable names with
  | error e =>
    rw [htable] at h
    cases h
  | ok table =>
    rw [htable] at h
    exact ⟨table, rfl, h⟩

theorem fetches_keep_store (s : Session) (names : List String) :
    (s.fetch names).1.pipeline.store = s.pipeline.store ∧
      (Pipeline.fetchTable names s).1.pipeline.store = s.pipeline.store ∧
      ∀ name, (Pipeline.fetchScalar name s).1.pipeline.store = s.pipeline.store := by
  refine ⟨?_, ?_, fun name => ?_⟩
  · rw [Session.fetch]
    split <;> rfl
  · rw [Pipeline.fetchTable]
    split <;> rfl
  · rw [Pipeline.fetchScalar]
    split <;> rfl

theorem fetchRows_movedFrom (table : TensorTable) (hne : names ≠ []) :
    ∃ e, fetchRows (movedFrom table) names = .error e := by
  cases names with
  | nil => exact absurd rfl hne
  | cons first rest => exact ⟨_, rfl⟩

theorem fetches_disagree (hne : names ≠ []) (h : (s.fetch names).2 = .ok rows) :
    ¬ FetchesAgree s names := by
  intro hagree
  obtain ⟨table, htable, -⟩ := toTable_of_fetch h
  obtain ⟨out, hout, -, hrows⟩ := hagree.table
  rw [Pipeline.fetchTable, htable] at hout
  obtain rfl : movedFrom table = out := Except.ok.inj hout
  obtain ⟨e, he⟩ := fetchRows_movedFrom table hne
  rw [he, h] at hrows
  cases hrows

def fedSession : Session := ((Session.register []).feed ["x"] [[.int64 7]]).1

theorem fetches_disagree_fed :
    (fedSession.fetch ["x"]).2 = .ok [[.int64 7]] ∧ ¬ FetchesAgree fedSession ["x"] :=
  ⟨rfl, fetches_disagree (by simp) rfl⟩

theorem fetch_table_returns_empty :
    (fedSession.fetch ["x"]).2 = .ok [[.int64 7]] ∧
      (Pipeline.fetchTable ["x"] fedSession).2 = .ok ⟨[], 1⟩ ∧
      fetchRows ⟨[], 1⟩ ["x"] = .error (.runtimeError "Tensor not found: x") ∧
      ¬ FetchesAgree fedSession ["x"] := by
  refine ⟨rfl, rfl, rfl, fun h => ?_⟩
  obtain ⟨table, hout, -, hrows⟩ := h.table
  obtain rfl : TensorTable.mk [] 1 = table := Except.ok.inj hout
  cases hrows

end Agreement

end Biz

end Lark.Column
