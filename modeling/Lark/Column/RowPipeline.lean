import Lark.Column.Compute.Kernels
import Lark.Column.Graph

namespace Lark.Column

open Lark.Base

def Cell.value : Cell → Option Value
  | .monostate => none
  | .int64 v => some ⟨.int64, v⟩
  | .double d => some ⟨.float64, d⟩

def Value.toCell (v : Value) : Cell := Num.toCell (Elem.toNum v.2)

def cellOf (v : Option Value) : Cell := (v.map Value.toCell).getD .monostate

def fedType (rows : List Row) (c : Nat) : ScalarType :=
  if hasDouble rows c then .float64 else .int64

def fedSchema (names : List String) (rows : List Row) : Schema :=
  names.zipIdx.map fun p => (p.1, .scalar (fedType rows p.2))

def fedRecord (names : List String) (rows : List Row) (row : Row) : Record := fun name =>
  if name ∈ names then
    ((row.getD (names.idxOf name) .monostate).normalised
      (hasDouble rows (names.idxOf name))).value
  else none

def fedRecords (names : List String) (rows : List Row) : List Record :=
  rows.map (fedRecord names rows)

section Feeding

variable {names : List String} {rows : List Row} {table : TensorTable}

theorem lookup_zipIdx (names : List String) (name : String) (k : Nat) :
    (names.zipIdx k).lookup name =
      if name ∈ names then some (k + names.idxOf name) else none := by
  induction names generalizing k with
  | nil => rfl
  | cons n names ih =>
    rw [List.zipIdx_cons, lookup_cons_ite, ih, List.idxOf_cons]
    by_cases hn : name = n
    · simp [hn]
    · have hne : (n == name) = false := beq_eq_false_iff_ne.2 fun h => hn h.symm
      by_cases hmem : name ∈ names
      · simp [hn, hne, hmem]
        omega
      · simp [hn, hmem]

theorem dtype_feedColumn {c : Nat} {t : Tensor} (h : ∀ row ∈ rows, c < row.length)
    (ht : feedColumn rows c = .ok t) : t.dtype = .scalar (fedType rows c) := by
  unfold feedColumn at ht
  rw [anyDouble_ok h, except_ok_bind] at ht
  rw [fedType]
  cases hd : hasDouble rows c with
  | true =>
    rw [hd] at ht
    rw [← Except.ok.inj ht]
    rfl
  | false =>
    rw [hd] at ht
    obtain ⟨data, -, hdata⟩ := except_bind_eq_ok.1 ht
    rw [← Except.ok.inj hdata]
    rfl

theorem valueAt_toCells {t : Tensor} {cells : List Cell} (h : toCells t = .ok cells)
    (hd : t.dtype = .int64 ∨ t.dtype = .float64) (i : Nat) :
    t.valueAt i = cells[i]?.bind Cell.value := by
  cases t with
  | scalar u data =>
    cases u with
    | int64 =>
      rw [← Except.ok.inj h, List.getElem?_map, Tensor.valueAt]
      cases data[i]? <;> rfl
    | float64 =>
      rw [← Except.ok.inj h, List.getElem?_map, Tensor.valueAt]
      cases data[i]? <;> rfl
    | _ => simp [Tensor.dtype, DType.int64, DType.float64] at hd
  | q8_0 n blocks => simp [Tensor.dtype, DType.int64, DType.float64] at hd

theorem fed_table (hne : names ≠ []) (hnodup : names.Nodup)
    (hwide : ∀ row ∈ rows, names.length ≤ row.length) :
    ∃ table, feedTable names rows = .ok table ∧ table.Rect ∧
      table.schema = fedSchema names rows ∧ table.records = fedRecords names rows := by
  have hcell : ∀ p ∈ names.zipIdx, ∀ row ∈ rows, p.2 < row.length := fun p hp row hrow =>
    (List.snd_lt_of_mem_zipIdx hp).trans_le (by simpa using hwide row hrow)
  have hcolumn : ∀ p ∈ names.zipIdx, ∀ t, feedColumn rows p.2 = .ok t →
      t.size = rows.length ∧ toCells t = .ok (rows.map fun row =>
        (row.getD p.2 .monostate).normalised (hasDouble rows p.2)) := by
    intro p hp t ht
    obtain ⟨u, hu, hsize, hcells⟩ := feedColumn_ok (hcell p hp)
    obtain rfl : t = u := Except.ok.inj (ht.symm.trans hu)
    exact ⟨hsize, hcells⟩
  rcases feedTable_cases hnodup rows with ⟨-, row, hrow, hlt⟩ | ⟨table, hrun, hall⟩
  · exact absurd (hwide row hrow) (not_le.2 hlt)
  · have hall' : List.Forall₂ (fun p out => p ∈ names.zipIdx ∧ out.1 = p.1 ∧
        feedColumn rows p.2 = .ok out.2) names.zipIdx table.entries :=
      (List.forall₂_and_left _ _).2 ⟨fun p hp => hp, hall⟩
    have hrows : table.numRows = rows.length := by
      rcases numRows_added (fun p hp t ht => (hcolumn p hp t ht).1) hrun with ⟨-, hnil⟩ | hrows
      · exact absurd (by simpa using hnil) hne
      · exact hrows
    have hschema : table.schema = fedSchema names rows := by
      have hsame : List.Forall₂ (· = ·) table.schema (fedSchema names rows) := by
        rw [TensorTable.schema, fedSchema, List.forall₂_map_left_iff, List.forall₂_map_right_iff]
        refine hall'.flip.imp fun out p hout => ?_
        rw [hout.2.1, dtype_feedColumn (hcell p hout.1) hout.2.2]
      rwa [List.forall₂_eq_eq_eq] at hsame
    refine ⟨table, hrun, ⟨?_, ?_, ?_, ?_⟩, hschema, ?_⟩
    · rw [← TensorTable.map_schema, hschema]
      simpa [fedSchema, Function.comp_def] using hnodup
    · intro out hout
      obtain ⟨p, hp, -, -, ht⟩ := exists_of_forall₂ hall' hout
      rw [hrows, (hcolumn p hp _ ht).1]
    · intro out hout
      obtain ⟨p, hp, -, -, ht⟩ := exists_of_forall₂ hall' hout
      rw [dtype_feedColumn (hcell p hp) ht]
      simp [DType.isQuantized]
    · intro hnil
      rw [hnil, List.forall₂_nil_right_iff] at hall
      exact absurd (by simpa using hall) hne
    · rw [TensorTable.records, fedRecords, hrows]
      apply List.ext_getElem
      · simp
      · intro r hr _
        have hr' : r < rows.length := by simpa using hr
        simp only [List.getElem_map, List.getElem_range]
        funext name
        have hidx := lookup_zipIdx names name 0
        rw [Nat.zero_add] at hidx
        rw [TensorTable.record, TensorTable.get?, fedRecord]
        rcases lookup_forall₂ (R := fun c t => feedColumn rows c = .ok t) hall name with
          ⟨hnone, hnone'⟩ | ⟨c, t, hmem, hc, ht, hfed⟩
        · rw [hnone] at hidx
          rw [hnone']
          split_ifs at hidx ⊢ with hname
          rfl
        · rw [hc] at hidx
          rw [ht]
          split_ifs at hidx ⊢ with hname
          obtain rfl := Option.some.inj hidx
          obtain ⟨-, hcells⟩ := hcolumn _ hmem t hfed
          have hdtype := dtype_feedColumn (hcell _ hmem) hfed
          have htype : t.dtype = .int64 ∨ t.dtype = .float64 := by
            rw [hdtype, fedType]
            split_ifs
            · exact .inr rfl
            · exact .inl rfl
          rw [Option.bind_some, valueAt_toCells hcells htype, List.getElem?_map,
            List.getElem?_eq_getElem hr']
          rfl

end Feeding

section Fetching

variable {table : TensorTable} {outs : List String}

theorem toCells_values {t : Tensor} {n : Nat} (hsize : t.size = n)
    (hplain : ¬ t.dtype.isQuantized) :
    toCells t = .ok ((List.range n).map fun i => cellOf (t.valueAt i)) := by
  cases t with
  | scalar u data =>
    rw [toCells_scalar, ← hsize]
    refine congrArg Except.ok (List.ext_getElem? fun i => ?_)
    rcases Nat.lt_or_ge i data.length with hi | hi
    · simp [Tensor.elems, Tensor.size, Tensor.valueAt, hi, cellOf, Value.toCell]
    · simp [Tensor.elems, Tensor.size, hi]
  | q8_0 n blocks => exact absurd rfl hplain

theorem fetch_records (h : table.Rect) (hne : outs ≠ [])
    (hknown : ∀ name ∈ outs, name ∈ table.schema.map Prod.fst) :
    fetchRows table outs =
      .ok (table.records.map fun r => outs.map fun name => cellOf (r name)) := by
  have hsome : ∀ name ∈ outs, ∃ t, table.get? name = some t ∧ (name, t) ∈ table.entries := by
    intro name hname
    obtain ⟨t, ht⟩ := Option.isSome_iff_exists.1
      (get?_isSome_iff.2 (table.map_schema ▸ hknown name hname))
    exact ⟨t, ht, TensorTable.mem_of_get? ht⟩
  have hinhabited : Nonempty Tensor := ⟨.empty⟩
  choose! col hget hmem using hsome
  have hsize : ∀ name ∈ outs, (col name).size = table.numRows := fun name hname =>
    h.sizes _ (hmem name hname)
  rw [fetchRows_columns col hne hget hsize,
    mapM_ok fun name hname => toCells_values (hsize name hname) (h.plain _ (hmem name hname)),
    except_ok_bind]
  refine congrArg Except.ok (List.ext_getElem ?_ fun r hr _ => ?_)
  · simp [rowsOf, TensorTable.records]
  · have hr' : r < table.numRows := by simpa [rowsOf] using hr
    simp only [rowsOf, TensorTable.records, List.getElem_map, List.getElem_range, List.map_map]
    refine List.map_congr_left fun name hname => ?_
    simp [TensorTable.record, hget name hname, hr', List.getD_eq_getElem?_getD]

end Fetching

section Kernels

open Compute Exec

variable {sig : Schema} {table : TensorTable} {t : ScalarType} {name a b : String}

def Record.read (t : ScalarType) (name : String) (r : Record) : Except Exn t.Carrier :=
  match r name with
  | some ⟨u, x⟩ =>
    if h : u = t then .ok (h ▸ x) else .error (.undefined "element read at another type")
  | none => .error (.runtimeError ("Tensor not found: " ++ name))

theorem get?_of_mem (h : (table.entries.map Prod.fst).Nodup) {e : String × Tensor}
    (he : e ∈ table.entries) : table.get? e.1 = some e.2 := by
  rw [TensorTable.get?]
  generalize table.entries = es at h he
  induction es with
  | nil => cases he
  | cons d es ih =>
    obtain ⟨hd, hes⟩ := List.nodup_cons.1 h
    rw [lookup_cons_ite]
    rcases List.mem_cons.1 he with rfl | he
    · rw [if_pos rfl]
    · have hne : ¬ e.1 = d.1 := fun heq => hd (heq ▸ List.mem_map_of_mem he)
      rw [if_neg hne, ih hes he]

theorem read_column (h : table.Rect) (hmem : (name, DType.scalar t) ∈ table.schema) :
    ∃ data, table.get name = .ok (.scalar t data) ∧ data.length = table.numRows ∧
      table.records.mapM (Record.read t name) = .ok data := by
  obtain ⟨⟨column, x⟩, he, heq⟩ := List.mem_map.1 hmem
  obtain ⟨hname, hdtype⟩ := Prod.mk.inj heq
  obtain rfl : column = name := hname
  cases x with
  | scalar u data =>
    obtain rfl : u = t := DType.scalar.inj hdtype
    have hlen : data.length = table.numRows := h.sizes _ he
    have hget : table.get? column = some (.scalar u data) := get?_of_mem h.nodup he
    refine ⟨data, by rw [TensorTable.get, hget], hlen, ?_⟩
    rw [mapM_eq_ok_iff, List.forall₂_iff_get]
    refine ⟨table.length_records.trans hlen.symm, fun i _ hi => ?_⟩
    simp [TensorTable.records, TensorTable.record, Record.read, hget, Tensor.valueAt, hi]
  | q8_0 n blocks => cases hdtype

theorem mapM_zipWith {ε α β γ δ : Type} {f : α → Except ε β} {g : α → Except ε γ}
    (op : β → γ → δ) {xs : List α} {ys : List β} {zs : List γ} (hf : xs.mapM f = .ok ys)
    (hg : xs.mapM g = .ok zs) :
    (xs.mapM fun x => f x >>= fun y => g x >>= fun z => .ok (op y z)) =
      .ok (List.zipWith op ys zs) := by
  rw [mapM_eq_ok_iff] at hf hg ⊢
  induction hf generalizing zs with
  | nil => exact .nil
  | cons hy _ ih =>
    cases hg with
    | cons hz hg =>
      refine .cons ?_ (ih hg)
      rw [hy, except_ok_bind, hz, except_ok_bind]

-- The lambda around a kernel of the compute layer, which reads two columns of the table.
def onColumns (kernel : Tensor → Tensor → Except Exn Tensor) (a b : String) (table : TensorTable) :
    Except Exn Tensor := do
  let x ← table.get a
  let y ← table.get b
  kernel x y

def onRecord {u : ScalarType} (op : Int64 → Int64 → u.Carrier) (a b : String) (r : Record) :
    Except Exn u.Carrier := do
  let x ← r.read .int64 a
  let y ← r.read .int64 b
  .ok (op x y)

theorem onColumns_eq {kernel : Tensor → Tensor → Except Exn Tensor} {u : ScalarType}
    {op : Int64 → Int64 → u.Carrier}
    (hkernel : ∀ xs ys : List Int64, xs.length = ys.length →
      kernel (.scalar .int64 xs) (.scalar .int64 ys) = .ok (.scalar u (List.zipWith op xs ys)))
    (ha : (a, DType.int64) ∈ sig) (hb : (b, DType.int64) ∈ sig) (h : table.Rect)
    (hsig : table.schema = sig) : onColumns kernel a b table =
      table.records.mapM (onRecord op a b) >>= fun xs => .ok (.scalar u xs) := by
  obtain ⟨xs, hx, hxlen, hxs⟩ := read_column h (hsig ▸ ha)
  obtain ⟨ys, hy, hylen, hys⟩ := read_column h (hsig ▸ hb)
  have hrows : table.records.mapM (onRecord op a b) = .ok (List.zipWith op xs ys) :=
    mapM_zipWith op hxs hys
  rw [onColumns, hx, except_ok_bind, hy, except_ok_bind, hrows, except_ok_bind]
  exact hkernel xs ys (hxlen.trans hylen.symm)

theorem realises_arith (k : ArithKernel) (simd : Simd) (name : String)
    (ha : (a, DType.int64) ∈ sig) (hb : (b, DType.int64) ∈ sig) :
    Realises sig (.transform name (onColumns (arith k simd) a b))
      (.extend name .int64 (onRecord k.onInt64 a b)) :=
  .transform fun _ hrect hsig =>
    onColumns_eq (fun _ _ hlen => arith_int64 k simd hlen) ha hb hrect hsig

theorem realises_compare (op : CmpOp) (simd : Simd) (ha : (a, DType.int64) ∈ sig)
    (hb : (b, DType.int64) ∈ sig) :
    Realises sig (.filter (onColumns (compareTT op simd) a b))
      (.keep (onRecord (u := .int64) (fun x y => maskOf (op.apply x y)) a b)) :=
  .filter fun _ hrect hsig =>
    onColumns_eq (fun _ _ hlen => compareTT_int64 op simd hlen) ha hb hrect hsig

end Kernels

section Pipeline

variable {names outs : List String} {rows : List Row} {g : Graph} {steps : List RowStep}
  {out : Schema}

theorem graph_runs_rows (hne : names ≠ []) (hnodup : names.Nodup)
    (hwide : ∀ row ∈ rows, names.length ≤ row.length)
    (hlowers : Lowers (fedSchema names rows) g.nodes steps out) (houts : outs ≠ [])
    (hknown : ∀ name ∈ outs, name ∈ out.map Prod.fst) :
    (feedTable names rows >>= fun table => g.execute table >>= fun table => fetchRows table outs) =
      steps.foldlM RowStep.apply (fedRecords names rows) >>= fun records =>
        .ok (records.map fun r => outs.map fun name => cellOf (r name)) := by
  obtain ⟨table, hfed, hrect, hschema, hrecords⟩ := fed_table hne hnodup hwide
  obtain ⟨hrun, hresult⟩ := nodes_refine hlowers hrect hschema
  rw [hfed, except_ok_bind, ← hrecords, ← hrun, Graph.execute]
  cases hexec : g.nodes.foldlM (fun table (n : Node) => n.execute table) table with
  | error e => rfl
  | ok table' =>
    obtain ⟨hrect', hschema'⟩ := hresult table' hexec
    exact fetch_records hrect' houts (hschema' ▸ hknown)

def productGraph : Graph :=
  (Graph.empty.addNode (.filter (onColumns (Compute.gt .avx2) "x" "y"))).addNode
    (.transform "z" (onColumns (Compute.mul .avx2) "x" "y"))

def productRows : List Row :=
  [[.int64 3, .int64 2], [.int64 1, .monostate, .int64 9], [.int64 4, .int64 7]]

theorem graph_runs_rows_products :
    (feedTable ["x", "y"] productRows >>= fun table => productGraph.execute table >>= fun table =>
      fetchRows table ["z", "x"]) = .ok [[.int64 6, .int64 3], [.int64 0, .int64 1]] := by
  refine (graph_runs_rows (by decide) (by decide) (by decide)
    (.cons (realises_compare .gt .avx2 (by decide) (by decide))
      (.cons (realises_arith _ .avx2 "z" (by decide) (by decide)) .nil)) (by decide)
    (by decide)).trans ?_
  rfl

end Pipeline

end Lark.Column
