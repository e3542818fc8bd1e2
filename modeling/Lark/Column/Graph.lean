import Lark.Column.FilterNode
import Lark.Column.Biz.Fetching

namespace Lark.Column

open Lark.Base

-- A business node; the user functions are those of the lambdas it was made with.
inductive Node where
  | transform (outputName : String) (fn : TensorTable → Except Exn Tensor)
  | filter (maskFn : TensorTable → Except Exn Tensor)
  | aggregate (fn : TensorTable → Except Exn TensorTable)

namespace Node

def execute : Node → TensorTable → Except Exn TensorTable
  | transform outputName fn, input => do
    let result ← fn input
    input.add outputName result
  | filter maskFn, input => FilterNode.execute maskFn input
  | aggregate fn, input => fn input

end Node

structure Graph where
  nodes : List Node

namespace Graph

def empty : Graph := ⟨[]⟩

def addNode (g : Graph) (node : Node) : Graph := ⟨g.nodes ++ [node]⟩

def execute (g : Graph) (input : TensorTable) : Except Exn TensorTable :=
  g.nodes.foldlM (fun table node => node.execute table) input

end Graph

abbrev Value : Type := (t : ScalarType) × t.Carrier

abbrev Record : Type := String → Option Value

abbrev Schema : Type := List (String × DType)

def Tensor.valueAt : Tensor → Nat → Option Value
  | .scalar t data, i => data[i]?.map (⟨t, ·⟩)
  | .q8_0 _ _, _ => none

namespace TensorTable

def record (table : TensorTable) (i : Nat) : Record :=
  fun name => (table.get? name).bind (·.valueAt i)

def records (table : TensorTable) : List Record := (List.range table.numRows).map table.record

def schema (table : TensorTable) : Schema := table.entries.map fun e => (e.1, e.2.dtype)

structure Rect (table : TensorTable) : Prop where
  nodup : (table.entries.map Prod.fst).Nodup
  sizes : ∀ e ∈ table.entries, e.2.size = table.numRows
  plain : ∀ e ∈ table.entries, ¬ e.2.dtype.isQuantized
  noRows : table.entries = [] → table.numRows = 0

end TensorTable

def setColumn (sig : Schema) (name : String) (dtype : DType) : Schema :=
  if name ∈ sig.map Prod.fst then sig.map fun e => if e.1 = name then (name, dtype) else e
  else sig ++ [(name, dtype)]

-- What a node is for, row by row; a row function may throw.
inductive RowStep where
  | extend (name : String) (t : ScalarType) (f : Record → Except Exn t.Carrier)
  | keep (p : Record → Except Exn Int64)
  | fold (out : Schema) (g : List Record → Except Exn (List Record))

namespace RowStep

def apply (rows : List Record) : RowStep → Except Exn (List Record)
  | extend name t f => rows.mapM fun r => do
    let x ← f r
    .ok (Function.update r name (some ⟨t, x⟩))
  | keep p => do
    let mask ← rows.mapM p
    .ok (((rows.zip mask).filter fun q => q.2 ≠ 0).map Prod.fst)
  | fold _ g => g rows

def schema (sig : Schema) : RowStep → Schema
  | extend name t _ => setColumn sig name (.scalar t)
  | keep _ => sig
  | fold out _ => out

end RowStep

-- On tables of the schema the node's function computes what the step says of the rows.
inductive Realises (sig : Schema) : Node → RowStep → Prop
  | transform {name : String} {t : ScalarType} {fn : TensorTable → Except Exn Tensor}
      {f : Record → Except Exn t.Carrier}
      (h : ∀ table : TensorTable, table.Rect → table.schema = sig →
        fn table = table.records.mapM f >>= fun xs => .ok (.scalar t xs)) :
      Realises sig (.transform name fn) (.extend name t f)
  | filter {maskFn : TensorTable → Except Exn Tensor} {p : Record → Except Exn Int64}
      (h : ∀ table : TensorTable, table.Rect → table.schema = sig →
        maskFn table = table.records.mapM p >>= fun xs => .ok (.scalar .int64 xs)) :
      Realises sig (.filter maskFn) (.keep p)
  | aggregate {fn : TensorTable → Except Exn TensorTable} {out : Schema}
      {g : List Record → Except Exn (List Record)}
      (h : ∀ table : TensorTable, table.Rect → table.schema = sig →
        (fn table).map TensorTable.records = g table.records ∧
          ∀ table', fn table = .ok table' → table'.Rect ∧ table'.schema = out) :
      Realises sig (.aggregate fn) (.fold out g)

inductive Lowers : Schema → List Node → List RowStep → Schema → Prop
  | nil {sig} : Lowers sig [] [] sig
  | cons {sig out n s ns ss} (h : Realises sig n s) (hrest : Lowers (s.schema sig) ns ss out) :
      Lowers sig (n :: ns) (s :: ss) out

section Columns

variable {table table' : TensorTable} {name : String} {t : Tensor}

theorem get?_isSome_iff : (table.get? name).isSome ↔ name ∈ table.entries.map Prod.fst := by
  rw [TensorTable.get?]
  induction table.entries with
  | nil => simp
  | cons e es ih =>
    rw [lookup_cons_ite, List.map_cons, List.mem_cons]
    split_ifs with h
    · simp [h]
    · rw [ih, or_iff_right h]

namespace TensorTable

theorem length_records (table : TensorTable) : table.records.length = table.numRows := by
  simp [records]

theorem map_schema (table : TensorTable) :
    table.schema.map Prod.fst = table.entries.map Prod.fst := by
  simp [schema]

theorem numRows_of_add (h : table.add name t = .ok table') : table'.numRows = t.size := by
  unfold add at h
  split_ifs at h
  · rw [← Except.ok.inj h]
  · rw [← Except.ok.inj h]

theorem schema_of_add (h : table.add name t = .ok table') :
    table'.schema = setColumn table.schema name t.dtype := by
  have hmem : (table.get? name).isSome ↔ name ∈ table.schema.map Prod.fst := by
    rw [map_schema, get?_isSome_iff]
  unfold add at h
  split_ifs at h with _ hname
  · rw [setColumn, if_pos (hmem.1 hname), ← Except.ok.inj h]
    simp only [schema, List.map_map]
    refine List.map_congr_left fun e _ => ?_
    simp only [Function.comp_apply]
    split_ifs <;> rfl
  · rw [setColumn, if_neg (mt hmem.2 hname), ← Except.ok.inj h]
    simp [schema]

theorem Rect.add (h : table.Rect) (hsize : t.size = table.numRows)
    (hplain : ¬ t.dtype.isQuantized) (hadd : table.add name t = .ok table') : table'.Rect := by
  have hrows := numRows_of_add hadd
  unfold TensorTable.add at hadd
  split_ifs at hadd with _ hname
  · obtain rfl := Except.ok.inj hadd
    have hkeys : (table.entries.map fun e => if e.1 = name then (name, t) else e).map Prod.fst =
        table.entries.map Prod.fst := by
      rw [List.map_map]
      refine List.map_congr_left fun e _ => ?_
      simp only [Function.comp_apply]
      split_ifs with he
      · exact he.symm
      · rfl
    refine ⟨hkeys ▸ h.nodup, ?_, ?_, fun hnil => ?_⟩
    · intro e he
      obtain ⟨d, hd, rfl⟩ := List.mem_map.1 he
      split_ifs
      · rfl
      · exact (h.sizes d hd).trans hsize.symm
    · intro e he
      obtain ⟨d, hd, rfl⟩ := List.mem_map.1 he
      split_ifs
      · exact hplain
      · exact h.plain d hd
    · exact hsize.trans (h.noRows (List.map_eq_nil_iff.1 hnil))
  · obtain rfl := Except.ok.inj hadd
    have hnew : name ∉ table.entries.map Prod.fst := fun hmem => hname (get?_isSome_iff.2 hmem)
    refine ⟨?_, ?_, ?_, fun hnil => ?_⟩
    · rw [List.map_append, List.nodup_append]
      refine ⟨h.nodup, List.nodup_singleton name, fun a ha b hb heq => hnew ?_⟩
      obtain rfl : b = name := List.mem_singleton.1 hb
      rwa [← heq]
    · intro e he
      rcases List.mem_append.1 he with he | he
      · exact (h.sizes e he).trans hsize.symm
      · rw [List.mem_singleton.1 he]
    · intro e he
      rcases List.mem_append.1 he with he | he
      · exact h.plain e he
      · rwa [List.mem_singleton.1 he]
    · simp at hnil

end TensorTable

theorem records_of_add {u : ScalarType} {xs : List u.Carrier} (hlen : xs.length = table.numRows)
    (hadd : table.add name (.scalar u xs) = .ok table')
    (hget : ∀ other, table'.get? other =
      if other = name then some (.scalar u xs) else table.get? other) :
    table'.records = (table.records.zip xs).map fun p =>
      Function.update p.1 name (some (⟨u, p.2⟩ : Value)) := by
  have hrows : table'.numRows = table.numRows := (TensorTable.numRows_of_add hadd).trans hlen
  apply List.ext_getElem?
  intro i
  rcases Nat.lt_or_ge i table.numRows with hi | hi
  · have hx : i < xs.length := by omega
    have hrecord : table'.record i =
        Function.update (table.record i) name (some (⟨u, xs[i]⟩ : Value)) := by
      funext other
      rw [TensorTable.record, hget]
      rcases eq_or_ne other name with rfl | hne
      · simp [Tensor.valueAt, hx]
      · simp [hne, TensorTable.record]
    simp [TensorTable.records, hrows, hi, hx, hrecord]
  · rw [List.getElem?_eq_none (by simpa [TensorTable.length_records, hrows] using hi),
      List.getElem?_eq_none (by simp [TensorTable.length_records, hi])]

end Columns

section Filter

open FilterNode

variable {table table' : TensorTable} {m : List Int64}

theorem keptRows_eq (i : Nat) (m : List Int64) : keptRows i m =
    (((List.range' i m.length).zip m).filter fun q => q.2 ≠ 0).map Prod.fst := by
  induction m generalizing i with
  | nil => rfl
  | cons x m ih =>
    rw [keptRows, ih, List.length_cons, List.range'_succ, List.zip_cons_cons, List.filter_cons]
    by_cases hx : x = 0
    · simp [hx]
    · simp [hx]

theorem map_keptRows {α : Type} (f : Nat → α) (m : List Int64) : (keptRows 0 m).map f =
    ((((List.range m.length).map f).zip m).filter fun q => q.2 ≠ 0).map Prod.fst := by
  rw [keptRows_eq, List.zip_map_left, List.filter_map, List.map_map, List.map_map,
    List.range_eq_range']
  rfl

theorem valueAt_filterColumn {t out : Tensor} (hplain : ¬ t.dtype.isQuantized)
    (h : filterColumn m t = .ok out) {j i : Nat} (hi : (keptRows 0 m)[j]? = some i) :
    out.valueAt j = t.valueAt i := by
  cases t with
  | scalar u data =>
    obtain ⟨xs, hxs, rfl⟩ := except_map_eq_ok.1 h
    obtain ⟨x, hx, hread⟩ := getElem?_mapM hxs hi
    have hdata : data[i]? = some x := by
      unfold readElem at hread
      split at hread
      · rename_i y hy
        rwa [← Except.ok.inj hread]
      · cases hread
    simp [Tensor.valueAt, hx, hdata]
  | q8_0 n blocks => exact absurd rfl hplain

theorem dtype_filterColumn {t out : Tensor} (h : filterColumn m t = .ok out) :
    out.dtype = t.dtype := by
  cases t with
  | scalar u data =>
    obtain ⟨xs, -, rfl⟩ := except_map_eq_ok.1 h
    rfl
  | q8_0 n blocks =>
    obtain ⟨xs, -, rfl⟩ := except_map_eq_ok.1 h
    rfl

theorem filterColumn_ok {t : Tensor} (hsize : m.length = t.size)
    (hplain : ¬ t.dtype.isQuantized) : ∃ out, filterColumn m t = .ok out := by
  obtain ⟨out, hout, -⟩ := filterColumn_eq_filter hsize hplain
  exact ⟨out, hout⟩

theorem numRows_added {ι : Type} {col : ι → Except Exn Tensor} {n : Nat} {ps : List (String × ι)}
    (hsize : ∀ p ∈ ps, ∀ t, col p.2 = .ok t → t.size = n)
    (h : ps.foldlM (fun table p => col p.2 >>= table.add p.1) table = .ok table') :
    table' = table ∧ ps = [] ∨ table'.numRows = n := by
  induction ps using List.reverseRecOn with
  | nil => exact .inl ⟨(Except.ok.inj h).symm, rfl⟩
  | append_singleton ps p _ =>
    rw [List.foldlM_append] at h
    obtain ⟨acc, -, h⟩ := except_bind_eq_ok.1 h
    rw [List.foldlM_cons] at h
    obtain ⟨acc', hadd, h⟩ := except_bind_eq_ok.1 h
    obtain rfl := Except.ok.inj h
    obtain ⟨t, ht, hadd⟩ := except_bind_eq_ok.1 hadd
    exact .inr ((TensorTable.numRows_of_add hadd).trans (hsize p (by simp) t ht))

theorem lookup_forall₂ {α β : Type} {R : α → β → Prop} {es : List (String × α)}
    {outs : List (String × β)} (h : List.Forall₂ (fun e out => out.1 = e.1 ∧ R e.2 out.2) es outs)
    (name : String) : (es.lookup name = none ∧ outs.lookup name = none) ∨
      ∃ a b, (name, a) ∈ es ∧ es.lookup name = some a ∧ outs.lookup name = some b ∧ R a b := by
  induction h with
  | nil => exact .inl ⟨rfl, rfl⟩
  | @cons e out es outs hhead _ ih =>
    obtain ⟨hname, hr⟩ := hhead
    rw [lookup_cons_ite, lookup_cons_ite, hname]
    split_ifs with he
    · exact .inr ⟨e.2, out.2, by simp [he], rfl, rfl, hr⟩
    · rcases ih with hnone | ⟨a, b, hmem, hrest⟩
      · exact .inl hnone
      · exact .inr ⟨a, b, List.mem_cons_of_mem _ hmem, hrest⟩

theorem exists_of_forall₂ {α β : Type} {R : α → β → Prop} {xs : List α} {ys : List β}
    (h : List.Forall₂ R xs ys) {y : β} (hy : y ∈ ys) : ∃ x ∈ xs, R x y := by
  induction h with
  | nil => cases hy
  | cons hr _ ih =>
    rcases List.mem_cons.1 hy with rfl | hy
    · exact ⟨_, List.mem_cons_self, hr⟩
    · obtain ⟨x, hx, hxy⟩ := ih hy
      exact ⟨x, List.mem_cons_of_mem _ hx, hxy⟩

theorem filter_records (h : table.Rect) (hm : m.length = table.numRows) :
    ∃ table', table.entries.foldlM (addFiltered m) .empty = .ok table' ∧ table'.Rect ∧
      table'.schema = table.schema ∧
      table'.records = ((table.records.zip m).filter fun q => q.2 ≠ 0).map Prod.fst := by
  rcases run_cases (m := m) h.nodup with ⟨-, -, e, he, hbad⟩ | ⟨table', hrun, hall⟩
  · obtain ⟨out, hout⟩ := filterColumn_ok (m := m) (hm.trans (h.sizes e he).symm) (h.plain e he)
    exact absurd hout (hbad out)
  · have hrows : table'.numRows = (keptRows 0 m).length := by
      rcases numRows_added (fun e _ t ht => filterColumn_size (m := m) ht) hrun with
        ⟨rfl, hnil⟩ | hrows
      · have hzero : m = [] := List.length_eq_zero_iff.1 (hm.trans (h.noRows hnil))
        rw [hzero]
        rfl
      · exact hrows
    have hschema : table'.schema = table.schema := by
      have hsame : List.Forall₂ (· = ·) table'.schema table.schema := by
        rw [TensorTable.schema, TensorTable.schema, List.forall₂_map_left_iff,
          List.forall₂_map_right_iff]
        refine hall.flip.imp fun out e hout => ?_
        rw [hout.1, dtype_filterColumn hout.2]
      rwa [List.forall₂_eq_eq_eq] at hsame
    refine ⟨table', hrun, ⟨?_, ?_, ?_, ?_⟩, hschema, ?_⟩
    · rw [← TensorTable.map_schema, hschema, TensorTable.map_schema]
      exact h.nodup
    · intro out hout
      obtain ⟨e, -, -, he⟩ := exists_of_forall₂ hall hout
      rw [hrows, filterColumn_size he]
    · intro out hout
      obtain ⟨e, hmem, -, he⟩ := exists_of_forall₂ hall hout
      rw [dtype_filterColumn he]
      exact h.plain e hmem
    · intro hnil
      rw [hnil, List.forall₂_nil_right_iff] at hall
      have hzero : m = [] := List.length_eq_zero_iff.1 (hm.trans (h.noRows hall))
      rw [hrows, hzero]
      rfl
    · have hmap := map_keptRows table.record m
      rw [hm] at hmap
      rw [TensorTable.records, TensorTable.records, ← hmap, hrows]
      apply List.ext_getElem?
      intro j
      rcases Nat.lt_or_ge j (keptRows 0 m).length with hj | hj
      · have hi := List.getElem?_eq_getElem hj
        have hrecord : table'.record j = table.record (keptRows 0 m)[j] := by
          funext name
          rcases lookup_forall₂ (R := fun t out => filterColumn m t = .ok out) hall name with
            ⟨hnone, hnone'⟩ | ⟨t, out, hmem, ht, hout, hcol⟩
          · rw [TensorTable.record, TensorTable.record, TensorTable.get?, TensorTable.get?, hnone,
              hnone']
            rfl
          · rw [TensorTable.record, TensorTable.record, TensorTable.get?, TensorTable.get?, ht, hout]
            exact valueAt_filterColumn (h.plain _ hmem) hcol hi
        simp [hj, hrecord]
      · rw [List.getElem?_eq_none (by simpa using hj), List.getElem?_eq_none (by simpa using hj)]

end Filter

section Refinement

variable {sig out : Schema} {table : TensorTable}

theorem mapM_pairs {ε α β γ : Type} (f : α → Except ε β) (g : α → β → γ) (xs : List α) :
    (xs.mapM fun x => f x >>= fun y => .ok (g x y)) =
      xs.mapM f >>= fun ys => .ok ((xs.zip ys).map fun p => g p.1 p.2) := by
  induction xs with
  | nil => rfl
  | cons x xs ih =>
    rw [List.mapM_cons, List.mapM_cons, ih]
    cases f x with
    | error e => rfl
    | ok y =>
      cases xs.mapM f with
      | error e => rfl
      | ok ys => rfl

theorem length_of_mapM {ε α β : Type} {f : α → Except ε β} {xs : List α} {ys : List β}
    (h : xs.mapM f = .ok ys) : ys.length = xs.length :=
  (mapM_eq_ok_iff.1 h).length_eq.symm

structure StepOk (table : TensorTable) (n : Node) (s : RowStep) : Prop where
  rows : (n.execute table).map TensorTable.records = s.apply table.records
  rect : ∀ table', n.execute table = .ok table' →
    table'.Rect ∧ table'.schema = s.schema table.schema

theorem transform_ok (hrect : table.Rect) {name : String} {t : ScalarType}
    {fn : TensorTable → Except Exn Tensor} {f : Record → Except Exn t.Carrier}
    (h : fn table = table.records.mapM f >>= fun xs => .ok (.scalar t xs)) :
    StepOk table (.transform name fn) (.extend name t f) := by
  have happly := mapM_pairs f (fun r x => Function.update r name (some (⟨t, x⟩ : Value)))
    table.records
  cases hmap : table.records.mapM f with
  | error e =>
    rw [hmap] at h happly
    have hexec : (Node.transform name fn).execute table = .error e := by
      rw [Node.execute, h]
      rfl
    refine ⟨?_, fun table' htable => ?_⟩
    · rw [hexec]
      exact happly.symm
    · rw [hexec] at htable
      cases htable
  | ok xs =>
    rw [hmap] at h happly
    have hlen : xs.length = table.numRows :=
      (length_of_mapM hmap).trans table.length_records
    obtain ⟨table', hadd, -, hget⟩ := table.add_ok name (.scalar t xs) fun _ => hlen
    have hexec : (Node.transform name fn).execute table = .ok table' := by
      rw [Node.execute, h]
      exact hadd
    refine ⟨?_, fun table'' htable => ?_⟩
    · rw [hexec]
      change Except.ok table'.records = _
      rw [records_of_add hlen hadd hget]
      exact happly.symm
    · obtain rfl : table' = table'' := Except.ok.inj (hexec.symm.trans htable)
      have hplain : ¬ (Tensor.scalar t xs).dtype.isQuantized := by
        simp [Tensor.dtype, DType.isQuantized]
      exact ⟨hrect.add (t := .scalar t xs) hlen hplain hadd, TensorTable.schema_of_add hadd⟩

theorem filter_ok (hrect : table.Rect) {maskFn : TensorTable → Except Exn Tensor}
    {p : Record → Except Exn Int64}
    (h : maskFn table = table.records.mapM p >>= fun xs => .ok (.scalar .int64 xs)) :
    StepOk table (.filter maskFn) (.keep p) := by
  cases hmap : table.records.mapM p with
  | error e =>
    have hexec : (Node.filter maskFn).execute table = .error e := by
      rw [Node.execute, FilterNode.execute, h, hmap]
      rfl
    refine ⟨?_, fun table' htable => ?_⟩
    · rw [hexec, RowStep.apply, hmap]
      rfl
    · rw [hexec] at htable
      cases htable
  | ok m =>
    obtain ⟨table', hrun, hrect', hschema, hrecords⟩ :=
      filter_records hrect ((length_of_mapM hmap).trans table.length_records)
    have hexec : (Node.filter maskFn).execute table = .ok table' := by
      rw [Node.execute, FilterNode.execute, h, hmap]
      exact hrun
    refine ⟨?_, fun table'' htable => ?_⟩
    · rw [hexec, RowStep.apply, hmap]
      exact congrArg Except.ok hrecords
    · obtain rfl : table' = table'' := Except.ok.inj (hexec.symm.trans htable)
      exact ⟨hrect', hschema⟩

theorem Realises.ok {n : Node} {s : RowStep} (h : Realises sig n s) (hrect : table.Rect)
    (hsig : table.schema = sig) : StepOk table n s := by
  cases h with
  | transform h => exact transform_ok hrect (h table hrect hsig)
  | filter h => exact filter_ok hrect (h table hrect hsig)
  | aggregate h =>
    obtain ⟨hrows, hout⟩ := h table hrect hsig
    exact ⟨hrows, hout⟩

theorem nodes_refine {ns : List Node} {ss : List RowStep} (h : Lowers sig ns ss out)
    (hrect : table.Rect) (hsig : table.schema = sig) :
    (ns.foldlM (fun table (n : Node) => n.execute table) table).map TensorTable.records =
        ss.foldlM RowStep.apply table.records ∧
      ∀ table', ns.foldlM (fun table (n : Node) => n.execute table) table = .ok table' →
        table'.Rect ∧ table'.schema = out := by
  induction h generalizing table with
  | nil =>
    refine ⟨rfl, fun table' htable => ?_⟩
    rw [← Except.ok.inj htable]
    exact ⟨hrect, hsig⟩
  | @cons sig out n s ns ss hn hrest ih =>
    have hstep := hn.ok hrect hsig
    rw [List.foldlM_cons, List.foldlM_cons, ← hstep.rows]
    cases hexec : n.execute table with
    | error e => exact ⟨rfl, fun table' htable => (by cases htable)⟩
    | ok table₁ =>
      obtain ⟨hrect₁, hsig₁⟩ := hstep.rect _ hexec
      exact ih hrect₁ (hsig₁.trans (by rw [hsig]))

end Refinement

end Lark.Column
