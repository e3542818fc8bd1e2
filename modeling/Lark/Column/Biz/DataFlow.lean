import Lark.Column.Biz.CompilerSpec

namespace Lark.Column.Biz

open Lark.Base Lark.Column.Exec Relation

-- The edges point from a reader to what it waits for; a flow goes from a writer to its reader.
def PlannedEdge (ms : List Module) (a b : NodeKey) : Prop := (a, b) ∈ (ledger ms).edges

inductive Flow (ms : List Module) : NodeKey → NodeKey → Prop
  | within {m : Module} {i j : Nat} {s t : OpSpec} {c : String} (hm : m ∈ ms)
    (hi : m.ops[i]? = some s) (hj : m.ops[j]? = some t) (hij : i < j)
    (he : c.isEmpty = false) (hout : c ∈ (remapSpec m.name s).outputs)
    (hin : c ∈ (remapSpec m.name t).inputs) : Flow ms (.op m.name i) (.op m.name j)
  | across {m m' : Module} {i j : Nat} {s t : OpSpec} {c : String} (hm : m ∈ ms) (hm' : m' ∈ ms)
    (hne : m ≠ m') (hi : m.ops[i]? = some s) (hj : m'.ops[j]? = some t)
    (hl : isLocalName c = false) (hout : c ∈ s.outputs) (hin : c ∈ t.inputs) :
    Flow ms (.op m.name i) (.op m'.name j)

namespace Module

variable {m : Module}

def draftAt (m : Module) (k : Nat) : Draft := (m.ops.take k).zipIdx.foldl (Draft.op m) m.draftInputs

theorem zipIdx_at {k : Nat} {spec : OpSpec} (h : m.ops[k]? = some spec) :
    m.ops.zipIdx = (m.ops.take k).zipIdx ++ (spec, k) :: (m.ops.drop (k + 1)).zipIdx (k + 1) := by
  obtain ⟨hk, he⟩ := List.getElem?_eq_some_iff.1 h
  have hops : m.ops = m.ops.take k ++ spec :: m.ops.drop (k + 1) := by
    rw [← he, List.getElem_cons_drop, List.take_append_drop]
  have hlen : (m.ops.take k).length = k := by
    rw [List.length_take]
    omega
  nth_rewrite 1 [hops]
  rw [List.zipIdx_append, List.zipIdx_cons, hlen]
  simp

theorem site_at {k : Nat} {spec : OpSpec} {c : String} (h : m.ops[k]? = some spec)
    (hc : c ∈ (remapSpec m.name spec).inputs) : Site m (.op m.name k) (m.draftAt k).locals c :=
  .op (zipIdx_at h) hc

theorem draftAt_succ {k : Nat} {spec : OpSpec} (h : m.ops[k]? = some spec) :
    m.draftAt (k + 1) = (m.draftAt k).op m (spec, k) := by
  obtain ⟨hk, he⟩ := List.getElem?_eq_some_iff.1 h
  have hlen : (m.ops.take k).length = k := by
    rw [List.length_take]
    omega
  unfold draftAt
  rw [List.take_add_one, h, Option.toList_some, List.zipIdx_append, List.foldl_append, hlen]
  simp

theorem draftAt_extends {i j : Nat} (h : i ≤ j) : Draft.Extends (m.draftAt i) (m.draftAt j) := by
  induction j, h using Nat.le_induction with
  | base => exact Draft.Extends.refl _
  | succ j _ ih =>
    cases hj : m.ops[j]? with
    | some spec =>
      rw [draftAt_succ hj]
      exact ih.trans (Draft.extends_op _)
    | none =>
      have hlen : m.ops.length ≤ j := List.getElem?_eq_none_iff.1 hj
      have he : m.draftAt (j + 1) = m.draftAt j := by
        unfold draftAt
        rw [List.take_of_length_le (by omega), List.take_of_length_le hlen]
      rwa [he]

theorem draftAt_draft {k : Nat} {spec : OpSpec} (h : m.ops[k]? = some spec) :
    Draft.Extends (m.draftAt (k + 1)) m.draft := by
  rw [draftAt_succ h]
  exact draftOps_extends m (zipIdx_at h)

theorem Ok.locals (hok : m.Ok) {k : Nat} {spec : OpSpec} (h : m.ops[k]? = some spec) {c : String}
    (hc : c ∈ (remapSpec m.name spec).outputs) (he : c.isEmpty = false) :
    (m.draftAt (k + 1)).locals c = some (.op m.name k) := by
  obtain ⟨pre, post, hs⟩ := List.append_of_mem hc
  have hfresh := (hok _ (spec, k) _ (zipIdx_at h)).fresh pre c post hs he
  rw [draftAt_succ h]
  change ((remapSpec m.name spec).outputs.foldl (bindWrite (.op m.name k)) (m.draftAt k).locals) c = _
  rw [hs, List.foldl_append, List.foldl_cons]
  refine Draft.bindWrite_extends post ?_
  have hnone : pre.foldl (bindWrite (.op m.name k)) (m.draftAt k).locals c = none := hfresh
  simp [bindWrite, he, hnone]

theorem not_mem_inputs (hok : m.Ok) {k : Nat} {spec : OpSpec} (h : m.ops[k]? = some spec)
    {c : String} (hc : c ∈ (remapSpec m.name spec).outputs) (he : c.isEmpty = false) :
    c ∉ m.inputs := by
  intro hin
  have hbound : m.draftInputs.locals c = some (.input m.name c) := by
    simp [m.draftInputs_locals, hin]
  have hlater := draftAt_extends (m := m) (Nat.zero_le (k + 1)) c _ hbound
  rw [hok.locals h hc he] at hlater
  simp at hlater

theorem mem_written_of_op {k : Nat} {spec : OpSpec} (h : m.ops[k]? = some spec) {c : String}
    (hc : c ∈ spec.outputs) : c ∈ m.written :=
  List.mem_append_right _ (List.mem_flatMap.2 ⟨spec, List.mem_of_getElem? h, hc⟩)

end Module

section

variable {ms : List Module}

theorem producer_of_op (hc : Compilable ms) {m : Module} (hm : m ∈ ms) {k : Nat} {spec : OpSpec}
    (h : m.ops[k]? = some spec) {c : String} (hl : isLocalName c = false) (hout : c ∈ spec.outputs) :
    producer ms c = some (.op m.name k) := by
  have hremap : c ∈ (remapSpec m.name spec).outputs := (mem_remap_outputs hl).2 hout
  have he := not_isEmpty_of_ordinary hl
  unfold producer
  rw [writer_eq hc hm (Module.mem_written_of_op h hout) hl]
  simp only [Module.not_mem_inputs (hc.ok m hm) h hremap he, if_false]
  exact Module.draftAt_draft h c _ ((hc.ok m hm).locals h hremap he)

theorem input_edge {m : Module} (hm : m ∈ ms) {c : String} (hin : c ∈ m.inputs)
    (hl : isLocalName c = false) (hf : Foreign ms m c) {k : NodeKey} (hp : producer ms c = some k) :
    PlannedEdge ms (.input m.name c) k := by
  obtain ⟨pre, post, hs, hpre⟩ := List.eq_append_cons_of_mem hin
  refine ledger_site hm (.input hs) ?_
  have hnone : (pre.foldl (Draft.input m) .empty).locals c = none := by
    rw [Draft.inputs_locals, if_neg hpre]
    rfl
  simp [resolveOf, hnone, hl, hf, hp]

theorem foreign_path (hc : Compilable ms) {m : Module} (hm : m ∈ ms) {j : Nat} {t : OpSpec}
    (hj : m.ops[j]? = some t) {c : String} (hin : c ∈ t.inputs) (hl : isLocalName c = false)
    (hf : Foreign ms m c) {k : NodeKey} (hp : producer ms c = some k) :
    TransGen (PlannedEdge ms) (.op m.name j) k := by
  have hsite := Module.site_at hj ((mem_remap_inputs hl).2 hin)
  cases hb : (m.draftAt j).locals c with
  | none =>
    refine .single (ledger_site hm hsite ?_)
    simp [resolveOf, hb, hl, hf, hp]
  | some k' =>
    have hport : c ∈ m.inputs := by
      rcases bound_ops (by rw [← Module.draftAt, hb]; simp :
        ((m.ops.take j).zipIdx.foldl (Draft.op m) m.draftInputs).locals c ≠ none) with
        hbound | ⟨e, he, hout⟩
      · rw [m.draftInputs_locals] at hbound
        by_contra hnot
        simp [hnot] at hbound
      · exfalso
        obtain ⟨w, hw, hwm, hcw⟩ := (foreign_iff hc hm hl).1 hf
        have hspec : e.1 ∈ m.ops := List.mem_of_mem_take (List.fst_mem_of_mem_zipIdx he)
        have hcm : c ∈ m.written := List.mem_append_right _
          (List.mem_flatMap.2 ⟨e.1, hspec, (mem_remap_outputs hl).1 hout⟩)
        exact hwm (hc.unambiguous w hw m hm c hcw hcm hl)
    have hk' : k' = .input m.name c := by
      have hbound : m.draftInputs.locals c = some (.input m.name c) := by
        simp [m.draftInputs_locals, hport]
      have hlater := Module.draftAt_extends (m := m) (Nat.zero_le j) c _ hbound
      exact Option.some.inj (hb.symm.trans hlater)
    subst hk'
    have hread : PlannedEdge ms (.op m.name j) (.input m.name c) := by
      refine ledger_site hm hsite ?_
      simp [resolveOf, hb]
    exact (TransGen.single hread).tail (input_edge hm hport hl hf hp)

theorem flow_path (hc : Compilable ms) {a b : NodeKey} (h : Flow ms a b) :
    TransGen (PlannedEdge ms) b a := by
  cases h with
  | @within m i j s t c hm hi hj hij he hout hin =>
    have hbound := Module.draftAt_extends (m := m) hij c _ ((hc.ok m hm).locals hi hout he)
    refine .single (ledger_site hm (Module.site_at hj hin) ?_)
    simp [resolveOf, hbound]
  | @across m m' i j s t c hm hm' hne hi hj hl hout hin =>
    have hf : Foreign ms m' c :=
      (foreign_iff hc hm' hl).2 ⟨m, hm, hne, Module.mem_written_of_op hi hout⟩
    exact foreign_path hc hm' hj hin hl hf (producer_of_op hc hm hi hl hout)

theorem flows_path (hc : Compilable ms) {a b : NodeKey} (h : TransGen (Flow ms) a b) :
    TransGen (PlannedEdge ms) b a := by
  induction h with
  | single hab => exact flow_path hc hab
  | tail _ hbc ih => exact (flow_path hc hbc).trans ih

theorem Compiled.path {g : ComputeGraph} (h : Compiled ms g) {a b : NodeKey}
    (hab : TransGen (PlannedEdge ms) a b) : TransGen g.Edge a.id b.id := by
  induction hab with
  | single he => exact .single ((h.edge _ _).2 ⟨_, _, he, rfl, rfl⟩)
  | tail _ he ih => exact ih.tail ((h.edge _ _).2 ⟨_, _, he, rfl, rfl⟩)

theorem Compiled.node_path {g : ComputeGraph} (h : Compiled ms g) {a b : NodeKey}
    (hab : TransGen (PlannedEdge ms) a b) {p q : Nat} (hp : g.byId a.id = some p)
    (hq : g.byId b.id = some q) : TransGen (Kahn.DependsOn g.depsOf) p q := by
  obtain ⟨p', q', hp', hq', hpath⟩ := h.wf.path_of_edges (h.path hab)
  obtain rfl : p = p' := Option.some.inj (hp.symm.trans hp')
  obtain rfl : q = q' := Option.some.inj (hq.symm.trans hq')
  exact hpath

end

end Lark.Column.Biz
