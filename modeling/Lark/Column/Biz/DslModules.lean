import Lark.Column.Biz.DslFlow
import Lark.Column.Biz.KeyedNodes
import Lark.Column.Biz.Schedule
import Lark.Column.Biz.TempNames
import Lark.Column.Exec.Solutions

namespace Lark.Column.Biz

open Lark.Base Lark.Column.Exec Relation

structure FromDsl (m : Module) (prog : List Dsl.Statement) : Prop where
  wellFormed : ∀ s ∈ prog, s.WellFormed
  source : ∃ text, Dsl.RendersProgram prog text ∧
    Module.fromDsl ⟨m.name, m.inputs, m.outputs, m.dependencies, []⟩ (String.ofList text) = .ok m

section

variable {m : Module} {prog : List Dsl.Statement}

theorem FromDsl.parsed (h : FromDsl m prog) : ∃ text, Dsl.RendersProgram prog text ∧
    Dsl.parse (String.ofList text) = .ok m.ops := by
  obtain ⟨text, hr, hm⟩ := h.source
  obtain ⟨specs, hparse, hok⟩ := except_bind_eq_ok.mp hm
  have hops : specs = m.ops := congrArg Module.ops (Except.ok.inj hok)
  exact ⟨text, hr, hops ▸ hparse⟩

theorem FromDsl.flowing (h : FromDsl m prog) (hc : Dsl.Causal prog) : Dsl.Flowing m.ops := by
  obtain ⟨text, hr, hparse⟩ := h.parsed
  exact Dsl.parse_flowing hr h.wellFormed hc hparse

end

section Names

theorem slash_notMem_tempName (k : Nat) : '/' ∉ (Dsl.tempName k).toList := by
  simp only [Dsl.tempName, String.toList_append, List.mem_append, not_or]
  refine ⟨by decide, fun h => ?_⟩
  have hmem : '/' ∈ Nat.toDigits 10 k := by simpa [Nat.repr] using h
  exact absurd (Nat.isDigit_of_mem_toDigits (by decide) (by decide) hmem) (by decide)

theorem remapTemp_tempName {j k : Nat} {a b : String}
    (h : remapTemp (Dsl.tempName j) a = remapTemp (Dsl.tempName k) b) : a = b := by
  have hat : ∀ i, startsWithAt (Dsl.tempName i) = true := fun i => by
    simp [startsWithAt, Dsl.tempName, String.toList_append]
  rcases (remapTemp_eq_iff (hat j) (hat k) a b).1 h with
    ⟨hab, -⟩ | ⟨r, s, -, hj, -⟩ | ⟨r, s, -, hk, -⟩
  · exact hab
  · exact absurd (by simp [hj, String.toList_append]) (slash_notMem_tempName j)
  · exact absurd (by simp [hk, String.toList_append]) (slash_notMem_tempName k)

theorem remap_shared {a b raw raw' : String} (hr : isLocalName raw = false ∨ IsTemp raw)
    (hr' : isLocalName raw' = false ∨ IsTemp raw') (h : remap a raw = remap b raw') :
    a = b ∨ isLocalName raw = false ∧ raw = raw' := by
  rcases hr with hl | ⟨j, rfl⟩
  · rw [remap_ordinary hl] at h
    have hl' : isLocalName (remap b raw') = false := h ▸ hl
    exact .inr ⟨hl, h.trans (ordinary_of_remap hl')⟩
  · have hat : ∀ i, startsWithAt (Dsl.tempName i) = true := fun i => by
      simp [startsWithAt, Dsl.tempName, String.toList_append]
    rw [← Dsl.tempName, remap_temp (hat j)] at h
    rcases hr' with hl' | ⟨k, rfl⟩
    · have hraw : raw' = remapTemp (Dsl.tempName j) a := by rw [h, remap_ordinary hl']
      rw [hraw] at hl'
      simp [isLocalName, startsWithAt_remapTemp] at hl'
    · rw [← Dsl.tempName, remap_temp (hat k)] at h
      exact .inl (remapTemp_tempName h)

theorem remap_nonempty {name raw : String} (h : isLocalName raw = false ∨ IsTemp raw) :
    (remap name raw).isEmpty = false := by
  rcases h with hl | htemp
  · rw [remap_ordinary hl]
    exact not_isEmpty_of_ordinary hl
  · simp [remap, isTemp_at htemp, isEmpty_remapTemp]

end Names

section Graph

variable {ms : List Module} {g : ComputeGraph} {n w : ComputeNode} {c : String}

theorem Compiled.reader (h : Compiled ms g) (hd : IdsDistinct ms) (hn : n ∈ g.nodes)
    (hr : c ∈ n.op.reads) : ∃ m ∈ ms, ∃ i spec, m.ops[i]? = some spec ∧
      c ∈ (remapSpec m.name spec).inputs ∧ g.byId (NodeKey.op m.name i).id = some n.ptr := by
  cases ho : n.op with
  | placeholder out => simp [ho, NodeOp.reads] at hr
  | op o =>
    rw [ho] at hr
    cases ha : o.isAnchor with
    | true => simp [NodeOp.reads, ha] at hr
    | false =>
      rcases h.kinds n hn o ho with ⟨hanchor, -⟩ | ⟨m, hm, spec, i, hs, hid, -, hop⟩
      · simp [hanchor] at ha
      · have hlt := (List.getElem?_eq_some_iff.1 hs).1
        have hby := h.unique hd n hn m.name i ⟨m, hm, rfl, hlt⟩ hid
        rw [hid] at hby
        rw [reads_op ha, (createOp_ports hop).1] at hr
        exact ⟨m, hm, i, spec, hs, List.mem_of_mem_take hr, hby⟩

theorem Compiled.writer (h : Compiled ms g) (hd : IdsDistinct ms) (hn : n ∈ g.nodes)
    (hw : n.op.writes = some c) : ∃ m ∈ ms, ∃ i spec, m.ops[i]? = some spec ∧
      c ∈ (remapSpec m.name spec).outputs ∧ g.byId (NodeKey.op m.name i).id = some n.ptr := by
  cases ho : n.op with
  | placeholder out => simp [ho, NodeOp.writes] at hw
  | op o =>
    rw [ho] at hw
    cases ha : o.isAnchor with
    | true => simp [NodeOp.writes, ha] at hw
    | false =>
      rcases h.kinds n hn o ho with ⟨hanchor, -⟩ | ⟨m, hm, spec, i, hs, hid, -, hop⟩
      · simp [hanchor] at ha
      · have hlt := (List.getElem?_eq_some_iff.1 hs).1
        have hby := h.unique hd n hn m.name i ⟨m, hm, rfl, hlt⟩ hid
        rw [hid] at hby
        rw [writes_op ha, (createOp_ports hop).2] at hw
        exact ⟨m, hm, i, spec, hs, List.mem_of_head? hw, hby⟩

theorem writer_index {m : Module} (hok : m.Ok) {i j : Nat} {s t : OpSpec}
    (hi : m.ops[i]? = some s) (hj : m.ops[j]? = some t)
    (hs : c ∈ (remapSpec m.name s).outputs) (ht : c ∈ (remapSpec m.name t).outputs)
    (he : c.isEmpty = false) : i = j := by
  have hboth : ∀ {i j : Nat} {s t : OpSpec}, m.ops[i]? = some s → m.ops[j]? = some t →
      c ∈ (remapSpec m.name s).outputs → c ∈ (remapSpec m.name t).outputs → i ≤ j → i = j := by
    intro i j s t hi hj hs ht hle
    have hbound := Module.draftAt_extends (m := m) (Nat.succ_le_succ hle) c _ (hok.locals hi hs he)
    rw [hok.locals hj ht he] at hbound
    cases hbound
    rfl
  rcases le_total i j with hle | hle
  · exact hboth hi hj hs ht hle
  · exact (hboth hj hi ht hs hle).symm

theorem writesFirst (hc : Compilable ms) (h : Compiled ms g) (hd : IdsDistinct ms)
    (hflow : ∀ m ∈ ms, Dsl.Flowing m.ops) : WritesFirst g where
  before := by
    intro n hn w hw c hcw hcr
    obtain ⟨m, hm, j, t, hj, hin, hbyR⟩ := h.reader hd hn hcr
    obtain ⟨m', hm', i, s, hi, hout, hbyW⟩ := h.writer hd hw hcw
    obtain ⟨raw, hraw, rfl⟩ := List.mem_map.1 hin
    obtain ⟨raw', hraw', he⟩ := List.mem_map.1 hout
    have hname := (hflow m hm).inputs t (List.mem_of_getElem? hj) raw hraw
    have hname' := (hflow m' hm').outputs s (List.mem_of_getElem? hi) raw' hraw'
    have hflows : Flow ms (.op m'.name i) (.op m.name j) := by
      by_cases hmm : m' = m
      · subst hmm
        obtain rfl := remap_injective m'.name he
        have hij := (hflow m' hm').before i j s t raw' hi hj hraw' hraw
        exact .within hm' hi hj hij (remap_nonempty hname) hout hin
      · rcases remap_shared hname' hname he with hnames | ⟨hl, rfl⟩
        · exact absurd (hc.module_eq hm' hm hnames) hmm
        · exact .across hm' hm hmm hi hj hl hraw' hraw
    exact h.node_path (flow_path hc hflows) hbyR hbyW
  single := by
    intro n hn w hw c hcn hcw
    obtain ⟨m, hm, i, s, hi, hout, hby⟩ := h.writer hd hn hcn
    obtain ⟨m', hm', j, t, hj, hout', hby'⟩ := h.writer hd hw hcw
    obtain ⟨raw, hraw, rfl⟩ := List.mem_map.1 hout
    obtain ⟨raw', hraw', he⟩ := List.mem_map.1 hout'
    have hname := (hflow m hm).outputs s (List.mem_of_getElem? hi) raw hraw
    have hname' := (hflow m' hm').outputs t (List.mem_of_getElem? hj) raw' hraw'
    obtain rfl : m = m' := by
      rcases remap_shared hname hname' he.symm with hnames | ⟨hl, rfl⟩
      · exact hc.module_eq hm hm' hnames
      · exact hc.unambiguous m hm m' hm' raw (Module.mem_written_of_op hi hraw)
          (Module.mem_written_of_op hj hraw') hl
    obtain rfl := writer_index (hc.ok m hm) hi hj hout hout' (remap_nonempty hname)
    exact Option.some.inj (hby.symm.trans hby')

end Graph

end Lark.Column.Biz
