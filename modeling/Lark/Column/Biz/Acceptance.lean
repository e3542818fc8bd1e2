import Lark.Column.Biz.CompilerSpec

namespace Lark.Column.Biz

open Lark.Base Lark.Column.Exec Relation

def Module.writes (m : Module) : List String :=
  m.ops.flatMap fun spec => (remapSpec m.name spec).outputs

def Feeds (ms : List Module) (m m' : Module) : Prop :=
  m ∈ ms ∧ m' ∈ ms ∧ ((m ≠ m' ∧ ∃ c, startsWithAt c = false ∧ c ∈ m.written ∧ m'.Reads c) ∨
    m.name ∈ m'.dependencies)

structure WellFormedPipeline (ms : List Module) : Prop where
  distinct : (ms.map (·.name)).Nodup
  constructible : ∀ m ∈ ms, ∀ spec ∈ m.ops, ∃ op, createOp spec = .ok op
  single : ∀ m ∈ ms, ∀ m' ∈ ms, ∀ c, startsWithAt c = false → c ∈ m.written → c ∈ m'.written →
    m = m'
  once : ∀ m ∈ ms, m.writes.Nodup
  fresh : ∀ m ∈ ms, ∀ c ∈ m.writes, c ∉ m.inputs
  known : ∀ m ∈ ms, ∀ d ∈ m.dependencies, d ∈ ms.map (·.name)
  ports : ∀ m ∈ ms, m.inputs.Nodup ∧ m.outputs.Nodup
  acyclic : ∀ m, ¬ TransGen (Feeds ms) m m

def renameSpec (ρ : String → String) (spec : OpSpec) : OpSpec :=
  { spec with
    inputs := spec.inputs.map ρ
    outputs := spec.outputs.map ρ }

theorem createSpecialOp_renameSpec (ρ : String → String) (spec : OpSpec) :
    createSpecialOp (renameSpec ρ spec) = createSpecialOp spec := by
  have hlen : (renameSpec ρ spec).inputs.length = spec.inputs.length := List.length_map _
  unfold createSpecialOp
  rw [hlen]
  rfl

theorem createKernel_renameSpec (ρ : String → String) (spec : OpSpec) :
    createKernel (renameSpec ρ spec) = createKernel spec := by
  unfold createKernel
  rw [createSpecialOp_renameSpec]
  rfl

theorem createOp_renameSpec (ρ : String → String) {spec : OpSpec} :
    (∃ op, createOp (renameSpec ρ spec) = .ok op) ↔ ∃ op, createOp spec = .ok op := by
  unfold createOp
  rw [createKernel_renameSpec]
  cases createKernel spec with
  | ok k => exact ⟨fun _ => ⟨_, rfl⟩, fun _ => ⟨_, rfl⟩⟩
  | error e => simp

theorem ordinary_not_at {c : String} (h : isLocalName c = false) : startsWithAt c = false := by
  simp only [isLocalName, Bool.or_eq_false_iff] at h
  exact h.2

namespace WellFormedPipeline

variable {ms : List Module}

theorem ok (h : WellFormedPipeline ms) {m : Module} (hm : m ∈ ms) : m.Ok := by
  intro pre entry post hsplit
  have hops : m.ops = pre.map Prod.fst ++ entry.1 :: post.map Prod.fst := by
    have := congrArg (List.map Prod.fst) hsplit
    simpa [List.zipIdx_map_fst] using this
  have hentry : entry.1 ∈ m.ops := by simp [hops]
  have hop := h.constructible m hm entry.1 hentry
  refine ⟨(createOp_renameSpec (remap m.name)).2 hop, fun outs out rest houts _ => ?_⟩
  have hwrites : m.writes =
      (pre.map Prod.fst).flatMap (fun spec => (remapSpec m.name spec).outputs) ++
        (outs ++ out :: rest ++
          (post.map Prod.fst).flatMap fun spec => (remapSpec m.name spec).outputs) := by
    rw [Module.writes, hops, List.flatMap_append, List.flatMap_cons, houts]
  have honce := h.once m hm
  have hmem : out ∈ m.writes := by simp [hwrites]
  rw [hwrites, List.nodup_append] at honce
  obtain ⟨-, hrest, hbefore⟩ := honce
  by_contra hbound
  rcases bound_bindWrite hbound with hbound | hin
  · rcases bound_ops hbound with hbound | ⟨e, he, hout⟩
    · rw [m.draftInputs_locals] at hbound
      refine h.fresh m hm out hmem ?_
      by_contra hnot
      simp [hnot] at hbound
    · refine hbefore out ?_ out (by simp) rfl
      exact List.mem_flatMap.2 ⟨e.1, List.mem_map_of_mem he, hout⟩
  · rw [List.nodup_append, List.nodup_append] at hrest
    exact hrest.1.2.2 out hin out (by simp) rfl

theorem accepted_iff (h : WellFormedPipeline ms) : Accepted ms ↔ Resolved ms := by
  constructor
  · exact Accepted.resolved
  · intro hr
    refine ⟨fun m hm m' hm' c hc hc' hl => ?_, h.known, fun m hm => h.ok hm, hr⟩
    rw [h.single m hm m' hm' c (ordinary_not_at hl) hc hc']

theorem mem_outputs (h : WellFormedPipeline ms) {m : Module} (hm : m ∈ ms) {c : String}
    (hl : isLocalName c = false) (hw : c ∈ m.written) (hin : c ∈ m.inputs) : c ∈ m.outputs := by
  rcases List.mem_append.1 hw with hw | hw
  · exact hw
  · obtain ⟨spec, hspec, hc⟩ := List.mem_flatMap.1 hw
    exact absurd hin (h.fresh m hm c
      (List.mem_flatMap.2 ⟨spec, hspec, (mem_remap_outputs hl).2 hc⟩))

theorem acyclic_of_rank (rank : Module → Nat) (h : ∀ m m', Feeds ms m m' → rank m < rank m') :
    ∀ m, ¬ TransGen (Feeds ms) m m := by
  have hlt : ∀ m m', TransGen (Feeds ms) m m' → rank m < rank m' := by
    intro m m' hpath
    induction hpath with
    | single hf => exact h _ _ hf
    | tail _ hf ih => exact ih.trans (h _ _ hf)
  exact fun m hm => Nat.lt_irrefl _ (hlt m m hm)

end WellFormedPipeline

def NoPassThroughRead (ms : List Module) : Prop :=
  ∀ w ∈ ms, ∀ p ∈ w.inputs, p ∈ w.outputs → isLocalName p = false → ∀ m ∈ ms, m.Reads p → m = w

theorem compile_accepts_wellFormed_iff {ms : List Module} (h : WellFormedPipeline ms)
    (hplain : ∀ m ∈ ms, startsWithAt m.name = false) :
    (∃ s, compile ms (ms.map (·.name)) (.start .empty) = .ok () s) ↔ NoPassThroughRead ms := by
  refine (compile_ok_iff ⟨h.distinct, hplain⟩).trans (h.accepted_iff.trans ?_)
  constructor
  · intro hr w hw p hin hout hl m hm hread
    by_contra hne
    exact hr m hm w hw hne p hl hread (List.mem_append_left _ hout) hin
  · intro hn m hm w hw hne c hl hread hcw hin
    exact hne (hn w hw c hin (h.mem_outputs hw hl hcw hin) hl m hm hread)

def reader : Module :=
  ⟨"a", ["x", "b_out"], ["final"], [], [⟨"add", ["b_out", "x"], ["final"], []⟩]⟩

def doubler : Module := ⟨"b", ["x"], ["b_out"], [], [⟨"add", ["x", "x"], ["b_out"], []⟩]⟩

theorem wellFormed_forwardReference : WellFormedPipeline [reader, doubler] where
  distinct := by decide
  constructible := by
    intro m hm spec hs
    rcases (by simpa using hm : m = reader ∨ m = doubler) with rfl | rfl
    · obtain rfl := List.mem_singleton.1 hs
      exact ⟨_, rfl⟩
    · obtain rfl := List.mem_singleton.1 hs
      exact ⟨_, rfl⟩
  single := by
    intro m hm m' hm' c _ hc hc'
    rcases (by simpa using hm : m = reader ∨ m = doubler) with rfl | rfl <;>
      rcases (by simpa using hm' : m' = reader ∨ m' = doubler) with rfl | rfl <;>
      simp_all [Module.written, reader, doubler]
  once := by decide
  fresh := by decide
  known := by decide
  ports := by decide
  acyclic := by
    refine WellFormedPipeline.acyclic_of_rank (fun m => if m.name = "b" then 0 else 1) ?_
    rintro m m' ⟨hm, hm', hf⟩
    rcases (by simpa using hm : m = reader ∨ m = doubler) with rfl | rfl <;>
      rcases (by simpa using hm' : m' = reader ∨ m' = doubler) with rfl | rfl <;>
      simp [Module.Reads, Module.written, reader, doubler] at hf ⊢

theorem noPassThroughRead_forwardReference : NoPassThroughRead [reader, doubler] := by
  intro w hw p hin hout
  rcases (by simpa using hw : w = reader ∨ w = doubler) with rfl | rfl <;>
    simp_all [reader, doubler]

theorem compile_accepts_forwardReference :
    ∃ s, compile [reader, doubler] ["a", "b"] (.start .empty) = .ok () s :=
  (compile_accepts_wellFormed_iff wellFormed_forwardReference (by decide)).2
    noPassThroughRead_forwardReference

def relay : Module := ⟨"a", ["p"], ["p"], [], []⟩

def consumer : Module := ⟨"b", ["p"], [], [], []⟩

-- The relay never registers its port, and the consumer's placeholder stays.
theorem compile_rejects_relay : WellFormedPipeline [relay, consumer] ∧
    ¬ ∃ s, compile [relay, consumer] ["a", "b"] (.start .empty) = .ok () s := by
  constructor
  · refine ⟨by decide, by simp [relay, consumer], ?_, by decide, by decide, by decide, by decide, ?_⟩
    · intro m hm m' hm' c _ hc hc'
      rcases (by simpa using hm : m = relay ∨ m = consumer) with rfl | rfl <;>
        rcases (by simpa using hm' : m' = relay ∨ m' = consumer) with rfl | rfl <;>
        simp_all [Module.written, relay, consumer]
    · refine WellFormedPipeline.acyclic_of_rank (fun m => if m.name = "a" then 0 else 1) ?_
      rintro m m' ⟨hm, hm', hf⟩
      rcases (by simpa using hm : m = relay ∨ m = consumer) with rfl | rfl <;>
        rcases (by simpa using hm' : m' = relay ∨ m' = consumer) with rfl | rfl <;>
        simp [Module.Reads, Module.written, relay, consumer] at hf ⊢
  · intro h
    have hr := ((compile_ok_iff ⟨by decide, by decide⟩).1 h).resolved
    refine hr consumer (by simp) relay (by simp) (by simp [consumer, relay]) "p" (by decide)
      (.inl (by simp [consumer])) ?_ ?_ <;> simp [relay, Module.written]

end Lark.Column.Biz
