import Lark.Column.Biz.PartialGraph
import Lark.Column.Biz.Schedule

namespace Lark.Column.Biz

open Lark.Base Lark.Column.Exec Relation

structure Pipeline where
  modules : List Module
  moduleNames : List String
  graph : ComputeGraph
  compiled : Bool
  store : TensorStore

inductive Outcome where
  | threw (e : Exn)
  | returned (ran : List Nat)

namespace Pipeline

-- The graph is replaced and the flag set before the passes that can throw.
def compile (p : Pipeline) : Pipeline × Except Exn Unit :=
  match Biz.compile p.modules p.moduleNames (.start .empty) with
  | .error e c => ({ p with graph := c.graph, compiled := true }, .error e)
  | .ok _ c => ({ p with graph := c.graph.finalize.1, compiled := true }, c.graph.finalize.2)

def feed (p : Pipeline) (table : List (String × Tensor)) : Pipeline :=
  { p with store := table.foldl (fun store entry => store.set entry.1 entry.2) .empty }

-- compute() up to the point where ExecuteAsync spawns the nodes.
def ready (p : Pipeline) : Pipeline × Except Exn Unit :=
  match if p.compiled then (p, .ok ()) else p.compile with
  | (q, .error e) => (q, .error e)
  | (q, .ok _) =>
    if q.graph.finalized then (q, .ok ())
    else ({ q with graph := q.graph.finalize.1 }, q.graph.finalize.2)

inductive Computes (libm : Libm) (p : Pipeline) : Pipeline → Outcome → Prop
  | threw {q : Pipeline} {e : Exn} (h : p.ready = (q, .error e)) : Computes libm p q (.threw e)
  | empty {q : Pipeline} (h : p.ready = (q, .ok ())) (hn : q.graph.nodes = []) :
    Computes libm p q (.returned [])
  | ran {q : Pipeline} {s : ExecState} (h : p.ready = (q, .ok ())) (hn : q.graph.nodes ≠ [])
    (hx : Execution libm q.graph q.store s) :
    Computes libm p { q with store := s.store } (.returned (q.graph.nodes.map (·.ptr)))

inductive Call (libm : Libm) (p : Pipeline) : Pipeline → Prop
  | compile : Call libm p p.compile.1
  | feed (table : List (String × Tensor)) : Call libm p (p.feed table)
  | compute {q : Pipeline} {o : Outcome} (h : Computes libm p q o) : Call libm p q
  | fetch : Call libm p p

def Refuses (libm : Libm) (p : Pipeline) : Prop :=
  (∃ q e, Computes libm p q (.threw e)) ∧
    ∀ q o, Computes libm p q o → ∃ e, o = .threw e ∧ q.store = p.store

section Finalize

variable {g : ComputeGraph}

theorem acyclic_finalize : g.finalize.1.Acyclic ↔ g.Acyclic := by
  unfold ComputeGraph.finalize
  split_ifs <;> exact Iff.rfl

theorem finalize_acyclic (h : g.WellFormed) (ha : g.Acyclic) :
    g.finalize.2 = .ok () ∧ g.finalize.1.WellFormed ∧ g.finalize.1.Acyclic ∧
      g.finalize.1.topo = g.finalize.1.sorted := by
  refine ⟨h.finalize_ok_iff.2 ha, ComputeGraph.wellFormed_finalize h, acyclic_finalize.2 ha, ?_⟩
  unfold ComputeGraph.finalize
  split_ifs <;> rfl

theorem finalize_cyclic (h : Pending g) (ha : ¬ g.Acyclic) :
    (∃ e, g.finalize.2 = .error e) ∧ Pending g.finalize.1 ∧ ¬ g.finalize.1.Acyclic := by
  refine ⟨?_, ⟨ComputeGraph.wellFormed_finalize h.wf, ?_⟩, fun hf => ha (acyclic_finalize.1 hf)⟩
  · cases hr : g.finalize.2 with
    | error e => exact ⟨e, rfl⟩
    | ok u => exact absurd (h.wf.finalize_ok_iff.1 hr) ha
  · have hfail := fun hr => ha (h.wf.finalize_ok_iff.1 hr)
    unfold ComputeGraph.finalize at hfail ⊢
    split_ifs at hfail ⊢
    · exact h.unsorted
    · exact absurd rfl hfail

theorem finalized_of_ok (h : g.finalize.2 = .ok ()) : g.finalize.1.finalized = true := by
  unfold ComputeGraph.finalize at h ⊢
  split_ifs at h ⊢
  rfl

end Finalize

variable {libm : Libm} {p q : Pipeline}

theorem compile_congr (hm : q.modules = p.modules) (hn : q.moduleNames = p.moduleNames) :
    q.compile.1.graph = p.compile.1.graph ∧ q.compile.2 = p.compile.2 := by
  unfold compile
  rw [hm, hn]
  split <;> exact ⟨rfl, rfl⟩

theorem compile_config (p : Pipeline) :
    p.compile.1.modules = p.modules ∧ p.compile.1.moduleNames = p.moduleNames ∧
      p.compile.1.compiled = true ∧ p.compile.1.store = p.store := by
  unfold compile
  split <;> exact ⟨rfl, rfl, rfl, rfl⟩

theorem compile_failed {e : Exn} (h : p.compile.2 = .error e) : Pending p.compile.1.graph := by
  have hp := pending_compile p.modules p.moduleNames
  unfold compile at h ⊢
  cases hc : Biz.compile p.modules p.moduleNames (.start .empty) with
  | error e' c =>
    rw [hc] at hp
    exact hp
  | ok u c =>
    rw [hc] at hp h
    have hp' : Pending c.graph := hp
    have ha : ¬ c.graph.Acyclic := by
      intro ha
      simp [(finalize_acyclic hp'.wf ha).1] at h
    exact (finalize_cyclic hp' ha).2.1

theorem compile_succeeded (h : p.compile.2 = .ok ()) :
    p.compile.1.graph.finalized = true ∧ p.compile.1.graph.WellFormed ∧
      p.compile.1.graph.Acyclic ∧ p.compile.1.graph.topo = p.compile.1.graph.sorted := by
  have hp := pending_compile p.modules p.moduleNames
  unfold compile at h ⊢
  cases hc : Biz.compile p.modules p.moduleNames (.start .empty) with
  | error e c => simp [hc] at h
  | ok u c =>
    rw [hc] at hp h
    have hwf : c.graph.WellFormed := hp.wf
    obtain ⟨hok, hwf', hacyclic, htopo⟩ := finalize_acyclic hwf (hwf.finalize_ok_iff.1 h)
    exact ⟨finalized_of_ok hok, hwf', hacyclic, htopo⟩

structure Stuck (p q : Pipeline) : Prop where
  modules : q.modules = p.modules
  moduleNames : q.moduleNames = p.moduleNames
  compiled : q.compiled = true
  pending : Pending q.graph
  cyclic : ¬ q.graph.Acyclic

theorem ready_of_compiled (hc : q.compiled = true) (hp : Pending q.graph) :
    q.ready = ({ q with graph := q.graph.finalize.1 }, q.graph.finalize.2) := by
  simp [ready, hc, hp.unsorted]

theorem Stuck.computes (h : Stuck p q) {q' : Pipeline} {o : Outcome} (hc : Computes libm q q' o) :
    ∃ e, o = .threw e ∧ q' = { q with graph := q.graph.finalize.1 } := by
  obtain ⟨⟨e, hfail⟩, -, -⟩ := finalize_cyclic h.pending h.cyclic
  have hready := ready_of_compiled h.compiled h.pending
  rw [hfail] at hready
  cases hc with
  | threw hr =>
    obtain ⟨rfl, -⟩ := Prod.mk.inj (hr.symm.trans hready)
    exact ⟨_, rfl, rfl⟩
  | empty hr _ => cases hr.symm.trans hready
  | ran hr _ _ => cases hr.symm.trans hready

theorem Stuck.refuses (h : Stuck p q) : Refuses libm q := by
  refine ⟨?_, fun q' o hc => ?_⟩
  · obtain ⟨⟨e, hfail⟩, -, -⟩ := finalize_cyclic h.pending h.cyclic
    have hready := ready_of_compiled h.compiled h.pending
    rw [hfail] at hready
    exact ⟨_, e, .threw hready⟩
  · obtain ⟨e, rfl, rfl⟩ := h.computes hc
    exact ⟨e, rfl, rfl⟩

theorem stuck_compile {e : Exn} (he : p.compile.2 = .error e) (ha : ¬ p.compile.1.graph.Acyclic)
    (hm : q.modules = p.modules) (hn : q.moduleNames = p.moduleNames) : Stuck p q.compile.1 := by
  obtain ⟨hm', hn', hc, -⟩ := compile_config q
  obtain ⟨hg, -⟩ := compile_congr hm hn
  exact ⟨hm'.trans hm, hn'.trans hn, hc, hg ▸ compile_failed he, hg ▸ ha⟩

theorem Stuck.call {e : Exn} (he : p.compile.2 = .error e) (ha : ¬ p.compile.1.graph.Acyclic)
    (h : Stuck p q) {q' : Pipeline} (hc : Call libm q q') : Stuck p q' := by
  cases hc with
  | compile => exact stuck_compile he ha h.modules h.moduleNames
  | feed table => exact ⟨h.modules, h.moduleNames, h.compiled, h.pending, h.cyclic⟩
  | compute hcomp =>
    obtain ⟨_, -, rfl⟩ := h.computes hcomp
    obtain ⟨-, hp, hcyc⟩ := finalize_cyclic h.pending h.cyclic
    exact ⟨h.modules, h.moduleNames, h.compiled, hp, hcyc⟩
  | fetch => exact h

theorem returns_of_acyclic (hc : q.compiled = true) (hp : Pending q.graph)
    (ha : q.graph.Acyclic) : ∃ q' ran, Computes libm q q' (.returned ran) := by
  obtain ⟨hok, hwf, hacyclic, htopo⟩ := finalize_acyclic hp.wf ha
  have hready := ready_of_compiled hc hp
  rw [hok] at hready
  by_cases hn : q.graph.finalize.1.nodes = []
  · exact ⟨_, _, .empty hready hn⟩
  · exact ⟨_, _, .ran hready hn (execute_execution hwf hacyclic htopo q.store)⟩

theorem failed_compile_refuses_iff {e : Exn} (he : p.compile.2 = .error e) (libm : Libm) :
    (∀ q, ReflTransGen (Call libm) p.compile.1 q → Refuses libm q) ↔
      ¬ p.compile.1.graph.Acyclic := by
  obtain ⟨hm, hn, hc, -⟩ := compile_config p
  constructor
  · intro h ha
    obtain ⟨q', ran, hret⟩ := returns_of_acyclic hc (compile_failed he) ha
    obtain ⟨_, hthrew, -⟩ := (h _ .refl).2 _ _ hret
    cases hthrew
  · intro ha q hq
    have hstuck : Stuck p q := run_invariant (fun _ _ h hcall => h.call he ha hcall)
      (stuck_compile he ha rfl rfl) hq
    exact hstuck.refuses

def register (ms : List Module) : Pipeline :=
  ⟨ms, ms.map (·.name), .empty, false, .empty⟩

def crossed : List Module :=
  [⟨"a", [], [], [], [⟨"identity", ["v"], ["u"], []⟩]⟩,
    ⟨"b", [], [], [], [⟨"identity", ["u"], ["v"], []⟩]⟩]

theorem failed_compile_refuses_crossed :
    Refuses unusedLibm ((register crossed).compile.1.feed [("u", .scalar .float64 [1])]) := by
  obtain ⟨e, he⟩ : ∃ e, (register crossed).compile.2 = .error e := ⟨_, rfl⟩
  have hforth : (register crossed).compile.1.graph.Edge "a/op0" "b/op0" := by decide
  have hback : (register crossed).compile.1.graph.Edge "b/op0" "a/op0" := by decide
  have hcyclic : ¬ (register crossed).compile.1.graph.Acyclic := by
    intro ha
    exact ha "a/op0" (.tail (.single hforth) hback)
  exact (failed_compile_refuses_iff he unusedLibm).2 hcyclic _ (.single (.feed _))

-- compile() throws at the second op; the next compute() runs the first one and returns.
def halfKnown : Module :=
  ⟨"m", [], [], [], [⟨"identity", ["x"], ["y"], []⟩, ⟨"nosuchop", ["y"], ["z"], []⟩]⟩

theorem failed_compile_runs : (∃ e, (register [halfKnown]).compile.2 = .error e) ∧
    ∃ q, Computes unusedLibm (register [halfKnown]).compile.1 q (.returned [0]) := by
  obtain ⟨e, he⟩ : ∃ e, (register [halfKnown]).compile.2 = .error e := ⟨_, rfl⟩
  have hp := compile_failed he
  have hc : (register [halfKnown]).compile.1.compiled = true := rfl
  have hok : (register [halfKnown]).compile.1.graph.finalize.2 = .ok () := by rfl
  obtain ⟨-, hwf, hacyclic, htopo⟩ := finalize_acyclic hp.wf (hp.wf.finalize_ok_iff.1 hok)
  have hready := ready_of_compiled hc hp
  rw [hok] at hready
  refine ⟨⟨e, he⟩, _, .ran hready (by decide) (execute_execution hwf hacyclic htopo _)⟩

end Pipeline

end Lark.Column.Biz
