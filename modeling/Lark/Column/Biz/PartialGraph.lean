import Lark.Column.Biz.CompilerSpec

namespace Lark.Column.Biz

open Lark.Base Lark.Column.Exec CompileM

section Graph

variable {g g' : ComputeGraph} {a b : String}

structure Pending (g : ComputeGraph) : Prop where
  wf : g.WellFormed
  unsorted : g.finalized = false

theorem Pending.addNode {id module : String} {op : NodeOp} (h : Pending g) :
    Pending (g.addNode id module op) := ⟨h.wf.addNode, rfl⟩

theorem pending_addDependency (h : Pending g) (ha : g.addDependency a b = .ok g') :
    Pending g' := by
  refine ⟨h.wf.addDependency ha, ?_⟩
  obtain ⟨node, dep, -, -, rfl⟩ := ComputeGraph.addDependency_inv ha
  rfl

theorem pending_replacePlaceholder (h : Pending g) (ha : g.replacePlaceholder a b = .ok g') :
    Pending g' := by
  refine ⟨h.wf.replacePlaceholder ha, ?_⟩
  obtain ⟨placeholder, real, -, -, ⟨-, rfl⟩ | ⟨-, rfl⟩⟩ := ComputeGraph.replacePlaceholder_inv ha
  · exact h.unsorted
  · rfl

end Graph

abbrev GraphOk (c : Compiler) : Prop := Pending c.graph

inductive Added (ms : List Module) : String → NodeOp → Prop
  | placeholder (module output : String) : Added ms module (.placeholder output)
  | anchor (module col : String) : Added ms module (.op ⟨"identity", [col], [col], .identity⟩)
  | op {m : Module} {spec : OpSpec} {o : Op} (hm : m ∈ ms) (hs : spec ∈ m.ops)
    (ho : createOp (remapSpec m.name spec) = .ok o) : Added ms m.name (.op o)

structure WiringClosed (ms : List Module) (P : ComputeGraph → Prop) : Prop where
  addNode : ∀ g id module op, Added ms module op → P g → P (g.addNode id module op)
  addDependency : ∀ g g' a b, P g → g.addDependency a b = .ok g' → P g'
  replacePlaceholder : ∀ g g' a b, P g → g.replacePlaceholder a b = .ok g' → P g'

theorem pending_closed (ms : List Module) : WiringClosed ms Pending where
  addNode _ _ _ _ _ h := h.addNode
  addDependency _ _ _ _ h := pending_addDependency h
  replacePlaceholder _ _ _ _ h := pending_replacePlaceholder h

abbrev OnGraph (P : ComputeGraph → Prop) (c : Compiler) : Prop := P c.graph

section Primitives

variable {P : ComputeGraph → Prop} {I : Compiler → Prop}

theorem keeps_orThrow {α : Type} (x : Except Exn α) : Keeps I (orThrow x) := by
  cases x with
  | ok a => exact .pure a
  | error e => exact .throw e

theorem keeps_orThrow_bind {α β : Type} {x : Except Exn α} {f : α → CompileM β}
    (hf : ∀ a, x = .ok a → Keeps I (f a)) : Keeps I (orThrow x >>= f) := by
  cases x with
  | ok a => exact fun s h => hf a rfl s h
  | error e => exact fun _ h => h

theorem keeps_same {f : Compiler → Compiler} (hf : ∀ c, (f c).graph = c.graph) :
    Keeps (OnGraph P) (modify f : CompileM Unit) := by
  refine .modify fun c h => ?_
  rw [OnGraph, hf]
  exact h

theorem onGraph_eq (f : ComputeGraph → Except Exn ComputeGraph) (c : Compiler) :
    onGraph f c = match f c.graph with
      | .ok g => .ok () { c with graph := g }
      | .error e => .error e c := by
  have hget : (get : CompileM Compiler) c = .ok c c := rfl
  unfold onGraph
  rw [bind_ok hget]
  cases f c.graph <;> rfl

theorem keeps_onGraph {f : ComputeGraph → Except Exn ComputeGraph}
    (hf : ∀ g g', P g → f g = .ok g' → P g') : Keeps (OnGraph P) (onGraph f) := by
  intro c h
  rw [onGraph_eq]
  cases hg : f c.graph with
  | error e => exact h
  | ok g => exact hf _ g h hg

structure WiringSteps (I : Compiler → Prop) : Prop where
  dependency : ∀ id dep, Keeps I (addDependency id dep)
  column : ∀ col, Keeps I (ensureColumnPlaceholder col)
  producer : ∀ col nodeId name, Keeps I (registerProducer col nodeId name)
  tail : ∀ dep, Keeps I (tailPlaceholder dep)

variable (hI : WiringSteps I)

include hI

theorem keeps_resolveInputDep (col : String) (locals : Locals) (name : String) :
    Keeps I (resolveInputDep col locals name) := by
  unfold resolveInputDep
  split
  · exact .pure _
  · refine .bind .get fun c => ?_
    split
    · exact .pure _
    · refine .bind .get fun c' => ?_
      split
      · split_ifs
        · exact .bind (hI.column _) fun _ => .pure _
        · exact .pure _
      · exact .pure _

theorem keeps_wireInput (nodeId col : String) (locals : Locals) (name : String) :
    Keeps I (wireInput nodeId col locals name) := by
  refine .bind (keeps_resolveInputDep hI _ _ _) fun dep => ?_
  split
  · exact hI.dependency _ _
  · exact .pure _

theorem keeps_compileWrite (m : Module) (nodeId : String) (locals : Locals) (out : String) :
    Keeps I (compileWrite m nodeId locals out) := by
  unfold compileWrite
  split_ifs
  · exact .pure _
  · exact .throw _
  · exact .bind (hI.producer _ _ _) fun _ => .pure _

theorem keeps_wireDep (nodeId dep : String) : Keeps I (wireDep nodeId dep) := by
  refine .bind .get fun c => ?_
  split
  · split_ifs
    · exact .forM fun _ _ => hI.dependency _ _
    · exact .pure _
    · exact hI.dependency _ _
  · exact .bind (hI.tail _) fun _ => hI.dependency _ _

theorem keeps_wireFirst (firstNode nodeId : String) : Keeps I (wireFirst firstNode nodeId) := by
  unfold wireFirst
  split_ifs
  · exact .pure _
  · exact hI.dependency _ _

end Primitives

section Keeps

variable {P : ComputeGraph → Prop}

theorem keeps_collectColumn (m : Module) (col : String) :
    Keeps (OnGraph P) (collectColumn m col) := by
  unfold collectColumn
  split_ifs
  · exact .pure _
  · refine .bind .get fun c => ?_
    split
    · exact keeps_same fun _ => rfl
    · split_ifs
      · exact .throw _
      · exact .pure _

theorem keeps_checkDependencies (modules : List Module) (names : List String) :
    Keeps (OnGraph P) (checkDependencies modules names) := by
  refine .forM fun m _ => .forM fun dep _ => ?_
  split_ifs
  · exact .pure _
  · exact .throw _

variable {ms : List Module} (hP : WiringClosed ms P)

include hP

theorem keeps_addNode (id : String) {module : String} {op : NodeOp} (h : Added ms module op) :
    Keeps (OnGraph P) (addNode id module op) :=
  .modify fun _ hg => hP.addNode _ _ _ _ h hg

theorem keeps_addPlaceholder (output id : String) :
    Keeps (OnGraph P) (addPlaceholder output id) :=
  .modify fun _ h => hP.addNode _ _ _ _ (.placeholder _ _) h

theorem keeps_replacePlaceholder (id real : String) :
    Keeps (OnGraph P) (replacePlaceholder id real) :=
  keeps_onGraph fun g g' => hP.replacePlaceholder g g' id real

theorem wiringSteps_onGraph : WiringSteps (OnGraph P) where
  dependency id dep := keeps_onGraph fun g g' => hP.addDependency g g' id dep
  column col := by
    refine .bind .get fun c => ?_
    split
    · exact .pure _
    · refine .bind (keeps_addPlaceholder hP _ _) fun _ => ?_
      exact .bind (keeps_same fun _ => rfl) fun _ => .pure _
  producer col nodeId name := by
    refine .bind (keeps_same fun _ => rfl) fun _ => .bind .get fun c => ?_
    split
    · exact .bind (keeps_replacePlaceholder hP _ _) fun _ => keeps_same fun _ => rfl
    · exact .pure _
  tail dep := by
    refine .bind .get fun c => ?_
    split
    · exact .pure _
    · refine .bind (keeps_same fun _ => rfl) fun _ => ?_
      exact .bind (keeps_addPlaceholder hP _ _) fun _ => .pure _

theorem keeps_addAnchor (m : Module) (nodeId col : String) (fr : Frame) :
    Keeps (OnGraph P) (addAnchor m nodeId col fr) := by
  refine keeps_orThrow_bind fun o ho => ?_
  obtain rfl := Except.ok.inj ho
  exact .bind (keeps_addNode hP _ (.anchor _ _)) fun _ => .pure _

theorem keeps_compileInput (m : Module) (fr : Frame) (port : String) :
    Keeps (OnGraph P) (compileInput m fr port) :=
  .bind (keeps_addAnchor hP _ _ _ _) fun _ =>
    .bind (keeps_wireInput (wiringSteps_onGraph hP) _ _ _ _) fun _ => .pure _

theorem keeps_compileOp {m : Module} (hm : m ∈ ms) (fr : Frame) {entry : OpSpec × Nat}
    (hs : entry.1 ∈ m.ops) : Keeps (OnGraph P) (compileOp m fr entry) :=
  keeps_orThrow_bind fun _ ho => .bind (keeps_addNode hP _ (.op hm hs ho)) fun _ =>
    .bind (.forM fun _ _ => keeps_wireInput (wiringSteps_onGraph hP) _ _ _ _) fun _ =>
      .bind (.foldlM (fun _ _ _ => keeps_compileWrite (wiringSteps_onGraph hP) _ _ _ _) _)
        fun _ => .pure _

theorem keeps_compileOutput (m : Module) (fr : Frame) (port : String) :
    Keeps (OnGraph P) (compileOutput m fr port) := by
  unfold compileOutput
  split
  · exact .pure _
  · refine .bind (keeps_addAnchor hP _ _ _ _) fun _ => ?_
    refine .bind (keeps_wireInput (wiringSteps_onGraph hP) _ _ _ _) fun _ => ?_
    exact .bind ((wiringSteps_onGraph hP).producer _ _ _) fun _ => .pure _

theorem keeps_compileNoop (m : Module) (fr : Frame) : Keeps (OnGraph P) (compileNoop m fr) := by
  unfold compileNoop
  split_ifs
  · exact .bind (keeps_addAnchor hP _ _ _ _) fun _ => .pure _
  · exact .pure _

theorem keeps_compileDep (m : Module) (fr : Frame) (dep : String) :
    Keeps (OnGraph P) (compileDep m fr dep) := by
  have hsteps := wiringSteps_onGraph hP
  refine .bind (keeps_addAnchor hP _ _ _ _) fun fr' => .bind (keeps_wireDep hsteps _ _) fun _ => ?_
  exact .bind (keeps_wireFirst hsteps _ _) fun _ => .pure _

theorem keeps_replaceTail (m : Module) (fr : Frame) : Keeps (OnGraph P) (replaceTail m fr) := by
  refine .bind .get fun c => ?_
  split
  · split_ifs
    · exact .pure _
    · exact .bind (keeps_replacePlaceholder hP _ _) fun _ => keeps_same fun _ => rfl
  · exact .pure _

theorem keeps_compileModule {m : Module} (hm : m ∈ ms) :
    Keeps (OnGraph P) (compileModule m) :=
  .bind (.foldlM (fun _ _ _ => keeps_compileInput hP _ _ _) _) fun _ =>
    .bind (.foldlM (fun _ _ h => keeps_compileOp hP hm _ (List.fst_mem_of_mem_zipIdx h)) _) fun _ =>
      .bind (.foldlM (fun _ _ _ => keeps_compileOutput hP _ _ _) _) fun _ =>
        .bind (keeps_compileNoop hP _ _) fun _ =>
          .bind (.foldlM (fun _ _ _ => keeps_compileDep hP _ _ _) _) fun _ =>
            .bind (keeps_replaceTail hP _ _) fun _ => keeps_same fun _ => rfl

theorem keeps_compile (names : List String) : Keeps (OnGraph P) (compile ms names) := by
  refine .bind (keeps_same fun _ => rfl) fun _ => ?_
  refine .bind (.forM fun m _ => .forM fun col _ => keeps_collectColumn m col) fun _ => ?_
  refine .bind (keeps_checkDependencies _ _) fun _ => ?_
  refine .bind (.forM fun _ hm => keeps_compileModule hP hm) fun _ => .bind .get fun c => ?_
  split_ifs
  · exact .throw _
  · exact .pure _

omit hP

theorem pending_compile (modules : List Module) (names : List String) :
    Pending (finalState (compile modules names (.start .empty))).graph := by
  have hkeeps : Keeps GraphOk (compile modules names) :=
    keeps_compile (pending_closed modules) names
  exact hkeeps _ ⟨ComputeGraph.wellFormed_empty, rfl⟩

theorem build_wellFormed {ms : List Module} {g : ComputeGraph} (h : build ms = .ok g) :
    g.WellFormed ∧ g.Acyclic ∧ g.topo = g.sorted := by
  have hwf := (pending_compile ms (ms.map (·.name))).wf
  unfold build at h
  cases hc : compileAll ms with
  | error e c => simp [hc] at h
  | ok a c =>
    simp only [hc] at h
    rw [← compileAll, hc] at hwf
    have hwf' : c.graph.WellFormed := hwf
    have hfin := ComputeGraph.wellFormed_finalize hwf'
    have hok := hwf'.finalize_ok_iff
    unfold ComputeGraph.finalize at h hok hfin
    split_ifs at h hok hfin with hlen
    obtain rfl := Except.ok.inj h
    exact ⟨hfin, hok.1 rfl, rfl⟩

end Keeps

end Lark.Column.Biz
