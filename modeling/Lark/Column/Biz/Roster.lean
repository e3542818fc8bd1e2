import Lark.Column.Exec.NodeIds
import Lark.Column.Biz.PartialGraph

namespace Lark.Column.Biz

open Lark.Base Lark.Column.Exec CompileM

abbrev entryOf (k : NodeKey) : String × String := (k.id, k.module)

def Stands (idOf : String → String) (slots : String → Option String) (g : ComputeGraph) : Prop :=
  ∀ x id, slots x = some id → id = idOf x ∧ g.StandIn id

abbrev PlainId (id : String) : Prop := startsWithAt id = false

structure Listed (keys : List NodeKey) (s : Compiler) : Prop where
  reals : s.graph.reals = keys.map entryOf
  entered : s.graph.Entered PlainId
  column : Stands placeholderId s.columnPlaceholder s.graph
  tail : Stands tailPlaceholderId s.moduleTailPlaceholder s.graph

structure Roster (keys : List NodeKey) (s : Compiler) : Prop where
  wf : s.graph.WellFormed
  listed : (s.graph.Lost fun o => o.isPlaceholder = true) ∨ Listed keys s

namespace Stands

variable {idOf : String → String} {slots : String → Option String} {g g' : ComputeGraph}

theorem mono (h : Stands idOf slots g) (hg : ∀ id, g.StandIn id → g'.StandIn id) :
    Stands idOf slots g' := fun x id hx => (h x id hx).imp_right (hg id)

theorem closed (h : Stands idOf slots g) (x : String) :
    Stands idOf (Function.update slots x none) g := by
  intro y id hy
  by_cases hyx : y = x
  · subst hyx
    simp at hy
  · exact h y id (by simpa [hyx] using hy)

theorem opened (h : Stands idOf slots g) {x : String} (hx : g.StandIn (idOf x)) :
    Stands idOf (Function.update slots x (some (idOf x))) g := by
  intro y id hy
  by_cases hyx : y = x
  · subst hyx
    obtain rfl : idOf y = id := by simpa using hy
    exact ⟨rfl, hx⟩
  · exact h y id (by simpa [hyx] using hy)

theorem rewired (hwf : g.WellFormed) (h : Stands idOf slots g) {a : String}
    {placeholder real : Nat} (ha : g.byId a = some placeholder)
    (hne : ∀ x id, slots x = some id → idOf x ≠ a) :
    Stands idOf slots (g.rewired a placeholder real) := by
  intro x id hx
  obtain ⟨rfl, hs⟩ := h x id hx
  exact ⟨rfl, hs.rewired hwf ha (hne x _ hx)⟩

theorem rewired_closed (hwf : g.WellFormed) (h : Stands idOf slots g)
    (hinj : Function.Injective idOf) {x : String} {placeholder real : Nat}
    (ha : g.byId (idOf x) = some placeholder) :
    Stands idOf (Function.update slots x none) (g.rewired (idOf x) placeholder real) := by
  refine (h.closed x).rewired hwf ha fun y id hy he => ?_
  obtain rfl := hinj he
  simp at hy

end Stands

section Steps

variable {keys : List NodeKey} {s : Compiler}

theorem Roster.same {s' : Compiler} (h : Roster keys s) (hg : s'.graph = s.graph)
    (hc : s'.columnPlaceholder = s.columnPlaceholder)
    (ht : s'.moduleTailPlaceholder = s.moduleTailPlaceholder) : Roster keys s' := by
  refine ⟨hg ▸ h.wf, h.listed.imp (fun hl => hg ▸ hl) fun hl => ?_⟩
  refine ⟨hg ▸ hl.reals, hg ▸ hl.entered, ?_, ?_⟩
  · rw [hc, hg]
    exact hl.column
  · rw [ht, hg]
    exact hl.tail

theorem Roster.addNode (h : Roster keys s) (k : NodeKey) (o : Op) :
    Roster (keys ++ [k]) { s with graph := s.graph.addNode k.id k.module (.op o) } := by
  refine ⟨h.wf.addNode, h.listed.imp (fun hl => hl.addNode h.wf) fun hl => ?_⟩
  refine ⟨?_, hl.entered.addNode, ?_, ?_⟩
  · rw [ComputeGraph.reals_addNode_op, hl.reals, List.map_append]
    rfl
  · exact hl.column.mono fun id hs => hs.addNode
  · exact hl.tail.mono fun id hs => hs.addNode

theorem Roster.addDependency (h : Roster keys s) {a b : String} {g : ComputeGraph}
    (hd : s.graph.addDependency a b = .ok g) : Roster keys { s with graph := g } := by
  refine ⟨h.wf.addDependency hd, h.listed.imp (fun hl => hl.addDependency hd) fun hl => ?_⟩
  refine ⟨(ComputeGraph.reals_addDependency hd).trans hl.reals, hl.entered.addDependency hd, ?_, ?_⟩
  · exact hl.column.mono fun id hs => hs.addDependency hd
  · exact hl.tail.mono fun id hs => hs.addDependency hd

theorem Roster.replaceColumn (h : Roster keys s) {col id real : String}
    (hc : s.columnPlaceholder col = some id) {g : ComputeGraph}
    (hr : s.graph.replacePlaceholder id real = .ok g) :
    Roster keys { s with
      graph := g
      columnPlaceholder := Function.update s.columnPlaceholder col none } := by
  refine ⟨h.wf.replacePlaceholder hr, ?_⟩
  refine h.listed.imp (fun hl => hl.replacePlaceholder h.wf hr) fun hl => ?_
  obtain ⟨rfl, n, hn, hp, hby⟩ := hl.column col id hc
  obtain ⟨placeholder, real, ha, -, ⟨-, rfl⟩ | ⟨-, rfl⟩⟩ :=
    ComputeGraph.replacePlaceholder_inv hr
  · exact ⟨hl.reals, hl.entered, hl.column.closed col, hl.tail⟩
  · have hptr : n.ptr = placeholder := Option.some.inj (hby.symm.trans ha)
    have hat : ¬ PlainId (placeholderId col) := by simp [startsWithAt_placeholderId]
    refine ⟨(ComputeGraph.reals_rewired h.wf hn hp hptr).trans hl.reals, hl.entered.rewired hat,
      ?_, ?_⟩
    · exact hl.column.rewired_closed h.wf (fun _ _ he => placeholderId_inj he) ha
    · exact hl.tail.rewired h.wf ha fun d _ _ => (placeholderId_ne_tail col d).symm

theorem Roster.replaceTail (h : Roster keys s) {dep id real : String}
    (hd : s.moduleTailPlaceholder dep = some id) {g : ComputeGraph}
    (hr : s.graph.replacePlaceholder id real = .ok g) :
    Roster keys { s with
      graph := g
      moduleTailPlaceholder := Function.update s.moduleTailPlaceholder dep none } := by
  refine ⟨h.wf.replacePlaceholder hr, ?_⟩
  refine h.listed.imp (fun hl => hl.replacePlaceholder h.wf hr) fun hl => ?_
  obtain ⟨rfl, n, hn, hp, hby⟩ := hl.tail dep id hd
  obtain ⟨placeholder, real, ha, -, ⟨-, rfl⟩ | ⟨-, rfl⟩⟩ :=
    ComputeGraph.replacePlaceholder_inv hr
  · exact ⟨hl.reals, hl.entered, hl.column, hl.tail.closed dep⟩
  · have hptr : n.ptr = placeholder := Option.some.inj (hby.symm.trans ha)
    have hat : ¬ PlainId (tailPlaceholderId dep) := by simp [startsWithAt_tailPlaceholderId]
    refine ⟨(ComputeGraph.reals_rewired h.wf hn hp hptr).trans hl.reals, hl.entered.rewired hat,
      ?_, ?_⟩
    · exact hl.column.rewired h.wf ha fun c _ _ => placeholderId_ne_tail c dep
    · exact hl.tail.rewired_closed h.wf (fun _ _ he => tailPlaceholderId_inj he) ha

theorem Roster.columnStandsIn (h : Roster keys s) (col : String) :
    Roster keys { s with
      graph := s.graph.addPlaceholder col (placeholderId col)
      columnPlaceholder :=
        Function.update s.columnPlaceholder col (some (placeholderId col)) } := by
  refine ⟨h.wf.addNode, ?_⟩
  cases hby : s.graph.byId (placeholderId col) with
  | some p => exact .inl (ComputeGraph.lost_addPlaceholder h.wf hby)
  | none =>
    refine h.listed.imp (fun hl => hl.addNode h.wf) fun hl => ⟨?_, hl.entered.addNode, ?_, ?_⟩
    · exact (ComputeGraph.reals_addPlaceholder _ _ _).trans hl.reals
    · refine (hl.column.mono fun id hs => ?_).opened (ComputeGraph.standIn_addPlaceholder hby)
      exact hs.addNode
    · exact hl.tail.mono fun id hs => hs.addNode

theorem Roster.tailStandsIn (h : Roster keys s) (dep : String) :
    Roster keys { s with
      graph := s.graph.addPlaceholder ("@tail:" ++ dep) (tailPlaceholderId dep)
      moduleTailPlaceholder :=
        Function.update s.moduleTailPlaceholder dep (some (tailPlaceholderId dep)) } := by
  refine ⟨h.wf.addNode, ?_⟩
  cases hby : s.graph.byId (tailPlaceholderId dep) with
  | some p => exact .inl (ComputeGraph.lost_addPlaceholder h.wf hby)
  | none =>
    refine h.listed.imp (fun hl => hl.addNode h.wf) fun hl => ⟨?_, hl.entered.addNode, ?_, ?_⟩
    · exact (ComputeGraph.reals_addPlaceholder _ _ _).trans hl.reals
    · exact hl.column.mono fun id hs => hs.addNode
    · refine (hl.tail.mono fun id hs => ?_).opened (ComputeGraph.standIn_addPlaceholder hby)
      exact hs.addNode

end Steps

section Keeps

variable {keys : List NodeKey}

theorem keeps_get_bind {α : Type} {f : Compiler → CompileM α} {I : Compiler → Prop}
    (h : ∀ s, I s → I (finalState (f s s))) : Keeps I (get >>= f) := by
  intro s hs
  have hget : (get : CompileM Compiler) s = .ok s s := rfl
  rw [bind_ok hget]
  exact h s hs

theorem roster_addDependency (id dep : String) :
    Keeps (Roster keys) (CompileM.addDependency id dep) := by
  intro s h
  rw [CompileM.addDependency, onGraph_eq]
  cases hg : s.graph.addDependency id dep with
  | error e => exact h
  | ok g => exact h.addDependency hg

theorem roster_ensureColumnPlaceholder (col : String) :
    Keeps (Roster keys) (ensureColumnPlaceholder col) := by
  refine keeps_get_bind fun s h => ?_
  cases hc : s.columnPlaceholder col with
  | some id =>
    simp only
    exact h
  | none =>
    simp only
    exact h.columnStandsIn col

theorem roster_registerProducer (col nodeId name : String) :
    Keeps (Roster keys) (registerProducer col nodeId name) := by
  refine .bind (.modify fun s h => h.same rfl rfl rfl) fun _ => keeps_get_bind fun s h => ?_
  cases hc : s.columnPlaceholder col with
  | none =>
    simp only
    exact h
  | some id =>
    simp only [CompileM.replacePlaceholder]
    cases hg : s.graph.replacePlaceholder id nodeId with
    | error e =>
      have hthrow : onGraph (·.replacePlaceholder id nodeId) s = .error e s := by
        rw [onGraph_eq, hg]
      rw [bind_error hthrow]
      exact h
    | ok g =>
      have hok : onGraph (·.replacePlaceholder id nodeId) s = .ok () { s with graph := g } := by
        rw [onGraph_eq, hg]
      rw [bind_ok hok]
      exact h.replaceColumn hc hg

theorem roster_replaceTail (m : Module) (fr : Frame) :
    Keeps (Roster keys) (Biz.replaceTail m fr) := by
  refine keeps_get_bind fun s h => ?_
  cases hd : s.moduleTailPlaceholder m.name with
  | none =>
    simp only
    exact h
  | some id =>
    simp only [CompileM.replacePlaceholder]
    split_ifs
    · exact h
    · cases hg : s.graph.replacePlaceholder id fr.tail with
      | error e =>
        have hthrow : onGraph (·.replacePlaceholder id fr.tail) s = .error e s := by
          rw [onGraph_eq, hg]
        rw [bind_error hthrow]
        exact h
      | ok g =>
        have hok : onGraph (·.replacePlaceholder id fr.tail) s = .ok () { s with graph := g } := by
          rw [onGraph_eq, hg]
        rw [bind_ok hok]
        exact h.replaceTail hd hg

theorem roster_tailPlaceholder (dep : String) : Keeps (Roster keys) (tailPlaceholder dep) := by
  refine keeps_get_bind fun s h => ?_
  cases hd : s.moduleTailPlaceholder dep with
  | some id =>
    simp only
    exact h
  | none =>
    simp only
    exact h.tailStandsIn dep

theorem roster_steps : WiringSteps (Roster keys) where
  dependency := roster_addDependency
  column := roster_ensureColumnPlaceholder
  producer := roster_registerProducer
  tail := roster_tailPlaceholder

end Keeps

section Plan

variable {ms : List Module} {m : Module} {fr : Frame} {s : Compiler} {w : Ledger × Draft}
  {keys : List NodeKey}

structure Underway (fr : Frame) (s : Compiler) (w : Ledger × Draft) : Prop where
  roster : Roster w.1.nodes s
  locals : LocalsOf w.2.locals fr.locals
  tail : fr.tail = (w.2.tail.map NodeKey.id).getD ""

theorem addNode_yields (h : Roster keys s) (k : NodeKey) (o : Op) :
    Yields (CompileM.addNode k.id k.module (.op o)) s fun _ s' => Roster (keys ++ [k]) s' := by
  intro a s' he
  cases he
  exact h.addNode k o

theorem addAnchor_yields (h : Roster keys s) {k : NodeKey} (hk : k.module = m.name)
    (col : String) :
    Yields (Biz.addAnchor m k.id col fr) s fun fr' s' =>
      fr' = anchorFrame fr k.id ∧ Roster (keys ++ [k]) s' := by
  unfold Biz.addAnchor
  rw [createOp_identity]
  refine Yields.bind (Q := fun _ s' => s' = s) (Yields.pure rfl) fun o s' he => ?_
  subst he
  rw [← hk]
  exact (addNode_yields h k _).bind fun _ s'' h'' => Yields.pure ⟨rfl, h''⟩

theorem wireInput_yields (h : Roster keys s) (nodeId col : String) (locals : Locals)
    (name : String) :
    Yields (Biz.wireInput nodeId col locals name) s fun _ s' => Roster keys s' :=
  (keeps_wireInput roster_steps nodeId col locals name).yields h

theorem Underway.input (h : Underway fr s w) (port : String) :
    Yields (compileInput m fr port) s fun fr' s' =>
      Underway fr' s' (Ledger.planInput ms m w port) := by
  unfold compileInput
  refine (addAnchor_yields h.roster (k := .input m.name port) rfl port).bind fun fr₁ s₁ h₁ => ?_
  obtain ⟨rfl, hroster⟩ := h₁
  refine (wireInput_yields hroster _ port _ m.name).bind fun _ s₂ h₂ => Yields.pure ⟨h₂, ?_, h.tail⟩
  exact h.locals.update port (.input m.name port)

theorem Underway.op (h : Underway fr s w) (entry : OpSpec × Nat) :
    Yields (compileOp m fr entry) s fun fr' s' => Underway fr' s' (Ledger.planOp ms m w entry) := by
  have hlocals : Yields (compileOp m fr entry) s fun fr' _ =>
      LocalsOf (w.2.op m entry).locals fr'.locals :=
    (compileOp_locals h.locals).mono fun _ _ h' => h'.2
  refine hlocals.and (R := fun fr' s' => Roster (Ledger.planOp ms m w entry).1.nodes s' ∧
    fr'.tail = opId m.name entry.2) ?_ |>.mono fun fr' s' h' => ⟨h'.2.1, h'.1, h'.2.2⟩
  rw [planOp_nodes]
  unfold compileOp
  refine ((keeps_orThrow _).yields h.roster).bind fun o s₁ h₁ => ?_
  refine (addNode_yields h₁ (.op m.name entry.2) o).bind fun _ s₂ h₂ => ?_
  have hsteps : WiringSteps (Roster (w.1.nodes ++ [.op m.name entry.2])) := roster_steps
  have hreads (cols : List String) : Keeps (Roster (w.1.nodes ++ [.op m.name entry.2]))
      (cols.forM fun col => wireInput (opId m.name entry.2) col fr.locals m.name) :=
    Keeps.forM fun col _ => keeps_wireInput hsteps _ col _ _
  refine ((hreads _).yields h₂).bind fun _ s₃ h₃ => ?_
  have hwrites (outs : List String) (locals : Locals) :
      Keeps (Roster (w.1.nodes ++ [.op m.name entry.2]))
        (outs.foldlM (compileWrite m (opId m.name entry.2)) locals) :=
    Keeps.foldlM (fun locals out _ => keeps_compileWrite hsteps m _ locals out) locals
  exact ((hwrites _ _).yields h₃).bind fun _ s₄ h₄ => Yields.pure ⟨h₄, rfl⟩

theorem planOutput_nodes (w : Ledger × Draft) (port : String) :
    (Ledger.planOutput ms m w port).1.nodes =
      w.1.nodes ++ if (w.2.locals port).isSome then [] else [.output m.name port] := by
  unfold Ledger.planOutput
  cases w.2.locals port with
  | some k => simp
  | none => rfl

theorem Underway.output (h : Underway fr s w) (port : String) :
    Yields (compileOutput m fr port) s fun fr' s' =>
      Underway fr' s' (Ledger.planOutput ms m w port) := by
  have hport := h.locals port
  unfold compileOutput
  cases hl : w.2.locals port with
  | some k =>
    rw [hl, Option.map_some] at hport
    simp only [hport]
    refine Yields.pure ⟨?_, ?_, ?_⟩
    · simpa [planOutput_nodes, hl] using h.roster
    · simpa [planOutput_snd, Draft.output, hl] using h.locals
    · simpa [planOutput_snd, Draft.output, hl] using h.tail
  | none =>
    rw [hl, Option.map_none] at hport
    simp only [hport]
    refine (addAnchor_yields h.roster (k := .output m.name port) rfl port).bind fun fr₁ s₁ h₁ => ?_
    obtain ⟨rfl, hroster⟩ := h₁
    refine (wireInput_yields hroster _ port _ m.name).bind fun _ s₂ h₂ => ?_
    refine ((roster_registerProducer port _ m.name).yields h₂).bind fun _ s₃ h₃ => ?_
    refine Yields.pure ⟨?_, ?_, ?_⟩
    · simpa [planOutput_nodes, hl] using h₃
    · simp only [planOutput_snd, Draft.output, hl]
      exact h.locals.update port (.output m.name port)
    · simp [planOutput_snd, Draft.output, hl, NodeKey.id]

theorem planNoop_nodes (w : Ledger × Draft) :
    (Ledger.planNoop m w).1.nodes =
      w.1.nodes ++ if w.2.tail.isSome then [] else [.noop m.name] := by
  unfold Ledger.planNoop
  cases w.2.tail with
  | some k => simp
  | none => rfl

theorem Underway.noop (h : Underway fr s w) :
    Yields (compileNoop m fr) s fun _ s' => Roster (Ledger.planNoop m w).1.nodes s' := by
  have htail := h.tail
  rw [planNoop_nodes]
  unfold compileNoop
  cases ht : w.2.tail with
  | some k =>
    rw [ht, Option.map_some, Option.getD_some] at htail
    simp only [htail, k.id_isEmpty, Bool.false_eq_true, if_false]
    refine Yields.pure ?_
    simpa using h.roster
  | none =>
    rw [ht, Option.map_none, Option.getD_none] at htail
    have hempty : fr.tail.isEmpty = true := by
      rw [htail]
      rfl
    simp only [hempty, if_true]
    have hmodule : (NodeKey.noop m.name).module = m.name := rfl
    exact (addAnchor_yields h.roster hmodule _).bind fun fr₁ s₁ h₁ => Yields.pure h₁.2

theorem planDep_nodes (w : Ledger × Draft) (name : String) :
    (Ledger.planDep ms m w name).1.nodes = w.1.nodes ++ [.dep m.name name] := by
  simp only [Ledger.planDep]
  split_ifs <;> rfl

theorem compileDep_yields (h : Roster w.1.nodes s) (name : String) :
    Yields (compileDep m fr name) s fun _ s' => Roster (Ledger.planDep ms m w name).1.nodes s' := by
  rw [planDep_nodes]
  unfold compileDep
  refine (addAnchor_yields h (k := .dep m.name name) rfl m.name).bind fun fr₁ s₁ h₁ => ?_
  refine ((keeps_wireDep roster_steps _ _).yields h₁.2).bind fun _ s₂ h₂ => ?_
  exact ((keeps_wireFirst roster_steps _ _).yields h₂).bind fun _ s₃ h₃ => Yields.pure h₃

theorem compileModule_yields {L : Ledger} (h : Roster L.nodes s) :
    Yields (compileModule m) s fun _ s' => Roster (L.planModule ms m).nodes s' := by
  unfold compileModule
  have hstart : Underway .start s (L, .empty) := ⟨h, fun _ => rfl, rfl⟩
  refine Yields.bind (Q := fun fr s' => Underway fr s' (L.afterInputs ms m)) ?_ fun fr₁ s₁ h₁ => ?_
  · refine (Yields.foldlM (P := fun _ _ => True) hstart fun fr w s port _ hw => ?_).mono
      fun _ _ h' => h'.1
    exact (hw.input port).mono fun _ _ h' => ⟨trivial, h'⟩
  refine Yields.bind (Q := fun fr s' => Underway fr s' (L.afterOps ms m)) ?_ fun fr₂ s₂ h₂ => ?_
  · refine (Yields.foldlM (P := fun _ _ => True) h₁ fun fr w s entry _ hw => ?_).mono
      fun _ _ h' => h'.1
    exact (hw.op entry).mono fun _ _ h' => ⟨trivial, h'⟩
  refine Yields.bind (Q := fun fr s' => Underway fr s' (L.afterOutputs ms m)) ?_ fun fr₃ s₃ h₃ => ?_
  · refine (Yields.foldlM (P := fun _ _ => True) h₂ fun fr w s port _ hw => ?_).mono
      fun _ _ h' => h'.1
    exact (hw.output port).mono fun _ _ h' => ⟨trivial, h'⟩
  refine h₃.noop.bind fun fr₄ s₄ h₄ => ?_
  refine Yields.bind (Q := fun _ s' => Roster (L.afterDeps ms m).1.nodes s') ?_ fun fr₅ s₅ h₅ => ?_
  · refine (Yields.foldlM (V := fun _ s (w : Ledger × Draft) => Roster w.1.nodes s)
      (P := fun _ _ => True) h₄ fun fr w s name _ hw => ?_).mono fun _ _ h' => h'.1
    exact (compileDep_yields hw name).mono fun _ _ h' => ⟨trivial, h'⟩
  refine ((roster_replaceTail m fr₅).yields h₅).bind fun _ s₆ h₆ => ?_
  intro a s' he
  cases he
  exact h₆.same rfl rfl rfl

theorem compile_listed {s : Compiler} (h : compileAll ms = .ok () s) :
    s.graph.WellFormed ∧ s.graph.hasPlaceholders = false ∧ Listed (ledger ms).nodes s := by
  obtain ⟨s₀, hp⟩ := compile_passed h
  have hstart : Roster Ledger.empty.nodes s₀ := by
    rw [hp.collected.rest]
    refine ⟨ComputeGraph.wellFormed_empty, .inr ⟨rfl, ?_, ?_, ?_⟩⟩
    · exact fun n hn => by cases hn
    · exact fun c id hc => by cases hc
    · exact fun d id hd => by cases hd
  have hloop : Yields (ms.forM compileModule) s₀ fun _ s' => Roster (ledger ms).nodes s' :=
    Yields.forM (V := fun s (L : Ledger) => Roster L.nodes s) hstart
      fun L s m _ hL => compileModule_yields hL
  have hend := hloop () s hp.modules
  refine ⟨hend.wf, hp.resolved, ?_⟩
  exact hend.listed.resolve_left (ComputeGraph.not_lost_of_resolved hp.resolved)

end Plan

section Keys

def Module.published (m : Module) : List String :=
  m.outputs.foldl
    (fun ports port =>
      if (m.draftOps.locals port).isSome ∨ port ∈ ports then ports else ports ++ [port]) []

def Module.keys (m : Module) : List NodeKey :=
  m.inputs.map (.input m.name) ++ (List.range m.ops.length).map (.op m.name) ++
    m.published.map (.output m.name) ++
    (if m.ops = [] ∧ m.published = [] then [.noop m.name] else []) ++
    m.dependencies.map (.dep m.name)

variable {ms : List Module} {m : Module}

structure Published (m : Module) (base : List NodeKey) (w : Ledger × Draft) (ports : List String) :
    Prop where
  nodes : w.1.nodes = base ++ ports.map (.output m.name)
  bound : ∀ c, (w.2.locals c).isSome ↔ (m.draftOps.locals c).isSome ∨ c ∈ ports
  tail : w.2.tail.isSome ↔ m.ops ≠ [] ∨ ports ≠ []

theorem Published.output {base : List NodeKey} {w : Ledger × Draft} {ports : List String}
    (h : Published m base w ports) (port : String) :
    Published m base (Ledger.planOutput ms m w port)
      (if (m.draftOps.locals port).isSome ∨ port ∈ ports then ports else ports ++ [port]) := by
  have hport := h.bound port
  cases hl : w.2.locals port with
  | some k =>
    rw [if_pos (hport.1 (by simp [hl]))]
    refine ⟨?_, ?_, ?_⟩
    · simpa [planOutput_nodes, hl] using h.nodes
    · simpa [planOutput_snd, Draft.output, hl] using h.bound
    · simpa [planOutput_snd, Draft.output, hl] using h.tail
  | none =>
    have hnew : ¬ ((m.draftOps.locals port).isSome ∨ port ∈ ports) := by
      rw [← hport, hl]
      exact Bool.false_ne_true
    rw [if_neg hnew]
    refine ⟨?_, fun c => ?_, ?_⟩
    · simp [planOutput_nodes, hl, h.nodes]
    · by_cases hc : c = port
      · subst hc
        simp [planOutput_snd, Draft.output, hl]
      · simp [planOutput_snd, Draft.output, hl, hc, h.bound c]
    · simp [planOutput_snd, Draft.output, hl]

theorem draftOps_tail (m : Module) : m.draftOps.tail.isSome ↔ m.ops ≠ [] := by
  unfold Module.draftOps
  rcases List.eq_nil_or_concat m.ops with hops | ⟨ops, spec, hops⟩
  · have hnone : m.draftInputs.tail = none :=
      foldl_rule (P := fun d : Draft => d.tail = none) m.inputs rfl fun _ _ h => h
    simp [hops, hnone]
  · simp [hops, List.zipIdx_append, Draft.op]

theorem planDeps_nodes (m : Module) (names : List String) (w : Ledger × Draft) :
    (names.foldl (Ledger.planDep ms m) w).1.nodes = w.1.nodes ++ names.map (.dep m.name) := by
  induction names generalizing w with
  | nil => simp
  | cons name names ih =>
    rw [List.foldl_cons, ih, planDep_nodes, List.map_cons, List.append_assoc]
    rfl

theorem published_afterOutputs (m : Module) (L : Ledger) :
    Published m (L.afterOps ms m).1.nodes (L.afterOutputs ms m) m.published := by
  have hstart : Published m (L.afterOps ms m).1.nodes (L.afterOps ms m) [] := by
    refine ⟨by simp, ?_, ?_⟩
    · simp [afterOps_snd]
    · simp [afterOps_snd, draftOps_tail]
  exact List.foldl_rel hstart fun port _ w ports h => h.output port

theorem afterOps_nodes (m : Module) (L : Ledger) :
    (L.afterOps ms m).1.nodes = L.nodes ++ (m.inputs.map (.input m.name) ++
      (List.range m.ops.length).map (.op m.name)) := by
  rw [Ledger.afterOps, planOps_nodes, Ledger.afterInputs, planInputs_nodes, List.append_assoc]
  congr 2
  rw [List.range_eq_range', ← List.zipIdx_map_snd 0 m.ops, List.map_map]
  rfl

theorem planModule_nodes (m : Module) (L : Ledger) :
    (L.planModule ms m).nodes = L.nodes ++ m.keys := by
  have houts : Published m (L.afterOps ms m).1.nodes (L.afterOutputs ms m) m.published :=
    published_afterOutputs m L
  have htail : (L.afterOutputs ms m).2.tail.isSome = true ↔ ¬ (m.ops = [] ∧ m.published = []) := by
    rw [houts.tail, ← not_and_or]
  change (L.afterDeps ms m).1.nodes = _
  rw [Ledger.afterDeps, planDeps_nodes, Ledger.afterNoop, planNoop_nodes, houts.nodes,
    afterOps_nodes, Module.keys]
  simp only [htail, ite_not, List.append_assoc]

theorem ledger_nodes (ms : List Module) : (ledger ms).nodes = ms.flatMap Module.keys := by
  have hall (pre : List Module) (L : Ledger) :
      (pre.foldl (fun L m => L.planModule ms m) L).nodes = L.nodes ++ pre.flatMap Module.keys := by
    induction pre generalizing L with
    | nil => simp
    | cons m pre ih =>
      rw [List.foldl_cons, ih, planModule_nodes, List.flatMap_cons, List.append_assoc]
  exact hall ms .empty

theorem build_inv {g : ComputeGraph} (h : build ms = .ok g) :
    ∃ s topo flag, compileAll ms = .ok () s ∧
      g = { s.graph with topo := topo, finalized := flag } := by
  unfold build at h
  cases hc : compileAll ms with
  | error e s => simp [hc] at h
  | ok a s =>
    simp only [hc] at h
    unfold ComputeGraph.finalize at h
    split_ifs at h with hlen
    cases h
    exact ⟨s, _, _, rfl, rfl⟩

theorem build_nodes {g : ComputeGraph} (h : build ms = .ok g) :
    g.nodes.map (fun n => (n.id, n.module)) = (ms.flatMap Module.keys).map entryOf := by
  obtain ⟨s, topo, flag, hs, rfl⟩ := build_inv h
  obtain ⟨-, hres, hl⟩ := compile_listed hs
  rw [← ledger_nodes, ← hl.reals, ComputeGraph.reals_of_resolved hres]

theorem build_ids {g : ComputeGraph} (h : build ms = .ok g) :
    g.nodes.map (·.id) = (ms.flatMap Module.keys).map NodeKey.id := by
  have hids := congrArg (List.map Prod.fst) (build_nodes h)
  rwa [List.map_map, List.map_map] at hids

theorem mem_keys_module {k : NodeKey} (hk : k ∈ m.keys) : k.module = m.name := by
  simp only [Module.keys, List.mem_append, List.mem_map] at hk
  rcases hk with (((⟨p, -, rfl⟩ | ⟨i, -, rfl⟩) | ⟨p, -, rfl⟩) | hk) | ⟨d, -, rfl⟩
  · rfl
  · rfl
  · rfl
  · split_ifs at hk
    · obtain rfl := List.mem_singleton.1 hk
      rfl
    · cases hk
  · rfl

theorem build_identified_iff (hplain : ∀ m ∈ ms, startsWithAt m.name = false) {g : ComputeGraph}
    (h : build ms = .ok g) :
    g.IdsIdentify ↔ ((ms.flatMap Module.keys).map NodeKey.id).Nodup := by
  have hids := build_ids h
  rw [← hids]
  obtain ⟨s, topo, flag, hs, rfl⟩ := build_inv h
  obtain ⟨hwf, -, hl⟩ := compile_listed hs
  have hq (n : ComputeNode) (hn : n ∈ s.graph.nodes) : PlainId n.id := by
    have hid : n.id ∈ (ms.flatMap Module.keys).map NodeKey.id := hids ▸ List.mem_map_of_mem hn
    obtain ⟨k, hk, hkid⟩ := List.mem_map.1 hid
    obtain ⟨m, hm, hkm⟩ := List.mem_flatMap.1 hk
    rw [PlainId, ← hkid]
    refine NodeKey.id_plain ?_
    rw [NodeKey.Plain, mem_keys_module hkm]
    exact hplain m hm
  have hiff := hl.entered.identified_iff hwf hq
  exact ⟨fun hi => hiff.1 ⟨hi.found, hi.entries, hi.distinct⟩, fun hn =>
    have hi := hiff.2 hn
    ⟨hi.found, hi.entries, hi.distinct⟩⟩

end Keys

section Repeats

variable {ms : List Module} {m : Module} {k k' : NodeKey}

def NodeKey.tag : NodeKey → List Char
  | .input _ p => "@in:".toList ++ p.toList
  | .op _ k => "op".toList ++ Nat.toDigits 10 k
  | .output _ p => "@out:".toList ++ p.toList
  | .noop _ => "@noop".toList
  | .dep _ d => "@dep:".toList ++ d.toList

section Tags

variable (name port : String)

@[simp] theorem NodeKey.tag_input :
    (NodeKey.input name port).tag = "@in:".toList ++ port.toList := rfl

@[simp] theorem NodeKey.tag_op (i : Nat) :
    (NodeKey.op name i).tag = "op".toList ++ Nat.toDigits 10 i := rfl

@[simp] theorem NodeKey.tag_output :
    (NodeKey.output name port).tag = "@out:".toList ++ port.toList := rfl

@[simp] theorem NodeKey.tag_noop : (NodeKey.noop name).tag = "@noop".toList := rfl

@[simp] theorem NodeKey.tag_dep :
    (NodeKey.dep name port).tag = "@dep:".toList ++ port.toList := rfl

end Tags

theorem NodeKey.id_tag (k : NodeKey) : k.id.toList = k.module.toList ++ '/' :: k.tag := by
  cases k <;> simp [id, inputId, opId, outputId, noopId, depId, module, String.toList_append]

theorem toDigits_inj {a b : Nat} (h : Nat.toDigits 10 a = Nat.toDigits 10 b) : a = b := by
  rw [← Nat.ofDigitChars_ten_toDigits (n := a), h, Nat.ofDigitChars_ten_toDigits]

theorem NodeKey.tag_inj (hm : k.module = k'.module) (ht : k.tag = k'.tag) : k = k' := by
  cases k <;> cases k' <;> simp [module, String.toList_inj] at hm ht ⊢
  case op.op => exact ⟨hm, toDigits_inj ht⟩
  all_goals first | exact hm | exact ⟨hm, ht⟩

theorem takeWhile_slash {xs : List Char} (h : '/' ∉ xs) (rest : List Char) :
    (xs ++ '/' :: rest).takeWhile (· ≠ '/') = xs := by
  rw [List.takeWhile_append_of_pos, List.takeWhile_cons_of_neg, List.append_nil]
  · simp
  · intro c hc
    have hne : c ≠ '/' := fun he => h (he ▸ hc)
    simpa using hne

theorem NodeKey.id_inj (hk : '/' ∉ k.module.toList) (hk' : '/' ∉ k'.module.toList)
    (h : k.id = k'.id) : k = k' := by
  have hlist := congrArg String.toList h
  rw [k.id_tag, k'.id_tag] at hlist
  have hmod := congrArg (List.takeWhile (· ≠ '/')) hlist
  rw [takeWhile_slash hk, takeWhile_slash hk'] at hmod
  rw [hmod] at hlist
  have htag := List.append_cancel_left hlist
  exact NodeKey.tag_inj (String.toList_inj.1 hmod) (List.cons.inj htag).2

theorem published_nodup (m : Module) : m.published.Nodup := by
  refine foldl_rule (P := fun ports : List String => ports.Nodup) m.outputs List.nodup_nil
    fun ports port h => ?_
  split_ifs with hb
  · exact h
  · rw [not_or] at hb
    exact List.nodup_append.2 ⟨h, List.nodup_singleton _,
      fun x hx y hy hxy => hb.2 (List.mem_singleton.1 hy ▸ hxy ▸ hx)⟩

theorem keys_nodup_iff (m : Module) : m.keys.Nodup ↔ m.inputs.Nodup ∧ m.dependencies.Nodup := by
  have hin : Function.Injective (NodeKey.input m.name) := fun a b h => by cases h; rfl
  have hop : Function.Injective (NodeKey.op m.name) := fun a b h => by cases h; rfl
  have hout : Function.Injective (NodeKey.output m.name) := fun a b h => by cases h; rfl
  have hdep : Function.Injective (NodeKey.dep m.name) := fun a b h => by cases h; rfl
  have hnoop : (if m.ops = [] ∧ m.published = [] then [NodeKey.noop m.name] else []).Nodup := by
    split_ifs <;> simp
  have hmem (x : NodeKey) (hx : x ∈ if m.ops = [] ∧ m.published = [] then
      [NodeKey.noop m.name] else []) : x = .noop m.name := by
    split_ifs at hx
    · exact List.mem_singleton.1 hx
    · cases hx
  have hapart (k : NodeKey) : (k ∈ m.inputs.map (.input m.name) → ∃ p, k = .input m.name p) ∧
      (k ∈ (List.range m.ops.length).map (.op m.name) → ∃ i, k = .op m.name i) ∧
      (k ∈ m.published.map (.output m.name) → ∃ p, k = .output m.name p) ∧
      (k ∈ m.dependencies.map (.dep m.name) → ∃ d, k = .dep m.name d) := by
    refine ⟨?_, ?_, ?_, ?_⟩
    all_goals
      intro hk
      obtain ⟨x, -, rfl⟩ := List.mem_map.1 hk
      exact ⟨x, rfl⟩
  simp only [Module.keys, List.nodup_append, List.nodup_map_iff hin, List.nodup_map_iff hop,
    List.nodup_map_iff hout, List.nodup_map_iff hdep, List.nodup_range, published_nodup, hnoop]
  constructor
  · rintro ⟨⟨⟨⟨hi, -⟩, -⟩, -⟩, hd, -⟩
    exact ⟨hi, hd⟩
  · rintro ⟨hi, hd⟩
    refine ⟨⟨⟨⟨hi, trivial, ?_⟩, trivial, ?_⟩, trivial, ?_⟩, hd, ?_⟩
    all_goals
      intro a ha b hb
      have hka := hapart a
      have hkb := hapart b
      have hna := hmem a
      have hnb := hmem b
      grind

theorem keys_ids_nodup_iff (hnames : (ms.map (·.name)).Nodup)
    (hslash : ∀ m ∈ ms, '/' ∉ m.name.toList) :
    ((ms.flatMap Module.keys).map NodeKey.id).Nodup ↔
      ∀ m ∈ ms, m.inputs.Nodup ∧ m.dependencies.Nodup := by
  have hfree (k : NodeKey) (hk : k ∈ ms.flatMap Module.keys) : '/' ∉ k.module.toList := by
    obtain ⟨m, hm, hkm⟩ := List.mem_flatMap.1 hk
    rw [mem_keys_module hkm]
    exact hslash m hm
  have hids : ((ms.flatMap Module.keys).map NodeKey.id).Nodup ↔ (ms.flatMap Module.keys).Nodup :=
    ⟨List.Nodup.of_map _, List.Nodup.map_on fun a ha b hb he =>
      NodeKey.id_inj (hfree a ha) (hfree b hb) he⟩
  have hapart : ms.Pairwise (Function.onFun List.Disjoint Module.keys) := by
    refine (List.pairwise_map.1 hnames).imp fun {m m'} hne k hk hk' => hne ?_
    rw [← mem_keys_module hk, ← mem_keys_module hk']
  rw [hids, List.nodup_flatMap]
  simp only [keys_nodup_iff, hapart, and_true]

theorem build_identified_iff_no_repeats (hn : Named ms) (hslash : ∀ m ∈ ms, '/' ∉ m.name.toList)
    {g : ComputeGraph} (h : build ms = .ok g) :
    g.IdsIdentify ↔ ∀ m ∈ ms, m.inputs.Nodup ∧ m.dependencies.Nodup :=
  (build_identified_iff hn.plain h).trans (keys_ids_nodup_iff hn.distinct hslash)

end Repeats

section NodeIds

def Called (g : ComputeGraph) : Prop := ∃ calls, ComputeGraph.empty.runCalls calls = g

theorem Called.call {g g' : ComputeGraph} (h : Called g) (call : WiringCall)
    (hg : call.run g = g') : Called g' := by
  obtain ⟨calls, rfl⟩ := h
  exact ⟨calls ++ [call], (ComputeGraph.runCalls_concat _ calls call).trans hg⟩

theorem runCalls_closed (ms : List Module) : WiringClosed ms Called where
  addNode g id module op _ h := h.call (.addNode id module op) rfl
  addDependency g g' a b h hd := by
    refine h.call (.addDependency a b) ?_
    rw [WiringCall.run, hd]
    rfl
  replacePlaceholder g g' a b h hr := by
    refine h.call (.replacePlaceholder a b) ?_
    rw [WiringCall.run, hr]
    rfl

theorem node_ids_identify_iff (calls : List WiringCall) (ms : List Module)
    (names : List String) :
    ((ComputeGraph.empty.runCalls calls).IdsIdentify ↔ ComputeGraph.empty.FreshCalls calls) ∧
    (∃ calls', ComputeGraph.empty.runCalls calls' =
      (finalState (compile ms names (.start .empty))).graph) ∧
    ∀ g, (∀ m ∈ ms, startsWithAt m.name = false) → build ms = .ok g →
      (g.IdsIdentify ↔ ((ms.flatMap Module.keys).map NodeKey.id).Nodup) := by
  refine ⟨?_, ?_, fun g hplain h => build_identified_iff hplain h⟩
  · exact ComputeGraph.identified_runCalls_iff ComputeGraph.wellFormed_empty
      ComputeGraph.identified_empty calls
  · exact keeps_compile (runCalls_closed ms) names (.start .empty) ⟨[], rfl⟩

def awaited : Module := ⟨"a", [], [], [], []⟩

def awaiting : Module := ⟨"b", [], [], ["a"], []⟩

-- `depends_on("a")` called twice: two nodes "b/@dep:a", of which Find knows one.
def awaitingTwice : Module := ⟨"b", [], [], ["a", "a"], []⟩

theorem node_ids_identify_awaiting : ∃ g, build [awaited, awaiting] = .ok g ∧ g.IdsIdentify :=
  ⟨_, rfl, ((node_ids_identify_iff [] [awaited, awaiting] []).2.2 _ (by decide) rfl).2 (by decide)⟩

theorem node_ids_repeated :
    ¬ (ComputeGraph.empty.runCalls
      [.addNode "n" "m" (.placeholder "x"), .addNode "n" "m" (.placeholder "y")]).IdsIdentify ∧
    ∃ g, build [awaited, awaitingTwice] = .ok g ∧ ¬ g.IdsIdentify := by
  refine ⟨fun h => ?_, _, rfl, fun h => ?_⟩
  · have hdistinct := h.distinct
    revert hdistinct
    decide
  · have hplain : ∀ m ∈ [awaited, awaitingTwice], startsWithAt m.name = false := by decide
    have hdistinct := (build_identified_iff hplain rfl).1 h
    revert hdistinct
    decide

end NodeIds

end Lark.Column.Biz
