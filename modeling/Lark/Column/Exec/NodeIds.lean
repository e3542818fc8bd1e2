import Lark.Base.Fold
import Lark.Column.Exec.ComputeGraph

namespace Lark.Column.Exec

open Lark.Base

inductive WiringCall where
  | addNode (id module : String) (op : NodeOp)
  | addPlaceholder (output id : String)
  | addDependency (id depId : String)
  | replacePlaceholder (placeholderId realId : String)

-- A call that throws leaves the graph as it was.
def kept (g : ComputeGraph) : Except Exn ComputeGraph → ComputeGraph
  | .ok g' => g'
  | .error _ => g

def WiringCall.run (g : ComputeGraph) : WiringCall → ComputeGraph
  | addNode id module op => g.addNode id module op
  | addPlaceholder output id => g.addPlaceholder output id
  | addDependency id depId => kept g (g.addDependency id depId)
  | replacePlaceholder placeholderId realId => kept g (g.replacePlaceholder placeholderId realId)

def WiringCall.added : WiringCall → Option String
  | addNode id _ _ => some id
  | addPlaceholder _ id => some id
  | _ => none

namespace ComputeGraph

def runCalls (g : ComputeGraph) (calls : List WiringCall) : ComputeGraph :=
  calls.foldl WiringCall.run g

theorem runCalls_concat (g : ComputeGraph) (calls : List WiringCall) (call : WiringCall) :
    g.runCalls (calls ++ [call]) = call.run (g.runCalls calls) :=
  List.foldl_concat _ _ _ _

structure IdsIdentify (g : ComputeGraph) : Prop where
  found : ∀ n ∈ g.nodes, g.byId n.id = some n.ptr
  entries : ∀ id p, g.byId id = some p → ∃ n ∈ g.nodes, n.ptr = p
  distinct : (g.nodes.map (·.id)).Nodup

def Fresh (g : ComputeGraph) (call : WiringCall) : Prop :=
  ∀ id ∈ call.added, id ∉ g.nodes.map (·.id)

def FreshCalls (g : ComputeGraph) : List WiringCall → Prop
  | [] => True
  | call :: calls => g.Fresh call ∧ FreshCalls (call.run g) calls

def Lost (P : NodeOp → Prop) (g : ComputeGraph) : Prop :=
  ∃ n ∈ g.nodes, P n.op ∧ g.byId n.id ≠ some n.ptr

variable {g g' : ComputeGraph} {P : NodeOp → Prop} {id module : String} {op : NodeOp}

theorem WellFormed.identified_iff (h : g.WellFormed) :
    g.IdsIdentify ↔ ∀ n ∈ g.nodes, g.byId n.id = some n.ptr := by
  refine ⟨IdsIdentify.found, fun hfound => ⟨hfound, fun x p hx => ?_, ?_⟩⟩
  · obtain ⟨n, hn, hp, -⟩ := h.byId_mem x p hx
    exact ⟨n, hn, hp⟩
  · refine List.Nodup.map_on (fun n hn m hm he => ?_) (List.Nodup.of_map _ h.ptr_nodup)
    have hptr := (hfound n hn).symm.trans (he ▸ hfound m hm)
    exact h.node_eq hn hm (Option.some.inj hptr)

theorem WellFormed.not_identified_iff (h : g.WellFormed) :
    ¬ g.IdsIdentify ↔ g.Lost fun _ => True := by
  rw [h.identified_iff]
  simp [Lost]

theorem lost_of_core (hbyId : g'.byId = g.byId)
    (hcore : g'.nodes.map ComputeNode.core = g.nodes.map ComputeNode.core) (h : g.Lost P) :
    g'.Lost P := by
  obtain ⟨n, hn, hp, hne⟩ := h
  obtain ⟨n', hn', hptr, hid, -, hop⟩ := mem_of_core hcore hn
  refine ⟨n', hn', hop ▸ hp, ?_⟩
  rwa [hbyId, hid, hptr]

theorem Lost.addNode (hwf : g.WellFormed) (h : g.Lost P) : (g.addNode id module op).Lost P := by
  obtain ⟨n, hn, hp, hne⟩ := h
  refine ⟨n, List.mem_append_left _ hn, hp, fun hby => ?_⟩
  rcases byId_addNode_cases hby with hby | ⟨-, hptr, -⟩
  · exact hne hby
  · exact absurd hptr (hwf.ptr_lt n hn).ne

theorem Lost.rewired (hwf : g.WellFormed) (h : g.Lost P) {a : String} {placeholder real : Nat}
    (ha : g.byId a = some placeholder) : (g.rewired a placeholder real).Lost P := by
  obtain ⟨n, hn, hp, hne⟩ := h
  have hptr : n.ptr ≠ placeholder := by
    intro hptr
    obtain ⟨m, hm, hmp, hma⟩ := hwf.byId_mem a placeholder ha
    obtain rfl := hwf.node_eq hn hm (hptr.trans hmp.symm)
    exact hne (by rw [hma, ha, hmp])
  exact ⟨_, mem_rewired.2 ⟨n, hn, hptr, rfl⟩, hp, fun hby => hne (byId_rewired.1 hby).2⟩

theorem Lost.addDependency (h : g.Lost P) {a b : String} (hd : g.addDependency a b = .ok g') :
    g'.Lost P := by
  obtain ⟨node, dep, -, -, rfl⟩ := addDependency_inv hd
  exact lost_of_core (g := g) rfl (map_wire_core g.nodes) h

theorem Lost.replacePlaceholder (hwf : g.WellFormed) (h : g.Lost P) {a b : String}
    (hr : g.replacePlaceholder a b = .ok g') : g'.Lost P := by
  obtain ⟨placeholder, real, hp, -, ⟨-, rfl⟩ | ⟨-, rfl⟩⟩ := replacePlaceholder_inv hr
  · exact h
  · exact h.rewired hwf hp

theorem lost_addNode (hwf : g.WellFormed) (hid : id ∈ g.nodes.map (·.id)) (hp : P op)
    (hall : ∀ op', P op') : (g.addNode id module op).Lost P := by
  cases hby : g.byId id with
  | some p =>
    refine ⟨_, List.mem_append_right _ (List.mem_singleton_self _), hp, ?_⟩
    rw [byId_addNode_of_some hby]
    exact fun he => (hwf.byId_lt hby).ne (Option.some.inj he)
  | none =>
    obtain ⟨n, hn, rfl⟩ := List.mem_map.1 hid
    have hlost : g.Lost P := ⟨n, hn, hall _, by simp [hby]⟩
    exact hlost.addNode hwf

theorem IdsIdentify.addNode (hwf : g.WellFormed) (h : g.IdsIdentify)
    (hid : id ∉ g.nodes.map (·.id)) : (g.addNode id module op).IdsIdentify := by
  refine hwf.addNode.identified_iff.2 fun n hn => ?_
  rcases List.mem_append.1 hn with hn | hn
  · exact byId_addNode_of_some (h.found n hn)
  · obtain rfl := List.mem_singleton.1 hn
    have hnone : g.byId id = none := by
      cases hby : g.byId id with
      | none => rfl
      | some p =>
        obtain ⟨m, hm, -, hmid⟩ := hwf.byId_mem id p hby
        exact absurd (List.mem_map.2 ⟨m, hm, hmid⟩) hid
    simp [ComputeGraph.addNode, hnone]

theorem IdsIdentify.rewired (hwf : g.WellFormed) (h : g.IdsIdentify) {a b : String}
    {placeholder real : Nat} (ha : g.byId a = some placeholder) (hb : g.byId b = some real)
    (hne : placeholder ≠ real) : (g.rewired a placeholder real).IdsIdentify := by
  refine (wellFormed_rewired hwf ha hb hne).identified_iff.2 fun n hn => ?_
  obtain ⟨m, hm, hptr, rfl⟩ := mem_rewired.1 hn
  refine byId_rewired.2 ⟨fun (hid : m.id = a) => hptr ?_, h.found m hm⟩
  exact Option.some.inj ((hid ▸ h.found m hm).symm.trans ha)

section Calls

variable {call : WiringCall}

theorem kept_cases (g : ComputeGraph) (r : Except Exn ComputeGraph) :
    kept g r = g ∨ r = .ok (kept g r) := by
  cases r with
  | error e => exact .inl rfl
  | ok g' => exact .inr rfl

theorem run_keeps {I : ComputeGraph → Prop} (h : I g)
    (hadd : ∀ id module op, call.added = some id → I (g.addNode id module op))
    (hwire : ∀ g' a b, g.addDependency a b = .ok g' → I g')
    (hreplace : ∀ g' a b, g.replacePlaceholder a b = .ok g' → I g') : I (call.run g) := by
  cases call with
  | addNode id module op => exact hadd id module op rfl
  | addPlaceholder output id => exact hadd id _ _ rfl
  | addDependency a b =>
    rcases kept_cases g (g.addDependency a b) with hsame | hok
    · change I (kept g _)
      rwa [hsame]
    · exact hwire _ a b hok
  | replacePlaceholder a b =>
    rcases kept_cases g (g.replacePlaceholder a b) with hsame | hok
    · change I (kept g _)
      rwa [hsame]
    · exact hreplace _ a b hok

theorem WellFormed.run (h : g.WellFormed) (call : WiringCall) : (call.run g).WellFormed := by
  exact run_keeps h (fun _ _ _ _ => h.addNode) (fun _ _ _ hd => h.addDependency hd)
    fun _ _ _ hr => h.replacePlaceholder hr

theorem Lost.run (hwf : g.WellFormed) (h : g.Lost P) (call : WiringCall) :
    (call.run g).Lost P :=
  run_keeps h (fun _ _ _ _ => h.addNode hwf) (fun _ _ _ hd => h.addDependency hd)
    fun _ _ _ hr => h.replacePlaceholder hwf hr

theorem IdsIdentify.run (hwf : g.WellFormed) (h : g.IdsIdentify) (hf : g.Fresh call) :
    (call.run g).IdsIdentify := by
  refine run_keeps h (fun id _ _ hid => h.addNode hwf (hf id hid)) (fun g' a b hd => ?_)
    fun g' a b hr => ?_
  · obtain ⟨node, dep, hn, hdep, rfl⟩ := addDependency_inv hd
    refine (wellFormed_wire hwf hn hdep).identified_iff.2 fun n hn => ?_
    obtain ⟨m, hm, hptr, hid, -⟩ := mem_of_core (map_wire_core g.nodes).symm hn
    have hfound : g.byId m.id = some m.ptr := h.found m hm
    rwa [hid, hptr] at hfound
  · obtain ⟨placeholder, real, hp, hreal, ⟨-, rfl⟩ | ⟨hne, rfl⟩⟩ := replacePlaceholder_inv hr
    · exact h
    · exact h.rewired hwf hp hreal hne

theorem fresh_of_identified (hwf : g.WellFormed) (h : (call.run g).IdsIdentify) : g.Fresh call := by
  intro id hid hmem
  have hlost (module : String) (op : NodeOp) : (g.addNode id module op).Lost fun _ => True :=
    lost_addNode hwf hmem trivial fun _ => trivial
  refine (hwf.run call).not_identified_iff.2 ?_ h
  cases call with
  | addNode id' module op =>
    obtain rfl : id' = id := Option.some.inj hid
    exact hlost module op
  | addPlaceholder output id' =>
    obtain rfl : id' = id := Option.some.inj hid
    exact hlost "@placeholder" (.placeholder output)
  | addDependency a b => cases hid
  | replacePlaceholder a b => cases hid

theorem Lost.runCalls (hwf : g.WellFormed) (h : g.Lost P) (calls : List WiringCall) :
    (g.runCalls calls).Lost P := by
  induction calls generalizing g with
  | nil => exact h
  | cons call calls ih => exact ih (hwf.run call) (h.run hwf call)

theorem WellFormed.runCalls (h : g.WellFormed) (calls : List WiringCall) :
    (g.runCalls calls).WellFormed :=
  foldl_rule calls h fun _ call hg => hg.run call

theorem identified_runCalls_iff (hwf : g.WellFormed) (h : g.IdsIdentify)
    (calls : List WiringCall) : (g.runCalls calls).IdsIdentify ↔ g.FreshCalls calls := by
  induction calls generalizing g with
  | nil => exact ⟨fun _ => trivial, fun _ => h⟩
  | cons call calls ih =>
    by_cases hcall : (call.run g).IdsIdentify
    · refine (ih (hwf.run call) hcall).trans ⟨fun hf => ⟨?_, hf⟩, And.right⟩
      exact fresh_of_identified hwf hcall
    · have hlost := (hwf.run call).not_identified_iff.1 hcall
      have hend := hlost.runCalls (hwf.run call) calls
      refine ⟨fun hi => ?_, fun hf => absurd (h.run hwf hf.1) hcall⟩
      exact absurd hi (((hwf.run call).runCalls calls).not_identified_iff.2 hend)

theorem identified_empty : empty.IdsIdentify :=
  wellFormed_empty.identified_iff.2 fun n hn => by simp [empty] at hn

end Calls

section Reals

def reals (g : ComputeGraph) : List (String × String) :=
  (g.nodes.filter fun n => !n.op.isPlaceholder).map fun n => (n.id, n.module)

def StandIn (g : ComputeGraph) (id : String) : Prop :=
  ∃ n ∈ g.nodes, n.op.isPlaceholder = true ∧ g.byId id = some n.ptr

theorem reals_addNode_op (g : ComputeGraph) (id module : String) (o : Op) :
    (g.addNode id module (.op o)).reals = g.reals ++ [(id, module)] := by
  simp [reals, ComputeGraph.addNode, NodeOp.isPlaceholder]

theorem reals_addPlaceholder (g : ComputeGraph) (output id : String) :
    (g.addPlaceholder output id).reals = g.reals := by
  simp [reals, ComputeGraph.addPlaceholder, ComputeGraph.addNode, NodeOp.isPlaceholder]

theorem reals_addDependency {a b : String} (h : g.addDependency a b = .ok g') :
    g'.reals = g.reals := by
  obtain ⟨node, dep, -, -, rfl⟩ := addDependency_inv h
  simp only [reals]
  have hcore (n : ComputeNode) : (wire node dep n).op = n.op ∧ (wire node dep n).id = n.id ∧
      (wire node dep n).module = n.module := by
    have := wire_core node dep n
    simp only [ComputeNode.core, Prod.mk.injEq] at this
    exact ⟨this.2.2.2, this.2.1, this.2.2.1⟩
  rw [List.filter_map, List.map_map]
  simp only [Function.comp_def, hcore]

theorem reals_rewired (hwf : g.WellFormed) {a : String} {placeholder real : Nat} {n : ComputeNode}
    (hn : n ∈ g.nodes) (hp : n.op.isPlaceholder = true) (hptr : n.ptr = placeholder) :
    (g.rewired a placeholder real).reals = g.reals := by
  simp only [reals, rewired]
  rw [List.filter_filter, List.filter_map, List.map_map]
  refine congrArg₂ List.map rfl (List.filter_congr fun m hm => ?_)
  change (!m.op.isPlaceholder && decide (m.ptr ≠ placeholder)) = !m.op.isPlaceholder
  by_cases hmp : m.ptr = placeholder
  · rw [hwf.node_eq hm hn (hmp.trans hptr.symm), hp]
    rfl
  · simp [hmp]

theorem reals_of_resolved (h : g.hasPlaceholders = false) :
    g.reals = g.nodes.map fun n => (n.id, n.module) := by
  rw [reals, List.filter_eq_self.2 fun n hn => ?_]
  have hall := List.any_eq_false.1 h n hn
  simpa using hall

theorem StandIn.addNode (h : g.StandIn id) {x : String} : (g.addNode x module op).StandIn id := by
  obtain ⟨n, hn, hp, hby⟩ := h
  exact ⟨n, List.mem_append_left _ hn, hp, byId_addNode_of_some hby⟩

theorem standIn_addPlaceholder {output : String} (h : g.byId id = none) :
    (g.addPlaceholder output id).StandIn id := by
  refine ⟨_, List.mem_append_right _ (List.mem_singleton_self _), rfl, ?_⟩
  simp [ComputeGraph.addPlaceholder, ComputeGraph.addNode, h]

theorem StandIn.addDependency (h : g.StandIn id) {a b : String} (hd : g.addDependency a b = .ok g') :
    g'.StandIn id := by
  obtain ⟨node, dep, -, -, rfl⟩ := addDependency_inv hd
  obtain ⟨n, hn, hp, hby⟩ := h
  obtain ⟨n', hn', hptr, -, -, hop⟩ := mem_of_core (map_wire_core g.nodes) hn
  exact ⟨n', hn', hop ▸ hp, by rw [hptr]; exact hby⟩

theorem StandIn.rewired (hwf : g.WellFormed) (h : g.StandIn id) {a : String}
    {placeholder real : Nat} (ha : g.byId a = some placeholder) (hne : id ≠ a) :
    (g.rewired a placeholder real).StandIn id := by
  obtain ⟨n, hn, hp, hby⟩ := h
  have hptr : n.ptr ≠ placeholder := fun he => hne (hwf.byId_inj hby (he ▸ ha))
  exact ⟨_, mem_rewired.2 ⟨n, hn, hptr, rfl⟩, hp, byId_rewired.2 ⟨hne, hby⟩⟩

def Entered (Q : String → Prop) (g : ComputeGraph) : Prop := ∀ n ∈ g.nodes, Q n.id → g.Has n.id

variable {Q : String → Prop}

theorem Entered.addNode (h : g.Entered Q) : (g.addNode id module op).Entered Q := by
  intro n hn hq
  rcases List.mem_append.1 hn with hn | hn
  · exact has_addNode.2 (.inl (h n hn hq))
  · obtain rfl := List.mem_singleton.1 hn
    exact has_addNode.2 (.inr rfl)

theorem Entered.addDependency (h : g.Entered Q) {a b : String}
    (hd : g.addDependency a b = .ok g') : g'.Entered Q := by
  obtain ⟨node, dep, -, -, rfl⟩ := addDependency_inv hd
  intro n hn hq
  obtain ⟨m, hm, -, hid, -⟩ := mem_of_core (map_wire_core g.nodes).symm hn
  have hhas : g.Has m.id := h m hm (hid ▸ hq)
  rwa [hid] at hhas

theorem Entered.rewired (h : g.Entered Q) {a : String} {placeholder real : Nat} (ha : ¬ Q a) :
    (g.rewired a placeholder real).Entered Q := by
  intro n hn hq
  obtain ⟨m, hm, -, rfl⟩ := mem_rewired.1 hn
  obtain ⟨p, hp⟩ := h m hm hq
  exact ⟨p, byId_rewired.2 ⟨fun (he : m.id = a) => ha (he ▸ hq), hp⟩⟩

theorem Entered.identified_iff (hwf : g.WellFormed) (h : g.Entered Q)
    (hq : ∀ n ∈ g.nodes, Q n.id) : g.IdsIdentify ↔ (g.nodes.map (·.id)).Nodup := by
  refine ⟨IdsIdentify.distinct, fun hnodup => hwf.identified_iff.2 fun n hn => ?_⟩
  obtain ⟨p, hp⟩ := h n hn (hq n hn)
  obtain ⟨m, hm, rfl, hid⟩ := hwf.byId_mem _ p hp
  obtain rfl := List.inj_on_of_nodup_map hnodup hm hn hid
  exact hp

theorem lost_addPlaceholder (hwf : g.WellFormed) {output : String} {p : Nat}
    (h : g.byId id = some p) :
    (g.addPlaceholder output id).Lost fun o => o.isPlaceholder = true := by
  refine ⟨_, List.mem_append_right _ (List.mem_singleton_self _), rfl, ?_⟩
  rw [ComputeGraph.addPlaceholder, byId_addNode_of_some h]
  exact fun he => (hwf.byId_lt h).ne (Option.some.inj he)

theorem not_lost_of_resolved (h : g.hasPlaceholders = false) :
    ¬ g.Lost fun o => o.isPlaceholder = true := by
  rintro ⟨n, hn, hp, -⟩
  exact List.any_eq_false.1 h n hn hp

end Reals

end ComputeGraph

end Lark.Column.Exec
