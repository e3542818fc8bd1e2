import Lark.Dag.GraphBuilder
import Lark.Dag.NodeStats

namespace Lark.Dag.GraphBuilder

open Lark.Base Lark.Column.Monitor Lark.Coro.NodeExecutor Lark.Dag.NodeEvents Relation

section Positions

variable {registry : NodeRegistry} {defs : List NodeDef} {g : Graph}

theorem wire_ptrs (h : wire registry defs = .ok g) :
    g.nodes.map (·.ptr) = List.range g.nodes.length := by
  obtain ⟨g₀, hcreate, hwire⟩ := except_bind_eq_ok.1 h
  obtain ⟨hi, new, hnodes, hbare⟩ :=
    (create_passes indexed_empty (by simp [Graph.empty]) defs).result hcreate
  obtain rfl : g₀.nodes = new := by simpa [Graph.empty] using hnodes
  have hfound : ∀ n ∈ g₀.nodes, g₀.byId n.id = some n.ptr := fun n hn =>
    (hi.byId_iff _ _).2 ⟨n, hn, rfl, rfl⟩
  obtain ⟨nodes, hnodes, hg⟩ := except_map_eq_ok.1 hwire
  obtain ⟨hkeys, -⟩ := (wireNodes_passes (fun _ _ _ => hi.injective) hbare hfound).result hnodes
  have hptrs := congrArg (List.map Prod.snd) hkeys
  have hlen := congrArg List.length hkeys
  simp only [List.map_map, List.length_map] at hptrs hlen
  subst hg
  change nodes.map (·.ptr) = List.range nodes.length
  rw [hlen, ← hi.ptrs]
  exact hptrs

theorem build_wired (h : build registry defs = .ok g) :
    wire registry defs = .ok g ∧ Wired defs g ∧ Kahn.Acyclic g.depsOf := by
  obtain ⟨g', hwire, h⟩ := except_bind_eq_ok.1 h
  obtain ⟨_, hreject, hg⟩ := except_bind_eq_ok.1 h
  obtain rfl := Except.ok.inj hg
  have hw := (wire_passes registry defs).result hwire
  exact ⟨hwire, hw, (rejectCycles_passes hw.closed).ok_iff.1 ⟨(), hreject⟩⟩

theorem ptr_getElem (h : wire registry defs = .ok g) {i : Nat} (hi : i < g.nodes.length) :
    g.nodes[i].ptr = i := by
  have hget := congrArg (·[i]?) (wire_ptrs h)
  simpa [List.getElem?_range hi, List.getElem?_eq_getElem hi] using hget

end Positions

section Executor

variable (g : Graph)

def nodeAt (x : Fin g.nodes.length) : NodeEvents.Node := ⟨g.nodes[x].id, g.nodes[x].type⟩

-- Pointers are positions in a graph that `build` made.
def depsAt (x : Fin g.nodes.length) : List (Fin g.nodes.length) :=
  g.nodes[x].dependencies.filterMap fun p =>
    if h : p < g.nodes.length then some ⟨p, h⟩ else none

end Executor

section Runs

variable {registry : NodeRegistry} {defs : List NodeDef} {g : Graph}

theorem mem_depsAt {x d : Fin g.nodes.length} :
    d ∈ depsAt g x ↔ d.val ∈ g.nodes[x].dependencies := by
  simp only [depsAt, List.mem_filterMap]
  refine ⟨?_, fun h => ⟨d, h, dif_pos d.isLt⟩⟩
  rintro ⟨p, hp, hd⟩
  split_ifs at hd
  obtain rfl := Option.some.inj hd
  exact hp

theorem acyclic_depsAt (h : build registry defs = .ok g) : Acyclic (depsAt g) := by
  obtain ⟨hwire, hw, ha⟩ := build_wired h
  have hlift : ∀ {x y : Fin g.nodes.length}, TransGen (fun a b => a ∈ depsAt g b) x y →
      TransGen (Kahn.DependsOn g.depsOf) y.val x.val := by
    intro x y hxy
    refine (hxy.swap.lift Fin.val ?_)
    intro b a hab
    change a.val ∈ g.depsOf b.val
    have hb : g.nodes[b.val].ptr = b.val := ptr_getElem hwire b.isLt
    rw [← hb, hw.depsOf (List.getElem_mem b.isLt)]
    exact mem_depsAt.1 hab
  exact fun x hx => ha x.val (hlift hx)

theorem id_injective (h : build registry defs = .ok g) {x y : Fin g.nodes.length}
    (hxy : (nodeAt g x).id = (nodeAt g y).id) : x = y := by
  have hids : (g.nodes.map (·.id)).Nodup := by
    have hv := (build_passes registry defs).ok_iff.1 ⟨g, h⟩
    rw [((build_passes registry defs).result h).ids]
    exact hv.distinct
  have hget : (g.nodes.map (·.id))[x.val]? = (g.nodes.map (·.id))[y.val]? := by
    simpa [nodeAt] using hxy
  exact Fin.ext ((List.getElem?_inj (by simp) hids).1 hget)

theorem exists_position (h : build registry defs = .ok g) {d : NodeDef} (hd : d ∈ defs) :
    ∃ x : Fin g.nodes.length, (nodeAt g x).id = d.nodeId ∧ (nodeAt g x).type = d.type ∧
      ∀ dep ∈ d.deps, ∃ y ∈ depsAt g x, (nodeAt g y).id = dep := by
  obtain ⟨hwire, hw, -⟩ := build_wired h
  obtain ⟨n, hn, hnd⟩ := (partners hw.nodes).2 d hd
  obtain ⟨i, hi, rfl⟩ := List.getElem_of_mem hn
  refine ⟨⟨i, hi⟩, hnd.id, hnd.type, fun dep hdep => ?_⟩
  obtain ⟨p, hp, hfound⟩ := (partners hnd.dependencies).2 dep hdep
  obtain ⟨m, hm, he⟩ := List.mem_map.1 ((hw.byId_iff dep p).1 hfound)
  obtain ⟨j, hj, rfl⟩ := List.getElem_of_mem hm
  obtain ⟨hid, hptr⟩ := Prod.mk.inj he
  have hpj : j = p := (ptr_getElem hwire hj).symm.trans hptr
  exact ⟨⟨j, hj⟩, mem_depsAt.2 (hpj ▸ hp), hid⟩

section Told

variable {disabledIds : List String} {w : Nat} {s : Observed g.nodes.length w}

theorem subject_of_log {x : Fin g.nodes.length} {e : Event}
    (h : Told (depsAt g) (nodeAt g) disabledIds s) (hmem : (x, e) ∈ s.log) :
    e.subject = (nodeAt g x).id := by
  rcases entry_of_log h hmem with he | ⟨he, -⟩
  · have he : e = s.startEvent (nodeAt g) x := congrArg Prod.snd he
    rw [he]
    exact (nodeEvent_names _ _ _ _ _ _).2.2
  · have he : e = s.endEvent (nodeAt g) x := congrArg Prod.snd he
    rw [he, Observed.endEvent]
    split <;> exact (nodeEvent_names _ _ _ _ _ _).2.2

theorem events_of_id (hb : build registry defs = .ok g) (x : Fin g.nodes.length)
    (h : Told (depsAt g) (nodeAt g) disabledIds s) :
    (s.log.map (·.2)).filter (fun e => e.subject = (nodeAt g x).id) = s.eventsOf x := by
  rw [List.filter_map, Observed.eventsOf]
  refine congrArg _ (List.filter_congr fun entry hmem => ?_)
  have hsubject := subject_of_log h hmem
  simp only [Function.comp, hsubject, decide_eq_decide]
  exact ⟨fun he => id_injective hb he, fun he => by rw [he]⟩

theorem endEvent_action {n : Nat} {node : Fin n → NodeEvents.Node} {s : Observed n w} (x : Fin n) :
    (s.endEvent node x).action = match s.exec.status x with
      | .success => "node.success"
      | .fallback => "node.fallback"
      | .skipped => "node.skipped"
      | _ => "node.failure" := by
  unfold Observed.endEvent
  cases s.exec.status x <;> exact (nodeEvent_names _ _ _ _ _ _).2.1

def lifeOf (disabledIds : List String) (d : NodeDef) : List (List String) :=
  if disabledIds.contains d.nodeId then [["node.skipped"]]
  else [["node.start", "node.success"], ["node.start", "node.fallback"],
    ["node.start", "node.failure"]]

structure RunsDefs (defs : List NodeDef) (disabledIds : List String)
    (s : Observed g.nodes.length w) : Prop where
  told : ∀ d ∈ defs, ∃ life ∈ lifeOf disabledIds d,
    ((s.log.map (·.2)).filter (fun e => e.subject = d.nodeId)).map (·.action) <+: life ∧
      (s.exec.main = .returned →
        ((s.log.map (·.2)).filter (fun e => e.subject = d.nodeId)).map (·.action) = life)
  waits : ∀ d ∈ defs, disabledIds.contains d.nodeId = false → ∀ dep ∈ d.deps, ∀ l₁ e l₂,
    s.log.map (·.2) = l₁ ++ e :: l₂ → e.subject = d.nodeId →
      ∃ e' ∈ l₁, e'.subject = dep ∧ e'.action ≠ "node.start"
  collected : s.exec.main = .returned → ∃ records,
    ExecutionStats.empty.emitAll (s.log.map (·.2)) = .ok ⟨0, records⟩ ∧
      (records.map fun r => (r.id, r.type)).Perm (defs.map fun d => (d.nodeId, d.type)) ∧
      ∀ d ∈ defs, disabledIds.contains d.nodeId = false → ∀ dep ∈ d.deps,
        [dep, d.nodeId].Sublist (records.map (·.id)) ∧
        [dep, d.nodeId].Sublist ((ExecutionStats.sorted ⟨0, records⟩).map (·.id))
  drains : s.exec.main ≠ .idle → (∀ t, ¬ ObservedStep (depsAt g) (nodeAt g) disabledIds s t) →
    s.exec.main = .returned

theorem life_of_told (hf : Follows (depsAt g) (nodeAt g) disabledIds s) {d : NodeDef}
    {x : Fin g.nodes.length} (hx : (nodeAt g x).id = d.nodeId) :
    ∃ life ∈ lifeOf disabledIds d, (s.eventsOf x).map (·.action) <+: life ∧
      (s.exec.main = .returned → (s.eventsOf x).map (·.action) = life) := by
  have hstart : (s.startEvent (nodeAt g) x).action = "node.start" :=
    (nodeEvent_names _ _ _ _ _ _).2.1
  have haction := @endEvent_action w _ (nodeAt g) s x
  cases hd : disabledIds.contains d.nodeId with
  | true =>
    refine ⟨["node.skipped"], by rw [lifeOf, if_pos hd]; simp, ?_⟩
    rcases hf.skipped x (hx ▸ hd) with he | ⟨hs, he⟩
    · refine ⟨by simp [he], fun hr => ?_⟩
      have hmem := hf.returned hr x
      rw [he] at hmem
      cases hmem
    · rw [hs] at haction
      simp [he, haction]
  | false =>
    have hlife : lifeOf disabledIds d = [["node.start", "node.success"],
        ["node.start", "node.fallback"], ["node.start", "node.failure"]] :=
      if_neg (by rw [hd]; decide)
    rcases hf.ran x (hx ▸ hd) with he | he | ⟨hs, he⟩
    · refine ⟨["node.start", "node.success"], by simp [hlife], by simp [he], fun hr => ?_⟩
      have hmem := hf.returned hr x
      rw [he] at hmem
      cases hmem
    · refine ⟨["node.start", "node.success"], by simp [hlife], by simp [he, hstart], fun hr => ?_⟩
      have hmem := hf.returned hr x
      rw [he, List.mem_singleton] at hmem
      have hmark : isEnd (x, s.endEvent (nodeAt g) x) = true := isEnd_endEvent
      rw [hmem, isEnd_startEvent] at hmark
      cases hmark
    · refine ⟨["node.start", (s.endEvent (nodeAt g) x).action], ?_, by simp [he, hstart],
        fun _ => by simp [he, hstart]⟩
      rcases hs with hs | hs | hs
      all_goals
        rw [hs] at haction
        simp [hlife, haction]

theorem waits_of_told (hb : build registry defs = .ok g)
    (h : Told (depsAt g) (nodeAt g) disabledIds s) {d : NodeDef} (hd : d ∈ defs)
    (hrun : disabledIds.contains d.nodeId = false) {dep : String} (hdep : dep ∈ d.deps)
    {l₁ l₂ : List Event} {e : Event} (hl : s.log.map (·.2) = l₁ ++ e :: l₂)
    (he : e.subject = d.nodeId) : ∃ e' ∈ l₁, e'.subject = dep ∧ e'.action ≠ "node.start" := by
  obtain ⟨x, hid, -, hdeps⟩ := exists_position hb hd
  obtain ⟨y, hy, rfl⟩ := hdeps dep hdep
  obtain ⟨log₁, rest, hlog, rfl, hrest⟩ := List.map_eq_append_iff.1 hl
  obtain ⟨entry, log₂, rfl, rfl, -⟩ := List.map_eq_cons_iff.1 hrest
  have hsubject := subject_of_log h (x := entry.1) (e := entry.2) (by simp [hlog])
  obtain rfl : entry.1 = x := id_injective hb (hsubject.symm.trans (he.trans hid.symm))
  have hget : s.log[log₁.length]? = some (entry.1, entry.2) := by simp [hlog]
  obtain ⟨-, j, hj, hend⟩ := h.ordered _ _ _ hget (hid ▸ hrun) y hy
  have hmem : (y, s.endEvent (nodeAt g) y) ∈ log₁ := by
    refine List.mem_of_getElem? (i := j) ?_
    rwa [hlog, List.getElem?_append_left hj] at hend
  refine ⟨s.endEvent (nodeAt g) y, List.mem_map_of_mem hmem, ?_, ?_⟩
  · exact subject_of_log h (by simp [hlog, hmem])
  · have hmark : isEnd (y, s.endEvent (nodeAt g) y) = true := isEnd_endEvent
    simpa [isEnd] using hmark

theorem keys_of_build (hb : build registry defs = .ok g) :
    (List.finRange g.nodes.length).map (fun x => ((nodeAt g x).id, (nodeAt g x).type)) =
      defs.map fun d => (d.nodeId, d.type) := by
  have hnodes : g.nodes.map (fun n => (n.id, n.type)) = defs.map fun d => (d.nodeId, d.type) :=
    map_eq_map (build_wired hb).2.1.nodes fun n d hnd => by rw [hnd.id, hnd.type]
  have hget := congrArg (List.map fun n : Node => (n.id, n.type)) (List.map_get_finRange g.nodes)
  rw [← hnodes, ← hget, List.map_map]
  rfl

theorem collected_of_told (hb : build registry defs = .ok g)
    (h : Told (depsAt g) (nodeAt g) disabledIds s)
    (htimed : Timed (depsAt g) (nodeAt g) disabledIds s) (hr : s.exec.main = .returned) :
    ∃ records, ExecutionStats.empty.emitAll (s.log.map (·.2)) = .ok ⟨0, records⟩ ∧
      (records.map fun r => (r.id, r.type)).Perm (defs.map fun d => (d.nodeId, d.type)) ∧
      ∀ d ∈ defs, disabledIds.contains d.nodeId = false → ∀ dep ∈ d.deps,
        [dep, d.nodeId].Sublist (records.map (·.id)) ∧
        [dep, d.nodeId].Sublist ((ExecutionStats.sorted ⟨0, records⟩).map (·.id)) := by
  have hall := reported_of_returned h hr
  refine ⟨s.reportOrder.map (s.record (nodeAt g)), emitAll_run h htimed .empty, ?_, ?_⟩
  · rw [List.map_map, ← keys_of_build hb]
    exact (reportOrder_perm h hall).map _
  · intro d hd hrun dep hdep
    obtain ⟨x, hid, -, hdeps⟩ := exists_position hb hd
    obtain ⟨y, hy, rfl⟩ := hdeps dep hdep
    have hx : disabledIds.contains (nodeAt g x).id = false := hid ▸ hrun
    have hpair := (reportOrder_deps h (hall x) hx hy).map (s.record (nodeAt g))
    obtain ⟨he, hle⟩ := started_of_dep h htimed (hall x) hx hy
    have hsorted := sorted_pair hpair (by change (s.started y).toInt ≤ (s.started x).toInt; omega) 0
    rw [← hid]
    exact ⟨hpair.map NodeRunStats.id, hsorted.map NodeRunStats.id⟩

theorem built_graph_runs (hb : build registry defs = .ok g) (hw : 0 < w)
    (h : (observed (depsAt g) (nodeAt g) disabledIds w).Reachable s) :
    RunsDefs defs disabledIds s := by
  have ht := told_reachable h
  have hf := ht.follows
  refine ⟨fun d hd => ?_, fun d hd hrun dep hdep l₁ e l₂ => waits_of_told hb ht hd hrun hdep,
    collected_of_told hb ht (timed_reachable h), hf.drains (acyclic_depsAt hb) hw⟩
  obtain ⟨x, hx, -⟩ := exists_position hb hd
  rw [← hx, events_of_id hb x ht]
  exact life_of_told hf hx

def chainRegistry : NodeRegistry := ⟨(· ∈ ["Loader", "Ranker"])⟩

def chainDefs : List NodeDef := [.make "Loader" [] "load", .make "Ranker" ["load"] "rank"]

def chainGraph : Graph where
  nodes := [⟨0, "load", "Loader", []⟩, ⟨1, "rank", "Ranker", [0]⟩]
  byId := Function.update (Function.update (fun _ => none) "load" (some 0)) "rank" (some 1)

theorem build_chain : build chainRegistry chainDefs = .ok chainGraph := by rfl

theorem depsAt_chain : depsAt chainGraph = chainDeps := by
  funext x
  match x with
  | ⟨0, _⟩ | ⟨1, _⟩ => rfl

theorem nodeAt_chain : nodeAt chainGraph = chainNodes := by
  funext x
  match x with
  | ⟨0, _⟩ | ⟨1, _⟩ => rfl

theorem built_graph_runs_chain : ∃ s : Observed chainGraph.nodes.length 1,
    build chainRegistry chainDefs = .ok chainGraph ∧
    ((observed (depsAt chainGraph) (nodeAt chainGraph) [] 1).Reachable s ∧
      s.exec.main = .returned) ∧ RunsDefs chainDefs [] s := by
  obtain ⟨s, h, hr⟩ := chain_returned
  rw [← depsAt_chain, ← nodeAt_chain] at h
  exact ⟨s, build_chain, ⟨h, hr⟩, built_graph_runs build_chain Nat.one_pos h⟩

end Told

end Runs

end Lark.Dag.GraphBuilder
