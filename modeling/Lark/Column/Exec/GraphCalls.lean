import Lark.Column.Exec.Execution

namespace Lark.Column.Exec.ComputeGraph

open Lark.Base Relation

-- Graphs that the wiring calls make, with Finalize called anywhere in between. A call that throws
-- leaves the graph as it was.
inductive Built : ComputeGraph → Prop
  | empty : Built .empty
  | addNode {g} (h : Built g) (id module : String) (op : NodeOp) : Built (g.addNode id module op)
  | addPlaceholder {g} (h : Built g) (output id : String) : Built (g.addPlaceholder output id)
  | addDependency {g g' id depId} (h : Built g) (hd : g.addDependency id depId = .ok g') : Built g'
  | replacePlaceholder {g g' placeholderId realId} (h : Built g)
      (hr : g.replacePlaceholder placeholderId realId = .ok g') : Built g'
  | finalize {g} (h : Built g) : Built g.finalize.1

structure Consistent (g : ComputeGraph) : Prop where
  wf : g.WellFormed
  sorted : g.finalized = true → Kahn.Acyclic g.depsOf

variable {g g' : ComputeGraph}

theorem finalize_ok_iff_acyclic (h : g.WellFormed) :
    g.finalize.2 = .ok () ↔ Kahn.Acyclic g.depsOf :=
  h.finalize_ok_iff.trans h.acyclic_iff.symm

theorem finalize_nodes (g : ComputeGraph) : g.finalize.1.nodes = g.nodes := by
  unfold finalize
  split_ifs <;> rfl

theorem finalize_topo (g : ComputeGraph) : g.finalize.1.topo = g.sorted := by
  unfold finalize
  split_ifs <;> rfl

theorem finalize_depsOf (g : ComputeGraph) : g.finalize.1.depsOf = g.depsOf := by
  funext p
  simp only [depsOf, finalize_nodes]

theorem finalized_or_error (g : ComputeGraph) :
    g.finalize.2 = .ok () ∧ g.finalize.1.finalized = true ∨
      (∃ e, g.finalize.2 = .error e) ∧ g.finalize.1.finalized = g.finalized := by
  unfold finalize
  split_ifs
  · exact .inr ⟨⟨_, rfl⟩, rfl⟩
  · exact .inl ⟨rfl, rfl⟩

theorem Consistent.finalize (h : g.Consistent) : g.finalize.1.Consistent := by
  refine ⟨wellFormed_finalize h.wf, fun hf => ?_⟩
  rw [finalize_depsOf]
  rcases g.finalized_or_error with ⟨hok, -⟩ | ⟨-, hsame⟩
  · exact (finalize_ok_iff_acyclic h.wf).1 hok
  · exact h.sorted (hsame ▸ hf)

theorem Built.consistent (h : g.Built) : g.Consistent := by
  induction h with
  | empty => exact ⟨wellFormed_empty, fun hf => by cases hf⟩
  | addNode _ id module op ih => exact ⟨ih.wf.addNode, fun hf => by cases hf⟩
  | addPlaceholder _ output id ih => exact ⟨ih.wf.addNode, fun hf => by cases hf⟩
  | addDependency _ hd ih =>
    obtain ⟨node, dep, hn, hdep, rfl⟩ := addDependency_inv hd
    exact ⟨wellFormed_wire ih.wf hn hdep, fun hf => by cases hf⟩
  | replacePlaceholder _ hr ih =>
    obtain ⟨placeholder, real, hp, hreal, ⟨-, rfl⟩ | ⟨hne, rfl⟩⟩ := replacePlaceholder_inv hr
    · exact ih
    · exact ⟨wellFormed_rewired ih.wf hp hreal hne, fun hf => by cases hf⟩
  | finalize _ ih => exact ih.finalize

section Running

-- The first line of Execute and ExecuteAsync.
def prepare (g : ComputeGraph) : ComputeGraph × Except Exn Unit :=
  if g.finalized then (g, .ok ()) else g.finalize

def untouched (store : TensorStore) : ExecState := ⟨fun _ => .idle, store⟩

-- `Run` says in which states the nodes can end: Execute has one, ExecuteAsync any schedule's.
inductive Executes (Run : ComputeGraph → TensorStore → ExecState → Prop) (g : ComputeGraph)
    (store : TensorStore) : ComputeGraph → ExecState → Except Exn Unit → Prop
  | threw {q e} (h : g.prepare = (q, .error e)) :
      Executes Run g store q (untouched store) (.error e)
  | empty {q} (h : g.prepare = (q, .ok ())) (hn : q.nodes = []) :
      Executes Run g store q (untouched store) (.ok ())
  | ran {q s} (h : g.prepare = (q, .ok ())) (hn : q.nodes ≠ []) (hs : Run q store s) :
      Executes Run g store q s (.ok ())

def ExecuteCall (libm : Libm) := Executes fun g store s => s = execute libm g store

def ExecuteAsyncCall (libm : Libm) := Executes (Execution libm)

inductive Call (libm : Libm) (g : ComputeGraph) : ComputeGraph → Prop
  | finalize : Call libm g g.finalize.1
  | execute {store q s r} (h : ExecuteCall libm g store q s r) : Call libm g q
  | executeAsync {store q s r} (h : ExecuteAsyncCall libm g store q s r) : Call libm g q

def Refuses (E : TensorStore → ComputeGraph → ExecState → Except Exn Unit → Prop) : Prop :=
  ∀ store, (∃ q s e, E store q s (.error e)) ∧
    ∀ q s r, E store q s r → s = untouched store ∧ ∃ e, r = .error e

variable {Run : ComputeGraph → TensorStore → ExecState → Prop} {libm : Libm}

structure Cyclic (g : ComputeGraph) : Prop where
  wf : g.WellFormed
  unsorted : g.finalized = false
  cyclic : ¬ Kahn.Acyclic g.depsOf

theorem Cyclic.finalize_error (h : g.Cyclic) : ∃ e, g.finalize.2 = .error e := by
  cases hr : g.finalize.2 with
  | error e => exact ⟨e, rfl⟩
  | ok u => exact absurd ((finalize_ok_iff_acyclic h.wf).1 hr) h.cyclic

theorem Cyclic.finalize (h : g.Cyclic) : g.finalize.1.Cyclic := by
  obtain ⟨e, he⟩ := h.finalize_error
  refine ⟨wellFormed_finalize h.wf, ?_, finalize_depsOf g ▸ h.cyclic⟩
  rcases g.finalized_or_error with ⟨hok, -⟩ | ⟨-, hsame⟩
  · simp [he] at hok
  · exact hsame.trans h.unsorted

theorem Cyclic.prepare (h : g.Cyclic) :
    ∃ e, g.prepare = (g.finalize.1, .error e) := by
  obtain ⟨e, he⟩ := h.finalize_error
  refine ⟨e, ?_⟩
  rw [ComputeGraph.prepare, h.unsorted, ← he]
  rfl

theorem Cyclic.executes (h : g.Cyclic) {store : TensorStore} {q : ComputeGraph} {s : ExecState}
    {r : Except Exn Unit} (hx : Executes Run g store q s r) :
    q = g.finalize.1 ∧ s = untouched store ∧ ∃ e, r = .error e := by
  obtain ⟨e, he⟩ := h.prepare
  cases hx with
  | threw hq =>
    obtain ⟨rfl, -⟩ := Prod.mk.inj (hq.symm.trans he)
    exact ⟨rfl, rfl, _, rfl⟩
  | empty hq _ => cases hq.symm.trans he
  | ran hq _ _ => cases hq.symm.trans he

theorem Cyclic.refuses (h : g.Cyclic) : Refuses (Executes Run g) := by
  intro store
  obtain ⟨e, he⟩ := h.prepare
  exact ⟨⟨_, _, e, .threw he⟩, fun q s r hx => (h.executes hx).2⟩

theorem Cyclic.call (h : g.Cyclic) (hc : Call libm g g') : g'.Cyclic := by
  cases hc with
  | finalize => exact h.finalize
  | execute hx => exact (h.executes hx).1 ▸ h.finalize
  | executeAsync hx => exact (h.executes hx).1 ▸ h.finalize

end Running

structure TopoSorted (g : ComputeGraph) (topo : List Nat) : Prop where
  nodup : topo.Nodup
  mem : ∀ p, p ∈ topo ↔ p ∈ g.nodes.map (·.ptr)
  ordered : Kahn.Ordered g.depsOf topo

theorem WellFormed.topoSorted (h : g.WellFormed) (ha : Kahn.Acyclic g.depsOf) :
    TopoSorted g g.sorted := by
  have hs := Kahn.sort_sorted h.closed
  have hlen := (Kahn.sort_complete h.closed).2 ha
  have hperm : g.sorted.Perm (g.nodes.map (·.ptr)) :=
    (hs.nodup.subperm hs.mem).perm_of_length_le hlen.ge
  exact ⟨hs.nodup, fun p => hperm.mem_iff, hs.ordered⟩

theorem finalize_sorts (h : g.Built) (libm : Libm) :
    (g.finalize.2 = .ok () ↔ Kahn.Acyclic g.depsOf) ∧
      (g.finalize.2 = .ok () → TopoSorted g g.finalize.1.topo) ∧
      ∀ e, g.finalize.2 = .error e → ∀ q, ReflTransGen (Call libm) g.finalize.1 q →
        q.finalized = false ∧ Refuses (ExecuteCall libm q) ∧ Refuses (ExecuteAsyncCall libm q) := by
  have hc := h.consistent
  have hiff := finalize_ok_iff_acyclic hc.wf
  refine ⟨hiff, fun hok => ?_, fun e he q hq => ?_⟩
  · rw [finalize_topo]
    exact hc.wf.topoSorted (hiff.1 hok)
  · have hcyclic : ¬ Kahn.Acyclic g.depsOf := by
      intro ha
      simp [hiff.2 ha] at he
    have hunsorted : g.finalized = false :=
      Bool.eq_false_iff.2 fun hf => hcyclic (hc.sorted hf)
    have hstart : g.finalize.1.Cyclic := (Cyclic.mk hc.wf hunsorted hcyclic).finalize
    have hend : q.Cyclic := run_invariant (fun _ _ h hcall => h.call hcall) hstart hq
    exact ⟨hend.unsorted, hend.refuses, hend.refuses⟩

def pair : ComputeGraph := (ComputeGraph.empty.addPlaceholder "u" "a").addPlaceholder "v" "b"

def forth : ComputeGraph := { pair with nodes := pair.nodes.map (wire 1 0) }

def crossed : ComputeGraph := { forth with nodes := forth.nodes.map (wire 0 1) }

theorem pair_built : pair.Built := .addPlaceholder (.addPlaceholder .empty _ _) _ _

theorem forth_built : forth.Built := by
  have hforth : pair.addDependency "b" "a" = .ok forth := rfl
  exact .addDependency pair_built hforth

theorem crossed_built : crossed.Built := by
  have hback : forth.addDependency "a" "b" = .ok crossed := rfl
  exact .addDependency forth_built hback

theorem finalize_sorts_crossed :
    crossed.finalize.1.finalized = false ∧
      Refuses (ExecuteCall ⟨id, id, id⟩ crossed.finalize.1) := by
  have herror : crossed.finalize.2 =
      .error (.runtimeError "ComputeGraph: dependency cycle detected") := by decide
  obtain ⟨-, -, hthrows⟩ := finalize_sorts crossed_built ⟨id, id, id⟩
  obtain ⟨hunsorted, hrefuses, -⟩ := hthrows _ herror _ .refl
  exact ⟨hunsorted, hrefuses⟩

section Merging

variable {a b : String} {placeholder real : Nat}

def redirect (placeholder real d : Nat) : Nat := if d = placeholder then real else d

def Identified (g : ComputeGraph) (placeholder real : Nat) : Nat → Nat → Prop :=
  Relation.Map (Kahn.DependsOn g.depsOf) (redirect placeholder real) (redirect placeholder real)

structure Merged (g g' : ComputeGraph) (a : String) (placeholder real : Nat) : Prop where
  nodes : g'.nodes.map ComputeNode.core =
    (g.nodes.filter fun n => n.id ≠ a).map ComputeNode.core
  deps : ∀ n' ∈ g'.nodes, ∃ n ∈ g.nodes, n.core = n'.core ∧ n'.deps.Nodup ∧
    n'.deps.toFinset = n.deps.toFinset.image (redirect placeholder real)
  cleared : ∀ n' ∈ g'.nodes, placeholder ∉ n'.deps
  find_self : g'.byId a = none
  find_other : ∀ x, x ≠ a → g'.byId x = g.byId x
  acyclic : Kahn.Acyclic g'.depsOf ↔ ∀ p, ¬ TransGen (g.Identified placeholder real) p p

theorem deps_replaceDependency (n : ComputeNode) :
    (n.replaceDependency placeholder real).deps.toFinset =
      n.deps.toFinset.image (redirect placeholder real) := by
  ext d
  simp [ComputeNode.replaceDependency, redirect]

theorem dependsOn_rewired (h : g.WellFormed) (hwf : (g.rewired a placeholder real).WellFormed)
    (hne : placeholder ≠ real) (hleaf : g.depsOf placeholder = []) :
    Kahn.DependsOn (g.rewired a placeholder real).depsOf = g.Identified placeholder real := by
  funext x y
  refine propext ⟨fun hd => ?_, ?_⟩
  · obtain ⟨n', hn', rfl, hmem⟩ := WellFormed.mem_of_depsOf hd
    obtain ⟨n, hn, hp, rfl⟩ := mem_rewired.1 hn'
    have hold : ∀ {d}, d ∈ n.deps → Kahn.DependsOn g.depsOf n.ptr d := by
      intro d hd
      rwa [Kahn.DependsOn, h.depsOf_eq hn]
    have hx : redirect placeholder real n.ptr = n.ptr := if_neg hp
    rcases mem_replaceDependency.1 hmem with ⟨hdep, hdp⟩ | ⟨hdep, rfl⟩
    · exact ⟨n.ptr, y, hold hdep, hx, if_neg hdp⟩
    · exact ⟨n.ptr, placeholder, hold hdep, hx, if_pos rfl⟩
  · rintro ⟨p, d, hd, rfl, rfl⟩
    obtain ⟨n, hn, rfl, hdn⟩ := WellFormed.mem_of_depsOf hd
    have hp : n.ptr ≠ placeholder := by
      intro hp
      rw [Kahn.DependsOn, hp, hleaf] at hd
      cases hd
    have hmem : (g.rewired a placeholder real).depsOf n.ptr =
        (n.replaceDependency placeholder real).deps :=
      hwf.depsOf_eq (mem_rewired.2 ⟨n, hn, hp, rfl⟩)
    rw [Kahn.DependsOn, redirect, if_neg hp, hmem, mem_replaceDependency]
    unfold redirect
    split_ifs with hdp
    · exact .inr ⟨hdp ▸ hdn, rfl⟩
    · exact .inl ⟨hdn, hdp⟩

theorem merged_rewired (h : g.WellFormed) (hids : (g.nodes.map (·.id)).Nodup)
    (ha : g.byId a = some placeholder) (hb : g.byId b = some real) (hne : placeholder ≠ real)
    (hleaf : g.depsOf placeholder = []) :
    Merged g (g.rewired a placeholder real) a placeholder real := by
  have hwf := wellFormed_rewired h ha hb hne
  have hsame : ∀ n ∈ g.nodes, (n.ptr = placeholder ↔ n.id = a) := by
    obtain ⟨m, hm, hmp, hma⟩ := h.byId_mem a placeholder ha
    intro n hn
    constructor
    · intro hp
      rw [h.node_eq hn hm (hp.trans hmp.symm), hma]
    · intro hi
      rw [List.inj_on_of_nodup_map hids hn hm (hi.trans hma.symm), hmp]
  refine ⟨?_, fun n' hn' => ?_, fun n' hn' hmem => ?_, by simp [rewired], fun x hx => ?_, ?_⟩
  · have hcore (n : ComputeNode) : (n.replaceDependency placeholder real).core = n.core := rfl
    have hfilter : g.nodes.filter (fun n => decide (n.ptr ≠ placeholder)) =
        g.nodes.filter fun n => decide (n.id ≠ a) := by
      refine List.filter_congr fun n hn => ?_
      simp [hsame n hn]
    rw [rewired, List.filter_map, List.map_map, ← hfilter]
    exact List.map_congr_left fun n _ => hcore n
  · obtain ⟨n, hn, -, rfl⟩ := mem_rewired.1 hn'
    exact ⟨n, hn, rfl, hwf.deps_nodup _ hn', deps_replaceDependency n⟩
  · obtain ⟨n, hn, -, rfl⟩ := mem_rewired.1 hn'
    rcases mem_replaceDependency.1 hmem with ⟨-, hp⟩ | ⟨-, hp⟩
    · exact hp rfl
    · exact hne hp
  · simp [rewired, hx]
  · rw [Kahn.Acyclic, dependsOn_rewired h hwf hne hleaf]

theorem replacePlaceholder_merges (h : g.Built) (hids : (g.nodes.map (·.id)).Nodup)
    (a b : String) (hab : a ≠ b) :
    (∀ placeholder real, g.byId a = some placeholder → g.byId b = some real →
      g.depsOf placeholder = [] →
      ∃ g', g.replacePlaceholder a b = .ok g' ∧ Merged g g' a placeholder real) ∧
    (g.byId a = none ∨ g.byId b = none →
      ∃ what, g.replacePlaceholder a b = .error (.outOfRange what)) := by
  have hwf := h.consistent.wf
  refine ⟨fun placeholder real ha hb hleaf => ?_, ?_⟩
  · have hne : placeholder ≠ real := by
      rintro rfl
      exact hab (hwf.byId_inj ha hb)
    refine ⟨g.rewired a placeholder real, ?_, merged_rewired hwf hids ha hb hne hleaf⟩
    simp [replacePlaceholder, ha, hb, hne, rewired]
  · rintro (hnone | hnone)
    · simp [replacePlaceholder, hnone]
    · cases ha : g.byId a <;> simp [replacePlaceholder, ha, hnone]

-- The real node depends on the placeholder, so it ends up on itself.
theorem replacePlaceholder_merges_forth :
    ∃ g', forth.replacePlaceholder "a" "b" = .ok g' ∧ Merged forth g' "a" 0 1 :=
  (replacePlaceholder_merges forth_built (by decide) "a" "b" (by decide)).1 0 1 rfl rfl rfl

end Merging

end Lark.Column.Exec.ComputeGraph
