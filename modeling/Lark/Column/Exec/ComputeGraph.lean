import Lark.Base.Kahn
import Lark.Column.Exec.Ops

namespace Lark.Column.Exec

open Lark.Base Relation

inductive NodeOp where
  | op (op : Op)
  | placeholder (output : String)
  deriving DecidableEq

namespace NodeOp

def inputs : NodeOp → List String
  | op o => o.inputs
  | placeholder _ => []

def outputs : NodeOp → List String
  | op o => o.outputs
  | placeholder output => [output]

def isPlaceholder : NodeOp → Bool
  | op _ => false
  | placeholder _ => true

end NodeOp

-- `ptr` is the address of the node; addresses are handed out in allocation order.
structure ComputeNode where
  ptr : Nat
  id : String
  module : String
  op : NodeOp
  deps : List Nat
  deriving DecidableEq

def ComputeNode.core (n : ComputeNode) : Nat × String × String × NodeOp :=
  (n.ptr, n.id, n.module, n.op)

def ComputeNode.replaceDependency (n : ComputeNode) (source target : Nat) : ComputeNode :=
  { n with deps := ((n.deps.map fun d => if d = source then target else d).insertionSort
      (· ≤ ·)).dedup }

structure ComputeGraph where
  nodes : List ComputeNode
  byId : String → Option Nat
  topo : List Nat
  finalized : Bool
  nextPtr : Nat

namespace ComputeGraph

def empty : ComputeGraph := ⟨[], fun _ => none, [], false, 0⟩

variable (g : ComputeGraph)

-- `emplace` keeps the entry of an id that is already there.
def addNode (id module : String) (op : NodeOp) : ComputeGraph :=
  { g with
    nodes := g.nodes ++ [⟨g.nextPtr, id, module, op, []⟩]
    byId := if (g.byId id).isSome then g.byId else Function.update g.byId id (some g.nextPtr)
    finalized := false
    nextPtr := g.nextPtr + 1 }

def addPlaceholder (output id : String) : ComputeGraph :=
  g.addNode id "@placeholder" (.placeholder output)

def replacePlaceholder (placeholderId realId : String) : Except Exn ComputeGraph :=
  match g.byId placeholderId, g.byId realId with
  | none, _ => .error (.outOfRange ("ComputeGraph::ReplacePlaceholder: unknown placeholder '" ++
      placeholderId ++ "'"))
  | some _, none =>
    .error (.outOfRange ("ComputeGraph::ReplacePlaceholder: unknown node '" ++ realId ++ "'"))
  | some placeholder, some real =>
    if placeholder = real then .ok g
    else .ok { g with
      nodes := (g.nodes.map (·.replaceDependency placeholder real)).filter (·.ptr ≠ placeholder)
      byId := Function.update g.byId placeholderId none
      finalized := false }

def hasPlaceholders : Bool := g.nodes.any (·.op.isPlaceholder)

def addDependency (id depId : String) : Except Exn ComputeGraph :=
  match g.byId id, g.byId depId with
  | none, _ => .error (.outOfRange ("ComputeGraph::AddDependency: unknown node '" ++ id ++ "'"))
  | some _, none =>
    .error (.outOfRange ("ComputeGraph::AddDependency: unknown dep '" ++ depId ++ "'"))
  | some node, some dep =>
    .ok { g with
      nodes := g.nodes.map fun n =>
        if n.ptr = node ∧ dep ∉ n.deps then { n with deps := n.deps ++ [dep] } else n
      finalized := false }

def depsOf (p : Nat) : List Nat :=
  match g.nodes.find? (·.ptr = p) with
  | some n => n.deps
  | none => []

def sorted : List Nat := Kahn.sort (g.nodes.map (·.ptr)) g.depsOf

-- A failed sort leaves the partial order behind and the flag as it was.
def finalize : ComputeGraph × Except Exn Unit :=
  if g.sorted.length ≠ g.nodes.length then
    ({ g with topo := g.sorted }, .error (.runtimeError "ComputeGraph: dependency cycle detected"))
  else ({ g with topo := g.sorted, finalized := true }, .ok ())

def reserveOutputs (store : TensorStore) : TensorStore :=
  g.nodes.foldl (fun store n => n.op.outputs.foldl (fun store out =>
    if out.isEmpty then store else store.ensureNames [out]) store) store

structure WellFormed : Prop where
  ptr_lt : ∀ n ∈ g.nodes, n.ptr < g.nextPtr
  ptr_nodup : (g.nodes.map (·.ptr)).Nodup
  byId_mem : ∀ id p, g.byId id = some p → ∃ n ∈ g.nodes, n.ptr = p ∧ n.id = id
  dep_live : ∀ n ∈ g.nodes, ∀ d ∈ n.deps, ∃ id, g.byId id = some d
  deps_nodup : ∀ n ∈ g.nodes, n.deps.Nodup
  byId_of_deps : ∀ n ∈ g.nodes, n.deps ≠ [] → g.byId n.id = some n.ptr

def Has (id : String) : Prop := ∃ p, g.byId id = some p

def Edge (a b : String) : Prop :=
  ∃ n ∈ g.nodes, g.byId a = some n.ptr ∧ ∃ d ∈ n.deps, g.byId b = some d

instance (a b : String) : Decidable (g.Edge a b) :=
  inferInstanceAs (Decidable (∃ n ∈ g.nodes, g.byId a = some n.ptr ∧
    ∃ d ∈ n.deps, g.byId b = some d))

def Acyclic : Prop := ∀ id, ¬ TransGen g.Edge id id

variable {g}

namespace WellFormed

theorem node_eq (h : g.WellFormed) {n m : ComputeNode} (hn : n ∈ g.nodes) (hm : m ∈ g.nodes)
    (he : n.ptr = m.ptr) : n = m :=
  List.inj_on_of_nodup_map h.ptr_nodup hn hm he

theorem byId_inj (h : g.WellFormed) {a b : String} {p : Nat} (ha : g.byId a = some p)
    (hb : g.byId b = some p) : a = b := by
  obtain ⟨n, hn, hnp, rfl⟩ := h.byId_mem a p ha
  obtain ⟨m, hm, hmp, rfl⟩ := h.byId_mem b p hb
  rw [h.node_eq hn hm (hnp.trans hmp.symm)]

theorem depsOf_eq (h : g.WellFormed) {n : ComputeNode} (hn : n ∈ g.nodes) :
    g.depsOf n.ptr = n.deps := by
  unfold depsOf
  cases hf : g.nodes.find? (·.ptr = n.ptr) with
  | none =>
    exfalso
    simpa using List.find?_eq_none.1 hf n hn
  | some m =>
    have hm : m.ptr = n.ptr := by simpa using List.find?_some hf
    rw [h.node_eq hn (List.mem_of_find?_eq_some hf) hm.symm]

theorem mem_of_depsOf {p d : Nat} (hd : d ∈ g.depsOf p) :
    ∃ n ∈ g.nodes, n.ptr = p ∧ d ∈ n.deps := by
  unfold depsOf at hd
  cases hf : g.nodes.find? (·.ptr = p) with
  | none => simp [hf] at hd
  | some n =>
    refine ⟨n, List.mem_of_find?_eq_some hf, by simpa using List.find?_some hf, ?_⟩
    simpa [hf] using hd

theorem byId_lt (h : g.WellFormed) {a : String} {p : Nat} (ha : g.byId a = some p) :
    p < g.nextPtr := by
  obtain ⟨n, hn, rfl, -⟩ := h.byId_mem a p ha
  exact h.ptr_lt n hn

theorem edge_iff (h : g.WellFormed) {a b : String} :
    g.Edge a b ↔ ∃ p q, g.byId a = some p ∧ g.byId b = some q ∧ q ∈ g.depsOf p := by
  constructor
  · rintro ⟨n, hn, ha, d, hd, hb⟩
    exact ⟨n.ptr, d, ha, hb, by rwa [h.depsOf_eq hn]⟩
  · rintro ⟨p, q, ha, hb, hq⟩
    obtain ⟨n, hn, rfl, hd⟩ := mem_of_depsOf hq
    exact ⟨n, hn, ha, q, hd, hb⟩

theorem byId_of_dep (h : g.WellFormed) {p d : Nat} (hd : d ∈ g.depsOf p) :
    ∃ a b, g.byId a = some p ∧ g.byId b = some d := by
  obtain ⟨n, hn, rfl, hdn⟩ := mem_of_depsOf hd
  obtain ⟨b, hb⟩ := h.dep_live n hn d hdn
  exact ⟨n.id, b, h.byId_of_deps n hn (List.ne_nil_of_mem hdn), hb⟩

theorem node_of_dep (h : g.WellFormed) {n : ComputeNode} (hn : n ∈ g.nodes) {d : Nat}
    (hd : d ∈ n.deps) : ∃ m ∈ g.nodes, m.ptr = d := by
  obtain ⟨id, hid⟩ := h.dep_live n hn d hd
  obtain ⟨m, hm, hp, -⟩ := h.byId_mem id d hid
  exact ⟨m, hm, hp⟩

theorem closed (h : g.WellFormed) : Kahn.Closed (g.nodes.map (·.ptr)) g.depsOf where
  nodes_nodup := h.ptr_nodup
  deps_mem := by
    intro p d hd
    obtain ⟨n, hn, -, hdn⟩ := mem_of_depsOf hd
    obtain ⟨m, hm, rfl⟩ := h.node_of_dep hn hdn
    exact List.mem_map_of_mem hm
  mem_of_deps := by
    intro p hp
    obtain ⟨d, hd⟩ := List.exists_mem_of_ne_nil _ hp
    obtain ⟨n, hn, rfl, -⟩ := mem_of_depsOf hd
    exact List.mem_map_of_mem hn

theorem path_of_edges (h : g.WellFormed) {a b : String} (hab : TransGen g.Edge a b) :
    ∃ p q, g.byId a = some p ∧ g.byId b = some q ∧ TransGen (Kahn.DependsOn g.depsOf) p q := by
  induction hab with
  | single he =>
    obtain ⟨p, q, ha, hb, hq⟩ := h.edge_iff.1 he
    exact ⟨p, q, ha, hb, .single hq⟩
  | tail _ he ih =>
    obtain ⟨p, q, ha, hb, hpq⟩ := ih
    obtain ⟨q', r, hb', hc, hr⟩ := h.edge_iff.1 he
    obtain rfl : q = q' := Option.some.inj (hb.symm.trans hb')
    exact ⟨p, r, ha, hc, hpq.tail hr⟩

theorem edges_of_path (h : g.WellFormed) {p q : Nat}
    (hpq : TransGen (Kahn.DependsOn g.depsOf) p q) :
    ∃ a b, g.byId a = some p ∧ g.byId b = some q ∧ TransGen g.Edge a b := by
  induction hpq with
  | single hd =>
    obtain ⟨a, b, ha, hb⟩ := h.byId_of_dep hd
    exact ⟨a, b, ha, hb, .single (h.edge_iff.2 ⟨_, _, ha, hb, hd⟩)⟩
  | tail _ hd ih =>
    obtain ⟨a, b, ha, hb, hab⟩ := ih
    obtain ⟨b', c, hb', hc⟩ := h.byId_of_dep hd
    obtain rfl := h.byId_inj hb hb'
    exact ⟨a, c, ha, hc, hab.tail (h.edge_iff.2 ⟨_, _, hb, hc, hd⟩)⟩

theorem acyclic_iff (h : g.WellFormed) : Kahn.Acyclic g.depsOf ↔ g.Acyclic := by
  constructor
  · intro ha id hid
    obtain ⟨p, q, hp, hq, hpq⟩ := h.path_of_edges hid
    obtain rfl : p = q := Option.some.inj (hp.symm.trans hq)
    exact ha p hpq
  · intro ha p hp
    obtain ⟨a, b, hpa, hpb, hab⟩ := h.edges_of_path hp
    obtain rfl := h.byId_inj hpa hpb
    exact ha a hab

theorem finalize_ok_iff (h : g.WellFormed) : g.finalize.2 = .ok () ↔ g.Acyclic := by
  rw [← h.acyclic_iff, ← Kahn.sort_complete h.closed, List.length_map]
  unfold finalize sorted
  split_ifs with hlen
  · simp [hlen]
  · simpa using hlen

end WellFormed

theorem wellFormed_finalize (h : g.WellFormed) : g.finalize.1.WellFormed := by
  unfold finalize
  split_ifs
  all_goals exact ⟨h.ptr_lt, h.ptr_nodup, h.byId_mem, h.dep_live, h.deps_nodup, h.byId_of_deps⟩

theorem wellFormed_empty : empty.WellFormed where
  ptr_lt := by simp [empty]
  ptr_nodup := by simp [empty]
  byId_mem := by simp [empty]
  dep_live := by simp [empty]
  deps_nodup := by simp [empty]
  byId_of_deps := by simp [empty]

section AddNode

variable {id module : String} {op : NodeOp}

theorem byId_addNode_of_some {x : String} {p : Nat} (hx : g.byId x = some p) :
    (g.addNode id module op).byId x = some p := by
  simp only [addNode]
  split_ifs with hid
  · exact hx
  · have hne : x ≠ id := by
      rintro rfl
      simp [hx] at hid
    rw [Function.update_of_ne hne, hx]

theorem byId_addNode_cases {x : String} {p : Nat}
    (hx : (g.addNode id module op).byId x = some p) :
    g.byId x = some p ∨ x = id ∧ p = g.nextPtr ∧ g.byId id = none := by
  simp only [addNode] at hx
  split_ifs at hx with hid
  · exact .inl hx
  · by_cases hne : x = id
    · subst hne
      rw [Function.update_self] at hx
      exact .inr ⟨rfl, (Option.some.inj hx).symm, by simpa using hid⟩
    · rw [Function.update_of_ne hne] at hx
      exact .inl hx

theorem has_addNode {x : String} : (g.addNode id module op).Has x ↔ g.Has x ∨ x = id := by
  constructor
  · rintro ⟨p, hp⟩
    rcases byId_addNode_cases hp with hp | ⟨rfl, -, -⟩
    · exact .inl ⟨p, hp⟩
    · exact .inr rfl
  · rintro (⟨p, hp⟩ | rfl)
    · exact ⟨p, byId_addNode_of_some hp⟩
    · cases hx : g.byId x with
      | some p => exact ⟨p, byId_addNode_of_some hx⟩
      | none => exact ⟨g.nextPtr, by simp [addNode, hx]⟩

theorem WellFormed.addNode (h : g.WellFormed) : (g.addNode id module op).WellFormed where
  ptr_lt := by
    intro n hn
    rcases List.mem_append.1 hn with hn | hn
    · exact Nat.lt_succ_of_lt (h.ptr_lt n hn)
    · obtain rfl := List.mem_singleton.1 hn
      exact Nat.lt_succ_self _
  ptr_nodup := by
    simp only [ComputeGraph.addNode, List.map_append, List.map_cons, List.map_nil]
    refine List.nodup_append.2 ⟨h.ptr_nodup, List.nodup_singleton _, ?_⟩
    rintro p hp q hq rfl
    obtain ⟨n, hn, rfl⟩ := List.mem_map.1 hp
    exact absurd (List.mem_singleton.1 hq) (h.ptr_lt n hn).ne
  byId_mem := by
    intro x p hx
    rcases byId_addNode_cases hx with hx | ⟨rfl, rfl, -⟩
    · obtain ⟨n, hn, hp⟩ := h.byId_mem x p hx
      exact ⟨n, List.mem_append_left _ hn, hp⟩
    · exact ⟨_, List.mem_append_right _ (List.mem_singleton_self _), rfl, rfl⟩
  dep_live := by
    intro n hn d hd
    rcases List.mem_append.1 hn with hn | hn
    · obtain ⟨x, hx⟩ := h.dep_live n hn d hd
      exact ⟨x, byId_addNode_of_some hx⟩
    · obtain rfl := List.mem_singleton.1 hn
      simp at hd
  deps_nodup := by
    intro n hn
    rcases List.mem_append.1 hn with hn | hn
    · exact h.deps_nodup n hn
    · obtain rfl := List.mem_singleton.1 hn
      exact List.nodup_nil
  byId_of_deps := by
    intro n hn hd
    rcases List.mem_append.1 hn with hn | hn
    · exact byId_addNode_of_some (h.byId_of_deps n hn hd)
    · obtain rfl := List.mem_singleton.1 hn
      exact absurd rfl hd

theorem edge_addNode (h : g.WellFormed) {a b : String} :
    (g.addNode id module op).Edge a b ↔ g.Edge a b := by
  constructor
  · rintro ⟨n, hn, ha, d, hd, hb⟩
    rcases List.mem_append.1 hn with hn | hn
    · obtain ⟨x, hx⟩ := h.dep_live n hn d hd
      have ha' : g.byId a = some n.ptr := by
        rcases byId_addNode_cases ha with ha | ⟨-, he, -⟩
        · exact ha
        · exact absurd he (h.ptr_lt n hn).ne
      have hb' : g.byId b = some d := by
        rcases byId_addNode_cases hb with hb | ⟨-, he, -⟩
        · exact hb
        · exact absurd he (h.byId_lt hx).ne
      exact ⟨n, hn, ha', d, hd, hb'⟩
    · obtain rfl := List.mem_singleton.1 hn
      simp at hd
  · rintro ⟨n, hn, ha, d, hd, hb⟩
    exact ⟨n, List.mem_append_left _ hn, byId_addNode_of_some ha, d, hd, byId_addNode_of_some hb⟩

end AddNode

section AddDependency

variable {a b : String} {node dep : Nat}

def wire (node dep : Nat) (n : ComputeNode) : ComputeNode :=
  if n.ptr = node ∧ dep ∉ n.deps then { n with deps := n.deps ++ [dep] } else n

theorem wire_core (node dep : Nat) (n : ComputeNode) : (wire node dep n).core = n.core := by
  unfold wire
  split_ifs <;> rfl

theorem mem_wire {n : ComputeNode} {d : Nat} :
    d ∈ (wire node dep n).deps ↔ d ∈ n.deps ∨ n.ptr = node ∧ d = dep := by
  unfold wire
  split_ifs with hc
  · simp [hc.1]
  · constructor
    · exact .inl
    · rintro (hd | ⟨hp, rfl⟩)
      · exact hd
      · exact not_not.1 fun hd => hc ⟨hp, hd⟩

theorem map_wire_core (nodes : List ComputeNode) :
    (nodes.map (wire node dep)).map ComputeNode.core = nodes.map ComputeNode.core := by
  rw [List.map_map]
  exact List.map_congr_left fun n _ => wire_core _ _ n

theorem mem_of_core {nodes nodes' : List ComputeNode}
    (h : nodes'.map ComputeNode.core = nodes.map ComputeNode.core) {n : ComputeNode}
    (hn : n ∈ nodes) :
    ∃ n' ∈ nodes', n'.ptr = n.ptr ∧ n'.id = n.id ∧ n'.module = n.module ∧ n'.op = n.op := by
  have hmem : n.core ∈ nodes'.map ComputeNode.core := h ▸ List.mem_map_of_mem hn
  obtain ⟨n', hn', he⟩ := List.mem_map.1 hmem
  simp only [ComputeNode.core, Prod.mk.injEq] at he
  exact ⟨n', hn', he⟩

theorem map_ptr_of_core {nodes nodes' : List ComputeNode}
    (h : nodes'.map ComputeNode.core = nodes.map ComputeNode.core) :
    nodes'.map (·.ptr) = nodes.map (·.ptr) := by
  have := congrArg (List.map Prod.fst) h
  simpa [List.map_map, Function.comp_def, ComputeNode.core] using this

theorem addDependency_eq (hn : g.byId a = some node) (hd : g.byId b = some dep) :
    g.addDependency a b =
      .ok { g with nodes := g.nodes.map (wire node dep), finalized := false } := by
  unfold addDependency
  simp only [hn, hd]
  rfl

theorem wellFormed_wire (h : g.WellFormed) (hn : g.byId a = some node) (hd : g.byId b = some dep) :
    ({ g with nodes := g.nodes.map (wire node dep), finalized := false } : ComputeGraph).WellFormed
    where
  ptr_lt := by
    intro n hn
    obtain ⟨m, hm, he⟩ := mem_of_core (map_wire_core g.nodes).symm hn
    exact he.1 ▸ h.ptr_lt m hm
  ptr_nodup := by
    rw [map_ptr_of_core (map_wire_core g.nodes)]
    exact h.ptr_nodup
  byId_mem := by
    intro x p hx
    obtain ⟨n, hn, rfl, rfl⟩ := h.byId_mem x p hx
    obtain ⟨n', hn', hp, hi, -⟩ := mem_of_core (map_wire_core g.nodes) hn
    exact ⟨n', hn', hp, hi⟩
  dep_live := by
    intro n hn d hdn
    obtain ⟨m, hm, rfl⟩ := List.mem_map.1 hn
    rcases mem_wire.1 hdn with hdn | ⟨-, rfl⟩
    · exact h.dep_live m hm d hdn
    · exact ⟨b, hd⟩
  deps_nodup := by
    intro n hn
    obtain ⟨m, hm, rfl⟩ := List.mem_map.1 hn
    unfold wire
    split_ifs with hc
    · exact List.nodup_append.2 ⟨h.deps_nodup m hm, List.nodup_singleton _,
        fun x hx y hy hxy => hc.2 (List.mem_singleton.1 hy ▸ hxy ▸ hx)⟩
    · exact h.deps_nodup m hm
  byId_of_deps := by
    intro n hn' hne
    obtain ⟨m, hm, rfl⟩ := List.mem_map.1 hn'
    have hcore := wire_core node dep m
    simp only [ComputeNode.core, Prod.mk.injEq] at hcore
    rw [hcore.1, hcore.2.1]
    obtain ⟨d, hdm⟩ := List.exists_mem_of_ne_nil _ hne
    rcases mem_wire.1 hdm with hdm | ⟨hp, -⟩
    · exact h.byId_of_deps m hm (List.ne_nil_of_mem hdm)
    · obtain ⟨k, hk, hkp, rfl⟩ := h.byId_mem a node hn
      rw [h.node_eq hm hk (hp.trans hkp.symm), hn, hkp]

theorem addDependency_inv {g' : ComputeGraph} (h : g.addDependency a b = .ok g') :
    ∃ node dep, g.byId a = some node ∧ g.byId b = some dep ∧
      g' = { g with nodes := g.nodes.map (wire node dep), finalized := false } := by
  cases hn : g.byId a with
  | none => simp [addDependency, hn] at h
  | some node =>
    cases hd : g.byId b with
    | none => simp [addDependency, hn, hd] at h
    | some dep =>
      rw [addDependency_eq hn hd] at h
      exact ⟨node, dep, rfl, rfl, (Except.ok.inj h).symm⟩

theorem WellFormed.addDependency {g' : ComputeGraph} (h : g.WellFormed)
    (hd : g.addDependency a b = .ok g') : g'.WellFormed := by
  obtain ⟨node, dep, hn, hdep, rfl⟩ := addDependency_inv hd
  exact wellFormed_wire h hn hdep

theorem addDependency_ok (h : g.WellFormed) (ha : g.Has a) (hb : g.Has b) :
    ∃ g', g.addDependency a b = .ok g' ∧ g'.WellFormed ∧ g'.byId = g.byId ∧
      g'.nodes.map ComputeNode.core = g.nodes.map ComputeNode.core ∧
      ∀ x y, g'.Edge x y ↔ g.Edge x y ∨ x = a ∧ y = b := by
  obtain ⟨node, hn⟩ := ha
  obtain ⟨dep, hd⟩ := hb
  refine ⟨_, addDependency_eq hn hd, wellFormed_wire h hn hd, rfl, map_wire_core _, ?_⟩
  intro x y
  constructor
  · rintro ⟨n, hmem, hx, d, hdn, hy⟩
    obtain ⟨m, hm, rfl⟩ := List.mem_map.1 hmem
    have hcore := wire_core node dep m
    simp only [ComputeNode.core, Prod.mk.injEq] at hcore
    rw [hcore.1] at hx
    rcases mem_wire.1 hdn with hdn | ⟨hp, rfl⟩
    · exact .inl ⟨m, hm, hx, d, hdn, hy⟩
    · rw [hp] at hx
      exact .inr ⟨h.byId_inj hx hn, h.byId_inj hy hd⟩
  · rintro (⟨n, hmem, hx, d, hdn, hy⟩ | ⟨rfl, rfl⟩)
    · have hcore := wire_core node dep n
      simp only [ComputeNode.core, Prod.mk.injEq] at hcore
      exact ⟨_, List.mem_map_of_mem hmem, by rw [hcore.1]; exact hx, d, mem_wire.2 (.inl hdn), hy⟩
    · obtain ⟨n, hmem, rfl, -⟩ := h.byId_mem x node hn
      have hcore := wire_core n.ptr dep n
      simp only [ComputeNode.core, Prod.mk.injEq] at hcore
      exact ⟨_, List.mem_map_of_mem hmem, by rw [hcore.1]; exact hn, dep,
        mem_wire.2 (.inr ⟨rfl, rfl⟩), hd⟩

end AddDependency

section ReplacePlaceholder

variable {a b : String} {placeholder real : Nat}

def rewired (g : ComputeGraph) (a : String) (placeholder real : Nat) : ComputeGraph :=
  { g with
    nodes := (g.nodes.map (·.replaceDependency placeholder real)).filter (·.ptr ≠ placeholder)
    byId := Function.update g.byId a none
    finalized := false }

theorem mem_replaceDependency {n : ComputeNode} {d : Nat} :
    d ∈ (n.replaceDependency placeholder real).deps ↔
      d ∈ n.deps ∧ d ≠ placeholder ∨ placeholder ∈ n.deps ∧ d = real := by
  simp only [ComputeNode.replaceDependency, List.mem_dedup, List.mem_insertionSort, List.mem_map]
  constructor
  · rintro ⟨e, he, rfl⟩
    split_ifs with hp
    · exact .inr ⟨hp ▸ he, rfl⟩
    · exact .inl ⟨he, hp⟩
  · rintro (⟨hd, hp⟩ | ⟨hp, rfl⟩)
    · exact ⟨d, hd, if_neg hp⟩
    · exact ⟨placeholder, hp, if_pos rfl⟩

theorem mem_rewired {n : ComputeNode} : n ∈ (g.rewired a placeholder real).nodes ↔
    ∃ m ∈ g.nodes, m.ptr ≠ placeholder ∧ n = m.replaceDependency placeholder real := by
  simp only [rewired, List.mem_filter, List.mem_map, decide_eq_true_eq]
  constructor
  · rintro ⟨⟨m, hm, rfl⟩, hp⟩
    exact ⟨m, hm, hp, rfl⟩
  · rintro ⟨m, hm, hp, rfl⟩
    exact ⟨⟨m, hm, rfl⟩, hp⟩

theorem byId_rewired {x : String} {p : Nat} :
    (g.rewired a placeholder real).byId x = some p ↔ x ≠ a ∧ g.byId x = some p := by
  by_cases hx : x = a
  · subst hx
    simp [rewired]
  · simp [rewired, hx]

theorem wellFormed_rewired (h : g.WellFormed) (ha : g.byId a = some placeholder)
    (hb : g.byId b = some real) (hne : placeholder ≠ real) :
    (g.rewired a placeholder real).WellFormed where
  ptr_lt := by
    intro n hn
    obtain ⟨m, hm, -, rfl⟩ := mem_rewired.1 hn
    exact h.ptr_lt m hm
  ptr_nodup := by
    have hmap : (g.nodes.map (·.replaceDependency placeholder real)).map (·.ptr) =
        g.nodes.map (·.ptr) := by
      rw [List.map_map]
      rfl
    exact (hmap ▸ h.ptr_nodup).sublist ((List.filter_sublist).map _)
  byId_mem := by
    intro x p hx
    obtain ⟨hxa, hx⟩ := byId_rewired.1 hx
    obtain ⟨n, hn, rfl, rfl⟩ := h.byId_mem x p hx
    refine ⟨_, mem_rewired.2 ⟨n, hn, ?_, rfl⟩, rfl, rfl⟩
    intro hp
    exact hxa (h.byId_inj hx (hp ▸ ha))
  dep_live := by
    intro n hn d hd
    obtain ⟨m, hm, -, rfl⟩ := mem_rewired.1 hn
    rcases mem_replaceDependency.1 hd with ⟨hd, hp⟩ | ⟨-, rfl⟩
    · obtain ⟨x, hx⟩ := h.dep_live m hm d hd
      refine ⟨x, byId_rewired.2 ⟨?_, hx⟩⟩
      rintro rfl
      exact hp (Option.some.inj (hx.symm.trans ha))
    · refine ⟨b, byId_rewired.2 ⟨?_, hb⟩⟩
      rintro rfl
      exact hne (Option.some.inj (ha.symm.trans hb))
  deps_nodup := by
    intro n hn
    obtain ⟨m, hm, -, rfl⟩ := mem_rewired.1 hn
    exact List.nodup_dedup _
  byId_of_deps := by
    intro n hn hd
    obtain ⟨m, hm, hp, rfl⟩ := mem_rewired.1 hn
    have hmd : m.deps ≠ [] := by
      obtain ⟨d, hd⟩ := List.exists_mem_of_ne_nil _ hd
      rcases mem_replaceDependency.1 hd with ⟨hd, -⟩ | ⟨hd, -⟩ <;> exact List.ne_nil_of_mem hd
    have hid := h.byId_of_deps m hm hmd
    refine byId_rewired.2 ⟨?_, hid⟩
    intro (he : m.id = a)
    rw [he, ha] at hid
    exact hp (Option.some.inj hid).symm

theorem edge_rewired (h : g.WellFormed) (ha : g.byId a = some placeholder)
    (hb : g.byId b = some real) (hne : placeholder ≠ real) {x y : String} :
    (g.rewired a placeholder real).Edge x y ↔
      x ≠ a ∧ (g.Edge x y ∧ y ≠ a ∨ g.Edge x a ∧ y = b) := by
  constructor
  · rintro ⟨n, hn, hx, d, hd, hy⟩
    obtain ⟨m, hm, hp, rfl⟩ := mem_rewired.1 hn
    obtain ⟨hxa, hx⟩ := byId_rewired.1 hx
    obtain ⟨hya, hy⟩ := byId_rewired.1 hy
    refine ⟨hxa, ?_⟩
    rcases mem_replaceDependency.1 hd with ⟨hdep, -⟩ | ⟨hdep, hreal⟩
    · exact .inl ⟨⟨m, hm, hx, d, hdep, hy⟩, hya⟩
    · exact .inr ⟨⟨m, hm, hx, placeholder, hdep, ha⟩, h.byId_inj hy (hreal ▸ hb)⟩
  · rintro ⟨hxa, ⟨⟨n, hn, hx, d, hd, hy⟩, hya⟩ | ⟨⟨n, hn, hx, d, hd, hda⟩, rfl⟩⟩
    all_goals
      have hp : n.ptr ≠ placeholder := fun hp => hxa (h.byId_inj hx (hp ▸ ha))
      refine ⟨_, mem_rewired.2 ⟨n, hn, hp, rfl⟩, byId_rewired.2 ⟨hxa, hx⟩, ?_⟩
    · refine ⟨d, mem_replaceDependency.2 (.inl ⟨hd, ?_⟩), byId_rewired.2 ⟨hya, hy⟩⟩
      rintro rfl
      exact hya (h.byId_inj hy ha)
    · obtain rfl : d = placeholder := Option.some.inj (hda.symm.trans ha)
      refine ⟨real, mem_replaceDependency.2 (.inr ⟨hd, rfl⟩), byId_rewired.2 ⟨?_, hb⟩⟩
      rintro rfl
      exact hne (Option.some.inj (ha.symm.trans hb))

theorem replacePlaceholder_inv {g' : ComputeGraph} (h : g.replacePlaceholder a b = .ok g') :
    ∃ placeholder real, g.byId a = some placeholder ∧ g.byId b = some real ∧
      (placeholder = real ∧ g' = g ∨ placeholder ≠ real ∧ g' = g.rewired a placeholder real) := by
  cases hp : g.byId a with
  | none => simp [replacePlaceholder, hp] at h
  | some placeholder =>
    cases hr : g.byId b with
    | none => simp [replacePlaceholder, hp, hr] at h
    | some real =>
      simp only [replacePlaceholder, hp, hr] at h
      split_ifs at h with heq
      · exact ⟨placeholder, real, rfl, rfl, .inl ⟨heq, (Except.ok.inj h).symm⟩⟩
      · exact ⟨placeholder, real, rfl, rfl, .inr ⟨heq, (Except.ok.inj h).symm⟩⟩

theorem WellFormed.replacePlaceholder {g' : ComputeGraph} (h : g.WellFormed)
    (hr : g.replacePlaceholder a b = .ok g') : g'.WellFormed := by
  obtain ⟨placeholder, real, hp, hreal, ⟨-, rfl⟩ | ⟨hne, rfl⟩⟩ := replacePlaceholder_inv hr
  · exact h
  · exact wellFormed_rewired h hp hreal hne

theorem replacePlaceholder_ok (h : g.WellFormed) (ha : g.Has a) (hb : g.Has b) (hab : a ≠ b) :
    ∃ g' p, g.replacePlaceholder a b = .ok g' ∧ g'.WellFormed ∧ g.byId a = some p ∧
      (∀ x q, g'.byId x = some q ↔ x ≠ a ∧ g.byId x = some q) ∧
      g'.nodes.map ComputeNode.core = (g.nodes.map ComputeNode.core).filter (·.1 ≠ p) ∧
      ∀ x y, g'.Edge x y ↔ x ≠ a ∧ (g.Edge x y ∧ y ≠ a ∨ g.Edge x a ∧ y = b) := by
  obtain ⟨p, hp⟩ := ha
  obtain ⟨r, hr⟩ := hb
  have hne : p ≠ r := by
    rintro rfl
    exact hab (h.byId_inj hp hr)
  refine ⟨g.rewired a p r, p, ?_, wellFormed_rewired h hp hr hne, hp, fun x q => byId_rewired, ?_,
    fun x y => edge_rewired h hp hr hne⟩
  · simp [replacePlaceholder, hp, hr, hne, rewired]
  · rw [rewired, List.filter_map, List.filter_map, List.map_map]
    rfl

end ReplacePlaceholder

end ComputeGraph

end Lark.Column.Exec
