import Lark.Base.Dfs
import Lark.Base.Exn

namespace Lark.Dag

open Lark.Base Relation

structure NodeDef where
  type : String
  deps : List String
  id : String

-- The constructor drops the id of a definition without a type.
def NodeDef.make (type : String) (deps : List String) (id : String) : NodeDef :=
  ⟨type, deps, if type = "" then "" else id⟩

def NodeDef.nodeId (d : NodeDef) : String := if d.id = "" then d.type else d.id

structure Node where
  ptr : Nat
  id : String
  type : String
  dependencies : List Nat
  deriving DecidableEq

structure NodeRegistry where
  contains : String → Bool

-- The factory of a registered type makes a node at a new address.
def NodeRegistry.create (registry : NodeRegistry) (ptr : Nat) (typeName id : String) :
    Except Exn Node :=
  if registry.contains typeName then .ok ⟨ptr, if id = "" then typeName else id, typeName, []⟩
  else .error (.outOfRange ("NodeRegistry: unknown node type '" ++ typeName ++ "'"))

structure Graph where
  nodes : List Node
  byId : String → Option Nat

def Graph.empty : Graph := ⟨[], fun _ => none⟩

def Graph.depsOf (g : Graph) (p : Nat) : List Nat :=
  match g.nodes.find? (·.ptr = p) with
  | some n => n.dependencies
  | none => []

def Graph.idOf (g : Graph) (p : Nat) : String :=
  match g.nodes.find? (·.ptr = p) with
  | some n => n.id
  | none => ""

namespace GraphBuilder

def createAndIndexNodes (registry : NodeRegistry) : List NodeDef → Graph → Except Exn Graph
  | [], g => .ok g
  | d :: defs, g =>
    if d.type = "" then .error (.invalidArgument "GraphBuilder: node def has empty type")
    else do
      let node ← registry.create g.nodes.length d.type d.nodeId
      match g.byId d.nodeId with
      | some _ =>
        .error (.invalidArgument ("GraphBuilder: duplicate node id '" ++ d.nodeId ++ "'"))
      | none =>
        createAndIndexNodes registry defs
          ⟨g.nodes ++ [node], Function.update g.byId d.nodeId (some node.ptr)⟩

def wireNode (byId : String → Option Nat) (node : Node) : List String → Except Exn Node
  | [] => .ok node
  | dep :: deps =>
    match byId dep with
    | none => .error (.invalidArgument
        ("GraphBuilder: node '" ++ node.id ++ "' depends on unknown id '" ++ dep ++ "'"))
    | some p =>
      if p = node.ptr then
        .error (.runtimeError ("GraphBuilder: node '" ++ node.id ++ "' depends on itself"))
      else wireNode byId { node with dependencies := node.dependencies ++ [p] } deps

def wireNodes (byId : String → Option Nat) : List Node → List NodeDef → Except Exn (List Node)
  | nodes, [] => .ok nodes
  | [], _ :: _ => .error (.undefined "index past the end of nodes_")
  | node :: nodes, d :: defs => do
    let node ← wireNode byId node d.deps
    let nodes ← wireNodes byId nodes defs
    .ok (node :: nodes)

def wireDependencies (defs : List NodeDef) (g : Graph) : Except Exn Graph := do
  let nodes ← wireNodes g.byId g.nodes defs
  .ok { g with nodes := nodes }

def rejectCycles (g : Graph) : Except Exn Unit :=
  let nodes := g.nodes.map (·.ptr)
  match Dfs.searchFrom g.depsOf (Dfs.budget nodes g.depsOf) nodes Dfs.fresh with
  | .finished _ => .ok ()
  | .cycle p => .error (.runtimeError
      ("GraphBuilder: dependency cycle detected involving node '" ++ g.idOf p ++ "'"))
  | .fuel => .error .fuel

def wire (registry : NodeRegistry) (defs : List NodeDef) : Except Exn Graph := do
  let g ← createAndIndexNodes registry defs .empty
  wireDependencies defs g

def build (registry : NodeRegistry) (defs : List NodeDef) : Except Exn Graph := do
  let g ← wire registry defs
  rejectCycles g
  .ok g

def Declares (defs : List NodeDef) (x y : String) : Prop := ∃ d ∈ defs, d.nodeId = x ∧ y ∈ d.deps

structure Creatable (registry : NodeRegistry) (defs : List NodeDef) : Prop where
  types : ∀ d ∈ defs, d.type ≠ "" ∧ registry.contains d.type = true
  distinct : (defs.map NodeDef.nodeId).Nodup

structure Valid (registry : NodeRegistry) (defs : List NodeDef) : Prop
    extends Creatable registry defs where
  known : ∀ d ∈ defs, ∀ dep ∈ d.deps, dep ∈ defs.map NodeDef.nodeId
  acyclic : ∀ x, ¬ TransGen (Declares defs) x x

structure Declared (defs : List NodeDef) (g : Graph) : Prop where
  nodup : (g.nodes.map (·.ptr)).Nodup
  ids : g.nodes.map (·.id) = defs.map NodeDef.nodeId
  types : g.nodes.map (·.type) = defs.map (·.type)
  closed : ∀ n ∈ g.nodes, ∀ p ∈ n.dependencies, p ∈ g.nodes.map (·.ptr)
  dependencies : g.nodes.map (fun n => n.dependencies.map g.idOf) = defs.map (·.deps)

inductive Thrown : Exn → Prop
  | invalidArgument (what : String) : Thrown (.invalidArgument what)
  | outOfRange (what : String) : Thrown (.outOfRange what)
  | runtimeError (what : String) : Thrown (.runtimeError what)

inductive Passes {α : Type} (P : Prop) (Q : α → Prop) : Except Exn α → Prop
  | ok {a} (hp : P) (hq : Q a) : Passes P Q (.ok a)
  | error {e} (he : Thrown e) (hp : ¬ P) : Passes P Q (.error e)

theorem Passes.bind {α β : Type} {P R : Prop} {Q : α → Prop} {Q' : β → Prop} {x : Except Exn α}
    {f : α → Except Exn β} (h : Passes P Q x) (hR : R → P)
    (hf : ∀ a, P → Q a → Passes R Q' (f a)) : Passes R Q' (x >>= f) := by
  cases h with
  | ok hp hq => exact hf _ hp hq
  | error he hp => exact .error he fun hr => hp (hR hr)

theorem Passes.mono {α : Type} {P P' : Prop} {Q Q' : α → Prop} {x : Except Exn α}
    (h : Passes P Q x) (hP : P ↔ P') (hQ : ∀ a, P → Q a → Q' a) : Passes P' Q' x := by
  cases h with
  | ok hp hq => exact .ok (hP.1 hp) (hQ _ hp hq)
  | error he hp => exact .error he fun hr => hp (hP.2 hr)

section Create

variable {registry : NodeRegistry} {g : Graph}

structure Indexed (g : Graph) : Prop where
  ptrs : g.nodes.map (·.ptr) = List.range g.nodes.length
  byId_iff : ∀ id p, g.byId id = some p ↔ ∃ n ∈ g.nodes, n.id = id ∧ n.ptr = p

theorem indexed_empty : Indexed .empty := ⟨rfl, by simp [Graph.empty]⟩

theorem Indexed.add (h : Indexed g) (node : Node) (hptr : node.ptr = g.nodes.length)
    (hnew : g.byId node.id = none) :
    Indexed ⟨g.nodes ++ [node], Function.update g.byId node.id (some node.ptr)⟩ where
  ptrs := by simp [h.ptrs, hptr, List.range_succ]
  byId_iff := by
    intro id p
    rcases eq_or_ne id node.id with rfl | hne
    · have hnone : ∀ n ∈ g.nodes, n.id ≠ node.id := by
        intro n hn he
        have := (h.byId_iff node.id n.ptr).2 ⟨n, hn, he, rfl⟩
        simp [hnew] at this
      simp only [Function.update_self, Option.some.injEq, List.mem_append, List.mem_singleton]
      constructor
      · rintro rfl
        exact ⟨node, .inr rfl, rfl, rfl⟩
      · rintro ⟨n, hn | rfl, hid, hp⟩
        · exact absurd hid (hnone n hn)
        · exact hp
    · simp only [Function.update_of_ne hne, h.byId_iff, List.mem_append, List.mem_singleton]
      constructor
      · rintro ⟨n, hn, hid⟩
        exact ⟨n, .inl hn, hid⟩
      · rintro ⟨n, hn | rfl, hid, hp⟩
        · exact ⟨n, hn, hid, hp⟩
        · exact absurd hid hne.symm

theorem Indexed.mem_ids (h : Indexed g) {id : String} :
    id ∈ g.nodes.map (·.id) ↔ g.byId id ≠ none := by
  rw [Option.ne_none_iff_exists']
  constructor
  · rintro hmem
    obtain ⟨n, hn, rfl⟩ := List.mem_map.1 hmem
    exact ⟨n.ptr, (h.byId_iff _ _).2 ⟨n, hn, rfl, rfl⟩⟩
  · rintro ⟨p, hp⟩
    obtain ⟨n, hn, rfl, -⟩ := (h.byId_iff id p).1 hp
    exact List.mem_map_of_mem hn

structure Bare (n : Node) (d : NodeDef) : Prop where
  id : n.id = d.nodeId
  type : n.type = d.type
  dependencies : n.dependencies = []

theorem nodeId_ne {d : NodeDef} (h : d.type ≠ "") : d.nodeId ≠ "" := by
  unfold NodeDef.nodeId
  split_ifs with hid
  · exact h
  · exact hid

structure CreatableIn (registry : NodeRegistry) (g : Graph) (defs : List NodeDef) : Prop where
  types : ∀ d ∈ defs, d.type ≠ "" ∧ registry.contains d.type = true
  distinct : (g.nodes.map (·.id) ++ defs.map NodeDef.nodeId).Nodup

theorem create_passes (h : Indexed g) (hids : (g.nodes.map (·.id)).Nodup) (defs : List NodeDef) :
    Passes (CreatableIn registry g defs)
      (fun g' => Indexed g' ∧ ∃ new, g'.nodes = g.nodes ++ new ∧ List.Forall₂ Bare new defs)
      (createAndIndexNodes registry defs g) := by
  induction defs generalizing g with
  | nil => exact .ok ⟨by simp, by simpa using hids⟩ ⟨h, [], by simp, .nil⟩
  | cons d defs ih =>
    rw [createAndIndexNodes]
    split_ifs with htype
    · exact .error (.invalidArgument _) fun hc => (hc.types d (by simp)).1 htype
    · cases hreg : registry.contains d.type with
      | false =>
        rw [NodeRegistry.create, hreg]
        exact .error (.outOfRange _) fun hc => by simpa [hreg] using (hc.types d (by simp)).2
      | true =>
        rw [NodeRegistry.create, hreg, if_pos rfl, except_ok_bind, if_neg (nodeId_ne htype)]
        cases hid : g.byId d.nodeId with
        | some p =>
          refine .error (.invalidArgument _) fun hc => ?_
          have hmem : d.nodeId ∈ g.nodes.map (·.id) := h.mem_ids.2 (by simp [hid])
          exact (List.nodup_append.1 hc.distinct).2.2 _ hmem _ (by simp) rfl
        | none =>
          have hfresh : d.nodeId ∉ g.nodes.map (·.id) := fun hm => h.mem_ids.1 hm hid
          have hadd := h.add ⟨g.nodes.length, d.nodeId, d.type, []⟩ rfl hid
          refine (ih hadd ?_).mono ?_ ?_
          · rw [List.map_append]
            refine List.nodup_append.2 ⟨hids, by simp, ?_⟩
            rintro x hx y hy rfl
            have hy' : x = d.nodeId := by simpa using hy
            exact hfresh (hy' ▸ hx)
          · constructor
            · rintro ⟨htypes, hdistinct⟩
              refine ⟨?_, by simpa using hdistinct⟩
              simpa [htype, hreg] using htypes
            · rintro ⟨htypes, hdistinct⟩
              exact ⟨fun d' hd' => htypes d' (by simp [hd']), by simpa using hdistinct⟩
          · rintro g' - ⟨hi, new, hnodes, hnew⟩
            refine ⟨hi, ⟨g.nodes.length, d.nodeId, d.type, []⟩ :: new, ?_, .cons ⟨rfl, rfl, rfl⟩ hnew⟩
            simpa using hnodes

end Create

section Wire

variable {byId : String → Option Nat}

def Resolves (byId : String → Option Nat) (ps : List Nat) (deps : List String) : Prop :=
  List.Forall₂ (fun p dep => byId dep = some p) ps deps

theorem wireNode_passes (byId : String → Option Nat) (node : Node) (deps : List String) :
    Passes (∀ dep ∈ deps, ∃ p, byId dep = some p ∧ p ≠ node.ptr)
      (fun n => ∃ ps, n = { node with dependencies := node.dependencies ++ ps } ∧
        Resolves byId ps deps) (wireNode byId node deps) := by
  induction deps generalizing node with
  | nil => exact .ok (by simp) ⟨[], by simp, .nil⟩
  | cons dep deps ih =>
    rw [wireNode]
    cases hdep : byId dep with
    | none =>
      refine .error (.invalidArgument _) fun hall => ?_
      obtain ⟨p, hp, -⟩ := hall dep (by simp)
      simp [hdep] at hp
    | some p =>
      simp only
      split_ifs with hself
      · refine .error (.runtimeError _) fun hall => ?_
        obtain ⟨q, hq, hne⟩ := hall dep (by simp)
        exact hne (Option.some.inj (hq.symm.trans hdep) ▸ hself)
      · refine (ih _).mono ?_ ?_
        · simp [hdep, hself]
        · rintro n - ⟨ps, rfl, hps⟩
          exact ⟨p :: ps, by simp, .cons hdep hps⟩

structure Placed (byId : String → Option Nat) (n : Node) (d : NodeDef) : Prop where
  id : n.id = d.nodeId
  type : n.type = d.type
  found : byId d.nodeId = some n.ptr

structure WiredNode (byId : String → Option Nat) (n : Node) (d : NodeDef) : Prop
    extends Placed byId n d where
  dependencies : Resolves byId n.dependencies d.deps

def Wirable (byId : String → Option Nat) (d : NodeDef) : Prop :=
  ∀ dep ∈ d.deps, byId dep ≠ none ∧ dep ≠ d.nodeId

theorem wirable_iff (hinj : ∀ x y p, byId x = some p → byId y = some p → x = y) {n : Node}
    {d : NodeDef} (hp : Placed byId n d) :
    (∀ dep ∈ d.deps, ∃ p, byId dep = some p ∧ p ≠ n.ptr) ↔ Wirable byId d := by
  refine forall₂_congr fun dep _ => ?_
  constructor
  · rintro ⟨p, hdep, hne⟩
    refine ⟨by simp [hdep], ?_⟩
    rintro rfl
    exact hne (Option.some.inj (hdep.symm.trans hp.found))
  · rintro ⟨hdep, hne⟩
    obtain ⟨p, hp'⟩ := Option.ne_none_iff_exists'.1 hdep
    refine ⟨p, hp', ?_⟩
    rintro rfl
    exact hne (hinj _ _ _ hp' hp.found)

theorem wireNodes_passes (hinj : ∀ x y p, byId x = some p → byId y = some p → x = y)
    {nodes : List Node} {defs : List NodeDef} (h : List.Forall₂ Bare nodes defs)
    (hfound : ∀ n ∈ nodes, byId n.id = some n.ptr) :
    Passes (∀ d ∈ defs, Wirable byId d)
      (fun nodes' => nodes'.map (fun n => (n.id, n.ptr)) = nodes.map (fun n => (n.id, n.ptr)) ∧
        List.Forall₂ (WiredNode byId) nodes' defs)
      (wireNodes byId nodes defs) := by
  induction h with
  | nil => exact .ok (by simp) ⟨rfl, .nil⟩
  | @cons n d nodes defs hbare _ ih =>
    have hplaced : Placed byId n d := ⟨hbare.id, hbare.type, hbare.id ▸ hfound n (by simp)⟩
    have hcond := wirable_iff hinj hplaced
    have hrest := ih fun m hm => hfound m (by simp [hm])
    rw [wireNodes]
    refine (wireNode_passes byId n d.deps).bind (fun hall => hcond.2 (hall d (by simp))) ?_
    rintro n' hn ⟨ps, rfl, hps⟩
    refine (hrest.bind (R := ∀ d' ∈ defs, Wirable byId d') id ?_).mono ?_ fun _ _ hq => hq
    · rintro nodes' hall ⟨hkeys, hwired⟩
      have hresolved : Resolves byId (n.dependencies ++ ps) d.deps := by
        simpa [hbare.dependencies] using hps
      refine .ok hall ⟨by simp [hkeys], .cons ?_ hwired⟩
      exact ⟨⟨hplaced.id, hplaced.type, hplaced.found⟩, hresolved⟩
    · simp [hcond.1 hn]

structure Wired (defs : List NodeDef) (g : Graph) : Prop where
  nodup : (g.nodes.map (·.ptr)).Nodup
  byId_iff : ∀ id p, g.byId id = some p ↔ (id, p) ∈ g.nodes.map fun n => (n.id, n.ptr)
  nodes : List.Forall₂ (WiredNode g.byId) g.nodes defs

def Known (defs : List NodeDef) : Prop :=
  ∀ d ∈ defs, ∀ dep ∈ d.deps, dep ∈ defs.map NodeDef.nodeId ∧ dep ≠ d.nodeId

theorem Indexed.nodup {g : Graph} (h : Indexed g) : (g.nodes.map (·.ptr)).Nodup := by
  rw [h.ptrs]
  exact List.nodup_range

theorem Indexed.injective {g : Graph} (h : Indexed g) {x y : String} {p : Nat}
    (hx : g.byId x = some p) (hy : g.byId y = some p) : x = y := by
  obtain ⟨n, hn, rfl, hnp⟩ := (h.byId_iff x p).1 hx
  obtain ⟨m, hm, rfl, hmp⟩ := (h.byId_iff y p).1 hy
  rw [List.inj_on_of_nodup_map h.nodup hn hm (hnp.trans hmp.symm)]

theorem map_eq_map {α β γ : Type} {R : α → β → Prop} {f : α → γ} {f' : β → γ} {xs : List α}
    {ys : List β} (h : List.Forall₂ R xs ys) (hf : ∀ x y, R x y → f x = f' y) :
    xs.map f = ys.map f' := by
  induction h with
  | nil => rfl
  | cons hxy _ ih => rw [List.map_cons, List.map_cons, hf _ _ hxy, ih]

theorem wire_passes (registry : NodeRegistry) (defs : List NodeDef) :
    Passes (Creatable registry defs ∧ Known defs) (Wired defs) (wire registry defs) := by
  have hempty : CreatableIn registry .empty defs ↔ Creatable registry defs :=
    ⟨fun h => ⟨h.types, by simpa [Graph.empty] using h.distinct⟩,
      fun h => ⟨h.types, by simpa [Graph.empty] using h.distinct⟩⟩
  refine (create_passes indexed_empty (by simp [Graph.empty]) defs).bind
    (fun h => hempty.2 h.1) ?_
  rintro g hcreate ⟨hi, new, hnodes, hbare⟩
  obtain rfl : g.nodes = new := by simpa [Graph.empty] using hnodes
  have hfound : ∀ n ∈ g.nodes, g.byId n.id = some n.ptr := fun n hn =>
    (hi.byId_iff _ _).2 ⟨n, hn, rfl, rfl⟩
  have hknown : (∀ d ∈ defs, Wirable g.byId d) ↔ Creatable registry defs ∧ Known defs := by
    rw [and_iff_right (hempty.1 hcreate)]
    refine forall₂_congr fun d _ => forall₂_congr fun dep _ => and_congr_left fun _ => ?_
    rw [← map_eq_map hbare fun _ _ hb => hb.id, hi.mem_ids]
  rw [wireDependencies]
  refine ((wireNodes_passes (fun _ _ _ => hi.injective) hbare hfound).mono hknown
    fun _ _ hq => hq).bind id ?_
  rintro nodes hvalid ⟨hkeys, hwired⟩
  refine .ok hvalid ⟨?_, fun id p => ?_, hwired⟩
  · have hptrs := congrArg (List.map Prod.snd) hkeys
    simp only [List.map_map] at hptrs
    exact hptrs ▸ hi.nodup
  · rw [hkeys, hi.byId_iff]
    simp

end Wire

section Cycles

variable {defs : List NodeDef} {g : Graph}

theorem find_ptr {nodes : List Node} (h : (nodes.map (·.ptr)).Nodup) {n : Node} (hn : n ∈ nodes) :
    nodes.find? (·.ptr = n.ptr) = some n := by
  induction nodes with
  | nil => cases hn
  | cons m nodes ih =>
    obtain ⟨hm, hnodes⟩ := List.nodup_cons.1 h
    rcases List.mem_cons.1 hn with rfl | hn
    · simp
    · have hne : m.ptr ≠ n.ptr := fun he => hm (List.mem_map.2 ⟨n, hn, he.symm⟩)
      rw [List.find?_cons_of_neg (by simpa using hne)]
      exact ih hnodes hn

theorem Wired.depsOf (h : Wired defs g) {n : Node} (hn : n ∈ g.nodes) :
    g.depsOf n.ptr = n.dependencies := by
  rw [Graph.depsOf, find_ptr h.nodup hn]

theorem Wired.idOf (h : Wired defs g) {x : String} {p : Nat} (hp : g.byId x = some p) :
    g.idOf p = x ∧ p ∈ g.nodes.map (·.ptr) := by
  obtain ⟨n, hn, he⟩ := List.mem_map.1 ((h.byId_iff x p).1 hp)
  obtain ⟨rfl, rfl⟩ := Prod.mk.inj he
  exact ⟨by rw [Graph.idOf, find_ptr h.nodup hn], List.mem_map_of_mem hn⟩

theorem node_of_dependsOn {p q : Nat} (h : Kahn.DependsOn g.depsOf p q) :
    ∃ n ∈ g.nodes, n.ptr = p ∧ q ∈ n.dependencies := by
  unfold Kahn.DependsOn Graph.depsOf at h
  cases hn : g.nodes.find? (·.ptr = p) with
  | none => simp [hn] at h
  | some n =>
    rw [hn] at h
    exact ⟨n, List.mem_of_find?_eq_some hn, by simpa using List.find?_some hn, h⟩

theorem partners {α β : Type} {R : α → β → Prop} {xs : List α} {ys : List β}
    (h : List.Forall₂ R xs ys) : (∀ x ∈ xs, ∃ y ∈ ys, R x y) ∧ ∀ y ∈ ys, ∃ x ∈ xs, R x y := by
  induction h with
  | nil => simp
  | @cons x y xs ys hxy _ ih =>
    refine ⟨List.forall_mem_cons.2 ⟨⟨y, by simp, hxy⟩, fun z hz => ?_⟩,
      List.forall_mem_cons.2 ⟨⟨x, by simp, hxy⟩, fun z hz => ?_⟩⟩
    · obtain ⟨w, hw, hzw⟩ := ih.1 z hz
      exact ⟨w, by simp [hw], hzw⟩
    · obtain ⟨w, hw, hzw⟩ := ih.2 z hz
      exact ⟨w, by simp [hw], hzw⟩

theorem Wired.declares_of_dependsOn (h : Wired defs g) {p q : Nat}
    (hpq : Kahn.DependsOn g.depsOf p q) : Declares defs (g.idOf p) (g.idOf q) := by
  obtain ⟨n, hn, rfl, hq⟩ := node_of_dependsOn hpq
  obtain ⟨d, hd, hnd⟩ := (partners h.nodes).1 n hn
  obtain ⟨dep, hdep, hfound⟩ := (partners hnd.dependencies).1 q hq
  rw [(h.idOf hnd.found).1, (h.idOf hfound).1]
  exact ⟨d, hd, rfl, hdep⟩

theorem Wired.dependsOn_of_declares (h : Wired defs g) {x y : String} (hxy : Declares defs x y) :
    Kahn.DependsOn g.depsOf ((g.byId x).getD 0) ((g.byId y).getD 0) := by
  obtain ⟨d, hd, rfl, hdep⟩ := hxy
  obtain ⟨n, hn, hnd⟩ := (partners h.nodes).2 d hd
  obtain ⟨q, hq, hfound⟩ := (partners hnd.dependencies).2 y hdep
  rw [hnd.found, hfound, Option.getD_some, Option.getD_some, Kahn.DependsOn, h.depsOf hn]
  exact hq

theorem Wired.acyclic_iff (h : Wired defs g) :
    Kahn.Acyclic g.depsOf ↔ ∀ x, ¬ TransGen (Declares defs) x x :=
  ⟨fun ha _ hx => ha _ (hx.lift (fun x => (g.byId x).getD 0) fun _ _ => h.dependsOn_of_declares),
    fun ha _ hp => ha _ (hp.lift g.idOf fun _ _ => h.declares_of_dependsOn)⟩

theorem Wired.closed (h : Wired defs g) : Kahn.Closed (g.nodes.map (·.ptr)) g.depsOf where
  nodes_nodup := h.nodup
  deps_mem := by
    intro p q hq
    obtain ⟨n, hn, -, hq⟩ := node_of_dependsOn hq
    obtain ⟨d, -, hnd⟩ := (partners h.nodes).1 n hn
    obtain ⟨dep, -, hfound⟩ := (partners hnd.dependencies).1 q hq
    exact (h.idOf hfound).2
  mem_of_deps := by
    intro p hp
    obtain ⟨q, hq⟩ := List.exists_mem_of_ne_nil _ hp
    obtain ⟨n, hn, rfl, -⟩ := node_of_dependsOn hq
    exact List.mem_map_of_mem hn

theorem Wired.declared (h : Wired defs g) : Declared defs g where
  nodup := h.nodup
  closed := fun n hn p hp => h.closed.deps_mem n.ptr p (h.depsOf hn ▸ hp)
  ids := map_eq_map h.nodes fun _ _ hnd => hnd.id
  types := map_eq_map h.nodes fun _ _ hnd => hnd.type
  dependencies := map_eq_map h.nodes fun n d hnd => by
    have hids := map_eq_map hnd.dependencies fun p dep hp => (h.idOf hp).1
    rw [hids, List.map_id']

theorem rejectCycles_passes (h : Kahn.Closed (g.nodes.map (·.ptr)) g.depsOf) :
    Passes (Kahn.Acyclic g.depsOf) (fun _ => True) (rejectCycles g) := by
  rw [rejectCycles]
  rcases Dfs.searchFrom_decides h with ⟨⟨marks, hr⟩, ha⟩ | ⟨p, hr, hp⟩
  · rw [hr]
    exact .ok ha trivial
  · rw [hr]
    exact .error (.runtimeError _) fun ha => ha p hp

theorem valid_iff {registry : NodeRegistry} : Valid registry defs ↔
    (Creatable registry defs ∧ Known defs) ∧ ∀ x, ¬ TransGen (Declares defs) x x := by
  constructor
  · intro h
    refine ⟨⟨h.toCreatable, fun d hd dep hdep => ⟨h.known d hd dep hdep, ?_⟩⟩, h.acyclic⟩
    rintro rfl
    exact h.acyclic d.nodeId (.single ⟨d, hd, rfl, hdep⟩)
  · rintro ⟨⟨hc, hk⟩, ha⟩
    exact ⟨hc, fun d hd dep hdep => (hk d hd dep hdep).1, ha⟩

theorem build_passes (registry : NodeRegistry) (defs : List NodeDef) :
    Passes (Valid registry defs) (Declared defs) (build registry defs) := by
  rw [build]
  refine (wire_passes registry defs).bind (fun h => (valid_iff.1 h).1) fun g hc hw => ?_
  have hiff : Kahn.Acyclic g.depsOf ↔ Valid registry defs := by
    rw [valid_iff, hw.acyclic_iff, and_iff_right hc]
  refine (rejectCycles_passes hw.closed).bind hiff.2 fun _ ha _ => ?_
  exact .ok (hiff.1 ha) hw.declared

end Cycles

theorem Passes.ok_iff {α : Type} {P : Prop} {Q : α → Prop} {x : Except Exn α} (h : Passes P Q x) :
    (∃ a, x = .ok a) ↔ P := by
  cases h with
  | ok hp _ => simpa using hp
  | error _ hp => simpa using hp

theorem Passes.error_iff {α : Type} {P : Prop} {Q : α → Prop} {x : Except Exn α}
    (h : Passes P Q x) : (∃ e, Thrown e ∧ x = .error e) ↔ ¬ P := by
  cases h with
  | ok hp _ => simpa using hp
  | error he hp => simpa [he] using hp

theorem Passes.result {α : Type} {P : Prop} {Q : α → Prop} {x : Except Exn α} {a : α}
    (h : Passes P Q x) (hx : x = .ok a) : Q a := by
  cases h with
  | ok _ hq => exact Except.ok.inj hx ▸ hq
  | error _ _ => cases hx

theorem build_accepts_dags (registry : NodeRegistry) (defs : List NodeDef) :
    ((∃ g, build registry defs = .ok g) ↔ Valid registry defs) ∧
      (∀ g, build registry defs = .ok g → Declared defs g) ∧
      ((∃ e, Thrown e ∧ build registry defs = .error e) ↔ ¬ Valid registry defs) ∧
      ∀ g, wire registry defs = .ok g →
        (rejectCycles g = .ok () ↔ Kahn.Acyclic g.depsOf) ∧
        ((∃ e, Thrown e ∧ rejectCycles g = .error e) ↔
          ∃ x, TransGen (Declares defs) x x) := by
  have hbuild := build_passes registry defs
  refine ⟨hbuild.ok_iff, fun g => hbuild.result, hbuild.error_iff, fun g hg => ?_⟩
  have hw := (wire_passes registry defs).result hg
  have hreject := rejectCycles_passes hw.closed
  refine ⟨?_, ?_⟩
  · rw [← hreject.ok_iff]
    exact ⟨fun h => ⟨(), h⟩, fun ⟨_, h⟩ => h⟩
  · rw [hreject.error_iff, hw.acyclic_iff]
    push Not
    rfl

def sampleRegistry : NodeRegistry := ⟨(· ∈ ["fetch", "merge"])⟩

def sampleDefs : List NodeDef := [.make "merge" ["a", "b", "a"] "", .make "fetch" [] "a",
  .make "fetch" ["a"] "b"]

theorem build_accepts_dags_diamond : ∃ g, build sampleRegistry sampleDefs = .ok g ∧
    Declared sampleDefs g ∧ Valid sampleRegistry sampleDefs := by
  obtain ⟨hiff, hdeclared, -⟩ := build_accepts_dags sampleRegistry sampleDefs
  obtain ⟨g, hg⟩ : ∃ g, build sampleRegistry sampleDefs = .ok g := ⟨_, rfl⟩
  exact ⟨g, hg, hdeclared g hg, hiff.1 ⟨g, hg⟩⟩

end GraphBuilder

end Lark.Dag
