import Lark.Column.Biz.Wiring

namespace Lark.Column.Biz

open Lark.Base Lark.Column.Exec CompileM

theorem placeholderId_inj {c c' : String} (h : placeholderId c = placeholderId c') : c = c' :=
  (String.append_right_inj _).1 h

theorem tailPlaceholderId_inj {d d' : String} (h : tailPlaceholderId d = tailPlaceholderId d') :
    d = d' :=
  (String.append_right_inj _).1 h

theorem placeholderId_ne_tail (c d : String) : placeholderId c ≠ tailPlaceholderId d := by
  intro h
  have := congrArg String.toList h
  simp [placeholderId, tailPlaceholderId, String.toList_append] at this

theorem startsWithAt_placeholderId (c : String) : startsWithAt (placeholderId c) = true := by
  simp [startsWithAt, placeholderId, String.toList_append]

theorem startsWithAt_tailPlaceholderId (d : String) :
    startsWithAt (tailPlaceholderId d) = true := by
  simp [startsWithAt, tailPlaceholderId, String.toList_append]

theorem startsWithAt_append {a b : String} (ha : startsWithAt a = false)
    (hb : startsWithAt b = false) : startsWithAt (a ++ b) = false := by
  simp only [startsWithAt, String.toList_append, List.head?_append, decide_eq_false_iff_not] at *
  cases h : a.toList.head? with
  | none => simpa [h] using hb
  | some c => simpa [h] using ha

namespace NodeKey

def Plain (k : NodeKey) : Prop := startsWithAt k.module = false

theorem id_eq (k : NodeKey) : ∃ rest, k.id = k.module ++ ("/" ++ rest) := by
  cases k with
  | input m p => exact ⟨"@in:" ++ p, by simp [id, inputId, module, ← String.append_assoc]⟩
  | op m k => exact ⟨"op" ++ toString k, by simp [id, opId, module, ← String.append_assoc]⟩
  | output m p => exact ⟨"@out:" ++ p, by simp [id, outputId, module, ← String.append_assoc]⟩
  | noop m => exact ⟨"@noop", rfl⟩
  | dep m d => exact ⟨"@dep:" ++ d, by simp [id, depId, module, ← String.append_assoc]⟩

theorem id_isEmpty (k : NodeKey) : k.id.isEmpty = false := by
  obtain ⟨rest, h⟩ := k.id_eq
  rw [h]
  have : (k.module ++ ("/" ++ rest)).toList ≠ [] := by simp [String.toList_append]
  by_contra he
  simp at he

theorem id_plain {k : NodeKey} (h : k.Plain) : startsWithAt k.id = false := by
  obtain ⟨rest, he⟩ := k.id_eq
  rw [he]
  exact startsWithAt_append h (by simp [startsWithAt, String.toList_append])

end NodeKey

section

variable (ms : List Module)

inductive StandsFor : String → NodeKey → Prop
  | column {c : String} {k : NodeKey} (h : producer ms c = some k) : StandsFor (placeholderId c) k
  | tail {d : String} {k : NodeKey} (h : tailOf ms d = some k) : StandsFor (tailPlaceholderId d) k

def Refers (y : String) (k : NodeKey) : Prop := y = k.id ∨ StandsFor ms y k

def IsKey : NodeKey → Prop
  | .input m p => ∃ M ∈ ms, M.name = m ∧ p ∈ M.inputs
  | .op m k => ∃ M ∈ ms, M.name = m ∧ k < M.ops.length
  | .output m p => ∃ M ∈ ms, M.name = m ∧ p ∈ M.outputs
  | .noop m => ∃ M ∈ ms, M.name = m
  | .dep m d => ∃ M ∈ ms, M.name = m ∧ d ∈ M.dependencies

def IdsDistinct : Prop := ∀ k k', IsKey ms k → IsKey ms k' → k.id = k'.id → k = k'

structure Compilable : Prop where
  names : (ms.map (·.name)).Nodup
  plain : ∀ m ∈ ms, startsWithAt m.name = false
  unambiguous : ∀ m ∈ ms, ∀ m' ∈ ms, ∀ c, c ∈ m.written → c ∈ m'.written →
    isLocalName c = false → m = m'
  ok : ∀ m ∈ ms, m.Ok
  deps : ∀ m ∈ ms, ∀ d ∈ m.dependencies, ∃ m' ∈ ms, m'.name = d

def Declared (c : String) : Prop :=
  ∃ m ∈ ms, c ∈ m.inputs ∨ c ∈ m.outputs ∨ c = "@noop:" ++ m.name ∨
    c = m.name ∧ m.dependencies ≠ []

def AnchorNode (o : Op) : Prop := o.isAnchor = true ∧ ∀ c ∈ o.outputs, Declared ms c

def OpNode (n : ComputeNode) (o : Op) : Prop :=
  ∃ m ∈ ms, ∃ spec k, m.ops[k]? = some spec ∧ n.id = opId m.name k ∧ n.module = m.name ∧
    createOp (remapSpec m.name spec) = .ok o

-- The graph against the nodes and edges it should have; `S` are the ids that stand in for nodes of
-- modules still to come.
structure GraphTracks (g : ComputeGraph) (nodes : List NodeKey) (edges : List (NodeKey × NodeKey))
    (S : String → Prop) : Prop where
  wf : g.WellFormed
  has : ∀ x, g.Has x ↔ (∃ k ∈ nodes, k.id = x) ∨ S x
  keys : ∀ k ∈ nodes, IsKey ms k
  edges_mem : ∀ a b, (a, b) ∈ edges → a ∈ nodes ∧ b.Plain ∧ ∃ y, Refers ms y b ∧ g.Edge a.id y
  edges_of : ∀ x y, g.Edge x y → ∃ a ∈ nodes, a.id = x ∧
    ((∃ b, Refers ms y b ∧ (a, b) ∈ edges) ∨ ∃ c, y = placeholderId c ∧ producer ms c = none)
  pending : ∀ n ∈ g.nodes, n.op.isPlaceholder = true → g.byId n.id = some n.ptr ∧ S n.id
  standing : ∀ n ∈ g.nodes, startsWithAt n.id = true → n.op.isPlaceholder = true
  kinds : ∀ n ∈ g.nodes, ∀ o, n.op = .op o → AnchorNode ms o ∨ OpNode ms n o
  ids : ∀ n ∈ g.nodes, g.Has n.id
  unique : IdsDistinct ms → ∀ n ∈ g.nodes, ∀ m k, IsKey ms (.op m k) → n.id = opId m k →
    g.byId n.id = some n.ptr

end

variable {ms : List Module}

theorem isKey_module {k : NodeKey} (h : IsKey ms k) : ∃ m ∈ ms, m.name = k.module := by
  cases k with
  | noop m => exact h
  | input m p => exact h.imp fun M hM => ⟨hM.1, hM.2.1⟩
  | op m p => exact h.imp fun M hM => ⟨hM.1, hM.2.1⟩
  | output m p => exact h.imp fun M hM => ⟨hM.1, hM.2.1⟩
  | dep m p => exact h.imp fun M hM => ⟨hM.1, hM.2.1⟩

theorem Compilable.isKey_plain (hc : Compilable ms) {k : NodeKey} (h : IsKey ms k) : k.Plain := by
  obtain ⟨m, hm, he⟩ := isKey_module h
  rw [NodeKey.Plain, ← he]
  exact hc.plain m hm

theorem standsFor_inj {y : String} {k k' : NodeKey} (h : StandsFor ms y k)
    (h' : StandsFor ms y k') : k = k' := by
  generalize hy : y = z at h'
  cases h with
  | @column c k h =>
    cases h' with
    | @column c' k' h' =>
      obtain rfl := placeholderId_inj hy
      exact Option.some.inj (h.symm.trans h')
    | @tail d k' h' => exact absurd hy (placeholderId_ne_tail c d)
  | @tail d k h =>
    cases h' with
    | @column c' k' h' => exact absurd hy.symm (placeholderId_ne_tail c' d)
    | @tail d' k' h' =>
      obtain rfl := tailPlaceholderId_inj hy
      exact Option.some.inj (h.symm.trans h')

theorem standsFor_startsWithAt {y : String} {k : NodeKey} (h : StandsFor ms y k) :
    startsWithAt y = true := by
  cases h with
  | column _ => exact startsWithAt_placeholderId _
  | tail _ => exact startsWithAt_tailPlaceholderId _

theorem not_standsFor_column {c : String} (h : producer ms c = none) (k : NodeKey) :
    ¬ StandsFor ms (placeholderId c) k := by
  intro hs
  generalize hy : placeholderId c = y at hs
  cases hs with
  | @column c' k hk =>
    obtain rfl := placeholderId_inj hy
    rw [h] at hk
    cases hk
  | @tail d k hk => exact placeholderId_ne_tail c d hy

theorem kind_of_same {n n' : ComputeNode} {o : Op} (hid : n'.id = n.id)
    (hmod : n'.module = n.module) (h : AnchorNode ms o ∨ OpNode ms n' o) :
    AnchorNode ms o ∨ OpNode ms n o := by
  rcases h with ha | ⟨m, hm, spec, k, hs, hk, hkm, hcr⟩
  · exact .inl ha
  · exact .inr ⟨m, hm, spec, k, hs, hid ▸ hk, hmod ▸ hkm, hcr⟩

theorem mem_of_removed {g g' : ComputeGraph} {q : Nat}
    (hcore : g'.nodes.map ComputeNode.core = (g.nodes.map ComputeNode.core).filter (·.1 ≠ q))
    {n : ComputeNode} (hn : n ∈ g'.nodes) : ∃ n' ∈ g.nodes, n'.ptr = n.ptr ∧ n'.id = n.id ∧
      n'.module = n.module ∧ n'.op = n.op ∧ n.ptr ≠ q := by
  have hin : n.core ∈ (g.nodes.map ComputeNode.core).filter (·.1 ≠ q) := by
    rw [← hcore]
    exact List.mem_map_of_mem hn
  obtain ⟨hin, hne⟩ := List.mem_filter.1 hin
  obtain ⟨n', hn', he⟩ := List.mem_map.1 hin
  simp only [ComputeNode.core, Prod.mk.injEq] at he
  exact ⟨n', hn', he.1, he.2.1, he.2.2.1, he.2.2.2, of_decide_eq_true hne⟩

namespace GraphTracks

variable {g : ComputeGraph} {nodes : List NodeKey} {edges : List (NodeKey × NodeKey)}
  {S : String → Prop}

theorem start : GraphTracks ms .empty [] [] fun _ => False where
  wf := ComputeGraph.wellFormed_empty
  has := by simp [ComputeGraph.Has, ComputeGraph.empty]
  keys := by simp
  edges_mem := by simp
  edges_of := by simp [ComputeGraph.Edge, ComputeGraph.empty]
  pending := by simp [ComputeGraph.empty]
  standing := by simp [ComputeGraph.empty]
  kinds := by simp [ComputeGraph.empty]
  ids := by simp [ComputeGraph.empty]
  unique := by simp [ComputeGraph.empty]

theorem congr {S' : String → Prop} (h : GraphTracks ms g nodes edges S) (hs : ∀ x, S x ↔ S' x) :
    GraphTracks ms g nodes edges S' := by
  obtain rfl : S = S' := funext fun x => propext (hs x)
  exact h

theorem addNode (h : GraphTracks ms g nodes edges S) (hc : Compilable ms) {key : NodeKey}
    (hk : IsKey ms key) {module : String} {o : Op}
    (ho : (AnchorNode ms o ∧ ∀ m k, key ≠ .op m k) ∨ ∃ m ∈ ms, ∃ spec k, m.ops[k]? = some spec ∧
      key = .op m.name k ∧ module = m.name ∧ createOp (remapSpec m.name spec) = .ok o ∧ key ∉ nodes)
    (hS : ∀ x, S x → startsWithAt x = true) :
    GraphTracks ms (g.addNode key.id module (.op o)) (nodes ++ [key]) edges S where
  wf := h.wf.addNode
  has := by
    intro x
    rw [ComputeGraph.has_addNode, h.has]
    simp only [List.mem_append, List.mem_singleton]
    constructor
    · rintro ((⟨k, hk, rfl⟩ | hs) | rfl)
      · exact .inl ⟨k, .inl hk, rfl⟩
      · exact .inr hs
      · exact .inl ⟨key, .inr rfl, rfl⟩
    · rintro (⟨k, hk | rfl, rfl⟩ | hs)
      · exact .inl (.inl ⟨k, hk, rfl⟩)
      · exact .inr rfl
      · exact .inl (.inr hs)
  keys := by
    intro k hm
    rcases List.mem_append.1 hm with hm | hm
    · exact h.keys k hm
    · obtain rfl := List.mem_singleton.1 hm
      exact hk
  edges_mem := by
    intro a b hab
    obtain ⟨ha, hb, y, hy, he⟩ := h.edges_mem a b hab
    exact ⟨List.mem_append_left _ ha, hb, y, hy, (ComputeGraph.edge_addNode h.wf).2 he⟩
  edges_of := by
    intro x y he
    obtain ⟨a, ha, hx, hcase⟩ := h.edges_of x y ((ComputeGraph.edge_addNode h.wf).1 he)
    exact ⟨a, List.mem_append_left _ ha, hx, hcase⟩
  pending := by
    intro n hn hp
    rcases List.mem_append.1 hn with hn | hn
    · obtain ⟨hb, hs⟩ := h.pending n hn hp
      exact ⟨ComputeGraph.byId_addNode_of_some hb, hs⟩
    · obtain rfl := List.mem_singleton.1 hn
      simp [NodeOp.isPlaceholder] at hp
  standing := by
    intro n hn hp
    rcases List.mem_append.1 hn with hn | hn
    · exact h.standing n hn hp
    · obtain rfl := List.mem_singleton.1 hn
      rw [NodeKey.id_plain (hc.isKey_plain hk)] at hp
      exact absurd hp (by decide)
  kinds := by
    intro n hn o' he
    rcases List.mem_append.1 hn with hn | hn
    · exact h.kinds n hn o' he
    · obtain rfl := List.mem_singleton.1 hn
      obtain rfl : o = o' := by simpa using he
      rcases ho with ⟨ha, -⟩ | ⟨m, hm, spec, k, hspec, rfl, rfl, hop, -⟩
      · exact .inl ha
      · exact .inr ⟨m, hm, spec, k, hspec, rfl, rfl, hop⟩
  ids := by
    intro n hn
    rw [ComputeGraph.has_addNode]
    rcases List.mem_append.1 hn with hn | hn
    · exact .inl (h.ids n hn)
    · obtain rfl := List.mem_singleton.1 hn
      exact .inr rfl
  unique := by
    intro hd n hn m k hop hid
    rcases List.mem_append.1 hn with hn | hn
    · exact ComputeGraph.byId_addNode_of_some (h.unique hd n hn m k hop hid)
    · obtain rfl := List.mem_singleton.1 hn
      obtain rfl : key = .op m k := hd key _ hk hop hid
      rcases ho with ⟨-, hne⟩ | ⟨-, -, -, -, -, -, -, -, hfresh⟩
      · exact absurd rfl (hne m k)
      · have hnone : g.byId (NodeKey.op m k).id = none := by
          by_contra hne
          obtain ⟨p, hp⟩ := Option.ne_none_iff_exists'.1 hne
          rcases (h.has _).1 ⟨p, hp⟩ with ⟨k', hk', he'⟩ | hs
          · exact hfresh (hd k' _ (h.keys k' hk') hk he' ▸ hk')
          · have := hS _ hs
            rw [NodeKey.id_plain (hc.isKey_plain hk)] at this
            exact absurd this (by decide)
        simp [ComputeGraph.addNode, hnone]

theorem addPlaceholder (h : GraphTracks ms g nodes edges S) (hc : Compilable ms) {id : String}
    (output : String) (hid : startsWithAt id = true) (hS : ¬ S id) :
    GraphTracks ms (g.addPlaceholder output id) nodes edges fun x => S x ∨ x = id where
  wf := h.wf.addNode
  has := by
    intro x
    rw [ComputeGraph.addPlaceholder, ComputeGraph.has_addNode, h.has, or_assoc]
  keys := h.keys
  edges_mem := by
    intro a b hab
    obtain ⟨ha, hb, y, hy, he⟩ := h.edges_mem a b hab
    exact ⟨ha, hb, y, hy, (ComputeGraph.edge_addNode h.wf).2 he⟩
  edges_of := fun x y he => h.edges_of x y ((ComputeGraph.edge_addNode h.wf).1 he)
  pending := by
    intro n hn hp
    rcases List.mem_append.1 hn with hn | hn
    · obtain ⟨hb, hs⟩ := h.pending n hn hp
      exact ⟨ComputeGraph.byId_addNode_of_some hb, .inl hs⟩
    · obtain rfl := List.mem_singleton.1 hn
      have hnone : g.byId id = none := by
        by_contra hne
        obtain ⟨p, hp⟩ := Option.ne_none_iff_exists'.1 hne
        rcases (h.has _).1 ⟨p, hp⟩ with ⟨k, hk, rfl⟩ | hs
        · rw [NodeKey.id_plain (hc.isKey_plain (h.keys k hk))] at hid
          exact absurd hid (by decide)
        · exact hS hs
      exact ⟨by simp [ComputeGraph.addPlaceholder, ComputeGraph.addNode, hnone], .inr rfl⟩
  standing := by
    intro n hn hp
    rcases List.mem_append.1 hn with hn | hn
    · exact h.standing n hn hp
    · obtain rfl := List.mem_singleton.1 hn
      rfl
  kinds := by
    intro n hn o he
    rcases List.mem_append.1 hn with hn | hn
    · exact h.kinds n hn o he
    · obtain rfl := List.mem_singleton.1 hn
      simp at he
  ids := by
    intro n hn
    rw [ComputeGraph.addPlaceholder, ComputeGraph.has_addNode]
    rcases List.mem_append.1 hn with hn | hn
    · exact .inl (h.ids n hn)
    · obtain rfl := List.mem_singleton.1 hn
      exact .inr rfl
  unique := by
    intro hd n hn m k hop hkid
    rcases List.mem_append.1 hn with hn | hn
    · exact ComputeGraph.byId_addNode_of_some (h.unique hd n hn m k hop hkid)
    · obtain rfl := List.mem_singleton.1 hn
      have hplain := NodeKey.id_plain (hc.isKey_plain hop)
      rw [show (NodeKey.op m k).id = id from hkid.symm, hid] at hplain
      exact absurd hplain (by decide)

theorem of_core {g' : ComputeGraph} (h : GraphTracks ms g nodes edges S) (hbyId : g'.byId = g.byId)
    (hcore : g'.nodes.map ComputeNode.core = g.nodes.map ComputeNode.core) :
    (∀ n ∈ g'.nodes, n.op.isPlaceholder = true → g'.byId n.id = some n.ptr ∧ S n.id) ∧
      (∀ n ∈ g'.nodes, startsWithAt n.id = true → n.op.isPlaceholder = true) ∧
      (∀ n ∈ g'.nodes, ∀ o, n.op = .op o → AnchorNode ms o ∨ OpNode ms n o) ∧
      (∀ n ∈ g'.nodes, g'.Has n.id) ∧
      (IdsDistinct ms → ∀ n ∈ g'.nodes, ∀ m k, IsKey ms (.op m k) → n.id = opId m k →
        g'.byId n.id = some n.ptr) := by
  refine ⟨fun n hn hp => ?_, fun n hn hp => ?_, fun n hn o ho => ?_, fun n hn => ?_,
    fun hd n hn m k hop hid => ?_⟩
  all_goals
    obtain ⟨n', hn', hptr, hid', hmod, hop'⟩ := ComputeGraph.mem_of_core hcore.symm hn
  · have := h.pending n' hn' (by rw [hop']; exact hp)
    rwa [hbyId, ← hid', ← hptr]
  · rw [← hop']
    exact h.standing n' hn' (by rw [hid']; exact hp)
  · exact kind_of_same hid' hmod (h.kinds n' hn' o (by rw [hop']; exact ho))
  · have := h.ids n' hn'
    rwa [hid', ComputeGraph.Has, ← hbyId] at this
  · have := h.unique hd n' hn' m k hop (hid'.trans hid)
    rwa [hbyId, ← hid', ← hptr]

theorem addDependency (h : GraphTracks ms g nodes edges S) {a : NodeKey} {y : String}
    {bs : List NodeKey} (ha : a ∈ nodes) (hy : g.Has y)
    (hb : (∃ b, bs = [b] ∧ b.Plain ∧ Refers ms y b) ∨
      bs = [] ∧ ∃ c, y = placeholderId c ∧ producer ms c = none) :
    ∃ g', g.addDependency a.id y = .ok g' ∧
      GraphTracks ms g' nodes (edges ++ bs.map fun b => (a, b)) S := by
  have hhas : g.Has a.id := (h.has _).2 (.inl ⟨a, ha, rfl⟩)
  obtain ⟨g', hg', hwf, hbyId, hcore, hedge⟩ := ComputeGraph.addDependency_ok h.wf hhas hy
  obtain ⟨hpending, hstanding, hkinds, hids, hunique⟩ := h.of_core hbyId hcore
  refine ⟨g', hg', ⟨hwf, ?_, h.keys, ?_, ?_, hpending, hstanding, hkinds, hids, hunique⟩⟩
  · intro x
    rw [← h.has x]
    unfold ComputeGraph.Has
    rw [hbyId]
  · intro a' b' hab
    rcases List.mem_append.1 hab with hab | hab
    · obtain ⟨ha', hb', z, hz, he⟩ := h.edges_mem a' b' hab
      exact ⟨ha', hb', z, hz, (hedge _ _).2 (.inl he)⟩
    · rcases hb with ⟨b, rfl, hplain, href⟩ | ⟨rfl, -⟩
      · obtain ⟨rfl, rfl⟩ : a' = a ∧ b' = b := by simpa using hab
        exact ⟨ha, hplain, y, href, (hedge _ _).2 (.inr ⟨rfl, rfl⟩)⟩
      · simp at hab
  · intro x z he
    rcases (hedge x z).1 he with he | ⟨rfl, rfl⟩
    · obtain ⟨a', ha', hx, hcase⟩ := h.edges_of x z he
      exact ⟨a', ha', hx, hcase.imp_left fun ⟨b, hr, hm⟩ => ⟨b, hr, List.mem_append_left _ hm⟩⟩
    · refine ⟨a, ha, rfl, ?_⟩
      rcases hb with ⟨b, rfl, -, href⟩ | ⟨-, hc⟩
      · exact .inl ⟨b, href, by simp⟩
      · exact .inr hc

theorem replacePlaceholder (h : GraphTracks ms g nodes edges S) (hc : Compilable ms) {p : String}
    {b : NodeKey} (hp : S p) (hb : b ∈ nodes) (hsf : StandsFor ms p b)
    (hS : ∀ x, S x → startsWithAt x = true) :
    ∃ g', g.replacePlaceholder p b.id = .ok g' ∧
      GraphTracks ms g' nodes edges fun x => S x ∧ x ≠ p := by
  have hplain : ∀ k : NodeKey, k.Plain → k.id ≠ p := by
    rintro k hk rfl
    have := NodeKey.id_plain hk
    rw [hS _ hp] at this
    exact absurd this (by decide)
  have hbp : b.id ≠ p := hplain b (hc.isKey_plain (h.keys b hb))
  obtain ⟨g', q, hg', hwf, hq, hbyId, hcore, hedge⟩ := ComputeGraph.replacePlaceholder_ok h.wf
    ((h.has p).2 (.inr hp)) ((h.has b.id).2 (.inl ⟨b, hb, rfl⟩)) hbp.symm
  have hkeep : ∀ {x : String} {r : Nat}, r ≠ q → g.byId x = some r → g'.byId x = some r := by
    intro x r hr hx
    refine (hbyId x r).2 ⟨?_, hx⟩
    rintro rfl
    exact hr (Option.some.inj (hx.symm.trans hq))
  refine ⟨g', hg', ⟨hwf, ?_, h.keys, ?_, ?_, ?_, ?_, ?_, ?_, ?_⟩⟩
  · intro x
    have hx : g'.Has x ↔ x ≠ p ∧ g.Has x := by
      constructor
      · rintro ⟨r, hr⟩
        obtain ⟨hne, hr⟩ := (hbyId x r).1 hr
        exact ⟨hne, r, hr⟩
      · rintro ⟨hne, r, hr⟩
        exact ⟨r, (hbyId x r).2 ⟨hne, hr⟩⟩
    rw [hx, h.has]
    constructor
    · rintro ⟨hne, hk | hs⟩
      · exact .inl hk
      · exact .inr ⟨hs, hne⟩
    · rintro (⟨k, hk, rfl⟩ | ⟨hs, hne⟩)
      · exact ⟨hplain k (hc.isKey_plain (h.keys k hk)), .inl ⟨k, hk, rfl⟩⟩
      · exact ⟨hne, .inr hs⟩
  · intro a b' hab
    obtain ⟨ha, hb', y, hy, he⟩ := h.edges_mem a b' hab
    have hap : a.id ≠ p := hplain a (hc.isKey_plain (h.keys a ha))
    refine ⟨ha, hb', ?_⟩
    by_cases hyp : y = p
    · subst hyp
      obtain rfl : b' = b := by
        rcases hy with rfl | hy
        · exact absurd rfl (hplain b' hb')
        · exact standsFor_inj hy hsf
      exact ⟨b'.id, .inl rfl, (hedge _ _).2 ⟨hap, .inr ⟨he, rfl⟩⟩⟩
    · exact ⟨y, hy, (hedge _ _).2 ⟨hap, .inl ⟨he, hyp⟩⟩⟩
  · intro x y he
    obtain ⟨-, ⟨hold, -⟩ | ⟨hold, rfl⟩⟩ := (hedge x y).1 he
    · exact h.edges_of x y hold
    · obtain ⟨a, ha, hx, hcase⟩ := h.edges_of x p hold
      refine ⟨a, ha, hx, .inl ⟨b, .inl rfl, ?_⟩⟩
      rcases hcase with ⟨b', hr, hm⟩ | ⟨c, rfl, hnone⟩
      · have hb' := (h.edges_mem a b' hm).2.1
        rcases hr with he | hr
        · exact absurd he.symm (hplain b' hb')
        · rwa [standsFor_inj hsf hr]
      · exact absurd hsf (not_standsFor_column hnone b)
  · intro n hn hpl
    obtain ⟨n', hn', hptr, hid, -, hop, hne⟩ := mem_of_removed hcore hn
    obtain ⟨hb', hs⟩ := h.pending n' hn' (by rw [hop]; exact hpl)
    rw [hid, hptr] at hb'
    rw [hid] at hs
    refine ⟨hkeep hne hb', hs, ?_⟩
    intro he
    rw [he, hq] at hb'
    exact hne (Option.some.inj hb').symm
  · intro n hn hat
    obtain ⟨n', hn', -, hid, -, hop, -⟩ := mem_of_removed hcore hn
    rw [← hop]
    exact h.standing n' hn' (by rw [hid]; exact hat)
  · intro n hn o ho
    obtain ⟨n', hn', hptr, hid, hmod, hop, -⟩ := mem_of_removed hcore hn
    exact kind_of_same hid hmod (h.kinds n' hn' o (by rw [hop]; exact ho))
  · intro n hn
    obtain ⟨n', hn', hptr, hid, -, hop, hne⟩ := mem_of_removed hcore hn
    obtain ⟨r, hr⟩ := h.ids n' hn'
    rw [hid] at hr
    by_cases hnp : n.id = p
    · have hplace := h.standing n' hn' (by rw [hid, hnp]; exact hS p hp)
      have hb' := (h.pending n' hn' hplace).1
      rw [hid, hnp, hq, hptr] at hb'
      exact absurd (Option.some.inj hb').symm hne
    · exact ⟨r, (hbyId n.id r).2 ⟨hnp, hr⟩⟩
  · intro hd n hn m k hop hid
    obtain ⟨n', hn', hptr, hid', -, -, hne⟩ := mem_of_removed hcore hn
    have := h.unique hd n' hn' m k hop (hid'.trans hid)
    rw [hid', hptr] at this
    exact hkeep hne this

end GraphTracks

def Standing (s : Compiler) (x : String) : Prop :=
  (∃ c, s.columnPlaceholder c = some x) ∨ ∃ d, s.moduleTailPlaceholder d = some x

def Module.info (m : Module) : CompiledModule :=
  ⟨m.name, m.outputs, m.tail.id, m.draft.outputs.map NodeKey.id⟩

structure Tracks (ms : List Module) (s : Compiler) (L : Ledger) : Prop where
  graph : GraphTracks ms s.graph L.nodes L.edges (Standing s)
  column : ∀ c, s.columnPlaceholder c =
    if c ∈ L.wanted ∧ L.regs.lookup c = none then some (placeholderId c) else none
  tail : ∀ d, s.moduleTailPlaceholder d =
    if d ∈ L.tails ∧ d ∉ L.done.map (·.name) then some (tailPlaceholderId d) else none
  producer : ∀ c, s.columnProducer c = (L.regs.lookup c).map NodeKey.id
  owner : ∀ c, isLocalName c = false → s.columnModule c = (writer ms c).map (·.name)
  ownerLocal : ∀ c, isLocalName c = true → L.regs.lookup c = none → s.columnModule c = none
  info : ∀ d, s.moduleInfo d = (L.done.find? (·.name = d)).map Module.info
  done : ∀ m ∈ L.done, m ∈ ms ∧ (∀ k ∈ m.draft.outputs, k ∈ L.nodes) ∧ m.tail ∈ L.nodes
  regs : ∀ c k, (c, k) ∈ L.regs → k ∈ L.nodes ∧ (isLocalName c = false →
    Lark.Column.Biz.producer ms c = some k ∧ ∃ w ∈ writer ms c, w.name = k.module)
  wanted : ∀ c ∈ L.wanted, isLocalName c = false

theorem lookup_mem {α β : Type} [DecidableEq α] {xs : List (α × β)} {a : α} {b : β}
    (h : xs.lookup a = some b) : (a, b) ∈ xs := by
  induction xs with
  | nil => simp at h
  | cons x xs ih =>
    obtain ⟨a', b'⟩ := x
    by_cases he : a = a'
    · subst he
      obtain rfl : b' = b := by simpa [List.lookup_cons] using h
      simp
    · have hne : (a == a') = false := by simpa using he
      rw [List.lookup_cons, hne] at h
      exact List.mem_cons_of_mem _ (ih h)

theorem runs_modify {f : Compiler → Compiler} {s : Compiler} {Q : PUnit → Compiler → Prop}
    (h : Q PUnit.unit (f s)) : Runs (modify f : CompileM Unit) s Q := ⟨_, _, rfl, h⟩

theorem runs_get {α : Type} {k : Compiler → CompileM α} {s : Compiler} {Q : α → Compiler → Prop}
    (h : Runs (k s) s Q) : Runs (get >>= k) s Q :=
  Runs.bind (Q := fun a s' => a = s ∧ s' = s) ⟨s, s, rfl, rfl, rfl⟩ fun _ _ he => by
    obtain ⟨rfl, rfl⟩ := he
    exact h

theorem runs_onGraph {f : ComputeGraph → Except Exn ComputeGraph} {s : Compiler} {g : ComputeGraph}
    {Q : PUnit → Compiler → Prop} (hf : f s.graph = .ok g)
    (h : Q PUnit.unit { s with graph := g }) : Runs (onGraph f) s Q := by
  unfold onGraph
  refine runs_get ?_
  rw [hf]
  exact runs_modify h

namespace Tracks

variable {s : Compiler} {L : Ledger}

theorem standing_at (h : Tracks ms s L) {x : String} (hx : Standing s x) :
    startsWithAt x = true := by
  rcases hx with ⟨c, hx⟩ | ⟨d, hx⟩
  · rw [h.column c] at hx
    split_ifs at hx
    obtain rfl := Option.some.inj hx
    exact startsWithAt_placeholderId c
  · rw [h.tail d] at hx
    split_ifs at hx
    obtain rfl := Option.some.inj hx
    exact startsWithAt_tailPlaceholderId d

theorem node_plain (h : Tracks ms s L) (hc : Compilable ms) {k : NodeKey} (hk : k ∈ L.nodes) :
    k.Plain := hc.isKey_plain (h.graph.keys k hk)

theorem addNode (h : Tracks ms s L) (hc : Compilable ms) {key : NodeKey} (hk : IsKey ms key)
    {module : String} {o : Op}
    (ho : (AnchorNode ms o ∧ ∀ m k, key ≠ .op m k) ∨ ∃ m ∈ ms, ∃ spec k, m.ops[k]? = some spec ∧
      key = .op m.name k ∧ module = m.name ∧ createOp (remapSpec m.name spec) = .ok o ∧
      key ∉ L.nodes) :
    Runs (CompileM.addNode key.id module (.op o)) s fun _ s' => Tracks ms s' (L.addNode key) := by
  refine runs_modify ?_
  exact { h with
    graph := h.graph.addNode hc hk ho fun x hx => h.standing_at hx
    done := fun m hm => ⟨(h.done m hm).1,
      fun k hk => List.mem_append_left _ ((h.done m hm).2.1 k hk),
      List.mem_append_left _ (h.done m hm).2.2⟩
    regs := fun c k hk => ⟨List.mem_append_left _ (h.regs c k hk).1, (h.regs c k hk).2⟩ }

theorem addDependency (h : Tracks ms s L) (hc : Compilable ms) {a b : NodeKey} (ha : a ∈ L.nodes)
    (hb : b ∈ L.nodes) :
    Runs (CompileM.addDependency a.id b.id) s fun _ s' => Tracks ms s' (L.addEdges a [b]) := by
  obtain ⟨g, hg, ht⟩ := h.graph.addDependency ha
    ((h.graph.has b.id).2 (.inl ⟨b, hb, rfl⟩)) (.inl ⟨b, rfl, h.node_plain hc hb, .inl rfl⟩)
  exact runs_onGraph hg { h with graph := ht }

theorem addDependencies (h : Tracks ms s L) (hc : Compilable ms) {a : NodeKey} (ha : a ∈ L.nodes)
    {bs : List NodeKey} (hb : ∀ b ∈ bs, b ∈ L.nodes) :
    Runs ((bs.map NodeKey.id).forM fun out => CompileM.addDependency a.id out) s
      fun _ s' => Tracks ms s' (L.addEdges a bs) := by
  induction bs generalizing s L with
  | nil =>
    refine ⟨_, s, rfl, ?_⟩
    simpa [Ledger.addEdges] using h
  | cons b bs ih =>
    refine Runs.bind (h.addDependency hc ha (hb b (by simp))) fun _ s' h' => ?_
    refine (ih h' ha fun b' hb' => hb b' (by simp [hb'])).mono fun _ s'' h'' => ?_
    simpa [Ledger.addEdges] using h''

theorem ensureColumnPlaceholder (h : Tracks ms s L) (hc : Compilable ms) {col : String}
    (hcol : isLocalName col = false) (hreg : L.regs.lookup col = none) :
    Runs (Biz.ensureColumnPlaceholder col) s fun id s' => id = placeholderId col ∧
      Tracks ms s' { L with wanted := col :: L.wanted } := by
  unfold Biz.ensureColumnPlaceholder
  refine runs_get ?_
  have hold := h.column col
  by_cases hw : col ∈ L.wanted
  · rw [if_pos ⟨hw, hreg⟩] at hold
    rw [hold]
    refine Runs.pure ⟨rfl, ?_⟩
    have hcongr : ∀ c, c ∈ col :: L.wanted ↔ c ∈ L.wanted := by
      intro c
      rw [List.mem_cons, or_iff_right_iff_imp]
      rintro rfl
      exact hw
    exact { h with
      column := fun c => by simp only [h.column c, hcongr]
      wanted := fun c hm => h.wanted c ((hcongr c).1 hm) }
  · rw [if_neg fun hh => hw hh.1] at hold
    rw [hold]
    have hnot : ¬ Standing s (placeholderId col) := by
      rintro (⟨c, hx⟩ | ⟨d, hx⟩)
      · rw [h.column c] at hx
        split_ifs at hx with hcond
        obtain rfl := placeholderId_inj (Option.some.inj hx)
        exact hw hcond.1
      · rw [h.tail d] at hx
        split_ifs at hx
        exact placeholderId_ne_tail col d (Option.some.inj hx).symm
    have hgraph := h.graph.addPlaceholder hc col (startsWithAt_placeholderId col) hnot
    refine Runs.bind (runs_modify (Q := fun _ s' => s' =
      { s with graph := s.graph.addPlaceholder col (placeholderId col) }) rfl) fun _ s' he => ?_
    subst he
    refine Runs.bind (runs_modify (Q := fun _ s' => s' =
      { s with
        graph := s.graph.addPlaceholder col (placeholderId col)
        columnPlaceholder := Function.update s.columnPlaceholder col (some (placeholderId col)) })
      rfl) fun _ s' he => ?_
    subst he
    refine Runs.pure ⟨rfl, ?_⟩
    refine { h with graph := hgraph.congr fun x => ?_, column := fun c => ?_, wanted := ?_ }
    · constructor
      · rintro ((⟨c, hx⟩ | ⟨d, hx⟩) | rfl)
        · refine .inl ⟨c, ?_⟩
          have hne : c ≠ col := by
            rintro rfl
            simp [hold] at hx
          simpa [hne] using hx
        · exact .inr ⟨d, hx⟩
        · exact .inl ⟨col, by simp⟩
      · rintro (⟨c, hx⟩ | ⟨d, hx⟩)
        · by_cases he : c = col
          · subst he
            exact .inr (by simpa using hx.symm)
          · exact .inl (.inl ⟨c, by simpa [he] using hx⟩)
        · exact .inl (.inr ⟨d, hx⟩)
    · by_cases he : c = col
      · subst he
        simp [hreg]
      · have hcongr : c ∈ col :: L.wanted ↔ c ∈ L.wanted := by simp [he]
        simp only [Function.update_of_ne he, h.column c, hcongr]
    · intro c hm
      rcases List.mem_cons.1 hm with rfl | hm
      · exact hcol
      · exact h.wanted c hm

theorem want (h : Tracks ms s L) {col : String} (hcol : isLocalName col = false)
    (hreg : L.regs.lookup col ≠ none) : Tracks ms s { L with wanted := col :: L.wanted } := by
  refine { h with column := fun c => ?_, wanted := ?_ }
  · rw [h.column c]
    by_cases he : c = col
    · subst he
      simp [hreg]
    · have hcongr : c ∈ col :: L.wanted ↔ c ∈ L.wanted := by simp [he]
      simp only [hcongr]
  · intro c hm
    rcases List.mem_cons.1 hm with rfl | hm
    · exact hcol
    · exact h.wanted c hm

end Tracks

theorem writer_mem {col : String} {m : Module} (h : writer ms col = some m) :
    m ∈ ms ∧ col ∈ m.written :=
  ⟨List.mem_of_find?_eq_some h, by simpa using List.find?_some h⟩

theorem writer_eq (hc : Compilable ms) {col : String} {m : Module} (hm : m ∈ ms)
    (hw : col ∈ m.written) (hcol : isLocalName col = false) : writer ms col = some m := by
  cases he : writer ms col with
  | none =>
    have := List.find?_eq_none.1 he m hm
    simp [hw] at this
  | some m' =>
    obtain ⟨hm', hw'⟩ := writer_mem he
    rw [hc.unambiguous m hm m' hm' col hw hw' hcol]

theorem producer_plain (hc : Compilable ms) {col : String} {k : NodeKey}
    (h : producer ms col = some k) : k.Plain := by
  unfold producer at h
  cases hw : writer ms col with
  | none => simp [hw] at h
  | some m =>
    simp only [hw] at h
    split_ifs at h
    have hk := (Draft.owned_draft m).locals col k h
    rw [NodeKey.Plain, hk]
    exact hc.plain m (writer_mem hw).1

namespace Tracks

variable {s : Compiler} {L : Ledger}

section Resolve

variable {locals : Locals} {name : String} {col : String}

theorem resolve_bound (s : Compiler) {id : String} (hl : locals col = some id) :
    Runs (resolveInputDep col locals name) s fun dep s' => dep = some id ∧ s' = s := by
  simp only [resolveInputDep, hl]
  exact Runs.pure ⟨rfl, rfl⟩

theorem resolve_registered (h : Tracks ms s L) (hl : locals col = none) {k : NodeKey}
    (hreg : L.regs.lookup col = some k) :
    Runs (resolveInputDep col locals name) s fun dep s' => dep = some k.id ∧ s' = s := by
  have hprod := h.producer col
  rw [hreg, Option.map_some] at hprod
  simp only [resolveInputDep, hl]
  refine runs_get ?_
  simp only [hprod]
  exact Runs.pure ⟨rfl, rfl⟩

theorem resolve_none (h : Tracks ms s L) (hl : locals col = none) (hreg : L.regs.lookup col = none)
    (hown : ∀ owner, s.columnModule col = some owner → owner = name) :
    Runs (resolveInputDep col locals name) s fun dep s' => dep = none ∧ s' = s := by
  have hprod := h.producer col
  rw [hreg, Option.map_none] at hprod
  simp only [resolveInputDep, hl]
  refine runs_get ?_
  simp only [hprod]
  refine runs_get ?_
  cases hmod : s.columnModule col with
  | none => exact Runs.pure ⟨rfl, rfl⟩
  | some owner =>
    simp only [hown owner hmod, ne_eq, not_true_eq_false, if_false]
    exact Runs.pure ⟨rfl, rfl⟩

theorem resolve_foreign (h : Tracks ms s L) (hc : Compilable ms) (hl : locals col = none)
    (hreg : L.regs.lookup col = none) (hcol : isLocalName col = false) {w : Module}
    (hw : writer ms col = some w) (hne : w.name ≠ name) :
    Runs (resolveInputDep col locals name) s fun dep s' =>
      dep = some (placeholderId col) ∧ Tracks ms s' { L with wanted := col :: L.wanted } := by
  have hprod := h.producer col
  have hmod := h.owner col hcol
  rw [hreg, Option.map_none] at hprod
  rw [hw, Option.map_some] at hmod
  simp only [resolveInputDep, hl]
  refine runs_get ?_
  simp only [hprod]
  refine runs_get ?_
  simp only [hmod, hne, ne_eq, not_false_eq_true, if_true]
  refine (h.ensureColumnPlaceholder hc hcol hreg).bind fun id s' he => ?_
  exact Runs.pure ⟨by rw [he.1], he.2⟩

end Resolve

theorem addForeign (h : Tracks ms s L) (hc : Compilable ms) {key : NodeKey} (hkey : key ∈ L.nodes)
    {col : String} (hreg : L.regs.lookup col = none) (hwant : col ∈ L.wanted) :
    Runs (CompileM.addDependency key.id (placeholderId col)) s fun _ s' => Tracks ms s' { L with
      edges := L.edges ++ (Biz.producer ms col).toList.map fun b => (key, b) } := by
  have hstand : Standing s (placeholderId col) := by
    refine .inl ⟨col, ?_⟩
    rw [h.column col]
    simp [hreg, hwant]
  have hcase : (∃ b, (Biz.producer ms col).toList = [b] ∧ b.Plain ∧
      Refers ms (placeholderId col) b) ∨ (Biz.producer ms col).toList = [] ∧
        ∃ c, placeholderId col = placeholderId c ∧ Biz.producer ms c = none := by
    cases hp : Biz.producer ms col with
    | some b => exact .inl ⟨b, rfl, producer_plain hc hp, .inr (.column hp)⟩
    | none => exact .inr ⟨rfl, col, rfl, hp⟩
  obtain ⟨g, hg, ht⟩ := h.graph.addDependency hkey ((h.graph.has _).2 (.inr hstand)) hcase
  refine runs_onGraph hg ?_
  exact { h with graph := ht }

theorem wireInput (h : Tracks ms s L) (hc : Compilable ms) {m : Module} {key : NodeKey}
    (hkey : key ∈ L.nodes) {bindings : Bindings} {locals : Locals}
    (hl : ∀ c, locals c = (bindings c).map NodeKey.id)
    (hin : ∀ c k, bindings c = some k → k ∈ L.nodes)
    (hown : ∀ c k, (c, k) ∈ L.regs → k.module = m.name → bindings c ≠ none) (col : String) :
    Runs (Biz.wireInput key.id col locals m.name) s
      fun _ s' => Tracks ms s' (L.read ms m key bindings col) := by
  unfold Biz.wireInput
  cases hb : bindings col with
  | some k =>
    have hbound : locals col = some k.id := by rw [hl col, hb, Option.map_some]
    refine (resolve_bound s hbound).bind fun dep s' he => ?_
    obtain ⟨rfl, rfl⟩ := he
    refine (h.addDependency hc hkey (hin col k hb)).mono fun _ s'' h'' => ?_
    simpa [Ledger.read, Ledger.resolve, Ledger.Wants, hb, Ledger.addEdges] using h''
  | none =>
    have hfree : locals col = none := by rw [hl col, hb, Option.map_none]
    cases hreg : L.regs.lookup col with
    | some k =>
      have hmem := lookup_mem hreg
      obtain ⟨hk, hord⟩ := h.regs col k hmem
      refine (h.resolve_registered hfree hreg).bind fun dep s' he => ?_
      obtain ⟨rfl, rfl⟩ := he
      cases hcol : isLocalName col with
      | true =>
        refine (h.addDependency hc hkey hk).mono fun _ s'' h'' => ?_
        simpa [Ledger.read, Ledger.resolve, Ledger.Wants, hb, hcol, hreg, Ledger.addEdges] using h''
      | false =>
        obtain ⟨hp, w, hw, hwk⟩ := hord hcol
        have hforeign : Foreign ms m col :=
          ⟨w, hw, fun hwm => hown col k hmem (hwk.symm.trans hwm) hb⟩
        refine (h.addDependency hc hkey hk).mono fun _ s'' h'' => ?_
        have hwant := h''.want hcol (by simp [Ledger.addEdges, hreg])
        simpa [Ledger.read, Ledger.resolve, Ledger.Wants, hb, hcol, hforeign, hp,
          Ledger.addEdges] using hwant
    | none =>
      cases hcol : isLocalName col with
      | true =>
        have hown : ∀ owner, s.columnModule col = some owner → owner = m.name := by
          intro owner ho
          rw [h.ownerLocal col hcol hreg] at ho
          cases ho
        refine (h.resolve_none hfree hreg hown).bind fun dep s' he => ?_
        obtain ⟨rfl, rfl⟩ := he
        refine Runs.pure ?_
        simpa [Ledger.read, Ledger.resolve, Ledger.Wants, hb, hcol, hreg] using h
      | false =>
        by_cases hforeign : Foreign ms m col
        · have ⟨w, hw, hne⟩ := hforeign
          refine (h.resolve_foreign hc hfree hreg hcol hw hne).bind fun dep s' he => ?_
          obtain ⟨rfl, h'⟩ := he
          refine (h'.addForeign hc hkey hreg List.mem_cons_self).mono fun _ s'' h'' => ?_
          simpa [Ledger.read, Ledger.resolve, Ledger.Wants, hb, hcol, hforeign] using h''
        · have hown : ∀ owner, s.columnModule col = some owner → owner = m.name := by
            intro owner ho
            rw [h.owner col hcol] at ho
            obtain ⟨w, hw, rfl⟩ := Option.map_eq_some_iff.1 ho
            exact not_not.1 fun hne => hforeign ⟨w, hw, hne⟩
          refine (h.resolve_none hfree hreg hown).bind fun dep s' he => ?_
          obtain ⟨rfl, rfl⟩ := he
          refine Runs.pure ?_
          simpa [Ledger.read, Ledger.resolve, Ledger.Wants, hb, hcol, hforeign] using h

theorem lookup_register {L : Ledger} {c col : String} {key : NodeKey} :
    (L.register col key).regs.lookup c = if c = col then some key else L.regs.lookup c := by
  by_cases he : c = col
  · simp [Ledger.register, he]
  · have hne : (c == col) = false := by simpa using he
    simp [Ledger.register, List.lookup_cons, he, hne]

theorem registered (h : Tracks ms s L) {key : NodeKey} (hkey : key ∈ L.nodes) {col : String}
    (hord : isLocalName col = false →
      Biz.producer ms col = some key ∧ ∃ w ∈ writer ms col, w.name = key.module)
    {g : ComputeGraph}
    (hg : GraphTracks ms g L.nodes L.edges fun x => Standing s x ∧ x ≠ placeholderId col) :
    Tracks ms { s with
      graph := g
      columnProducer := Function.update s.columnProducer col (some key.id)
      columnModule := Function.update s.columnModule col (some key.module)
      columnPlaceholder := Function.update s.columnPlaceholder col none }
      (L.register col key) where
  graph := by
    refine hg.congr fun x => ?_
    constructor
    · rintro ⟨⟨c, hx⟩ | ⟨d, hx⟩, hne⟩
      · refine .inl ⟨c, ?_⟩
        have hcol : c ≠ col := by
          rintro rfl
          rw [h.column c] at hx
          split_ifs at hx
          exact hne (Option.some.inj hx).symm
        simpa [hcol] using hx
      · exact .inr ⟨d, hx⟩
    · rintro (⟨c, hx⟩ | ⟨d, hx⟩)
      · by_cases he : c = col
        · subst he
          simp at hx
        · have hx' : s.columnPlaceholder c = some x := by simpa [he] using hx
          refine ⟨.inl ⟨c, hx'⟩, ?_⟩
          rintro rfl
          rw [h.column c] at hx'
          split_ifs at hx'
          exact he (placeholderId_inj (Option.some.inj hx'))
      · refine ⟨.inr ⟨d, hx⟩, ?_⟩
        rintro rfl
        have hx' : s.moduleTailPlaceholder d = some (placeholderId col) := hx
        rw [h.tail d] at hx'
        split_ifs at hx'
        exact placeholderId_ne_tail col d (Option.some.inj hx').symm
  column := by
    intro c
    rw [lookup_register]
    by_cases he : c = col
    · simp [he]
    · simp only [Function.update_of_ne he, h.column c, he, if_false]
      rfl
  tail := h.tail
  producer := by
    intro c
    rw [lookup_register]
    by_cases he : c = col
    · simp [he]
    · simp [he, h.producer c]
  owner := by
    intro c hcol
    by_cases he : c = col
    · subst he
      obtain ⟨-, w, hw, hname⟩ := hord hcol
      rw [Option.mem_def.1 hw]
      simp [hname]
    · simp [he, h.owner c hcol]
  ownerLocal := by
    intro c hcol hreg
    rw [lookup_register] at hreg
    split_ifs at hreg with he
    simp [he, h.ownerLocal c hcol hreg]
  info := h.info
  done := h.done
  regs := by
    intro c k hk
    rcases List.mem_cons.1 hk with he | hk
    · obtain ⟨rfl, rfl⟩ := Prod.mk.inj he
      exact ⟨hkey, hord⟩
    · exact h.regs c k hk
  wanted := h.wanted

theorem registerProducer (h : Tracks ms s L) (hc : Compilable ms) {key : NodeKey}
    (hkey : key ∈ L.nodes) {col : String}
    (hord : isLocalName col = false →
      Biz.producer ms col = some key ∧ ∃ w ∈ writer ms col, w.name = key.module) :
    Runs (Biz.registerProducer col key.id key.module) s
      fun _ s' => Tracks ms s' (L.register col key) := by
  unfold Biz.registerProducer
  refine Runs.bind (runs_modify (Q := fun _ s' => s' = { s with
    columnProducer := Function.update s.columnProducer col (some key.id)
    columnModule := Function.update s.columnModule col (some key.module) }) rfl) fun _ s' he => ?_
  subst he
  refine runs_get ?_
  cases hph : s.columnPlaceholder col with
  | none =>
    refine Runs.pure ?_
    have hg : GraphTracks ms s.graph L.nodes L.edges
        fun x => Standing s x ∧ x ≠ placeholderId col := by
      refine h.graph.congr fun x => ⟨fun hx => ⟨hx, ?_⟩, And.left⟩
      rintro rfl
      rcases hx with ⟨c, hx⟩ | ⟨d, hx⟩
      · rw [h.column c] at hx
        split_ifs at hx with hcond
        obtain rfl := placeholderId_inj (Option.some.inj hx)
        rw [h.column c, if_pos hcond] at hph
        simp at hph
      · rw [h.tail d] at hx
        split_ifs at hx
        exact placeholderId_ne_tail col d (Option.some.inj hx).symm
    have hfinal := h.registered hkey hord hg
    rwa [show Function.update s.columnPlaceholder col none = s.columnPlaceholder from
      Function.update_eq_self_iff.2 hph.symm] at hfinal
  | some id =>
    have hid : id = placeholderId col ∧ isLocalName col = false := by
      have hx := h.column col
      rw [hph] at hx
      split_ifs at hx with hcond
      exact ⟨Option.some.inj hx, h.wanted col hcond.1⟩
    obtain ⟨rfl, hcol⟩ := hid
    obtain ⟨g, hg, ht⟩ := h.graph.replacePlaceholder hc (.inl ⟨col, hph⟩) hkey
      (.column (hord hcol).1) fun x hx => h.standing_at hx
    refine Runs.bind (runs_onGraph (Q := fun _ s' => s' = { s with
      graph := g
      columnProducer := Function.update s.columnProducer col (some key.id)
      columnModule := Function.update s.columnModule col (some key.module) }) hg rfl)
      fun _ s' he => ?_
    subst he
    exact runs_modify (h.registered hkey hord ht)

theorem tailPlaceholder (h : Tracks ms s L) (hc : Compilable ms) {dep : String}
    (hdone : dep ∉ L.done.map (·.name)) :
    Runs (Biz.tailPlaceholder dep) s fun id s' => id = tailPlaceholderId dep ∧
      Tracks ms s' { L with tails := dep :: L.tails } := by
  unfold Biz.tailPlaceholder
  refine runs_get ?_
  have hold := h.tail dep
  by_cases hw : dep ∈ L.tails
  · rw [if_pos ⟨hw, hdone⟩] at hold
    rw [hold]
    refine Runs.pure ⟨rfl, { h with tail := fun d => ?_ }⟩
    have hcongr : d ∈ dep :: L.tails ↔ d ∈ L.tails := by
      rw [List.mem_cons, or_iff_right_iff_imp]
      rintro rfl
      exact hw
    simp only [h.tail d, hcongr]
  · rw [if_neg fun hh => hw hh.1] at hold
    rw [hold]
    have hnot : ¬ Standing s (tailPlaceholderId dep) := by
      rintro (⟨c, hx⟩ | ⟨d, hx⟩)
      · rw [h.column c] at hx
        split_ifs at hx
        exact placeholderId_ne_tail c dep (Option.some.inj hx)
      · rw [h.tail d] at hx
        split_ifs at hx with hcond
        obtain rfl := tailPlaceholderId_inj (Option.some.inj hx)
        exact hw hcond.1
    have hgraph := h.graph.addPlaceholder hc ("@tail:" ++ dep)
      (startsWithAt_tailPlaceholderId dep) hnot
    refine Runs.bind (runs_modify (Q := fun _ s' => s' = { s with
      moduleTailPlaceholder :=
        Function.update s.moduleTailPlaceholder dep (some (tailPlaceholderId dep)) }) rfl)
      fun _ s' he => ?_
    subst he
    refine Runs.bind (runs_modify (Q := fun _ s' => s' = { s with
      graph := s.graph.addPlaceholder ("@tail:" ++ dep) (tailPlaceholderId dep)
      moduleTailPlaceholder :=
        Function.update s.moduleTailPlaceholder dep (some (tailPlaceholderId dep)) }) rfl)
      fun _ s' he => ?_
    subst he
    refine Runs.pure ⟨rfl, ?_⟩
    refine { h with graph := hgraph.congr fun x => ?_, tail := fun d => ?_ }
    · constructor
      · rintro ((⟨c, hx⟩ | ⟨d, hx⟩) | rfl)
        · exact .inl ⟨c, hx⟩
        · refine .inr ⟨d, ?_⟩
          have hne : d ≠ dep := by
            rintro rfl
            simp [hold] at hx
          simpa [hne] using hx
        · exact .inr ⟨dep, by simp⟩
      · rintro (⟨c, hx⟩ | ⟨d, hx⟩)
        · exact .inl (.inl ⟨c, hx⟩)
        · by_cases he : d = dep
          · subst he
            exact .inr (by simpa using hx.symm)
          · exact .inl (.inr ⟨d, by simpa [he] using hx⟩)
    · by_cases he : d = dep
      · subst he
        simp only [Function.update_self, List.mem_cons, true_or, true_and]
        exact (if_pos hdone).symm
      · have hcongr : d ∈ dep :: L.tails ↔ d ∈ L.tails := by simp [he]
        simp only [Function.update_of_ne he, h.tail d, hcongr]

end Tracks

end Lark.Column.Biz
