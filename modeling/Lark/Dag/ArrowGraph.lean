import Lark.Base.Fold
import Lark.Dag.ArrowDsl

namespace Lark.Dag.OpGraphBuilder

open Lark.Base Lark.Toolkit.Dsl

def tailEdges : String → List Seg → List (String × String)
  | _, [] => []
  | prev, s :: ss => (prev, s.id) :: tailEdges s.id ss

def chainEdges : List Seg → List (String × String)
  | [] => []
  | s :: ss => tailEdges s.id ss

theorem mem_tailEdges {a b prev : String} {ss : List Seg} :
    (a, b) ∈ tailEdges prev ss ↔ [a, b] <:+: prev :: ss.map Seg.id := by
  induction ss generalizing prev with
  | nil => simp [tailEdges, List.infix_cons_iff, List.prefix_cons_iff]
  | cons s ss ih =>
    rw [tailEdges, List.mem_cons, ih, List.map_cons, @List.infix_cons_iff _ _ prev]
    simp [List.cons_prefix_cons]

theorem mem_chainEdges {a b : String} {c : List Seg} :
    (a, b) ∈ chainEdges c ↔ [a, b] <:+: c.map Seg.id := by
  cases c with
  | nil => simp [chainEdges]
  | cons s ss => exact mem_tailEdges

def Consistent (segs : List Seg) : Prop :=
  ∀ s ∈ segs, ∀ s' ∈ segs, s.id = s'.id → s.type = s'.type

structure DefsFor (segs : List Seg) (edges : List (String × String)) (d : Defs) : Prop where
  index : ∀ id slot, d.index id = some slot ↔ ∃ f, d.defs[slot]? = some f ∧ f.id = id
  type : ∀ f ∈ d.defs, ∃ s ∈ segs, s.id = f.id ∧ s.type = f.type
  covers : ∀ s ∈ segs, ∃ f ∈ d.defs, f.id = s.id
  deps : ∀ f ∈ d.defs, ∀ a, a ∈ f.deps ↔ (a, f.id) ∈ edges
  ends : ∀ p ∈ edges, (∃ s ∈ segs, s.id = p.1) ∧ ∃ s ∈ segs, s.id = p.2

section Defs

variable {segs : List Seg} {edges : List (String × String)} {d : Defs}

theorem defsFor_empty : DefsFor [] [] .empty := by
  constructor <;> simp [Defs.empty]

theorem DefsFor.ensure (h : DefsFor segs edges d) {s : Seg} (hc : Consistent (segs ++ [s])) :
    ∃ slot d', d.ensure s.id s.type = .ok (slot, d') ∧ DefsFor (segs ++ [s]) edges d' ∧
      d'.index s.id = some slot := by
  have hends : ∀ p ∈ edges, (∃ s' ∈ segs ++ [s], s'.id = p.1) ∧ ∃ s' ∈ segs ++ [s], s'.id = p.2 := by
    intro p hp
    obtain ⟨⟨s₁, h₁, he₁⟩, s₂, h₂, he₂⟩ := h.ends p hp
    exact ⟨⟨s₁, by simp [h₁], he₁⟩, s₂, by simp [h₂], he₂⟩
  cases hi : d.index s.id with
  | some slot =>
    obtain ⟨f, hf, hid⟩ := (h.index s.id slot).1 hi
    have hmem := List.mem_of_getElem? hf
    obtain ⟨s', hs', hsid, hstype⟩ := h.type f hmem
    have htype : f.type = s.type := by
      rw [← hstype]
      exact hc s' (by simp [hs']) s (by simp) (hsid.trans hid)
    refine ⟨slot, d, by simp [Defs.ensure, hi, hf, htype], ⟨h.index, ?_, ?_, h.deps, hends⟩, hi⟩
    · intro f' hf'
      obtain ⟨s'', hs'', he⟩ := h.type f' hf'
      exact ⟨s'', by simp [hs''], he⟩
    · intro s'' hs''
      rcases List.mem_append.1 hs'' with hs'' | hs''
      · exact h.covers s'' hs''
      · obtain rfl := List.mem_singleton.1 hs''
        exact ⟨f, hmem, hid⟩
  | none =>
    have hnew : ∀ f ∈ d.defs, f.id ≠ s.id := by
      intro f hf hid
      obtain ⟨slot, hslot⟩ := List.getElem?_of_mem hf
      rw [(h.index s.id slot).2 ⟨f, hslot, hid⟩] at hi
      cases hi
    refine ⟨d.defs.length, ⟨d.defs ++ [⟨s.type, [], s.id⟩],
      Function.update d.index s.id (some d.defs.length)⟩, by simp only [Defs.ensure, hi], ?_, by simp⟩
    refine ⟨?_, ?_, ?_, ?_, hends⟩
    · intro id slot
      rcases eq_or_ne id s.id with rfl | hne
      · simp only [Function.update_self, Option.some.injEq]
        refine ⟨?_, ?_⟩
        · rintro rfl
          exact ⟨_, List.getElem?_concat_length, rfl⟩
        · rintro ⟨f, hf, hid⟩
          rcases getElem?_snoc.1 hf with hf | ⟨rfl, -⟩
          · exact absurd hid (hnew f (List.mem_of_getElem? hf))
          · rfl
      · simp only [Function.update_of_ne hne, h.index id slot]
        refine ⟨?_, ?_⟩
        · rintro ⟨f, hf, hid⟩
          exact ⟨f, getElem?_snoc.2 (.inl hf), hid⟩
        · rintro ⟨f, hf, hid⟩
          rcases getElem?_snoc.1 hf with hf | ⟨-, rfl⟩
          · exact ⟨f, hf, hid⟩
          · exact absurd hid.symm hne
    · intro f hf
      rcases List.mem_append.1 hf with hf | hf
      · obtain ⟨s', hs', he⟩ := h.type f hf
        exact ⟨s', by simp [hs'], he⟩
      · obtain rfl := List.mem_singleton.1 hf
        exact ⟨s, by simp, rfl, rfl⟩
    · intro s' hs'
      rcases List.mem_append.1 hs' with hs' | hs'
      · obtain ⟨f, hf, hid⟩ := h.covers s' hs'
        exact ⟨f, by simp [hf], hid⟩
      · obtain rfl := List.mem_singleton.1 hs'
        exact ⟨⟨s'.type, [], s'.id⟩, by simp, rfl⟩
    · intro f hf a
      rcases List.mem_append.1 hf with hf | hf
      · exact h.deps f hf a
      · obtain rfl := List.mem_singleton.1 hf
        simp only [List.not_mem_nil, false_iff]
        intro hedge
        obtain ⟨-, s', hs', hid'⟩ := h.ends _ hedge
        obtain ⟨f', hf', hid⟩ := h.covers s' hs'
        exact hnew f' hf' (hid.trans hid')

theorem addDep_get {slot i : Nat} {prev : String} {f : OpDef}
    (h : (d.addDep slot prev).defs[i]? = some f) :
    ∃ f₀, d.defs[i]? = some f₀ ∧ f.id = f₀.id ∧ f.type = f₀.type ∧
      f.deps = if i = slot then f₀.deps ++ [prev] else f₀.deps := by
  simp only [Defs.addDep, List.getElem?_modify, Option.map_eq_map, Option.map_eq_some_iff] at h
  obtain ⟨f₀, hf₀, rfl⟩ := h
  refine ⟨f₀, hf₀, ?_⟩
  rcases eq_or_ne i slot with rfl | hne
  · simp
  · simp [hne, hne.symm]

theorem addDep_of_get (slot : Nat) (prev : String) {i : Nat} {f : OpDef} (h : d.defs[i]? = some f) :
    ∃ f', (d.addDep slot prev).defs[i]? = some f' ∧ f'.id = f.id := by
  simp only [Defs.addDep, List.getElem?_modify, h]
  rcases eq_or_ne slot i with rfl | hne
  · exact ⟨{ f with deps := f.deps ++ [prev] }, by simp, rfl⟩
  · exact ⟨f, by simp [hne], rfl⟩

theorem DefsFor.addDep (h : DefsFor segs edges d) {id prev : String} {slot : Nat}
    (hi : d.index id = some slot) (hid : ∃ s ∈ segs, s.id = id) (hp : ∃ s ∈ segs, s.id = prev) :
    DefsFor segs (edges ++ [(prev, id)]) (d.addDep slot prev) := by
  obtain ⟨f, hf, hfid⟩ := (h.index id slot).1 hi
  refine ⟨?_, ?_, ?_, ?_, ?_⟩
  · intro id' i
    rw [show (d.addDep slot prev).index = d.index from rfl, h.index id' i]
    refine ⟨?_, ?_⟩
    · rintro ⟨f₀, hf₀, he⟩
      obtain ⟨f', hf', he'⟩ := addDep_of_get slot prev hf₀
      exact ⟨f', hf', he'.trans he⟩
    · rintro ⟨f', hf', he⟩
      obtain ⟨f₀, hf₀, he', -⟩ := addDep_get hf'
      exact ⟨f₀, hf₀, he'.symm.trans he⟩
  · intro f' hf'
    obtain ⟨i, hi'⟩ := List.getElem?_of_mem hf'
    obtain ⟨f₀, hf₀, he, ht, -⟩ := addDep_get hi'
    rw [he, ht]
    exact h.type f₀ (List.mem_of_getElem? hf₀)
  · intro s hs
    obtain ⟨f₀, hf₀, he⟩ := h.covers s hs
    obtain ⟨i, hi'⟩ := List.getElem?_of_mem hf₀
    obtain ⟨f', hf', he'⟩ := addDep_of_get slot prev hi'
    exact ⟨f', List.mem_of_getElem? hf', he'.trans he⟩
  · intro f' hf' a
    obtain ⟨i, hi'⟩ := List.getElem?_of_mem hf'
    obtain ⟨f₀, hf₀, he, -, hdeps⟩ := addDep_get hi'
    have hold := h.deps f₀ (List.mem_of_getElem? hf₀) a
    rw [he, hdeps, List.mem_append, List.mem_singleton, Prod.mk.injEq]
    rcases eq_or_ne i slot with rfl | hne
    · obtain rfl : f = f₀ := by simpa [hf] using hf₀
      simp [hold, hfid]
    · have hid' : f₀.id ≠ id := by
        intro heq
        have := (h.index id i).2 ⟨f₀, hf₀, heq⟩
        rw [hi] at this
        exact hne (Option.some.inj this).symm
      simp [hne, hold, hid']
  · intro p hp'
    rcases List.mem_append.1 hp' with hp' | hp'
    · exact h.ends p hp'
    · obtain rfl := List.mem_singleton.1 hp'
      exact ⟨hp, hid⟩

theorem Consistent.mono {segs segs' : List Seg} (h : Consistent segs') (hs : segs ⊆ segs') :
    Consistent segs := by
  intro s hs₁ s' hs₂
  exact h s (hs hs₁) s' (hs hs₂)

theorem DefsFor.addTail (h : DefsFor segs edges d) {prev : String} {ss : List Seg}
    (hp : ∃ s ∈ segs, s.id = prev) (hc : Consistent (segs ++ ss)) :
    ∃ d', Defs.addTail prev ss d = .ok d' ∧
      DefsFor (segs ++ ss) (edges ++ tailEdges prev ss) d' := by
  induction ss generalizing segs edges d prev with
  | nil => exact ⟨d, rfl, by simpa [tailEdges] using h⟩
  | cons s ss ih =>
    obtain ⟨slot, d₁, he, h₁, hi⟩ := h.ensure (s := s) (hc.mono (by simp))
    obtain ⟨s₀, hs₀, hprev⟩ := hp
    have h₂ := h₁.addDep hi ⟨s, by simp, rfl⟩ ⟨s₀, by simp [hs₀], hprev⟩
    obtain ⟨d', hd', h'⟩ := ih h₂ ⟨s, by simp, rfl⟩ (hc.mono (by simp))
    refine ⟨d', by simp [Defs.addTail, he, hd'], ?_⟩
    simpa [tailEdges] using h'

theorem DefsFor.addChain (h : DefsFor segs edges d) {c : List Seg} (hc : Consistent (segs ++ c)) :
    ∃ d', Defs.addChain c d = .ok d' ∧ DefsFor (segs ++ c) (edges ++ chainEdges c) d' := by
  cases c with
  | nil => exact ⟨d, rfl, by simpa [chainEdges] using h⟩
  | cons s ss =>
    obtain ⟨slot, d₁, he, h₁, -⟩ := h.ensure (s := s) (hc.mono (by simp))
    have hc' : Consistent (segs ++ [s] ++ ss) := hc.mono (by simp)
    obtain ⟨d', hd', h'⟩ := h₁.addTail ⟨s, by simp, rfl⟩ hc'
    refine ⟨d', by simp [Defs.addChain, he, hd'], ?_⟩
    simpa [chainEdges] using h'

theorem DefsFor.addChains (h : DefsFor segs edges d) {chains : List (List Seg)}
    (hc : Consistent (segs ++ chains.flatten)) :
    ∃ d', Defs.addChains chains d = .ok d' ∧
      DefsFor (segs ++ chains.flatten) (edges ++ chains.flatMap chainEdges) d' := by
  induction chains generalizing segs edges d with
  | nil => exact ⟨d, rfl, by simpa using h⟩
  | cons c cs ih =>
    obtain ⟨d₁, he, h₁⟩ := h.addChain (c := c) (hc.mono (by simp))
    obtain ⟨d', hd', h'⟩ := ih h₁ (hc.mono (by simp))
    refine ⟨d', by simp [Defs.addChains, he, hd'], ?_⟩
    simpa using h'

end Defs

section Build

variable {β : Type} {registry : OpRegistry} {g : Graph β}

structure Added (registry : OpRegistry) (defs : List OpDef) (g : Graph β) : Prop where
  length : g.ops.length = defs.length
  ptr : ∀ (i : Nat) (x : OpObject), g.ops[i]? = some x → x.ptr = i
  byId : ∀ id x, g.byId id = some x ↔
    ∃ (i : Nat) (f : OpDef), defs[i]? = some f ∧ g.ops[i]? = some x ∧ f.nodeId = id
  name : ∀ (i : Nat) (f : OpDef) (x : OpObject), defs[i]? = some f → g.ops[i]? = some x →
    registry f.type = some x.name

theorem nodeId_ne {f : OpDef} (h : f.type ≠ "") : f.nodeId ≠ "" := by
  unfold OpDef.nodeId
  split_ifs with hid
  · exact h
  · exact hid

theorem Added.addOp {defs : List OpDef} (h : Added registry defs g) {f : OpDef} {name : String}
    (hr : registry f.type = some name) (ht : f.type ≠ "")
    (hnew : ∀ f' ∈ defs, f'.nodeId ≠ f.nodeId) :
    ∃ g', g.addOp OpObject.name (some ⟨g.ops.length, name⟩) f.nodeId = .ok g' ∧
      g'.byId = Function.update g.byId f.nodeId (some ⟨g.ops.length, name⟩) ∧
      g'.deps = g.deps ∧ Added registry (defs ++ [f]) g' := by
  have hnone : g.byId f.nodeId = none := by
    cases hb : g.byId f.nodeId with
    | none => rfl
    | some x =>
      obtain ⟨i, f', hf', -, hid⟩ := (h.byId f.nodeId x).1 hb
      exact absurd hid (hnew f' (List.mem_of_getElem? hf'))
  refine ⟨{ g with
    ops := g.ops ++ [⟨g.ops.length, name⟩]
    byId := Function.update g.byId f.nodeId (some ⟨g.ops.length, name⟩)
    compiled := false }, by simp only [OpGraph.addOp, nodeId_ne ht, if_false, hnone], rfl, rfl,
      ?_⟩
  refine ⟨by simp [h.length], ?_, ?_, ?_⟩
  · intro i x hx
    rcases getElem?_snoc.1 hx with hx | ⟨rfl, rfl⟩
    · exact h.ptr i x hx
    · rfl
  · intro id x
    rcases eq_or_ne id f.nodeId with rfl | hne
    · simp only [Function.update_self, Option.some.injEq]
      refine ⟨?_, ?_⟩
      · rintro rfl
        exact ⟨g.ops.length, f, getElem?_snoc.2 (.inr ⟨h.length, rfl⟩),
          getElem?_snoc.2 (.inr ⟨rfl, rfl⟩), rfl⟩
      · rintro ⟨i, f', hf', hx, hid⟩
        rcases getElem?_snoc.1 hf' with hf' | ⟨rfl, -⟩
        · exact absurd hid (hnew f' (List.mem_of_getElem? hf'))
        · rcases getElem?_snoc.1 hx with hx | ⟨-, rfl⟩
          · rw [← h.length, List.getElem?_eq_none le_rfl] at hx
            cases hx
          · rfl
    · simp only [Function.update_of_ne hne, h.byId id x]
      refine ⟨?_, ?_⟩
      · rintro ⟨i, f', hf', hx, hid⟩
        exact ⟨i, f', getElem?_snoc.2 (.inl hf'), getElem?_snoc.2 (.inl hx), hid⟩
      · rintro ⟨i, f', hf', hx, hid⟩
        rcases getElem?_snoc.1 hf' with hf' | ⟨-, rfl⟩
        · rcases getElem?_snoc.1 hx with hx | ⟨rfl, -⟩
          · exact ⟨i, f', hf', hx, hid⟩
          · rw [h.length, List.getElem?_eq_none le_rfl] at hf'
            cases hf'
        · exact absurd hid.symm hne
  · intro i f' x hf' hx
    rcases getElem?_snoc.1 hf' with hf' | ⟨hi, rfl⟩
    · rcases getElem?_snoc.1 hx with hx | ⟨rfl, -⟩
      · exact h.name i f' x hf' hx
      · rw [h.length, List.getElem?_eq_none le_rfl] at hf'
        cases hf'
    · rcases getElem?_snoc.1 hx with hx | ⟨-, rfl⟩
      · rw [hi, ← h.length, List.getElem?_eq_none le_rfl] at hx
        cases hx
      · exact hr

theorem Added.addOps {done defs : List OpDef} (h : Added registry done g)
    (hr : ∀ f ∈ defs, (registry f.type).isSome) (ht : ∀ f ∈ defs, f.type ≠ "")
    (hnd : ((done ++ defs).map OpDef.nodeId).Nodup) :
    ∃ g', addOps registry defs g g.byId = .ok (g', g'.byId) ∧ g'.deps = g.deps ∧
      Added registry (done ++ defs) g' := by
  induction defs generalizing done g with
  | nil => exact ⟨g, rfl, rfl, by simpa using h⟩
  | cons f defs ih =>
    obtain ⟨name, hname⟩ := Option.isSome_iff_exists.1 (hr f (by simp))
    have hft := ht f (by simp)
    have hnew : ∀ f' ∈ done, f'.nodeId ≠ f.nodeId := by
      intro f' hf'
      rw [List.map_append, List.nodup_append] at hnd
      exact hnd.2.2 _ (List.mem_map_of_mem hf') _ (by simp)
    obtain ⟨g₁, hadd, hby, hdeps, h₁⟩ := h.addOp hname hft hnew
    obtain ⟨g', hrest, hdeps', h'⟩ := ih h₁ (fun f' hf' => hr f' (by simp [hf']))
      (fun f' hf' => ht f' (by simp [hf'])) (by simpa using hnd)
    refine ⟨g', ?_, hdeps'.trans hdeps, by simpa using h'⟩
    simp [OpGraphBuilder.addOps, hft, OpRegistry.create, hname, hadd, ← hby, hrest]

structure Linked (byId : String → Option OpObject) (edges : List (String × String))
    (g : Graph β) : Prop where
  byId_eq : g.byId = byId
  deps : ∀ x y, x ∈ g.deps y ↔ ∃ p ∈ edges, byId p.1 = some x ∧ byId p.2 = some y

variable {byId : String → Option OpObject} {edges : List (String × String)}

theorem Linked.dependsOn (h : Linked byId edges g) {dep id : String} {d x : OpObject}
    (hd : byId dep = some d) (hx : byId id = some x) :
    ∃ g', g.dependsOn dep id = .ok g' ∧ g'.ops = g.ops ∧
      Linked byId (edges ++ [(dep, id)]) g' := by
  refine ⟨{ g with
    deps := Function.update g.deps x (g.deps x ++ [d])
    compiled := false }, by simp [OpGraph.dependsOn, h.byId_eq, hd, hx], rfl, h.byId_eq, ?_⟩
  intro y z
  have hnew : (∃ p ∈ edges ++ [(dep, id)], byId p.1 = some y ∧ byId p.2 = some z) ↔
      y ∈ g.deps z ∨ d = y ∧ x = z := by
    rw [h.deps y z]
    simp [or_and_right, exists_or, hd, hx]
  rw [hnew]
  rcases eq_or_ne z x with rfl | hne
  · simp [eq_comm]
  · simp [hne, hne.symm]

theorem Linked.addDeps (h : Linked byId edges g) {id : String} {deps : List String}
    (hid : (byId id).isSome) (hd : ∀ dep ∈ deps, (byId dep).isSome) :
    ∃ g', addDeps byId id deps g = .ok g' ∧ g'.ops = g.ops ∧
      Linked byId (edges ++ deps.map (·, id)) g' := by
  induction deps generalizing edges g with
  | nil => exact ⟨g, rfl, rfl, by simpa using h⟩
  | cons dep deps ih =>
    obtain ⟨x, hx⟩ := Option.isSome_iff_exists.1 hid
    obtain ⟨d, hdep⟩ := Option.isSome_iff_exists.1 (hd dep (by simp))
    obtain ⟨g₁, hadd, hops, h₁⟩ := h.dependsOn hdep hx
    obtain ⟨g', hrest, hops', h'⟩ := ih h₁ (fun d' hd' => hd d' (by simp [hd']))
    refine ⟨g', ?_, hops'.trans hops, by simpa using h'⟩
    simp [OpGraphBuilder.addDeps, hdep, hadd, hrest]

def depEdges (f : OpDef) : List (String × String) := f.deps.map (·, f.nodeId)

theorem Linked.addAllDeps (h : Linked byId edges g) {defs : List OpDef}
    (hid : ∀ f ∈ defs, (byId f.nodeId).isSome)
    (hd : ∀ f ∈ defs, ∀ dep ∈ f.deps, (byId dep).isSome) :
    ∃ g', addAllDeps byId defs g = .ok g' ∧ g'.ops = g.ops ∧
      Linked byId (edges ++ defs.flatMap depEdges) g' := by
  induction defs generalizing edges g with
  | nil => exact ⟨g, rfl, rfl, by simpa using h⟩
  | cons f defs ih =>
    obtain ⟨g₁, hadd, hops, h₁⟩ := h.addDeps (hid f (by simp)) (hd f (by simp))
    obtain ⟨g', hrest, hops', h'⟩ := ih h₁ (fun f' hf' => hid f' (by simp [hf']))
      (fun f' hf' => hd f' (by simp [hf']))
    refine ⟨g', ?_, hops'.trans hops, by simpa [depEdges] using h'⟩
    simp [OpGraphBuilder.addAllDeps, hadd, hrest]

theorem Added.congr {defs : List OpDef} {g' : Graph β} (h : Added registry defs g)
    (hops : g'.ops = g.ops) (hby : g'.byId = g.byId) : Added registry defs g' := by
  refine ⟨by rw [hops, h.length], ?_, ?_, ?_⟩
  · rw [hops]
    exact h.ptr
  · rw [hops, hby]
    exact h.byId
  · rw [hops]
    exact h.name

theorem Added.isSome {defs : List OpDef} (h : Added registry defs g) {f : OpDef} (hf : f ∈ defs) :
    (g.byId f.nodeId).isSome := by
  obtain ⟨i, hi⟩ := List.getElem?_of_mem hf
  have hlt : i < g.ops.length := by
    rw [h.length]
    exact (List.getElem?_eq_some_iff.1 hi).1
  exact Option.isSome_iff_exists.2
    ⟨g.ops[i], (h.byId _ _).2 ⟨i, f, hi, List.getElem?_eq_getElem hlt, rfl⟩⟩

structure Blank (registry : OpRegistry) (g : Graph β) : Prop where
  added : Added registry [] g
  byId : g.byId = fun _ => none
  deps : g.deps = fun _ => []

theorem blank_aspects (registry : OpRegistry) (aspects : List β) :
    Blank registry (aspects.foldl (fun g aspect => g.addAspect (some aspect)) .empty) := by
  refine foldl_rule aspects ?_ ?_
  · refine ⟨⟨rfl, ?_, ?_, ?_⟩, rfl, rfl⟩ <;> simp [OpGraph.empty]
  · intro g aspect h
    exact ⟨h.added.congr rfl rfl, h.byId, h.deps⟩

theorem build_spec (b : OpGraphBuilder β) {defs : List OpDef}
    (hr : ∀ f ∈ defs, (b.registry f.type).isSome) (ht : ∀ f ∈ defs, f.type ≠ "")
    (hnd : (defs.map OpDef.nodeId).Nodup)
    (hd : ∀ f ∈ defs, ∀ dep ∈ f.deps, ∃ f' ∈ defs, f'.nodeId = dep) :
    ∃ g, b.build defs = .ok g ∧ Added b.registry defs g ∧
      Linked g.byId (defs.flatMap depEdges) g := by
  obtain ⟨h₀, hby₀, hdeps₀⟩ := blank_aspects b.registry b.aspects
  obtain ⟨g₁, hops₁, hdeps₁, h₁⟩ := h₀.addOps hr ht (by simpa using hnd)
  rw [List.nil_append] at h₁
  have hlinked : Linked g₁.byId [] g₁ := ⟨rfl, by simp [hdeps₁, hdeps₀]⟩
  obtain ⟨g, hlink, hops, h⟩ := hlinked.addAllDeps (fun f hf => h₁.isSome hf) (by
    intro f hf dep hdep
    obtain ⟨f', hf', rfl⟩ := hd f hf dep hdep
    exact h₁.isSome hf')
  refine ⟨g, ?_, h₁.congr hops h.byId_eq, ?_⟩
  · rw [hby₀] at hops₁
    simp [build, hops₁, hlink]
  · rw [h.byId_eq]
    simpa using h

structure BuildsUnion (registry : OpRegistry) (chains : List (List Seg)) (g : Graph β) : Prop where
  nodup : g.ops.Nodup
  mem : ∀ x, x ∈ g.ops ↔ ∃ id, g.byId id = some x
  byId_inj : ∀ id id' x, g.byId id = some x → g.byId id' = some x → id = id'
  ids : ∀ id, (g.byId id).isSome ↔ ∃ c ∈ chains, ∃ s ∈ c, s.id = id
  name : ∀ c ∈ chains, ∀ s ∈ c, ∀ x, g.byId s.id = some x → registry s.type = some x.name
  deps : ∀ a b x y, g.byId a = some x → g.byId b = some y →
    (x ∈ g.deps y ↔ ∃ c ∈ chains, [a, b] <:+: c.map Seg.id)

theorem id_ne_empty {name : List Char} (h : IsIdent name) : String.ofList name ≠ "" := by
  obtain ⟨c, cs, rfl, -⟩ := h.start
  intro he
  have := congrArg String.toList he
  simp at this

variable {segs : List Seg} {d : Defs}

theorem DefsFor.nodeId (h : DefsFor segs edges d) (hn : ∀ s ∈ segs, s.Named) :
    ∀ f ∈ d.defs, f.nodeId = f.id ∧ f.type ≠ "" := by
  intro f hf
  obtain ⟨s, hs, hid, htype⟩ := h.type f hf
  have hne : f.id ≠ "" := hid ▸ id_ne_empty (hn s hs).id
  exact ⟨by simp [OpDef.nodeId, hne], htype ▸ id_ne_empty (hn s hs).type⟩

theorem DefsFor.nodup (h : DefsFor segs edges d) : (d.defs.map OpDef.id).Nodup := by
  rw [List.nodup_iff_getElem?_ne_getElem?]
  intro i j hij hj heq
  have hlen : j < d.defs.length := by simpa using hj
  have hi := (h.index d.defs[j].id i).2
    ⟨d.defs[i], List.getElem?_eq_getElem (hij.trans hlen), by simpa [hlen, hij.trans hlen] using heq⟩
  have hj' := (h.index d.defs[j].id j).2 ⟨d.defs[j], List.getElem?_eq_getElem hlen, rfl⟩
  rw [hi] at hj'
  exact hij.ne (Option.some.inj hj')

theorem Added.nodup {defs : List OpDef} (h : Added registry defs g) : g.ops.Nodup := by
  rw [List.nodup_iff_getElem?_ne_getElem?]
  intro i j hij hj heq
  have hx := h.ptr j _ (List.getElem?_eq_getElem hj)
  rw [List.getElem?_eq_getElem hj] at heq
  exact hij.ne ((h.ptr i _ heq).symm.trans hx)

theorem Added.mem {defs : List OpDef} (h : Added registry defs g) (x : OpObject) :
    x ∈ g.ops ↔ ∃ id, g.byId id = some x := by
  refine ⟨?_, ?_⟩
  · intro hx
    obtain ⟨i, hi⟩ := List.getElem?_of_mem hx
    have hlt : i < defs.length := by
      rw [← h.length]
      exact (List.getElem?_eq_some_iff.1 hi).1
    exact ⟨_, (h.byId _ x).2 ⟨i, defs[i], List.getElem?_eq_getElem hlt, hi, rfl⟩⟩
  · rintro ⟨id, hid⟩
    obtain ⟨i, f, -, hx, -⟩ := (h.byId id x).1 hid
    exact List.mem_of_getElem? hx

theorem Added.byId_inj {defs : List OpDef} (h : Added registry defs g) {id id' : String}
    {x : OpObject} (hx : g.byId id = some x) (hx' : g.byId id' = some x) : id = id' := by
  obtain ⟨i, f, hf, hi, rfl⟩ := (h.byId id x).1 hx
  obtain ⟨j, f', hf', hj, rfl⟩ := (h.byId id' x).1 hx'
  obtain rfl : i = j := (h.ptr i x hi).symm.trans (h.ptr j x hj)
  obtain rfl : f = f' := by simpa [hf] using hf'
  rfl

theorem mem_flatMap_chainEdges {chains : List (List Seg)} {a b : String} :
    (a, b) ∈ chains.flatMap chainEdges ↔ ∃ c ∈ chains, [a, b] <:+: c.map Seg.id := by
  simp [List.mem_flatMap, mem_chainEdges]

theorem buildsUnion_of_defs {b : OpGraphBuilder β} {chains : List (List Seg)}
    (h : DefsFor chains.flatten (chains.flatMap chainEdges) d)
    (hc : Consistent chains.flatten) (hn : ∀ s ∈ chains.flatten, s.Named)
    (hr : ∀ s ∈ chains.flatten, (b.registry s.type).isSome) :
    ∃ g, b.build d.defs = .ok g ∧ BuildsUnion b.registry chains g := by
  have hnode := h.nodeId hn
  have hids : d.defs.map OpDef.nodeId = d.defs.map OpDef.id :=
    List.map_congr_left fun f hf => (hnode f hf).1
  have hreg : ∀ f ∈ d.defs, (b.registry f.type).isSome := by
    intro f hf
    obtain ⟨s, hs, -, htype⟩ := h.type f hf
    exact htype ▸ hr s hs
  have hdeps : ∀ f ∈ d.defs, ∀ dep ∈ f.deps, ∃ f' ∈ d.defs, f'.nodeId = dep := by
    intro f hf dep hdep
    obtain ⟨⟨s, hs, hid⟩, -⟩ := h.ends _ ((h.deps f hf dep).1 hdep)
    obtain ⟨f', hf', hid'⟩ := h.covers s hs
    exact ⟨f', hf', (hnode f' hf').1.trans (hid'.trans hid)⟩
  obtain ⟨g, hg, ha, hl⟩ := build_spec b hreg (fun f hf => (hnode f hf).2) (hids ▸ h.nodup) hdeps
  have hsome : ∀ id, (g.byId id).isSome ↔ ∃ f ∈ d.defs, f.id = id := by
    intro id
    refine ⟨?_, ?_⟩
    · intro hx
      obtain ⟨x, hx⟩ := Option.isSome_iff_exists.1 hx
      obtain ⟨i, f, hf, -, rfl⟩ := (ha.byId id x).1 hx
      have hmem := List.mem_of_getElem? hf
      exact ⟨f, hmem, (hnode f hmem).1.symm⟩
    · rintro ⟨f, hf, rfl⟩
      exact (hnode f hf).1 ▸ ha.isSome hf
  refine ⟨g, hg, ha.nodup, ha.mem, fun id id' x => ha.byId_inj, ?_, ?_, ?_⟩
  · intro id
    rw [hsome id]
    refine ⟨?_, ?_⟩
    · rintro ⟨f, hf, rfl⟩
      obtain ⟨s, hs, hid, -⟩ := h.type f hf
      obtain ⟨c, hmem, hs⟩ := List.mem_flatten.1 hs
      exact ⟨c, hmem, s, hs, hid⟩
    · rintro ⟨c, hmem, s, hs, rfl⟩
      exact h.covers s (List.mem_flatten.2 ⟨c, hmem, hs⟩)
  · intro c hmem s hs x hx
    obtain ⟨i, f, hf, hi, hid⟩ := (ha.byId s.id x).1 hx
    have hfm := List.mem_of_getElem? hf
    obtain ⟨s', hs', hid', htype⟩ := h.type f hfm
    have heq : s'.id = s.id := by rw [hid', ← (hnode f hfm).1, hid]
    rw [← hc s' hs' s (List.mem_flatten.2 ⟨c, hmem, hs⟩) heq, htype]
    exact ha.name i f x hf hi
  · intro a b' x y hx hy
    rw [hl.deps x y, ← mem_flatMap_chainEdges]
    refine ⟨?_, ?_⟩
    · rintro ⟨⟨a', b''⟩, hp, hx', hy'⟩
      obtain rfl := ha.byId_inj hx hx'
      obtain rfl := ha.byId_inj hy hy'
      obtain ⟨f, hf, hp⟩ := List.mem_flatMap.1 hp
      obtain ⟨dep, hdep, heq⟩ := List.mem_map.1 hp
      obtain ⟨rfl, rfl⟩ := Prod.mk.inj heq
      rw [(hnode f hf).1]
      exact (h.deps f hf dep).1 hdep
    · intro hp
      obtain ⟨-, s, hs, hid⟩ := h.ends _ hp
      obtain ⟨f, hf, hid'⟩ := h.covers s hs
      have hfid : f.id = b' := hid'.trans hid
      refine ⟨(a, b'), List.mem_flatMap.2 ⟨f, hf, List.mem_map.2 ⟨a, ?_, ?_⟩⟩, hx, hy⟩
      · exact (h.deps f hf a).2 (hfid ▸ hp)
      · rw [(hnode f hf).1, hfid]

end Build

section Program

variable {β : Type} {chains : List (List Seg)} {seps : List Sep} {source : List Char}

structure Valid (registry : OpRegistry) (chains : List (List Seg)) : Prop where
  nonempty : ∀ c ∈ chains, c ≠ []
  named : ∀ c ∈ chains, ∀ s ∈ c, s.Named
  consistent : Consistent chains.flatten
  registered : ∀ c ∈ chains, ∀ s ∈ c, (registry s.type).isSome

theorem ready_make {End : List Char → Prop} {ts : List Tok}
    (hl : Lexable arrowLanguage End ts source) :
    Ready End (.make (String.ofList source) arrowSymbols arrowMulti) ts :=
  .start hl (by decide)

theorem Valid.addChains {registry : OpRegistry} (hv : Valid registry chains) :
    ∃ d, Defs.addChains chains .empty = .ok d ∧
      DefsFor chains.flatten (chains.flatMap chainEdges) d := by
  have hc : Consistent ([] ++ chains.flatten) := by simpa using hv.consistent
  obtain ⟨d, hd, hfor⟩ := defsFor_empty.addChains hc
  exact ⟨d, hd, by simpa using hfor⟩

theorem buildDsl_newlines {b : OpGraphBuilder β} (hp : Program chains seps source)
    (hv : Valid b.registry chains) (hs : .semi ∉ seps) :
    ∃ g, b.buildDsl (String.ofList source) = .ok g ∧ BuildsUnion b.registry chains g := by
  obtain ⟨d, hd, hfor⟩ := hv.addChains
  have hl := hp.lexable hv.named hs
  have hst := statements_spec hv.nonempty (Nat.lt_succ_of_le (lexable_length hl)) (ready_make hl) hd
  have hn : ∀ s ∈ chains.flatten, s.Named := by
    intro s hmem
    obtain ⟨c, hc, hmem⟩ := List.mem_flatten.1 hmem
    exact hv.named c hc s hmem
  have hr : ∀ s ∈ chains.flatten, (b.registry s.type).isSome := by
    intro s hmem
    obtain ⟨c, hc, hmem⟩ := List.mem_flatten.1 hmem
    exact hv.registered c hc s hmem
  obtain ⟨g, hg, hu⟩ := buildsUnion_of_defs hfor hv.consistent hn hr
  exact ⟨g, by simp [buildDsl, hst, hg], hu⟩

theorem buildDsl_semicolon {b : OpGraphBuilder β} (hp : Program chains seps source)
    (hv : Valid b.registry chains) (hs : .semi ∈ seps) :
    IsDslError (b.buildDsl (String.ofList source)) := by
  obtain ⟨d, hd, -⟩ := hv.addChains
  obtain ⟨front, c, back, rfl, hl⟩ := hp.lexable_semi hv.named hs
  have hst := statements_semi hv.nonempty (Nat.lt_succ_of_le (lexable_length hl)) (ready_make hl) hd
  rw [← String.length_ofList] at hst
  exact hst.bind _

theorem buildDsl_union_iff {b : OpGraphBuilder β} (hp : Program chains seps source)
    (hv : Valid b.registry chains) :
    (∃ g, b.buildDsl (String.ofList source) = .ok g ∧ BuildsUnion b.registry chains g) ↔
      .semi ∉ seps := by
  refine ⟨?_, buildDsl_newlines hp hv⟩
  rintro ⟨g, hg, -⟩ hs
  obtain ⟨what, line, col, he⟩ := buildDsl_semicolon hp hv hs
  rw [hg] at he
  cases he

def pairBuilder : OpGraphBuilder Unit := ⟨fun t => if t = "A" ∨ t = "B" then some t else none, []⟩

def pairChains : List (List Seg) := [[.typed ['a'] ['A'], .bare ['B']], [.bare ['B']]]

theorem pairChains_valid : Valid pairBuilder.registry pairChains := by
  have ha : IsIdent ['a'] := isIdent_letter (by decide)
  have hA : IsIdent ['A'] := isIdent_letter (by decide)
  have hB : IsIdent ['B'] := isIdent_letter (by decide)
  refine ⟨by simp [pairChains], ?_, ?_, ?_⟩
  · have hab : (Seg.typed ['a'] ['A']).Named := ⟨ha, hA⟩
    have hb : (Seg.bare ['B']).Named := ⟨hB, hB⟩
    simp [pairChains, hab, hb]
  · unfold Consistent
    simp [pairChains, Seg.id, Seg.type, Seg.idChars, Seg.typeChars]
  · simp [pairChains, pairBuilder, Seg.type, Seg.typeChars]

theorem pairChains_first : Rendering (· = []) (texts [.typed ['a'] ['A'], .bare ['B']])
    ['a', ':', 'A', '-', '>', 'B'] :=
  .tok .nil (.tok .nil (.tok .nil (.tok .nil (.tok .nil (.done rfl)))))

theorem pairChains_last : Rendering TrailingGap (texts [.bare ['B']]) ['B'] :=
  .tok .nil (.done (.gap .nil))

theorem buildDsl_pair_newline : (∃ g, pairBuilder.buildDsl "a:A->B\nB" = .ok g ∧
    BuildsUnion pairBuilder.registry pairChains g) ↔ .semi ∉ [Sep.newline] :=
  buildDsl_union_iff (.newline pairChains_first (.space rfl .nil) (by simp) (.last pairChains_last))
    pairChains_valid

theorem buildDsl_pair_semicolon : Program pairChains [.semi] ("a:A->B;B".toList) ∧
    Valid pairBuilder.registry pairChains ∧
    pairBuilder.buildDsl "a:A->B;B" = .error (.dslError "unexpected character ';'" 1 7) :=
  ⟨.semi pairChains_first .nil (.last pairChains_last), pairChains_valid, by rfl⟩

end Program

end Lark.Dag.OpGraphBuilder
