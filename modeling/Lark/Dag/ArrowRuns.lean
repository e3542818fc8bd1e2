import Lark.Dag.ArrowGraph
import Lark.Dag.OpEvents

namespace Lark.Dag.OpGraphBuilder

open Lark.Base Lark.Toolkit.Dsl Relation

variable {β : Type} {g g' : Graph β}

section Build

variable {registry : OpRegistry} {byId byId' : String → Option OpObject}

theorem addOps_built {defs : List OpDef} (hb : g.Built OpObject.name)
    (h : addOps registry defs g byId = .ok (g', byId')) :
    g'.Built OpObject.name ∧ g'.aspects = g.aspects := by
  induction defs generalizing g byId with
  | nil =>
    cases h
    exact ⟨hb, rfl⟩
  | cons d defs ih =>
    simp only [addOps] at h
    split_ifs at h
    obtain ⟨op, -, h⟩ := except_bind_eq_ok.1 h
    obtain ⟨g₁, hadd, h⟩ := except_bind_eq_ok.1 h
    obtain ⟨hbuilt, haspects⟩ := ih (hb.addOp hadd) h
    obtain ⟨x, -, -, rfl⟩ := OpGraph.addOp_eq_ok hadd
    exact ⟨hbuilt, haspects⟩

theorem addDeps_built {id : String} {deps : List String} (hb : g.Built OpObject.name)
    (h : addDeps byId id deps g = .ok g') :
    g'.Built OpObject.name ∧ g'.aspects = g.aspects := by
  induction deps generalizing g with
  | nil =>
    cases h
    exact ⟨hb, rfl⟩
  | cons dep deps ih =>
    simp only [addDeps] at h
    split at h
    · cases h
    · obtain ⟨g₁, hdep, h⟩ := except_bind_eq_ok.1 h
      obtain ⟨hbuilt, haspects⟩ := ih (hb.dependsOn hdep) h
      obtain ⟨d, x, -, -, rfl⟩ := OpGraph.dependsOn_eq_ok hdep
      exact ⟨hbuilt, haspects⟩

theorem addAllDeps_built {defs : List OpDef} (hb : g.Built OpObject.name)
    (h : addAllDeps byId defs g = .ok g') :
    g'.Built OpObject.name ∧ g'.aspects = g.aspects := by
  induction defs generalizing g with
  | nil =>
    cases h
    exact ⟨hb, rfl⟩
  | cons d defs ih =>
    obtain ⟨g₁, hdeps, h⟩ := except_bind_eq_ok.1 h
    obtain ⟨hbuilt, haspects⟩ := addDeps_built hb hdeps
    obtain ⟨hbuilt', haspects'⟩ := ih hbuilt h
    exact ⟨hbuilt', haspects'.trans haspects⟩

theorem aspects_built (aspects : List β) (hb : g.Built OpObject.name) :
    (aspects.foldl (fun g aspect => g.addAspect (some aspect)) g).Built OpObject.name ∧
      (aspects.foldl (fun g aspect => g.addAspect (some aspect)) g).aspects =
        g.aspects ++ aspects := by
  induction aspects generalizing g with
  | nil => exact ⟨hb, by simp⟩
  | cons a aspects ih =>
    obtain ⟨hbuilt, haspects⟩ := ih (hb.addAspect (some a))
    refine ⟨hbuilt, haspects.trans ?_⟩
    simp [OpGraph.addAspect]

theorem build_built {b : OpGraphBuilder β} {defs : List OpDef} (h : b.build defs = .ok g) :
    g.Built OpObject.name ∧ g.aspects = b.aspects := by
  obtain ⟨hbuilt, haspects⟩ := aspects_built b.aspects (g := .empty) .empty
  obtain ⟨r, hops, h⟩ := except_bind_eq_ok.1 h
  obtain ⟨hbuilt', haspects'⟩ := addOps_built hbuilt hops
  obtain ⟨hbuilt'', haspects''⟩ := addAllDeps_built hbuilt' h
  exact ⟨hbuilt'', haspects''.trans (haspects'.trans haspects)⟩

end Build

section Runs

open Lark.Dag.OpExecutor

variable {E : Type} {chains : List (List Seg)} {seps : List Sep} {source : List Char}

def Arrow (chains : List (List Seg)) (a b : String) : Prop :=
  ∃ c ∈ chains, [a, b] <:+: c.map Seg.id

theorem acyclic_of_arrows {registry : OpRegistry} (h : BuildsUnion registry chains g)
    (hw : g.WellFormed) (ha : ∀ id, ¬ TransGen (Arrow chains) id id) : g.Acyclic := by
  have hlift : ∀ {x y}, TransGen (Kahn.DependsOn g.deps) x y → ∀ {a b}, g.byId a = some x →
      g.byId b = some y → TransGen (Arrow chains) b a := by
    intro x y hxy
    induction hxy using TransGen.head_induction_on with
    | single hd =>
      intro a b hx hy
      exact .single ((h.deps b a _ _ hy hx).1 hd)
    | head hd _ ih =>
      intro a b hx hy
      obtain ⟨c, hc⟩ := (h.mem _).1 (hw.deps_mem _ _ hd).1
      exact (ih hc hy).tail ((h.deps c a _ _ hc hx).1 hd)
  intro x hx
  obtain ⟨y, hxy, -⟩ := TransGen.head'_iff.1 hx
  obtain ⟨id, hid⟩ := (h.mem x).1 (hw.deps_mem x y hxy).2
  exact ha id (hlift hx hid hid)

structure RunsArrows (cb : Callbacks OpObject β E) (aspects : List β) (chains : List (List Seg))
    (g : Graph β) {n : Nat} (s : Observed g.deps n β E) : Prop where
  made : ∀ c ∈ chains, ∀ t ∈ c, ∃ x, g.byId t.id = some x ∧
    callsOf s.log x <+: protocol cb aspects x
  arrow : ∀ a b, Arrow chains a b → ∃ x y, g.byId a = some x ∧ g.byId b = some y ∧
    ∀ l₁ call l₂, s.log = l₁ ++ (y, call) :: l₂ → callsOf l₁ x = protocol cb aspects x
  complete : s.exec.all.out.resolved = true → ∀ id x, g.byId id = some x →
    callsOf s.log x = protocol cb aspects x

theorem runsArrows {cb : Callbacks OpObject β E} {registry : OpRegistry} {aspects : List β}
    {n : Nat} {s : Observed g.deps n β E} (h : BuildsUnion registry chains g)
    (haspects : g.aspects = aspects) (hs : Obeys cb g s) :
    RunsArrows cb aspects chains g s := by
  subst haspects
  refine ⟨fun c hc t ht => ?_, fun a b hab => ?_, fun hr id x hx => ?_⟩
  · obtain ⟨x, hx⟩ := Option.isSome_iff_exists.1 ((h.ids t.id).2 ⟨c, hc, t, ht, rfl⟩)
    exact ⟨x, hx, hs.sequence x ((h.mem x).2 ⟨t.id, hx⟩)⟩
  · obtain ⟨c, hc, hpair⟩ := hab
    have hsome : ∀ id ∈ [a, b], ∃ x, g.byId id = some x := by
      intro id hid
      obtain ⟨t, ht, rfl⟩ := List.mem_map.1 (hpair.subset hid)
      exact Option.isSome_iff_exists.1 ((h.ids t.id).2 ⟨c, hc, t, ht, rfl⟩)
    obtain ⟨x, hx⟩ := hsome a (by simp)
    obtain ⟨y, hy⟩ := hsome b (by simp)
    have hd : x ∈ g.deps y := (h.deps a b x y hx hy).2 ⟨c, hc, hpair⟩
    exact ⟨x, y, hx, hy, fun l₁ call l₂ hl => hs.ordered l₁ y call l₂ hl x hd⟩
  · exact hs.complete hr x ((h.mem x).2 ⟨id, hx⟩)

theorem arrow_program_runs {b : OpGraphBuilder β} (hp : Program chains seps source)
    (hv : Valid b.registry chains) (hs : .semi ∉ seps)
    (ha : ∀ id, ¬ TransGen (Arrow chains) id id) {cb : Callbacks OpObject β E}
    (hq : ∀ x, Quiet cb b.aspects x) (initial : StatusMap OpObject) :
    ∃ g order, b.buildDsl (String.ofList source) = .ok g ∧ g.compile.1 = .ok order ∧
      (WellFounded fun t s : Observed g.deps order.length β E =>
        ObservedStep cb g.aspects order s t) ∧
      ∀ s, (observed cb g.aspects g.deps order initial).Reachable s →
        RunsArrows cb b.aspects chains g s ∧
        ((observed cb g.aspects g.deps order initial).Quiescent s →
          s.exec.all.out.resolved = true) := by
  obtain ⟨g, hg, hu⟩ := buildDsl_newlines hp hv hs
  obtain ⟨d, -, hbuild⟩ := except_bind_eq_ok.1 hg
  obtain ⟨hbuilt, haspects⟩ := build_built hbuild
  have hw := hbuilt.wellFormed
  obtain ⟨order, hc⟩ := hw.compile_ok hu.nodup (acyclic_of_arrows hu hw ha)
  have hq' : ∀ x ∈ g.ops, Quiet cb g.aspects x := fun x _ => haspects ▸ hq x
  exact ⟨g, order, hg, hc, observed_wellFounded g.deps g.aspects order, fun s hs =>
    ⟨runsArrows hu haspects (obeys_reachable hw hu.nodup hq' hc hs),
      resolved_of_stuck hw hu.nodup hq' hc hs⟩⟩

theorem pairChains_arrow {a b : String} (h : Arrow pairChains a b) : a = "a" ∧ b = "B" := by
  obtain ⟨c, hc, hpair⟩ := h
  have hlen := hpair.length_le
  simp only [pairChains, List.mem_cons, List.not_mem_nil, or_false] at hc
  rcases hc with rfl | rfl
  · have heq := hpair.eq_of_length (by rfl)
    exact ⟨(List.cons.inj heq).1, (List.cons.inj (List.cons.inj heq).2).1⟩
  · simp at hlen

theorem pairChains_acyclic (id : String) : ¬ TransGen (Arrow pairChains) id id := by
  intro h
  obtain ⟨b, hb, -⟩ := TransGen.head'_iff.1 h
  obtain ⟨c, -, hc⟩ := TransGen.tail'_iff.1 h
  have heq := (pairChains_arrow hb).1.symm.trans (pairChains_arrow hc).2
  exact absurd heq (by decide)

theorem pairChains_program : Program pairChains [.newline]
    ['a', ':', 'A', '-', '>', 'B', '\n', 'B'] :=
  .newline pairChains_first (.space rfl .nil) (by simp) (.last pairChains_last)

def pairCalls : Callbacks OpObject Unit String :=
  ⟨fun _ _ => .ok false, fun _ _ => .ok (), fun _ => .ok (), fun _ _ _ => .ok ()⟩

theorem arrow_program_runs_pair : ∃ g order, pairBuilder.buildDsl "a:A->B\nB" = .ok g ∧
    g.compile.1 = .ok order ∧ ∀ s : Observed g.deps order.length Unit String,
      (observed pairCalls g.aspects g.deps order ∅).Reachable s →
        RunsArrows pairCalls [] pairChains g s := by
  have hq : ∀ x, Quiet pairCalls pairBuilder.aspects x := fun x => .inr ⟨rfl, by simp [pairBuilder]⟩
  obtain ⟨g, order, hg, hc, -, hall⟩ := arrow_program_runs pairChains_program pairChains_valid
    (by simp) pairChains_acyclic hq ∅
  exact ⟨g, order, hg, hc, fun s hs => (hall s hs).1⟩

end Runs

end Lark.Dag.OpGraphBuilder
