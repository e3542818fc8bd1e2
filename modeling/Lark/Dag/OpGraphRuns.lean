import Lark.Dag.OpGraph

namespace Lark.Dag.OpGraph

open Lark.Base Relation

section Image

variable {ι α β γ : Type}

structure Image (f : ι → α) (t : OpGraph ι γ) (g : OpGraph α β) : Prop where
  ops : g.ops = t.ops.map f
  deps : ∀ i ∈ t.ops, g.deps (f i) = (t.deps i).map f
  alone : ∀ i ∈ t.ops, ∀ j ∈ t.ops, f i = f j → i ≠ j → t.deps i = [] ∧ ∀ k ∈ t.ops, i ∉ t.deps k

variable {f : ι → α} {t : OpGraph ι γ} {g : OpGraph α β}

theorem Image.injective (h : Image f t g) {i j : ι} (hi : i ∈ t.ops) (hj : j ∈ t.ops)
    (hdeps : t.deps i ≠ [] ∨ ∃ k ∈ t.ops, i ∈ t.deps k) (he : f i = f j) : i = j := by
  by_contra hne
  obtain ⟨hnil, hnone⟩ := h.alone i hi j hj he hne
  rcases hdeps with hdeps | ⟨k, hk, hik⟩
  · exact hdeps hnil
  · exact hnone k hk hik

variable [DecidableEq ι] [DecidableEq α]

theorem Image.outs (h : Image f t g) (ht : t.WellFormed) {i : ι} (hi : i ∈ t.ops) :
    Kahn.outs g.ops g.deps (f i) = (Kahn.outs t.ops t.deps i).map f := by
  rw [Kahn.outs, Kahn.outs, h.ops, List.flatMap_map, List.map_flatMap]
  refine List.flatMap_congr fun j hj => ?_
  rw [h.deps j hj, List.filter_map, List.map_map, List.map_map]
  have hfilter : (t.deps j).filter ((fun x => decide (x = f i)) ∘ f) =
      (t.deps j).filter fun d => decide (d = i) := by
    refine List.filter_congr fun d hd => decide_eq_decide.2 ⟨fun he => ?_, fun he => by rw [he]⟩
    exact h.injective (ht.deps_mem j d hd).1 hi (.inr ⟨j, hj, hd⟩) he
  rw [hfilter]
  rfl

theorem countDown_map {ids : List ι} {ys : List ι}
    (hys : ∀ y ∈ ys, y ∈ ids ∧ ∀ i ∈ ids, f i = f y → i = y) {indegree : ι → Nat}
    {indegree' : α → Nat} (hi : ∀ i ∈ ids, indegree' (f i) = indegree i) (ready : List ι) :
    (∀ i ∈ ids, (countDown indegree' (ready.map f) (ys.map f)).1 (f i) =
      (countDown indegree ready ys).1 i) ∧
    (countDown indegree' (ready.map f) (ys.map f)).2 = (countDown indegree ready ys).2.map f := by
  induction ys generalizing indegree indegree' ready with
  | nil => exact ⟨hi, rfl⟩
  | cons y ys ih =>
    obtain ⟨hy, hinj⟩ := hys y (by simp)
    have hready : (if indegree' (f y) = 1 then ready.map f ++ [f y] else ready.map f) =
        (if indegree y = 1 then ready ++ [y] else ready).map f := by
      rw [hi y hy]
      split_ifs
      · simp
      · rfl
    have hupdate : ∀ i ∈ ids, Function.update indegree' (f y) (indegree' (f y) - 1) (f i) =
        Function.update indegree y (indegree y - 1) i := by
      intro i hmem
      rcases eq_or_ne i y with rfl | hne
      · simp [hi i hmem]
      · have hne' : f i ≠ f y := fun he => hne (hinj i hmem he)
        simp [hne, hne', hi i hmem]
    simp only [List.map_cons, countDown, hready]
    exact ih (fun z hz => hys z (by simp [hz])) hupdate _

theorem mem_countDown {indegree : ι → Nat} {ready ys : List ι} {x : ι}
    (h : x ∈ (countDown indegree ready ys).2) : x ∈ ready ∨ x ∈ ys := by
  induction ys generalizing indegree ready with
  | nil => exact .inl h
  | cons y ys ih =>
    rw [countDown] at h
    rcases ih h with hx | hx
    · split_ifs at hx
      · rcases List.mem_append.1 hx with hx | hx
        · exact .inl hx
        · exact .inr (by simp [List.mem_singleton.1 hx])
      · exact .inl hx
    · exact .inr (by simp [hx])

theorem Image.drain (h : Image f t g) (ht : t.WellFormed) (indegree : ι → Nat)
    (indegree' : α → Nat) (hi : ∀ i ∈ t.ops, indegree' (f i) = indegree i) (ready order : List ι)
    (hr : ∀ i ∈ ready, i ∈ t.ops) (fuel : Nat) :
    OpGraph.drain g.ops g.deps fuel indegree' (ready.map f) (order.map f) =
      (OpGraph.drain t.ops t.deps fuel indegree ready order).map f := by
  induction fuel generalizing indegree indegree' ready order with
  | zero => rfl
  | succ fuel ih =>
    cases ready with
    | nil => rfl
    | cons i ready =>
      have hmem : i ∈ t.ops := hr i (by simp)
      have houts : ∀ y ∈ Kahn.outs t.ops t.deps i, y ∈ t.ops ∧ ∀ j ∈ t.ops, f j = f y → j = y := by
        intro y hy
        obtain ⟨hyt, hdep⟩ := Kahn.mem_outs.1 hy
        refine ⟨hyt, fun j hj he => (h.injective hyt hj (.inl ?_) he.symm).symm⟩
        exact List.ne_nil_of_mem hdep
      obtain ⟨hcount, hready⟩ := countDown_map houts hi ready
      have hnext : ∀ j ∈ (countDown indegree ready (Kahn.outs t.ops t.deps i)).2, j ∈ t.ops := by
        intro j hj
        rcases mem_countDown hj with hj | hj
        · exact hr j (by simp [hj])
        · exact (Kahn.mem_outs.1 hj).1
      simp only [List.map_cons, OpGraph.drain, h.outs ht hmem, hready]
      rw [← ih _ _ hcount _ _ hnext, List.map_append]
      rfl

theorem Image.count (h : Image f t g) (hnd : t.ops.Nodup) {i : ι} (hi : i ∈ t.ops)
    (hdeps : t.deps i ≠ []) : g.ops.count (f i) = 1 := by
  rw [h.ops, List.count_eq_length_filter, List.filter_map, List.length_map]
  have hfilter : t.ops.filter ((· == f i) ∘ f) = t.ops.filter (· == i) := by
    refine List.filter_congr fun j hj => ?_
    have hiff : f j = f i ↔ j = i :=
      ⟨fun he => (h.injective hi hj (.inl hdeps) he.symm).symm, fun he => by rw [he]⟩
    simp [beq_eq_decide, hiff]
  rw [hfilter, ← List.count_eq_length_filter, List.count_eq_one_of_mem hnd hi]

theorem Image.sorted (h : Image f t g) (ht : t.WellFormed) (hnd : t.ops.Nodup) :
    g.sorted = t.sorted.map f := by
  have hindegree : ∀ i ∈ t.ops, g.ops.count (f i) * (g.deps (f i)).length =
      t.ops.count i * (t.deps i).length := by
    intro i hi
    rw [h.deps i hi, List.length_map]
    by_cases hnil : t.deps i = []
    · simp [hnil]
    · rw [h.count hnd hi hnil, List.count_eq_one_of_mem hnd hi]
  have hready : (g.ops.filter fun x => g.ops.count x * (g.deps x).length = 0) =
      (t.ops.filter fun i => t.ops.count i * (t.deps i).length = 0).map f := by
    have hfilter (p : α → Bool) : g.ops.filter p = (t.ops.filter (p ∘ f)).map f := by
      rw [h.ops, List.filter_map]
    rw [hfilter]
    congr 1
    refine List.filter_congr fun i hi => ?_
    simp only [Function.comp_apply, hindegree i hi]
  have hlen : g.ops.length = t.ops.length := by rw [h.ops, List.length_map]
  unfold OpGraph.sorted
  simp only [hready, hlen]
  exact h.drain ht _ _ hindegree _ [] (fun i hi => List.mem_of_mem_filter hi) _

end Image

variable {α β : Type}

inductive Call (α β : Type) where
  | addOp (op : Option α) (id : String)
  | addAspect (aspect : Option β)
  | dependsOn (dep dependent : String)
  | compile

structure Declarations where
  ids : List String
  edges : List (String × String)

namespace Declarations

def empty : Declarations := ⟨[], []⟩

def record (name : α → String) (d : Declarations) : Call α β → Declarations
  | .addOp (some x) id => { d with ids := d.ids ++ [if id = "" then name x else id] }
  | .dependsOn dep dependent => { d with edges := d.edges ++ [(dependent, dep)] }
  | _ => d

def DependsOn (d : Declarations) (dependent dep : String) : Prop := (dependent, dep) ∈ d.edges

def depsOf (d : Declarations) (id : String) : List String :=
  (d.edges.filter (·.1 = id)).map Prod.snd

-- The graph the calls ask for: every node is its own object.
def graph (d : Declarations) : OpGraph String Unit where
  ops := d.ids
  byId := fun id => if id ∈ d.ids then some id else none
  deps := d.depsOf
  aspects := []
  order := []
  compiled := false

theorem mem_depsOf {d : Declarations} {id dep : String} :
    dep ∈ d.depsOf id ↔ d.DependsOn id dep := by
  simp [depsOf, DependsOn]

theorem depsOf_record (d : Declarations) (name : α → String) (dep dependent id : String) :
    (d.record name (.dependsOn dep dependent : Call α β)).depsOf id =
      d.depsOf id ++ if dependent = id then [dep] else [] := by
  simp only [depsOf, record, List.filter_append, List.map_append]
  split_ifs with h
  · simp [h]
  · simp [h]

end Declarations

structure Tracks (g : OpGraph α β) (d : Declarations) : Prop where
  nodup : d.ids.Nodup
  ops : d.ids.map g.byId = g.ops.map some
  known : ∀ id x, g.byId id = some x → id ∈ d.ids
  edges : ∀ id dep, d.DependsOn id dep → id ∈ d.ids ∧ dep ∈ d.ids
  deps : ∀ id x, g.byId id = some x → (g.deps x).map some = (d.depsOf id).map g.byId
  alone : ∀ i j x, g.byId i = some x → g.byId j = some x → i ≠ j →
    d.depsOf i = [] ∧ ∀ k, ¬ d.DependsOn k i

section

variable {g g' : OpGraph α β} {d : Declarations}

theorem Tracks.of_eq (h : Tracks g d) (hops : g'.ops = g.ops) (hid : g'.byId = g.byId)
    (hdeps : g'.deps = g.deps) : Tracks g' d :=
  ⟨h.nodup, by rw [hid, hops, h.ops], by rw [hid]; exact h.known, h.edges,
    by rw [hid, hdeps]; exact h.deps, by rw [hid]; exact h.alone⟩

theorem tracks_empty : Tracks (.empty : OpGraph α β) .empty where
  nodup := by simp [Declarations.empty]
  ops := rfl
  known := by simp [OpGraph.empty]
  edges := by simp [Declarations.empty, Declarations.DependsOn]
  deps := by simp [OpGraph.empty]
  alone := by simp [OpGraph.empty]

theorem Tracks.mem_ops (h : Tracks g d) {id : String} {x : α} (hx : g.byId id = some x) :
    x ∈ g.ops := by
  have hmem : some x ∈ g.ops.map some := h.ops ▸ hx ▸ List.mem_map_of_mem (h.known id x hx)
  simpa using hmem

theorem Tracks.found (h : Tracks g d) {id : String} (hid : id ∈ d.ids) :
    ∃ x ∈ g.ops, g.byId id = some x := by
  have hmem : g.byId id ∈ g.ops.map some := h.ops ▸ List.mem_map_of_mem hid
  obtain ⟨x, hx, he⟩ := List.mem_map.1 hmem
  exact ⟨x, hx, he.symm⟩

theorem Tracks.graph_wellFormed (h : Tracks g d) : d.graph.WellFormed where
  byId_mem := by
    intro id x hx
    simp only [Declarations.graph, Option.ite_none_right_eq_some, Option.some.injEq] at hx
    exact hx.2 ▸ hx.1
  deps_mem := by
    intro id dep hdep
    obtain ⟨hid, hdep⟩ := h.edges id dep (Declarations.mem_depsOf.1 hdep)
    exact ⟨hdep, hid⟩
  compiled := by
    intro hc
    cases hc

theorem Tracks.image (h : Tracks g d) (x₀ : α) :
    Image (fun id => (g.byId id).getD x₀) d.graph g where
  ops := by
    have hops := congrArg (List.map fun x => x.getD x₀) h.ops
    simpa [Function.comp_def, Declarations.graph] using hops.symm
  deps := by
    intro id hid
    obtain ⟨x, -, hx⟩ := h.found hid
    have hdeps := congrArg (List.map fun x => x.getD x₀) (h.deps id x hx)
    simpa [hx, Function.comp_def, Declarations.graph] using hdeps
  alone := by
    intro i hi j hj he hne
    obtain ⟨x, -, hx⟩ := h.found hi
    obtain ⟨y, -, hy⟩ := h.found hj
    obtain rfl : x = y := by simpa [hx, hy] using he
    obtain ⟨hnil, hnone⟩ := h.alone i j x hx hy hne
    exact ⟨hnil, fun k _ hk => hnone k (Declarations.mem_depsOf.1 hk)⟩

theorem Tracks.not_dep (h : Tracks g d) {id : String} {x : α} (hx : g.byId id = some x)
    (hnone : ∀ y, x ∉ g.deps y) (k : String) : ¬ d.DependsOn k id := by
  intro hk
  obtain ⟨y, -, hy⟩ := h.found (h.edges k id hk).1
  have hmem : some x ∈ (g.deps y).map some := by
    rw [h.deps k y hy, ← hx]
    exact List.mem_map_of_mem (Declarations.mem_depsOf.2 hk)
  exact hnone y (by simpa using hmem)

end

variable [DecidableEq α]

def call (name : α → String) (g : OpGraph α β) : Call α β → Except Exn (OpGraph α β)
  | .addOp op id => g.addOp name op id
  | .addAspect aspect => .ok (g.addAspect aspect)
  | .dependsOn dep dependent => g.dependsOn dep dependent
  | .compile => .ok g.compile.2

inductive Run (name : α → String) (P : OpGraph α β → Call α β → Prop) :
    OpGraph α β → Declarations → Prop
  | empty : Run name P .empty .empty
  | call {g g' d c} (h : Run name P g d) (hp : P g c) (hc : g.call name c = .ok g') :
      Run name P g' (d.record name c)

-- A dependency is only declared between objects that stand under one id each, and stays so.
def Unshared (g : OpGraph α β) : Call α β → Prop
  | .addOp (some x) _ => x ∈ g.ops → g.deps x = [] ∧ ∀ y, x ∉ g.deps y
  | .dependsOn dep dependent => ∀ id, (g.byId id = g.byId dep → id = dep) ∧
      (g.byId id = g.byId dependent → id = dependent)
  | _ => True

structure CompilesRight (g : OpGraph α β) (d : Declarations) : Prop where
  throws_iff : (∃ what, g.compile.1 = .error (.runtimeError what)) ↔
    ∃ id, TransGen d.DependsOn id id
  returns : (¬ ∃ id, TransGen d.DependsOn id id) → ∃ order, g.compile.1 = .ok order ∧
    g.compile.2.compile.1 = .ok order ∧ ∃ ids : List String, ids.Perm d.ids ∧
      order.map some = ids.map g.byId ∧
      ∀ pre id post, ids = pre ++ id :: post → ∀ dep, d.DependsOn id dep → dep ∈ pre

variable {name : α → String} {g g' : OpGraph α β} {d : Declarations}

theorem Run.built {P : OpGraph α β → Call α β → Prop} (h : Run name P g d) : Built name g := by
  induction h with
  | empty => exact .empty
  | @call g g' d c _ _ hc ih =>
    cases c with
    | addOp op id => exact ih.addOp hc
    | addAspect aspect => exact Except.ok.inj hc ▸ ih.addAspect aspect
    | dependsOn dep dependent => exact ih.dependsOn hc
    | compile => exact Except.ok.inj hc ▸ ih.compile

theorem Tracks.addOp (h : Tracks g d) (hw : g.WellFormed) {x : α} {id : String}
    (hnone : g.byId id = none) (hx : x ∈ g.ops → g.deps x = [] ∧ ∀ y, x ∉ g.deps y) :
    Tracks { g with ops := g.ops ++ [x], byId := Function.update g.byId id (some x) }
      { d with ids := d.ids ++ [id] } := by
  have hfresh : id ∉ d.ids := by
    intro hmem
    obtain ⟨y, -, hy⟩ := h.found hmem
    simp [hnone] at hy
  have hnil : g.deps x = [] := by
    by_cases hmem : x ∈ g.ops
    · exact (hx hmem).1
    · exact List.eq_nil_iff_forall_not_mem.2 fun e he => hmem (hw.deps_mem x e he).2
  have hsame : ∀ ids' : List String, id ∉ ids' →
      ids'.map (Function.update g.byId id (some x)) = ids'.map g.byId := by
    intro ids' hid
    refine List.map_congr_left fun i hi => Function.update_of_ne ?_ _ _
    rintro rfl
    exact hid hi
  have hupdate : ∀ {i y}, Function.update g.byId id (some x) i = some y →
      i = id ∧ y = x ∨ i ≠ id ∧ g.byId i = some y := by
    intro i y hy
    rcases eq_or_ne i id with rfl | hne
    · exact .inl ⟨rfl, by simpa using hy.symm⟩
    · exact .inr ⟨hne, by simpa [hne] using hy⟩
  have hnodeps : ∀ k, id ∉ d.depsOf k := fun k hk =>
    hfresh (h.edges k id (Declarations.mem_depsOf.1 hk)).2
  have hdepsOf : d.depsOf id = [] := List.eq_nil_iff_forall_not_mem.2 fun e he =>
    hfresh (h.edges id e (Declarations.mem_depsOf.1 he)).1
  refine ⟨?_, ?_, fun i y hy => ?_, fun i dep hi => ?_, fun i y hy => ?_, fun i j y hi hj hne => ?_⟩
  · exact List.nodup_append.2 ⟨h.nodup, by simp, by rintro i hi j hj rfl; simp_all⟩
  · simp [hsame _ hfresh, h.ops]
  · rcases hupdate hy with ⟨rfl, -⟩ | ⟨-, hy⟩
    · simp
    · simp [h.known i y hy]
  · obtain ⟨hi, hdep⟩ := h.edges i dep hi
    simp [hi, hdep]
  · rcases hupdate hy with ⟨rfl, rfl⟩ | ⟨-, hy⟩
    · change (g.deps y).map some = (d.depsOf i).map _
      rw [hnil, hdepsOf]
      rfl
    · exact (h.deps i y hy).trans (hsame _ (hnodeps i)).symm
  · rcases hupdate hi with ⟨rfl, -⟩ | ⟨-, hi'⟩
    · exact ⟨hdepsOf, fun k hk => hnodeps k (Declarations.mem_depsOf.2 hk)⟩
    · rcases hupdate hj with ⟨-, rfl⟩ | ⟨-, hj'⟩
      · obtain ⟨-, hnone⟩ := hx (h.mem_ops hi')
        have hdeps := h.deps i y hi'
        rw [hnil, List.map_nil, eq_comm, List.map_eq_nil_iff] at hdeps
        exact ⟨hdeps, h.not_dep hi' hnone⟩
      · exact h.alone i j y hi' hj' hne

theorem Tracks.dependsOn (h : Tracks g d) {dep dependent : String} {e x : α}
    (he : g.byId dep = some e) (hx : g.byId dependent = some x)
    (hp : ∀ id, (g.byId id = g.byId dep → id = dep) ∧
      (g.byId id = g.byId dependent → id = dependent)) :
    Tracks { g with deps := Function.update g.deps x (g.deps x ++ [e]) }
      (d.record name (.dependsOn dep dependent : Call α β)) := by
  refine ⟨h.nodup, h.ops, h.known, fun i k hi => ?_, fun i y hy => ?_, fun i j y hi hj hne => ?_⟩
  · rcases List.mem_append.1 hi with hi | hi
    · exact h.edges i k hi
    · obtain ⟨rfl, rfl⟩ := Prod.mk.inj (List.mem_singleton.1 hi)
      exact ⟨h.known _ _ hx, h.known _ _ he⟩
  · rw [Declarations.depsOf_record, List.map_append, ← h.deps i y hy]
    rcases eq_or_ne y x with rfl | hne
    · obtain rfl := (hp i).2 (hy.trans hx.symm)
      simp [he]
    · have hid : dependent ≠ i := by
        rintro rfl
        exact hne (Option.some.inj (hy.symm.trans hx))
      simp [hne, hid]
  · obtain ⟨hnil, hnone⟩ := h.alone i j y hi hj hne
    have hdependent : dependent ≠ i := by
      rintro rfl
      exact hne ((hp j).2 (hj.trans hi.symm)).symm
    have hdep : dep ≠ i := by
      rintro rfl
      exact hne ((hp j).1 (hj.trans hi.symm)).symm
    refine ⟨?_, fun k hk => ?_⟩
    · rw [Declarations.depsOf_record, hnil, if_neg hdependent, List.append_nil]
    · rcases List.mem_append.1 hk with hk | hk
      · exact hnone k hk
      · exact hdep (Prod.mk.inj (List.mem_singleton.1 hk)).2.symm

theorem Run.tracks (h : Run name Unshared g d) : Tracks g d := by
  induction h with
  | empty => exact tracks_empty
  | @call g g' d c hrun hp hc ih =>
    cases c with
    | addOp op id =>
      obtain ⟨x, rfl, hnone, rfl⟩ := addOp_eq_ok hc
      exact (ih.addOp hrun.built.wellFormed hnone hp).of_eq rfl rfl rfl
    | addAspect aspect =>
      obtain rfl := Except.ok.inj hc
      cases aspect <;> exact ih.of_eq rfl rfl rfl
    | dependsOn dep dependent =>
      obtain ⟨e, x, he, hx, rfl⟩ := dependsOn_eq_ok hc
      exact (ih.dependsOn he hx hp).of_eq rfl rfl rfl
    | compile =>
      obtain rfl := Except.ok.inj hc
      unfold OpGraph.compile
      split_ifs <;> exact ih.of_eq rfl rfl rfl

theorem Tracks.sorted (h : Tracks g d) : g.sorted.map some = d.graph.sorted.map g.byId := by
  cases hops : g.ops with
  | nil =>
    have hids : d.graph.ops = [] := by simpa [hops, Declarations.graph] using h.ops
    simp [OpGraph.sorted, hops, hids, drain]
  | cons x₀ ops =>
    have hnd : d.graph.ops.Nodup := h.nodup
    have hs := h.graph_wellFormed.sorted_sorted hnd
    rw [(h.image x₀).sorted h.graph_wellFormed hnd, List.map_map]
    refine List.map_congr_left fun id hid => ?_
    obtain ⟨x, -, hx⟩ := h.found (hs.mem id hid)
    simp [hx]

theorem compile_again {order : List α} (h : g.compile.1 = .ok order) :
    g.compile.2.compile.1 = .ok order := by
  unfold compile at h ⊢
  split_ifs at h ⊢ <;> simp_all

theorem acyclic_depsOf : Kahn.Acyclic d.depsOf ↔ ¬ ∃ id, TransGen d.DependsOn id id := by
  have hrel : Kahn.DependsOn d.depsOf = d.DependsOn := by
    funext id dep
    exact propext Declarations.mem_depsOf
  rw [Kahn.Acyclic, hrel, not_exists]

theorem Tracks.compilesRight (h : Tracks g d) (hw : g.WellFormed) : CompilesRight g d := by
  have hs := h.graph_wellFormed.sorted_sorted h.nodup
  have hcomplete := hs.complete (h.graph_wellFormed.closed h.nodup)
  have hlen : g.sorted.length = g.ops.length ↔ ¬ ∃ id, TransGen d.DependsOn id id := by
    have hsorted := congrArg List.length h.sorted
    have hops := congrArg List.length h.ops
    simp only [List.length_map] at hsorted hops
    rw [← acyclic_depsOf, hsorted, ← hops]
    exact hcomplete
  refine ⟨?_, fun ha => ?_⟩
  · rw [hw.compile_eq]
    split_ifs with hl
    · simpa using hlen.1 hl
    · simpa using not_not.1 (mt hlen.2 hl)
  · have hok : g.compile.1 = .ok g.sorted := by rw [hw.compile_eq, if_pos (hlen.2 ha)]
    have hperm : d.graph.sorted.Perm d.ids := by
      refine (hs.nodup.subperm hs.mem).perm_of_length_le (le_of_eq ?_)
      exact (hcomplete.2 (acyclic_depsOf.2 ha)).symm
    refine ⟨_, hok, compile_again hok, d.graph.sorted, hperm, h.sorted, ?_⟩
    intro pre id post he dep hdep
    exact hs.ordered pre id post he dep (Declarations.mem_depsOf.2 hdep)

theorem compile_rejects_cycles (h : Run name Unshared g d) : CompilesRight g d :=
  h.tracks.compilesRight h.built.wellFormed

theorem compile_rejects_cycles_repeated : ∃ g : OpGraph Nat Unit,
    CompilesRight g ⟨["a", "b", "c", "d"], [("b", "a"), ("b", "a")]⟩ := by
  have h₀ : Run (fun _ => "op") Unshared (.empty : OpGraph Nat Unit) .empty := .empty
  have h₁ := h₀.call (c := .addOp (some 1) "a") (by simp [Unshared, OpGraph.empty]) rfl
  have h₂ := h₁.call (c := .addOp (some 2) "b") (by simp [Unshared, OpGraph.empty]) rfl
  have h₃ := h₂.call (c := .addOp (some 3) "c") (by simp [Unshared, OpGraph.empty]) rfl
  have h₄ := h₃.call (c := .addOp (some 3) "d") (by simp [Unshared, OpGraph.empty]) rfl
  have hone : ∀ id, (Function.update (Function.update (Function.update (Function.update
      (fun _ => none) "a" (some 1)) "b" (some 2)) "c" (some 3)) "d" (some 3) id = some 1 → id = "a") ∧
      (Function.update (Function.update (Function.update (Function.update
      (fun _ => none) "a" (some 1)) "b" (some 2)) "c" (some 3)) "d" (some 3) id = some 2 →
        id = "b") := by
    intro id
    simp only [Function.update_apply]
    split_ifs <;> simp_all
  have h₅ := h₄.call (c := .dependsOn "a" "b") hone rfl
  have h₆ := h₅.call (c := .dependsOn "a" "b") hone rfl
  exact ⟨_, compile_rejects_cycles h₆⟩

def sharedCalls : List (Call Nat Unit) :=
  [.addOp (some 1) "a", .addOp (some 1) "b", .addOp (some 2) "c", .dependsOn "c" "a"]

def sharedDeclarations : Declarations := ⟨["a", "b", "c"], [("a", "c")]⟩

theorem sharedDeclarations_acyclic : ¬ ∃ id, TransGen sharedDeclarations.DependsOn id id := by
  rintro ⟨id, hid⟩
  have hedge {i j : String} (hij : sharedDeclarations.DependsOn i j) : i = "a" ∧ j = "c" := by
    simpa [sharedDeclarations, Declarations.DependsOn] using hij
  obtain ⟨j, hj, -⟩ := TransGen.head'_iff.1 hid
  obtain ⟨k, -, hk⟩ := TransGen.tail'_iff.1 hid
  have hne : ("a" : String) = "c" := (hedge hj).1.symm.trans (hedge hk).2
  exact absurd hne (by decide)

theorem compile_rejects_shared : ∃ g : OpGraph Nat Unit,
    sharedCalls.foldlM (OpGraph.call fun _ => "op") OpGraph.empty = .ok g ∧
      Run (fun _ => "op") (fun _ _ => True) g sharedDeclarations ∧
      g.compile.1 = .error (.runtimeError "OpGraph: dependency cycle detected") ∧
      (¬ ∃ id, TransGen sharedDeclarations.DependsOn id id) ∧
      ¬ CompilesRight g sharedDeclarations := by
  have h₀ : Run (fun _ => "op") (fun _ _ => True) (.empty : OpGraph Nat Unit) .empty := .empty
  have h₁ := h₀.call (c := .addOp (some 1) "a") trivial rfl
  have h₂ := h₁.call (c := .addOp (some 1) "b") trivial rfl
  have h₃ := h₂.call (c := .addOp (some 2) "c") trivial rfl
  have h₄ := h₃.call (c := .dependsOn "c" "a") trivial rfl
  refine ⟨_, rfl, h₄, rfl, sharedDeclarations_acyclic, ?_⟩
  intro h
  exact sharedDeclarations_acyclic (h.throws_iff.1 ⟨_, rfl⟩)

end Lark.Dag.OpGraph
