import Lark.Column.Biz.DslAppend

namespace Lark.Column.Exec

variable (ρ : String → String)

def Op.rename (op : Op) : Op := { op with inputs := op.inputs.map ρ, outputs := op.outputs.map ρ }

def NodeOp.rename : NodeOp → NodeOp
  | op o => op (o.rename ρ)
  | placeholder output => placeholder (ρ output)

def ComputeGraph.rename (g : ComputeGraph) : ComputeGraph :=
  { g with nodes := g.nodes.map fun n => { n with op := n.op.rename ρ } }

theorem ComputeGraph.rename_id (g : ComputeGraph) : g.rename id = g := by
  have hop : ∀ o : NodeOp, o.rename id = o := by
    intro o
    cases o with
    | op o => simp [NodeOp.rename, Op.rename]
    | placeholder output => rfl
  simp [ComputeGraph.rename, hop]

end Lark.Column.Exec

namespace Lark.Column.Biz

open Lark.Base Lark.Column.Exec Lark.Column.Biz.Dsl

-- Equal but for the names of columns that start with '@', which are permuted.
def SameUpToTemps (g g' : ComputeGraph) : Prop :=
  ∃ ρ : Equiv.Perm String, (∀ c, isLocalName c = false → ρ c = c) ∧ g' = g.rename ρ

structure Joins (pre post : List Module) (two one : Module) : Prop where
  compiles : (∃ c, compileAll (pre ++ two :: post) = .ok () c) ↔
    ∃ c, compileAll (pre ++ one :: post) = .ok () c
  graphs : ∀ c c', compileAll (pre ++ two :: post) = .ok () c →
    compileAll (pre ++ one :: post) = .ok () c' → SameUpToTemps c.graph c'.graph

def Appends (s t : String) : Prop :=
  ∀ m : Module, ∃ two one, (m.fromDsl s >>= fun m' => m'.fromDsl t) = .ok two ∧
    m.fromDsl (s ++ "\n" ++ t) = .ok one ∧
    ∀ (later : List OpSpec) (pre post : List Module),
      Joins pre post (later.foldl Module.op two) (later.foldl Module.op one)

def WritesTemps (ops : List OpSpec) : Prop := ∃ op ∈ ops, ∃ c ∈ op.outputs, isLocalName c = true

structure Holdable (ops : List OpSpec) : Prop where
  constructible : ∀ spec ∈ ops, ∃ op, createOp spec = .ok op
  once : ((ops.flatMap (·.outputs)).filter fun c => !isLocalName c).Nodup

section Holdable

theorem map_fixed {α : Type} {f : α → α} {xs : List α} (h : ∀ x ∈ xs, f x = x) : xs.map f = xs :=
  (List.map_congr_left h).trans (List.map_id xs)

theorem pairwise_of_split {α : Type} {R : α → α → Prop} {xs : List α}
    (h : ∀ pre x post, xs = pre ++ x :: post → ∀ y ∈ pre, R y x) : xs.Pairwise R := by
  induction xs using List.reverseRecOn with
  | nil => exact .nil
  | append_singleton xs x ih =>
    refine List.pairwise_append.2 ⟨ih fun pre y post hs => ?_, List.pairwise_singleton _ _, ?_⟩
    · exact h pre y (post ++ [x]) (by simp [hs])
    · intro y hy z hz
      obtain rfl := List.mem_singleton.1 hz
      exact h xs z [] rfl y hy

variable {m : Module}

theorem OpOk.outputs_nodup {d : Draft} {entry : OpSpec × Nat} (h : OpOk m d entry) :
    ((remapSpec m.name entry.1).outputs.filter fun c => !c.isEmpty).Nodup := by
  refine List.pairwise_filter.2 (pairwise_of_split fun pre out post hs c hc _ he => ?_)
  rintro rfl
  have he' : c.isEmpty = false := by simpa using he
  exact bindWrite_binds hc he' (h.fresh pre c post hs he')

theorem Module.Ok.writes_nodup (h : m.Ok) : (m.writes.filter fun c => !c.isEmpty).Nodup := by
  have hwrites : m.writes = m.ops.zipIdx.flatMap fun e => (remapSpec m.name e.1).outputs := by
    nth_rewrite 1 [Module.writes, ← List.zipIdx_map_fst 0 m.ops]
    rw [List.flatMap_map]
  rw [hwrites, List.filter_flatMap, List.nodup_flatMap]
  constructor
  · intro entry hentry
    obtain ⟨pre, post, hs⟩ := List.append_of_mem hentry
    exact (h pre entry post hs).outputs_nodup
  · refine pairwise_of_split fun pre entry post hs e he => ?_
    intro c hc hc'
    obtain ⟨hc, hne⟩ := List.mem_filter.1 hc
    obtain ⟨outs, rest, houts⟩ := List.append_of_mem (List.mem_filter.1 hc').1
    have hne' : c.isEmpty = false := by simpa using hne
    obtain ⟨pre₁, pre₂, rfl⟩ := List.append_of_mem he
    have hbound : ((pre₁ ++ e :: pre₂).foldl (Draft.op m) m.draftInputs).locals c ≠ none := by
      rw [List.foldl_append, List.foldl_cons]
      exact op_bound hc hne' (Draft.extends_foldl (fun _ _ => Draft.extends_op _) pre₂ _)
    have hfresh := (h _ entry post hs).fresh outs c rest houts hne'
    obtain ⟨k, hk⟩ := Option.ne_none_iff_exists'.1 hbound
    rw [Draft.bindWrite_extends outs hk] at hfresh
    cases hfresh

theorem toList_of_at {c : String} (h : startsWithAt c = true) :
    c.toList = '@' :: c.toList.drop 1 := by
  have hhead : c.toList.head? = some '@' := by simpa [startsWithAt] using h
  cases hc : c.toList with
  | nil => simp [hc] at hhead
  | cons d ds =>
    obtain rfl : d = '@' := by simpa [hc] using hhead
    rfl

theorem startsWithAt_remapTemp (c name : String) : startsWithAt (remapTemp c name) = true := by
  simp [startsWithAt, remapTemp, String.toList_append]

theorem remap_injective (name : String) : Function.Injective (remap name) := by
  intro c d h
  unfold remap at h
  split_ifs at h with hc hd hd
  · have hlist := congrArg String.toList h
    simp only [remapTemp, String.toList_append, String.toList_ofList, List.append_assoc] at hlist
    have hdrop : c.toList.drop 1 = d.toList.drop 1 := by simpa using hlist
    refine String.toList_inj.1 ?_
    rw [toList_of_at hc, toList_of_at hd, hdrop]
  · exact absurd (h ▸ startsWithAt_remapTemp c name) hd
  · exact absurd (h ▸ startsWithAt_remapTemp d name) hc
  · exact h

theorem Module.writes_eq (m : Module) :
    m.writes = (m.ops.flatMap (·.outputs)).map (remap m.name) := by
  rw [Module.writes, List.map_flatMap]
  rfl

theorem Module.Ok.holdable (h : m.Ok) : Holdable m.ops where
  constructible := by
    intro spec hspec
    obtain ⟨i, hi⟩ := List.mem_iff_getElem?.1 hspec
    obtain ⟨pre, post, hs⟩ := List.append_of_mem (List.mem_zipIdx_iff_getElem?.2 hi :
      (spec, i) ∈ m.ops.zipIdx)
    exact (createOp_renameSpec (remap m.name)).1 (h _ _ _ hs).constructible
  once := by
    have hnodup := h.writes_nodup
    rw [m.writes_eq, List.filter_map] at hnodup
    refine hnodup.of_map.sublist (List.monotone_filter_right _ fun c hc => ?_)
    have hl : isLocalName c = false := by simpa using hc
    simpa [remap_ordinary hl] using not_isEmpty_of_ordinary hl

theorem Holdable.sublist {ops ops' : List OpSpec} (h : Holdable ops) (hs : ops'.Sublist ops) :
    Holdable ops' where
  constructible := fun spec hspec => h.constructible spec (hs.subset hspec)
  once := h.once.sublist ((hs.flatMap _).filter _)

theorem columns_renamed {ρ : String → String} {k : Nat} (hρ : Renaming ρ k)
    (ops : List OpSpec) :
    ((ops.map (renameSpec ρ)).flatMap (·.outputs)).filter (fun c => !isLocalName c) =
      (ops.flatMap (·.outputs)).filter fun c => !isLocalName c := by
  have houts : (ops.map (renameSpec ρ)).flatMap (·.outputs) =
      (ops.flatMap (·.outputs)).map ρ := by
    rw [List.flatMap_map, List.map_flatMap]
    rfl
  have hkept : ((fun c => !isLocalName c) ∘ ρ) = fun c => !isLocalName c := by
    funext c
    simp [hρ.kept]
  rw [houts, List.filter_map, hkept]
  refine map_fixed fun c hc => hρ.plain c ?_
  simpa using (List.mem_filter.1 hc).2

theorem holdable_renamed {ρ : String → String} {k : Nat} (hρ : Renaming ρ k)
    {ops ops' : List OpSpec} :
    Holdable (ops ++ ops'.map (renameSpec ρ)) ↔ Holdable (ops ++ ops') := by
  have hspecs : (∀ spec ∈ ops ++ ops'.map (renameSpec ρ), ∃ op, createOp spec = .ok op) ↔
      ∀ spec ∈ ops ++ ops', ∃ op, createOp spec = .ok op := by
    simp only [List.mem_append, List.mem_map, or_imp, forall_and, forall_exists_index, and_imp,
      forall_apply_eq_imp_iff₂, createOp_renameSpec]
  have hcolumns : (((ops ++ ops'.map (renameSpec ρ)).flatMap (·.outputs)).filter
      fun c => !isLocalName c) = ((ops ++ ops').flatMap (·.outputs)).filter
      fun c => !isLocalName c := by
    rw [List.flatMap_append, List.flatMap_append, List.filter_append, List.filter_append,
      columns_renamed hρ]
  constructor
  · exact fun h => ⟨hspecs.1 h.constructible, hcolumns ▸ h.once⟩
  · exact fun h => ⟨hspecs.2 h.constructible, hcolumns ▸ h.once⟩

end Holdable

section Joins

variable {pre post : List Module} {m two one : Module} {ops ops' : List OpSpec} {s t : String}

theorem compile_modules_ok {ms : List Module} {c : Compiler} (h : compileAll ms = .ok () c) :
    ∀ m ∈ ms, m.Ok := by
  obtain ⟨s₀, hp⟩ := compile_passed h
  exact hp.ok

theorem sameUpToTemps_refl (g : ComputeGraph) : SameUpToTemps g g :=
  ⟨Equiv.refl _, fun _ _ => rfl, g.rename_id.symm⟩

theorem joins_refl (pre post : List Module) (m : Module) : Joins pre post m m where
  compiles := Iff.rfl
  graphs := by
    intro c c' h h'
    obtain ⟨-, rfl⟩ := EStateM.Result.ok.inj (h.symm.trans h')
    exact sameUpToTemps_refl c.graph

theorem joins_rejected (h : ¬ two.Ok) (h' : ¬ one.Ok) : Joins pre post two one := by
  have hreject {m : Module} (hm : ¬ m.Ok) (c : Compiler) :
      compileAll (pre ++ m :: post) ≠ .ok () c :=
    fun hc => hm (compile_modules_ok hc m (by simp))
  refine ⟨⟨?_, ?_⟩, ?_⟩
  · rintro ⟨c, hc⟩
    exact absurd hc (hreject h c)
  · rintro ⟨c, hc⟩
    exact absurd hc (hreject h' c)
  · intro c _ hc
    exact absurd hc (hreject h c)

theorem foldl_op (m : Module) (later : List OpSpec) :
    later.foldl Module.op m = { m with ops := m.ops ++ later } := by
  induction later generalizing m with
  | nil => simp
  | cons spec later ih => simp [ih, Module.op]

theorem fromDsl_eq (h : parse s = .ok ops) (m : Module) :
    m.fromDsl s = .ok { m with ops := m.ops ++ ops } := by
  simp [Module.fromDsl, h]

theorem fromDsl_twice (hs : parse s = .ok ops) (ht : parse t = .ok ops') (m : Module) :
    (m.fromDsl s >>= fun m' => m'.fromDsl t) = .ok { m with ops := m.ops ++ (ops ++ ops') } := by
  simp [fromDsl_eq hs, fromDsl_eq ht]

theorem Dsl.Numbered.writesTemps_iff {tmp : Nat} (h : Numbered ops tmp) :
    WritesTemps ops ↔ tempName 0 ∈ ops.flatMap (·.outputs) := by
  constructor
  · rintro ⟨op, hop, c, hc, hl⟩
    have hmem : c ∈ (ops.flatMap (·.outputs)).filter isLocalName :=
      List.mem_filter.2 ⟨List.mem_flatMap.2 ⟨op, hop, hc⟩, hl⟩
    obtain ⟨j, hj, -⟩ := List.mem_map.1 (h.temps.mem_iff.1 hmem)
    have hzero : tempName 0 ∈ (List.range tmp).map tempName := by
      refine List.mem_map_of_mem (List.mem_range.2 ?_)
      exact (Nat.zero_le j).trans_lt (List.mem_range.1 hj)
    exact (List.mem_filter.1 (h.temps.mem_iff.2 hzero)).1
  · intro hmem
    obtain ⟨op, hop, hc⟩ := List.mem_flatMap.1 hmem
    exact ⟨op, hop, _, hc, isLocalName_temp 0⟩

theorem Dsl.Numbered.temps_zero {tmp : Nat} (h : Numbered ops tmp) (hw : ¬ WritesTemps ops) :
    tmp = 0 := by
  have hnil : (ops.flatMap (·.outputs)).filter isLocalName = [] := by
    refine List.filter_eq_nil_iff.2 fun c hc hl => hw ?_
    obtain ⟨op, hop, hc⟩ := List.mem_flatMap.1 hc
    exact ⟨op, hop, c, hc, hl⟩
  simpa [hnil] using h.temps.length_eq.symm

theorem renamed_self {ρ : String → String} {k : Nat} (hρ : Renaming ρ k)
    (ht : parse t = .ok ops) (hw : ¬ WritesTemps ops) : ops.map (renameSpec ρ) = ops := by
  refine map_fixed fun spec hspec => ?_
  have hout : ∀ spec ∈ ops, ∀ c ∈ spec.outputs, isLocalName c = false := by
    intro spec hspec c hc
    by_contra hl
    exact hw ⟨spec, hspec, c, hc, by simpa using hl⟩
  have hin : ∀ c ∈ spec.inputs, isLocalName c = false := by
    intro c hc
    obtain ⟨pre, post, hsplit⟩ := List.append_of_mem hspec
    rcases (parse_ok t ops ht pre spec post hsplit).inputs c hc with hl | ⟨-, w, hwm, hcw⟩
    · exact hl
    · exact hout w (by simp [hsplit, hwm]) c hcw
  have hinputs : spec.inputs.map ρ = spec.inputs :=
    map_fixed fun c hc => hρ.plain c (hin c hc)
  have houtputs : spec.outputs.map ρ = spec.outputs :=
    map_fixed fun c hc => hρ.plain c (hout spec hspec c hc)
  rw [renameSpec, hinputs, houtputs]

def aloneWith (ops : List OpSpec) : Module := ⟨"m", [], [], [], ops⟩

theorem alone_compiles (hs : ∀ spec ∈ ops, ∃ op, createOp spec = .ok op)
    (ho : (ops.flatMap (·.outputs)).Nodup) : ∃ c, compileAll [aloneWith ops] = .ok () c := by
  have hwell : WellFormedPipeline [aloneWith ops] :=
    { distinct := by simp
      constructible := by
        intro m hm spec hspec
        obtain rfl := List.mem_singleton.1 hm
        exact hs spec hspec
      single := by
        intro m hm m' hm' _ _ _ _
        rw [List.mem_singleton.1 hm, List.mem_singleton.1 hm']
      once := by
        intro m hm
        obtain rfl := List.mem_singleton.1 hm
        rw [Module.writes_eq]
        exact ho.map (remap_injective _)
      fresh := by simp [aloneWith]
      known := by simp [aloneWith]
      ports := by simp [aloneWith]
      acyclic := by
        refine WellFormedPipeline.acyclic_of_rank (fun _ => 0) ?_
        rintro m m' ⟨hm, hm', hf⟩
        obtain rfl := List.mem_singleton.1 hm
        obtain rfl := List.mem_singleton.1 hm'
        simp [aloneWith] at hf }
  have hnamed : Named [aloneWith ops] := ⟨hwell.distinct, by simp [aloneWith, startsWithAt]⟩
  refine (compile_ok_iff hnamed).2 (hwell.accepted_iff.2 ?_)
  intro m hm w hw hne
  exact absurd ((List.mem_singleton.1 hm).trans (List.mem_singleton.1 hw).symm) hne

theorem outputs_nodup {tmp : Nat} (h : Holdable ops) (hn : Numbered ops tmp) :
    (ops.flatMap (·.outputs)).Nodup := by
  have hperm := List.filter_append_perm isLocalName (ops.flatMap (·.outputs))
  refine hperm.nodup_iff.1 (List.nodup_append.2 ⟨hn.nodup, h.once, ?_⟩)
  rintro c hc d hd rfl
  have hl := (List.mem_filter.1 hc).2
  simp [hl] at hd

theorem not_appends (hs : parse s = .ok ops) (ht : parse t = .ok ops') (hw : WritesTemps ops)
    (hw' : WritesTemps ops') (hh : Holdable (ops ++ ops')) : ¬ Appends s t := by
  intro happends
  obtain ⟨tmp, hnum, hjoined⟩ := parse_append hs ht
  obtain ⟨_, _, hprog'⟩ := parse_program_of_ok ht
  have hρ := renaming_shiftTemp tmp
  have hone := hjoined _ hρ
  obtain ⟨_, _, hprog⟩ := parse_program_of_ok hone
  obtain ⟨two, one, htwo, hone', hjoins⟩ := happends (Module.make "m")
  rw [fromDsl_twice hs ht] at htwo
  rw [fromDsl_eq hone] at hone'
  obtain rfl := Except.ok.inj htwo
  obtain rfl := Except.ok.inj hone'
  have hcompiles : (∃ c, compileAll [aloneWith (ops ++ ops')] = .ok () c) ↔
      ∃ c, compileAll [aloneWith (ops ++ ops'.map (renameSpec (shiftTemp tmp)))] = .ok () c :=
    (hjoins [] [] []).compiles
  have hruns := alone_compiles ((holdable_renamed hρ).2 hh).constructible
    (outputs_nodup ((holdable_renamed hρ).2 hh) hprog.numbered)
  obtain ⟨c, hc⟩ := hcompiles.2 hruns
  have hok : (aloneWith (ops ++ ops')).Ok := compile_modules_ok hc _ (by simp)
  have hnodup := hok.writes_nodup
  rw [Module.writes_eq, aloneWith, List.flatMap_append, List.map_append, List.filter_append,
    List.nodup_append] at hnodup
  have hfirst {xs : List String} (hx : tempName 0 ∈ xs) :
      remap "m" (tempName 0) ∈ (xs.map (remap "m")).filter fun c => !c.isEmpty :=
    List.mem_filter.2 ⟨List.mem_map_of_mem hx, by decide⟩
  exact hnodup.2.2 _ (hfirst (hnum.writesTemps_iff.1 hw)) _
    (hfirst (hprog'.numbered.writesTemps_iff.1 hw')) rfl

theorem appends_of (hs : parse s = .ok ops) (ht : parse t = .ok ops')
    (h : ¬ WritesTemps ops ∨ ¬ WritesTemps ops' ∨ ¬ Holdable (ops ++ ops')) : Appends s t := by
  intro m
  obtain ⟨tmp, hnum, hjoined⟩ := parse_append hs ht
  have hρ := renaming_shiftTemp tmp
  have hsame (hops : parse (s ++ "\n" ++ t) = .ok (ops ++ ops')) :
      ∃ two one, (m.fromDsl s >>= fun m' => m'.fromDsl t) = .ok two ∧
        m.fromDsl (s ++ "\n" ++ t) = .ok one ∧ ∀ (later : List OpSpec) (pre post : List Module),
          Joins pre post (later.foldl Module.op two) (later.foldl Module.op one) :=
    ⟨_, _, fromDsl_twice hs ht m, fromDsl_eq hops m, fun _ _ _ => joins_refl _ _ _⟩
  rcases h with hw | hw | hh
  · obtain rfl := hnum.temps_zero hw
    have hops := hjoined id renaming_id
    rw [renameSpec_id, List.map_id] at hops
    exact hsame hops
  · have hops := hjoined _ hρ
    rw [renamed_self hρ ht hw] at hops
    exact hsame hops
  · refine ⟨_, _, fromDsl_twice hs ht m, fromDsl_eq (hjoined _ hρ) m, fun later pre post => ?_⟩
    rw [foldl_op, foldl_op]
    have hwithin {xs : List OpSpec} : xs.Sublist (m.ops ++ xs ++ later) :=
      (List.sublist_append_right m.ops xs).trans (List.sublist_append_left _ later)
    refine joins_rejected (fun hok => hh ?_) fun hok => hh ((holdable_renamed hρ).1 ?_)
    · exact hok.holdable.sublist hwithin
    · exact hok.holdable.sublist hwithin

theorem dsl_sources_append_iff (hs : parse s = .ok ops) (ht : parse t = .ok ops') :
    Appends s t ↔ ¬ WritesTemps ops ∨ ¬ WritesTemps ops' ∨ ¬ Holdable (ops ++ ops') := by
  refine ⟨fun happends => ?_, appends_of hs ht⟩
  by_contra hcond
  rw [not_or, not_or, not_not, not_not, not_not] at hcond
  exact not_appends hs ht hcond.1 hcond.2.1 hcond.2.2 happends

end Joins

theorem parse_sum : parse "u = x + y" =
    .ok [⟨"add", ["x", "y"], ["@t0"], []⟩, ⟨"identity", ["@t0"], ["u"], []⟩] := by
  decide +kernel

theorem dsl_sources_append_plain : Appends "v = x" "u = x + y" := by
  have hcopy : parse "v = x" = .ok [⟨"identity", ["x"], ["v"], []⟩] := by decide +kernel
  refine (dsl_sources_append_iff hcopy parse_sum).2 (.inl ?_)
  rintro ⟨op, hop, c, hc, hl⟩
  obtain rfl := List.mem_singleton.1 hop
  obtain rfl := List.mem_singleton.1 hc
  exact absurd hl (by decide)

theorem dsl_sources_append_sums : ∃ ops ops', parse "u = x + y" = .ok ops ∧
    parse "v = x - y" = .ok ops' ∧ ¬ Appends "u = x + y" "v = x - y" := by
  have hdiff : parse "v = x - y" =
      .ok [⟨"sub", ["x", "y"], ["@t0"], []⟩, ⟨"identity", ["@t0"], ["v"], []⟩] := by
    decide +kernel
  refine ⟨_, _, parse_sum, hdiff, not_appends parse_sum hdiff ?_ ?_ ⟨?_, by decide⟩⟩
  · exact ⟨⟨"add", ["x", "y"], ["@t0"], []⟩, by simp, "@t0", by simp, by decide⟩
  · exact ⟨⟨"sub", ["x", "y"], ["@t0"], []⟩, by simp, "@t0", by simp, by decide⟩
  · simp only [List.cons_append, List.nil_append, List.forall_mem_cons]
    exact ⟨⟨_, rfl⟩, ⟨_, rfl⟩, ⟨_, rfl⟩, ⟨_, rfl⟩, by simp⟩

end Lark.Column.Biz
