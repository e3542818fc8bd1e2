import Lark.Column.Biz.Sites

namespace Lark.Column.Biz

open Lark.Base Lark.Column.Exec CompileM

def SingleOwner (ms : List Module) : Prop :=
  ∀ m ∈ ms, ∀ m' ∈ ms, ∀ c, c ∈ m.written → c ∈ m'.written → isLocalName c = false →
    m.name = m'.name

def DepsKnown (ms : List Module) (moduleNames : List String) : Prop :=
  ∀ m ∈ ms, ∀ d ∈ m.dependencies, d ∈ moduleNames

structure Collected (pre : List Module) (name : String) (cols : List String) (s₀ s : Compiler) :
    Prop where
  rest : s = { s₀ with columnModule := s.columnModule }
  owner : ∀ c o, s.columnModule c = some o ↔ isLocalName c = false ∧
    ((∃ m ∈ pre, m.name = o ∧ c ∈ m.written) ∨ name = o ∧ c ∈ cols)

section Pass1

variable {ms pre post : List Module} {m : Module} {s₀ s : Compiler} {cols : List String}

theorem collectColumn_ends {col : String} (hsplit : ms = pre ++ m :: post)
    (hcol : col ∈ m.written) (h : Collected pre m.name cols s₀ s) :
    Ends (collectColumn m col) s (fun _ s' => Collected pre m.name (cols ++ [col]) s₀ s')
      (¬ SingleOwner ms) := by
  unfold collectColumn
  cases hl : isLocalName col with
  | true =>
    refine Ends.pure ⟨h.rest, fun c o => ?_⟩
    rw [h.owner]
    refine and_congr_right fun hc => ?_
    have hne : c ≠ col := by
      rintro rfl
      rw [hl] at hc
      exact absurd hc (by decide)
    simp [hne]
  | false =>
    simp only [Bool.false_eq_true, if_false]
    refine Ends.bind (Q := fun a s' => a = s ∧ s' = s) ⟨rfl, rfl⟩ fun a s' he => ?_
    obtain ⟨rfl, rfl⟩ := he
    cases ho : s'.columnModule col with
    | none =>
      change Collected pre m.name (cols ++ [col]) s₀
        { s' with columnModule := Function.update s'.columnModule col (some m.name) }
      refine ⟨?_, fun c o => ?_⟩
      · rw [h.rest]
      · by_cases hc : c = col
        · subst hc
          have hnone : ∀ o, ¬ (isLocalName c = false ∧
              ((∃ m' ∈ pre, m'.name = o ∧ c ∈ m'.written) ∨ m.name = o ∧ c ∈ cols)) := by
            intro o hh
            rw [← h.owner, ho] at hh
            simp at hh
          simp only [Function.update_self, Option.some.injEq, hl, true_and, List.mem_append,
            List.mem_singleton, or_true, and_true]
          constructor
          · exact .inr
          · rintro (hpre | ho)
            · exact absurd ⟨hl, .inl hpre⟩ (hnone o)
            · exact ho
        · simp only [Function.update_of_ne hc, h.owner]
          simp [hc]
    | some owner =>
      by_cases hown : owner = m.name
      · subst hown
        simp only [ne_eq, not_true_eq_false, if_false]
        refine Ends.pure ⟨h.rest, fun c o => ?_⟩
        rw [h.owner]
        refine and_congr_right fun hc => ?_
        constructor
        · rintro (hpre | ⟨rfl, hmem⟩)
          · exact .inl hpre
          · exact .inr ⟨rfl, List.mem_append_left _ hmem⟩
        · rintro (hpre | ⟨rfl, hmem⟩)
          · exact .inl hpre
          · rcases List.mem_append.1 hmem with hmem | hmem
            · exact .inr ⟨rfl, hmem⟩
            · obtain rfl := List.mem_singleton.1 hmem
              exact ((h.owner c m.name).1 ho).2
      · simp only [ne_eq, hown, not_false_eq_true, if_true]
        intro hsingle
        rcases ((h.owner col owner).1 ho).2 with ⟨m', hm', hname, hw⟩ | ⟨he, -⟩
        · refine hown (hname.symm.trans (hsingle m' ?_ m ?_ col hw hcol hl))
          · simp [hsplit, hm']
          · simp [hsplit]
        · exact hown he.symm

theorem Collected.next (h : Collected pre m.name m.written s₀ s) (name : String) :
    Collected (pre ++ [m]) name [] s₀ s where
  rest := h.rest
  owner := by
    intro c o
    rw [h.owner]
    refine and_congr_right fun _ => ?_
    constructor
    · rintro (⟨m', hm', hh⟩ | hh)
      · exact .inl ⟨m', List.mem_append_left _ hm', hh⟩
      · exact .inl ⟨m, by simp, hh⟩
    · rintro (⟨m', hm', hh⟩ | ⟨-, hh⟩)
      · rcases List.mem_append.1 hm' with hm' | hm'
        · exact .inl ⟨m', hm', hh⟩
        · obtain rfl := List.mem_singleton.1 hm'
          exact .inr hh
      · simp at hh

theorem Collected.rename (h : Collected pre "" [] s₀ s) (name : String) :
    Collected pre name [] s₀ s where
  rest := h.rest
  owner := by
    intro c o
    rw [h.owner]
    simp

theorem Collected.singleOwner (h : Collected ms "" [] s₀ s) : SingleOwner ms := by
  intro m hm m' hm' c hc hc' hl
  have h₁ := (h.owner c m.name).2 ⟨hl, .inl ⟨m, hm, rfl, hc⟩⟩
  have h₂ := (h.owner c m'.name).2 ⟨hl, .inl ⟨m', hm', rfl, hc'⟩⟩
  exact Option.some.inj (h₁.symm.trans h₂)

theorem collectColumnProducers_ends (ms : List Module) (g : ComputeGraph) :
    Ends (collectColumnProducers ms) (.start g)
      (fun _ s => Collected ms "" [] (.start g) s ∧ SingleOwner ms) (¬ SingleOwner ms) := by
  have hloop : Ends (collectColumnProducers ms) (.start g)
      (fun _ s => Collected ms "" [] (.start g) s) (¬ SingleOwner ms) := by
    refine Ends.forM (V := fun pre s => Collected pre "" [] (.start g) s)
      ⟨rfl, by simp [Compiler.start]⟩ fun pre m post s hsplit h => ?_
    have hinner : Ends (m.written.forM (collectColumn m)) s
        (fun _ s' => Collected pre m.name m.written (.start g) s') (¬ SingleOwner ms) := by
      refine Ends.forM (V := fun cols s => Collected pre m.name cols (.start g) s)
        (h.rename m.name) fun cols col rest s' hcols h' => ?_
      exact collectColumn_ends hsplit (by simp [hcols]) h'
    exact hinner.mono fun _ s' h' => h'.next ""
  exact hloop.mono fun _ s h => ⟨h, h.singleOwner⟩

theorem checkDependencies_ends (ms : List Module) (moduleNames : List String) (s : Compiler) :
    Ends (checkDependencies ms moduleNames) s (fun _ s' => s' = s ∧ DepsKnown ms moduleNames)
      (¬ DepsKnown ms moduleNames) := by
  refine Ends.forM (V := fun pre s' => s' = s ∧ DepsKnown pre moduleNames)
    ⟨rfl, by simp [DepsKnown]⟩ fun pre m post s' hsplit h => ?_
  obtain ⟨rfl, hpre⟩ := h
  have hinner : Ends (m.dependencies.forM fun dep => do
      if dep ∉ moduleNames then
        throw (.invalidArgument ("PipelineCompiler: module '" ++ m.name ++
          "' depends_on unknown module '" ++ dep ++ "'")) : CompileM PUnit) s'
      (fun _ s'' => s'' = s' ∧ ∀ d ∈ m.dependencies, d ∈ moduleNames)
      (¬ DepsKnown ms moduleNames) := by
    refine Ends.forM (V := fun names s'' => s'' = s' ∧ ∀ d ∈ names, d ∈ moduleNames)
      ⟨rfl, by simp⟩ fun names name rest s'' hnames h' => ?_
    obtain ⟨rfl, hknown⟩ := h'
    by_cases hd : name ∈ moduleNames
    · simp only [hd, not_true_eq_false, if_false]
      refine Ends.pure ⟨rfl, fun d hd' => ?_⟩
      rcases List.mem_append.1 hd' with hd' | hd'
      · exact hknown d hd'
      · obtain rfl := List.mem_singleton.1 hd'
        exact hd
    · simp only [hd, not_false_eq_true, if_true]
      intro hall
      exact hd (hall m (by simp [hsplit]) name (by simp [hnames]))
  refine hinner.mono fun _ s'' h' => ?_
  obtain ⟨rfl, hknown⟩ := h'
  refine ⟨rfl, fun m' hm' d hd => ?_⟩
  rcases List.mem_append.1 hm' with hm' | hm'
  · exact hpre m' hm' d hd
  · obtain rfl := List.mem_singleton.1 hm'
    exact hknown d hd

end Pass1

section Accepted

variable {m : Module} {s : Compiler}

def LocalsOf (bindings : Bindings) (locals : Locals) : Prop :=
  ∀ c, locals c = (bindings c).map NodeKey.id

theorem LocalsOf.update {bindings : Bindings} {locals : Locals} (h : LocalsOf bindings locals)
    (col : String) (key : NodeKey) :
    LocalsOf (Function.update bindings col (some key))
      (Function.update locals col (some key.id)) := by
  intro c
  by_cases hc : c = col
  · simp [hc]
  · simp [hc, h c]

theorem addAnchor_locals {nodeId col : String} {fr : Frame} :
    Yields (addAnchor m nodeId col fr) s fun fr' _ => fr'.locals = fr.locals := by
  unfold addAnchor
  exact (Yields.trivial _ _).bind fun _ _ _ => (Yields.trivial _ _).bind fun _ _ _ =>
    Yields.pure rfl

theorem compileInput_locals {fr : Frame} {d : Draft} {port : String}
    (h : LocalsOf d.locals fr.locals) :
    Yields (compileInput m fr port) s fun fr' _ => LocalsOf (d.input m port).locals fr'.locals := by
  unfold compileInput
  refine addAnchor_locals.bind fun fr₁ _ he => ?_
  refine (Yields.trivial _ _).bind fun _ _ _ => Yields.pure ?_
  rw [← he] at h
  exact h.update port (.input m.name port)

theorem compileWrite_locals {key : NodeKey} {locals : Locals} {bindings : Bindings} {out : String}
    (h : LocalsOf bindings locals) :
    Yields (compileWrite m key.id locals out) s fun locals' _ =>
      (out.isEmpty = false → bindings out = none) ∧
        LocalsOf (bindWrite key bindings out) locals' := by
  unfold compileWrite bindWrite
  cases he : out.isEmpty with
  | true =>
    simp only [if_true, true_or]
    exact Yields.pure ⟨by simp, h⟩
  | false =>
    simp only [Bool.false_eq_true, if_false, false_or, h out, Option.isSome_map]
    cases hb : bindings out with
    | some k =>
      intro l s' hthrow
      cases hthrow
    | none =>
      simp only [Option.isSome_none, Bool.false_eq_true, if_false]
      refine (Yields.trivial _ _).bind fun _ _ _ => Yields.pure ⟨by simp, ?_⟩
      exact h.update out key

theorem compileOp_locals {fr : Frame} {d : Draft} {entry : OpSpec × Nat}
    (h : LocalsOf d.locals fr.locals) :
    Yields (compileOp m fr entry) s fun fr' _ =>
      OpOk m d entry ∧ LocalsOf (d.op m entry).locals fr'.locals := by
  unfold compileOp
  refine Yields.bind (Q := fun o _ => createOp (remapSpec m.name entry.1) = .ok o) ?_
    fun o _ ho => ?_
  · cases hop : createOp (remapSpec m.name entry.1) with
    | ok o => exact Yields.pure rfl
    | error e =>
      intro o s' hthrow
      cases hthrow
  · refine (Yields.trivial _ _).bind fun _ _ _ => (Yields.trivial _ _).bind fun _ _ _ => ?_
    refine (Yields.foldlM (g := bindWrite (.op m.name entry.2)) (V := fun l _ b => LocalsOf b l)
      (P := fun b out => out.isEmpty = false → b out = none) h
      fun l b s' out _ hl => compileWrite_locals hl).bind
      fun locals' _ hw => Yields.pure ⟨⟨⟨o, ho⟩, hw.2⟩, hw.1⟩

theorem compileModule_accepts (m : Module) (s : Compiler) :
    Yields (compileModule m) s fun _ _ => m.Ok := by
  unfold compileModule
  refine Yields.bind (Q := fun fr _ => LocalsOf m.draftInputs.locals fr.locals) ?_
    fun fr₁ s₁ h₁ => ?_
  · intro fr s' he
    refine (Yields.foldlM (g := Draft.input m) (b := .empty)
      (V := fun fr _ d => LocalsOf d.locals fr.locals) (P := fun _ _ => True) (fun _ => rfl) ?_
      fr s' he).1
    intro fr d s' port _ hl a s'' he
    exact ⟨trivial, compileInput_locals hl a s'' he⟩
  · refine (Yields.foldlM (g := Draft.op m) (V := fun fr _ d => LocalsOf d.locals fr.locals)
      (P := fun d entry => OpOk m d entry) h₁ fun fr d s' entry _ hl => compileOp_locals hl).bind
      fun fr₂ s₂ h₂ => ?_
    refine (Yields.trivial _ _).bind fun _ _ _ => (Yields.trivial _ _).bind fun _ _ _ => ?_
    refine (Yields.trivial _ _).bind fun _ _ _ => (Yields.trivial _ _).bind fun _ _ _ => ?_
    exact fun _ _ _ => h₂.2

theorem forM_yields {P : Module → Prop} (h : ∀ m s, Yields (compileModule m) s fun _ _ => P m)
    (ms : List Module) (s : Compiler) :
    Yields (ms.forM compileModule) s fun _ _ => ∀ m ∈ ms, P m := by
  induction ms generalizing s with
  | nil => exact fun _ _ _ => by simp
  | cons m ms ih =>
    change Yields (compileModule m >>= fun _ => ms.forM compileModule) s _
    refine (h m s).bind fun _ s' hm => ?_
    intro a s'' he m' hm'
    rcases List.mem_cons.1 hm' with rfl | hm'
    · exact hm
    · exact ih s' a s'' he m' hm'

end Accepted

section Loop

variable {ms : List Module}

theorem ledger_foldl_done (pre : List Module) (L : Ledger) :
    (pre.foldl (fun L m => L.planModule ms m) L).done = L.done ++ pre := by
  induction pre generalizing L with
  | nil => simp
  | cons m pre ih =>
    rw [List.foldl_cons, ih]
    simp [Ledger.planModule]

theorem boundary_start (hc : Compilable ms) {s : Compiler}
    (h : Collected ms "" [] (.start .empty) s) : Boundary ms [] s .empty where
  tracks := by
    have hrest := h.rest
    have hstand : ∀ x, ¬ Standing s x := by
      rintro x (⟨c, hx⟩ | ⟨d, hx⟩)
      · rw [hrest] at hx
        simp [Compiler.start] at hx
      · rw [hrest] at hx
        simp [Compiler.start] at hx
    refine ⟨?_, ?_, ?_, ?_, ?_, ?_, ?_, ?_, ?_, ?_⟩
    · have hg : s.graph = .empty := by
        rw [hrest]
        rfl
      rw [hg]
      exact GraphTracks.start.congr fun x => ⟨False.elim, fun hx => hstand x hx⟩
    · intro c
      rw [hrest]
      simp [Compiler.start, Ledger.empty]
    · intro d
      rw [hrest]
      simp [Compiler.start, Ledger.empty]
    · intro c
      rw [hrest]
      simp [Compiler.start, Ledger.empty]
    · intro c hl
      cases hw : writer ms c with
      | some m =>
        obtain ⟨hm, hcw⟩ := writer_mem hw
        exact (h.owner c m.name).2 ⟨hl, .inl ⟨m, hm, rfl, hcw⟩⟩
      | none =>
        cases ho : s.columnModule c with
        | none => rfl
        | some o =>
          rcases ((h.owner c o).1 ho).2 with ⟨m, hm, -, hcw⟩ | ⟨-, hmem⟩
          · rw [writer_eq hc hm hcw hl] at hw
            simp at hw
          · simp at hmem
    · intro c hl _
      cases ho : s.columnModule c with
      | none => rfl
      | some o =>
        rw [((h.owner c o).1 ho).1] at hl
        exact absurd hl (by decide)
    · intro d
      rw [hrest]
      simp [Compiler.start, Ledger.empty]
    · simp [Ledger.empty]
    · simp [Ledger.empty]
    · simp [Ledger.empty]
  done_eq := rfl
  modules := by simp [Ledger.empty]

theorem compileModules_runs (hc : Compilable ms) {s : Compiler} (h : Boundary ms [] s .empty) :
    Runs (ms.forM compileModule) s fun _ s' => Boundary ms ms s' (ledger ms) := by
  have hloop : Runs (ms.forM compileModule) s fun _ s' =>
      Boundary ms (ledger ms).done s' (ledger ms) := by
    refine Runs.forM (g := fun (L : Ledger) m => L.planModule ms m) (b := Ledger.empty)
      (V := fun s L => Boundary ms L.done s L) h fun pre m post s' hsplit h' => ?_
    have hdone : (pre.foldl (fun L m => Ledger.planModule ms m L) Ledger.empty).done = pre := by
      rw [ledger_foldl_done]
      rfl
    have hnew : m.name ∉ pre.map (·.name) := by
      have hnodup := hc.names
      rw [hsplit, List.map_append, List.map_cons, List.nodup_append] at hnodup
      intro hmem
      exact hnodup.2.2 m.name hmem m.name (by simp) rfl
    have hstep := h'.compileModule hc (m := m) (by simp [hsplit]) (by rwa [hdone])
    exact hstep
  have hdone : (ledger ms).done = ms := by
    unfold ledger
    rw [ledger_foldl_done]
    rfl
  rwa [hdone] at hloop

end Loop

section Bound

variable {ms : List Module} {m : Module} {c : String}

theorem remap_ordinary (h : isLocalName c = false) (name : String) : remap name c = c := by
  have hat : startsWithAt c = false := by
    simp only [isLocalName, Bool.or_eq_false_iff] at h
    exact h.2
  simp [remap, hat]

theorem ordinary_of_remap {name raw : String} (h : isLocalName (remap name raw) = false) :
    remap name raw = raw := by
  unfold remap at h ⊢
  split_ifs at h ⊢ with hat
  · exfalso
    simp [isLocalName, startsWithAt, remapTemp, String.toList_append] at h
  · rfl

theorem mem_remap_inputs {spec : OpSpec} {name : String} (h : isLocalName c = false) :
    c ∈ (remapSpec name spec).inputs ↔ c ∈ spec.inputs := by
  constructor
  · intro hc
    obtain ⟨raw, hraw, rfl⟩ := List.mem_map.1 hc
    rwa [ordinary_of_remap h]
  · exact fun hc => List.mem_map.2 ⟨c, hc, remap_ordinary h name⟩

theorem mem_remap_outputs {spec : OpSpec} {name : String} (h : isLocalName c = false) :
    c ∈ (remapSpec name spec).outputs ↔ c ∈ spec.outputs := by
  constructor
  · intro hc
    obtain ⟨raw, hraw, rfl⟩ := List.mem_map.1 hc
    rwa [ordinary_of_remap h]
  · exact fun hc => List.mem_map.2 ⟨c, hc, remap_ordinary h name⟩

theorem not_isEmpty_of_ordinary (h : isLocalName c = false) : c.isEmpty = false := by
  simp only [isLocalName, Bool.or_eq_false_iff] at h
  exact h.1

theorem bindWrite_binds {key : NodeKey} {outs : List String} {locals : Bindings} (hc : c ∈ outs)
    (he : c.isEmpty = false) : outs.foldl (bindWrite key) locals c ≠ none := by
  obtain ⟨pre, post, rfl⟩ := List.append_of_mem hc
  rw [List.foldl_append, List.foldl_cons]
  generalize pre.foldl (bindWrite key) locals = l
  have hbound : ∃ k, bindWrite key l c c = some k := by
    unfold bindWrite
    split_ifs with hskip
    · rcases hskip with hs | hs
      · rw [he] at hs
        exact absurd hs (by decide)
      · exact Option.isSome_iff_exists.1 hs
    · exact ⟨key, by simp⟩
  obtain ⟨k, hk⟩ := hbound
  rw [Draft.bindWrite_extends post hk]
  simp

theorem op_bound {entry : OpSpec × Nat} (hc : c ∈ (remapSpec m.name entry.1).outputs)
    (he : c.isEmpty = false) {d d' : Draft} (hd : Draft.Extends (d.op m entry) d') :
    d'.locals c ≠ none := by
  obtain ⟨k, hk⟩ := Option.ne_none_iff_exists'.1
    (bindWrite_binds hc he)
  rw [hd c k hk]
  simp

theorem written_bound (hw : c ∈ m.written) (hl : isLocalName c = false) :
    m.draft.locals c ≠ none := by
  rcases List.mem_append.1 hw with hw | hw
  · obtain ⟨pre, post, hs⟩ := List.append_of_mem hw
    have hbound : ∃ k, ((pre.foldl (Draft.output m) m.draftOps).output m c).locals c = some k := by
      unfold Draft.output
      split
      · rename_i k hk
        exact ⟨k, hk⟩
      · exact ⟨.output m.name c, by simp⟩
    obtain ⟨k, hk⟩ := hbound
    rw [draftOutputs_extends m hs c k hk]
    simp
  · obtain ⟨spec, hspec, hout⟩ := List.mem_flatMap.1 hw
    obtain ⟨i, hi⟩ := List.mem_iff_getElem?.1 hspec
    obtain ⟨pre, post, hs⟩ := List.append_of_mem (List.mem_zipIdx_iff_getElem?.2 hi :
      (spec, i) ∈ m.ops.zipIdx)
    exact op_bound ((mem_remap_outputs hl).2 hout)
      (not_isEmpty_of_ordinary hl) (draftOps_extends m hs)

theorem bound_bindWrite {key : NodeKey} {outs : List String} {locals : Bindings}
    (h : outs.foldl (bindWrite key) locals c ≠ none) : locals c ≠ none ∨ c ∈ outs := by
  by_contra hnot
  rw [not_or, not_not] at hnot
  refine h (foldl_rule_mem (P := fun l : Bindings => l c = none) outs hnot.1 fun l out hout hl => ?_)
  unfold bindWrite
  split_ifs
  · exact hl
  · have hne : c ≠ out := by
      rintro rfl
      exact hnot.2 hout
    rw [Function.update_of_ne hne, hl]

theorem bound_ops {entries : List (OpSpec × Nat)} {d : Draft}
    (h : (entries.foldl (Draft.op m) d).locals c ≠ none) :
    d.locals c ≠ none ∨ ∃ e ∈ entries, c ∈ (remapSpec m.name e.1).outputs := by
  by_contra hnot
  rw [not_or, not_not] at hnot
  refine h (foldl_rule_mem (P := fun d : Draft => d.locals c = none) entries hnot.1
    fun d e he hd => ?_)
  by_contra hb
  rcases bound_bindWrite hb with hb | hb
  · exact hb hd
  · exact hnot.2 ⟨e, he, hb⟩

end Bound

def Module.Reads (m : Module) (c : String) : Prop := c ∈ m.inputs ∨ ∃ spec ∈ m.ops, c ∈ spec.inputs

def Resolved (ms : List Module) : Prop :=
  ∀ m ∈ ms, ∀ w ∈ ms, m ≠ w → ∀ c, isLocalName c = false → m.Reads c → c ∈ w.written → c ∉ w.inputs

section Accepts

variable {ms : List Module} {m : Module} {c : String}

theorem Compilable.module_eq (hc : Compilable ms) {m m' : Module} (hm : m ∈ ms) (hm' : m' ∈ ms)
    (he : m.name = m'.name) : m = m' :=
  List.inj_on_of_nodup_map hc.names hm hm' he

theorem foreign_iff (hc : Compilable ms) (hm : m ∈ ms) (hl : isLocalName c = false) :
    Foreign ms m c ↔ ∃ w ∈ ms, w ≠ m ∧ c ∈ w.written := by
  constructor
  · rintro ⟨w, hw, hne⟩
    obtain ⟨hwm, hcw⟩ := writer_mem hw
    exact ⟨w, hwm, fun he => hne (by rw [he]), hcw⟩
  · rintro ⟨w, hw, hne, hcw⟩
    exact ⟨w, writer_eq hc hw hcw hl, fun he => hne (hc.module_eq hw hm he)⟩

theorem mem_wanted_iff (hc : Compilable ms) : c ∈ (ledger ms).wanted ↔
    isLocalName c = false ∧ ∃ m ∈ ms, m.Reads c ∧ Foreign ms m c := by
  rw [mem_ledger_wanted]
  constructor
  · rintro ⟨m, hm, key, bindings, hsite, hnone, hl, hf⟩
    refine ⟨hl, m, hm, ?_, hf⟩
    cases hsite with
    | input hs => exact .inl (by simp [hs])
    | @op pre post entry _ hs hin =>
      have hentry : entry ∈ m.ops.zipIdx := by simp [hs]
      exact .inr ⟨entry.1, List.fst_mem_of_mem_zipIdx hentry, (mem_remap_inputs hl).1 hin⟩
    | output hs hn =>
      obtain ⟨w, hw, hne⟩ := hf
      have hown := writer_eq hc hm (List.mem_append_left _ (by simp [hs])) hl
      obtain rfl : m = w := Option.some.inj (hown.symm.trans hw)
      exact absurd rfl hne
  · rintro ⟨hl, m, hm, hr, hf⟩
    refine ⟨m, hm, ?_⟩
    by_cases hin : c ∈ m.inputs
    · obtain ⟨pre, post, hs, hpre⟩ := List.eq_append_cons_of_mem hin
      refine ⟨_, _, .input hs, ?_, hl, hf⟩
      rw [Draft.inputs_locals, if_neg hpre]
      rfl
    · obtain ⟨spec, hspec, hcs⟩ := hr.resolve_left hin
      obtain ⟨i, hi⟩ := List.mem_iff_getElem?.1 hspec
      obtain ⟨pre, post, hs⟩ := List.append_of_mem (List.mem_zipIdx_iff_getElem?.2 hi :
        (spec, i) ∈ m.ops.zipIdx)
      refine ⟨_, _, .op hs ((mem_remap_inputs hl).2 hcs), ?_, hl, hf⟩
      by_contra hb
      rcases bound_ops hb with hb | ⟨e, he, hout⟩
      · simp [m.draftInputs_locals, hin] at hb
      · obtain ⟨w, hw, hwm, hcw⟩ := (foreign_iff hc hm hl).1 hf
        have hentry : e ∈ m.ops.zipIdx := by simp [hs, he]
        have hspec' : e.1 ∈ m.ops := List.fst_mem_of_mem_zipIdx hentry
        have hcm : c ∈ m.written := List.mem_append_right _
          (List.mem_flatMap.2 ⟨e.1, hspec', (mem_remap_outputs hl).1 hout⟩)
        exact hwm (hc.unambiguous w hw m hm c hcw hcm hl)

theorem producer_eq_none_iff (hc : Compilable ms) {w : Module} (hw : w ∈ ms) (hcw : c ∈ w.written)
    (hl : isLocalName c = false) : producer ms c = none ↔ c ∈ w.inputs := by
  unfold producer
  rw [writer_eq hc hw hcw hl]
  by_cases hin : c ∈ w.inputs
  · simp [hin]
  · simp [hin, written_bound hcw hl]

theorem resolved_iff (hc : Compilable ms) :
    (∀ c ∈ (ledger ms).wanted, producer ms c ≠ none) ↔ Resolved ms := by
  constructor
  · intro h m hm w hw hne c hl hr hcw
    have hf : Foreign ms m c := (foreign_iff hc hm hl).2 ⟨w, hw, hne.symm, hcw⟩
    have := h c ((mem_wanted_iff hc).2 ⟨hl, m, hm, hr, hf⟩)
    rwa [ne_eq, producer_eq_none_iff hc hw hcw hl] at this
  · intro h c hcw
    obtain ⟨hl, m, hm, hr, hf⟩ := (mem_wanted_iff hc).1 hcw
    obtain ⟨w, hw, hne, hwr⟩ := (foreign_iff hc hm hl).1 hf
    rw [ne_eq, producer_eq_none_iff hc hw hwr hl]
    exact h m hm w hw hne.symm c hl hr hwr

theorem lookup_ne_none {α β : Type} [DecidableEq α] {xs : List (α × β)} {a : α} {b : β}
    (h : (a, b) ∈ xs) : xs.lookup a ≠ none := by
  rw [ne_eq, List.lookup_eq_none_iff]
  intro hall
  simpa using hall (a, b) h

theorem Boundary.registered_iff {s : Compiler} (h : Boundary ms ms s (ledger ms))
    (hl : isLocalName c = false) : (ledger ms).regs.lookup c = none ↔ producer ms c = none := by
  constructor
  · intro hnone
    by_contra hp
    obtain ⟨k, hk⟩ := Option.ne_none_iff_exists'.1 hp
    unfold producer at hk
    cases hw : writer ms c with
    | none => simp [hw] at hk
    | some m =>
      simp only [hw] at hk
      split_ifs at hk with hin
      rcases ledger_registered (writer_mem hw).1 (c := c) (by simp [hk]) with hin' | ⟨k', hk'⟩
      · exact hin hin'
      · exact lookup_ne_none hk' hnone
  · intro hp
    by_contra hnone
    obtain ⟨k, hk⟩ := Option.ne_none_iff_exists'.1 hnone
    rw [((h.tracks.regs c k (lookup_mem hk)).2 hl).1] at hp
    simp at hp

theorem Boundary.standing_iff {s : Compiler} (h : Boundary ms ms s (ledger ms))
    (hc : Compilable ms) {x : String} :
    Standing s x ↔ ∃ c ∈ (ledger ms).wanted, producer ms c = none ∧ x = placeholderId c := by
  have hdone : (ledger ms).done = ms := h.done_eq
  constructor
  · rintro (⟨c, hx⟩ | ⟨d, hx⟩)
    · rw [h.tracks.column] at hx
      split_ifs at hx with hcond
      exact ⟨c, hcond.1, (h.registered_iff (h.tracks.wanted c hcond.1)).1 hcond.2,
        (Option.some.inj hx).symm⟩
    · rw [h.tracks.tail] at hx
      split_ifs at hx with hcond
      obtain ⟨m, hm, hd⟩ := (mem_ledger_tails ms).1 hcond.1
      obtain ⟨m', hm', rfl⟩ := hc.deps m hm d hd
      exact absurd (List.mem_map_of_mem (hdone.symm ▸ hm')) hcond.2
  · rintro ⟨c, hcw, hp, rfl⟩
    refine .inl ⟨c, ?_⟩
    rw [h.tracks.column, if_pos ⟨hcw, (h.registered_iff (h.tracks.wanted c hcw)).2 hp⟩]

theorem Boundary.hasPlaceholders_iff {s : Compiler} (h : Boundary ms ms s (ledger ms))
    (hc : Compilable ms) : s.graph.hasPlaceholders = false ↔ Resolved ms := by
  rw [← resolved_iff hc]
  unfold ComputeGraph.hasPlaceholders
  rw [List.any_eq_false]
  constructor
  · intro hall c hcw hp
    have hstand : Standing s (placeholderId c) := (h.standing_iff hc).2 ⟨c, hcw, hp, rfl⟩
    obtain ⟨p, hbyId⟩ := (h.tracks.graph.has _).2 (.inr hstand)
    obtain ⟨n, hn, -, hid⟩ := h.tracks.graph.wf.byId_mem _ p hbyId
    exact hall n hn (h.tracks.graph.standing n hn (hid ▸ startsWithAt_placeholderId c))
  · intro hall n hn hp
    obtain ⟨-, hstand⟩ := h.tracks.graph.pending n hn hp
    obtain ⟨c, hcw, hnone, -⟩ := (h.standing_iff hc).1 hstand
    exact hall c hcw hnone

end Accepts

-- What Pipeline::add_module sees to, and names that keep clear of the compiler's own ids.
structure Named (ms : List Module) : Prop where
  distinct : (ms.map (·.name)).Nodup
  plain : ∀ m ∈ ms, startsWithAt m.name = false

structure Accepted (ms : List Module) : Prop where
  owner : SingleOwner ms
  deps : DepsKnown ms (ms.map (·.name))
  ok : ∀ m ∈ ms, m.Ok
  resolved : Resolved ms

def compileAll (ms : List Module) : EStateM.Result Exn Compiler Unit :=
  compile ms (ms.map (·.name)) (.start .empty)

section Compile

variable {ms : List Module}

theorem Named.compilable (h : Named ms) (howner : SingleOwner ms)
    (hdeps : DepsKnown ms (ms.map (·.name))) (hok : ∀ m ∈ ms, m.Ok) : Compilable ms where
  names := h.distinct
  plain := h.plain
  unambiguous := fun m hm m' hm' c hc hc' hl =>
    List.inj_on_of_nodup_map h.distinct hm hm' (howner m hm m' hm' c hc hc' hl)
  ok := hok
  deps := fun m hm d hd => List.mem_map.1 (hdeps m hm d hd)

theorem Accepted.compilable (h : Accepted ms) (hn : Named ms) : Compilable ms :=
  hn.compilable h.owner h.deps h.ok

structure Passed (ms : List Module) (s₀ s : Compiler) : Prop where
  collected : Collected ms "" [] (.start .empty) s₀
  owner : SingleOwner ms
  deps : DepsKnown ms (ms.map (·.name))
  modules : ms.forM compileModule s₀ = .ok () s
  resolved : s.graph.hasPlaceholders = false

theorem compile_passed {s : Compiler} (h : compileAll ms = .ok () s) : ∃ s₀, Passed ms s₀ s := by
  unfold compileAll compile at h
  obtain ⟨_, s₀, h₀, hrest₀⟩ := bind_eq_ok h
  cases h₀
  obtain ⟨_, s₁, h₁, hrest₁⟩ := bind_eq_ok hrest₀
  have hcollect := collectColumnProducers_ends ms .empty
  rw [Ends] at hcollect
  change collectColumnProducers ms (.start .empty) = _ at h₁
  rw [h₁] at hcollect
  obtain ⟨hcollected, howner⟩ := hcollect
  obtain ⟨_, s₂, h₂, hrest₂⟩ := bind_eq_ok hrest₁
  have hcheck := checkDependencies_ends ms (ms.map (·.name)) s₁
  rw [Ends, h₂] at hcheck
  obtain ⟨rfl, hdeps⟩ := hcheck
  obtain ⟨_, s₃, h₃, hrest₃⟩ := bind_eq_ok hrest₂
  obtain ⟨_, s₄, h₄, hrest₄⟩ := bind_eq_ok hrest₃
  cases h₄
  cases hplace : s₃.graph.hasPlaceholders with
  | true =>
    simp only [hplace, if_true] at hrest₄
    cases hrest₄
  | false =>
    simp only [hplace, Bool.false_eq_true, if_false] at hrest₄
    cases hrest₄
    exact ⟨s₂, hcollected, howner, hdeps, h₃, hplace⟩

theorem Passed.ok {s₀ s : Compiler} (h : Passed ms s₀ s) : ∀ m ∈ ms, m.Ok :=
  forM_yields compileModule_accepts ms s₀ _ s h.modules

theorem compile_spec (hn : Named ms) {s : Compiler} (h : compileAll ms = .ok () s) :
    Accepted ms ∧ Boundary ms ms s (ledger ms) := by
  obtain ⟨s₀, hp⟩ := compile_passed h
  have hc := hn.compilable hp.owner hp.deps hp.ok
  obtain ⟨_, s', h', hboundary⟩ := compileModules_runs hc (boundary_start hc hp.collected)
  obtain ⟨-, rfl⟩ := EStateM.Result.ok.inj (hp.modules.symm.trans h')
  have hresolved := (hboundary.hasPlaceholders_iff hc).1 hp.resolved
  exact ⟨⟨hp.owner, hp.deps, hp.ok, hresolved⟩, hboundary⟩

theorem compile_runs (hn : Named ms) (h : Accepted ms) : ∃ s, compileAll ms = .ok () s := by
  have hc := h.compilable hn
  have hruns : Runs (compile ms (ms.map (·.name))) (.start .empty) fun _ _ => True := by
    unfold compile
    refine Runs.bind (Q := fun _ s => s = .start .empty) ⟨_, _, rfl, rfl⟩ fun _ s he => ?_
    subst he
    refine ((collectColumnProducers_ends ms .empty).ok_iff.1 h.owner).bind fun _ s₁ h₁ => ?_
    refine ((checkDependencies_ends ms (ms.map (·.name)) s₁).ok_iff.1 h.deps).bind
      fun _ s₂ h₂ => ?_
    subst h₂
    refine (compileModules_runs hc (boundary_start hc h₁)).bind fun _ s₃ h₃ => ?_
    refine runs_get ?_
    rw [(h₃.hasPlaceholders_iff hc).2 h.resolved]
    exact Runs.pure trivial
  obtain ⟨_, s, hs, -⟩ := hruns
  exact ⟨s, hs⟩

theorem compile_ok_iff (hn : Named ms) : (∃ s, compileAll ms = .ok () s) ↔ Accepted ms :=
  ⟨fun ⟨_, h⟩ => (compile_spec hn h).1, compile_runs hn⟩

structure Compiled (ms : List Module) (g : ComputeGraph) : Prop where
  wf : g.WellFormed
  has : ∀ x, g.Has x ↔ ∃ k ∈ (ledger ms).nodes, k.id = x
  edge : ∀ x y, g.Edge x y ↔ ∃ a b, (a, b) ∈ (ledger ms).edges ∧ a.id = x ∧ b.id = y
  ids : ∀ n ∈ g.nodes, g.Has n.id
  real : ∀ n ∈ g.nodes, n.op.isPlaceholder = false
  kinds : ∀ n ∈ g.nodes, ∀ o, n.op = .op o → AnchorNode ms o ∨ OpNode ms n o
  unique : IdsDistinct ms → ∀ n ∈ g.nodes, ∀ m k, IsKey ms (.op m k) → n.id = opId m k →
    g.byId n.id = some n.ptr

theorem edge_has {g : ComputeGraph} {x y : String} (h : g.Edge x y) : g.Has y := by
  obtain ⟨n, -, -, d, -, hy⟩ := h
  exact ⟨d, hy⟩

theorem compile_compiled (hn : Named ms) {s : Compiler} (h : compileAll ms = .ok () s) :
    Compiled ms s.graph := by
  obtain ⟨ha, hb⟩ := compile_spec hn h
  have hc := ha.compilable hn
  have hg := hb.tracks.graph
  have hstand : ∀ x, ¬ Standing s x := by
    intro x hx
    obtain ⟨c, hcw, hp, -⟩ := (hb.standing_iff hc).1 hx
    exact (resolved_iff hc).2 ha.resolved c hcw hp
  have hhas : ∀ x, s.graph.Has x ↔ ∃ k ∈ (ledger ms).nodes, k.id = x := by
    intro x
    rw [hg.has]
    exact or_iff_left (hstand x)
  have hplain : ∀ x, s.graph.Has x → startsWithAt x = false := by
    intro x hx
    obtain ⟨k, hk, rfl⟩ := (hhas x).1 hx
    exact NodeKey.id_plain (hc.isKey_plain (hg.keys k hk))
  have hrefers : ∀ {y : String} {b : NodeKey}, s.graph.Has y → Refers ms y b → y = b.id := by
    rintro y b hy (he | hs)
    · exact he
    · have := standsFor_startsWithAt hs
      rw [hplain y hy] at this
      exact absurd this (by decide)
  refine ⟨hg.wf, hhas, fun x y => ?_, hg.ids, fun n hn => ?_, hg.kinds, hg.unique⟩
  · constructor
    · intro he
      have hy := edge_has he
      obtain ⟨a, -, hx, ⟨b, hr, hab⟩ | ⟨c, rfl, -⟩⟩ := hg.edges_of x y he
      · exact ⟨a, b, hab, hx, (hrefers hy hr).symm⟩
      · have := startsWithAt_placeholderId c
        rw [hplain _ hy] at this
        exact absurd this (by decide)
    · rintro ⟨a, b, hab, rfl, rfl⟩
      obtain ⟨-, -, y, hr, he⟩ := hg.edges_mem a b hab
      rwa [← hrefers (edge_has he) hr]
  · by_contra hp
    exact hstand n.id (hg.pending n hn (by simpa using hp)).2

end Compile

def build (ms : List Module) : Except Exn ComputeGraph :=
  match compileAll ms with
  | .error e _ => .error e
  | .ok _ s =>
    match s.graph.finalize with
    | (g, .ok _) => .ok g
    | (_, .error e) => .error e

section Build

variable {ms : List Module} {g : ComputeGraph}

theorem Compiled.finalized (h : Compiled ms g) (topo : List Nat) (flag : Bool) :
    Compiled ms { g with topo := topo, finalized := flag } where
  wf := ⟨h.wf.ptr_lt, h.wf.ptr_nodup, h.wf.byId_mem, h.wf.dep_live, h.wf.deps_nodup,
    h.wf.byId_of_deps⟩
  has := h.has
  edge := h.edge
  ids := h.ids
  real := h.real
  kinds := h.kinds
  unique := h.unique

theorem build_spec (hn : Named ms) (h : build ms = .ok g) :
    Accepted ms ∧ Compiled ms g ∧ g.Acyclic ∧ g.topo = g.sorted := by
  unfold build at h
  cases hc : compileAll ms with
  | error e s => simp [hc] at h
  | ok a s =>
    simp only [hc] at h
    have hcompiled := compile_compiled hn hc
    have hok := hcompiled.wf.finalize_ok_iff
    unfold ComputeGraph.finalize at h hok
    split_ifs at h hok with hlen
    cases h
    exact ⟨(compile_spec hn hc).1, hcompiled.finalized _ _, hok.1 rfl, rfl⟩

theorem build_ok_iff (hn : Named ms) : (∃ g, build ms = .ok g) ↔
    Accepted ms ∧ ∀ x, ¬ Relation.TransGen
      (fun x y => ∃ a b, (a, b) ∈ (ledger ms).edges ∧ a.id = x ∧ b.id = y) x x := by
  constructor
  · rintro ⟨g, h⟩
    obtain ⟨ha, hc, hacyclic, -⟩ := build_spec hn h
    refine ⟨ha, ?_⟩
    have hrel : g.Edge = fun x y => ∃ a b, (a, b) ∈ (ledger ms).edges ∧ a.id = x ∧ b.id = y :=
      funext fun x => funext fun y => propext (hc.edge x y)
    rw [← hrel]
    exact hacyclic
  · rintro ⟨ha, hacyclic⟩
    obtain ⟨s, hs⟩ := compile_runs hn ha
    have hc := compile_compiled hn hs
    have hrel : s.graph.Edge = fun x y => ∃ a b, (a, b) ∈ (ledger ms).edges ∧ a.id = x ∧ b.id = y :=
      funext fun x => funext fun y => propext (hc.edge x y)
    rw [← hrel] at hacyclic
    have hfin := hc.wf.finalize_ok_iff.2 hacyclic
    refine ⟨s.graph.finalize.1, ?_⟩
    unfold build
    simp only [hs]
    cases hf : s.graph.finalize with
    | mk g' r =>
      rw [hf] at hfin
      simp only at hfin
      simp [hfin]

end Build

end Lark.Column.Biz
