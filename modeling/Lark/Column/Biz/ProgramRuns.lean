import Lark.Column.Biz.DslFrame
import Lark.Column.Biz.DslModules

namespace Lark.Column.Biz

open Lark.Base Lark.Column.Exec Relation

section View

def Sees (name : String) (store view : TensorStore) : Prop :=
  ∀ c, isLocalName c = false ∨ IsTemp c → view.find c = store.find (remap name c)

theorem exists_view (name : String) (store : TensorStore) :
    ∃ view, Sees name store view ∧ Dsl.Agrees store view := by
  classical
  refine ⟨⟨fun c => if IsTemp c then store.find (remap name c) else store.find c, []⟩, ?_, ?_⟩
  · rintro c (hl | htemp)
    · have hplain : ¬ IsTemp c := by
        rintro ⟨k, rfl⟩
        have hlocal := Dsl.isLocalName_temp k
        rw [Dsl.tempName, hl] at hlocal
        cases hlocal
      simp only [if_neg hplain, remap_ordinary hl]
    · simp only [if_pos htemp]
  · intro c hc
    have hplain : ¬ IsTemp c := by
      rintro ⟨k, hk⟩
      exact hc k hk
    simp only [if_neg hplain]

variable {libm : Libm} {name : String} {store view : TensorStore} {spec : OpSpec} {o : Op}

def Ends (libm : Libm) (view : TensorStore) (spec : OpSpec) (ok : Bool) : Prop :=
  ∃ o, createOp spec = .ok o ∧ Settled libm view o ok

theorem createOp_remapSpec (h : createOp (remapSpec name spec) = .ok o) :
    ∃ k, createOp spec = .ok ⟨spec.type, spec.inputs, spec.outputs, k⟩ ∧
      o = ⟨spec.type, spec.inputs.map (remap name), spec.outputs.map (remap name), k⟩ := by
  have hkernel := createKernel_renameSpec (remap name) spec
  change createKernel (remapSpec name spec) = createKernel spec at hkernel
  unfold createOp at h
  rw [hkernel] at h
  obtain ⟨k, hk, ho⟩ := except_bind_eq_ok.mp h
  refine ⟨k, ?_, (Except.ok.inj ho).symm⟩
  rw [createOp, hk]
  rfl

theorem isAnchor_map (type : String) (inputs outputs : List String) (k : Kernel) :
    Op.isAnchor ⟨type, inputs.map (remap name), outputs.map (remap name), k⟩ =
      Op.isAnchor ⟨type, inputs, outputs, k⟩ := by
  have hinj := Option.map_injective (remap_injective name)
  simp only [Op.isAnchor, List.head?_map, Option.isSome_map, hinj.eq_iff]

theorem input_seen {type : String} {inputs outputs : List String} {k : Kernel}
    (h : ∀ c ∈ inputs, view.find c = store.find (remap name c)) (i : Nat) (t : Tensor) :
    Op.input ⟨type, inputs.map (remap name), outputs.map (remap name), k⟩ store i = .ok t ↔
      Op.input ⟨type, inputs, outputs, k⟩ view i = .ok t := by
  simp only [Op.input, List.getElem?_map]
  cases hi : inputs[i]? with
  | none => simp
  | some c =>
    simp only [Option.map_some, h c (List.mem_of_getElem? hi)]
    cases store.find (remap name c) <;> simp

theorem ends_of_settled {ok : Bool} (ho : createOp (remapSpec name spec) = .ok o)
    (hin : ∀ c ∈ spec.inputs, view.find c = store.find (remap name c))
    (hout : ∀ c ∈ spec.outputs, view.find c = store.find (remap name c))
    (h : Settled libm store o ok) : Ends libm view spec ok := by
  obtain ⟨k, hspec, rfl⟩ := createOp_remapSpec ho
  refine ⟨_, hspec, ?_⟩
  have hsame := @isAnchor_map name spec.type spec.inputs spec.outputs k
  have hinput := @input_seen name store view spec.type spec.inputs spec.outputs k hin
  cases ha : Op.isAnchor ⟨spec.type, spec.inputs, spec.outputs, k⟩ with
  | true =>
    rw [ha] at hsame
    have hanchor : Settled libm store _ true := .computed (compute_anchor hsame) rfl
    obtain rfl := h.unique hanchor
    exact .computed (compute_anchor ha) rfl
  | false =>
    rw [ha] at hsame
    cases h with
    | computed hc hs =>
      obtain ⟨out, t, hhead, hk, rfl⟩ := (compute_ok_iff hsame).1 hc
      rw [List.head?_map, Option.map_eq_some_iff] at hhead
      obtain ⟨c, hhead, rfl⟩ := hhead
      have hkept : view.find c = some t := by
        rw [hout c (List.mem_of_head? hhead), ← hs]
        simp
      exact .computed ((compute_ok_iff ha).2 ⟨c, t, hhead, runKernel_agree hinput hk, rfl⟩)
        (find_set_of_find hkept)
    | failed hc =>
      cases hview : Op.compute libm ⟨spec.type, spec.inputs, spec.outputs, k⟩ view with
      | error e => exact .failed hview
      | ok view' =>
        obtain ⟨c, t, hhead, hk, -⟩ := (compute_ok_iff ha).1 hview
        have hk' := runKernel_agree (fun i u => (hinput i u).symm) hk
        have hhead' : (spec.outputs.map (remap name)).head? = some (remap name c) := by
          rw [List.head?_map, hhead]
          rfl
        rw [(compute_ok_iff hsame).2 ⟨_, t, hhead', hk', rfl⟩] at hc
        cases hc

theorem Ends.of_find {ok : Bool} {view' : TensorStore} (h : Ends libm view spec ok)
    (hf : view'.find = view.find) : Ends libm view' spec ok := by
  obtain ⟨o, ho, hs⟩ := h
  exact ⟨o, ho, hs.frame (fun c _ => by rw [hf]) fun c _ => by rw [hf]⟩

theorem Ends.unique {a b : Bool} (h : Ends libm view spec a) (h' : Ends libm view spec b) :
    a = b := by
  obtain ⟨o, ho, hs⟩ := h
  obtain ⟨o', ho', hs'⟩ := h'
  obtain rfl := Except.ok.inj (ho.symm.trans ho')
  exact hs.unique hs'

end View

section Ops

variable {libm : Libm} {view : TensorStore}

inductive OpsEnd (libm : Libm) (specs : List OpSpec) (view : TensorStore) :
    Except Exn TensorStore → Prop
  | kept {view' : TensorStore} (h : ∀ spec ∈ specs, Ends libm view spec true)
    (hf : view'.find = view.find) : OpsEnd libm specs view (.ok view')
  | failed {spec : OpSpec} {e : Exn} (hm : spec ∈ specs) (h : Ends libm view spec false) :
    OpsEnd libm specs view (.error e)

theorem runOps_end {specs : List OpSpec} (h : ∀ spec ∈ specs, ∃ ok, Ends libm view spec ok) :
    OpsEnd libm specs view (Dsl.runOps libm specs view) := by
  induction specs generalizing view with
  | nil => exact .kept (by simp) rfl
  | cons spec specs ih =>
    obtain ⟨ok, o, ho, hs⟩ := h spec (by simp)
    rw [Dsl.runOps, List.foldlM_cons, ho]
    change OpsEnd libm (spec :: specs) view (o.compute libm view >>= Dsl.runOps libm specs)
    cases hs with
    | failed hc =>
      rw [hc]
      exact .failed (by simp) ⟨o, ho, .failed hc⟩
    | @computed view₁ hc hf =>
      rw [hc, except_ok_bind]
      have hends : ∀ spec' ∈ specs, ∃ ok, Ends libm view₁ spec' ok := by
        intro spec' hm
        obtain ⟨ok, hend⟩ := h spec' (List.mem_cons_of_mem _ hm)
        exact ⟨ok, hend.of_find hf⟩
      have hrest := ih hends
      generalize Dsl.runOps libm specs view₁ = r at hrest
      cases hrest with
      | kept hall hf' =>
        apply OpsEnd.kept
        · intro spec' hm
          rcases List.mem_cons.1 hm with rfl | hm
          · exact ⟨o, ho, .computed hc hf⟩
          · exact (hall spec' hm).of_find hf.symm
        · exact hf'.trans hf
      | failed hm hend => exact .failed (List.mem_cons_of_mem _ hm) (hend.of_find hf.symm)

end Ops

section Program

variable {libm : Libm} {m : Module} {prog pre : List Dsl.Statement} {final : TensorStore}

def Closes (libm : Libm) (name : String) (final : TensorStore) (spec : OpSpec) (ok : Bool) : Prop :=
  ∃ o, createOp (remapSpec name spec) = .ok o ∧ Settled libm final o ok

theorem Closes.unique {name : String} {spec : OpSpec} {a b : Bool}
    (h : Closes libm name final spec a) (h' : Closes libm name final spec b) : a = b := by
  obtain ⟨o, ho, hs⟩ := h
  obtain ⟨o', ho', hs'⟩ := h'
  obtain rfl := Except.ok.inj (ho.symm.trans ho')
  exact hs.unique hs'

inductive Mirrors (libm : Libm) (name : String) (final : TensorStore) (specs : List OpSpec) :
    Except Exn TensorStore → Prop
  | kept {out : TensorStore} (h : ∀ spec ∈ specs, Closes libm name final spec true)
    (hout : ∀ c, isLocalName c = false → out.find c = final.find c) :
    Mirrors libm name final specs (.ok out)
  | failed {spec : OpSpec} {e : Exn} (hm : spec ∈ specs) (h : Closes libm name final spec false) :
    Mirrors libm name final specs (.error e)

theorem not_temp_of_ordinary {c : String} (h : isLocalName c = false) (k : Nat) :
    c ≠ Dsl.tempName k := by
  rintro rfl
  rw [Dsl.isLocalName_temp] at h
  cases h

theorem FromDsl.generated (h : FromDsl m prog) (hp : pre <+: prog) :
    ∃ lx st, Dsl.genProgram pre ⟨lx, [], 0⟩ = .ok st ∧ st.ops <+: m.ops ∧
      (pre = prog → st.ops = m.ops) := by
  obtain ⟨text, hr, hparse⟩ := h.parsed
  obtain ⟨lx⟩ : Nonempty Lark.Toolkit.Dsl.Lexer := ⟨.make "" [] []⟩
  rw [Dsl.parse_program hr h.wellFormed lx] at hparse
  cases hgen : Dsl.genProgram prog ⟨lx, [], 0⟩ with
  | error e => simp [hgen, Except.map] at hparse
  | ok st =>
    have hops : st.ops = m.ops := by simpa [hgen, Except.map] using hparse
    obtain ⟨post, rfl⟩ := hp
    have hsplit := hgen
    rw [Dsl.genProgram, List.foldlM_append] at hsplit
    obtain ⟨st₁, hfirst, hrest⟩ := except_bind_eq_ok.mp hsplit
    refine ⟨lx, st₁, hfirst, hops ▸ Dsl.genProgram_grows hrest, fun hall => ?_⟩
    rw [← hall] at hgen
    obtain rfl := Except.ok.inj (hfirst.symm.trans hgen)
    exact hops

theorem FromDsl.mirrors (h : FromDsl m prog) (hflow : Dsl.Flowing m.ops)
    (hclose : ∀ spec ∈ m.ops, ∃ ok, Closes libm m.name final spec ok) (hp : pre <+: prog) :
    ∃ specs, specs <+: m.ops ∧ (pre = prog → specs = m.ops) ∧
      Mirrors libm m.name final specs (Dsl.evalProgram libm pre final) := by
  obtain ⟨view, hsees, hagrees⟩ := exists_view m.name final
  have hboth : ∀ spec ∈ m.ops, ∃ ok, Closes libm m.name final spec ok ∧
      Ends libm view spec ok := by
    intro spec hm
    obtain ⟨ok, o, ho, hs⟩ := hclose spec hm
    have hin : ∀ c ∈ spec.inputs, view.find c = final.find (remap m.name c) :=
      fun c hc => hsees c (hflow.inputs spec hm c hc)
    have hout : ∀ c ∈ spec.outputs, view.find c = final.find (remap m.name c) :=
      fun c hc => hsees c (hflow.outputs spec hm c hc)
    exact ⟨ok, ⟨o, ho, hs⟩, ends_of_settled ho hin hout hs⟩
  have hcloses : ∀ spec ∈ m.ops, ∀ ok, Ends libm view spec ok →
      Closes libm m.name final spec ok := by
    intro spec hm ok hend
    obtain ⟨ok', hc, hend'⟩ := hboth spec hm
    obtain rfl := hend.unique hend'
    exact hc
  obtain ⟨lx, st, hgen, hgrow, hall⟩ := h.generated hp
  have hstage : Dsl.Stage libm view final ⟨lx, [], 0⟩ view := ⟨rfl, hagrees⟩
  have hadv := Dsl.program_advances (fun s hs => h.wellFormed s (hp.subset hs)) hstage
  have hend : OpsEnd libm st.ops view (Dsl.runOps libm st.ops view) := by
    apply runOps_end
    intro spec hm
    obtain ⟨ok, -, hend⟩ := hboth spec (hgrow.subset hm)
    exact ⟨ok, hend⟩
  refine ⟨st.ops, hgrow, hall, ?_⟩
  rw [hgen] at hadv
  cases he : Dsl.evalProgram libm pre final with
  | error e =>
    rw [he] at hadv
    obtain ⟨e', hdead⟩ := hadv st rfl
    rw [hdead] at hend
    cases hend with
    | failed hm hfail => exact .failed hm (hcloses _ (hgrow.subset hm) _ hfail)
  | ok out =>
    rw [he] at hadv
    obtain ⟨st', run, hst, hrun⟩ := hadv
    obtain rfl := Except.ok.inj hst
    rw [hrun.reached] at hend
    cases hend with
    | kept hdone hfind =>
      apply Mirrors.kept
      · intro spec hm
        exact hcloses spec (hgrow.subset hm) _ (hdone spec hm)
      · intro c hl
        have hplain := not_temp_of_ordinary hl
        rw [← hrun.agrees c hplain, hfind, hagrees c hplain]

variable {post : List Dsl.Statement} {s : Dsl.Statement}

theorem FromDsl.solved_or_error (h : FromDsl m prog) (hc : Dsl.Causal prog)
    (hclose : ∀ spec ∈ m.ops, ∃ ok, Closes libm m.name final spec ok)
    (hsplit : prog = pre ++ s :: post) (hpre : ∀ p ∈ pre, Dsl.Solved libm final p) :
    Dsl.Solved libm final s ∨ ∃ e, s.eval libm final = .error e := by
  have hp : pre ++ [s] <+: prog := ⟨post, by simp [hsplit]⟩
  have hcs := hc.sublist hp.sublist
  have hmem : s ∈ prog := hp.subset (by simp)
  obtain ⟨out, hout, hfind⟩ := Dsl.evalProgram_solved (hcs.sublist (by simp)) hpre rfl
  obtain ⟨specs, -, -, hmirrors⟩ := h.mirrors (h.flowing hc) hclose hp
  rw [Dsl.evalProgram_snoc, hout, except_ok_bind] at hmirrors
  have halong := @Dsl.Statement.eval_alongside libm out final s
    (fun c _ => by rw [hfind]) (hc.self s hmem)
  generalize hr : s.eval libm out = r at hmirrors halong
  generalize hr' : s.eval libm final = r' at halong
  cases halong with
  | refused e => exact .inr ⟨e, rfl⟩
  | assigned t =>
    generalize hwrite : Except.ok (out.set s.column t) = r at hmirrors
    cases hmirrors with
    | failed _ _ => cases hwrite
    | kept _ hkept =>
      have hordinary : isLocalName s.column = false :=
        Dsl.isLocalName_ofIdent (h.wellFormed s hmem).target
      have hcolumn := hkept s.column hordinary
      rw [← Except.ok.inj hwrite] at hcolumn
      exact .inl ⟨t, hr', by simpa using hcolumn.symm⟩

theorem FromDsl.closes_of_solved (h : FromDsl m prog) (hc : Dsl.Causal prog)
    (hclose : ∀ spec ∈ m.ops, ∃ ok, Closes libm m.name final spec ok)
    (hsolved : ∀ s ∈ prog, Dsl.Solved libm final s) :
    ∀ spec ∈ m.ops, Closes libm m.name final spec true := by
  obtain ⟨out, hout, -⟩ := Dsl.evalProgram_solved hc hsolved rfl
  obtain ⟨specs, -, hall, hmirrors⟩ := h.mirrors (h.flowing hc) hclose (List.prefix_refl prog)
  rw [hout, hall rfl] at hmirrors
  cases hmirrors with
  | kept hdone _ => exact hdone

theorem FromDsl.closes_of_error (h : FromDsl m prog) (hc : Dsl.Causal prog)
    (hclose : ∀ spec ∈ m.ops, ∃ ok, Closes libm m.name final spec ok)
    (hsplit : prog = pre ++ s :: post) (hpre : ∀ p ∈ pre, Dsl.Solved libm final p) {e : Exn}
    (he : s.eval libm final = .error e) :
    ∃ spec ∈ m.ops, Closes libm m.name final spec false := by
  have hp : pre ++ [s] <+: prog := ⟨post, by simp [hsplit]⟩
  have hcs := hc.sublist hp.sublist
  obtain ⟨out, hout, hfind⟩ := Dsl.evalProgram_solved (hcs.sublist (by simp)) hpre rfl
  obtain ⟨specs, hsub, -, hmirrors⟩ := h.mirrors (h.flowing hc) hclose hp
  rw [Dsl.evalProgram_snoc, hout, except_ok_bind, Dsl.eval_error_of_reads he
    (fun c _ => by rw [hfind]) (hcs.self s (by simp))] at hmirrors
  cases hmirrors with
  | failed hm hfail => exact ⟨_, hsub.subset hm, hfail⟩

end Program

section Pipeline

variable {libm : Libm} {ms : List Module} {prog : Module → List Dsl.Statement}
  {all : List Dsl.Statement} {g : ComputeGraph} {store : TensorStore} {s : ExecState} {c : String}

-- One order of the statements of all modules that keeps the order within each module.
structure Interleaves (ms : List Module) (prog : Module → List Dsl.Statement)
    (all : List Dsl.Statement) : Prop where
  sub : ∀ m ∈ ms, (prog m).Sublist all
  origin : ∀ s ∈ all, ∃ m ∈ ms, s ∈ prog m

structure Programmed (ms : List Module) (prog : Module → List Dsl.Statement)
    (all : List Dsl.Statement) (g : ComputeGraph) : Prop where
  named : Named ms
  ids : IdsDistinct ms
  dsl : ∀ m ∈ ms, FromDsl m (prog m)
  order : Interleaves ms prog all
  causal : Dsl.Causal all
  built : build ms = .ok g

def PortsFed (ms : List Module) (all : List Dsl.Statement) (store : TensorStore) : Prop :=
  ∀ c, isLocalName c = false → Declared ms c →
    c ∈ all.map Dsl.Statement.column ∨ (store.find c).isSome

-- A finished run against the result of the program: they fail together, and up to the statement
-- that fails they agree on the columns.
inductive Meets (libm : Libm) (all : List Dsl.Statement) (store : TensorStore) (g : ComputeGraph)
    (s : ExecState) : Except Exn TensorStore → Prop
  | computed {out : TensorStore} (hdone : ∀ n ∈ g.nodes, s.phase n.ptr = .done true)
    (hout : ∀ c, isLocalName c = false → s.store.find c = out.find c) :
    Meets libm all store g s (.ok out)
  | failed {pre post : List Dsl.Statement} {t : Dsl.Statement} {out : TensorStore} {e : Exn}
    {n : ComputeNode} (hn : n ∈ g.nodes) (hfail : s.phase n.ptr = .done false)
    (hsplit : all = pre ++ t :: post) (hrun : Dsl.evalProgram libm pre store = .ok out)
    (ht : t.eval libm out = .error e)
    (hout : ∀ c, isLocalName c = false → c ∉ (t :: post).map Dsl.Statement.column →
      s.store.find c = out.find c) : Meets libm all store g s (.error e)

theorem earlier_subset {α : Type} {pre pre' post post' : List α} {x : α}
    (h : (pre' ++ x :: post').Sublist (pre ++ x :: post)) (hd : (pre ++ x :: post).Nodup) :
    pre' ⊆ pre := by
  obtain ⟨r, r', hr, hpre, hpost⟩ := List.append_sublist_iff.1 h
  have hx : x ∈ r' := hpost.subset (by simp)
  rw [hr] at hd
  have hnot : x ∉ r := fun hxr => (List.nodup_append.1 hd).2.2 x hxr x hx rfl
  rcases List.append_eq_append_iff.1 hr with ⟨u, rfl, hu⟩ | ⟨u, rfl, -⟩
  · cases u with
    | nil => simpa using hpre.subset
    | cons y u =>
      obtain ⟨rfl, -⟩ := List.cons.inj hu
      simp at hnot
  · exact fun y hy => List.mem_append_left _ (hpre.subset hy)

theorem FromDsl.output_column {m : Module} {p : List Dsl.Statement} (h : FromDsl m p)
    (hc : Dsl.Causal p) {spec : OpSpec} (hm : spec ∈ m.ops) (hout : c ∈ spec.outputs)
    (hl : isLocalName c = false) : c ∈ p.map Dsl.Statement.column := by
  obtain ⟨lx, st, hgen, -, hall⟩ := h.generated (List.prefix_refl p)
  obtain ⟨new, hops, -, -, hfrom⟩ := Dsl.genProgram_apart hc hgen
  rw [← hall rfl, hops, List.nil_append] at hm
  obtain ⟨t, ht, hnaming⟩ := hfrom spec hm
  obtain rfl : c = t.column := by simpa using hnaming.outputs c hout hl
  exact List.mem_map_of_mem ht

theorem Interleaves.split (hm : Interleaves ms prog all) (hc : Dsl.Causal all)
    {pre post : List Dsl.Statement} {t : Dsl.Statement} (hsplit : all = pre ++ t :: post) :
    ∃ m ∈ ms, ∃ pre' post', prog m = pre' ++ t :: post' ∧ pre' ⊆ pre := by
  obtain ⟨m, hmem, ht⟩ := hm.origin t (by simp [hsplit])
  obtain ⟨pre', post', hprog⟩ := List.append_of_mem ht
  have hsub := hm.sub m hmem
  have hnodup : all.Nodup := hc.once.of_map
  rw [hprog, hsplit] at hsub
  rw [hsplit] at hnodup
  exact ⟨m, hmem, pre', post', hprog, earlier_subset hsub hnodup⟩

namespace Programmed

variable (hp : Programmed ms prog all g)

include hp

theorem module_causal {m : Module} (hmem : m ∈ ms) : Dsl.Causal (prog m) :=
  hp.causal.sublist (hp.order.sub m hmem)

theorem compiled : Compiled ms g := (build_spec hp.named hp.built).2.1

theorem output_column {m : Module} (hmem : m ∈ ms) {spec : OpSpec} (hspec : spec ∈ m.ops)
    (hout : c ∈ (remapSpec m.name spec).outputs) (hl : isLocalName c = false) :
    c ∈ all.map Dsl.Statement.column := by
  obtain ⟨raw, hraw, rfl⟩ := List.mem_map.1 hout
  have hraw' := ordinary_of_remap hl
  rw [hraw'] at hl ⊢
  have hassigned := (hp.dsl m hmem).output_column (hp.module_causal hmem) hspec hraw hl
  exact ((hp.order.sub m hmem).map _).subset hassigned

theorem unassigned_kept (hf : PortsFed ms all store) (hx : Execution libm g store s)
    (hl : isLocalName c = false) (hnot : c ∉ all.map Dsl.Statement.column) :
    store.find c = s.store.find c := by
  have hops : ∀ n ∈ g.nodes, c ∈ n.op.outputs →
      ∃ o, n.op = .op o ∧ o.isAnchor = true ∧ Declared ms c := by
    intro n hn hout
    cases ho : n.op with
    | placeholder out =>
      have hreal := hp.compiled.real n hn
      simp [ho, NodeOp.isPlaceholder] at hreal
    | op o =>
      rw [ho] at hout
      rcases hp.compiled.kinds n hn o ho with ⟨ha, hdecl⟩ | ⟨m, hmem, spec, k, hspec, -, -, hop⟩
      · exact ⟨o, rfl, ha, hdecl c hout⟩
      · change c ∈ o.outputs at hout
        rw [(createOp_ports hop).2] at hout
        exact absurd (hp.output_column hmem (List.mem_of_getElem? hspec) hout hl) hnot
  have hunwritten : ∀ n ∈ g.nodes, n.op.writes ≠ some c := by
    intro n hn hw
    obtain ⟨o, ho, ha, -⟩ := hops n hn (mem_outputs_of_writes hw)
    simp [ho, NodeOp.writes, ha] at hw
  rw [find_run_of_unwritten hunwritten hx.run, startState, find_reserveOutputs]
  split_ifs with hres
  · obtain ⟨-, n, hn, hout⟩ := hres
    obtain ⟨-, -, -, hdecl⟩ := hops n hn hout
    have hfed := (hf c hl hdecl).resolve_left hnot
    obtain ⟨t, ht⟩ := Option.isSome_iff_exists.1 hfed
    simp [ht]
  · simp

theorem node_settled (hx : Execution libm g store s) {n : ComputeNode} (hnode : n ∈ g.nodes)
    {o : Op} (ho : n.op = .op o) :
    ∃ ok, s.phase n.ptr = .done ok ∧ Settled libm s.store o ok := by
  obtain ⟨ha, hcomp, -, -⟩ := build_spec hp.named hp.built
  have hfirst : WritesFirst g := writesFirst (ha.compilable hp.named) hcomp hp.ids fun m hmem =>
    (hp.dsl m hmem).flowing (hp.module_causal hmem)
  exact execution_settled hcomp.wf hfirst hx hnode ho

theorem execution_closes (hx : Execution libm g store s) {m : Module} (hmem : m ∈ ms)
    {spec : OpSpec} (hspec : spec ∈ m.ops) :
    ∃ ok, Closes libm m.name s.store spec ok ∧ ∃ n ∈ g.nodes, s.phase n.ptr = .done ok := by
  obtain ⟨ha, hcomp, -, -⟩ := build_spec hp.named hp.built
  obtain ⟨i, hi⟩ := List.mem_iff_getElem?.1 hspec
  obtain ⟨n, hnode, o, ho, hop⟩ :=
    build_opNode hp.built (ha.compilable hp.named) hp.ids hcomp.real hmem hi
  obtain ⟨ok, hphase, hsettled⟩ := hp.node_settled hx hnode ho
  exact ⟨ok, ⟨o, hop, hsettled⟩, n, hnode, hphase⟩

theorem execution_meets (hf : PortsFed ms all store) (hx : Execution libm g store s) :
    Meets libm all store g s (Dsl.evalProgram libm all store) := by
  have hclose : ∀ m ∈ ms, ∀ spec ∈ m.ops, ∃ ok, Closes libm m.name s.store spec ok := by
    intro m hmem spec hspec
    obtain ⟨ok, hcl, -⟩ := hp.execution_closes hx hmem hspec
    exact ⟨ok, hcl⟩
  have hverdict : Dsl.Verdict libm all store s.store (Dsl.evalProgram libm all store) := by
    apply Dsl.evalProgram_verdict hp.causal
    · intro t ht
      obtain ⟨m, hmem, ht⟩ := hp.order.origin t ht
      exact (hp.dsl m hmem).wellFormed t ht
    · intro pre t post hsplit hpre
      obtain ⟨m, hmem, pre', post', hprog, hsub⟩ := hp.order.split hp.causal hsplit
      apply (hp.dsl m hmem).solved_or_error (hp.module_causal hmem) (hclose m hmem) hprog
      exact fun p hp => hpre p (hsub hp)
    · intro c hl hnot
      exact hp.unassigned_kept hf hx hl hnot
  generalize Dsl.evalProgram libm all store = r at hverdict
  cases hverdict with
  | solved hsolved hout =>
    apply Meets.computed
    · intro n hnode
      cases ho : n.op with
      | placeholder out =>
        have hreal := hp.compiled.real n hnode
        simp [ho, NodeOp.isPlaceholder] at hreal
      | op o =>
        obtain ⟨ok, hphase, hsettled⟩ := hp.node_settled hx hnode ho
        rcases hp.compiled.kinds n hnode o ho with ⟨ha, -⟩ | ⟨m, hmem, spec, i, hspec, -, -, hop⟩
        · obtain rfl := hsettled.unique (.computed (compute_anchor ha) rfl)
          exact hphase
        · have hall := (hp.dsl m hmem).closes_of_solved (hp.module_causal hmem) (hclose m hmem)
            fun t ht => hsolved t ((hp.order.sub m hmem).subset ht)
          have hop' : Closes libm m.name s.store spec ok := ⟨o, hop, hsettled⟩
          obtain rfl := hop'.unique (hall spec (List.mem_of_getElem? hspec))
          exact hphase
    · exact fun c hl => (hout c hl).symm
  | refused hsplit hpre hrun ht he hout =>
    obtain ⟨m, hmem, pre', post', hprog, hsub⟩ := hp.order.split hp.causal hsplit
    have herror := (hp.dsl m hmem).closes_of_error (hp.module_causal hmem) (hclose m hmem) hprog
      (fun p hp => hpre p (hsub hp)) he
    obtain ⟨spec, hspec, hfail⟩ := herror
    obtain ⟨ok, hcl, n, hnode, hphase⟩ := hp.execution_closes hx hmem hspec
    obtain rfl := hcl.unique hfail
    exact .failed hnode hphase hsplit hrun ht fun c hl hnot => (hout c hl hnot).symm

end Programmed

end Pipeline

def addsUp : Module :=
  ⟨"a", ["x"], ["y"], [], [⟨"add", ["x", "x"], ["@t0"], []⟩, ⟨"identity", ["@t0"], ["y"], []⟩]⟩

def hands : Module := ⟨"b", ["y"], ["z"], [], [⟨"identity", ["y"], ["z"], []⟩]⟩

def sumStatement : Dsl.Statement := ⟨['y'], .bin (.arith .add) (.col ['x']) (.col ['x'])⟩

def copyStatement : Dsl.Statement := ⟨['z'], .col ['y']⟩

def sumProgram (m : Module) : List Dsl.Statement :=
  if m.name = "a" then [sumStatement] else [copyStatement]

theorem wellFormed_sum : sumStatement.WellFormed :=
  ⟨Lark.Toolkit.Dsl.isIdent_letter rfl, Lark.Toolkit.Dsl.isIdent_letter rfl,
    Lark.Toolkit.Dsl.isIdent_letter rfl, by decide, by decide⟩

theorem wellFormed_copy : copyStatement.WellFormed :=
  ⟨Lark.Toolkit.Dsl.isIdent_letter rfl, Lark.Toolkit.Dsl.isIdent_letter rfl⟩

theorem fromDsl_single {name : String} {inputs outputs : List String} {t : Dsl.Statement}
    {st : Dsl.ParserState} (hwf : t.WellFormed)
    (hgen : Dsl.genProgram [t] ⟨Dsl.start "", [], 0⟩ = .ok st) :
    FromDsl ⟨name, inputs, outputs, [], st.ops⟩ [t] := by
  have hall : ∀ t' ∈ [t], t'.WellFormed := by simpa using hwf
  refine ⟨hall, Dsl.programText [t], Dsl.rendersProgram_text _, ?_⟩
  have hparse := Dsl.parse_program (Dsl.rendersProgram_text [t]) hall (Dsl.start "")
  rw [hgen] at hparse
  exact fromDsl_eq hparse _

theorem fromDsl_sum : ∀ m ∈ [addsUp, hands], FromDsl m (sumProgram m) := by
  intro m hm
  rcases (by simpa using hm : m = addsUp ∨ m = hands) with rfl | rfl
  · exact fromDsl_single wellFormed_sum rfl
  · exact fromDsl_single wellFormed_copy rfl

def sumKeys : List NodeKey :=
  [.input "a" "x", .op "a" 0, .op "a" 1, .output "a" "y", .noop "a",
    .input "b" "y", .op "b" 0, .output "b" "z", .noop "b"]

theorem sum_ids : IdsDistinct [addsUp, hands] := by
  have hkeys : ∀ k, IsKey [addsUp, hands] k → k ∈ sumKeys := by
    intro k hk
    cases k with
    | op m i =>
      obtain ⟨M, hM, rfl, hi⟩ := hk
      rcases (by simpa using hM : M = addsUp ∨ M = hands) with rfl | rfl
      · have hi' : i < 2 := hi
        interval_cases i <;> decide
      · have hi' : i < 1 := hi
        interval_cases i
        decide
    | _ =>
      simp only [IsKey, List.mem_cons, List.not_mem_nil, or_false, exists_eq_or_imp,
        exists_eq_left] at hk
      rcases hk with ⟨rfl, hk⟩ | ⟨rfl, hk⟩ <;> simp_all [addsUp, hands, sumKeys]
  have hinj : ∀ k ∈ sumKeys, ∀ k' ∈ sumKeys, k.id = k'.id → k = k' := by decide
  exact fun k k' hk hk' => hinj k (hkeys k hk) k' (hkeys k' hk')

theorem sum_interleaves :
    Interleaves [addsUp, hands] sumProgram [sumStatement, copyStatement] := by
  constructor
  · intro m hm
    rcases (by simpa using hm : m = addsUp ∨ m = hands) with rfl | rfl
    · exact List.sublist_append_left [sumStatement] [copyStatement]
    · exact List.sublist_append_right [sumStatement] [copyStatement]
  · intro t ht
    rcases (by simpa using ht : t = sumStatement ∨ t = copyStatement) with rfl | rfl
    · exact ⟨addsUp, by simp, List.mem_singleton.2 rfl⟩
    · exact ⟨hands, by simp, List.mem_singleton.2 rfl⟩

theorem sum_causal : Dsl.Causal [sumStatement, copyStatement] := ⟨by decide, by decide, by decide⟩

theorem sum_ports : PortsFed [addsUp, hands] [sumStatement, copyStatement] fedX := by
  intro c hl hdecl
  have hports : ∀ m ∈ [addsUp, hands], ∀ c, c ∈ m.inputs ∨ c ∈ m.outputs →
      c ∈ [sumStatement, copyStatement].map Dsl.Statement.column ∨ (fedX.find c).isSome := by
    intro m hm c hc
    rcases (by simpa using hm : m = addsUp ∨ m = hands) with rfl | rfl <;>
      rcases (by simpa [addsUp, hands] using hc : c = _ ∨ c = _) with rfl | rfl <;> decide
  obtain ⟨m, hm, hin | hout | rfl | ⟨-, hdeps⟩⟩ := hdecl
  · exact hports m hm c (.inl hin)
  · exact hports m hm c (.inr hout)
  · simp [isLocalName, startsWithAt] at hl
  · rcases (by simpa using hm : m = addsUp ∨ m = hands) with rfl | rfl <;> exact absurd rfl hdeps

theorem sum_programmed : ∃ g,
    Programmed [addsUp, hands] sumProgram [sumStatement, copyStatement] g := by
  have hbuilds : (build [addsUp, hands]).isOk = true := by decide +kernel
  cases hb : build [addsUp, hands] with
  | error e => simp [hb, Except.isOk, Except.toBool] at hbuilds
  | ok g =>
    exact ⟨g, ⟨by decide, by decide⟩, sum_ids, fromDsl_sum, sum_interleaves, sum_causal, hb⟩

end Lark.Column.Biz
