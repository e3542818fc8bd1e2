import Lark.Column.Exec.Execution

namespace Lark.Column.Exec

open Lark.Base Relation

inductive Settled (libm : Libm) (store : TensorStore) (o : Op) : Bool → Prop
  | computed {store' : TensorStore} (h : o.compute libm store = .ok store')
    (hs : store'.find = store.find) : Settled libm store o true
  | failed {e : Exn} (h : o.compute libm store = .error e) : Settled libm store o false

inductive Progress (libm : Libm) (store : TensorStore) (o : Op) : Phase → Prop
  | idle : Progress libm store o .idle
  | reading {values : List Tensor} (ha : o.isAnchor = false)
    (hlen : values.length ≤ o.kernel.arity)
    (h : ∀ (i : Nat) (t : Tensor), values[i]? = some t → o.input store i = .ok t) :
    Progress libm store o (.reading values)
  | done {ok : Bool} (h : Settled libm store o ok) : Progress libm store o (.done ok)

structure WritesFirst (g : ComputeGraph) : Prop where
  before : ∀ n ∈ g.nodes, ∀ w ∈ g.nodes, ∀ c ∈ w.op.writes, c ∈ n.op.reads →
    TransGen (Kahn.DependsOn g.depsOf) n.ptr w.ptr
  single : ∀ n ∈ g.nodes, ∀ w ∈ g.nodes, ∀ c ∈ n.op.writes, w.op.writes = some c → n.ptr = w.ptr

theorem runKernel_agree {libm : Libm} {k : Kernel} {f f' : Nat → Except Exn Tensor} {t : Tensor}
    (h : ∀ i u, f i = .ok u ↔ f' i = .ok u) (hk : runKernel libm k f = .ok t) :
    runKernel libm k f' = .ok t := by
  rw [← hk]
  symm
  apply runKernel_congr
  intro i hi
  cases hf : f i with
  | ok u => exact ((h i u).1 hf).symm
  | error e =>
    obtain ⟨e', he⟩ := runKernel_error libm k hi hf
    rw [hk] at he
    cases he

theorem Settled.unique {libm : Libm} {store : TensorStore} {o : Op} {a b : Bool}
    (h : Settled libm store o a) (h' : Settled libm store o b) : a = b := by
  cases h with
  | computed h _ =>
    cases h' with
    | computed _ _ => rfl
    | failed h' =>
      rw [h] at h'
      cases h'
  | failed h =>
    cases h' with
    | computed h' _ =>
      rw [h] at h'
      cases h'
    | failed _ => rfl

section Frame

variable {libm : Libm} {store store' : TensorStore} {o : Op} {ph : Phase}

theorem find_set_of_find {c : String} {t : Tensor} (h : store.find c = some t) :
    (store.set c t).find = store.find := by
  simp [TensorStore.set, ← h]

theorem reads_op (ha : o.isAnchor = false) :
    (NodeOp.op o).reads = o.inputs.take o.kernel.arity := by
  simp [NodeOp.reads, ha]

theorem writes_op (ha : o.isAnchor = false) : (NodeOp.op o).writes = o.outputs.head? := by
  simp [NodeOp.writes, ha]

theorem compute_anchor (ha : o.isAnchor = true) : o.compute libm store = .ok store := by
  simp [Op.compute, ha]

theorem compute_ok_iff (ha : o.isAnchor = false) : o.compute libm store = .ok store' ↔
    ∃ out t, o.outputs.head? = some out ∧ runKernel libm o.kernel (o.input store) = .ok t ∧
      store' = store.set out t := by
  simp only [Op.compute, ha, Bool.false_eq_true, if_false]
  cases runKernel libm o.kernel (o.input store) with
  | error e => simp
  | ok t =>
    cases hout : o.outputs with
    | nil => simp [Op.output, hout]
    | cons out outs => simp [Op.output, hout, eq_comm]

theorem kernel_frame (ha : o.isAnchor = false)
    (hr : ∀ c ∈ (NodeOp.op o).reads, store.find c = store'.find c) :
    runKernel libm o.kernel (o.input store) = runKernel libm o.kernel (o.input store') := by
  rw [reads_op ha] at hr
  exact runKernel_congr libm o.kernel fun i hi => input_congr hr hi

theorem Settled.frame {ok : Bool} (h : Settled libm store o ok)
    (hr : ∀ c ∈ (NodeOp.op o).reads, store.find c = store'.find c)
    (hw : ∀ c ∈ (NodeOp.op o).writes, store.find c = store'.find c) :
    Settled libm store' o ok := by
  cases ha : o.isAnchor with
  | true =>
    cases h with
    | computed _ _ => exact .computed (compute_anchor ha) rfl
    | failed h => simp [compute_anchor ha] at h
  | false =>
    have hkernel := @kernel_frame libm _ _ _ ha hr
    cases h with
    | computed h hs =>
      obtain ⟨out, t, hout, hk, rfl⟩ := (compute_ok_iff ha).1 h
      have hkept : store'.find out = some t := by
        rw [← hw out (by rw [writes_op ha, hout]; rfl), ← hs]
        simp
      exact .computed ((compute_ok_iff ha).2 ⟨out, t, hout, hkernel ▸ hk, rfl⟩)
        (find_set_of_find hkept)
    | failed h =>
      cases hc : o.compute libm store' with
      | error e => exact .failed hc
      | ok s =>
        obtain ⟨out, t, hout, hk, rfl⟩ := (compute_ok_iff ha).1 hc
        have hok : o.compute libm store = .ok (store.set out t) :=
          (compute_ok_iff ha).2 ⟨out, t, hout, hkernel ▸ hk, rfl⟩
        simp [hok] at h

theorem Progress.frame (h : Progress libm store o ph)
    (hr : ∀ c ∈ (NodeOp.op o).reads, store.find c = store'.find c)
    (hw : ∀ c ∈ (NodeOp.op o).writes, store.find c = store'.find c) :
    Progress libm store' o ph := by
  cases h with
  | idle => exact .idle
  | @reading values ha hlen h =>
    refine .reading ha hlen fun i t hget => ?_
    have hi : i < o.kernel.arity :=
      lt_of_lt_of_le (List.getElem?_eq_some_iff.1 hget).1 hlen
    rw [reads_op ha] at hr
    rw [← input_congr hr hi]
    exact h i t hget
  | done h => exact .done (h.frame hr hw)

end Frame

section Step

variable {libm : Libm} {g : ComputeGraph} {s t : ExecState} {n : ComputeNode} {o : Op}

theorem progress_anchor (ha : o.isAnchor = true) (ho : n.op = .op o) :
    Progress libm (s.advance libm n).store o ((s.advance libm n).phase n.ptr) := by
  simp only [ExecState.advance, ExecState.put, ExecState.next, ho, NodeOp.effect, ha, if_true,
    Function.update_self]
  exact .done (.computed (compute_anchor ha) rfl)

theorem Progress.advance (h : Progress libm s.store o (s.phase n.ptr)) (ho : n.op = .op o)
    (ha : o.isAnchor = false) (hrun : (s.phase n.ptr).isDone = false)
    (hself : ∀ out ∈ o.outputs.head?, out ∉ (NodeOp.op o).reads) :
    Progress libm (s.advance libm n).store o ((s.advance libm n).phase n.ptr) := by
  simp only [ExecState.advance, ExecState.put, ExecState.next, ho, NodeOp.effect, ha,
    Bool.false_eq_true, if_false, Function.update_self]
  generalize s.phase n.ptr = ph at h hrun
  cases h with
  | idle => exact .reading ha (Nat.zero_le _) (by simp)
  | done h => simp [Phase.isDone] at hrun
  | @reading values ha hlen hread =>
    simp only [Op.effect]
    split_ifs with hlt
    · cases hin : o.input s.store values.length with
      | error e =>
        obtain ⟨e', hfail⟩ := runKernel_error libm o.kernel hlt hin
        refine .done (.failed (e := e') ?_)
        simp [Op.compute, ha, applyWrite, hfail]
      | ok x =>
        refine .reading ha (by simp; omega) fun i y hget => ?_
        rcases getElem?_snoc.1 hget with hget | ⟨rfl, rfl⟩
        · exact hread i y hget
        · exact hin
    · have hkernel : runKernel libm o.kernel (readValues values) =
          runKernel libm o.kernel (o.input s.store) := by
        refine runKernel_congr libm o.kernel fun i hi => ?_
        have hget : values[i]? = some values[i] := List.getElem?_eq_getElem (by omega)
        simp [readValues, hget, hread i _ hget]
      rw [hkernel]
      cases hk : runKernel libm o.kernel (o.input s.store) with
      | error e =>
        refine .done (.failed (e := e) ?_)
        simp [Op.compute, ha, applyWrite, hk]
      | ok x =>
        cases hout : o.outputs.head? with
        | none =>
          have hnil : o.outputs = [] := by simpa using hout
          refine .done (.failed (e := .undefined "outputs_ index out of range") ?_)
          simp [Op.compute, ha, applyWrite, hk, Op.output, hnil]
        | some out =>
          have hframe := @kernel_frame libm s.store (s.store.set out x) o ha fun c hc => by
              have hne : c ≠ out := by
                rintro rfl
                exact hself c hout hc
              rw [TensorStore.set_find_of_ne _ _ _ hne]
          refine .done (.computed ((compute_ok_iff ha).2 ⟨out, x, hout, hframe ▸ hk, rfl⟩) ?_)
          exact find_set_of_find (by simp [applyWrite])

def Advancing (libm : Libm) (g : ComputeGraph) (s : ExecState) : Prop :=
  ∀ n ∈ g.nodes, ∀ o, n.op = .op o → Progress libm s.store o (s.phase n.ptr)

theorem advancing_start (libm : Libm) (g : ComputeGraph) (store : TensorStore) :
    Advancing libm g (startState g store) := fun _ _ _ _ => .idle

theorem advancing_step (hwf : g.WellFormed) (hg : WritesFirst g) (hi : ExecInv g s)
    (h : Advancing libm g s) (hst : Step libm g s t) : Advancing libm g t := by
  cases hst with
  | node m hm he =>
    have hunread : ∀ n ∈ g.nodes, (∀ d ∈ n.deps, (s.phase d).isDone = true) →
        ∀ c ∈ m.op.writes, c ∉ n.op.reads := by
      intro n hn hd c hc hr
      have hdone := hi.done_of_path hwf hn hd (hg.before n hn m hm c hc hr)
      rw [he.running] at hdone
      cases hdone
    intro n hn o ho
    rcases eq_or_ne n.ptr m.ptr with hp | hp
    · obtain rfl := hwf.node_eq hn hm hp
      cases ha : o.isAnchor with
      | true => exact progress_anchor ha ho
      | false =>
        apply (h n hn o ho).advance ho ha he.running
        intro out hout
        rw [← ho]
        exact hunread n hn he.deps out (by rw [ho, writes_op ha]; exact hout)
    · rw [advance_phase_of_ne hp]
      cases hph : s.phase n.ptr with
      | idle => exact .idle
      | _ =>
        have hprog := h n hn o ho
        rw [hph] at hprog
        have hkept : ∀ c, (∀ x, (s.next libm m).2 ≠ some (c, x)) →
            s.store.find c = (s.advance libm m).store.find c := fun c hne =>
          (find_applyWrite_of_ne hne).symm
        refine hprog.frame (fun c hc => hkept c fun x hx => ?_) fun c hc => hkept c fun x hx => ?_
        · have hwait := hi.waited n hn (by simp [hph])
          exact hunread n hn hwait c (effect_writes hx).1 (ho ▸ hc)
        · exact hp (hg.single n hn m hm c (ho ▸ hc) (effect_writes hx).1)

theorem find_run_of_unwritten {c : String} (hw : ∀ n ∈ g.nodes, n.op.writes ≠ some c)
    (h : ReflTransGen (Step libm g) s t) : t.store.find c = s.store.find c := by
  induction h with
  | refl => rfl
  | tail _ hst ih =>
    rw [← ih]
    cases hst with
    | node n hn _ => exact find_applyWrite_of_ne fun x hx => hw n hn (effect_writes hx).1

theorem execution_settled (hwf : g.WellFormed) (hg : WritesFirst g) {store : TensorStore}
    (h : Execution libm g store s) (hn : n ∈ g.nodes) (ho : n.op = .op o) :
    ∃ ok, s.phase n.ptr = .done ok ∧ Settled libm s.store o ok := by
  have hinv : ExecInv g s ∧ Advancing libm g s := by
    apply run_invariant (I := fun s => ExecInv g s ∧ Advancing libm g s) ?_ ?_ h.run
    · intro s t hs hst
      exact ⟨execInv_step hs.1 hst hwf, advancing_step hwf hg hs.1 hs.2 hst⟩
    · exact ⟨execInv_start g store, advancing_start libm g store⟩
  have hprog := hinv.2 n hn o ho
  have hdone := h.finished n hn
  generalize s.phase n.ptr = ph at hprog hdone
  cases hprog with
  | idle => simp [Phase.isDone] at hdone
  | reading _ _ _ => simp [Phase.isDone] at hdone
  | done h => exact ⟨_, rfl, h⟩

end Step

end Lark.Column.Exec
