import Lark.Base.Fold
import Lark.Base.Transition
import Lark.Column.Exec.ComputeGraph

namespace Lark.Column.Exec

open Lark.Base Relation

def Kernel.arity : Kernel → Nat
  | .binaryArith _ | .compare _ | .filter | .dot => 2
  | .scalarArith _ _ | .unary _ | .reduce _ | .compareScalar _ _ | .cast _ | .quantize
  | .dequantize | .identity => 1
  | .select => 3
  | .const _ _ _ => 0

namespace NodeOp

def reads : NodeOp → List String
  | op o => if o.isAnchor then [] else o.inputs.take o.kernel.arity
  | placeholder _ => []

def writes : NodeOp → Option String
  | op o => if o.isAnchor then none else o.outputs.head?
  | placeholder _ => none

end NodeOp

inductive Phase where
  | idle
  | reading (values : List Tensor)
  | done (ok : Bool)

def Phase.isDone : Phase → Bool
  | done _ => true
  | _ => false

def readValues (values : List Tensor) (i : Nat) : Except Exn Tensor :=
  match values[i]? with
  | some t => .ok t
  | none => .error (.undefined "an input the kernel has not read")

-- What an op does next: one read of an input, or the kernel on what was read and the write.
def Op.effect (libm : Libm) (o : Op) (store : TensorStore) : Phase →
    Phase × Option (String × Tensor)
  | .idle => (.reading [], none)
  | .reading values =>
    if values.length < o.kernel.arity then
      match o.input store values.length with
      | .ok t => (.reading (values ++ [t]), none)
      | .error _ => (.done false, none)
    else
      match runKernel libm o.kernel (readValues values), o.outputs.head? with
      | .ok t, some out => (.done true, some (out, t))
      | _, _ => (.done false, none)
  | .done ok => (.done ok, none)

def NodeOp.effect (libm : Libm) (store : TensorStore) : NodeOp → Phase →
    Phase × Option (String × Tensor)
  | .placeholder _, _ => (.done false, none)
  | .op o, ph => if o.isAnchor then (.done true, none) else o.effect libm store ph

def applyWrite (store : TensorStore) : Option (String × Tensor) → TensorStore
  | none => store
  | some (name, t) => store.set name t

structure ExecState where
  phase : Nat → Phase
  store : TensorStore

namespace ExecState

def put (s : ExecState) (p : Nat) (e : Phase × Option (String × Tensor)) : ExecState :=
  ⟨Function.update s.phase p e.1, applyWrite s.store e.2⟩

def next (libm : Libm) (n : ComputeNode) (s : ExecState) : Phase × Option (String × Tensor) :=
  n.op.effect libm s.store (s.phase n.ptr)

def advance (libm : Libm) (n : ComputeNode) (s : ExecState) : ExecState :=
  s.put n.ptr (s.next libm n)

end ExecState

structure Enabled (s : ExecState) (n : ComputeNode) : Prop where
  deps : ∀ d ∈ n.deps, (s.phase d).isDone = true
  running : (s.phase n.ptr).isDone = false

-- Every interleaving of the nodes' coroutines, one read or write at a time.
inductive Step (libm : Libm) (g : ComputeGraph) (s : ExecState) : ExecState → Prop
  | node (n) (hn : n ∈ g.nodes) (he : Enabled s n) : Step libm g s (s.advance libm n)

def startState (g : ComputeGraph) (store : TensorStore) : ExecState :=
  ⟨fun _ => .idle, g.reserveOutputs store⟩

def Finished (g : ComputeGraph) (s : ExecState) : Prop :=
  ∀ n ∈ g.nodes, (s.phase n.ptr).isDone = true

structure Execution (libm : Libm) (g : ComputeGraph) (store : TensorStore) (s : ExecState) :
    Prop where
  run : ReflTransGen (Step libm g) (startState g store) s
  finished : Finished g s

section Footprint

variable {libm : Libm} {op op' : NodeOp} {ph : Phase} {store store' : TensorStore}

theorem input_congr {o : Op} {i : Nat}
    (h : ∀ c ∈ o.inputs.take o.kernel.arity, store.find c = store'.find c)
    (hi : i < o.kernel.arity) : o.input store i = o.input store' i := by
  unfold Op.input
  cases hc : o.inputs[i]? with
  | none => rfl
  | some c => simp only [h c (List.mem_of_getElem? (by rwa [List.getElem?_take_of_lt hi]))]

theorem effect_congr (h : ∀ c ∈ op.reads, store.find c = store'.find c) :
    op.effect libm store ph = op.effect libm store' ph := by
  cases op with
  | placeholder out => rfl
  | op o =>
    simp only [NodeOp.effect]
    split_ifs with ha
    · rfl
    · simp only [NodeOp.reads, ha, Bool.false_eq_true, if_false] at h
      cases ph with
      | idle => rfl
      | done ok => rfl
      | reading values =>
        simp only [Op.effect]
        split_ifs with hlt
        · rw [input_congr h hlt]
        · rfl

theorem effect_writes {c : String} {t : Tensor} (h : (op.effect libm store ph).2 = some (c, t)) :
    op.writes = some c ∧ (op.effect libm store ph).1 = .done true := by
  cases op with
  | placeholder out => cases h
  | op o =>
    simp only [NodeOp.effect] at h ⊢
    split_ifs at h ⊢ with ha
    simp only [NodeOp.writes, ha, Bool.false_eq_true, if_false]
    cases ph with
    | idle => cases h
    | done ok => cases h
    | reading values =>
      simp only [Op.effect] at h ⊢
      split_ifs at h ⊢ with hlt
      · cases hi : o.input store values.length <;> simp [hi] at h
      · cases hr : runKernel libm o.kernel (readValues values) with
        | error e => simp [hr] at h
        | ok t' =>
          cases ho : o.outputs.head? with
          | none => simp [hr, ho] at h
          | some out =>
            obtain ⟨rfl, rfl⟩ : out = c ∧ t' = t := by simpa [hr, ho] using h
            exact ⟨rfl, rfl⟩

end Footprint

namespace NodeOp

def Conflict (a b : NodeOp) : Prop :=
  (∃ c ∈ a.writes, c ∈ b.reads ∨ b.writes = some c) ∨ ∃ c ∈ b.writes, c ∈ a.reads

theorem Conflict.symm {a b : NodeOp} (h : Conflict a b) : Conflict b a := by
  rcases h with ⟨c, hc, hr | hw⟩ | ⟨c, hc, hr⟩
  · exact .inr ⟨c, hc, hr⟩
  · exact .inl ⟨c, hw, .inr hc⟩
  · exact .inl ⟨c, hc, .inl hr⟩

end NodeOp

section Reserve

theorem find_ensureName (store : TensorStore) (name c : String) :
    (store.ensureName name).find c =
      (store.find c).or (if c = name then some .empty else none) := by
  unfold TensorStore.ensureName
  split_ifs with h hc hc
  · subst hc
    obtain ⟨t, ht⟩ := Option.isSome_iff_exists.1 h
    simp [ht]
  · simp
  · subst hc
    have hnone : store.find c = none := by simpa using h
    simp [hnone]
  · simp [hc]

theorem find_reserve (store : TensorStore) (outs : List String) (c : String) :
    (outs.foldl (fun store out => if out.isEmpty then store else store.ensureNames [out])
      store).find c = (store.find c).or (if c ≠ "" ∧ c ∈ outs then some .empty else none) := by
  induction outs generalizing store with
  | nil => simp
  | cons out outs ih =>
    rw [List.foldl_cons, ih]
    by_cases hout : out = ""
    · subst hout
      by_cases hc : c = ""
      · simp [hc]
      · simp [hc]
    · have hempty : out.isEmpty = false := by simpa using hout
      simp only [hempty, Bool.false_eq_true, if_false, TensorStore.ensureNames, List.foldl_cons,
        List.foldl_nil, find_ensureName]
      rcases eq_or_ne c out with rfl | hne
      · simp only [hout, if_true, List.mem_cons, true_or, and_true, ne_eq, not_false_eq_true]
        cases store.find c <;> rfl
      · simp [hne]

theorem find_reserveOutputs (g : ComputeGraph) (store : TensorStore) (c : String) :
    (g.reserveOutputs store).find c = (store.find c).or
      (if c ≠ "" ∧ ∃ n ∈ g.nodes, c ∈ n.op.outputs then some .empty else none) := by
  unfold ComputeGraph.reserveOutputs
  rw [← List.foldl_flatMap, find_reserve]
  simp only [List.mem_flatMap]

theorem mem_outputs_of_writes {op : NodeOp} {c : String} (h : c ∈ op.writes) : c ∈ op.outputs := by
  cases op with
  | placeholder out => cases h
  | op o =>
    simp only [NodeOp.writes] at h
    split_ifs at h
    · cases h
    · exact List.mem_of_head? h

end Reserve

section Diamond

variable {libm : Libm} {g : ComputeGraph} {s t : ExecState} {n m : ComputeNode}

def Reserved (g : ComputeGraph) (store : TensorStore) : Prop :=
  ∀ n ∈ g.nodes, ∀ c ∈ n.op.writes, c ≠ "" → (store.find c).isSome

structure ExecInv (g : ComputeGraph) (s : ExecState) : Prop where
  waited : ∀ n ∈ g.nodes, s.phase n.ptr ≠ .idle → ∀ d ∈ n.deps, (s.phase d).isDone = true
  reserved : Reserved g s.store

theorem find_applyWrite_of_ne {store : TensorStore} {w : Option (String × Tensor)} {c : String}
    (h : ∀ t, w ≠ some (c, t)) : (applyWrite store w).find c = store.find c := by
  cases w with
  | none => rfl
  | some p =>
    obtain ⟨c', t⟩ := p
    have hne : c ≠ c' := by
      rintro rfl
      exact h t rfl
    simp [applyWrite, hne]

theorem isSome_applyWrite {store : TensorStore} (w : Option (String × Tensor)) {c : String}
    (h : (store.find c).isSome) : ((applyWrite store w).find c).isSome := by
  cases w with
  | none => exact h
  | some p =>
    obtain ⟨c', t⟩ := p
    rcases eq_or_ne c c' with rfl | hne
    · simp [applyWrite]
    · simpa [applyWrite, hne] using h

theorem set_comm {store : TensorStore} {a b : String} (hne : a ≠ b)
    (h : (store.find a).isSome ∨ (store.find b).isSome) (x y : Tensor) :
    (store.set a x).set b y = (store.set b y).set a x := by
  have hfind : ((store.set a x).set b y).find = ((store.set b y).set a x).find := by
    simp [TensorStore.set, Function.update_comm hne]
  have horder : ((store.set a x).set b y).order = ((store.set b y).set a x).order := by
    rcases h with h | h <;> simp [TensorStore.set, hne, hne.symm, h]
  generalize (store.set a x).set b y = l at *
  generalize (store.set b y).set a x = r at *
  cases l
  cases r
  simp_all

theorem advance_phase_of_ne {p : Nat} (h : p ≠ n.ptr) :
    (s.advance libm n).phase p = s.phase p := by
  simp [ExecState.advance, ExecState.put, h]

theorem isDone_advance {p : Nat} (he : Enabled s n) (h : (s.phase p).isDone = true) :
    (s.advance libm n).phase p = s.phase p := by
  refine advance_phase_of_ne ?_
  rintro rfl
  rw [he.running] at h
  cases h

theorem execInv_start (g : ComputeGraph) (store : TensorStore) :
    ExecInv g (startState g store) := by
  refine ⟨fun n _ hne => absurd rfl hne, fun n hn c hc hne => ?_⟩
  have hlisted : ∃ n ∈ g.nodes, c ∈ n.op.outputs := ⟨n, hn, mem_outputs_of_writes hc⟩
  simp only [startState, find_reserveOutputs, hne, ne_eq, not_false_eq_true, hlisted, and_self,
    if_true]
  cases store.find c <;> rfl

theorem execInv_step (h : ExecInv g s) (hst : Step libm g s t) (hwf : g.WellFormed) :
    ExecInv g t := by
  cases hst with
  | node n hn he =>
    refine ⟨fun m hm hne d hd => ?_, fun m hm c hc hne => ?_⟩
    · have hdone : (s.phase d).isDone = true := by
        rcases eq_or_ne m.ptr n.ptr with hp | hp
        · obtain rfl := hwf.node_eq hm hn hp
          exact he.deps d hd
        · rw [advance_phase_of_ne hp] at hne
          exact h.waited m hm hne d hd
      rw [isDone_advance he hdone]
      exact hdone
    · exact isSome_applyWrite _ (h.reserved m hm c hc hne)

theorem next_advance (hp : n.ptr ≠ m.ptr) (hc : ¬ n.op.Conflict m.op) :
    (s.advance libm n).next libm m = s.next libm m := by
  unfold ExecState.next
  rw [advance_phase_of_ne hp.symm]
  refine effect_congr fun c hr => find_applyWrite_of_ne fun t ht => hc ?_
  exact .inl ⟨c, (effect_writes ht).1, .inl hr⟩

theorem applyWrite_comm {store : TensorStore} {w w' : Option (String × Tensor)}
    (h : ∀ a x b y, w = some (a, x) → w' = some (b, y) →
      a ≠ b ∧ ((store.find a).isSome ∨ (store.find b).isSome)) :
    applyWrite (applyWrite store w) w' = applyWrite (applyWrite store w') w := by
  rcases w with _ | ⟨a, x⟩
  · rfl
  · rcases w' with _ | ⟨b, y⟩
    · rfl
    · obtain ⟨hne, hsome⟩ := h a x b y rfl rfl
      exact set_comm hne hsome x y

theorem advance_comm (hn : n ∈ g.nodes) (hm : m ∈ g.nodes) (hp : n.ptr ≠ m.ptr)
    (hc : ¬ n.op.Conflict m.op) (hr : Reserved g s.store) :
    (s.advance libm n).advance libm m = (s.advance libm m).advance libm n := by
  have hnext : (s.advance libm n).next libm m = s.next libm m := next_advance hp hc
  have hnext' : (s.advance libm m).next libm n = s.next libm n :=
    next_advance hp.symm fun h => hc h.symm
  have hwrites : applyWrite (applyWrite s.store (s.next libm n).2) (s.next libm m).2 =
      applyWrite (applyWrite s.store (s.next libm m).2) (s.next libm n).2 := by
    refine applyWrite_comm fun a x b y ha hb => ?_
    have hwa := (effect_writes ha).1
    have hwb := (effect_writes hb).1
    have hab : a ≠ b := by
      rintro rfl
      exact hc (.inl ⟨a, hwa, .inr hwb⟩)
    refine ⟨hab, ?_⟩
    rcases eq_or_ne a "" with rfl | hne
    · exact .inr (hr m hm b hwb hab.symm)
    · exact .inl (hr n hn a hwa hne)
  have hphases := Function.update_comm hp (s.next libm n).1 (s.next libm m).1 s.phase
  rw [ExecState.advance, hnext, ExecState.advance, ExecState.advance, hnext', ExecState.advance]
  simp only [ExecState.put, hwrites, hphases]

def RaceFree (g : ComputeGraph) : Prop :=
  ∀ n ∈ g.nodes, ∀ m ∈ g.nodes, n.ptr ≠ m.ptr → n.op.Conflict m.op →
    TransGen (Kahn.DependsOn g.depsOf) n.ptr m.ptr ∨ TransGen (Kahn.DependsOn g.depsOf) m.ptr n.ptr

theorem ExecInv.done_of_path (h : ExecInv g s) (hwf : g.WellFormed) (hn : n ∈ g.nodes)
    (hd : ∀ d ∈ n.deps, (s.phase d).isDone = true) {p : Nat}
    (hp : TransGen (Kahn.DependsOn g.depsOf) n.ptr p) : (s.phase p).isDone = true := by
  induction hp with
  | single hdep =>
    rw [Kahn.DependsOn, hwf.depsOf_eq hn] at hdep
    exact hd _ hdep
  | tail _ hdep ih =>
    obtain ⟨m, hm, rfl, hmem⟩ := ComputeGraph.WellFormed.mem_of_depsOf hdep
    refine h.waited m hm ?_ _ hmem
    intro hidle
    rw [hidle] at ih
    cases ih

theorem Enabled.advance (he : Enabled s n) (he' : Enabled s m) (hp : n.ptr ≠ m.ptr) :
    Enabled (s.advance libm m) n := by
  refine ⟨fun d hd => ?_, ?_⟩
  · rw [isDone_advance he' (he.deps d hd)]
    exact he.deps d hd
  · rw [advance_phase_of_ne hp]
    exact he.running

theorem step_diamond (hwf : g.WellFormed) (hr : RaceFree g) {u : ExecState} (h : ExecInv g s)
    (ht : Step libm g s t) (hu : Step libm g s u) :
    t = u ∨ ∃ v, Step libm g t v ∧ Step libm g u v := by
  obtain ⟨n, hn, he⟩ := ht
  obtain ⟨m, hm, he'⟩ := hu
  rcases eq_or_ne n.ptr m.ptr with hp | hp
  · obtain rfl := hwf.node_eq hn hm hp
    exact .inl rfl
  · have hc : ¬ n.op.Conflict m.op := by
      intro hc
      rcases hr n hn m hm hp hc with hpath | hpath
      · have := h.done_of_path hwf hn he.deps hpath
        rw [he'.running] at this
        cases this
      · have := h.done_of_path hwf hm he'.deps hpath
        rw [he.running] at this
        cases this
    refine .inr ⟨_, .node m hm (he'.advance he hp.symm), ?_⟩
    rw [advance_comm hn hm hp hc h.reserved]
    exact .node n hn (he.advance he' hp)

theorem Finished.no_step (h : Finished g s) (t : ExecState) : ¬ Step libm g s t := by
  rintro ⟨n, hn, he⟩
  have := h n hn
  rw [he.running] at this
  cases this

theorem execution_unique (hwf : g.WellFormed) (hr : RaceFree g) {store : TensorStore}
    (hs : Execution libm g store s) (ht : Execution libm g store t) : s = t :=
  final_unique (fun _ _ h hst => execInv_step h hst hwf)
    (fun _ _ _ h ht hu => step_diamond hwf hr h ht hu) (execInv_start g store) hs.run ht.run
    hs.finished.no_step ht.finished.no_step

end Diamond

section Sequential

theorem runKernel_congr (libm : Libm) (k : Kernel) {f f' : Nat → Except Exn Tensor}
    (h : ∀ i < k.arity, f i = f' i) : runKernel libm k f = runKernel libm k f' := by
  cases k with
  | select => simp only [runKernel, h 0 (by decide), h 1 (by decide), h 2 (by decide)]
  | const value dtype size => rfl
  | binaryArith op => simp only [runKernel, h 0 (by simp [Kernel.arity]), h 1 (by simp [Kernel.arity])]
  | compare op => simp only [runKernel, h 0 (by simp [Kernel.arity]), h 1 (by simp [Kernel.arity])]
  | filter => simp only [runKernel, h 0 (by decide), h 1 (by decide)]
  | dot => simp only [runKernel, h 0 (by decide), h 1 (by decide)]
  | _ => simp only [runKernel, h 0 (by simp [Kernel.arity])]

theorem bind_fails {α β : Type} {x : Except Exn α} {y : α → Except Exn β}
    (h : (∃ e, x = .error e) ∨ ∀ a, ∃ e, y a = .error e) : ∃ e, (x >>= y) = .error e := by
  rcases h with ⟨e, rfl⟩ | h
  · exact ⟨e, rfl⟩
  · cases x with
    | error e => exact ⟨e, rfl⟩
    | ok a => exact h a

theorem runKernel_error (libm : Libm) (k : Kernel) {f : Nat → Except Exn Tensor} {i : Nat}
    (hi : i < k.arity) {e : Exn} (he : f i = .error e) : ∃ e', runKernel libm k f = .error e' := by
  have hone : i < 1 → ∀ y : Tensor → Except Exn Tensor, ∃ e', (f 0 >>= y) = .error e' := by
    intro hlt y
    obtain rfl : i = 0 := by omega
    exact bind_fails (.inl ⟨e, he⟩)
  have htwo : i < 2 → ∀ y : Tensor → Tensor → Except Exn Tensor,
      ∃ e', (f 0 >>= fun a => f 1 >>= y a) = .error e' := by
    intro hlt y
    rcases Nat.lt_succ_iff_lt_or_eq.1 hlt with hlt | rfl
    · exact hone hlt _
    · exact bind_fails (.inr fun a => bind_fails (.inl ⟨e, he⟩))
  have hthree : i < 3 → ∀ y : Tensor → Tensor → Tensor → Except Exn Tensor,
      ∃ e', (f 0 >>= fun a => f 1 >>= fun b => f 2 >>= y a b) = .error e' := by
    intro hlt y
    rcases Nat.lt_succ_iff_lt_or_eq.1 hlt with hlt | rfl
    · exact htwo hlt _
    · exact bind_fails (.inr fun a => bind_fails (.inr fun b => bind_fails (.inl ⟨e, he⟩)))
  cases k with
  | select => exact hthree hi _
  | const value dtype size => cases hi
  | binaryArith op => exact htwo hi _
  | compare op => exact htwo hi _
  | filter => exact htwo hi _
  | dot => exact htwo hi _
  | identity =>
    obtain rfl : i = 0 := by simpa [Kernel.arity] using hi
    exact ⟨e, he⟩
  | _ => exact hone hi _

-- ComputeGraph::Execute runs a node to its end before it takes the next one.
def runNode (libm : Libm) (n : ComputeNode) (s : ExecState) : ExecState :=
  match n.op with
  | .placeholder _ => s.put n.ptr (.done false, none)
  | .op o =>
    match o.compute libm s.store with
    | .ok store => ⟨Function.update s.phase n.ptr (.done true), store⟩
    | .error _ => s.put n.ptr (.done false, none)

def executeIn (libm : Libm) (g : ComputeGraph) (order : List Nat) (s : ExecState) : ExecState :=
  order.foldl (fun s p => match g.nodes.find? (·.ptr = p) with
    | some n => runNode libm n s
    | none => s) s

def execute (libm : Libm) (g : ComputeGraph) (store : TensorStore) : ExecState :=
  executeIn libm g g.topo (startState g store)

variable {libm : Libm} {g : ComputeGraph} {s t : ExecState} {n : ComputeNode} {o : Op}

theorem put_put (s : ExecState) (p : Nat) (ph : Phase) (e : Phase × Option (String × Tensor)) :
    (s.put p (ph, none)).put p e = s.put p e := by
  simp [ExecState.put, applyWrite]

theorem compute_reads (ha : o.isAnchor = false) {values : List Tensor}
    (hlen : values.length = o.kernel.arity)
    (hread : ∀ (i : Nat) (t : Tensor), values[i]? = some t → o.input s.store i = .ok t)
    (ho : n.op = .op o) :
    runNode libm n s = s.put n.ptr (o.effect libm s.store (.reading values)) := by
  have hkernel : runKernel libm o.kernel (readValues values) =
      runKernel libm o.kernel (o.input s.store) := by
    refine runKernel_congr libm o.kernel fun i hi => ?_
    have hget : values[i]? = some values[i] := List.getElem?_eq_getElem (hlen ▸ hi)
    simp [readValues, hget, hread i _ hget]
  simp only [runNode, ho, Op.compute, ha, Bool.false_eq_true, if_false, Op.effect, hlen, lt_irrefl,
    hkernel]
  cases runKernel libm o.kernel (o.input s.store) with
  | error e => rfl
  | ok t =>
    cases hout : o.outputs with
    | nil => simp [Op.output, hout]
    | cons out outs => simp [Op.output, hout, ExecState.put, applyWrite]

theorem runNode_reading (hn : n ∈ g.nodes) (ho : n.op = .op o) (ha : o.isAnchor = false)
    (hd : ∀ d ∈ n.deps, (s.phase d).isDone = true) (hself : n.ptr ∉ n.deps) (values : List Tensor)
    (hle : values.length ≤ o.kernel.arity)
    (hread : ∀ (i : Nat) (t : Tensor), values[i]? = some t → o.input s.store i = .ok t) :
    ReflTransGen (Step libm g) (s.put n.ptr (.reading values, none)) (runNode libm n s) := by
  have he : ∀ values', Enabled (s.put n.ptr (.reading values', none)) n := by
    refine fun values' => ⟨fun d hdep => ?_, by simp [ExecState.put, Phase.isDone]⟩
    have hne : d ≠ n.ptr := by
      rintro rfl
      exact hself hdep
    simpa [ExecState.put, hne] using hd d hdep
  have hnext : ∀ values', (s.put n.ptr (.reading values', none)).advance libm n =
      s.put n.ptr (o.effect libm s.store (.reading values')) := by
    intro values'
    rw [ExecState.advance, put_put]
    simp [ExecState.next, ExecState.put, ho, NodeOp.effect, ha, applyWrite]
  induction hk : o.kernel.arity - values.length generalizing values with
  | zero =>
    rw [compute_reads ha (by omega) hread ho, ← hnext]
    exact .single (.node n hn (he values))
  | succ k ih =>
    have hlt : values.length < o.kernel.arity := by omega
    have hstep : Step libm g (s.put n.ptr (.reading values, none))
        (s.put n.ptr (o.effect libm s.store (.reading values))) := by
      rw [← hnext]
      exact .node n hn (he values)
    cases hi : o.input s.store values.length with
    | error e =>
      obtain ⟨e', hfail⟩ := runKernel_error libm o.kernel hlt hi
      have hrun : runNode libm n s = s.put n.ptr (.done false, none) := by
        simp [runNode, ho, Op.compute, ha, hfail]
      have hdone : o.effect libm s.store (.reading values) = (.done false, none) := by
        simp [Op.effect, hlt, hi]
      rw [hrun, ← hdone]
      exact .single hstep
    | ok t =>
      have hmore : o.effect libm s.store (.reading values) = (.reading (values ++ [t]), none) := by
        simp [Op.effect, hlt, hi]
      rw [hmore] at hstep
      refine .head hstep (ih (values ++ [t]) (by simp; omega) ?_ (by simp; omega))
      intro i t' hget
      rcases getElem?_snoc.1 hget with hget | ⟨rfl, rfl⟩
      · exact hread i t' hget
      · exact hi

theorem runNode_steps (hn : n ∈ g.nodes) (hd : ∀ d ∈ n.deps, (s.phase d).isDone = true)
    (hself : n.ptr ∉ n.deps) (hidle : s.phase n.ptr = .idle) :
    ReflTransGen (Step libm g) s (runNode libm n s) := by
  have he : Enabled s n := ⟨hd, by simp [hidle, Phase.isDone]⟩
  have hstep : Step libm g s (s.put n.ptr (n.op.effect libm s.store .idle)) := by
    rw [← hidle]
    exact .node n hn he
  cases ho : n.op with
  | placeholder out =>
    have hrun : runNode libm n s = s.put n.ptr (.done false, none) := by simp [runNode, ho]
    rw [hrun]
    rw [ho] at hstep
    exact .single hstep
  | op o =>
    rw [ho] at hstep
    cases ha : o.isAnchor with
    | true =>
      have hrun : runNode libm n s = s.put n.ptr (.done true, none) := by
        simp [runNode, ho, Op.compute, ha, ExecState.put, applyWrite]
      simp only [NodeOp.effect, ha, if_true] at hstep
      rw [hrun]
      exact .single hstep
    | false =>
      simp only [NodeOp.effect, ha, Bool.false_eq_true, if_false] at hstep
      exact .head hstep (runNode_reading hn ho ha hd hself [] (by simp) (by simp))

theorem runNode_phase (libm : Libm) (n : ComputeNode) (s : ExecState) :
    ∃ ok, (runNode libm n s).phase = Function.update s.phase n.ptr (.done ok) := by
  unfold runNode
  split
  · exact ⟨false, rfl⟩
  · split
    · exact ⟨true, rfl⟩
    · exact ⟨false, rfl⟩

def DoneExactly (order : List Nat) (s : ExecState) : Prop :=
  ∀ p, (p ∈ order → (s.phase p).isDone = true) ∧ (p ∉ order → s.phase p = .idle)

theorem DoneExactly.runNode {order : List Nat} (h : DoneExactly order s) (libm : Libm)
    (n : ComputeNode) : DoneExactly (order ++ [n.ptr]) (runNode libm n s) := by
  obtain ⟨ok, hphase⟩ := runNode_phase libm n s
  intro p
  rw [hphase]
  rcases eq_or_ne p n.ptr with rfl | hne
  · simp [Phase.isDone]
  · simpa [hne] using h p

theorem self_not_dep (hwf : g.WellFormed) (hacyclic : Kahn.Acyclic g.depsOf) (hn : n ∈ g.nodes) :
    n.ptr ∉ n.deps := by
  intro hd
  rw [← hwf.depsOf_eq hn] at hd
  exact hacyclic n.ptr (.single hd)

theorem find_node (hwf : g.WellFormed) (hn : n ∈ g.nodes) :
    g.nodes.find? (·.ptr = n.ptr) = some n := by
  cases hf : g.nodes.find? (·.ptr = n.ptr) with
  | none =>
    exfalso
    simpa using List.find?_eq_none.1 hf n hn
  | some m =>
    have hm : m.ptr = n.ptr := by simpa using List.find?_some hf
    rw [hwf.node_eq (List.mem_of_find?_eq_some hf) hn hm]

theorem executeIn_prefix (hwf : g.WellFormed) (hacyclic : Kahn.Acyclic g.depsOf) {order : List Nat}
    (hnd : order.Nodup) (hmem : ∀ p ∈ order, p ∈ g.nodes.map (·.ptr))
    (hord : Kahn.Ordered g.depsOf order) {front : List Nat} (hf : front <+: order)
    {store : TensorStore} :
    ReflTransGen (Step libm g) (startState g store) (executeIn libm g front (startState g store)) ∧
      DoneExactly front (executeIn libm g front (startState g store)) := by
  induction front using List.reverseRecOn with
  | nil => exact ⟨.refl, fun p => ⟨by simp, fun _ => rfl⟩⟩
  | append_singleton front x ih =>
    obtain ⟨back, rfl⟩ := hf
    obtain ⟨hrun, hdone⟩ := ih ⟨x :: back, by simp⟩
    obtain ⟨n, hn, rfl⟩ := List.mem_map.1 (hmem x (by simp))
    have hexec : executeIn libm g (front ++ [n.ptr]) (startState g store) =
        runNode libm n (executeIn libm g front (startState g store)) := by
      simp [executeIn, find_node hwf hn]
    have hfresh : n.ptr ∉ front := by
      rw [List.append_assoc, List.nodup_append] at hnd
      exact fun hp => hnd.2.2 _ hp _ (by simp) rfl
    have hdeps : ∀ d ∈ n.deps, d ∈ front := by
      intro d hd
      rw [← hwf.depsOf_eq hn] at hd
      exact hord front n.ptr back (by simp) d hd
    rw [hexec]
    refine ⟨hrun.trans (runNode_steps hn (fun d hd => (hdone d).1 (hdeps d hd))
      (self_not_dep hwf hacyclic hn) ((hdone n.ptr).2 hfresh)), hdone.runNode libm n⟩

theorem executeIn_execution (hwf : g.WellFormed) (hacyclic : Kahn.Acyclic g.depsOf)
    {order : List Nat} (hnd : order.Nodup) (hmem : ∀ p, p ∈ order ↔ p ∈ g.nodes.map (·.ptr))
    (hord : Kahn.Ordered g.depsOf order) (store : TensorStore) :
    Execution libm g store (executeIn libm g order (startState g store)) := by
  obtain ⟨hrun, hdone⟩ := executeIn_prefix hwf hacyclic hnd (fun p hp => (hmem p).1 hp) hord
    (List.prefix_refl order)
  refine ⟨hrun, fun n hn => (hdone n.ptr).1 ((hmem n.ptr).2 (List.mem_map_of_mem hn))⟩

theorem execute_execution (hwf : g.WellFormed) (hacyclic : g.Acyclic) (htopo : g.topo = g.sorted)
    (store : TensorStore) : Execution libm g store (execute libm g store) := by
  have hk := hwf.acyclic_iff.2 hacyclic
  have hs := Kahn.sort_sorted hwf.closed
  have hlen := (Kahn.sort_complete hwf.closed).2 hk
  have hperm : g.sorted.Perm (g.nodes.map (·.ptr)) :=
    (hs.nodup.subperm hs.mem).perm_of_length_le hlen.ge
  unfold execute
  rw [htopo]
  exact executeIn_execution hwf hk hs.nodup (fun p => hperm.mem_iff) hs.ordered store

end Sequential

end Lark.Column.Exec
