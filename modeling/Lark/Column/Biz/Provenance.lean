import Lark.Column.Biz.PartialGraph
import Lark.Column.Biz.Schedule
import Lark.Column.FeedFetch

namespace Lark.Column.Biz

open Lark.Base Lark.Column.Exec Relation

variable {libm : Libm} {g : ComputeGraph} {start : TensorStore} {s t : ExecState}
  {n : ComputeNode} {c : String}

def Waits (g : ComputeGraph) (n w : ComputeNode) : Prop :=
  TransGen (Kahn.DependsOn g.depsOf) n.ptr w.ptr

def ReadsNext (s : ExecState) (n : ComputeNode) (c : String) : Prop :=
  ∃ o values, n.op = .op o ∧ o.isAnchor = false ∧ s.phase n.ptr = .reading values ∧
    values.length < o.kernel.arity ∧ o.inputs[values.length]? = some c

def WrittenBySuccess (g : ComputeGraph) (s : ExecState) (c : String) : Prop :=
  ∃ w ∈ g.nodes, w.op.writes = some c ∧ s.phase w.ptr = .done true

section Possible

variable (libm : Libm) (g : ComputeGraph) (start : TensorStore)

mutual

-- What the graph and the columns it starts from let a node end with, in some order: a tensor, or
-- nothing when a lookup or the kernel throws.
inductive MayEnd : ComputeNode → Option Tensor → Prop
  | missing {n : ComputeNode} {o : Op} {values : List Tensor} (ho : n.op = .op o)
    (saw : ∀ (i : Nat) (t : Tensor) (c : String), values[i]? = some t → o.inputs[i]? = some c →
      MayFind n c (some t))
    (more : values.length < o.kernel.arity)
    (lost : ∀ c, o.inputs[values.length]? = some c → MayFind n c none) : MayEnd n none
  | ran {n : ComputeNode} {o : Op} {values : List Tensor} {r : Option Tensor} (ho : n.op = .op o)
    (saw : ∀ (i : Nat) (t : Tensor) (c : String), values[i]? = some t → o.inputs[i]? = some c →
      MayFind n c (some t))
    (full : o.kernel.arity ≤ values.length)
    (hr : (runKernel libm o.kernel (readValues values)).toOption = r) : MayEnd n r

-- What a lookup can find: the column as it was, when every writer the reader waits for can throw,
-- or what a writer can have left that none of these replaced.
inductive MayFind : ComputeNode → String → Option Tensor → Prop
  | initial {n : ComputeNode} {c : String} {v : Option Tensor} (hv : start.find c = v)
    (fails : ∀ w ∈ g.nodes, w.op.writes = some c → Waits g n w → MayEnd w none) : MayFind n c v
  | written {n : ComputeNode} {c : String} {w : ComputeNode} {x : Tensor} (hw : w ∈ g.nodes)
    (hc : w.op.writes = some c) (other : w.ptr ≠ n.ptr) (before : ¬ Waits g w n)
    (left : MayEnd w (some x))
    (fails : ∀ v ∈ g.nodes, v.op.writes = some c → Waits g n v → Waits g v w → MayEnd v none) :
    MayFind n c (some x)

end

end Possible

def Backed (libm : Libm) (g : ComputeGraph) (held : TensorStore) (feed : TensorTable)
    (n : ComputeNode) (c : String) : Prop :=
  c ∈ feed.entries.map Prod.fst ∨ (startState g (held.addTable feed)).store.find c = none ∨
    ∃ w ∈ g.nodes, w.op.writes = some c ∧ Waits g n w ∧
      ¬ MayEnd libm g (startState g (held.addTable feed)).store w none

theorem phase_done_run (h : ReflTransGen (Step libm g) s t) {p : Nat} {ok : Bool}
    (hp : s.phase p = .done ok) : t.phase p = .done ok := by
  induction h with
  | refl => exact hp
  | tail _ hst ih =>
    obtain ⟨n, hn, he⟩ := hst
    rw [isDone_advance he (by simp [ih, Phase.isDone]), ih]

theorem ReadsNext.missing (h : ReadsNext s n c) (hnone : s.store.find c = none) :
    (s.advance libm n).phase n.ptr = .done false := by
  obtain ⟨o, values, ho, ha, hph, hlt, hc⟩ := h
  have hin : ∃ e, o.input s.store values.length = .error e := by simp [Op.input, hc, hnone]
  obtain ⟨e, hin⟩ := hin
  simp [ExecState.advance, ExecState.put, ExecState.next, ho, NodeOp.effect, ha, hph, Op.effect,
    hlt, hin]

theorem ReadsNext.present (hr : ReadsNext s n c)
    (hrest : ReflTransGen (Step libm g) (s.advance libm n) t) (hok : t.phase n.ptr = .done true) :
    (s.store.find c).isSome := by
  by_contra hnone
  have hfail := phase_done_run hrest (hr.missing (by simpa using hnone))
  rw [hok] at hfail
  cases hfail

inductive LastWrite (libm : Libm) (g : ComputeGraph) (start : TensorStore) (s : ExecState)
    (c : String) : Prop
  | initial (same : s.store.find c = start.find c)
    (failed : ∀ w ∈ g.nodes, w.op.writes = some c → s.phase w.ptr ≠ .done true)
  | written {w : ComputeNode} {x : Tensor} (hw : w ∈ g.nodes) (hc : w.op.writes = some c)
    (ok : s.phase w.ptr = .done true) (left : MayEnd libm g start w (some x))
    (now : s.store.find c = some x)
    (last : ∀ v ∈ g.nodes, v.op.writes = some c → s.phase v.ptr = .done true → ¬ Waits g v w)

structure Accounts (libm : Libm) (g : ComputeGraph) (start : TensorStore) (s : ExecState) :
    Prop where
  exec : ExecInv g s
  saw : ∀ n ∈ g.nodes, ∀ o values, n.op = .op o → s.phase n.ptr = .reading values →
    ∀ (i : Nat) (t : Tensor) (c : String), values[i]? = some t → o.inputs[i]? = some c →
      MayFind libm g start n c (some t)
  failed : ∀ n ∈ g.nodes, ∀ c, n.op.writes = some c → s.phase n.ptr = .done false →
    MayEnd libm g start n none
  last : ∀ c, LastWrite libm g start s c

theorem accounts_start (store : TensorStore) :
    Accounts libm g (startState g store).store (startState g store) where
  exec := execInv_start g store
  saw _ _ _ _ _ h := nomatch h
  failed _ _ _ _ h := nomatch h
  last _ := .initial rfl fun _ _ _ h => nomatch h

section Steps

variable (h : Accounts libm g start s) (hwf : g.WellFormed)

include h hwf

theorem Accounts.not_waits (he : Enabled s n) {w : ComputeNode} (hw : w ∈ g.nodes)
    (hdone : (s.phase w.ptr).isDone = true) : ¬ Waits g w n := by
  intro hpath
  have hidle : s.phase w.ptr ≠ .idle := by
    intro hidle
    simp [hidle, Phase.isDone] at hdone
  have hrun := h.exec.done_of_path hwf hw (h.exec.waited w hw hidle) hpath
  rw [he.running] at hrun
  cases hrun

variable (hn : n ∈ g.nodes) (he : Enabled s n)

include hn he

theorem Accounts.throws {w : ComputeNode} (hw : w ∈ g.nodes) (hc : w.op.writes = some c)
    (hpath : Waits g n w) (hne : s.phase w.ptr ≠ .done true) : MayEnd libm g start w none := by
  have hdone := h.exec.done_of_path hwf hn he.deps hpath
  apply h.failed w hw c hc
  cases hph : s.phase w.ptr with
  | idle => simp [hph, Phase.isDone] at hdone
  | reading values => simp [hph, Phase.isDone] at hdone
  | done ok =>
    cases ok with
    | true => exact absurd hph hne
    | false => rfl

theorem Accounts.mayFind (c : String) : MayFind libm g start n c (s.store.find c) := by
  cases h.last c with
  | initial same failed =>
    exact .initial same.symm fun w hw hc hpath => h.throws hwf hn he hw hc hpath (failed w hw hc)
  | @written w x hw hc ok left now last =>
    rw [now]
    have hdone : (s.phase w.ptr).isDone = true := by simp [ok, Phase.isDone]
    refine .written hw hc ?_ (h.not_waits hwf he hw hdone) left ?_
    · intro hp
      rw [hp, he.running] at hdone
      cases hdone
    · intro v hv hvc hpath hvw
      exact h.throws hwf hn he hv hvc hpath fun hok => last v hv hvc hok hvw

end Steps

theorem input_ok {o : Op} {store : TensorStore} {i : Nat} {x : Tensor}
    (h : o.input store i = .ok x) : ∃ c, o.inputs[i]? = some c ∧ store.find c = some x := by
  unfold Op.input at h
  cases hc : o.inputs[i]? with
  | none => simp [hc] at h
  | some c =>
    cases hf : store.find c with
    | none => simp [hc, hf] at h
    | some y =>
      obtain rfl : y = x := by simpa [hc, hf] using h
      exact ⟨c, rfl, hf⟩

theorem input_error {o : Op} {store : TensorStore} {i : Nat} {e : Exn}
    (h : o.input store i = .error e) (c : String) (hc : o.inputs[i]? = some c) :
    store.find c = none := by
  unfold Op.input at h
  cases hf : store.find c with
  | none => rfl
  | some y => simp [hc, hf] at h

section Effect

variable (h : Accounts libm g start s) (hwf : g.WellFormed) (hn : n ∈ g.nodes) (he : Enabled s n)

include h hwf hn he

theorem Accounts.saw_next {o : Op} {values : List Tensor} (ho : n.op = .op o)
    (hph : (s.next libm n).1 = .reading values) :
    ∀ (i : Nat) (x : Tensor) (c : String), values[i]? = some x → o.inputs[i]? = some c →
      MayFind libm g start n c (some x) := by
  intro i x c hi hc
  rw [ExecState.next, ho, NodeOp.effect] at hph
  split_ifs at hph with ha
  have hrunning := he.running
  cases hp : s.phase n.ptr with
  | idle =>
    obtain rfl : [] = values := by simpa [hp, Op.effect] using hph
    cases hi
  | done ok => simp [hp, Phase.isDone] at hrunning
  | reading before =>
    simp only [hp, Op.effect] at hph
    split_ifs at hph with hlt
    · cases hin : o.input s.store before.length with
      | error e => simp [hin] at hph
      | ok y =>
        obtain rfl : before ++ [y] = values := by simpa [hin] using hph
        rcases getElem?_snoc.1 hi with hi | ⟨rfl, rfl⟩
        · exact h.saw n hn o before ho hp i x c hi hc
        · obtain ⟨c', hc', hfind⟩ := input_ok hin
          obtain rfl : c' = c := Option.some.inj (hc'.symm.trans hc)
          rw [← hfind]
          exact h.mayFind hwf hn he c'
    · exfalso
      cases hr : runKernel libm o.kernel (readValues before) <;>
        cases hout : o.outputs.head? <;> simp [hr, hout] at hph

theorem Accounts.done_next {ok : Bool} (hc : n.op.writes = some c)
    (hph : (s.next libm n).1 = .done ok) :
    (ok = false ∧ (s.next libm n).2 = none ∧ MayEnd libm g start n none) ∨
      (ok = true ∧ ∃ x, (s.next libm n).2 = some (c, x) ∧ MayEnd libm g start n (some x)) := by
  cases ho : n.op with
  | placeholder out =>
    rw [ho] at hc
    cases hc
  | op o =>
    rw [ho, NodeOp.writes] at hc
    split_ifs at hc with ha
    simp only [ExecState.next, ho, NodeOp.effect, ha, Bool.false_eq_true, if_false] at hph ⊢
    have hrunning := he.running
    cases hp : s.phase n.ptr with
    | idle => simp [hp, Op.effect] at hph
    | done ok => simp [hp, Phase.isDone] at hrunning
    | reading values =>
      have hsaw := h.saw n hn o values ho hp
      simp only [hp, Op.effect] at hph ⊢
      split_ifs at hph ⊢ with hlt
      · cases hin : o.input s.store values.length with
        | ok y => simp [hin] at hph
        | error e =>
          refine .inl ⟨by simpa [hin, eq_comm] using hph, rfl, .missing ho hsaw hlt ?_⟩
          intro c' hc'
          rw [← input_error hin c' hc']
          exact h.mayFind hwf hn he c'
      · have hfull := not_lt.mp hlt
        cases hr : runKernel libm o.kernel (readValues values) with
        | error e =>
          exact .inl ⟨by simpa [hr, eq_comm] using hph, rfl, .ran ho hsaw hfull (by rw [hr]; rfl)⟩
        | ok x =>
          refine .inr ⟨by simpa [hr, hc, eq_comm] using hph, x, by simp [hc], ?_⟩
          exact .ran ho hsaw hfull (by rw [hr]; rfl)

theorem Accounts.lastWrite_next (c : String) : LastWrite libm g start (s.advance libm n) c := by
  have hself : (s.advance libm n).phase n.ptr = (s.next libm n).1 := by
    simp [ExecState.advance, ExecState.put]
  have hkeep : ∀ w ∈ g.nodes, w.op.writes = some c → (s.advance libm n).phase w.ptr = .done true →
      s.phase w.ptr = .done true ∨ w = n ∧ ∃ x, (s.next libm n).2 = some (c, x) := by
    intro w hw hc hok
    rcases eq_or_ne w.ptr n.ptr with hp | hp
    · obtain rfl := hwf.node_eq hw hn hp
      rw [hself] at hok
      rcases h.done_next hwf hn he hc hok with ⟨hfalse, -⟩ | ⟨-, x, hx, -⟩
      · cases hfalse
      · exact .inr ⟨rfl, x, hx⟩
    · exact .inl (by rwa [advance_phase_of_ne hp] at hok)
  by_cases hwrite : ∃ x, (s.next libm n).2 = some (c, x)
  · obtain ⟨x, hx⟩ := hwrite
    obtain ⟨hc, hok⟩ := effect_writes hx
    have hleft : MayEnd libm g start n (some x) := by
      rcases h.done_next hwf hn he hc hok with ⟨hfalse, -⟩ | ⟨-, y, hy, hleft⟩
      · cases hfalse
      · obtain rfl : y = x := by simpa [hy] using hx
        exact hleft
    refine .written hn hc (hself.trans hok) hleft ?_ ?_
    · simp [ExecState.advance, ExecState.put, hx, applyWrite]
    · intro v hv hvc hvok hvn
      rcases hkeep v hv hvc hvok with hdone | ⟨rfl, -⟩
      · exact h.not_waits hwf he hv (by simp [hdone, Phase.isDone]) hvn
      · have hdone := h.exec.done_of_path hwf hn he.deps hvn
        rw [he.running] at hdone
        cases hdone
  · have hstore : (s.advance libm n).store.find c = s.store.find c :=
      find_applyWrite_of_ne fun x hx => hwrite ⟨x, hx⟩
    have hold : ∀ w ∈ g.nodes, w.op.writes = some c →
        (s.advance libm n).phase w.ptr = .done true → s.phase w.ptr = .done true := by
      intro w hw hc hok
      rcases hkeep w hw hc hok with hdone | ⟨-, hx⟩
      · exact hdone
      · exact absurd hx hwrite
    cases h.last c with
    | initial same failed =>
      exact .initial (hstore.trans same) fun w hw hc hok => failed w hw hc (hold w hw hc hok)
    | @written w x hw hc ok left now last =>
      have hdone : (s.advance libm n).phase w.ptr = s.phase w.ptr :=
        isDone_advance he (by simp [ok, Phase.isDone])
      refine .written hw hc (hdone.trans ok) left (hstore.trans now) ?_
      exact fun v hv hvc hvok => last v hv hvc (hold v hv hvc hvok)

theorem Accounts.advance : Accounts libm g start (s.advance libm n) where
  exec := execInv_step h.exec (.node n hn he) hwf
  saw m hm o values ho hph := by
    rcases eq_or_ne m.ptr n.ptr with hp | hp
    · obtain rfl := hwf.node_eq hm hn hp
      exact h.saw_next hwf hn he ho (by simpa [ExecState.advance, ExecState.put] using hph)
    · rw [advance_phase_of_ne hp] at hph
      exact h.saw m hm o values ho hph
  failed m hm c hc hph := by
    rcases eq_or_ne m.ptr n.ptr with hp | hp
    · obtain rfl := hwf.node_eq hm hn hp
      have hnext : (s.next libm m).1 = .done false := by
        simpa [ExecState.advance, ExecState.put] using hph
      rcases h.done_next hwf hn he hc hnext with ⟨-, -, hout⟩ | ⟨htrue, -⟩
      · exact hout
      · cases htrue
    · rw [advance_phase_of_ne hp] at hph
      exact h.failed m hm c hc hph
  last := h.lastWrite_next hwf hn he

end Effect

theorem accounts_run {store : TensorStore} (hwf : g.WellFormed)
    (hrun : ReflTransGen (Step libm g) (startState g store) s) :
    Accounts libm g (startState g store).store s := by
  refine run_invariant (fun _ _ h hst => ?_) (accounts_start store) hrun
  obtain ⟨n, hn, he⟩ := hst
  exact h.advance hwf hn he

theorem success_backed {held : TensorStore} {feed : TensorTable} {ms : List Module}
    (hb : build ms = .ok g)
    (hrun : ReflTransGen (Step libm g) (startState g (held.addTable feed)) s) (hn : n ∈ g.nodes)
    (he : Enabled s n) (hr : ReadsNext s n c)
    (hrest : ReflTransGen (Step libm g) (s.advance libm n) t) (hok : t.phase n.ptr = .done true)
    (hback : Backed libm g held feed n c) :
    c ∈ feed.entries.map Prod.fst ∨ WrittenBySuccess g s c := by
  obtain ⟨hwf, -, -⟩ := build_wellFormed hb
  have hacc := accounts_run hwf hrun
  rcases hback with hfed | hnew | ⟨w, hw, hwc, hpath, hsure⟩
  · exact .inl hfed
  · have hpresent := hr.present hrest hok
    cases hacc.last c with
    | initial same failed => simp [same, hnew] at hpresent
    | written hw hc ok => exact .inr ⟨_, hw, hc, ok⟩
  · refine .inr ⟨w, hw, hwc, ?_⟩
    by_contra hfail
    exact hsure (hacc.throws hwf hn he hw hwc hpath hfail)

def chained : Module :=
  ⟨"m", [], ["z"], [], [⟨"identity", ["x"], ["y"], []⟩, ⟨"identity", ["y"], ["z"], []⟩]⟩

def firstCopy : ComputeNode :=
  ⟨0, "m/op0", "m", .op ⟨"identity", ["x"], ["y"], .identity⟩, []⟩

def secondCopy : ComputeNode :=
  ⟨1, "m/op1", "m", .op ⟨"identity", ["y"], ["z"], .identity⟩, [0]⟩

def chainedGraph : ComputeGraph where
  nodes := [firstCopy, secondCopy]
  byId := Function.update (Function.update (fun _ => none) "m/op0" (some 0)) "m/op1" (some 1)
  topo := [0, 1]
  finalized := true
  nextPtr := 2

theorem build_chained : build [chained] = .ok chainedGraph := rfl

def reach (store : TensorStore) (order : List ComputeNode) : ExecState :=
  order.foldl (fun s n => s.advance unusedLibm n) (startState chainedGraph store)

def fedTable : TensorTable := ⟨[("x", .scalar .float64 [1])], 1⟩

theorem first_finds {v : Option Tensor}
    (h : MayFind unusedLibm chainedGraph (startState chainedGraph fedX).store firstCopy "x" v) :
    v = some (.scalar .float64 [1]) := by
  cases h with
  | initial hv fails => exact hv.symm
  | written hw hc =>
    have hnone : ∀ w ∈ chainedGraph.nodes, w.op.writes ≠ some "x" := by decide
    exact absurd hc (hnone _ hw)

theorem first_never_throws :
    ¬ MayEnd unusedLibm chainedGraph (startState chainedGraph fedX).store firstCopy none := by
  intro h
  cases h with
  | @missing _ o values ho saw more lost =>
    obtain rfl : (⟨"identity", ["x"], ["y"], .identity⟩ : Op) = o := NodeOp.op.inj ho
    obtain rfl : values = [] := List.length_eq_zero_iff.mp (Nat.lt_one_iff.mp more)
    cases first_finds (lost "x" rfl)
  | @ran _ o values _ ho saw full hr =>
    obtain rfl : (⟨"identity", ["x"], ["y"], .identity⟩ : Op) = o := NodeOp.op.inj ho
    cases values with
    | nil => cases full
    | cons x values => cases hr

theorem success_backed_chained : WrittenBySuccess chainedGraph
    (reach fedX [firstCopy, firstCopy, firstCopy, secondCopy]) "y" := by
  have hfirst : firstCopy ∈ chainedGraph.nodes := by decide
  have hsecond : secondCopy ∈ chainedGraph.nodes := by decide
  have hrun : ReflTransGen (Step unusedLibm chainedGraph)
      (startState chainedGraph (TensorStore.empty.addTable fedTable))
      (reach fedX [firstCopy, firstCopy, firstCopy, secondCopy]) := by
    refine .head (.node firstCopy hfirst ⟨by decide, rfl⟩) ?_
    refine .head (.node firstCopy hfirst ⟨by decide, rfl⟩) ?_
    refine .head (.node firstCopy hfirst ⟨by decide, rfl⟩) ?_
    exact .single (.node secondCopy hsecond ⟨by decide, rfl⟩)
  have hrest : ReflTransGen (Step unusedLibm chainedGraph)
      (reach fedX [firstCopy, firstCopy, firstCopy, secondCopy, secondCopy])
      (reach fedX [firstCopy, firstCopy, firstCopy, secondCopy, secondCopy, secondCopy]) :=
    .single (.node secondCopy hsecond ⟨by decide, rfl⟩)
  have hback : Backed unusedLibm chainedGraph .empty fedTable secondCopy "y" := by
    have hdep : firstCopy.ptr ∈ chainedGraph.depsOf secondCopy.ptr := by decide
    exact .inr (.inr ⟨firstCopy, hfirst, rfl, .single hdep, first_never_throws⟩)
  rcases success_backed build_chained hrun hsecond ⟨by decide, rfl⟩
    ⟨_, [], rfl, rfl, rfl, by decide, rfl⟩ hrest rfl hback with hfed | hwritten
  · exact absurd hfed (by decide)
  · exact hwritten

-- Nothing was fed: the first copy fails, the second succeeds on the empty column reserved for it.
theorem success_after_failure : ∃ s t,
    ReflTransGen (Step unusedLibm chainedGraph)
      (startState chainedGraph (TensorStore.empty.addTable .empty)) s ∧
    secondCopy ∈ chainedGraph.nodes ∧ Enabled s secondCopy ∧ ReadsNext s secondCopy "y" ∧
    ReflTransGen (Step unusedLibm chainedGraph) (s.advance unusedLibm secondCopy) t ∧
    t.phase secondCopy.ptr = .done true ∧ s.phase firstCopy.ptr = .done false ∧
    build [chained] = .ok chainedGraph ∧
    ¬ ("y" ∈ TensorTable.empty.entries.map Prod.fst ∨ WrittenBySuccess chainedGraph s "y") := by
  have hfirst : firstCopy ∈ chainedGraph.nodes := by decide
  have hsecond : secondCopy ∈ chainedGraph.nodes := by decide
  refine ⟨reach .empty [firstCopy, firstCopy, secondCopy],
    reach .empty [firstCopy, firstCopy, secondCopy, secondCopy, secondCopy], ?_, hsecond,
    ⟨by decide, rfl⟩, ⟨_, [], rfl, rfl, rfl, by decide, rfl⟩, ?_, rfl, rfl, build_chained, ?_⟩
  · refine .head (.node firstCopy hfirst ⟨by decide, rfl⟩) ?_
    refine .head (.node firstCopy hfirst ⟨by decide, rfl⟩) ?_
    exact .single (.node secondCopy hsecond ⟨by decide, rfl⟩)
  · exact .single (.node secondCopy hsecond ⟨by decide, rfl⟩)
  · rintro (hfed | ⟨w, hw, hwc, hdone⟩)
    · cases hfed
    · rcases List.mem_cons.1 hw with rfl | hw
      · cases hdone
      · obtain rfl := List.mem_singleton.1 hw
        cases hdone

end Lark.Column.Biz
