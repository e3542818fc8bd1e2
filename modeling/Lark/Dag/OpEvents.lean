import Lark.Dag.OpExecutor

namespace Lark.Dag.OpExecutor

open Lark.Base Lark.Coro Lark.Coro.Future

inductive OpCall (β : Type) where
  | start
  | shouldSkip (aspect : β)
  | skipped
  | onBefore (aspect : β)
  | execute
  | onAfter (aspect : β) (status : OpStatus)
  | finish (status : OpStatus)

variable {α β E : Type}

section Script

variable (cb : Callbacks α β E) (aspects : List β) (x : α)

def calls : Body β E → List (OpCall β)
  | .queued => [.start]
  | .skipping (a :: _) =>
    match cb.shouldSkip a x with
    | .ok true => [.shouldSkip a, .skipped]
    | _ => [.shouldSkip a]
  | .before (a :: _) => [.onBefore a]
  | .executing => [.execute]
  | .after [] status => [.finish status]
  | .after (a :: _) status => [.onAfter a status]
  | _ => []

def afterCalls (status : OpStatus) : List β → List (OpCall β)
  | [] => [.finish status]
  | a :: rest =>
    .onAfter a status ::
      match cb.onAfter a x status with
      | .ok _ => afterCalls status rest
      | .error _ => []

def beforeCalls : List β → List (OpCall β)
  | [] => .execute :: afterCalls cb x (executeStatus cb x) aspects
  | a :: rest =>
    .onBefore a ::
      match cb.onBefore a x with
      | .ok _ => beforeCalls rest
      | .error _ => []

def skipCalls : List β → List (OpCall β)
  | [] => beforeCalls cb aspects x aspects
  | a :: rest =>
    .shouldSkip a ::
      match cb.shouldSkip a x with
      | .ok true => [.skipped]
      | .ok false => skipCalls rest
      | .error _ => []

def script : List (OpCall β) := .start :: skipCalls cb aspects x aspects

def toCome : Body β E → List (OpCall β)
  | .idle | .queued => script cb aspects x
  | .skipping rest => skipCalls cb aspects x rest
  | .before rest => beforeCalls cb aspects x rest
  | .executing => .execute :: afterCalls cb x (executeStatus cb x) aspects
  | .after rest status => afterCalls cb x status rest
  | .ended _ => []

variable {cb aspects x}

theorem toCome_advance {b b' : Body β E} {st : Option OpStatus}
    (h : advance cb aspects x b = some (b', st)) :
    toCome cb aspects x b = calls cb x b ++ toCome cb aspects x b' := by
  cases b with
  | idle | ended => cases h
  | queued | executing =>
    obtain ⟨rfl, -⟩ := Prod.mk.inj (Option.some.inj h)
    rfl
  | skipping rest =>
    cases rest with
    | nil =>
      obtain ⟨rfl, -⟩ := Prod.mk.inj (Option.some.inj h)
      rfl
    | cons a rest =>
      simp only [advance] at h
      split at h
      all_goals
        rename_i hskip
        obtain ⟨rfl, -⟩ := Prod.mk.inj (Option.some.inj h)
        simp [toCome, skipCalls, calls, hskip]
  | before rest =>
    cases rest with
    | nil =>
      obtain ⟨rfl, -⟩ := Prod.mk.inj (Option.some.inj h)
      rfl
    | cons a rest =>
      simp only [advance] at h
      split at h
      all_goals
        rename_i hbefore
        obtain ⟨rfl, -⟩ := Prod.mk.inj (Option.some.inj h)
        simp [toCome, beforeCalls, calls, hbefore]
  | after rest status =>
    cases rest with
    | nil =>
      obtain ⟨rfl, -⟩ := Prod.mk.inj (Option.some.inj h)
      rfl
    | cons a rest =>
      simp only [advance] at h
      split at h
      all_goals
        rename_i hafter
        obtain ⟨rfl, -⟩ := Prod.mk.inj (Option.some.inj h)
        simp [toCome, afterCalls, calls, hafter]

variable (cb x) in
def asked : List β → List β
  | [] => []
  | a :: rest =>
    a :: match cb.shouldSkip a x with
      | .ok true => []
      | _ => asked rest

theorem skipCalls_true {rest : List β} (h : skips cb x rest = .ok true) :
    skipCalls cb aspects x rest = (asked cb x rest).map .shouldSkip ++ [.skipped] := by
  induction rest with
  | nil => cases h
  | cons a rest ih =>
    simp only [skips] at h
    split at h
    · rename_i hskip
      simp [skipCalls, asked, hskip]
    · rename_i hskip
      simp [skipCalls, asked, hskip, ih h]
    · cases h

theorem skipCalls_false {rest : List β} (h : skips cb x rest = .ok false) :
    skipCalls cb aspects x rest =
      rest.map .shouldSkip ++ beforeCalls cb aspects x aspects := by
  induction rest with
  | nil => rfl
  | cons a rest ih =>
    simp only [skips] at h
    split at h
    · cases h
    · rename_i hskip
      simp [skipCalls, hskip, ih h]
    · cases h

theorem beforeCalls_quiet {rest : List β} (h : ∀ a ∈ rest, cb.onBefore a x = .ok ()) :
    beforeCalls cb aspects x rest =
      rest.map .onBefore ++ .execute :: afterCalls cb x (executeStatus cb x) aspects := by
  induction rest with
  | nil => rfl
  | cons a rest ih =>
    obtain ⟨ha, hrest⟩ := List.forall_mem_cons.1 h
    simp [beforeCalls, ha, ih hrest]

theorem afterCalls_quiet {status : OpStatus} {rest : List β}
    (h : ∀ a ∈ rest, cb.onAfter a x status = .ok ()) :
    afterCalls cb x status rest = rest.map (.onAfter · status) ++ [.finish status] := by
  induction rest with
  | nil => rfl
  | cons a rest ih =>
    obtain ⟨ha, hrest⟩ := List.forall_mem_cons.1 h
    simp [afterCalls, ha, ih hrest]

variable (cb aspects x) in
def protocol : List (OpCall β) :=
  match skips cb x aspects with
  | .ok true => .start :: (asked cb x aspects).map .shouldSkip ++ [.skipped]
  | _ =>
    .start :: aspects.map .shouldSkip ++ aspects.map .onBefore ++ [.execute] ++
      aspects.map (.onAfter · (executeStatus cb x)) ++ [.finish (executeStatus cb x)]

theorem script_quiet (h : Quiet cb aspects x) :
    script cb aspects x = protocol cb aspects x := by
  rcases h with hskip | ⟨hskip, hquiet⟩
  · simp [script, protocol, hskip, skipCalls_true hskip]
  · have hbefore := @beforeCalls_quiet _ _ _ cb aspects x aspects fun a ha => (hquiet a ha).1
    have hafter := @afterCalls_quiet _ _ _ cb x (executeStatus cb x) aspects
      fun a ha => (hquiet a ha).2
    simp [script, protocol, hskip, skipCalls_false hskip, hbefore, hafter]

end Script

variable [DecidableEq α] {deps : α → List α} {n : Nat}

structure Observed (deps : α → List α) (n : Nat) (β E : Type) where
  exec : State deps n β E
  log : List (α × OpCall β)

variable (cb : Callbacks α β E) (aspects : List β)

inductive ObservedStep (order : List α) :
    Observed deps order.length β E → Observed deps order.length β E → Prop
  | run {s} (x : α) {b st} (hx : x ∈ order.take (s.exec.built + 1))
      (hl : (s.exec.node x).link = .inner)
      (hb : advance cb aspects x (s.exec.node x).body = some (b, st)) :
      ObservedStep order s ⟨s.exec.setNode x { s.exec.node x with body := b } st,
        s.log ++ (calls cb x (s.exec.node x).body).map (x, ·)⟩
  | other {s t} (h : Step cb aspects order s.exec t)
      (hbody : ∀ x, (t.node x).body = (s.exec.node x).body ∨
        (s.exec.node x).body = .idle ∧ (t.node x).body = .queued) :
      ObservedStep order s { s with exec := t }

def observed (deps : α → List α) (order : List α) (status : StatusMap α) :
    System (Observed deps order.length β E) where
  initial := fun s => s = ⟨.init status, []⟩
  step := ObservedStep cb aspects order

def callsOf (log : List (α × OpCall β)) (x : α) : List (OpCall β) :=
  (log.filter fun entry => entry.1 = x).map (·.2)

section Observed

variable {cb aspects} {order : List α} {initial : StatusMap α}
  {s t : Observed deps order.length β E}

theorem exec_step (h : ObservedStep cb aspects order s t) :
    Step cb aspects order s.exec t.exec := by
  cases h with
  | run x hx hl hb => exact .node x hx (.run hl hb)
  | other h => exact h

theorem idle_of_awaiting {m : Nat} {nd : Node m β E} (h : LinkOk nd) (hl : nd.link = .awaiting) :
    nd.body = .idle := by
  cases h with
  | waiting _ hb => exact hb
  | inner hl' => simp [hl] at hl'
  | ended hl' => simp [hl] at hl'

theorem observed_enabled {u : State deps order.length β E}
    (hi : Inv cb aspects order initial s.exec) (h : Step cb aspects order s.exec u) :
    ∃ t, ObservedStep cb aspects order s t := by
  have hcopy := h
  cases h with
  | @node x t st hx hst =>
    have hother : (t.body = (s.exec.node x).body ∨
        (s.exec.node x).body = .idle ∧ t.body = .queued) →
        ∃ t, ObservedStep cb aspects order s t := by
      intro hb
      refine ⟨_, .other hcopy fun y => ?_⟩
      rcases eq_or_ne y x with rfl | hy
      · simpa [State.setNode] using hb
      · simp [State.setNode, hy]
    cases hst with
    | run hl hb => exact ⟨_, .run x hx hl hb⟩
    | resumeValue hl => exact hother (.inr ⟨idle_of_awaiting (hi.node x).link hl, rfl⟩)
    | ready | resumeError | next | lock | set => exact hother (.inl rfl)
  | attach x =>
    refine ⟨_, .other hcopy fun y => .inl ?_⟩
    rcases eq_or_ne y x with rfl | hy
    · simp [State.attach]
    · simp [State.attach, hy]
  | all => exact ⟨_, .other hcopy fun _ => .inl rfl⟩

theorem callsOf_append (l₁ l₂ : List (α × OpCall β)) (x : α) :
    callsOf (l₁ ++ l₂) x = callsOf l₁ x ++ callsOf l₂ x := by
  simp [callsOf]

theorem callsOf_self (x : α) (cs : List (OpCall β)) : callsOf (cs.map (x, ·)) x = cs := by
  simp [callsOf, List.filter_map, Function.comp_def]

theorem callsOf_other {x y : α} (h : x ≠ y) (cs : List (OpCall β)) :
    callsOf (cs.map (x, ·)) y = [] := by
  simp [callsOf, List.filter_map, Function.comp_def, h]

variable (cb aspects order initial) in
structure Logged (s : Observed deps order.length β E) : Prop where
  base : Inv cb aspects order initial s.exec
  told : ∀ x, callsOf s.log x ++ toCome cb aspects x (s.exec.node x).body = script cb aspects x
  ordered : ∀ l₁ x c l₂, s.log = l₁ ++ (x, c) :: l₂ →
    ∀ d ∈ deps x, callsOf l₁ d = script cb aspects d

theorem dep_ended (h : Inv cb aspects order initial s.exec) {x d : α}
    (hb : (s.exec.node x).body ≠ .idle) (hd : d ∈ deps x) :
    (s.exec.node d).body = .ended (.ok ()) := by
  have hready := linkOk_started (h.node x).link hb
  obtain ⟨i, rfl⟩ := List.mem_iff_get.1 hd
  obtain ⟨v, hv⟩ := (h.node x).ready.out_value hready i
  exact (h.finished hv).1

theorem callsOf_ended (h : Logged cb aspects order initial s) {x : α} {o : Except E Unit}
    (hb : (s.exec.node x).body = .ended o) : callsOf s.log x = script cb aspects x := by
  have ht := h.told x
  rwa [hb, toCome, List.append_nil] at ht

theorem split_append {γ : Type} {old new l₁ l₂ : List γ} {e : γ}
    (h : old ++ new = l₁ ++ e :: l₂) :
    (∃ a, old = l₁ ++ e :: a) ∨ ∃ a, l₁ = old ++ a ∧ new = a ++ e :: l₂ := by
  rcases List.append_eq_append_iff.1 h with ⟨a, hl, hn⟩ | ⟨a, ho, hr⟩
  · exact .inr ⟨a, hl, hn⟩
  · cases a with
    | nil => exact .inr ⟨[], by simpa using ho.symm, by simpa using hr.symm⟩
    | cons e' a =>
      obtain ⟨rfl, -⟩ := List.cons.inj hr
      exact .inl ⟨a, ho⟩

theorem logged_run (h : Logged cb aspects order initial s) {x : α} {b : Body β E}
    {st : Option OpStatus}
    (hbase : Inv cb aspects order initial (s.exec.setNode x { s.exec.node x with body := b } st))
    (hb : advance cb aspects x (s.exec.node x).body = some (b, st)) :
    Logged cb aspects order initial ⟨s.exec.setNode x { s.exec.node x with body := b } st,
      s.log ++ (calls cb x (s.exec.node x).body).map (x, ·)⟩ := by
  have hidle : (s.exec.node x).body ≠ .idle := by
    intro hi
    rw [hi] at hb
    cases hb
  refine ⟨hbase, fun y => ?_, fun l₁ y c l₂ hl d hd => ?_⟩
  · rw [callsOf_append]
    rcases eq_or_ne x y with rfl | hy
    · rw [callsOf_self, List.append_assoc, ← h.told x, toCome_advance hb]
      simp [State.setNode]
    · rw [callsOf_other hy, List.append_nil, ← h.told y]
      simp [State.setNode, Ne.symm hy]
  · rcases split_append hl with ⟨a, ha⟩ | ⟨a, rfl, ha⟩
    · exact h.ordered l₁ y c a ha d hd
    · have hy : (y, c) ∈ (calls cb x (s.exec.node x).body).map (x, ·) := by simp [ha]
      obtain ⟨c', -, he⟩ := List.mem_map.1 hy
      obtain rfl : x = y := congrArg Prod.fst he
      have hend := dep_ended h.base hidle hd
      have hdx : x ≠ d := by
        rintro rfl
        rw [hend] at hb
        cases hb
      have hnone : callsOf a d = [] := by
        have hother := callsOf_other hdx (calls cb x (s.exec.node x).body)
        rw [ha, callsOf_append] at hother
        exact (List.append_eq_nil_iff.1 hother).1
      rw [callsOf_append, hnone, List.append_nil]
      exact callsOf_ended h hend

theorem logged_step (hq : ∀ x ∈ order, Quiet cb aspects x)
    (h : Logged cb aspects order initial s) (hst : ObservedStep cb aspects order s t) :
    Logged cb aspects order initial t := by
  have hbase := h.base.step hq (exec_step hst)
  cases hst with
  | run x hx hl hb => exact logged_run h hbase hb
  | other hst hbody =>
    refine ⟨hbase, fun x => ?_, h.ordered⟩
    have ht := h.told x
    rcases hbody x with he | ⟨hi, hb⟩
    · rwa [he]
    · rw [hi] at ht
      rwa [hb]

theorem logged_reachable (hq : ∀ x ∈ order, Quiet cb aspects x)
    (h : (observed cb aspects deps order initial).Reachable s) :
    Logged cb aspects order initial s := by
  refine System.Reachable.invariant (I := Logged cb aspects order initial) ?_ ?_ h
  · rintro s rfl
    exact ⟨Inv.init, fun x => rfl, fun l₁ x c l₂ hl => by simp at hl⟩
  · intro s t hs hst
    exact logged_step hq hs hst

end Observed

structure Obeys (cb : Callbacks α β E) (g : OpGraph α β) {n : Nat} (s : Observed g.deps n β E) :
    Prop where
  sequence : ∀ x, x ∈ g.ops → callsOf s.log x <+: protocol cb g.aspects x
  ordered : ∀ l₁ x c l₂, s.log = l₁ ++ (x, c) :: l₂ →
    ∀ d ∈ g.deps x, callsOf l₁ d = protocol cb g.aspects d
  complete : s.exec.all.out.resolved = true →
    ∀ x ∈ g.ops, callsOf s.log x = protocol cb g.aspects x

section Obeys

variable {g : OpGraph α β} {name : α → String} {cb : Callbacks α β E} {order : List α}
  {initial : StatusMap α} {s : Observed g.deps order.length β E}

theorem obeys_reachable (hw : g.WellFormed) (hn : g.ops.Nodup)
    (hq : ∀ x ∈ g.ops, Quiet cb g.aspects x) (hc : g.compile.1 = .ok order)
    (hs : (observed cb g.aspects g.deps order initial).Reachable s) : Obeys cb g s := by
  have hord := hw.compile_order hn hc
  have hlog := logged_reachable (fun x hx => hq x ((hord.mem x).1 hx)) hs
  refine ⟨fun x hx => ?_, fun l₁ x c l₂ hl d hd => ?_, fun hr x hx => ?_⟩
  · rw [← script_quiet (hq x hx), ← hlog.told x]
    exact List.prefix_append _ _
  · rw [← script_quiet (hq d (hw.deps_mem x d hd).1)]
    exact hlog.ordered l₁ x c l₂ hl d hd
  · rw [← script_quiet (hq x hx)]
    exact callsOf_ended hlog (hlog.base.joined hr ((hord.mem x).2 hx)).1

theorem resolved_of_stuck (hw : g.WellFormed) (hn : g.ops.Nodup)
    (hq : ∀ x ∈ g.ops, Quiet cb g.aspects x) (hc : g.compile.1 = .ok order)
    (hs : (observed cb g.aspects g.deps order initial).Reachable s)
    (hstuck : (observed cb g.aspects g.deps order initial).Quiescent s) :
    s.exec.all.out.resolved = true := by
  have hord := hw.compile_order hn hc
  have hlog := logged_reachable (fun x hx => hq x ((hord.mem x).1 hx)) hs
  refine resolved_of_quiescent hlog.base hord.nodup hord.ordered fun u hst => ?_
  obtain ⟨t, ht⟩ := observed_enabled hlog.base hst
  exact hstuck t ht

theorem observed_wellFounded (deps : α → List α) (aspects : List β) (order : List α) :
    WellFounded fun t s : Observed deps order.length β E => ObservedStep cb aspects order s t :=
  Subrelation.wf (fun hst => exec_step hst) (InvImage.wf Observed.exec step_wellFounded)

theorem op_calls_obey (hb : g.Built name) (ha : g.Acyclic) (hn : g.ops.Nodup)
    (hq : ∀ x ∈ g.ops, Quiet cb g.aspects x) (initial : StatusMap α) :
    ∃ order, g.compile.1 = .ok order ∧
      (WellFounded fun t s : Observed g.deps order.length β E =>
        ObservedStep cb g.aspects order s t) ∧
      ∀ s, (observed cb g.aspects g.deps order initial).Reachable s → Obeys cb g s ∧
        ((observed cb g.aspects g.deps order initial).Quiescent s →
          s.exec.all.out.resolved = true) := by
  obtain ⟨order, hc⟩ := hb.wellFormed.compile_ok hn ha
  exact ⟨order, hc, observed_wellFounded g.deps g.aspects order, fun s hs =>
    ⟨obeys_reachable hb.wellFormed hn hq hc hs, resolved_of_stuck hb.wellFormed hn hq hc hs⟩⟩

end Obeys

theorem op_calls_obey_single : ∃ order, (single true [()]).compile.1 = .ok order ∧
    ∀ s : Observed (single true [()]).deps order.length Unit String,
      (observed (plain (.ok ())) [()] (single true [()]).deps order ∅).Reachable s →
        callsOf s.log true <+: [.start, .shouldSkip (), .onBefore (), .execute,
          .onAfter () .success, .finish .success] := by
  have hbuilt : (single true [()]).Built fun _ => "op" := .addAspect (single_built true) (some ())
  have hquiet : ∀ x ∈ (single true [()]).ops,
      Quiet (plain (.ok ()) : Callbacks Bool Unit String) (single true [()]).aspects x :=
    fun x _ => .inr ⟨rfl, by simp [single, plain]⟩
  obtain ⟨order, hc, -, hall⟩ := op_calls_obey hbuilt (single_acyclic true [()])
    (by simp [single]) hquiet ∅
  exact ⟨order, hc, fun s hs => (hall s hs).1.sequence true (by simp [single])⟩

end Lark.Dag.OpExecutor
