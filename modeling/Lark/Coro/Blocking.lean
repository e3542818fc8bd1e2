import Lark.Coro.Future

namespace Lark.Coro.Blocking

open Lark.Base Lark.Coro.Future Relation

inductive Call where
  | wait
  | waitFor
  | get
  | getFor
  deriving DecidableEq

def Call.timed : Call → Bool
  | wait | get => false
  | waitFor | getFor => true

inductive Answer (E V : Type) where
  | done
  | flag (resolved : Bool)
  | outcome (o : Except E V)
  | timedOut

inductive Waiter (E V : Type) where
  | outside
  | waiting
  | woken
  | expired
  | passed
  | returned (answer : Answer E V)

inductive Resolver where
  | outside
  | setting
  | notifying
  | finished
  deriving DecidableEq

structure State (E V W R : Type) where
  future : FutureState E V
  waiter : W → Waiter E V
  resolver : R → Resolver

variable {E V W R : Type}

namespace State

def init : State E V W R := ⟨.pending, fun _ => .outside, fun _ => .outside⟩

variable [DecidableEq W] [DecidableEq R] (s : State E V W R)

def putWaiter (w : W) (ph : Waiter E V) : State E V W R :=
  { s with waiter := Function.update s.waiter w ph }

def putResolver (r : R) (ph : Resolver) : State E V W R :=
  { s with resolver := Function.update s.resolver r ph }

end State

def notified : Waiter E V → Waiter E V
  | .waiting => .woken
  | w => w

-- Where a call goes once its wait has ended with `resolved` true: Get takes the lock again.
def Call.through : Call → Waiter E V
  | .wait => .returned .done
  | .waitFor => .returned (.flag true)
  | .get | .getFor => .passed

def Call.givenUp : Call → Answer E V
  | .getFor => .timedOut
  | _ => .flag false

variable [DecidableEq W] [DecidableEq R]

-- What the future has no hold on: the calls, the passing of time and spurious wake-ups.
inductive Outer (call : W → Call) (s : State E V W R) : State E V W R → Prop
  | resolve (r : R) (o : Except E V) (hr : s.resolver r = .outside) :
    Outer call s { s.putResolver r (if s.future.resolved then .finished else .setting) with
      future := s.future.resolve o }
  | enter (w : W) (hw : s.waiter w = .outside) : Outer call s (s.putWaiter w .woken)
  | spurious (w : W) (hw : s.waiter w = .waiting) : Outer call s (s.putWaiter w .woken)
  | timeout (w : W) (hw : s.waiter w = .waiting) (ht : (call w).timed = true) :
    Outer call s (s.putWaiter w .expired)

-- The steps of calls under way. Each is one critical section, or one call between two.
inductive Work (call : W → Call) (s : State E V W R) : State E V W R → Prop
  | set (r : R) (hr : s.resolver r = .setting) :
    Work call s { s.putResolver r .notifying with future := { s.future with done := true } }
  | notify (r : R) (hr : s.resolver r = .notifying) :
    Work call s { s.putResolver r .finished with waiter := fun w => notified (s.waiter w) }
  | through (w : W) (hw : s.waiter w = .woken) (hf : s.future.resolved = true) :
    Work call s (s.putWaiter w (call w).through)
  | sleep (w : W) (hw : s.waiter w = .woken) (hf : s.future.resolved = false) :
    Work call s (s.putWaiter w .waiting)
  | late (w : W) (hw : s.waiter w = .expired) (hf : s.future.resolved = true) :
    Work call s (s.putWaiter w (call w).through)
  | giveUp (w : W) (hw : s.waiter w = .expired) (hf : s.future.resolved = false) :
    Work call s (s.putWaiter w (.returned (call w).givenUp))
  | read (w : W) (o : Except E V) (hw : s.waiter w = .passed) (ho : s.future.get = some o) :
    Work call s (s.putWaiter w (.returned (.outcome o)))

variable (call : W → Call)

def Step (s t : State E V W R) : Prop := Outer call s t ∨ Work call s t

def system : System (State E V W R) where
  initial := fun s => s = .init
  step := Step call

def Answer.fits : Answer E V → Call → Prop
  | .done, c => c = .wait
  | .flag _, c => c = .waitFor
  | .outcome _, c => c = .get ∨ c = .getFor
  | .timedOut, c => c = .getFor

def Saw (f : FutureState E V) (c : Call) : Waiter E V → Prop
  | .outside | .waiting | .woken => True
  | .expired => c.timed = true
  | .passed => f.resolved = true ∧ (c = .get ∨ c = .getFor)
  | .returned a =>
    a.fits c ∧
    match a with
    | .done => f.resolved = true
    | .flag b => b = true → f.resolved = true
    | .outcome o => f.get = some o
    | .timedOut => True

structure Inv (s : State E V W R) : Prop where
  fresh : s.future.resolved = false → s.future.value = none ∧ s.future.error = none
  settled : s.future.resolved = true → ∃ o, s.future.get = some o
  quiet : s.future.resolved = false → ∀ r, s.resolver r = .outside
  awake : s.future.resolved = true → (∃ w, s.waiter w = .waiting) →
    ∃ r, s.resolver r = .setting ∨ s.resolver r = .notifying
  saw : ∀ w, Saw s.future (call w) (s.waiter w)

section Inv

variable {call} {s t : State E V W R} {f : FutureState E V}

theorem get_none (h : f.resolved = false) : f.get = none := by
  simp [FutureState.get, h]

theorem get_resolve (h : f.resolved = false) (hf : f.value = none ∧ f.error = none)
    (o : Except E V) : (f.resolve o).get = some o := by
  cases o <;> simp [FutureState.resolve, FutureState.resolveValue, FutureState.resolveError,
    FutureState.get, h, hf]

theorem resolve_resolved (h : f.resolved = true) (o : Except E V) : f.resolve o = f := by
  cases o <;> simp [FutureState.resolve, FutureState.resolveValue, FutureState.resolveError, h]

theorem resolved_resolve (f : FutureState E V) (o : Except E V) : (f.resolve o).resolved = true := by
  cases h : f.resolved with
  | true => rw [resolve_resolved h, h]
  | false =>
    cases o <;> simp [FutureState.resolve, FutureState.resolveValue, FutureState.resolveError, h]

theorem Saw.resolve {c : Call} {ph : Waiter E V} (h : Saw f c ph) (o : Except E V) :
    Saw (f.resolve o) c ph := by
  cases hf : f.resolved with
  | true => rwa [resolve_resolved hf]
  | false =>
    cases ph with
    | outside | waiting | woken => trivial
    | expired => exact h
    | passed => exact ⟨resolved_resolve f o, h.2⟩
    | returned a =>
      cases a with
      | done => exact ⟨h.1, resolved_resolve f o⟩
      | flag b => exact ⟨h.1, fun _ => resolved_resolve f o⟩
      | outcome o' =>
        have hget := h.2
        rw [get_none hf] at hget
        cases hget
      | timedOut => exact ⟨h.1, trivial⟩

omit [DecidableEq R] in
theorem saw_put (h : ∀ w, Saw s.future (call w) (s.waiter w)) {w : W} {ph : Waiter E V}
    (hw : Saw s.future (call w) ph) (v : W) :
    Saw s.future (call v) ((s.putWaiter w ph).waiter v) := by
  rcases eq_or_ne v w with rfl | hv
  · simpa [State.putWaiter] using hw
  · simpa [State.putWaiter, hv] using h v

omit [DecidableEq R] in
theorem Inv.put (h : Inv call s) {w : W} {ph : Waiter E V} (hph : ph ≠ .waiting)
    (hw : Saw s.future (call w) ph) : Inv call (s.putWaiter w ph) := by
  refine ⟨h.fresh, h.settled, h.quiet, ?_, saw_put h.saw hw⟩
  rintro hf ⟨v, hv⟩
  refine h.awake hf ⟨v, ?_⟩
  rcases eq_or_ne v w with rfl | hne
  · exact absurd (by simpa [State.putWaiter] using hv) hph
  · simpa [State.putWaiter, hne] using hv

theorem saw_through (c : Call) (hf : f.resolved = true) : Saw f c c.through := by
  cases c with
  | wait => exact ⟨rfl, hf⟩
  | waitFor => exact ⟨rfl, fun _ => hf⟩
  | get => exact ⟨hf, .inl rfl⟩
  | getFor => exact ⟨hf, .inr rfl⟩

theorem through_ne_waiting (c : Call) : (c.through : Waiter E V) ≠ .waiting := by
  cases c <;> simp [Call.through]

theorem saw_givenUp {c : Call} (hc : c.timed = true) :
    Saw f c (.returned c.givenUp) := by
  cases c with
  | wait | get => cases hc
  | waitFor => exact ⟨rfl, fun h => by cases h⟩
  | getFor => exact ⟨rfl, trivial⟩

theorem Saw.notified {c : Call} {ph : Waiter E V} (h : Saw f c ph) :
    Saw f c (Blocking.notified ph) := by
  cases ph with
  | waiting => trivial
  | outside | woken | expired | passed | returned => exact h

omit [DecidableEq W] [DecidableEq R] in
theorem inv_init : Inv call (.init : State E V W R) := by
  refine ⟨fun _ => ⟨rfl, rfl⟩, ?_, fun _ _ => rfl, ?_, fun _ => trivial⟩
  · intro h
    cases h
  · intro h
    cases h

theorem inv_outer (h : Inv call s) (hst : Outer call s t) : Inv call t := by
  cases hst with
  | resolve r o hr =>
    cases hf : s.future.resolved with
    | true =>
      rw [resolve_resolved hf, if_pos rfl]
      refine ⟨h.fresh, h.settled, ?_, ?_, h.saw⟩
      · intro hn
        rw [hf] at hn
        cases hn
      · intro _ hw
        obtain ⟨r', hr'⟩ := h.awake hf hw
        have hne : r' ≠ r := by
          rintro rfl
          simp [hr] at hr'
        exact ⟨r', by simpa [State.putResolver, hne] using hr'⟩
    | false =>
      rw [if_neg (by simp)]
      refine ⟨?_, ?_, ?_, ?_, fun w => (h.saw w).resolve o⟩
      · intro hn
        rw [resolved_resolve] at hn
        cases hn
      · intro _
        exact ⟨o, get_resolve hf (h.fresh hf) o⟩
      · intro hn
        rw [resolved_resolve] at hn
        cases hn
      · intro _ _
        exact ⟨r, .inl (by simp [State.putResolver])⟩
  | enter w hw | spurious w hw => exact h.put (by simp) trivial
  | timeout w hw ht => exact h.put (by simp) ht

theorem inv_work (h : Inv call s) (hst : Work call s t) : Inv call t := by
  cases hst with
  | set r hr =>
    have hf : s.future.resolved = true := by
      by_contra hf
      have := h.quiet (by simpa using hf) r
      simp [hr] at this
    refine ⟨h.fresh, h.settled, fun hn => absurd (hf.symm.trans hn) (by simp), ?_, h.saw⟩
    intro _ _
    exact ⟨r, .inr (by simp [State.putResolver])⟩
  | notify r hr =>
    have hf : s.future.resolved = true := by
      by_contra hf
      have := h.quiet (by simpa using hf) r
      simp [hr] at this
    refine ⟨h.fresh, h.settled, fun hn => absurd (hf.symm.trans hn) (by simp), ?_, ?_⟩
    · rintro _ ⟨w, hw⟩
      have hw' : notified (s.waiter w) = .waiting := hw
      cases hs : s.waiter w <;> simp [hs, notified] at hw'
    · intro w
      exact (h.saw w).notified
  | through w hw hf | late w hw hf =>
    exact h.put (through_ne_waiting _) (saw_through _ hf)
  | sleep w hw hf =>
    exact ⟨h.fresh, h.settled, h.quiet, fun hn => absurd (hf.symm.trans hn) (by simp),
      saw_put h.saw trivial⟩
  | giveUp w hw hf =>
    have hsaw := h.saw w
    rw [hw] at hsaw
    exact h.put (by simp) (saw_givenUp hsaw)
  | read w o hw ho =>
    have hsaw := h.saw w
    rw [hw] at hsaw
    exact h.put (by simp) ⟨hsaw.2, ho⟩

theorem inv_reachable (h : (system call).Reachable s) : Inv call s := by
  refine System.Reachable.invariant (I := Inv call) ?_ ?_ h
  · rintro s rfl
    exact inv_init
  · rintro s t hs (hst | hst)
    · exact inv_outer hs hst
    · exact inv_work hs hst

end Inv

section Termination

variable {call} {s t : State E V W R}

def Waiter.rank : Waiter E V → Nat
  | .woken | .expired => 2
  | .passed => 1
  | _ => 0

def Resolver.rank (waiters : Nat) : Resolver → Nat
  | .setting => 2 * waiters + 2
  | .notifying => 2 * waiters + 1
  | _ => 0

variable [Fintype W] [Fintype R]

def State.rank (s : State E V W R) : Nat :=
  ∑ r, (s.resolver r).rank (Fintype.card W) + ∑ w, (s.waiter w).rank

omit [DecidableEq R] in
theorem rank_putWaiter {w : W} {ph : Waiter E V} (h : ph.rank < (s.waiter w).rank) :
    (s.putWaiter w ph).rank < s.rank :=
  Nat.add_lt_add_left (sum_update_lt (fun _ => Waiter.rank) h) _

theorem rank_through (c : Call) : (c.through : Waiter E V).rank < 2 := by
  cases c <;> simp [Call.through, Waiter.rank]

omit [DecidableEq W] [DecidableEq R] [Fintype R] in
theorem sum_notified (waiter : W → Waiter E V) :
    ∑ w, (notified (waiter w)).rank ≤ ∑ w, (waiter w).rank + 2 * Fintype.card W := by
  have hstep : ∀ w ∈ Finset.univ, (notified (waiter w)).rank ≤ (waiter w).rank + 2 := by
    intro w _
    cases waiter w <;> simp [notified, Waiter.rank]
  have hsum := Finset.sum_le_sum hstep
  rw [Finset.sum_add_distrib, Finset.sum_const, Finset.card_univ, smul_eq_mul] at hsum
  omega

theorem rank_work (h : Work call s t) : t.rank < s.rank := by
  cases h with
  | set r hr =>
    exact Nat.add_lt_add_right (sum_update_lt (fun _ => Resolver.rank (Fintype.card W))
      (by simp [hr, Resolver.rank])) _
  | notify r hr =>
    have hsum := sum_update_add (f := s.resolver) (x := r) (a := Resolver.finished)
      (Resolver.rank (Fintype.card W))
    have hwake := sum_notified s.waiter
    have hnotifying : Resolver.rank (Fintype.card W) .notifying = 2 * Fintype.card W + 1 := rfl
    have hfinished : Resolver.rank (Fintype.card W) .finished = 0 := rfl
    rw [hr, hnotifying, hfinished] at hsum
    simp only [State.rank, State.putResolver]
    omega
  | through w hw _ | late w hw _ =>
    exact rank_putWaiter (by rw [hw]; exact rank_through _)
  | sleep w hw _ | giveUp w hw _ | read w _ hw _ =>
    exact rank_putWaiter (by rw [hw]; simp [Waiter.rank])

theorem work_acc (s : State E V W R) : Acc (fun t s => Work call s t) s := by
  induction hm : s.rank using Nat.strong_induction_on generalizing s with
  | _ m ih =>
    subst hm
    exact ⟨s, fun t hst => ih _ (rank_work hst) t rfl⟩

end Termination

section Settled

variable {call} {s : State E V W R}

theorem waiter_of_settled (h : Inv call s) (hq : ∀ t, ¬ Work call s t) (w : W) :
    s.waiter w = .outside ∨ s.waiter w = .waiting ∨ ∃ a, s.waiter w = .returned a := by
  cases hw : s.waiter w with
  | outside => exact .inl rfl
  | waiting => exact .inr (.inl rfl)
  | returned a => exact .inr (.inr ⟨a, rfl⟩)
  | woken =>
    cases hf : s.future.resolved with
    | true => exact absurd (.through w hw hf) (hq _)
    | false => exact absurd (.sleep w hw hf) (hq _)
  | expired =>
    cases hf : s.future.resolved with
    | true => exact absurd (.late w hw hf) (hq _)
    | false => exact absurd (.giveUp w hw hf) (hq _)
  | passed =>
    have hsaw := h.saw w
    rw [hw] at hsaw
    obtain ⟨o, ho⟩ := h.settled hsaw.1
    exact absurd (.read w o hw ho) (hq _)

theorem not_waiting_of_settled (h : Inv call s) (hq : ∀ t, ¬ Work call s t)
    (hr : ∃ r, s.resolver r ≠ .outside) (w : W) : s.waiter w ≠ .waiting := by
  intro hw
  have hf : s.future.resolved = true := by
    by_contra hf
    obtain ⟨r, hr⟩ := hr
    exact hr (h.quiet (by simpa using hf) r)
  obtain ⟨r, hr | hr⟩ := h.awake hf ⟨w, hw⟩
  · exact hq _ (.set r hr)
  · exact hq _ (.notify r hr)

end Settled

structure Sound [Fintype W] [Fintype R] (s : State E V W R) : Prop where
  kept : ∀ t o, s.future.get = some o → Step call s t → t.future.get = some o
  fits : ∀ w a, s.waiter w = .returned a → a.fits (call w)
  agree : ∀ w o, s.waiter w = .returned (.outcome o) → s.future.get = some o
  waited : ∀ w, s.waiter w = .returned .done ∨ s.waiter w = .returned (.flag true) →
    ∃ o, s.future.get = some o
  gaveUp : ∀ t w, Step call s t → t.waiter w ≠ s.waiter w →
    t.waiter w = .returned (.flag false) ∨ t.waiter w = .returned .timedOut →
      (call w).timed = true ∧ s.future.get = none
  terminates : Acc (fun t s => Work call s t) s
  resolved : (∀ t, ¬ Work call s t) → (∃ r, s.resolver r ≠ .outside) →
    ∀ w, s.waiter w = .outside ∨ ∃ a, s.waiter w = .returned a
  unresolved : (∀ t, ¬ Work call s t) → (∀ r, s.resolver r = .outside) →
    ∀ w, s.waiter w = .outside ∨ s.waiter w = .waiting ∨ ∃ a, s.waiter w = .returned a

section Sound

variable {call} {s t : State E V W R}

theorem get_kept {o : Except E V} (ho : s.future.get = some o)
    (hst : Step call s t) : t.future.get = some o := by
  have hf : s.future.resolved = true := by
    by_contra hf
    rw [get_none (by simpa using hf)] at ho
    cases ho
  rcases hst with hst | hst
  · cases hst with
    | resolve r o' hr =>
      rw [← ho]
      exact congrArg FutureState.get (resolve_resolved hf o')
    | enter | spurious | timeout => exact ho
  · cases hst <;> exact ho

def GaveUp (ph : Waiter E V) : Prop := ph = .returned (.flag false) ∨ ph = .returned .timedOut

omit [DecidableEq R] in
theorem gaveUp_put {w v : W} {ph : Waiter E V} (hne : (s.putWaiter w ph).waiter v ≠ s.waiter v)
    (h : GaveUp ((s.putWaiter w ph).waiter v)) : v = w ∧ GaveUp ph := by
  rcases eq_or_ne v w with rfl | hv
  · exact ⟨rfl, by simpa [State.putWaiter] using h⟩
  · exact absurd (by simp [State.putWaiter, hv]) hne

theorem not_gaveUp_through (c : Call) : ¬ GaveUp (c.through : Waiter E V) := by
  cases c <;> simp [GaveUp, Call.through]

theorem gaveUp_step (h : Inv call s) (hst : Step call s t) {v : W}
    (hne : t.waiter v ≠ s.waiter v) (ha : GaveUp (t.waiter v)) :
    (call v).timed = true ∧ s.future.get = none := by
  rcases hst with hst | hst
  · cases hst with
    | resolve => exact absurd rfl hne
    | enter | spurious | timeout =>
      have hput := (gaveUp_put hne ha).2
      simp [GaveUp] at hput
  · cases hst with
    | set => exact absurd rfl hne
    | notify =>
      have hv : notified (s.waiter v) ≠ s.waiter v := hne
      have hv' : GaveUp (notified (s.waiter v)) := ha
      cases hs : s.waiter v <;> simp [hs, notified, GaveUp] at hv hv'
    | through | late => exact absurd (gaveUp_put hne ha).2 (not_gaveUp_through _)
    | sleep | read =>
      have hput := (gaveUp_put hne ha).2
      simp [GaveUp] at hput
    | giveUp w hw hf =>
      obtain ⟨rfl, -⟩ := gaveUp_put hne ha
      have hsaw := h.saw v
      rw [hw] at hsaw
      exact ⟨hsaw, get_none hf⟩

end Sound

theorem blocking_sound [Fintype W] [Fintype R] {s : State E V W R}
    (h : (system call).Reachable s) : Sound call s := by
  have hi := inv_reachable h
  refine ⟨?_, ?_, ?_, ?_, ?_, work_acc s, ?_, fun hq _ => waiter_of_settled hi hq⟩
  · intro t o ho hst
    exact get_kept ho hst
  · intro w a hw
    have hsaw := hi.saw w
    rw [hw] at hsaw
    exact hsaw.1
  · intro w o hw
    have hsaw := hi.saw w
    rw [hw] at hsaw
    exact hsaw.2
  · intro w hw
    have hsaw := hi.saw w
    rcases hw with hw | hw
    · rw [hw] at hsaw
      exact hi.settled hsaw.2
    · rw [hw] at hsaw
      exact hi.settled (hsaw.2 rfl)
  · intro t w hst hne ha
    exact gaveUp_step hi hst hne ha
  · intro hq hr w
    rcases waiter_of_settled hi hq w with hw | hw | hw
    · exact .inl hw
    · exact absurd hw (not_waiting_of_settled hi hq hr w)
    · exact .inr hw

theorem blocking_sound_late : ∃ s : State String Int Bool Unit,
    ((system fun w : Bool => if w then .get else .waitFor).Reachable s ∧
      s.waiter false = .returned (.flag false)) ∧ s.waiter true = .returned (.outcome (.ok 7)) ∧
        s.future.get = some (.ok 7) := by
  have h := System.reachable_initial (M := system (E := String) (V := Int) (R := Unit)
    fun w : Bool => if w then Call.get else Call.waitFor) rfl
  have h := h.step (.inl (.enter true rfl))
  have h := h.step (.inl (.enter false rfl))
  have h := h.step (.inr (.sleep true rfl rfl))
  have h := h.step (.inr (.sleep false rfl rfl))
  have h := h.step (.inl (.timeout false rfl rfl))
  have h := h.step (.inr (.giveUp false rfl rfl))
  have h := h.step (.inl (.resolve () (.ok 7) rfl))
  have h := h.step (.inr (.set () rfl))
  have h := h.step (.inr (.notify () rfl))
  have h := h.step (.inr (.through true rfl rfl))
  have h := h.step (.inr (.read true (.ok 7) rfl rfl))
  exact ⟨_, ⟨h, rfl⟩, rfl, (blocking_sound _ h).agree true (.ok 7) rfl⟩

end Lark.Coro.Blocking
