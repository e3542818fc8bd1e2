import Lark.Coro.AllOf

namespace Lark.Coro

open Lark.Base Lark.Coro.Future

variable {E : Type}

-- How far the call of a user function has come; `hops` counts further `pool.Schedule()`.
inductive Call (E : Type) where
  | idle
  | queued (hops : Nat)
  | running
  | ended (o : Except E Unit)

namespace Call

def Launched (c : Call E) : Prop := c ≠ .idle

def Ended (c : Call E) : Prop := ∃ o, c = .ended o

def rank : Call E → Nat
  | idle => 4
  | queued hops => hops + 2
  | running => 1
  | ended _ => 0

end Call

-- The coroutine of `ThenAsync`, which awaits one future and then what its function returned.
inductive Link (E : Type) where
  | detached
  | awaiting
  | inner
  | ended (o : Except E Unit)

def Link.rank : Link E → Nat
  | .detached => 7
  | .awaiting => 6
  | .inner => 1
  | .ended _ => 0

-- A coroutine of `RunProducer`. Once its call has ended it locks its future, then sets the
-- event: the flags of the future are its program counter.
structure Task (E : Type) where
  call : Call E
  future : FutureState E Unit

namespace Task

def idle : Task E := ⟨.idle, .pending⟩

def launch (hops : Nat) (t : Task E) : Task E := { t with call := .queued hops }

inductive Step (outcome : Except E Unit) : Task E → Task E → Prop
  | hop {t} {k : Nat} (h : t.call = .queued (k + 1)) : Step outcome t { t with call := .queued k }
  | start {t} (h : t.call = .queued 0) : Step outcome t { t with call := .running }
  | finish {t} (h : t.call = .running) : Step outcome t { t with call := .ended outcome }
  | lock {t o} (h : t.call = .ended o) (hr : t.future.resolved = false) :
      Step outcome t { t with future := t.future.resolve o }
  | set {t} (h : t.future.resolved = true) (hd : t.future.done = false) :
      Step outcome t { t with future := { t.future with done := true } }

structure Ok (outcome : Except E Unit) (t : Task E) : Prop where
  call : ∀ o, t.call = .ended o → o = outcome
  future : t.future = .pending ∨
    (t.future.resolved = true ∧ Holds t.future outcome ∧ t.call = .ended outcome)

variable {outcome : Except E Unit} {t t' : Task E}

def rank (t : Task E) : Nat := t.call.rank + unset t.future

theorem Step.rank_lt (h : Step outcome t t') : t'.rank < t.rank := by
  cases h with
  | hop hc => simp [rank, hc, Call.rank]
  | start hc => simp [rank, hc, Call.rank]
  | finish hc => simp [rank, hc, Call.rank]
  | lock hc hr => exact Nat.add_lt_add_left (unset_resolve hr _) _
  | set hr hd => exact Nat.add_lt_add_left (unset_done hd) _

theorem done_of_stuck (hl : t.call.Launched) (hq : ∀ t', ¬ Step outcome t t') :
    t.future.done = true := by
  cases hc : t.call with
  | idle => exact absurd hc hl
  | queued hops =>
    cases hops with
    | zero => exact absurd (.start hc) (hq _)
    | succ k => exact absurd (.hop hc) (hq _)
  | running => exact absurd (.finish hc) (hq _)
  | ended o =>
    cases hr : t.future.resolved with
    | false => exact absurd (.lock hc hr) (hq _)
    | true =>
      cases hd : t.future.done with
      | false => exact absurd (.set hr hd) (hq _)
      | true => rfl

theorem ok_idle : Ok outcome idle := by
  refine ⟨fun o h => ?_, .inl rfl⟩
  cases h

theorem Step.launched (h : Step outcome t t') : t'.call.Launched ↔ t.call.Launched := by
  cases h with
  | hop hc => simp [Call.Launched, hc]
  | start hc => simp [Call.Launched, hc]
  | finish hc => simp [Call.Launched, hc]
  | lock => exact Iff.rfl
  | set => exact Iff.rfl

theorem Step.ended (h : Step outcome t t') {o : Except E Unit} (he : t.call = .ended o) :
    t'.call = .ended o := by
  cases h with
  | hop hc => simp [hc] at he
  | start hc => simp [hc] at he
  | finish hc => simp [hc] at he
  | lock => exact he
  | set => exact he

namespace Ok

theorem launch (h : Ok outcome t) (hi : t.call = .idle) (hops : Nat) :
    Ok outcome (t.launch hops) := by
  refine ⟨fun o ho => ?_, h.future.imp_right ?_⟩
  · cases ho
  · rintro ⟨-, -, hc⟩
    rw [hi] at hc
    cases hc

theorem holds (h : Ok outcome t) {o : Except E Unit} (ho : Holds t.future o) :
    o = outcome ∧ t.call = .ended outcome := by
  rcases h.future with hp | ⟨-, hv, hc⟩
  · rw [hp] at ho
    exact absurd ho not_holds_pending
  · exact ⟨holds_unique ho hv, hc⟩

theorem of_resolved (h : Ok outcome t) (hr : t.future.resolved = true) :
    Holds t.future outcome ∧ t.call = .ended outcome := by
  rcases h.future with hp | ⟨-, hv, hc⟩
  · rw [hp] at hr
    cases hr
  · exact ⟨hv, hc⟩

theorem of_done (h : Ok outcome t) (hd : t.future.done = true) : Holds t.future outcome := by
  rcases h.future with hp | ⟨-, hv, -⟩
  · rw [hp] at hd
    cases hd
  · exact hv

theorem pending (h : Ok outcome t) (hr : t.future.resolved = false) : t.future = .pending := by
  rcases h.future with hp | ⟨hr', -⟩
  · exact hp
  · simp [hr] at hr'

theorem step_pending (h : Ok outcome t) {c : Call E} (hc : ∀ o, t.call ≠ .ended o)
    (hc' : ∀ o, c = .ended o → o = outcome) : Ok outcome { t with call := c } := by
  refine ⟨hc', .inl ?_⟩
  rcases h.future with hp | ⟨-, -, he⟩
  · exact hp
  · exact absurd he (hc _)

theorem step (h : Ok outcome t) (hst : Step outcome t t') : Ok outcome t' := by
  cases hst with
  | hop hc => exact h.step_pending (by simp [hc]) (by simp)
  | start hc => exact h.step_pending (by simp [hc]) (by simp)
  | finish hc => exact h.step_pending (by simp [hc]) (by simp [eq_comm])
  | lock hc hr =>
    obtain rfl := h.call _ hc
    refine ⟨h.call, .inr ⟨resolve_resolved, ?_, hc⟩⟩
    rw [h.pending hr]
    exact holds_resolve_pending
  | set hr hd =>
    obtain ⟨hv, hc⟩ := h.of_resolved hr
    exact ⟨h.call, .inr ⟨hr, holds_set hv, hc⟩⟩

theorem step_holds (h : Ok outcome t) (hst : Step outcome t t') {o : Except E Unit}
    (ho : Holds t.future o) : Holds t'.future o := by
  obtain ⟨rfl, hc⟩ := h.holds ho
  cases hst with
  | hop => exact ho
  | start => exact ho
  | finish => exact ho
  | lock hc' hr =>
    rw [h.pending hr] at ho
    exact absurd ho not_holds_pending
  | set => exact holds_set ho

end Ok

end Task

end Lark.Coro
