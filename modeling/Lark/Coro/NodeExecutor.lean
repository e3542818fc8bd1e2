import Lark.Base.Counting
import Lark.Base.Transition
import Mathlib.Data.Fintype.Card
import Mathlib.Data.Fintype.EquivFin
import Mathlib.Order.WellFounded
import Mathlib.Tactic

namespace Lark.Coro.NodeExecutor

open Lark.Base

inductive Status where
  | pending
  | running
  | success
  | failed
  | fallback
  | skipped
  deriving DecidableEq, Repr

def Status.terminal : Status → Bool
  | .pending | .running => false
  | _ => true

inductive Phase (n : Nat) where
  | notSpawned
  | queued
  | awaiting (k : Nat)
  | suspended (k : Nat)
  | running
  | bodySuspended
  | completed
  | setting (waiters : List (Fin n))
  | counting
  | signalling
  | finished
  deriving DecidableEq

namespace Phase

variable {n : Nat}

def active : Phase n → Bool
  | awaiting _ | running | completed | setting _ | counting | signalling => true
  | _ => false

def ended : Phase n → Bool
  | completed | setting _ | counting | signalling | finished => true
  | _ => false

def started : Phase n → Bool
  | running | bodySuspended => true
  | ph => ph.ended

def signalled : Phase n → Bool
  | setting _ | counting | signalling | finished => true
  | _ => false

def counted : Phase n → Bool
  | signalling | finished => true
  | _ => false

theorem eq_finished {ph : Phase n} (h : ph.counted = true) (hs : ph ≠ .signalling) :
    ph = .finished := by
  cases ph <;> simp_all [counted]

end Phase

inductive MainPc where
  | idle
  | spawning (i : Nat)
  | waiting
  | returned
  deriving DecidableEq

inductive Thread (w : Nat) where
  | main
  | worker (i : Fin w)
  | external (j : Nat)
  deriving DecidableEq

-- What one executor's node coroutine does: `startStatus` is the status its prologue leaves,
-- `outcome` the statuses its body can end in, `suspends` whether the body may release its thread.
structure Program (n : Nat) where
  deps : Fin n → List (Fin n)
  disabled : Fin n → Bool
  startStatus : Status
  outcome : Status → Bool
  suspends : Bool
  start_terminal : startStatus.terminal = false
  outcome_terminal : ∀ o, outcome o = true → o.terminal = true
  outcome_exists : ∃ o, outcome o = true

structure State (n w : Nat) where
  phase : Fin n → Phase n
  status : Fin n → Status
  isSet : Fin n → Bool
  waiters : Fin n → List (Fin n)
  queue : List (Fin n)
  stack : Thread w → List (Fin n)
  main : MainPc
  remaining : Nat
  promised : Nat
  starts : Fin n → Nat

variable {n w : Nat}

def State.init : State n w where
  phase := fun _ => .notSpawned
  status := fun _ => .pending
  isSet := fun _ => false
  waiters := fun _ => []
  queue := []
  stack := fun _ => []
  main := .idle
  remaining := n
  promised := 0
  starts := fun _ => 0

def State.setPhase (s : State n w) (x : Fin n) (ph : Phase n) : State n w :=
  { s with phase := Function.update s.phase x ph }

def State.setStack (s : State n w) (t : Thread w) (xs : List (Fin n)) : State n w :=
  { s with stack := Function.update s.stack t xs }

def State.setStatus (s : State n w) (x : Fin n) (st : Status) : State n w :=
  { s with status := Function.update s.status x st }

def State.resetRunState (s : State n w) : State n w :=
  { s with
    phase := fun _ => .notSpawned
    status := fun _ => .pending
    isSet := fun _ => false
    main := if n = 0 then .returned else .spawning 0
    remaining := n
    promised := 0
    starts := fun _ => 0 }

variable (p : Program n)

inductive RunStep : State n w → State n w → Prop
  | spawn {s} (i : Fin n) (hm : s.main = .spawning i) (hs : s.stack .main = [])
      (hd : p.disabled i = false) :
      RunStep s { s.setPhase i .queued with queue := s.queue ++ [i], main := .spawning (i + 1) }
  | skip {s} (i : Fin n) (hm : s.main = .spawning i) (hs : s.stack .main = [])
      (hd : p.disabled i = true) :
      RunStep s { ((s.setPhase i .completed).setStatus i .skipped).setStack .main [i] with
        main := .spawning (i + 1) }
  | spawnEnd {s} (hm : s.main = .spawning n) (hs : s.stack .main = []) :
      RunStep s { s with main := .waiting }
  | wait {s} (hm : s.main = .waiting) (hp : 0 < s.promised) : RunStep s { s with main := .returned }
  | dequeue {s} (i : Fin w) {x q} (hs : s.stack (.worker i) = []) (hq : s.queue = x :: q) :
      RunStep s { (s.setPhase x (.awaiting 0)).setStack (.worker i) [x] with queue := q }
  | awaitSet {s t x rest k d} (ht : s.stack t = x :: rest) (hx : s.phase x = .awaiting k)
      (hk : (p.deps x)[k]? = some d) (hd : s.isSet d = true) :
      RunStep s (s.setPhase x (.awaiting (k + 1)))
  | awaitSuspend {s t x rest k d} (ht : s.stack t = x :: rest) (hx : s.phase x = .awaiting k)
      (hk : (p.deps x)[k]? = some d) (hd : s.isSet d = false) :
      RunStep s { (s.setPhase x (.suspended k)).setStack t rest with
        waiters := Function.update s.waiters d (x :: s.waiters d) }
  | start {s t x rest k} (ht : s.stack t = x :: rest) (hx : s.phase x = .awaiting k)
      (hk : (p.deps x)[k]? = none) :
      RunStep s { (s.setPhase x .running).setStatus x p.startStatus with
        starts := Function.update s.starts x (s.starts x + 1) }
  | bodySuspend {s t x rest} (ht : s.stack t = x :: rest) (hx : s.phase x = .running)
      (hp : p.suspends = true) : RunStep s ((s.setPhase x .bodySuspended).setStack t rest)
  | bodyResume {s x} (j : Nat) (hs : s.stack (.external j) = []) (hx : s.phase x = .bodySuspended) :
      RunStep s ((s.setPhase x .running).setStack (.external j) [x])
  | finish {s t x rest} (o : Status) (ht : s.stack t = x :: rest) (hx : s.phase x = .running)
      (ho : p.outcome o = true) : RunStep s ((s.setPhase x .completed).setStatus x o)
  | exchange {s t x rest} (ht : s.stack t = x :: rest) (hx : s.phase x = .completed) :
      RunStep s { s.setPhase x (.setting (if s.isSet x then [] else s.waiters x)) with
        isSet := Function.update s.isSet x true
        waiters := Function.update s.waiters x [] }
  | resume {s t x rest y ws k} (ht : s.stack t = x :: rest) (hx : s.phase x = .setting (y :: ws))
      (hy : s.phase y = .suspended k) :
      RunStep s (((s.setPhase x (.setting ws)).setPhase y (.awaiting (k + 1))).setStack t (y :: x :: rest))
  | setEnd {s t x rest} (ht : s.stack t = x :: rest) (hx : s.phase x = .setting []) :
      RunStep s (s.setPhase x .counting)
  | countLast {s t x rest} (ht : s.stack t = x :: rest) (hx : s.phase x = .counting)
      (hr : s.remaining = 1) : RunStep s { s.setPhase x .signalling with remaining := 0 }
  | count {s t x rest} (ht : s.stack t = x :: rest) (hx : s.phase x = .counting)
      (hr : s.remaining ≠ 1) :
      RunStep s { (s.setPhase x .finished).setStack t rest with remaining := s.remaining - 1 }
  | signal {s t x rest} (ht : s.stack t = x :: rest) (hx : s.phase x = .signalling) :
      RunStep s { (s.setPhase x .finished).setStack t rest with promised := s.promised + 1 }

inductive Step : State n w → State n w → Prop
  | run {s t} (h : RunStep p s t) : Step s t
  | execute {s} (h : s.main = .idle ∨ s.main = .returned) : Step s s.resetRunState

def system (w : Nat) : System (State n w) where
  initial := fun s => s = .init
  step := Step p

structure Stacked (phase : Fin n → Phase n) (stack : Thread w → List (Fin n)) : Prop where
  nodup : ∀ t, (stack t).Nodup
  unique : ∀ t t' x, x ∈ stack t → x ∈ stack t' → t = t'
  active : ∀ x, (phase x).active = true ↔ ∃ t, x ∈ stack t
  below : ∀ t x rest, stack t = x :: rest → ∀ y ∈ rest, ∃ ws, phase y = .setting ws

section

variable {phase : Fin n → Phase n} {stack : Thread w → List (Fin n)} {t : Thread w} {x : Fin n}
  {rest : List (Fin n)} {ph : Phase n}

variable (ph) in
theorem stacked_top (h : Stacked phase stack) (ht : stack t = x :: rest) (hp : ph.active = true) :
    Stacked (Function.update phase x ph) stack := by
  have hx : (phase x).active = true := (h.active x).2 ⟨t, by simp [ht]⟩
  refine ⟨h.nodup, h.unique, ?_, ?_⟩
  · intro y
    rcases eq_or_ne y x with rfl | hy
    · simpa [hp] using (h.active y).1 hx
    · simpa [hy] using h.active y
  · intro t' y rest' ht' z hz
    have hzx : z ≠ x := by
      rintro rfl
      have htt : t' = t := h.unique t' t z (by simp [ht', hz]) (by simp [ht])
      subst htt
      rw [ht] at ht'
      cases ht'
      have := h.nodup t'
      simp [ht, hz] at this
    simpa [hzx] using h.below t' y rest' ht' z hz

theorem stacked_pop (h : Stacked phase stack) (ht : stack t = x :: rest) (hp : ph.active = false) :
    Stacked (Function.update phase x ph) (Function.update stack t rest) := by
  have hnd := h.nodup t
  rw [ht] at hnd
  obtain ⟨hxr, hnd⟩ := List.nodup_cons.1 hnd
  have sub : ∀ t' y, y ∈ Function.update stack t rest t' → y ∈ stack t' ∧ y ≠ x := by
    intro t' y hy
    rcases eq_or_ne t' t with rfl | ht'
    · rw [Function.update_self] at hy
      exact ⟨by simp [ht, hy], fun e => hxr (e ▸ hy)⟩
    · rw [Function.update_of_ne ht'] at hy
      refine ⟨hy, fun e => ht' ?_⟩
      subst e
      exact h.unique t' t y hy (by simp [ht])
  refine ⟨?_, ?_, ?_, ?_⟩
  · intro t'
    rcases eq_or_ne t' t with rfl | ht'
    · simpa using hnd
    · simpa [ht'] using h.nodup t'
  · intro t₁ t₂ y h₁ h₂
    exact h.unique t₁ t₂ y (sub _ _ h₁).1 (sub _ _ h₂).1
  · intro y
    rcases eq_or_ne y x with rfl | hy
    · simp only [Function.update_self, hp, Bool.false_eq_true, false_iff, not_exists]
      intro t' ht'
      exact (sub _ _ ht').2 rfl
    · simp only [Function.update_of_ne hy, h.active y]
      constructor
      · rintro ⟨t', ht'⟩
        refine ⟨t', ?_⟩
        rcases eq_or_ne t' t with rfl | hne
        · rw [ht] at ht'
          simpa [hy] using ht'
        · simpa [hne] using ht'
      · rintro ⟨t', ht'⟩
        exact ⟨t', (sub _ _ ht').1⟩
  · intro t' y rest' ht' z hz
    have hmem : z ∈ Function.update stack t rest t' := by simp [ht', hz]
    rw [Function.update_of_ne (sub _ _ hmem).2]
    rcases eq_or_ne t' t with rfl | hne
    · rw [Function.update_self] at ht'
      exact h.below t' x rest ht z (by simp [ht', hz])
    · rw [Function.update_of_ne hne] at ht'
      exact h.below t' y rest' ht' z hz

variable (ph) in
theorem stacked_push (h : Stacked phase stack) (hx : (phase x).active = false)
    (hp : ph.active = true) (hs : ∀ y ∈ stack t, ∃ ws, phase y = .setting ws) :
    Stacked (Function.update phase x ph) (Function.update stack t (x :: stack t)) := by
  have hnot : ∀ t', x ∉ stack t' := by
    intro t' hm
    simpa [hx] using (h.active x).2 ⟨t', hm⟩
  have mem : ∀ t' y, y ∈ Function.update stack t (x :: stack t) t' →
      y ∈ stack t' ∨ y = x ∧ t' = t := by
    intro t' y hy
    rcases eq_or_ne t' t with rfl | ht'
    · rw [Function.update_self, List.mem_cons] at hy
      exact hy.symm.imp_right fun e => ⟨e, rfl⟩
    · exact .inl (by simpa [ht'] using hy)
  refine ⟨?_, ?_, ?_, ?_⟩
  · intro t'
    rcases eq_or_ne t' t with rfl | ht'
    · simpa using ⟨hnot t', h.nodup t'⟩
    · simpa [ht'] using h.nodup t'
  · intro t₁ t₂ y h₁ h₂
    rcases mem _ _ h₁ with hm₁ | ⟨rfl, rfl⟩
    · rcases mem _ _ h₂ with hm₂ | ⟨rfl, rfl⟩
      · exact h.unique _ _ _ hm₁ hm₂
      · exact absurd hm₁ (hnot _)
    · rcases mem _ _ h₂ with hm₂ | ⟨-, rfl⟩
      · exact absurd hm₂ (hnot _)
      · rfl
  · intro y
    rcases eq_or_ne y x with rfl | hy
    · simp only [Function.update_self, hp, true_iff]
      exact ⟨t, by simp⟩
    · simp only [Function.update_of_ne hy, h.active y]
      constructor
      · rintro ⟨t', ht'⟩
        refine ⟨t', ?_⟩
        rcases eq_or_ne t' t with rfl | hne
        · simp [ht']
        · simpa [hne] using ht'
      · rintro ⟨t', ht'⟩
        rcases mem _ _ ht' with h' | ⟨rfl, -⟩
        · exact ⟨t', h'⟩
        · exact absurd rfl hy
  · intro t' y rest' ht' z hz
    have hzx : z ∈ stack t' := by
      rcases eq_or_ne t' t with rfl | hne
      · rw [Function.update_self] at ht'
        cases ht'
        exact hz
      · rw [Function.update_of_ne hne] at ht'
        simp [ht', hz]
    have hne : z ≠ x := fun e => hnot t' (e ▸ hzx)
    rw [Function.update_of_ne hne]
    rcases eq_or_ne t' t with rfl | htt
    · exact hs z hzx
    · rw [Function.update_of_ne htt] at ht'
      exact h.below t' y rest' ht' z hz

theorem stacked_inactive (h : Stacked phase stack) (hx : (phase x).active = false)
    (hp : ph.active = false) : Stacked (Function.update phase x ph) stack := by
  have hnot : ∀ t, x ∉ stack t := by
    intro t' hm
    simpa [hx] using (h.active x).2 ⟨t', hm⟩
  refine ⟨h.nodup, h.unique, ?_, ?_⟩
  · intro y
    rcases eq_or_ne y x with rfl | hy
    · simpa [hp] using hnot
    · simpa [hy] using h.active y
  · intro t' y rest' ht' z hz
    have hzx : z ≠ x := fun e => hnot t' (by simp [ht', ← e, hz])
    simpa [hzx] using h.below t' y rest' ht' z hz

end

def MainPc.spawned (n : Nat) : MainPc → Nat
  | .idle => 0
  | .spawning i => i
  | .waiting | .returned => n

def MainPc.inRun : MainPc → Bool
  | .spawning _ | .waiting => true
  | _ => false

structure Queued (phase : Fin n → Phase n) (queue : List (Fin n)) (main : MainPc) : Prop where
  nodup : queue.Nodup
  queued : ∀ x, x ∈ queue ↔ phase x = .queued
  spawned : ∀ x : Fin n, phase x = .notSpawned ↔ main.spawned n ≤ x
  bound : main.spawned n ≤ n
  nonempty : main.inRun = true → 0 < n

section

variable {phase : Fin n → Phase n} {queue : List (Fin n)} {main : MainPc} {x : Fin n} {ph : Phase n}

variable (ph) in
theorem queued_frame (h : Queued phase queue main) (hq : phase x ≠ .queued)
    (hn : phase x ≠ .notSpawned) (hq' : ph ≠ .queued) (hn' : ph ≠ .notSpawned) :
    Queued (Function.update phase x ph) queue main := by
  refine ⟨h.nodup, ?_, ?_, h.bound, h.nonempty⟩
  · intro y
    rcases eq_or_ne y x with rfl | hy
    · simp [h.queued, hq, hq']
    · simp [hy, h.queued]
  · intro y
    rcases eq_or_ne y x with rfl | hy
    · simp [← h.spawned, hn, hn']
    · simp [hy, h.spawned]

theorem spawned_next (i : Fin n) (h : Queued phase queue (.spawning i)) (hph : ph ≠ .notSpawned)
    (y : Fin n) : Function.update phase i ph y = .notSpawned ↔
      (MainPc.spawning (i + 1)).spawned n ≤ y := by
  rcases eq_or_ne y i with rfl | hy
  · simp [MainPc.spawned, hph]
  · have hne : (y : Nat) ≠ i := fun e => hy (Fin.ext e)
    simp only [Function.update_of_ne hy, h.spawned, MainPc.spawned]
    omega

theorem queued_spawn (i : Fin n) (h : Queued phase queue (.spawning i)) :
    Queued (Function.update phase i .queued) (queue ++ [i]) (.spawning (i + 1)) := by
  have hi : phase i = .notSpawned := (h.spawned i).2 le_rfl
  refine ⟨?_, ?_, ?_, i.isLt, fun _ => h.nonempty rfl⟩
  · rw [List.nodup_append]
    refine ⟨h.nodup, by simp, ?_⟩
    intro y hy z hz
    rintro rfl
    have := (h.queued y).1 hy
    simp_all
  · intro y
    rcases eq_or_ne y i with rfl | hy
    · simp
    · simp [hy, h.queued]
  · intro y
    exact spawned_next i h (by simp) y

theorem queued_skip (i : Fin n) (h : Queued phase queue (.spawning i)) :
    Queued (Function.update phase i .completed) queue (.spawning (i + 1)) := by
  have hi : phase i = .notSpawned := (h.spawned i).2 le_rfl
  refine ⟨h.nodup, ?_, ?_, i.isLt, fun _ => h.nonempty rfl⟩
  · intro y
    rcases eq_or_ne y i with rfl | hy
    · simp [h.queued, hi]
    · simp [hy, h.queued]
  · intro y
    exact spawned_next i h (by simp) y

theorem queued_dequeue {q : List (Fin n)} (h : Queued phase (x :: q) main) :
    Queued (Function.update phase x (.awaiting 0)) q main := by
  obtain ⟨hx, hnd⟩ := List.nodup_cons.1 h.nodup
  have hq : phase x = .queued := (h.queued x).1 (by simp)
  refine ⟨hnd, ?_, ?_, h.bound, h.nonempty⟩
  · intro y
    rcases eq_or_ne y x with rfl | hy
    · simp [hx]
    · have := h.queued y
      simpa [hy] using this
  · intro y
    rcases eq_or_ne y x with rfl | hy
    · simp [← h.spawned, hq]
    · simp [hy, h.spawned]

end

def pendingOn (phase : Fin n → Phase n) (waiters : Fin n → List (Fin n)) (d : Fin n) :
    List (Fin n) :=
  match phase d with
  | .setting ws => ws
  | _ => waiters d

theorem pendingOn_of_not_setting {phase : Fin n → Phase n} {waiters : Fin n → List (Fin n)}
    {d : Fin n} (h : ∀ ws, phase d ≠ .setting ws) : pendingOn phase waiters d = waiters d := by
  unfold pendingOn
  split
  · exact absurd ‹_› (h _)
  · rfl

structure Events (phase : Fin n → Phase n) (isSet : Fin n → Bool)
    (waiters : Fin n → List (Fin n)) : Prop where
  signalled : ∀ x, isSet x = (phase x).signalled
  empty : ∀ x, isSet x = true → waiters x = []
  nodup : ∀ d, (pendingOn phase waiters d).Nodup
  pending : ∀ d x, x ∈ pendingOn phase waiters d ↔
    ∃ k, phase x = .suspended k ∧ (p.deps x)[k]? = some d
  ready : ∀ x k, phase x = .awaiting k ∨ phase x = .suspended k →
    ∀ j < k, ∀ d, (p.deps x)[j]? = some d → isSet d = true
  passed : ∀ x, p.disabled x = false → (phase x).started = true → ∀ d ∈ p.deps x, isSet d = true
  skipped : ∀ x, p.disabled x = true → phase x = .notSpawned ∨ (phase x).ended = true
  blocked : ∀ x k, phase x = .suspended k → ∃ d, (p.deps x)[k]? = some d

section

variable {p} {phase : Fin n → Phase n} {isSet : Fin n → Bool} {waiters : Fin n → List (Fin n)}
  {x : Fin n} {ph : Phase n}

theorem events_frame (h : Events p phase isSet waiters)
    (hsig : ph.signalled = (phase x).signalled)
    (hset : ∀ ws, phase x ≠ .setting ws) (hset' : ∀ ws, ph ≠ .setting ws)
    (hsus : ∀ k, phase x ≠ .suspended k) (hsus' : ∀ k, ph ≠ .suspended k)
    (hready : ∀ k, ph = .awaiting k → ∀ j < k, ∀ d, (p.deps x)[j]? = some d → isSet d = true)
    (hpassed : p.disabled x = false → ph.started = true → ∀ d ∈ p.deps x, isSet d = true)
    (hskip : p.disabled x = true → ph.ended = true) :
    Events p (Function.update phase x ph) isSet waiters := by
  have hpend : ∀ d, pendingOn (Function.update phase x ph) waiters d = pendingOn phase waiters d := by
    intro d
    rcases eq_or_ne d x with rfl | hd
    · rw [pendingOn_of_not_setting hset, pendingOn_of_not_setting (by simpa using hset')]
    · simp [pendingOn, hd]
  refine ⟨?_, h.empty, ?_, ?_, ?_, ?_, ?_, ?_⟩
  · intro y
    rcases eq_or_ne y x with rfl | hy
    · simp [h.signalled, hsig]
    · simp [hy, h.signalled]
  · intro d
    rw [hpend]
    exact h.nodup d
  · intro d y
    rw [hpend, h.pending]
    rcases eq_or_ne y x with rfl | hy
    · simp [hsus, hsus']
    · simp [hy]
  · intro y k hy
    rcases eq_or_ne y x with rfl | hyx
    · simp only [Function.update_self] at hy
      exact hready k (hy.resolve_right (hsus' k))
    · exact h.ready y k (by simpa [hyx] using hy)
  · intro y hd hy
    rcases eq_or_ne y x with rfl | hyx
    · exact hpassed hd (by simpa using hy)
    · exact h.passed y hd (by simpa [hyx] using hy)
  · intro y hd
    rcases eq_or_ne y x with rfl | hyx
    · exact .inr (by simpa using hskip hd)
    · simpa [hyx] using h.skipped y hd
  · intro y k hy
    rcases eq_or_ne y x with rfl | hyx
    · exact absurd (by simpa using hy) (hsus' k)
    · exact h.blocked y k (by simpa [hyx] using hy)

theorem not_disabled_of (h : Events p phase isSet waiters) (hn : phase x ≠ .notSpawned)
    (he : (phase x).ended = false) : p.disabled x = false := by
  by_contra hd
  rcases h.skipped x (by simpa using hd) with h' | h'
  · exact hn h'
  · simp [he] at h'

theorem events_started (h : Events p phase isSet waiters) (hstart : (phase x).started = true)
    (hsig : ph.signalled = (phase x).signalled) (hset : ∀ ws, phase x ≠ .setting ws)
    (hset' : ∀ ws, ph ≠ .setting ws) (hwait : ∀ k, ph ≠ .awaiting k) (hsus : ∀ k, ph ≠ .suspended k)
    (hend : (phase x).ended = true → ph.ended = true) :
    Events p (Function.update phase x ph) isSet waiters := by
  refine events_frame h hsig hset hset' (fun k hk => ?_) hsus (fun k hk => absurd hk (hwait k))
    (fun hd _ => h.passed x hd hstart) fun hd => ?_
  · rw [hk] at hstart
    cases hstart
  · rcases h.skipped x hd with hn | he
    · rw [hn] at hstart
      cases hstart
    · exact hend he

theorem events_suspend {k : Nat} {d : Fin n} (h : Events p phase isSet waiters)
    (hx : phase x = .awaiting k) (hk : (p.deps x)[k]? = some d) (hd : isSet d = false) :
    Events p (Function.update phase x (.suspended k)) isSet
      (Function.update waiters d (x :: waiters d)) := by
  have hnd := not_disabled_of h (x := x) (by simp [hx]) (by simp [hx, Phase.ended])
  have hdset : ∀ ws, phase d ≠ .setting ws := by
    intro ws hs
    have := h.signalled d
    simp [hs, Phase.signalled, hd] at this
  have hpd : pendingOn (Function.update phase x (.suspended k))
      (Function.update waiters d (x :: waiters d)) d = x :: pendingOn phase waiters d := by
    have hd' : ∀ ws, Function.update phase x (.suspended k) d ≠ .setting ws := by
      intro ws
      rcases eq_or_ne d x with rfl | hne
      · simp
      · simpa [hne] using hdset ws
    rw [pendingOn_of_not_setting hd', pendingOn_of_not_setting hdset, Function.update_self]
  have hpo : ∀ e, e ≠ d → pendingOn (Function.update phase x (.suspended k))
      (Function.update waiters d (x :: waiters d)) e = pendingOn phase waiters e := by
    intro e he
    rcases eq_or_ne e x with rfl | hne
    · rw [pendingOn_of_not_setting (by simp), pendingOn_of_not_setting (by simp [hx]),
        Function.update_of_ne he]
    · simp [pendingOn, hne, he]
  have hnot : ∀ e, x ∉ pendingOn phase waiters e := by
    intro e he
    obtain ⟨j, hj, -⟩ := (h.pending e x).1 he
    simp [hx] at hj
  refine ⟨?_, ?_, ?_, ?_, ?_, ?_, ?_, ?_⟩
  · intro y
    rcases eq_or_ne y x with rfl | hy
    · simp [h.signalled, hx, Phase.signalled]
    · simp [hy, h.signalled]
  · intro y hy
    have hyd : y ≠ d := by
      rintro rfl
      simp [hd] at hy
    simpa [hyd] using h.empty y hy
  · intro e
    rcases eq_or_ne e d with rfl | he
    · rw [hpd]
      exact List.nodup_cons.2 ⟨hnot e, h.nodup e⟩
    · rw [hpo e he]
      exact h.nodup e
  · intro e y
    rcases eq_or_ne y x with rfl | hy
    · rcases eq_or_ne e d with rfl | he
      · simp [hpd, hk]
      · have : ¬ some d = some e := by simpa using Ne.symm he
        simp [hpo e he, hnot e, hk, this]
    · rcases eq_or_ne e d with rfl | he
      · simp [hpd, hy, h.pending]
      · simp [hpo e he, hy, h.pending]
  · intro y j hy
    rcases eq_or_ne y x with rfl | hyx
    · have hj : k = j := by simpa using hy
      subst hj
      exact h.ready y k (.inl hx)
    · exact h.ready y j (by simpa [hyx] using hy)
  · intro y hyd hy
    rcases eq_or_ne y x with rfl | hyx
    · simp [Phase.started, Phase.ended] at hy
    · exact h.passed y hyd (by simpa [hyx] using hy)
  · intro y hyd
    rcases eq_or_ne y x with rfl | hyx
    · simp [hnd] at hyd
    · simpa [hyx] using h.skipped y hyd
  · intro y j hy
    rcases eq_or_ne y x with rfl | hyx
    · have hj : k = j := by simpa using hy
      subst hj
      exact ⟨d, hk⟩
    · exact h.blocked y j (by simpa [hyx] using hy)

theorem isSet_mono {d y : Fin n} (h : isSet y = true) : Function.update isSet d true y = true := by
  rcases eq_or_ne y d with rfl | hy
  · simp
  · simpa [hy] using h

theorem events_exchange (h : Events p phase isSet waiters) (hx : phase x = .completed) :
    Events p (Function.update phase x (.setting (if isSet x then [] else waiters x)))
      (Function.update isSet x true) (Function.update waiters x []) := by
  have hunset : isSet x = false := by simp [h.signalled, hx, Phase.signalled]
  have hpend : ∀ d, pendingOn (Function.update phase x (.setting (if isSet x then [] else waiters x)))
      (Function.update waiters x []) d = pendingOn phase waiters d := by
    intro d
    rcases eq_or_ne d x with rfl | hd
    · have hd : pendingOn phase waiters d = waiters d := pendingOn_of_not_setting (by simp [hx])
      rw [hd]
      simp [pendingOn, hunset]
    · simp [pendingOn, hd]
  refine ⟨?_, ?_, ?_, ?_, ?_, ?_, ?_, ?_⟩
  · intro y
    rcases eq_or_ne y x with rfl | hy
    · simp [Phase.signalled]
    · simp [hy, h.signalled]
  · intro y hy
    rcases eq_or_ne y x with rfl | hyx
    · simp
    · simpa [hyx] using h.empty y (by simpa [hyx] using hy)
  · intro d
    rw [hpend]
    exact h.nodup d
  · intro d y
    rw [hpend, h.pending]
    rcases eq_or_ne y x with rfl | hy
    · simp [hx]
    · simp [hy]
  · intro y k hy j hj d hd
    rcases eq_or_ne y x with rfl | hyx
    · simp at hy
    · exact isSet_mono (h.ready y k (by simpa [hyx] using hy) j hj d hd)
  · intro y hyd hy d hd
    apply isSet_mono
    rcases eq_or_ne y x with rfl | hyx
    · exact h.passed y hyd (by simp [hx, Phase.started, Phase.ended]) d hd
    · exact h.passed y hyd (by simpa [hyx] using hy) d hd
  · intro y hyd
    rcases eq_or_ne y x with rfl | hyx
    · exact .inr (by simp [Phase.ended])
    · simpa [hyx] using h.skipped y hyd
  · intro y k hy
    rcases eq_or_ne y x with rfl | hyx
    · simp at hy
    · exact h.blocked y k (by simpa [hyx] using hy)

theorem events_resume {y : Fin n} {ws : List (Fin n)} {k : Nat} (h : Events p phase isSet waiters)
    (hx : phase x = .setting (y :: ws)) (hy : phase y = .suspended k) :
    Events p (Function.update (Function.update phase x (.setting ws)) y (.awaiting (k + 1)))
      isSet waiters := by
  have hxy : y ≠ x := by
    rintro rfl
    simp [hx] at hy
  have hnd := h.nodup x
  have hpx : pendingOn phase waiters x = y :: ws := by simp [pendingOn, hx]
  rw [hpx] at hnd
  obtain ⟨hnot, hnd⟩ := List.nodup_cons.1 hnd
  have hdep : (p.deps y)[k]? = some x := by
    obtain ⟨j, hj, hd⟩ := (h.pending x y).1 (by simp [hpx])
    rw [hy] at hj
    cases hj
    exact hd
  have hp' : ∀ d, pendingOn (Function.update (Function.update phase x (.setting ws)) y
      (.awaiting (k + 1))) waiters d = if d = x then ws else pendingOn phase waiters d := by
    intro d
    rcases eq_or_ne d x with rfl | hd
    · simp [pendingOn, Ne.symm hxy]
    · rcases eq_or_ne d y with rfl | hdy
      · rw [if_neg hd, pendingOn_of_not_setting (by simp), pendingOn_of_not_setting (by simp [hy])]
      · simp [pendingOn, hd, hdy]
  have hdis := not_disabled_of h (x := y) (by simp [hy]) (by simp [hy, Phase.ended])
  refine ⟨?_, h.empty, ?_, ?_, ?_, ?_, ?_, ?_⟩
  · intro z
    rcases eq_or_ne z y with rfl | hz
    · simp [h.signalled, hy, Phase.signalled]
    · rcases eq_or_ne z x with rfl | hzx
      · simp [hz, h.signalled, hx, Phase.signalled]
      · simp [hz, hzx, h.signalled]
  · intro d
    rw [hp']
    split_ifs
    · exact hnd
    · exact h.nodup d
  · intro d z
    rw [hp']
    rcases eq_or_ne z y with rfl | hz
    · simp only [Function.update_self, reduceCtorEq, false_and, exists_false, iff_false]
      split_ifs with hd
      · exact hnot
      · intro hm
        obtain ⟨j, hj, hd'⟩ := (h.pending d z).1 hm
        rw [hy] at hj
        cases hj
        rw [hdep] at hd'
        exact hd (by simpa using hd'.symm)
    · have hz' : ∀ j, Function.update (Function.update phase x (.setting ws)) y
          (.awaiting (k + 1)) z = .suspended j ↔ phase z = .suspended j := by
        intro j
        rcases eq_or_ne z x with rfl | hzx
        · simp [hz, hx]
        · simp [hz, hzx]
      simp only [hz']
      split_ifs with hd
      · subst hd
        rw [← h.pending d z, hpx]
        simp [hz]
      · exact h.pending d z
  · intro z j hz i hi d hd
    rcases eq_or_ne z y with rfl | hzy
    · have hj : k + 1 = j := by simpa using hz
      subst hj
      rcases Nat.lt_succ_iff_lt_or_eq.1 hi with hi | rfl
      · exact h.ready z k (.inr hy) i hi d hd
      · rw [hdep] at hd
        cases hd
        simp [h.signalled, hx, Phase.signalled]
    · rcases eq_or_ne z x with rfl | hzx
      · simp [hzy] at hz
      · exact h.ready z j (by simpa [hzy, hzx] using hz) i hi d hd
  · intro z hzd hz
    rcases eq_or_ne z y with rfl | hzy
    · simp [Phase.started, Phase.ended] at hz
    · rcases eq_or_ne z x with rfl | hzx
      · exact h.passed z hzd (by simp [hx, Phase.started, Phase.ended])
      · exact h.passed z hzd (by simpa [hzy, hzx] using hz)
  · intro z hzd
    rcases eq_or_ne z y with rfl | hzy
    · simp [hdis] at hzd
    · rcases eq_or_ne z x with rfl | hzx
      · exact .inr (by simp [hzy, Phase.ended])
      · simpa [hzy, hzx] using h.skipped z hzd
  · intro z j hz
    rcases eq_or_ne z y with rfl | hzy
    · simp at hz
    · rcases eq_or_ne z x with rfl | hzx
      · simp [hzy] at hz
      · exact h.blocked z j (by simpa [hzy, hzx] using hz)

theorem events_setEnd (h : Events p phase isSet waiters) (hx : phase x = .setting []) :
    Events p (Function.update phase x .counting) isSet waiters := by
  have hpend : ∀ d, pendingOn (Function.update phase x .counting) waiters d =
      pendingOn phase waiters d := by
    intro d
    rcases eq_or_ne d x with rfl | hd
    · rw [pendingOn_of_not_setting (by simp), h.empty d (by simp [h.signalled, hx, Phase.signalled])]
      simp [pendingOn, hx]
    · simp [pendingOn, hd]
  refine ⟨?_, h.empty, ?_, ?_, ?_, ?_, ?_, ?_⟩
  · intro y
    rcases eq_or_ne y x with rfl | hy
    · simp [h.signalled, hx, Phase.signalled]
    · simp [hy, h.signalled]
  · intro d
    rw [hpend]
    exact h.nodup d
  · intro d y
    rw [hpend, h.pending]
    rcases eq_or_ne y x with rfl | hy
    · simp [hx]
    · simp [hy]
  · intro y k hy
    rcases eq_or_ne y x with rfl | hyx
    · simp at hy
    · exact h.ready y k (by simpa [hyx] using hy)
  · intro y hyd hy
    rcases eq_or_ne y x with rfl | hyx
    · exact h.passed y hyd (by simp [hx, Phase.started, Phase.ended])
    · exact h.passed y hyd (by simpa [hyx] using hy)
  · intro y hyd
    rcases eq_or_ne y x with rfl | hyx
    · exact .inr (by simp [Phase.ended])
    · simpa [hyx] using h.skipped y hyd
  · intro y k hy
    rcases eq_or_ne y x with rfl | hyx
    · simp at hy
    · exact h.blocked y k (by simpa [hyx] using hy)

end

def uncounted (phase : Fin n → Phase n) : Finset (Fin n) :=
  Finset.univ.filter fun x => (phase x).counted = false

def signalling (phase : Fin n → Phase n) : Finset (Fin n) :=
  Finset.univ.filter fun x => phase x = .signalling

structure Counts (phase : Fin n → Phase n) (status : Fin n → Status) (remaining promised : Nat)
    (starts : Fin n → Nat) : Prop where
  terminal : ∀ x, (status x).terminal = (phase x).ended
  started : ∀ x, starts x = if p.disabled x = false ∧ (phase x).started = true then 1 else 0
  uncounted : remaining = (NodeExecutor.uncounted phase).card
  signalling : promised + (NodeExecutor.signalling phase).card = if remaining = 0 ∧ 0 < n then 1 else 0

section

variable {p} {phase : Fin n → Phase n} {status : Fin n → Status} {remaining promised : Nat}
  {starts : Fin n → Nat} {x : Fin n} {ph : Phase n}

variable (ph) in
theorem counts_frame (h : Counts p phase status remaining promised starts)
    (hc : ph.counted = (phase x).counted) (hg : ph = .signalling ↔ phase x = .signalling)
    (he : ph.ended = (phase x).ended)
    (hs : p.disabled x = false → ph.started = (phase x).started) :
    Counts p (Function.update phase x ph) status remaining promised starts := by
  have hu : uncounted (Function.update phase x ph) = uncounted phase :=
    filter_update_same (q := fun a : Phase n => a.counted = false) (by simp [hc])
  have hsig : signalling (Function.update phase x ph) = signalling phase :=
    filter_update_same (q := fun a : Phase n => a = .signalling) hg
  refine ⟨?_, ?_, by rw [hu]; exact h.uncounted, by rw [hsig]; exact h.signalling⟩
  · intro y
    rcases eq_or_ne y x with rfl | hy
    · simp [h.terminal, he]
    · simp [hy, h.terminal]
  · intro y
    rcases eq_or_ne y x with rfl | hy
    · by_cases hd : p.disabled y = false
      · simp [h.started, hd, hs hd]
      · simp [h.started, hd]
    · simp [hy, h.started]

theorem counts_start (h : Counts p phase status remaining promised starts) {st : Status} {k : Nat}
    (hx : phase x = .awaiting k) (hd : p.disabled x = false) (hst : st.terminal = false) :
    Counts p (Function.update phase x .running) (Function.update status x st) remaining promised
      (Function.update starts x (starts x + 1)) := by
  have hu : uncounted (Function.update phase x .running) = uncounted phase :=
    filter_update_same (q := fun a : Phase n => a.counted = false) (by simp [hx, Phase.counted])
  have hsig : signalling (Function.update phase x .running) = signalling phase :=
    filter_update_same (q := fun a : Phase n => a = .signalling) (by simp [hx])
  refine ⟨?_, ?_, by rw [hu]; exact h.uncounted, by rw [hsig]; exact h.signalling⟩
  · intro y
    rcases eq_or_ne y x with rfl | hy
    · simp [hst, Phase.ended]
    · simp [hy, h.terminal]
  · intro y
    rcases eq_or_ne y x with rfl | hy
    · simp [h.started, hx, hd, Phase.started, Phase.ended]
    · simp [hy, h.started]

theorem counts_end (h : Counts p phase status remaining promised starts) {st : Status}
    (hc : (phase x).counted = false) (hs : p.disabled x = false → (phase x).started = true)
    (hst : st.terminal = true) :
    Counts p (Function.update phase x .completed) (Function.update status x st) remaining promised
      starts := by
  have hu : uncounted (Function.update phase x .completed) = uncounted phase :=
    filter_update_same (q := fun a : Phase n => a.counted = false) ⟨fun _ => hc, fun _ => rfl⟩
  have hsig : signalling (Function.update phase x .completed) = signalling phase := by
    refine filter_update_same (q := fun a : Phase n => a = .signalling) ?_
    constructor
    · simp
    · intro e
      simp [e, Phase.counted] at hc
  refine ⟨?_, ?_, by rw [hu]; exact h.uncounted, by rw [hsig]; exact h.signalling⟩
  · intro y
    rcases eq_or_ne y x with rfl | hy
    · simp [hst, Phase.ended]
    · simp [hy, h.terminal]
  · intro y
    rcases eq_or_ne y x with rfl | hy
    · have hc' : (Phase.completed : Phase n).started = true := rfl
      by_cases hd : p.disabled y = false
      · simp [h.started, hd, hs hd, hc']
      · simp [h.started, hd]
    · simp [hy, h.started]

variable (phase ph) in
theorem card_uncounted_erase (hx : (phase x).counted = false) (hp : ph.counted = true) :
    (uncounted (Function.update phase x ph)).card + 1 = (uncounted phase).card := by
  have he : uncounted (Function.update phase x ph) = (uncounted phase).erase x :=
    filter_update_erase (q := fun a : Phase n => a.counted = false) (by simp [hp])
  rw [he]
  exact Finset.card_erase_add_one (by simp [uncounted, hx])

variable (ph) in
theorem counts_counting (h : Counts p phase status remaining promised starts)
    (hx : phase x = .counting) (hc : ph.counted = true) (hend : ph.ended = true)
    (hst : ph.started = true)
    (hp : promised + (signalling (Function.update phase x ph)).card =
      if remaining - 1 = 0 ∧ 0 < n then 1 else 0) :
    Counts p (Function.update phase x ph) status (remaining - 1) promised starts := by
  refine ⟨?_, ?_, ?_, hp⟩
  · intro y
    rcases eq_or_ne y x with rfl | hy
    · rw [h.terminal, hx, Function.update_self, hend]
      rfl
    · simp [hy, h.terminal]
  · intro y
    rcases eq_or_ne y x with rfl | hy
    · rw [h.started, hx, Function.update_self, hst]
      rfl
    · simp [hy, h.started]
  · have := card_uncounted_erase phase ph (x := x) (by simp [hx, Phase.counted]) hc
    have := h.uncounted
    omega

theorem counts_signal (h : Counts p phase status remaining promised starts)
    (hx : phase x = .signalling) :
    Counts p (Function.update phase x .finished) status remaining (promised + 1) starts := by
  have hu : uncounted (Function.update phase x .finished) = uncounted phase :=
    filter_update_same (q := fun a : Phase n => a.counted = false) (by simp [hx, Phase.counted])
  have hsig : signalling (Function.update phase x .finished) = (signalling phase).erase x :=
    filter_update_erase (q := fun a : Phase n => a = .signalling) (by simp)
  have hcard : ((signalling phase).erase x).card + 1 = (signalling phase).card :=
    Finset.card_erase_add_one (by simp [signalling, hx])
  refine ⟨?_, ?_, by rw [hu]; exact h.uncounted, ?_⟩
  · intro y
    rcases eq_or_ne y x with rfl | hy
    · simp [h.terminal, hx, Phase.ended]
    · simp [hy, h.terminal]
  · intro y
    rcases eq_or_ne y x with rfl | hy
    · simp [h.started, hx, Phase.started, Phase.ended]
    · simp [hy, h.started]
  · rw [hsig]
    have := h.signalling
    omega

end

structure Inv (s : State n w) : Prop where
  stacked : Stacked s.phase s.stack
  queued : Queued s.phase s.queue s.main
  events : Events p s.phase s.isSet s.waiters
  counts : Counts p s.phase s.status s.remaining s.promised s.starts
  returned : s.main = .returned → n = 0 ∨ 0 < s.promised

section

variable {p} {s t : State n w}

theorem inv_spawn (h : Inv p s) (i : Fin n) (hm : s.main = .spawning i)
    (hd : p.disabled i = false) :
    Inv p { s.setPhase i .queued with queue := s.queue ++ [i], main := .spawning (i + 1) } := by
  have hq := h.queued
  rw [hm] at hq
  have hi : s.phase i = .notSpawned := (hq.spawned i).2 le_rfl
  refine ⟨?_, queued_spawn i hq, ?_, ?_, by simp⟩
  · exact stacked_inactive h.stacked (by simp [hi, Phase.active]) rfl
  · exact events_frame h.events (by simp [hi, Phase.signalled]) (by simp [hi]) (by simp)
      (by simp [hi]) (by simp) (by simp) (by simp [Phase.started, Phase.ended]) (by simp [hd])
  · exact counts_frame _ h.counts (by simp [hi, Phase.counted]) (by simp [hi])
      (by simp [hi, Phase.ended]) (by simp [hi, Phase.started, Phase.ended])

theorem inv_skip (h : Inv p s) (i : Fin n) (hm : s.main = .spawning i) (hs : s.stack .main = [])
    (hd : p.disabled i = true) :
    Inv p { ((s.setPhase i .completed).setStatus i .skipped).setStack .main [i] with
      main := .spawning (i + 1) } := by
  have hq := h.queued
  rw [hm] at hq
  have hi : s.phase i = .notSpawned := (hq.spawned i).2 le_rfl
  have hst := stacked_push .completed (t := .main) h.stacked (x := i)
    (by simp [hi, Phase.active]) rfl (by simp [hs])
  rw [hs] at hst
  refine ⟨hst, queued_skip i hq, ?_, ?_, by simp⟩
  · exact events_frame h.events (by simp [hi, Phase.signalled]) (by simp [hi]) (by simp)
      (by simp [hi]) (by simp) (by simp) (by simp [hd]) (by simp [Phase.ended])
  · exact counts_end h.counts (by simp [hi, Phase.counted]) (by simp [hd]) rfl

theorem inv_dequeue (h : Inv p s) {i : Fin w} {x : Fin n} {q : List (Fin n)}
    (hs : s.stack (.worker i) = []) (hq : s.queue = x :: q) :
    Inv p { (s.setPhase x (.awaiting 0)).setStack (.worker i) [x] with queue := q } := by
  have hqd := h.queued
  rw [hq] at hqd
  have hx : s.phase x = .queued := (hqd.queued x).1 (by simp)
  have hd := not_disabled_of h.events (x := x) (by simp [hx]) (by simp [hx, Phase.ended])
  have hst := stacked_push (.awaiting 0) (t := .worker i) h.stacked (x := x)
    (by simp [hx, Phase.active]) rfl (by simp [hs])
  rw [hs] at hst
  refine ⟨hst, queued_dequeue hqd, ?_, ?_, h.returned⟩
  · exact events_frame h.events (by simp [hx, Phase.signalled]) (by simp [hx]) (by simp)
      (by simp [hx]) (by simp) (by simp) (by simp [Phase.started, Phase.ended]) (by simp [hd])
  · exact counts_frame _ h.counts (by simp [hx, Phase.counted]) (by simp [hx])
      (by simp [hx, Phase.ended]) (by simp [hx, Phase.started, Phase.ended])

theorem inv_awaitSet (h : Inv p s) {th : Thread w} {x d : Fin n} {rest : List (Fin n)} {k : Nat}
    (ht : s.stack th = x :: rest) (hx : s.phase x = .awaiting k)
    (hk : (p.deps x)[k]? = some d) (hd : s.isSet d = true) :
    Inv p (s.setPhase x (.awaiting (k + 1))) := by
  have hdis := not_disabled_of h.events (x := x) (by simp [hx]) (by simp [hx, Phase.ended])
  refine ⟨stacked_top _ h.stacked ht rfl, ?_, ?_, ?_, h.returned⟩
  · exact queued_frame _ h.queued (by simp [hx]) (by simp [hx]) (by simp) (by simp)
  · refine events_frame h.events (by simp [hx, Phase.signalled]) (by simp [hx]) (by simp)
      (by simp [hx]) (by simp) ?_ (by simp [Phase.started, Phase.ended]) (by simp [hdis])
    intro j hj i hi e he
    have hj : k + 1 = j := by simpa using hj
    subst hj
    rcases Nat.lt_succ_iff_lt_or_eq.1 hi with hi | rfl
    · exact h.events.ready x k (.inl hx) i hi e he
    · rw [hk] at he
      cases he
      exact hd
  · exact counts_frame _ h.counts (by simp [hx, Phase.counted]) (by simp [hx])
      (by simp [hx, Phase.ended]) (by simp [hx, Phase.started, Phase.ended])

theorem inv_awaitSuspend (h : Inv p s) {th : Thread w} {x d : Fin n} {rest : List (Fin n)}
    {k : Nat} (ht : s.stack th = x :: rest) (hx : s.phase x = .awaiting k)
    (hk : (p.deps x)[k]? = some d) (hd : s.isSet d = false) :
    Inv p { (s.setPhase x (.suspended k)).setStack th rest with
      waiters := Function.update s.waiters d (x :: s.waiters d) } := by
  refine ⟨stacked_pop h.stacked ht rfl, ?_, events_suspend h.events hx hk hd, ?_, h.returned⟩
  · exact queued_frame _ h.queued (by simp [hx]) (by simp [hx]) (by simp) (by simp)
  · exact counts_frame _ h.counts (by simp [hx, Phase.counted]) (by simp [hx])
      (by simp [hx, Phase.ended]) (by simp [hx, Phase.started, Phase.ended])

theorem inv_start (h : Inv p s) {th : Thread w} {x : Fin n} {rest : List (Fin n)} {k : Nat}
    (ht : s.stack th = x :: rest) (hx : s.phase x = .awaiting k)
    (hk : (p.deps x)[k]? = none) :
    Inv p { (s.setPhase x .running).setStatus x p.startStatus with
      starts := Function.update s.starts x (s.starts x + 1) } := by
  have hdis := not_disabled_of h.events (x := x) (by simp [hx]) (by simp [hx, Phase.ended])
  refine ⟨stacked_top _ h.stacked ht rfl, ?_, ?_, ?_, h.returned⟩
  · exact queued_frame _ h.queued (by simp [hx]) (by simp [hx]) (by simp) (by simp)
  · refine events_frame h.events (by simp [hx, Phase.signalled]) (by simp [hx]) (by simp)
      (by simp [hx]) (by simp) (by simp) ?_ (by simp [hdis])
    intro _ _ d hd
    obtain ⟨j, hj, hjd⟩ := List.getElem_of_mem hd
    have hlen : (p.deps x).length ≤ k := by simpa using hk
    exact h.events.ready x k (.inl hx) j (by omega) d (by simp [hjd, hj])
  · exact counts_start h.counts hx hdis p.start_terminal

theorem inv_bodySuspend (h : Inv p s) {th : Thread w} {x : Fin n} {rest : List (Fin n)}
    (ht : s.stack th = x :: rest) (hx : s.phase x = .running) :
    Inv p ((s.setPhase x .bodySuspended).setStack th rest) := by
  refine ⟨stacked_pop h.stacked ht rfl, ?_, ?_, ?_, h.returned⟩
  · exact queued_frame _ h.queued (by simp [hx]) (by simp [hx]) (by simp) (by simp)
  · exact events_started h.events (by simp [hx, Phase.started])
      (by simp [hx, Phase.signalled]) (by simp [hx]) (by simp) (by simp) (by simp)
      (by simp [hx, Phase.ended])
  · exact counts_frame _ h.counts (by simp [hx, Phase.counted]) (by simp [hx])
      (by simp [hx, Phase.ended]) (by simp [hx, Phase.started])

theorem inv_bodyResume (h : Inv p s) {j : Nat} {x : Fin n} (hs : s.stack (.external j) = [])
    (hx : s.phase x = .bodySuspended) :
    Inv p ((s.setPhase x .running).setStack (.external j) [x]) := by
  have hst := stacked_push .running (t := .external j) h.stacked (x := x)
    (by simp [hx, Phase.active]) rfl (by simp [hs])
  rw [hs] at hst
  refine ⟨hst, ?_, ?_, ?_, h.returned⟩
  · exact queued_frame _ h.queued (by simp [hx]) (by simp [hx]) (by simp) (by simp)
  · exact events_started h.events (by simp [hx, Phase.started])
      (by simp [hx, Phase.signalled]) (by simp [hx]) (by simp) (by simp) (by simp)
      (by simp [hx, Phase.ended])
  · exact counts_frame _ h.counts (by simp [hx, Phase.counted]) (by simp [hx])
      (by simp [hx, Phase.ended]) (by simp [hx, Phase.started])

theorem inv_finish (h : Inv p s) {th : Thread w} {x : Fin n} {rest : List (Fin n)} {o : Status}
    (ht : s.stack th = x :: rest) (hx : s.phase x = .running) (ho : p.outcome o = true) :
    Inv p ((s.setPhase x .completed).setStatus x o) := by
  refine ⟨stacked_top _ h.stacked ht rfl, ?_, ?_, ?_, h.returned⟩
  · exact queued_frame _ h.queued (by simp [hx]) (by simp [hx]) (by simp) (by simp)
  · exact events_started h.events (by simp [hx, Phase.started])
      (by simp [hx, Phase.signalled]) (by simp [hx]) (by simp) (by simp) (by simp)
      (by simp [hx, Phase.ended])
  · exact counts_end h.counts (by simp [hx, Phase.counted]) (by simp [hx, Phase.started])
      (p.outcome_terminal o ho)

theorem inv_exchange (h : Inv p s) {th : Thread w} {x : Fin n} {rest : List (Fin n)}
    (ht : s.stack th = x :: rest) (hx : s.phase x = .completed) :
    Inv p { s.setPhase x (.setting (if s.isSet x then [] else s.waiters x)) with
      isSet := Function.update s.isSet x true
      waiters := Function.update s.waiters x [] } := by
  refine ⟨stacked_top _ h.stacked ht rfl, ?_, events_exchange h.events hx, ?_, h.returned⟩
  · exact queued_frame _ h.queued (by simp [hx]) (by simp [hx]) (by simp) (by simp)
  · exact counts_frame _ h.counts (by simp [hx, Phase.counted]) (by simp [hx])
      (by simp [hx, Phase.ended]) (by simp [hx, Phase.started, Phase.ended])

theorem inv_resume (h : Inv p s) {th : Thread w} {x y : Fin n} {rest ws : List (Fin n)} {k : Nat}
    (ht : s.stack th = x :: rest) (hx : s.phase x = .setting (y :: ws))
    (hy : s.phase y = .suspended k) :
    Inv p (((s.setPhase x (.setting ws)).setPhase y (.awaiting (k + 1))).setStack th
      (y :: x :: rest)) := by
  have hxy : y ≠ x := by
    rintro rfl
    simp [hx] at hy
  have hy' : Function.update s.phase x (.setting ws) y = .suspended k := by simp [hxy, hy]
  have hst := stacked_top (.setting ws) h.stacked ht rfl
  have hset : ∀ z ∈ s.stack th, ∃ ws', Function.update s.phase x (.setting ws) z = .setting ws' := by
    intro z hz
    rw [ht, List.mem_cons] at hz
    rcases hz with rfl | hz
    · exact ⟨ws, by simp⟩
    · exact hst.below th x rest ht z hz
  have hst' := stacked_push (.awaiting (k + 1)) (t := th) hst (x := y)
    (by simp [hy', Phase.active]) rfl hset
  rw [ht] at hst'
  have hq := queued_frame (.setting ws) h.queued (x := x) (by simp [hx]) (by simp [hx])
    (by simp) (by simp)
  have hc := counts_frame (.setting ws) h.counts (x := x) (by simp [hx, Phase.counted])
    (by simp [hx]) (by simp [hx, Phase.ended]) (by simp [hx, Phase.started, Phase.ended])
  have hq' := queued_frame (.awaiting (k + 1)) hq (x := y) (by simp [hy']) (by simp [hy'])
    (by simp) (by simp)
  have hc' := counts_frame (.awaiting (k + 1)) hc (x := y) (by simp [hy', Phase.counted])
    (by simp [hy']) (by simp [hy', Phase.ended]) (by simp [hy', Phase.started, Phase.ended])
  exact ⟨hst', hq', events_resume h.events hx hy, hc', h.returned⟩

theorem inv_setEnd (h : Inv p s) {th : Thread w} {x : Fin n} {rest : List (Fin n)}
    (ht : s.stack th = x :: rest) (hx : s.phase x = .setting []) :
    Inv p (s.setPhase x .counting) := by
  refine ⟨stacked_top _ h.stacked ht rfl, ?_, events_setEnd h.events hx, ?_, h.returned⟩
  · exact queued_frame _ h.queued (by simp [hx]) (by simp [hx]) (by simp) (by simp)
  · exact counts_frame _ h.counts (by simp [hx, Phase.counted]) (by simp [hx])
      (by simp [hx, Phase.ended]) (by simp [hx, Phase.started, Phase.ended])

theorem inv_countLast (h : Inv p s) {th : Thread w} {x : Fin n} {rest : List (Fin n)}
    (ht : s.stack th = x :: rest) (hx : s.phase x = .counting) (hr : s.remaining = 1) :
    Inv p { s.setPhase x .signalling with remaining := 0 } := by
  have hn : 0 < n := x.pos
  have hsum := h.counts.signalling
  rw [if_neg (by omega)] at hsum
  have hempty : signalling s.phase = ∅ := Finset.card_eq_zero.1 (by omega)
  have hsig : signalling (Function.update s.phase x .signalling) = {x} := by
    ext y
    rcases eq_or_ne y x with rfl | hy
    · simp [signalling]
    · have hy' : y ∉ signalling s.phase := by simp [hempty]
      simpa [signalling, hy] using hy'
  have hc := counts_counting .signalling h.counts hx rfl rfl rfl
    (by rw [hsig, hr]; simp [hn]; omega)
  rw [hr] at hc
  refine ⟨stacked_top _ h.stacked ht rfl, ?_, ?_, hc, h.returned⟩
  · exact queued_frame _ h.queued (by simp [hx]) (by simp [hx]) (by simp) (by simp)
  · exact events_started h.events (by simp [hx, Phase.started, Phase.ended])
      (by simp [hx, Phase.signalled]) (by simp [hx]) (by simp) (by simp) (by simp)
      (by simp [hx, Phase.ended])

theorem inv_count (h : Inv p s) {th : Thread w} {x : Fin n} {rest : List (Fin n)}
    (ht : s.stack th = x :: rest) (hx : s.phase x = .counting) (hr : s.remaining ≠ 1) :
    Inv p { (s.setPhase x .finished).setStack th rest with remaining := s.remaining - 1 } := by
  have hu := card_uncounted_erase s.phase .finished (x := x) (by simp [hx, Phase.counted]) rfl
  have hrem := h.counts.uncounted
  have hsum := h.counts.signalling
  rw [if_neg (by omega)] at hsum
  have hsig : signalling (Function.update s.phase x .finished) = signalling s.phase :=
    filter_update_same (q := fun a : Phase n => a = .signalling) (by simp [hx])
  have hc := counts_counting .finished h.counts hx rfl rfl rfl
    (by rw [hsig, hsum, if_neg (by omega)])
  refine ⟨stacked_pop h.stacked ht rfl, ?_, ?_, hc, h.returned⟩
  · exact queued_frame _ h.queued (by simp [hx]) (by simp [hx]) (by simp) (by simp)
  · exact events_started h.events (by simp [hx, Phase.started, Phase.ended])
      (by simp [hx, Phase.signalled]) (by simp [hx]) (by simp) (by simp) (by simp)
      (by simp [hx, Phase.ended])

theorem inv_signal (h : Inv p s) {th : Thread w} {x : Fin n} {rest : List (Fin n)}
    (ht : s.stack th = x :: rest) (hx : s.phase x = .signalling) :
    Inv p { (s.setPhase x .finished).setStack th rest with promised := s.promised + 1 } := by
  refine ⟨stacked_pop h.stacked ht rfl, ?_, ?_, counts_signal h.counts hx, fun _ => .inr (by simp)⟩
  · exact queued_frame _ h.queued (by simp [hx]) (by simp [hx]) (by simp) (by simp)
  · exact events_started h.events (by simp [hx, Phase.started, Phase.ended])
      (by simp [hx, Phase.signalled]) (by simp [hx]) (by simp) (by simp) (by simp)
      (by simp [hx, Phase.ended])

theorem inv_spawnEnd (h : Inv p s) (hm : s.main = .spawning n) :
    Inv p { s with main := .waiting } := by
  have hq := h.queued
  rw [hm] at hq
  exact ⟨h.stacked, ⟨hq.nodup, hq.queued, hq.spawned, hq.bound, fun _ => hq.nonempty rfl⟩,
    h.events, h.counts, by simp⟩

theorem inv_wait (h : Inv p s) (hm : s.main = .waiting) (hp : 0 < s.promised) :
    Inv p { s with main := .returned } := by
  have hq := h.queued
  rw [hm] at hq
  exact ⟨h.stacked, ⟨hq.nodup, hq.queued, hq.spawned, hq.bound, by simp [MainPc.inRun]⟩,
    h.events, h.counts, fun _ => .inr hp⟩

theorem inv_runStep (h : Inv p s) (hst : RunStep p s t) : Inv p t := by
  cases hst with
  | spawn i hm hs hd => exact inv_spawn h i hm hd
  | skip i hm hs hd => exact inv_skip h i hm hs hd
  | spawnEnd hm hs => exact inv_spawnEnd h hm
  | wait hm hp => exact inv_wait h hm hp
  | dequeue i hs hq => exact inv_dequeue h hs hq
  | awaitSet ht hx hk hd => exact inv_awaitSet h ht hx hk hd
  | awaitSuspend ht hx hk hd => exact inv_awaitSuspend h ht hx hk hd
  | start ht hx hk => exact inv_start h ht hx hk
  | bodySuspend ht hx hp => exact inv_bodySuspend h ht hx
  | bodyResume j hs hx => exact inv_bodyResume h hs hx
  | finish o ht hx ho => exact inv_finish h ht hx ho
  | exchange ht hx => exact inv_exchange h ht hx
  | resume ht hx hy => exact inv_resume h ht hx hy
  | setEnd ht hx => exact inv_setEnd h ht hx
  | countLast ht hx hr => exact inv_countLast h ht hx hr
  | count ht hx hr => exact inv_count h ht hx hr
  | signal ht hx => exact inv_signal h ht hx

theorem all_finished (h : Inv p s) (hp : 0 < s.promised) :
    s.promised = 1 ∧ ∀ x, s.phase x = .finished := by
  have hsum := h.counts.signalling
  have hrem : s.remaining = 0 ∧ 0 < n := by
    by_contra hne
    rw [if_neg hne] at hsum
    omega
  rw [if_pos hrem] at hsum
  have hu : uncounted s.phase = ∅ := Finset.card_eq_zero.1 (by rw [← h.counts.uncounted, hrem.1])
  have hg : signalling s.phase = ∅ := Finset.card_eq_zero.1 (by omega)
  refine ⟨by omega, fun x => ?_⟩
  have hxu : (s.phase x).counted = true := by
    have hx : x ∉ uncounted s.phase := by simp [hu]
    simpa [uncounted] using hx
  have hxg : s.phase x ≠ .signalling := by
    have hx : x ∉ signalling s.phase := by simp [hg]
    simpa [signalling] using hx
  exact Phase.eq_finished hxu hxg

theorem inv_init : Inv p (.init : State n w) := by
  have hu : uncounted (fun _ : Fin n => (.notSpawned : Phase n)) = Finset.univ := by
    simp [uncounted, Phase.counted]
  have hg : signalling (fun _ : Fin n => (.notSpawned : Phase n)) = ∅ := by
    simp [signalling]
  refine ⟨⟨?_, ?_, ?_, ?_⟩, ⟨?_, ?_, ?_, ?_, ?_⟩, ⟨?_, ?_, ?_, ?_, ?_, ?_, ?_, ?_⟩,
    ⟨?_, ?_, ?_, ?_⟩, ?_⟩
  all_goals simp [State.init, Phase.active, MainPc.spawned, MainPc.inRun, Phase.signalled, pendingOn,
    Phase.started, Phase.ended, Status.terminal, hu, hg, Nat.pos_iff_ne_zero]

-- Between two runs no coroutine is left anywhere: that is what makes a second Execute sound.
theorem inv_execute (h : Inv p s) (hm : s.main = .idle ∨ s.main = .returned) :
    Inv p s.resetRunState := by
  have hrest : ∀ x, s.phase x = .notSpawned ∨ s.phase x = .finished := by
    intro x
    rcases hm with hm | hm
    · exact .inl ((h.queued.spawned x).2 (by simp [hm, MainPc.spawned]))
    · rcases h.returned hm with hn | hp
      · exact absurd x.pos (by omega)
      · exact .inr ((all_finished h hp).2 x)
  have hstack : ∀ t, s.stack t = [] := by
    intro t
    refine List.eq_nil_iff_forall_not_mem.2 fun x hx => ?_
    have ha := (h.stacked.active x).2 ⟨t, hx⟩
    rcases hrest x with hr | hr <;> simp [hr, Phase.active] at ha
  have hqueue : s.queue = [] := by
    refine List.eq_nil_iff_forall_not_mem.2 fun x hx => ?_
    have hq := (h.queued.queued x).1 hx
    rcases hrest x with hr | hr <;> simp [hr] at hq
  have hwait : ∀ d, s.waiters d = [] := by
    intro d
    have hd : pendingOn s.phase s.waiters d = s.waiters d := by
      refine pendingOn_of_not_setting fun ws hws => ?_
      rcases hrest d with hr | hr <;> simp [hr] at hws
    refine List.eq_nil_iff_forall_not_mem.2 fun x hx => ?_
    rw [← hd] at hx
    obtain ⟨k, hk, -⟩ := (h.events.pending d x).1 hx
    rcases hrest x with hr | hr <;> simp [hr] at hk
  have hi := inv_init (p := p) (w := w)
  rcases Nat.eq_zero_or_pos n with rfl | hn
  · refine ⟨⟨?_, ?_, ?_, ?_⟩, ⟨?_, ?_, ?_, ?_, ?_⟩, ⟨?_, ?_, ?_, ?_, ?_, ?_, ?_, ?_⟩,
    ⟨?_, ?_, ?_, ?_⟩, ?_⟩
    all_goals simp [State.resetRunState, hstack, hqueue, MainPc.spawned, MainPc.inRun, uncounted,
      signalling]
  · have hmain : s.resetRunState.main = .spawning 0 := if_neg (by omega)
    refine ⟨?_, ⟨?_, ?_, ?_, ?_, ?_⟩, ?_, hi.counts, ?_⟩
    · have hse : s.resetRunState.stack = fun _ => [] := funext hstack
      rw [hse]
      exact hi.stacked
    · simp [State.resetRunState, hqueue]
    · simp [State.resetRunState, hqueue]
    · intro x
      rw [hmain]
      simp [MainPc.spawned, State.resetRunState]
    · simp [hmain, MainPc.spawned]
    · exact fun _ => hn
    · have hwe : s.resetRunState.waiters = fun _ => [] := funext hwait
      rw [hwe]
      exact hi.events
    · simp [hmain]

theorem inv_reachable (h : (system p w).Reachable s) : Inv p s := by
  refine System.Reachable.invariant (I := Inv p) ?_ ?_ h
  · rintro s rfl
    exact inv_init
  · intro s t hs hst
    cases hst with
    | run hr => exact inv_runStep hs hr
    | execute hm => exact inv_execute hs hm

theorem stack_enabled (h : Inv p s) {th : Thread w} {x : Fin n} {rest : List (Fin n)}
    (ht : s.stack th = x :: rest) : ∃ t, RunStep p s t := by
  have ha : (s.phase x).active = true := (h.stacked.active x).2 ⟨th, by simp [ht]⟩
  cases hx : s.phase x with
  | awaiting k =>
    cases hk : (p.deps x)[k]? with
    | none => exact ⟨_, .start ht hx hk⟩
    | some d =>
      cases hd : s.isSet d with
      | true => exact ⟨_, .awaitSet ht hx hk hd⟩
      | false => exact ⟨_, .awaitSuspend ht hx hk hd⟩
  | running =>
    obtain ⟨o, ho⟩ := p.outcome_exists
    exact ⟨_, .finish o ht hx ho⟩
  | completed => exact ⟨_, .exchange ht hx⟩
  | setting ws =>
    cases ws with
    | nil => exact ⟨_, .setEnd ht hx⟩
    | cons y ws =>
      obtain ⟨k, hk, -⟩ := (h.events.pending x y).1 (by simp [pendingOn, hx])
      exact ⟨_, .resume ht hx hk⟩
  | counting =>
    by_cases hr : s.remaining = 1
    · exact ⟨_, .countLast ht hx hr⟩
    · exact ⟨_, .count ht hx hr⟩
  | signalling => exact ⟨_, .signal ht hx⟩
  | notSpawned => simp [hx, Phase.active] at ha
  | queued => simp [hx, Phase.active] at ha
  | suspended k => simp [hx, Phase.active] at ha
  | bodySuspended => simp [hx, Phase.active] at ha
  | finished => simp [hx, Phase.active] at ha

theorem spawning_enabled (h : Inv p s) {i : Nat} (hm : s.main = .spawning i) :
    ∃ t, RunStep p s t := by
  cases hs : s.stack .main with
  | cons x rest => exact stack_enabled h hs
  | nil =>
    have hb := h.queued.bound
    rw [hm] at hb
    rcases Nat.lt_or_eq_of_le hb with hi | hi
    · have hm' : s.main = .spawning (⟨i, hi⟩ : Fin n) := hm
      cases hd : p.disabled ⟨i, hi⟩ with
      | true => exact ⟨_, .skip _ hm' hs hd⟩
      | false => exact ⟨_, .spawn _ hm' hs hd⟩
    · have hi' : i = n := hi
      subst hi'
      exact ⟨_, .spawnEnd hm hs⟩

end

def Acyclic (deps : Fin n → List (Fin n)) : Prop :=
  ∀ x, ¬ Relation.TransGen (fun a b => a ∈ deps b) x x

theorem Acyclic.wellFounded {deps : Fin n → List (Fin n)} (h : Acyclic deps) :
    WellFounded fun a b => a ∈ deps b := by
  have : IsTrans (Fin n) (Relation.TransGen fun a b => a ∈ deps b) := ⟨fun _ _ _ => .trans⟩
  have : Std.Irrefl (Relation.TransGen fun a b => a ∈ deps b) := ⟨h⟩
  exact Subrelation.wf (fun h => .single h)
    (Finite.wellFounded_of_trans_of_irrefl (Relation.TransGen fun a b => a ∈ deps b))

theorem Acyclic.of_lt {deps : Fin n → List (Fin n)} (h : ∀ a b, a ∈ deps b → a < b) :
    Acyclic deps := by
  have hlt : ∀ x y, Relation.TransGen (fun a b => a ∈ deps b) x y → x < y := by
    intro x y hxy
    induction hxy with
    | single h' => exact h _ _ h'
    | tail _ h' ih => exact ih.trans (h _ _ h')
  exact fun x hx => lt_irrefl x (hlt x x hx)

variable {p}

section

variable {s : State n (w + 1)}

theorem finished_of_quiescent (hp : Acyclic p.deps) (h : Inv p s) (hq : ∀ t, ¬ RunStep p s t)
    (hm : s.main = .waiting) (x : Fin n) : s.phase x = .finished := by
  have hstack : ∀ th, s.stack th = [] := by
    intro th
    cases hs : s.stack th with
    | nil => rfl
    | cons y rest =>
      obtain ⟨t, ht⟩ := stack_enabled h hs
      exact absurd ht (hq t)
  have hqueue : s.queue = [] := by
    cases hs : s.queue with
    | nil => rfl
    | cons y rest => exact absurd (.dequeue 0 (hstack _) hs) (hq _)
  have hsus : ∀ y, (∃ k, s.phase y = .suspended k) ∨ s.phase y = .finished := by
    intro y
    have hinact : (s.phase y).active = false := by
      by_contra ha
      obtain ⟨th, hth⟩ := (h.stacked.active y).1 (by simpa using ha)
      simp [hstack th] at hth
    have hnq : s.phase y ≠ .queued := by
      rw [Ne, ← h.queued.queued, hqueue]
      simp
    have hns : s.phase y ≠ .notSpawned := by
      rw [Ne, h.queued.spawned, hm]
      simp [MainPc.spawned]
    have hnb : s.phase y ≠ .bodySuspended := fun hb => hq _ (.bodyResume 0 (hstack _) hb)
    cases hy : s.phase y <;> simp_all [Phase.active]
  -- A suspended node waits on a dependency that is itself suspended: follow the edges down.
  induction x using hp.wellFounded.induction with
  | _ x ih =>
    rcases hsus x with ⟨k, hk⟩ | hx
    · exfalso
      obtain ⟨d, hd⟩ := h.events.blocked x k hk
      have hdf : s.phase d = .finished := ih d (List.mem_of_getElem? hd)
      have hmem := (h.events.pending d x).2 ⟨k, hk, hd⟩
      rw [pendingOn_of_not_setting (by simp [hdf]),
        h.events.empty d (by simp [h.events.signalled, hdf, Phase.signalled])] at hmem
      simp at hmem
    · exact hx

theorem returned_of_quiescent (hp : Acyclic p.deps) (h : Inv p s) (hq : ∀ t, ¬ RunStep p s t)
    (hm : s.main ≠ .idle) : s.main = .returned := by
  cases hmain : s.main with
  | idle => exact absurd hmain hm
  | spawning i =>
    obtain ⟨t, ht⟩ := spawning_enabled h hmain
    exact absurd ht (hq t)
  | returned => rfl
  | waiting =>
    exfalso
    have hfin := finished_of_quiescent hp h hq hmain
    have hn : 0 < n := h.queued.nonempty (by simp [hmain, MainPc.inRun])
    have hu : s.remaining = 0 := by
      rw [h.counts.uncounted, Finset.card_eq_zero]
      simp [uncounted, hfin, Phase.counted]
    have hg : (signalling s.phase).card = 0 := by
      rw [Finset.card_eq_zero]
      simp [signalling, hfin]
    have hsum := h.counts.signalling
    rw [if_pos ⟨hu, hn⟩, hg] at hsum
    exact hq _ (.wait hmain (by omega))

end

def Phase.rank : Phase n → Nat
  | .completed => 4
  | .setting _ => 3
  | .counting => 2
  | .signalling => 1
  | _ => 0

def MainPc.rank : MainPc → Nat
  | .spawning _ => 2
  | .waiting => 1
  | _ => 0

def State.rank (s : State n w) : Nat := ∑ x, (s.phase x).rank + s.main.rank

def State.Settled (s : State n w) : Prop := ∀ x, (s.status x).terminal = true

section

variable {s t : State n w}

theorem sum_rank_update {phase : Fin n → Phase n} {x : Fin n} {ph : Phase n}
    (h : ph.rank < (phase x).rank) :
    ∑ y, (Function.update phase x ph y).rank < ∑ y, (phase y).rank :=
  sum_update_lt (fun _ => Phase.rank) h

theorem settled_runStep (h : Inv p s) (hs : s.Settled) (hst : RunStep p s t) :
    t.Settled ∧ t.rank < s.rank := by
  have hend : ∀ x, (s.phase x).ended = true := fun x => (h.counts.terminal x).symm.trans (hs x)
  have hno : ∀ {x ph}, s.phase x = ph → ph.ended = false → False := by
    intro x ph hx hph
    have := hend x
    simp [hx, hph] at this
  cases hst with
  | spawn i hm =>
    have hi := h.queued
    rw [hm] at hi
    exact (hno ((hi.spawned i).2 le_rfl) rfl).elim
  | skip i hm =>
    have hi := h.queued
    rw [hm] at hi
    exact (hno ((hi.spawned i).2 le_rfl) rfl).elim
  | spawnEnd hm => exact ⟨hs, by simp [State.rank, hm, MainPc.rank]⟩
  | wait hm => exact ⟨hs, by simp [State.rank, hm, MainPc.rank]⟩
  | dequeue i _ hq => exact (hno ((h.queued.queued _).1 (hq ▸ List.mem_cons_self)) rfl).elim
  | awaitSet _ hx => exact (hno hx rfl).elim
  | awaitSuspend _ hx => exact (hno hx rfl).elim
  | start _ hx => exact (hno hx rfl).elim
  | bodySuspend _ hx => exact (hno hx rfl).elim
  | bodyResume j _ hx => exact (hno hx rfl).elim
  | finish o _ hx => exact (hno hx rfl).elim
  | resume _ _ hy => exact (hno hy rfl).elim
  | exchange _ hx | setEnd _ hx | countLast _ hx | count _ hx | signal _ hx =>
    exact ⟨hs, Nat.add_lt_add_right (sum_rank_update (by simp [hx, Phase.rank])) _⟩

theorem settled_acc (h : Inv p s) (hs : s.Settled) : Acc (fun t s => RunStep p s t) s := by
  induction hm : s.rank using Nat.strong_induction_on generalizing s with
  | _ m ih =>
    subst hm
    refine ⟨s, fun t hst => ?_⟩
    obtain ⟨ht, hlt⟩ := settled_runStep h hs hst
    exact ih _ hlt (inv_runStep h hst) ht rfl

theorem start_runStep (h : Inv p s) (hst : RunStep p s t) {x : Fin n}
    (hx : t.starts x ≠ s.starts x) : ∀ d ∈ p.deps x, s.isSet d = true := by
  have hinv := inv_runStep h hst
  cases hst with
  | start ht hy hk =>
    rename_i th y rest k
    rcases eq_or_ne x y with rfl | hxy
    · have hdis := not_disabled_of h.events (x := x) (by simp [hy]) (by simp [hy, Phase.ended])
      exact hinv.events.passed x hdis (by simp [State.setPhase, State.setStatus, Phase.started])
    · simp [hxy] at hx
  | _ => exact absurd rfl hx

theorem not_idle_of_runStep (h : Inv p s) (hst : RunStep p s t) : s.main ≠ .idle := by
  intro hm
  have hphase : ∀ x, s.phase x = .notSpawned := by
    intro x
    exact (h.queued.spawned x).2 (by simp [hm, MainPc.spawned])
  have hno : ∀ {x : Fin n} {ph : Phase n}, s.phase x = ph → ph ≠ .notSpawned → False :=
    fun hx hne => hne (hx.symm.trans (hphase _))
  cases hst with
  | spawn i hm' => simp [hm] at hm'
  | skip i hm' => simp [hm] at hm'
  | spawnEnd hm' => simp [hm] at hm'
  | wait hm' => simp [hm] at hm'
  | dequeue i _ hq => exact hno ((h.queued.queued _).1 (hq ▸ List.mem_cons_self)) (by simp)
  | awaitSet _ hx | awaitSuspend _ hx | start _ hx | bodySuspend _ hx | bodyResume _ _ hx
  | finish _ _ hx | exchange _ hx | resume _ hx | setEnd _ hx | countLast _ hx | count _ hx
  | signal _ hx => exact hno hx (by simp)

theorem runStep_idle (hst : RunStep p s t) (ht : t.main = .idle) : s.main = .idle := by
  cases hst with
  | spawn i => cases ht
  | skip i => cases ht
  | spawnEnd => cases ht
  | wait => cases ht
  | _ => exact ht

end

section Completion

def Phase.work (k : Nat) : Phase n → Nat
  | .notSpawned => 9 + 2 * k
  | .queued => 8 + 2 * k
  | .awaiting j => 7 + 2 * (k - j)
  | .suspended j => 6 + 2 * (k - j)
  | .bodySuspended => 6
  | .running => 5
  | ph => ph.rank

def State.work (deps : Fin n → List (Fin n)) (s : State n w) : Nat :=
  ∑ x, (s.phase x).work (deps x).length + s.main.rank

variable {s t : State n w}

theorem work_phase {deps : Fin n → List (Fin n)} {phase : Fin n → Phase n} {x : Fin n}
    {ph : Phase n} (h : ph.work (deps x).length < (phase x).work (deps x).length) :
    ∑ y, (Function.update phase x ph y).work (deps y).length <
      ∑ y, (phase y).work (deps y).length :=
  sum_update_lt (fun y => Phase.work (deps y).length) h

theorem work_runStep (h : Inv p s) (hst : RunStep p s t) : t.work p.deps < s.work p.deps ∨
    ∃ th x rest, s.stack th = x :: rest ∧ s.phase x = .running := by
  have hmove : ∀ {x : Fin n} {ph : Phase n} {u : State n w}, u.phase = Function.update s.phase x ph →
      u.main.rank ≤ s.main.rank → ph.work (p.deps x).length < (s.phase x).work (p.deps x).length →
      u.work p.deps < s.work p.deps := by
    intro x ph u hu hmain hlt
    rw [State.work, hu]
    exact Nat.add_lt_add_of_lt_of_le (work_phase hlt) hmain
  have hnext : ∀ {k : Nat} {x d : Fin n}, (p.deps x)[k]? = some d → k < (p.deps x).length :=
    fun hk => (List.getElem?_eq_some_iff.1 hk).1
  have hunspawned : ∀ i : Fin n, s.main = .spawning i → s.phase i = .notSpawned := by
    intro i hm
    have hi := h.queued
    rw [hm] at hi
    exact (hi.spawned i).2 le_rfl
  cases hst with
  | spawn i hm =>
    refine .inl (hmove rfl (by simp [hm, MainPc.rank]) ?_)
    simp [hunspawned i hm, Phase.work]
  | skip i hm =>
    refine .inl (hmove rfl (by simp [hm, MainPc.rank]) ?_)
    simp only [hunspawned i hm, Phase.work, Phase.rank]
    omega
  | spawnEnd hm => exact .inl (by simp [State.work, hm, MainPc.rank])
  | wait hm => exact .inl (by simp [State.work, hm, MainPc.rank])
  | @dequeue i x q _ hq =>
    have hx : s.phase x = .queued := (h.queued.queued x).1 (hq ▸ List.mem_cons_self)
    exact .inl (hmove rfl le_rfl (by simp [hx, Phase.work]))
  | awaitSet _ hx hk =>
    have hlt := hnext hk
    refine .inl (hmove rfl le_rfl ?_)
    simp only [hx, Phase.work]
    omega
  | awaitSuspend _ hx => exact .inl (hmove rfl le_rfl (by simp [hx, Phase.work]))
  | start _ hx =>
    refine .inl (hmove rfl le_rfl ?_)
    simp only [hx, Phase.work]
    omega
  | bodySuspend ht hx => exact .inr ⟨_, _, _, ht, hx⟩
  | bodyResume j _ hx => exact .inl (hmove rfl le_rfl (by simp [hx, Phase.work]))
  | finish o ht hx => exact .inr ⟨_, _, _, ht, hx⟩
  | @resume th x rest y ws k _ hx hy =>
    obtain ⟨j, hj, hk⟩ := (h.events.pending x y).1 (by simp [pendingOn, hx])
    obtain rfl : j = k := Phase.suspended.inj (hj.symm.trans hy)
    have hlt := hnext hk
    have hne : y ≠ x := by
      rintro rfl
      rw [hx] at hy
      cases hy
    have hfirst : ∑ z, (Function.update s.phase x (.setting ws) z).work (p.deps z).length =
        ∑ z, (s.phase z).work (p.deps z).length := by
      refine Finset.sum_congr rfl fun z _ => ?_
      rcases eq_or_ne z x with rfl | hz
      · simp [hx, Phase.work, Phase.rank]
      · rw [Function.update_of_ne hz]
    refine .inl (Nat.add_lt_add_right ?_ _)
    rw [← hfirst]
    refine work_phase ?_
    rw [show (s.setPhase x (.setting ws)).phase y = .suspended j from
      (Function.update_of_ne hne _ _).trans hy]
    simp only [Phase.work]
    omega
  | exchange _ hx | setEnd _ hx | countLast _ hx | count _ hx | signal _ hx =>
    exact .inl (hmove rfl le_rfl (by simp [hx, Phase.work, Phase.rank]))

theorem work_lowered {s : State n (w + 1)} (hp : Acyclic p.deps) (h : Inv p s)
    (hi : s.main ≠ .idle) (hr : s.main ≠ .returned) :
    ∃ t, RunStep p s t ∧ t.work p.deps < s.work p.deps := by
  obtain ⟨t, hst⟩ : ∃ t, RunStep p s t := by
    by_contra hq
    exact hr (returned_of_quiescent hp h (not_exists.1 hq) hi)
  rcases work_runStep h hst with hlt | ⟨th, x, rest, ht, hx⟩
  · exact ⟨t, hst, hlt⟩
  · obtain ⟨o, ho⟩ := p.outcome_exists
    refine ⟨_, .finish o ht hx ho, Nat.add_lt_add_right (work_phase ?_) _⟩
    simp [hx, Phase.work, Phase.rank]

theorem returns {s : State n (w + 1)} (hp : Acyclic p.deps) (h : Inv p s) (hi : s.main ≠ .idle) :
    ∃ t, Relation.ReflTransGen (RunStep p) s t ∧ t.main = .returned := by
  induction hm : s.work p.deps using Nat.strong_induction_on generalizing s with
  | _ m ih =>
    subst hm
    by_cases hr : s.main = .returned
    · exact ⟨s, .refl, hr⟩
    · obtain ⟨t, hst, hlt⟩ := work_lowered hp h hi hr
      obtain ⟨u, hu, hret⟩ := ih _ hlt (inv_runStep h hst) (fun ht => hi (runStep_idle hst ht)) rfl
      exact ⟨u, .head hst hu, hret⟩

end Completion

variable (p) in
structure Drains (w : Nat) : Prop where
  starts_once : ∀ s, (system p w).Reachable s → ∀ x, s.starts x ≤ 1
  disabled_idle : ∀ s, (system p w).Reachable s → ∀ x, p.disabled x = true → s.starts x = 0
  starts_ready : ∀ s t, (system p w).Reachable s → RunStep p s t →
    ∀ x, t.starts x ≠ s.starts x → ∀ d ∈ p.deps x, s.isSet d = true
  promised_once : ∀ s, (system p w).Reachable s → s.promised ≤ 1
  promised_settled : ∀ s, (system p w).Reachable s → s.promised = 1 → s.Settled
  settled_finite : ∀ s, (system p w).Reachable s → s.Settled → Acc (fun t s => RunStep p s t) s
  quiescent_completed : ∀ s, (system p w).Reachable s → s.main ≠ .idle → (∀ t, ¬ RunStep p s t) →
    s.main = .returned ∧ s.Settled ∧ (0 < n → s.promised = 1)
  executable : ∀ s, (system p w).Reachable s → s.main = .idle ∨ s.main = .returned →
    Step p s s.resetRunState
  leaves_idle : ∀ s t, (system p w).Reachable s → Step p s t → t.main ≠ .idle
  completes : ∀ s, (system p w).Reachable s → s.main ≠ .idle →
    ∃ t, Relation.ReflTransGen (RunStep p) s t ∧ t.main = .returned ∧ t.Settled ∧
      (0 < n → t.promised = 1)

theorem settled_of_promised {s : State n w} (h : Inv p s) (hp : 0 < s.promised) : s.Settled := by
  intro x
  rw [h.counts.terminal, (all_finished h hp).2 x]
  rfl

theorem completed_of_returned {s : State n w} (h : Inv p s) (hr : s.main = .returned) :
    s.Settled ∧ (0 < n → s.promised = 1) := by
  rcases h.returned hr with rfl | hpos
  · exact ⟨fun x => x.elim0, fun hn => absurd hn (lt_irrefl 0)⟩
  · exact ⟨settled_of_promised h hpos, fun _ => (all_finished h hpos).1⟩

theorem main_of_step {s t : State n w} (h : Inv p s) (hst : Step p s t) : t.main ≠ .idle := by
  cases hst with
  | run hst =>
    intro ht
    have hm := runStep_idle hst ht
    exact not_idle_of_runStep h hst hm
  | execute _ =>
    simp only [State.resetRunState]
    split_ifs <;> simp

theorem drains (hp : Acyclic p.deps) (hw : 0 < w) : Drains p w := by
  refine ⟨?_, ?_, ?_, ?_, ?_, ?_, ?_, ?_, ?_, ?_⟩
  · intro s hs x
    rw [(inv_reachable hs).counts.started]
    split_ifs <;> simp
  · intro s hs x hx
    rw [(inv_reachable hs).counts.started]
    simp [hx]
  · intro s t hs hst x hx
    exact start_runStep (inv_reachable hs) hst hx
  · intro s hs
    by_contra hne
    have := (all_finished (inv_reachable hs) (by omega)).1
    omega
  · intro s hs hp
    exact settled_of_promised (inv_reachable hs) (by omega)
  · intro s hs
    exact settled_acc (inv_reachable hs)
  · intro s hs hm hq
    obtain ⟨v, rfl⟩ := Nat.exists_eq_add_of_lt hw
    have hr := returned_of_quiescent hp (inv_reachable hs) hq hm
    exact ⟨hr, completed_of_returned (inv_reachable hs) hr⟩
  · exact fun s _ hm => .execute hm
  · exact fun s t hs hst => main_of_step (inv_reachable hs) hst
  · intro s hs hm
    obtain ⟨v, rfl⟩ := Nat.exists_eq_add_of_lt hw
    obtain ⟨t, ht, hr⟩ := returns hp (inv_reachable hs) hm
    have hinv : Inv p t := run_invariant (fun _ _ => inv_runStep) (inv_reachable hs) ht
    exact ⟨t, ht, hr, completed_of_returned hinv hr⟩

def dag (deps : Fin n → List (Fin n)) (id : Fin n → String) (disabledIds : List String) :
    Program n where
  deps := deps
  disabled := fun x => disabledIds.contains (id x)
  startStatus := .running
  outcome := fun o => o = .success ∨ o = .failed ∨ o = .fallback
  suspends := true
  start_terminal := rfl
  outcome_terminal := by simp [Status.terminal]
  outcome_exists := ⟨.success, by simp⟩

def column (deps : Fin n → List (Fin n)) : Program n where
  deps := deps
  disabled := fun _ => false
  startStatus := .pending
  outcome := fun o => o = .success ∨ o = .failed
  suspends := false
  start_terminal := rfl
  outcome_terminal := by simp [Status.terminal]
  outcome_exists := ⟨.success, by simp⟩

theorem executors_drain {deps : Fin n → List (Fin n)} (hd : Acyclic deps) (hw : 0 < w) :
    (∀ id disabledIds, Drains (dag deps id disabledIds) w) ∧ Drains (column deps) w :=
  ⟨fun _ _ => drains hd hw, drains hd hw⟩

theorem executors_drain_diamond :
    ∃ s : State 4 1, (system (dag (![[], [0], [0], [1, 2]] : Fin 4 → List (Fin 4))
        !["a", "b", "c", "d"] ["b"]) 1).Reachable s ∧ s.main = .returned ∧ s.promised = 1 ∧
      s.status 1 = .skipped ∧ s.status 3 = .success ∧ s.Settled := by
  have hlt : ∀ a b : Fin 4, a ∈ (![[], [0], [0], [1, 2]] : Fin 4 → List (Fin 4)) b → a < b := by
    decide
  have h := System.reachable_initial (M := system (dag (![[], [0], [0], [1, 2]] :
    Fin 4 → List (Fin 4)) !["a", "b", "c", "d"] ["b"]) 1) (s := .init) rfl
  have h := h.step (.execute (.inl rfl))
  have h := h.step (.run (.spawn 0 rfl rfl (by decide)))
  have h := h.step (.run (.skip 1 rfl rfl (by decide)))
  have h := h.step (.run (.exchange (t := .main) (x := 1) rfl rfl))
  have h := h.step (.run (.setEnd (t := .main) (x := 1) rfl rfl))
  have h := h.step (.run (.count (t := .main) (x := 1) rfl rfl (by decide)))
  have h := h.step (.run (.spawn 2 rfl rfl (by decide)))
  have h := h.step (.run (.dequeue 0 rfl rfl))
  have h := h.step (.run (.start (t := .worker 0) (x := 0) rfl rfl rfl))
  have h := h.step (.run (.bodySuspend (t := .worker 0) (x := 0) rfl rfl rfl))
  have h := h.step (.run (.dequeue 0 rfl rfl))
  have h := h.step (.run (.awaitSuspend (t := .worker 0) (x := 2) (d := 0) rfl rfl rfl rfl))
  have h := h.step (.run (.spawn 3 rfl rfl (by decide)))
  have h := h.step (.run (.spawnEnd rfl rfl))
  have h := h.step (.run (.bodyResume 0 rfl (x := 0) rfl))
  have h := h.step (.run (.finish (t := .external 0) (x := 0) .success rfl rfl rfl))
  have h := h.step (.run (.exchange (t := .external 0) (x := 0) rfl rfl))
  have h := h.step (.run (.resume (t := .external 0) (x := 0) (y := 2) rfl rfl rfl))
  have h := h.step (.run (.start (t := .external 0) (x := 2) rfl rfl rfl))
  have h := h.step (.run (.finish (t := .external 0) (x := 2) .failed rfl rfl rfl))
  have h := h.step (.run (.exchange (t := .external 0) (x := 2) rfl rfl))
  have h := h.step (.run (.setEnd (t := .external 0) (x := 2) rfl rfl))
  have h := h.step (.run (.count (t := .external 0) (x := 2) rfl rfl (by decide)))
  have h := h.step (.run (.setEnd (t := .external 0) (x := 0) rfl rfl))
  have h := h.step (.run (.count (t := .external 0) (x := 0) rfl rfl (by decide)))
  have h := h.step (.run (.dequeue 0 rfl rfl))
  have h := h.step (.run (.awaitSet (t := .worker 0) (x := 3) (d := 1) rfl rfl rfl rfl))
  have h := h.step (.run (.awaitSet (t := .worker 0) (x := 3) (d := 2) rfl rfl rfl rfl))
  have h := h.step (.run (.start (t := .worker 0) (x := 3) rfl rfl rfl))
  have h := h.step (.run (.finish (t := .worker 0) (x := 3) .success rfl rfl rfl))
  have h := h.step (.run (.exchange (t := .worker 0) (x := 3) rfl rfl))
  have h := h.step (.run (.setEnd (t := .worker 0) (x := 3) rfl rfl))
  have h := h.step (.run (.countLast (t := .worker 0) (x := 3) rfl rfl rfl))
  have h := h.step (.run (.signal (t := .worker 0) (x := 3) rfl rfl))
  have h := h.step (.run (.wait rfl (by decide)))
  exact ⟨_, h, rfl, rfl, rfl, rfl,
    ((executors_drain (.of_lt hlt) Nat.one_pos).1 _ _).promised_settled _ h rfl⟩

end Lark.Coro.NodeExecutor
