import Lark.Coro.Task

namespace Lark.Coro.Batch

open Lark.Base Lark.Coro.Future

def defaultBatchSize (total workers : UInt64) : UInt64 :=
  let workers := if workers = 0 then 1 else workers
  if total ≤ workers then 1 else (total + workers - 1) / workers

def effectiveSize (n batchSize workers : UInt64) : UInt64 :=
  let size := if batchSize = 0 then defaultBatchSize n workers else batchSize
  if size = 0 then 1 else size

def batches (n batchSize workers : UInt64) : UInt64 :=
  let size := effectiveSize n batchSize workers
  if n = 0 then 0 else (n + size - 1) / size

def range (n batchSize workers b : UInt64) : UInt64 × UInt64 :=
  let size := effectiveSize n batchSize workers
  (b * size, min (b * size + size) n)

variable {m : Nat} {E V : Type}

-- The callback that `BatchTransform` and `BatchReduce` attach to the joined future.
inductive Relay (E : Type) where
  | awaiting
  | observed (error : Option E)
  | called

structure State (m : Nat) (E V : Type) where
  batch : Fin m → Task E
  join : AllOf.State m E Unit Unit
  relay : Relay E
  result : FutureState E V

def State.init : State m E V := ⟨fun _ => .idle, .init fun _ => (), .awaiting, .pending⟩

def State.setBatch (s : State m E V) (i : Fin m) (t : Task E) : State m E V :=
  { s with batch := Function.update s.batch i t }

-- `collect` is the value built from the finished batches, or nothing when building it throws.
def answer (collect : Option V) (result : FutureState E V) : Option E → FutureState E V
  | some e => result.resolveError e
  | none =>
    match collect with
    | some v => result.resolveValue v
    | none => result

inductive Step (outcome : Fin m → Except E Unit) (collect : Option V) :
    State m E V → State m E V → Prop
  | launch {s} (i : Fin m) (h : (s.batch i).call = .idle)
      (hp : ∀ j < i, (s.batch j).call.Launched) :
      Step outcome collect s (s.setBatch i ((s.batch i).launch 1))
  | run {s} (i : Fin m) {t} (h : Task.Step (outcome i) (s.batch i) t) :
      Step outcome collect s (s.setBatch i t)
  | join {s j} (hl : ∀ i, (s.batch i).call.Launched)
      (h : AllOf.Step (fun _ => ()) (fun i => (s.batch i).future) s.join j) :
      Step outcome collect s { s with join := j }
  | observe {s} (h : s.relay = .awaiting) (hp : ∀ i, s.join.phase i ≠ .detached)
      (hd : s.join.out.done = true) :
      Step outcome collect s { s with relay := .observed s.join.out.error }
  | call {s error} (h : s.relay = .observed error) :
      Step outcome collect s { s with relay := .called, result := answer collect s.result error }
  | set {s} (h : s.result.resolved = true) (hd : s.result.done = false) :
      Step outcome collect s { s with result := { s.result with done := true } }

def system (outcome : Fin m → Except E Unit) (collect : Option V) : System (State m E V) where
  initial := fun s => s = .init
  step := Step outcome collect

def launches (n batchSize workers : UInt64) (batchFn : UInt64 → UInt64 → UInt64 → Except E Unit)
    (b : Fin (batches n batchSize workers).toNat) : Except E Unit :=
  let r := range n batchSize workers (UInt64.ofNat b)
  batchFn r.1 r.2 (UInt64.ofNat b)

def runBatches (n batchSize workers : UInt64)
    (batchFn : UInt64 → UInt64 → UInt64 → Except E Unit) (collect : Option V) :
    System (State (batches n batchSize workers).toNat E V) :=
  system (launches n batchSize workers batchFn) collect

structure Inv (outcome : Fin m → Except E Unit) (s : State m E V) : Prop where
  task : ∀ i, Task.Ok (outcome i) (s.batch i)
  join : AllOf.Inv (fun _ => ()) (fun i => (s.batch i).future) s.join
  relay : s.relay ≠ .awaiting → s.join.out.resolved = true
  result : s.result.resolved = true → s.relay ≠ .awaiting

variable {outcome : Fin m → Except E Unit} {collect : Option V} {s t : State m E V}

namespace Inv

theorem setBatch (h : Inv outcome s) {i : Fin m} {t : Task E} (ht : Task.Ok (outcome i) t)
    (hmono : ∀ o, Holds (s.batch i).future o → Holds t.future o) :
    Inv outcome (s.setBatch i t) := by
  refine ⟨fun j => ?_, h.join.mono fun j o ho => ?_, h.relay, h.result⟩
  · rcases eq_or_ne j i with rfl | hne
    · simpa [State.setBatch] using ht
    · simpa [State.setBatch, hne] using h.task j
  · rcases eq_or_ne j i with rfl | hne
    · simpa [State.setBatch] using hmono o ho
    · simpa [State.setBatch, hne] using ho

theorem step (h : Inv outcome s) (hst : Step outcome collect s t) : Inv outcome t := by
  cases hst with
  | launch i hi => exact h.setBatch ((h.task i).launch hi 1) fun _ ho => ho
  | run i hi => exact h.setBatch ((h.task i).step hi) fun _ ho => (h.task i).step_holds hi ho
  | join hl hj =>
    have hinv := h.join.step hj fun i hd => ⟨_, (h.task i).of_done hd⟩
    exact ⟨h.task, hinv, fun hr => (AllOf.step_keeps hj (h.relay hr)).1, h.result⟩
  | observe hr hp hd =>
    exact ⟨h.task, h.join, fun _ => h.join.out_resolved hd, fun _ => by simp⟩
  | call hr => exact ⟨h.task, h.join, fun _ => h.relay (by simp [hr]), fun _ => by simp⟩
  | set hr => exact ⟨h.task, h.join, h.relay, fun _ => h.result hr⟩

theorem init : Inv outcome (.init : State m E V) := by
  refine ⟨fun _ => Task.ok_idle, .init _ _, ?_, ?_⟩
  · simp [State.init]
  · simp [State.init, FutureState.pending]

theorem ended (h : Inv outcome s) (hc : m ≤ 1 ∨ ∀ i, outcome i = .ok ())
    (hr : s.join.out.resolved = true) (i : Fin m) : (s.batch i).call.Ended := by
  obtain ⟨o, ho⟩ := h.join.out_holds hr
  cases o with
  | ok v =>
    obtain ⟨w, hw⟩ := h.join.out_value ho i
    exact ⟨_, ((h.task i).holds hw).2⟩
  | error e =>
    obtain ⟨j, hj⟩ := h.join.out_error ho
    obtain ⟨he, hend⟩ := (h.task j).holds hj
    rcases hc with hone | hall
    · have hij : i = j := by
        apply Fin.ext
        omega
      exact ⟨_, hij ▸ hend⟩
    · rw [hall j] at he
      cases he

end Inv

theorem inv_reachable (h : (system outcome collect).Reachable s) : Inv outcome s := by
  refine System.Reachable.invariant ?_ (fun s t hs hst => hs.step hst) h
  rintro s rfl
  exact .init

section Progress

def Relay.rank : Relay E → Nat
  | .awaiting => 2
  | .observed _ => 1
  | .called => 0

def State.rank (s : State m E V) : Nat :=
  ∑ i, (s.batch i).rank + s.join.rank + s.relay.rank + unset s.result

theorem rank_setBatch {i : Fin m} {t : Task E} (h : t.rank < (s.batch i).rank) :
    ∑ j, ((s.setBatch i t).batch j).rank < ∑ j, (s.batch j).rank :=
  sum_update_lt (fun _ => Task.rank) h

theorem unset_answer (collect : Option V) (result : FutureState E V) (error : Option E) :
    unset (answer collect result error) ≤ unset result := by
  have hresolve : ∀ o : Except E V, unset (result.resolve o) ≤ unset result := by
    intro o
    cases hr : result.resolved with
    | true => rw [resolve_of_resolved hr]
    | false => exact (unset_resolve hr o).le
  cases error with
  | some e => exact hresolve (.error e)
  | none =>
    cases collect with
    | some v => exact hresolve (.ok v)
    | none => exact le_rfl

theorem rank_step (h : Step outcome collect s t) : t.rank < s.rank := by
  cases h with
  | launch i hi =>
    have hlt := rank_setBatch (s := s) (i := i) (t := (s.batch i).launch 1)
      (by simp [Task.rank, Task.launch, hi, Call.rank])
    exact Nat.add_lt_add_right (Nat.add_lt_add_right (Nat.add_lt_add_right hlt _) _) _
  | run i hi =>
    exact Nat.add_lt_add_right
      (Nat.add_lt_add_right (Nat.add_lt_add_right (rank_setBatch hi.rank_lt) _) _) _
  | join hl hj =>
    exact Nat.add_lt_add_right
      (Nat.add_lt_add_right (Nat.add_lt_add_left (AllOf.rank_step hj) _) _) _
  | observe hr => simp [State.rank, hr, Relay.rank]
  | @call error hr =>
    have hle := unset_answer collect s.result error
    simp only [State.rank, hr, Relay.rank]
    omega
  | set hr hd =>
    have hlt := unset_done hd
    simp only [State.rank]
    omega

theorem launched_of_stuck (hq : ∀ t, ¬ Step outcome collect s t) (i : Fin m) :
    (s.batch i).call.Launched := by
  induction i using WellFoundedLT.induction with
  | ind i ih => exact fun hi => hq _ (.launch i hi ih)

theorem called_of_stuck (h : Inv outcome s) (hs : AllOf.Signals s.join)
    (hq : ∀ t, ¬ Step outcome collect s t) : s.relay = .called := by
  have hl := launched_of_stuck hq
  have hbatch : ∀ i, (s.batch i).future.done = true := fun i =>
    Task.done_of_stuck (hl i) fun t ht => hq _ (.run i ht)
  have hfin := AllOf.finished_of_stuck (fun i => ⟨hbatch i, _, (h.task i).of_done (hbatch i)⟩)
    fun j hj => hq _ (.join hl hj)
  cases hr : s.relay with
  | awaiting =>
    refine absurd (.observe hr (fun i hi => ?_) (AllOf.done_of_finished h.join hs hfin)) (hq _)
    have hf := hfin i
    rw [hi] at hf
    cases hf
  | observed error => exact absurd (.call hr) (hq _)
  | called => rfl

end Progress

end Lark.Coro.Batch
