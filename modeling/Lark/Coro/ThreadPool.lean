import Lark.Base.Counting
import Lark.Base.Transition

namespace Lark.Coro

open Lark.Base Relation

structure ThreadPoolConfig where
  threads : Nat
  maxQueue : Nat

def ThreadPoolConfig.workers (config : ThreadPoolConfig) (default : Nat) : Nat :=
  let threads := if config.threads = 0 then default else config.threads
  if threads = 0 then 1 else threads

theorem ThreadPoolConfig.workers_pos (config : ThreadPoolConfig) (default : Nat) :
    0 < config.workers default := by
  unfold workers
  dsimp only
  split_ifs <;> omega

-- `notify` while the handle is in an Enqueue of its own, between the push and the notify_one.
inductive Worker (H : Type) where
  | checking
  | waiting
  | holding (handle : H)
  | running (handle : H) (notify : Bool)
  | exited
  deriving DecidableEq

inductive Destructor where
  | notStarted
  | notifying
  | joining (worker : Nat)
  deriving DecidableEq

-- `outside` counts the other threads that are between the push and the notify_one of an Enqueue.
structure ThreadPool (H : Type) (n : Nat) where
  queue : List H
  stop : Bool
  workers : Fin n → Worker H
  outside : Nat
  destructor : Destructor
  enqueued : List H
  dequeued : List H
  resumed : List H

namespace ThreadPool

variable {H : Type} {n : Nat}

def start (H : Type) (n : Nat) : ThreadPool H n :=
  ⟨[], false, fun _ => .checking, 0, .notStarted, [], [], []⟩

def put (s : ThreadPool H n) (i : Fin n) (w : Worker H) : ThreadPool H n :=
  { s with workers := Function.update s.workers i w }

-- Enqueue up to the end of its critical section; `none` where it has returned by then.
def enqueue (maxQueue : Nat) (handle : Option H) (s : ThreadPool H n) : Option (ThreadPool H n) :=
  match handle with
  | none => none
  | some h =>
    if 0 < maxQueue ∧ maxQueue ≤ s.queue.length then none
    else some { s with queue := s.queue ++ [h], enqueued := s.enqueued ++ [h] }

-- The critical section of the worker loop, from its entry or from a wake-up to its end or a wait.
def check (s : ThreadPool H n) (i : Fin n) : ThreadPool H n :=
  match s.queue with
  | h :: queue => { s.put i (.holding h) with queue := queue, dequeued := s.dequeued ++ [h] }
  | [] => if s.stop then s.put i .exited else s.put i .waiting

inductive NotifyOne (s : ThreadPool H n) : ThreadPool H n → Prop
  | nobody (h : ∀ i, s.workers i ≠ .waiting) : NotifyOne s s
  | wakes (i : Fin n) (h : s.workers i = .waiting) : NotifyOne s (s.put i .checking)

def wake : Worker H → Worker H
  | .waiting => .checking
  | w => w

def notifyAll (s : ThreadPool H n) : ThreadPool H n :=
  { s with workers := fun i => wake (s.workers i) }

-- What the pool has no hold on: when Enqueue and the destructor are called, spurious wake-ups.
inductive Call (maxQueue : Nat) (s : ThreadPool H n) : ThreadPool H n → Prop
  | outside {t : ThreadPool H n} (handle : Option H) (hd : s.destructor = .notStarted)
    (h : s.enqueue maxQueue handle = some t) : Call maxQueue s { t with outside := t.outside + 1 }
  | inside {t : ThreadPool H n} (handle : Option H) (i : Fin n) (g : H)
    (hi : s.workers i = .running g false) (h : s.enqueue maxQueue handle = some t) :
    Call maxQueue s (t.put i (.running g true))
  | spurious (i : Fin n) (hi : s.workers i = .waiting) : Call maxQueue s (s.put i .checking)
  | destroy (hd : s.destructor = .notStarted) :
    Call maxQueue s { s with stop := true, destructor := .notifying }

inductive Work (s : ThreadPool H n) : ThreadPool H n → Prop
  | outsideNotify {t : ThreadPool H n} (h : 0 < s.outside)
    (ht : NotifyOne { s with outside := s.outside - 1 } t) : Work s t
  | insideNotify {t : ThreadPool H n} (i : Fin n) (g : H) (hi : s.workers i = .running g true)
    (ht : NotifyOne (s.put i (.running g false)) t) : Work s t
  | check (i : Fin n) (hi : s.workers i = .checking) : Work s (s.check i)
  | resume (i : Fin n) (h : H) (hi : s.workers i = .holding h) :
    Work s { s.put i (.running h false) with resumed := s.resumed ++ [h] }
  | suspend (i : Fin n) (h : H) (hi : s.workers i = .running h false) : Work s (s.put i .checking)
  | notifyAll (hd : s.destructor = .notifying) :
    Work s { s.notifyAll with destructor := .joining 0 }
  | join (i : Fin n) (hd : s.destructor = .joining i) (hi : s.workers i = .exited) :
    Work s { s with destructor := .joining (i + 1) }

def Step (maxQueue : Nat) (s t : ThreadPool H n) : Prop := Call maxQueue s t ∨ Work s t

def Joined (s : ThreadPool H n) : Prop := s.destructor = .joining n

def total (r : Worker H → Nat) (s : ThreadPool H n) : Nat := ∑ i, r (s.workers i)

def held [DecidableEq H] (h : H) : Worker H → Nat
  | .holding g => if g = h then 1 else 0
  | _ => 0

def coming : Worker H → Nat
  | .checking => 1
  | .running _ true => 1
  | _ => 0

structure Accounted [DecidableEq H] (s : ThreadPool H n) : Prop where
  fifo : s.enqueued = s.dequeued ++ s.queue
  once : ∀ h, s.resumed.count h + s.total (held h) = s.dequeued.count h

structure Controlled (s : ThreadPool H n) : Prop where
  stopped : s.stop = true ↔ s.destructor ≠ .notStarted
  exited : ∀ i, s.workers i = .exited → s.stop = true
  drained : (∀ i, s.workers i = .exited) → s.queue = []
  told : ∀ k, s.destructor = .joining k → ∀ i, s.workers i ≠ .waiting
  joined : ∀ k, s.destructor = .joining k → k ≤ n ∧ ∀ i : Fin n, i < k → s.workers i = .exited

-- No wake-up is lost: with a worker asleep, there is a visit to come for every queued handle.
def Awake (s : ThreadPool H n) (outside : Nat) : Prop :=
  (∃ i, s.workers i = .waiting) → s.queue.length ≤ outside + s.total coming

structure Inv [DecidableEq H] (s : ThreadPool H n) : Prop where
  accounted : Accounted s
  controlled : Controlled s
  awake : Awake s s.outside

section Put

variable {s t : ThreadPool H n} {i : Fin n} {w : Worker H}

theorem total_put (r : Worker H → Nat) (s : ThreadPool H n) (i : Fin n) (w : Worker H) :
    (s.put i w).total r + r (s.workers i) = s.total r + r w :=
  sum_update_add r

theorem put_workers_of_ne (s : ThreadPool H n) (w : Worker H) {j : Fin n} (hj : j ≠ i) :
    (s.put i w).workers j = s.workers j :=
  Function.update_of_ne hj _ _

@[simp]
theorem put_workers_self (s : ThreadPool H n) (i : Fin n) (w : Worker H) :
    (s.put i w).workers i = w :=
  Function.update_self _ _ _

@[simp]
theorem put_queue (s : ThreadPool H n) (i : Fin n) (w : Worker H) : (s.put i w).queue = s.queue :=
  rfl

@[simp]
theorem put_outside (s : ThreadPool H n) (i : Fin n) (w : Worker H) :
    (s.put i w).outside = s.outside :=
  rfl

theorem Controlled.put (hs : Controlled s) (hi : s.workers i ≠ .exited)
    (hexit : w = .exited → s.stop = true ∧ s.queue = [])
    (hwait : w = .waiting → s.destructor = .notStarted) : Controlled (s.put i w) := by
  have hcases : ∀ j v, (s.put i w).workers j = v → w = v ∨ s.workers j = v := by
    intro j v hj
    rcases eq_or_ne j i with rfl | hne
    · exact .inl ((put_workers_self s j w).symm.trans hj)
    · exact .inr ((put_workers_of_ne s w hne).symm.trans hj)
  refine ⟨hs.stopped, ?_, ?_, ?_, ?_⟩
  · intro j hj
    rcases hcases j _ hj with hw | hj
    · exact (hexit hw).1
    · exact hs.exited j hj
  · intro hall
    exact (hexit ((put_workers_self s i w).symm.trans (hall i))).2
  · intro k hk j hj
    rcases hcases j _ hj with hw | hj
    · cases hk.symm.trans (hwait hw)
    · exact hs.told k hk j hj
  · intro k hk
    refine ⟨(hs.joined k hk).1, ?_⟩
    intro j hj
    have hexited := (hs.joined k hk).2 j hj
    rw [put_workers_of_ne s w (by rintro rfl; exact hi hexited)]
    exact hexited

theorem Controlled.congr (hs : Controlled s) (hstop : t.stop = s.stop)
    (hd : t.destructor = s.destructor) (hw : t.workers = s.workers)
    (hlive : ∃ i, s.workers i ≠ .exited) : Controlled t := by
  obtain ⟨i, hi⟩ := hlive
  refine ⟨?_, ?_, ?_, ?_, ?_⟩
  · rw [hstop, hd]
    exact hs.stopped
  · rw [hw, hstop]
    exact hs.exited
  · intro hall
    rw [hw] at hall
    exact absurd (hall i) hi
  · rw [hw, hd]
    exact hs.told
  · rw [hw, hd]
    exact hs.joined

theorem Accounted.put [DecidableEq H] (hs : Accounted s)
    (hheld : ∀ h, held h w = held h (s.workers i)) : Accounted (s.put i w) := by
  refine ⟨hs.fifo, ?_⟩
  intro h
  have htotal := total_put (held h) s i w
  rw [hheld h] at htotal
  rw [Nat.add_right_cancel htotal]
  exact hs.once h

theorem enqueue_eq_some {maxQueue : Nat} {handle : Option H}
    (h : s.enqueue maxQueue handle = some t) :
    ∃ g, t = { s with queue := s.queue ++ [g], enqueued := s.enqueued ++ [g] } := by
  unfold ThreadPool.enqueue at h
  split at h
  · cases h
  · split_ifs at h with hfull
    exact ⟨_, (Option.some.inj h).symm⟩

theorem waiting_of_put (hw : w ≠ .waiting) (h : ∃ j, (s.put i w).workers j = .waiting) :
    ∃ j, s.workers j = .waiting := by
  obtain ⟨j, hj⟩ := h
  rcases eq_or_ne j i with rfl | hne
  · exact absurd ((put_workers_self s j w).symm.trans hj) hw
  · exact ⟨j, (put_workers_of_ne s w hne).symm.trans hj⟩

theorem Awake.put {m m' q : Nat} (ha : Awake s m) (hw : w ≠ .waiting)
    (hle : q + m + coming (s.workers i) ≤ s.queue.length + m' + coming w) :
    (∃ j, (s.put i w).workers j = .waiting) → q ≤ m' + (s.put i w).total coming := by
  intro hwait
  have hq := ha (waiting_of_put hw hwait)
  have htotal := total_put coming s i w
  omega

theorem Controlled.live (hs : Controlled s) (hn : 0 < n) (hd : s.destructor = .notStarted) :
    ∃ i, s.workers i ≠ .exited := by
  refine ⟨⟨0, hn⟩, ?_⟩
  intro hexited
  exact hs.stopped.1 (hs.exited _ hexited) hd

end Put

section Steps

variable [DecidableEq H] {s t : ThreadPool H n} {i : Fin n} {w : Worker H} {maxQueue k : Nat}

theorem Accounted.enqueue {handle : Option H} (hs : Accounted s)
    (h : s.enqueue maxQueue handle = some t) : Accounted t := by
  obtain ⟨g, rfl⟩ := enqueue_eq_some h
  refine ⟨?_, hs.once⟩
  simp [hs.fifo]

theorem Inv.wakes (hs : Accounted s) (hc : Controlled s) (hi : s.workers i = .waiting)
    (hq : s.queue.length ≤ s.outside + s.total coming + 1) : Inv (s.put i .checking) := by
  have hne : s.workers i ≠ .exited := by simp [hi]
  refine ⟨hs.put (by simp [hi, held]), hc.put hne (by simp) (by simp), ?_⟩
  intro _
  have htotal := total_put coming s i .checking
  rw [hi] at htotal
  change s.queue.length ≤ s.outside + _
  simp only [coming] at htotal
  omega

theorem Inv.notified (hs : Accounted s) (hc : Controlled s) (ha : Awake s (s.outside + 1))
    (h : NotifyOne s t) : Inv t := by
  cases h with
  | nobody hno =>
    refine ⟨hs, hc, ?_⟩
    rintro ⟨i, hi⟩
    exact absurd hi (hno i)
  | wakes i hi =>
    have hq := ha ⟨i, hi⟩
    exact .wakes hs hc hi (by omega)

theorem Inv.call (hn : 0 < n) (hs : Inv s) (h : Call maxQueue s t) : Inv t := by
  obtain ⟨hacc, hc, ha⟩ := hs
  cases h with
  | outside handle hd henq =>
    have hacc' := hacc.enqueue henq
    obtain ⟨g, rfl⟩ := enqueue_eq_some henq
    refine ⟨⟨hacc'.fifo, hacc'.once⟩, hc.congr rfl rfl rfl (hc.live hn hd), ?_⟩
    intro hw
    have hq := ha hw
    change (s.queue ++ [g]).length ≤ s.outside + 1 + s.total coming
    simp only [List.length_append, List.length_singleton]
    omega
  | inside handle i g hi henq =>
    have hacc' := hacc.enqueue henq
    obtain ⟨g', rfl⟩ := enqueue_eq_some henq
    have hc' := hc.congr (t := { s with queue := s.queue ++ [g'], enqueued := s.enqueued ++ [g'] })
      rfl rfl rfl ⟨i, by simp [hi]⟩
    refine ⟨hacc'.put (by simp [hi, held]), hc'.put (by simp [hi]) (by simp) (by simp), ?_⟩
    exact ha.put (by simp) (by simp [hi, coming]; omega)
  | spurious i hi =>
    have hq := ha ⟨i, hi⟩
    exact .wakes hacc hc hi (by omega)
  | destroy hd =>
    refine ⟨⟨hacc.fifo, hacc.once⟩, ⟨by simp, fun _ _ => rfl, hc.drained, ?_, ?_⟩, ha⟩
    · intro k hk
      cases hk
    · intro k hk
      cases hk

theorem Inv.check (hs : Inv s) (hi : s.workers i = .checking) : Inv (s.check i) := by
  obtain ⟨hacc, hc, ha⟩ := hs
  have hne : s.workers i ≠ .exited := by simp [hi]
  unfold ThreadPool.check
  split
  · rename_i h queue hqueue
    refine ⟨⟨?_, ?_⟩, ?_, ?_⟩
    · change s.enqueued = s.dequeued ++ [h] ++ queue
      simp [hacc.fifo, hqueue]
    · intro g
      have htotal := total_put (held g) s i (.holding h)
      have honce := hacc.once g
      rw [hi] at htotal
      change s.resumed.count g + (s.put i (.holding h)).total (held g) =
        (s.dequeued ++ [h]).count g
      rw [List.count_append, List.count_singleton]
      simp only [held, beq_iff_eq] at htotal ⊢
      omega
    · exact (hc.put (w := .holding h) hne (by simp) (by simp)).congr rfl rfl rfl ⟨i, by simp⟩
    · exact ha.put (by simp) (by simp [hi, coming, hqueue])
  · rename_i hqueue
    split_ifs with hstop
    · refine ⟨hacc.put (by simp [hi, held]), hc.put hne (fun _ => ⟨hstop, hqueue⟩) (by simp), ?_⟩
      intro _
      change s.queue.length ≤ _
      simp [hqueue]
    · refine ⟨hacc.put (by simp [hi, held]), hc.put hne (by simp) (fun _ => ?_), ?_⟩
      · by_contra hd
        exact hstop (hc.stopped.2 hd)
      · intro _
        change s.queue.length ≤ _
        simp [hqueue]

theorem Inv.notifyAll (hs : Inv s) (hd : s.destructor = .notifying) :
    Inv { s.notifyAll with destructor := .joining 0 } := by
  obtain ⟨hacc, hc, -⟩ := hs
  have hheld : ∀ h, s.notifyAll.total (held h) = s.total (held h) := by
    intro h
    apply Finset.sum_congr rfl
    intro i _
    change held h (wake (s.workers i)) = _
    cases s.workers i <;> rfl
  have hexited : ∀ i, s.notifyAll.workers i = .exited → s.workers i = .exited := by
    intro i hi
    change wake (s.workers i) = .exited at hi
    cases hw : s.workers i <;> rw [hw] at hi <;> first | rfl | cases hi
  have hawake : ∀ i, s.notifyAll.workers i ≠ .waiting := by
    intro i
    change wake (s.workers i) ≠ .waiting
    cases s.workers i <;> simp [wake]
  refine ⟨⟨hacc.fifo, ?_⟩, ⟨?_, ?_, ?_, fun _ _ => hawake, ?_⟩, ?_⟩
  · intro h
    change s.resumed.count h + s.notifyAll.total (held h) = s.dequeued.count h
    rw [hheld]
    exact hacc.once h
  · change s.stop = true ↔ _
    simp [hc.stopped, hd]
  · intro i hi
    exact hc.exited i (hexited i hi)
  · intro hall
    exact hc.drained fun i => hexited i (hall i)
  · intro k hk
    obtain rfl := Destructor.joining.inj hk
    exact ⟨Nat.zero_le n, fun i hi => absurd hi (Nat.not_lt_zero _)⟩
  · rintro ⟨i, hi⟩
    exact absurd hi (hawake i)

theorem Inv.work (hs : Inv s) (h : Work s t) : Inv t := by
  obtain ⟨hacc, hc, ha⟩ := hs
  cases h with
  | outsideNotify hpos ht =>
    refine .notified (s := { s with outside := s.outside - 1 }) ⟨hacc.fifo, hacc.once⟩
      ⟨hc.stopped, hc.exited, hc.drained, hc.told, hc.joined⟩ ?_ ht
    intro hw
    have hq := ha hw
    change s.queue.length ≤ s.outside - 1 + 1 + s.total coming
    omega
  | insideNotify i g hi ht =>
    refine .notified (hacc.put (by simp [hi, held])) (hc.put (by simp [hi]) (by simp) (by simp)) ?_
      ht
    exact ha.put (by simp) (by simp [hi, coming])
  | check i hi => exact Inv.check ⟨hacc, hc, ha⟩ hi
  | resume i h hi =>
    have hc' := hc.put (w := .running h false) (i := i) (by simp [hi]) (by simp) (by simp)
    refine ⟨⟨hacc.fifo, ?_⟩,
      ⟨hc'.stopped, hc'.exited, hc'.drained, hc'.told, hc'.joined⟩, ?_⟩
    · intro g
      have htotal := total_put (held g) s i (.running h false)
      have honce := hacc.once g
      rw [hi] at htotal
      change (s.resumed ++ [h]).count g + (s.put i (.running h false)).total (held g) =
        s.dequeued.count g
      rw [List.count_append, List.count_singleton]
      simp only [held, beq_iff_eq] at htotal ⊢
      omega
    · exact ha.put (by simp) (by simp [hi, coming])
  | suspend i h hi =>
    refine ⟨hacc.put (by simp [hi, held]), hc.put (by simp [hi]) (by simp) (by simp), ?_⟩
    exact ha.put (by simp) (by simp [hi, coming])
  | notifyAll hd => exact Inv.notifyAll ⟨hacc, hc, ha⟩ hd
  | join i hd hi =>
    refine ⟨⟨hacc.fifo, hacc.once⟩, ⟨?_, hc.exited, hc.drained, ?_, ?_⟩, ha⟩
    · change s.stop = true ↔ _
      simp [hc.stopped, hd]
    · intro k _
      exact hc.told i hd
    · intro k hk
      obtain rfl := Destructor.joining.inj hk
      refine ⟨i.isLt, ?_⟩
      intro j hj
      rcases Nat.lt_succ_iff_lt_or_eq.1 hj with hlt | heq
      · exact (hc.joined i hd).2 j hlt
      · rw [Fin.ext heq]
        exact hi

theorem inv_start : Inv (start H n) := by
  refine ⟨⟨rfl, ?_⟩, ⟨by simp [start], ?_, ?_, ?_, ?_⟩, ?_⟩
  · intro h
    simp [start, total, held]
  · intro i hi
    cases hi
  · intro _
    rfl
  · intro k hk
    cases hk
  · intro k hk
    cases hk
  · rintro ⟨i, hi⟩
    cases hi

theorem inv_run (hn : 0 < n) (h : ReflTransGen (Step maxQueue) (start H n) s) : Inv s := by
  refine run_invariant ?_ inv_start h
  rintro s t hs (hcall | hwork)
  · exact hs.call hn hcall
  · exact hs.work hwork

end Steps

section Settling

variable {s t : ThreadPool H n}

def effort : Worker H → Nat
  | .checking => 1
  | .waiting => 0
  | .holding _ => 3
  | .running _ false => 2
  | .running _ true => 4
  | .exited => 0

def remaining (n : Nat) : Destructor → Nat
  | .notStarted => 0
  | .notifying => 2 * n + 1
  | .joining k => n - k

def measure (s : ThreadPool H n) : Nat :=
  3 * s.queue.length + 2 * s.outside + s.total effort + remaining n s.destructor

theorem measure_notified (h : NotifyOne s t) : t.measure ≤ s.measure + 1 := by
  cases h with
  | nobody _ => omega
  | wakes i hi =>
    have htotal := total_put effort s i .checking
    rw [hi] at htotal
    simp only [effort] at htotal
    change 3 * s.queue.length + 2 * s.outside + (s.put i .checking).total effort +
      remaining n s.destructor ≤ s.measure + 1
    unfold measure
    omega

theorem measure_put {i : Fin n} {w : Worker H} (h : effort w < effort (s.workers i)) :
    (s.put i w).measure < s.measure := by
  have htotal := total_put effort s i w
  change 3 * s.queue.length + 2 * s.outside + (s.put i w).total effort +
    remaining n s.destructor < s.measure
  unfold measure
  omega

theorem measure_notifyAll (hd : s.destructor = .notifying) :
    measure { s.notifyAll with destructor := .joining 0 } < s.measure := by
  have hwake : s.notifyAll.total effort ≤ s.total effort + n := by
    have hle : ∀ i ∈ Finset.univ, effort (wake (s.workers i)) ≤ effort (s.workers i) + 1 := by
      intro i _
      cases s.workers i <;> simp [wake, effort]
    have hsum := Finset.sum_le_sum hle
    rw [Finset.sum_add_distrib] at hsum
    simpa [total, ThreadPool.notifyAll] using hsum
  change 3 * s.queue.length + 2 * s.outside + s.notifyAll.total effort + (n - 0) < s.measure
  simp only [measure, hd, remaining]
  omega

theorem measure_work (h : Work s t) : t.measure < s.measure := by
  cases h with
  | outsideNotify hpos ht =>
    have hle := measure_notified ht
    have hdrop : measure { s with outside := s.outside - 1 } + 2 = s.measure := by
      change 3 * s.queue.length + 2 * (s.outside - 1) + s.total effort +
        remaining n s.destructor + 2 = s.measure
      unfold measure
      omega
    omega
  | insideNotify i g hi ht =>
    have hle := measure_notified ht
    have htotal := total_put effort s i (.running g false)
    rw [hi] at htotal
    simp only [effort] at htotal
    have hdrop : (s.put i (.running g false)).measure + 2 = s.measure := by
      change 3 * s.queue.length + 2 * s.outside + (s.put i (.running g false)).total effort +
        remaining n s.destructor + 2 = s.measure
      unfold measure
      omega
    omega
  | check i hi =>
    unfold ThreadPool.check
    split
    · rename_i h queue hqueue
      have htotal := total_put effort s i (.holding h)
      rw [hi] at htotal
      simp only [effort] at htotal
      change 3 * queue.length + 2 * s.outside + (s.put i (.holding h)).total effort +
        remaining n s.destructor < s.measure
      simp only [measure, hqueue, List.length_cons]
      omega
    · split_ifs <;> exact measure_put (by simp [hi, effort])
  | resume i h hi =>
    have hput : (s.put i (.running h false)).measure < s.measure :=
      measure_put (by simp [hi, effort])
    unfold measure at hput ⊢
    exact hput
  | suspend i h hi => exact measure_put (by simp [hi, effort])
  | notifyAll hd => exact measure_notifyAll hd
  | join i hd hi =>
    have hlt := i.isLt
    change 3 * s.queue.length + 2 * s.outside + s.total effort + (n - (i + 1)) < s.measure
    simp only [measure, hd, remaining]
    omega

theorem work_terminates (s : ThreadPool H n) : Acc (fun b a => Work a b) s := by
  apply Subrelation.accessible (r := InvImage (· < ·) measure)
  · intro b a h
    exact measure_work h
  · exact (InvImage.wf measure wellFounded_lt).apply s

theorem exists_notifyOne (s : ThreadPool H n) : ∃ t, NotifyOne s t := by
  by_cases hw : ∃ i, s.workers i = .waiting
  · obtain ⟨i, hi⟩ := hw
    exact ⟨_, .wakes i hi⟩
  · exact ⟨s, .nobody fun i hi => hw ⟨i, hi⟩⟩

theorem idle_of_settled (h : ∀ t, ¬ Work s t) (i : Fin n) :
    s.workers i = .waiting ∨ s.workers i = .exited := by
  cases hi : s.workers i with
  | checking => exact absurd (.check i hi) (h _)
  | waiting => exact .inl rfl
  | holding g => exact absurd (.resume i g hi) (h _)
  | running g notify =>
    cases notify with
    | false => exact absurd (.suspend i g hi) (h _)
    | true =>
      obtain ⟨t, ht⟩ := exists_notifyOne (s.put i (.running g false))
      exact absurd (.insideNotify i g hi ht) (h t)
  | exited => exact .inr rfl

theorem outside_of_settled (h : ∀ t, ¬ Work s t) : s.outside = 0 := by
  by_contra hne
  obtain ⟨t, ht⟩ := exists_notifyOne { s with outside := s.outside - 1 }
  exact h t (.outsideNotify (Nat.pos_of_ne_zero hne) ht)

theorem total_of_idle {r : Worker H → Nat} (hr : r .waiting = 0 ∧ r .exited = 0)
    (h : ∀ i, s.workers i = .waiting ∨ s.workers i = .exited) : s.total r = 0 := by
  apply Finset.sum_eq_zero
  intro i _
  rcases h i with hi | hi <;> simp [hi, hr]

theorem Accounted.perm [DecidableEq H] (hs : Accounted s) (hq : s.queue = [])
    (h : ∀ i, s.workers i = .waiting ∨ s.workers i = .exited) : s.resumed.Perm s.enqueued := by
  rw [List.perm_iff_count]
  intro g
  have honce := hs.once g
  have hheld : s.total (held g) = 0 := total_of_idle ⟨rfl, rfl⟩ h
  rw [hs.fifo, hq, List.append_nil]
  omega

theorem Inv.settled [DecidableEq H] (hs : Inv s) (h : ∀ t, ¬ Work s t) :
    s.queue = [] ∧ s.resumed.Perm s.enqueued ∧ (s.destructor ≠ .notStarted → s.Joined) := by
  obtain ⟨hacc, hc, ha⟩ := hs
  have hidle := idle_of_settled h
  have hqueue : s.queue = [] := by
    by_cases hw : ∃ i, s.workers i = .waiting
    · have hlen := ha hw
      rw [outside_of_settled h, total_of_idle ⟨rfl, rfl⟩ hidle] at hlen
      exact List.length_eq_zero_iff.1 (Nat.le_zero.1 hlen)
    · exact hc.drained fun i => (hidle i).resolve_left fun hi => hw ⟨i, hi⟩
  refine ⟨hqueue, hacc.perm hqueue hidle, ?_⟩
  intro hd
  cases hdest : s.destructor with
  | notStarted => exact absurd hdest hd
  | notifying => exact absurd (.notifyAll hdest) (h _)
  | joining k =>
    obtain ⟨hk, -⟩ := hc.joined k hdest
    rcases hk.lt_or_eq with hlt | rfl
    · have hexited := (hidle ⟨k, hlt⟩).resolve_left (hc.told k hdest ⟨k, hlt⟩)
      exact absurd (.join ⟨k, hlt⟩ hdest hexited) (h _)
    · exact hdest

theorem Inv.joined [DecidableEq H] (hs : Inv s) (h : s.Joined) :
    s.queue = [] ∧ s.resumed.Perm s.enqueued := by
  have hexited : ∀ i, s.workers i = .exited := fun i => (hs.controlled.joined n h).2 i i.isLt
  have hqueue := hs.controlled.drained hexited
  exact ⟨hqueue, hs.accounted.perm hqueue fun i => .inr (hexited i)⟩

end Settling

section Exits

variable {s t : ThreadPool H n} {i j : Fin n} {w : Worker H} {maxQueue : Nat}

theorem exited_of_put (hw : w ≠ .exited) (h : (s.put i w).workers j = .exited) :
    s.workers j = .exited := by
  rcases eq_or_ne j i with rfl | hne
  · exact absurd ((put_workers_self s j w).symm.trans h) hw
  · exact (put_workers_of_ne s w hne).symm.trans h

theorem exited_of_notified (hn : NotifyOne s t) (h : t.workers j = .exited) :
    s.workers j = .exited := by
  cases hn with
  | nobody _ => exact h
  | wakes i _ => exact exited_of_put (by simp) h

theorem exits_on_empty (hst : Step maxQueue s t) (hj : s.workers j ≠ .exited)
    (ht : t.workers j = .exited) : s.queue = [] := by
  by_contra hqueue
  apply hj
  rcases hst with hcall | hwork
  · cases hcall with
    | outside handle _ henq =>
      obtain ⟨g, rfl⟩ := enqueue_eq_some henq
      exact ht
    | inside handle i g _ henq =>
      obtain ⟨g', rfl⟩ := enqueue_eq_some henq
      exact exited_of_put (w := .running g true) (by simp) ht
    | spurious i _ => exact exited_of_put (by simp) ht
    | destroy _ => exact ht
  · cases hwork with
    | outsideNotify _ hn =>
      exact exited_of_notified (s := { s with outside := s.outside - 1 }) hn ht
    | insideNotify i g _ hn => exact exited_of_put (by simp) (exited_of_notified hn ht)
    | check i hi =>
      unfold ThreadPool.check at ht
      split at ht
      · rename_i h _ _
        exact exited_of_put (w := .holding h) (by simp) ht
      · rename_i hnil
        exact absurd hnil hqueue
    | resume i h _ => exact exited_of_put (w := .running h false) (by simp) ht
    | suspend i _ _ => exact exited_of_put (by simp) ht
    | notifyAll _ =>
      change wake (s.workers j) = .exited at ht
      cases hw : s.workers j <;> rw [hw] at ht <;> first | rfl | cases ht
    | join _ _ _ => exact ht

end Exits

structure RunsOnce [DecidableEq H] (maxQueue : Nat) (s : ThreadPool H n) : Prop where
  accepts : ∀ h, s.enqueue maxQueue (some h) =
    some { s with queue := s.queue ++ [h], enqueued := s.enqueued ++ [h] }
  fifo : s.enqueued = s.dequeued ++ s.queue
  once : ∀ h, s.resumed.count h + s.total (held h) = s.dequeued.count h
  exits : ∀ t i, Step maxQueue s t → s.workers i ≠ .exited → t.workers i = .exited → s.queue = []
  joined : s.Joined → s.queue = [] ∧ s.resumed.Perm s.enqueued
  terminates : Acc (fun b a => Work a b) s
  settled : (∀ t, ¬ Work s t) →
    s.queue = [] ∧ s.resumed.Perm s.enqueued ∧ (s.destructor ≠ .notStarted → s.Joined)

theorem pool_runs_once [DecidableEq H] (config : ThreadPoolConfig) (default : Nat)
    (hunbounded : config.maxQueue = 0) {s : ThreadPool H (config.workers default)}
    (h : ReflTransGen (Step config.maxQueue) (start H (config.workers default)) s) :
    RunsOnce config.maxQueue s := by
  have hs : Inv s := inv_run (config.workers_pos default) h
  refine ⟨?_, hs.accounted.fifo, hs.accounted.once, ?_, hs.joined, work_terminates s, hs.settled⟩
  · intro g
    simp [ThreadPool.enqueue, hunbounded]
  · intro t i hst hi ht
    exact exits_on_empty hst hi ht

theorem pool_runs_once_single : ∃ s : ThreadPool Nat 1,
    ReflTransGen (Step 0) (start Nat 1) s ∧ s.Joined ∧ s.enqueued = [7] ∧ s.resumed.Perm [7] := by
  have hrun : ∃ s : ThreadPool Nat 1,
      ReflTransGen (Step 0) (start Nat 1) s ∧ s.Joined ∧ s.enqueued = [7] := by
    have hawake : ∀ i : Fin 1, (fun _ => .checking : Fin 1 → Worker Nat) i ≠ .waiting := by
      intro i hi
      cases hi
    exact ⟨_, .head (.inl (.outside (some 7) rfl rfl))
      (.head (.inr (.outsideNotify Nat.one_pos (.nobody hawake)))
      (.head (.inr (.check 0 rfl))
      (.head (.inr (.resume 0 7 rfl))
      (.head (.inl (.destroy rfl))
      (.head (.inr (.suspend 0 7 rfl))
      (.head (.inr (.notifyAll rfl))
      (.head (.inr (.check 0 rfl))
      (.single (.inr (.join 0 rfl rfl)))))))))), rfl, rfl⟩
  obtain ⟨s, hs, hj, he⟩ := hrun
  exact ⟨s, hs, hj, he, he ▸ ((pool_runs_once ⟨1, 0⟩ 1 rfl hs).joined hj).2⟩

end ThreadPool

end Lark.Coro
