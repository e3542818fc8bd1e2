import Lark.Column.Monitor
import Lark.Coro.ThreadPool

namespace Lark.Coro

open Lark.Base Lark.Column.Monitor Relation

inductive PoolKind where
  | compute
  | io
  | lowLoad
  | dag
  | daemon
  deriving DecidableEq

def poolKindName : PoolKind → String
  | .compute => "compute"
  | .io => "io"
  | .lowLoad => "lowload"
  | .dag => "dag"
  | .daemon => "daemon"

def defaultThreadsFor (hardwareConcurrency : Nat) : PoolKind → Nat
  | .compute => hardwareConcurrency
  | .io => 2 * hardwareConcurrency
  | .lowLoad => 2
  | .dag => hardwareConcurrency
  | .daemon => 1

def enqueueEvent (workers : Nat) (kind : PoolKind) : Event :=
  ((Event.make "coro" "pool.enqueue" "").attr "pool" (toString workers)).attr "kind"
    (poolKindName kind)

namespace ThreadPool

variable {H : Type} {n : Nat}

-- A pool with a monitor, and the handles that Enqueue was given and those that it let go.
structure Watched (H : Type) (n : Nat) where
  pool : ThreadPool H n
  offered : List H
  dropped : List H
  log : List Event

def pushing : Worker H → Nat
  | .running _ true => 1
  | _ => 0

def pushed (s : ThreadPool H n) : Nat := s.outside + s.total pushing

-- Enqueue emits its event on the way to notify_one; a handle that is let go takes no event.
inductive WatchedStep (maxQueue : Nat) (kind : PoolKind) (s : Watched H n) : Watched H n → Prop
  | outside {t : ThreadPool H n} (h : H) (hd : s.pool.destructor = .notStarted)
    (he : s.pool.enqueue maxQueue (some h) = some t) :
    WatchedStep maxQueue kind s
      { s with pool := { t with outside := t.outside + 1 }, offered := s.offered ++ [h] }
  | inside {t : ThreadPool H n} (h : H) (i : Fin n) (g : H)
    (hi : s.pool.workers i = .running g false)
    (he : s.pool.enqueue maxQueue (some h) = some t) :
    WatchedStep maxQueue kind s
      { s with pool := t.put i (.running g true), offered := s.offered ++ [h] }
  | drop (h : H)
    (hd : s.pool.destructor = .notStarted ∨ ∃ i g, s.pool.workers i = .running g false)
    (he : s.pool.enqueue maxQueue (some h) = none) :
    WatchedStep maxQueue kind s
      { s with offered := s.offered ++ [h], dropped := s.dropped ++ [h] }
  | spurious (i : Fin n) (hi : s.pool.workers i = .waiting) :
    WatchedStep maxQueue kind s { s with pool := s.pool.put i .checking }
  | destroy (hd : s.pool.destructor = .notStarted) :
    WatchedStep maxQueue kind s
      { s with pool := { s.pool with stop := true, destructor := .notifying } }
  | outsideNotify {t : ThreadPool H n} (h : 0 < s.pool.outside)
    (ht : NotifyOne { s.pool with outside := s.pool.outside - 1 } t) :
    WatchedStep maxQueue kind s { s with pool := t, log := s.log ++ [enqueueEvent n kind] }
  | insideNotify {t : ThreadPool H n} (i : Fin n) (g : H)
    (hi : s.pool.workers i = .running g true)
    (ht : NotifyOne (s.pool.put i (.running g false)) t) :
    WatchedStep maxQueue kind s { s with pool := t, log := s.log ++ [enqueueEvent n kind] }
  | work {t : ThreadPool H n} (hw : Work s.pool t) (hp : t.pushed = s.pool.pushed) :
    WatchedStep maxQueue kind s { s with pool := t }

def watched (H : Type) (n maxQueue : Nat) (kind : PoolKind) : System (Watched H n) where
  initial := fun s => s = ⟨start H n, [], [], []⟩
  step := WatchedStep maxQueue kind

section Steps

variable {s t : ThreadPool H n} {maxQueue : Nat}

theorem enqueue_eq_none {h : H} : s.enqueue maxQueue (some h) = none ↔
    0 < maxQueue ∧ maxQueue ≤ s.queue.length := by
  simp [ThreadPool.enqueue]

theorem enqueue_some_eq {h : H} (he : s.enqueue maxQueue (some h) = some t) :
    (0 < maxQueue → s.queue.length < maxQueue) ∧
      t = { s with queue := s.queue ++ [h], enqueued := s.enqueued ++ [h] } := by
  simp only [ThreadPool.enqueue] at he
  split_ifs at he with hfull
  exact ⟨fun hpos => by_contra fun hlt => hfull ⟨hpos, not_lt.1 hlt⟩, (Option.some.inj he).symm⟩

theorem pushed_put {i : Fin n} {w : Worker H} (h : pushing w = pushing (s.workers i)) :
    (s.put i w).pushed = s.pushed := by
  have htotal := total_put pushing s i w
  simp only [pushed, put_outside]
  omega

theorem pushed_notified (h : NotifyOne s t) : t.pushed = s.pushed := by
  cases h with
  | nobody => rfl
  | wakes i hi => exact pushed_put (by simp [hi, pushing])

theorem pushed_outsideNotify (h : 0 < s.outside)
    (ht : NotifyOne { s with outside := s.outside - 1 } t) : t.pushed + 1 = s.pushed := by
  rw [pushed_notified ht]
  change s.outside - 1 + s.total pushing + 1 = s.outside + s.total pushing
  omega

theorem pushed_insideNotify {i : Fin n} {g : H} (hi : s.workers i = .running g true)
    (ht : NotifyOne (s.put i (.running g false)) t) : t.pushed + 1 = s.pushed := by
  have htotal := total_put pushing s i (.running g false)
  rw [hi] at htotal
  simp only [pushing] at htotal
  rw [pushed_notified ht]
  simp only [pushed, put_outside]
  omega

structure Takes (s t : ThreadPool H n) : Prop where
  enqueued : t.enqueued = s.enqueued
  queue : t.queue.length ≤ s.queue.length

theorem Takes.of_notified (h : NotifyOne s t) : Takes s t := by
  cases h with
  | nobody | wakes => exact ⟨rfl, le_rfl⟩

theorem takes_check (s : ThreadPool H n) (i : Fin n) : Takes s (s.check i) := by
  unfold ThreadPool.check
  split
  · next h queue hqueue => exact ⟨rfl, by simp [hqueue]⟩
  · split_ifs <;> exact ⟨rfl, le_rfl⟩

theorem takes_work (h : Work s t) : Takes s t := by
  cases h with
  | outsideNotify hpos ht =>
    obtain ⟨he, hq⟩ := Takes.of_notified ht
    exact ⟨he, hq⟩
  | insideNotify i g hi ht =>
    obtain ⟨he, hq⟩ := Takes.of_notified ht
    exact ⟨he, hq⟩
  | check i hi => exact takes_check s i
  | resume | suspend | notifyAll | join => exact ⟨rfl, le_rfl⟩

end Steps

section Watched

variable {s t : Watched H n} {maxQueue : Nat} {kind : PoolKind}

theorem pool_step (h : WatchedStep maxQueue kind s t) :
    s.pool = t.pool ∨ Step maxQueue s.pool t.pool := by
  cases h with
  | outside h hd he => exact .inr (.inl (.outside (some h) hd he))
  | inside h i g hi he => exact .inr (.inl (.inside (some h) i g hi he))
  | drop => exact .inl rfl
  | spurious i hi => exact .inr (.inl (.spurious i hi))
  | destroy hd => exact .inr (.inl (.destroy hd))
  | outsideNotify h ht => exact .inr (.inr (.outsideNotify h ht))
  | insideNotify i g hi ht => exact .inr (.inr (.insideNotify i g hi ht))
  | work hw => exact .inr (.inr hw)

structure Tallied [DecidableEq H] (maxQueue : Nat) (kind : PoolKind) (s : Watched H n) : Prop where
  base : Inv s.pool
  bounded : 0 < maxQueue → s.pool.queue.length ≤ maxQueue
  parted : s.offered.Perm (s.pool.enqueued ++ s.dropped)
  accepted : s.pool.enqueued.Sublist s.offered
  refused : s.dropped.Sublist s.offered
  drops : maxQueue = 0 → s.dropped = []
  events : ∀ e ∈ s.log, e = enqueueEvent n kind
  emitted : s.log.length + s.pool.pushed = s.pool.enqueued.length

theorem tallied_start [DecidableEq H] :
    Tallied maxQueue kind (⟨start H n, [], [], []⟩ : Watched H n) where
  base := inv_start
  bounded := fun _ => Nat.zero_le _
  parted := .refl _
  accepted := .refl _
  refused := .refl _
  drops := fun _ => rfl
  events := by simp
  emitted := by simp [start, pushed, total, pushing]

theorem inv_watched [DecidableEq H] (hn : 0 < n) (h : Inv s.pool)
    (hst : WatchedStep maxQueue kind s t) : Inv t.pool := by
  rcases pool_step hst with he | hcall | hwork
  · exact he ▸ h
  · exact h.call hn hcall
  · exact h.work hwork

theorem Tallied.accept [DecidableEq H] (h : Tallied maxQueue kind s) {g : H} {p : ThreadPool H n}
    (hbase : Inv p) (hroom : 0 < maxQueue → s.pool.queue.length < maxQueue)
    (hq : p.queue = s.pool.queue ++ [g]) (he : p.enqueued = s.pool.enqueued ++ [g])
    (hp : p.pushed = s.pool.pushed + 1) :
    Tallied maxQueue kind { s with pool := p, offered := s.offered ++ [g] } where
  base := hbase
  bounded := by
    intro hpos
    have hlt := hroom hpos
    simp only [hq, List.length_append, List.length_singleton]
    omega
  parted := by
    rw [he]
    have hmove : (s.pool.enqueued ++ [g] ++ s.dropped).Perm (s.pool.enqueued ++ s.dropped ++ [g]) := by
      rw [List.append_assoc, List.append_assoc]
      exact List.perm_append_comm.append_left _
    exact (h.parted.append_right [g]).trans hmove.symm
  accepted := he ▸ h.accepted.append (.refl [g])
  refused := h.refused.trans (List.sublist_append_left _ _)
  drops := h.drops
  events := h.events
  emitted := by
    have hlen := h.emitted
    simp only [he, hp, List.length_append, List.length_singleton]
    omega

theorem Tallied.take [DecidableEq H] (h : Tallied maxQueue kind s) {p : ThreadPool H n}
    (hbase : Inv p) (htakes : Takes s.pool p) {log : List Event}
    (hlog : ∀ e ∈ log, e = enqueueEvent n kind) (hp : log.length + p.pushed = s.pool.pushed) :
    Tallied maxQueue kind { s with pool := p, log := s.log ++ log } where
  base := hbase
  bounded := fun hpos => htakes.queue.trans (h.bounded hpos)
  parted := htakes.enqueued ▸ h.parted
  accepted := htakes.enqueued ▸ h.accepted
  refused := h.refused
  drops := h.drops
  events := by
    intro e he
    exact (List.mem_append.1 he).elim (h.events e) (hlog e)
  emitted := by
    have hlen := h.emitted
    simp only [htakes.enqueued, List.length_append]
    omega

theorem Tallied.quiet [DecidableEq H] (h : Tallied maxQueue kind s) {p : ThreadPool H n}
    (hbase : Inv p) (htakes : Takes s.pool p) (hp : p.pushed = s.pool.pushed) :
    Tallied maxQueue kind { s with pool := p } := by
  have htake : Tallied maxQueue kind { s with pool := p, log := s.log ++ [] } :=
    h.take hbase htakes (by simp) (by simpa using hp)
  simpa using htake

theorem Tallied.step [DecidableEq H] (hn : 0 < n) (h : Tallied maxQueue kind s)
    (hst : WatchedStep maxQueue kind s t) : Tallied maxQueue kind t := by
  have hbase := inv_watched hn h.base hst
  cases hst with
  | outside g hd he =>
    obtain ⟨hroom, rfl⟩ := enqueue_some_eq he
    refine h.accept hbase hroom rfl rfl ?_
    change s.pool.outside + 1 + s.pool.total pushing = s.pool.outside + s.pool.total pushing + 1
    omega
  | @inside p g i g' hi he =>
    obtain ⟨hroom, rfl⟩ := enqueue_some_eq he
    refine h.accept hbase hroom rfl rfl ?_
    have htotal := total_put pushing s.pool i (.running g' true)
    rw [hi] at htotal
    simp only [pushing] at htotal
    change s.pool.outside + (s.pool.put i (.running g' true)).total pushing =
      s.pool.outside + s.pool.total pushing + 1
    omega
  | drop g hd he =>
    refine ⟨hbase, h.bounded, ?_, h.accepted.trans (List.sublist_append_left _ _),
      h.refused.append (.refl [g]), ?_, h.events, h.emitted⟩
    · rw [← List.append_assoc]
      exact h.parted.append_right [g]
    · intro hzero
      have hpos := (enqueue_eq_none.1 he).1
      omega
  | spurious i hi => exact h.quiet hbase ⟨rfl, le_rfl⟩ (pushed_put (by simp [hi, pushing]))
  | destroy => exact h.quiet hbase ⟨rfl, le_rfl⟩ rfl
  | outsideNotify hpos ht =>
    refine h.take hbase (takes_work (.outsideNotify hpos ht)) (by simp) ?_
    have hpushed := pushed_outsideNotify hpos ht
    simp only [List.length_singleton]
    omega
  | insideNotify i g hi ht =>
    refine h.take hbase (takes_work (.insideNotify i g hi ht)) (by simp) ?_
    have hpushed := pushed_insideNotify hi ht
    simp only [List.length_singleton]
    omega
  | work hw hp => exact h.quiet hbase (takes_work hw) hp

theorem tallied_reachable [DecidableEq H] (hn : 0 < n)
    (h : (watched H n maxQueue kind).Reachable s) : Tallied maxQueue kind s := by
  refine System.Reachable.invariant (I := Tallied maxQueue kind) ?_ ?_ h
  · rintro s rfl
    exact tallied_start
  · intro s t hs hst
    exact hs.step hn hst

theorem pushed_of_settled (h : ∀ t, ¬ Work s.pool t) : s.pool.pushed = 0 := by
  rw [pushed, outside_of_settled h, total_of_idle ⟨rfl, rfl⟩ (idle_of_settled h)]

theorem notMem_resumed [DecidableEq H] (h : Tallied maxQueue kind s) (hn : s.offered.Nodup) {g : H}
    (hg : g ∈ s.dropped) : g ∉ s.pool.resumed := by
  have hparted := List.nodup_append.1 (h.parted.nodup_iff.1 hn)
  have hqueued : g ∉ s.pool.enqueued := fun hmem => hparted.2.2 g hmem g hg rfl
  intro hrun
  have hcount := h.base.accounted.once g
  have hpos := List.count_pos_iff.2 hrun
  have hdequeued : 0 < s.pool.dequeued.count g := by omega
  rw [h.base.accounted.fifo] at hqueued
  exact hqueued (List.mem_append_left _ (List.count_pos_iff.1 hdequeued))

end Watched

structure Bounded [DecidableEq H] (maxQueue : Nat) (kind : PoolKind) (s : Watched H n) : Prop where
  bounded : 0 < maxQueue → s.pool.queue.length ≤ maxQueue
  full : ∀ h, s.pool.enqueue maxQueue (some h) = none ↔
    0 < maxQueue ∧ s.pool.queue.length = maxQueue
  parted : s.offered.Perm (s.pool.enqueued ++ s.dropped)
  order : s.pool.enqueued.Sublist s.offered ∧ s.pool.enqueued = s.pool.dequeued ++ s.pool.queue
  lost : s.offered.Nodup → ∀ h ∈ s.dropped, h ∉ s.pool.resumed
  unlimited : maxQueue = 0 → s.dropped = []
  events : ∃ k, s.log = List.replicate k (enqueueEvent n kind) ∧ k ≤ s.pool.enqueued.length
  settled : (∀ t, ¬ Work s.pool t) → s.pool.queue = [] ∧
    s.offered.Perm (s.pool.resumed ++ s.dropped) ∧
    s.log = List.replicate s.pool.resumed.length (enqueueEvent n kind) ∧
    (s.pool.destructor ≠ .notStarted → s.pool.Joined)

theorem bounded_pool_drops [DecidableEq H] (config : ThreadPoolConfig) (kind : PoolKind)
    (hardwareConcurrency : Nat)
    {s : Watched H (config.workers (defaultThreadsFor hardwareConcurrency kind))}
    (h : (watched H _ config.maxQueue kind).Reachable s) : Bounded config.maxQueue kind s := by
  have ht := tallied_reachable (config.workers_pos _) h
  have hlog : s.log = List.replicate s.log.length (enqueueEvent _ kind) :=
    List.eq_replicate_iff.2 ⟨rfl, ht.events⟩
  have hemitted := ht.emitted
  refine ⟨ht.bounded, fun g => ?_, ht.parted, ⟨ht.accepted, ht.base.accounted.fifo⟩,
    fun hn g hg => notMem_resumed ht hn hg, ht.drops, ⟨_, hlog, by omega⟩, fun hsettled => ?_⟩
  · rw [enqueue_eq_none]
    refine and_congr_right fun hpos => ⟨fun hle => ?_, fun heq => heq.ge⟩
    exact le_antisymm (ht.bounded hpos) hle
  · obtain ⟨hqueue, hperm, hjoined⟩ := ht.base.settled hsettled
    rw [pushed_of_settled hsettled, Nat.add_zero, ← hperm.length_eq] at hemitted
    exact ⟨hqueue, ht.parted.trans (hperm.symm.append_right _), hemitted ▸ hlog, hjoined⟩

theorem bounded_pool_drops_second : ∃ s : Watched Nat 1, (watched Nat 1 1 .daemon).Reachable s ∧
    (s.offered = [7, 8] ∧ s.dropped = [8] ∧ s.pool.resumed = [7]) ∧ Bounded 1 .daemon s := by
  have hawake : ∀ i : Fin 1, (fun _ => .checking : Fin 1 → Worker Nat) i ≠ .waiting := by
    intro i hi
    cases hi
  have h := System.reachable_initial (M := watched Nat 1 1 .daemon) rfl
  have h := h.step (.outside 7 rfl rfl)
  have h := h.step (.drop 8 (.inl rfl) rfl)
  have h := h.step (.outsideNotify Nat.one_pos (.nobody hawake))
  have h := h.step (.work (.check 0 rfl) rfl)
  have h := h.step (.work (.resume 0 7 rfl) rfl)
  exact ⟨_, h, ⟨rfl, rfl, rfl⟩, bounded_pool_drops ⟨1, 1⟩ .daemon 0 h⟩

end ThreadPool

end Lark.Coro
