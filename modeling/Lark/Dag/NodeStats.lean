import Lark.Dag.NodeEvents
import Mathlib.Data.List.Sort

namespace Lark.Dag.NodeEvents

open Lark.Base Lark.Column.Monitor Lark.Coro.NodeExecutor

structure NodeRunStats where
  id : String
  type : String
  status : Status
  elapsed : Int64
  startedAt : Int64

structure ExecutionStats where
  totalElapsed : Int64
  nodes : List NodeRunStats

namespace ExecutionStats

def empty : ExecutionStats := ⟨0, []⟩

-- The order in which `summary` prints the nodes.
def sorted (stats : ExecutionStats) : List NodeRunStats :=
  stats.nodes.mergeSort fun a b => a.startedAt ≤ b.startedAt

def readStatus (text : String) : Status :=
  if text = "failed" then .failed
  else if text = "fallback" then .fallback
  else if text = "skipped" then .skipped
  else .success

def handleNodeEvent (stats : ExecutionStats) (e : Event) : Except Exn ExecutionStats :=
  match e.get "status" with
  | none => .ok stats
  | some status =>
    if status = "running" then .ok stats
    else do
      let elapsed ← e.getNs "elapsed_ns"
      let started ← e.getNs "started_ns"
      pure { stats with
        nodes := stats.nodes ++
          [⟨e.subject, (e.get "type").getD "", readStatus status, elapsed, started⟩] }

def emit (stats : ExecutionStats) (e : Event) : Except Exn ExecutionStats :=
  if e.source ≠ "dag" then .ok stats
  else if "node.".toList.isPrefixOf e.action.toList then stats.handleNodeEvent e
  else .ok stats

def emitAll (stats : ExecutionStats) (events : List Event) : Except Exn ExecutionStats :=
  events.foldlM emit stats

end ExecutionStats

variable {n w : Nat} {deps : Fin n → List (Fin n)} {node : Fin n → Node}
  {disabledIds : List String} {s t : Observed n w} {x : Fin n}

theorem toInt_sub_of_le {a b : Int64} (h₀ : 0 ≤ b.toInt) (h : b.toInt ≤ a.toInt) :
    (a - b).toInt = a.toInt - b.toInt := by
  have hlt := a.toInt_lt
  rw [Int64.toInt_sub]
  exact Int.bmod_eq_of_le (by omega) (by omega)

variable (deps) (node) (disabledIds) in
structure Timed (s : Observed n w) : Prop where
  clock : 0 ≤ s.runStart.toInt ∧ s.runStart.toInt ≤ s.clock.toInt
  idle : ∀ x, disabledIds.contains (node x).id = true ∨ (s.exec.phase x).started = false →
    s.started x = 0 ∧ s.elapsed x = 0
  begun : ∀ x, disabledIds.contains (node x).id = false → (s.exec.phase x).started = true →
    s.runStart.toInt ≤ (s.startAt x).toInt ∧ (s.startAt x).toInt ≤ s.clock.toInt ∧
      (s.started x).toInt = (s.startAt x).toInt - s.runStart.toInt
  ended : ∀ x, disabledIds.contains (node x).id = false →
    s.stage x = .stopped ∨ s.stage x = .reported →
      0 ≤ (s.elapsed x).toInt ∧ (s.startAt x).toInt + (s.elapsed x).toInt ≤ s.clock.toInt
  after : ∀ x, disabledIds.contains (node x).id = false → (s.exec.phase x).started = true →
    ∀ d ∈ deps x, disabledIds.contains (node d).id = false →
      (s.startAt d).toInt + (s.elapsed d).toInt ≤ (s.startAt x).toInt

section Timed

theorem timed_same (h : Timed deps node disabledIds s)
    (hclock : t.clock = s.clock ∧ t.runStart = s.runStart)
    (htimes : t.startAt = s.startAt ∧ t.started = s.started ∧ t.elapsed = s.elapsed)
    (hstarted : ∀ x, disabledIds.contains (node x).id = false →
      (t.exec.phase x).started = (s.exec.phase x).started)
    (hstage : ∀ x, disabledIds.contains (node x).id = false →
      t.stage x = .stopped ∨ t.stage x = .reported → s.stage x = .stopped ∨ s.stage x = .reported) :
    Timed deps node disabledIds t := by
  obtain ⟨hc, hr⟩ := hclock
  obtain ⟨ha, hs, he⟩ := htimes
  refine ⟨by rw [hc, hr]; exact h.clock, ?_, ?_, ?_, ?_⟩
  · intro x hx
    rw [hs, he]
    cases hd : disabledIds.contains (node x).id with
    | true => exact h.idle x (.inl hd)
    | false =>
      refine h.idle x (.inr ?_)
      rw [← hstarted x hd]
      exact hx.resolve_left (Bool.eq_false_iff.1 hd)
  · intro x hd hx
    rw [hstarted x hd] at hx
    rw [ha, hs, hc, hr]
    exact h.begun x hd hx
  · intro x hd hx
    rw [ha, he, hc]
    exact h.ended x hd (hstage x hd hx)
  · intro x hd hx
    rw [hstarted x hd] at hx
    rw [ha, he]
    exact h.after x hd hx

theorem timed_tick {now : Int64} (h : Timed deps node disabledIds s) (hnow : s.clock ≤ now) :
    Timed deps node disabledIds { s with clock := now } := by
  have hle : s.clock.toInt ≤ now.toInt := Int64.le_iff_toInt_le.1 hnow
  refine ⟨⟨h.clock.1, h.clock.2.trans hle⟩, h.idle, ?_, ?_, h.after⟩
  · intro x hd hx
    have hb := h.begun x hd hx
    exact ⟨hb.1, hb.2.1.trans hle, hb.2.2⟩
  · intro x hd hx
    have he := h.ended x hd hx
    exact ⟨he.1, he.2.trans hle⟩

theorem timed_start {k : Nat} (ht : Told deps node disabledIds s)
    (h : Timed deps node disabledIds s)
    (hx : s.exec.phase x = .awaiting k)
    (htold : Told deps node disabledIds { s with
      exec := { (s.exec.setPhase x .running).setStatus x .running with
        starts := Function.update s.exec.starts x (s.exec.starts x + 1) }
      startAt := Function.update s.startAt x s.clock
      started := Function.update s.started x (s.clock - s.runStart) }) :
    Timed deps node disabledIds { s with
      exec := { (s.exec.setPhase x .running).setStatus x .running with
        starts := Function.update s.exec.starts x (s.exec.starts x + 1) }
      startAt := Function.update s.startAt x s.clock
      started := Function.update s.started x (s.clock - s.runStart) } := by
  have hquiet : s.stage x = .quiet := stage_quiet ht (by rw [hx]; rfl)
  have hdis := not_disabled_of ht.base.events (x := x) (by simp [hx]) (by simp [hx, Phase.ended])
  have hreported : ∀ d, s.stage d = .reported → d ≠ x := by
    rintro d hd rfl
    simp [hquiet] at hd
  refine ⟨h.clock, ?_, ?_, ?_, ?_⟩
  · intro y hy
    have hne : y ≠ x := by
      rintro rfl
      have hrun := hy.resolve_left (Bool.eq_false_iff.1 hdis)
      simp [State.setPhase, State.setStatus, Phase.started] at hrun
    simpa [hne] using h.idle y (by simpa [State.setPhase, State.setStatus, hne] using hy)
  · intro y hd hy
    rcases eq_or_ne y x with rfl | hne
    · simp [toInt_sub_of_le h.clock.1 h.clock.2, h.clock.2]
    · simpa [hne] using h.begun y hd (by simpa [State.setPhase, State.setStatus, hne] using hy)
  · intro y hd hy
    have hne : y ≠ x := by
      rintro rfl
      simp [hquiet] at hy
    simpa [hne] using h.ended y hd hy
  · intro y hd hy d hmem hdd
    have hrep : s.stage d = .reported := deps_reported htold hd hy d hmem
    have hdx := hreported d hrep
    rcases eq_or_ne y x with rfl | hne
    · simpa [hdx] using (h.ended d hdd (.inr hrep)).2
    · simpa [hne, hdx] using
        h.after y hd (by simpa [State.setPhase, State.setStatus, hne] using hy) d hmem hdd

theorem timed_stop (ht : Told deps node disabledIds s) (h : Timed deps node disabledIds s)
    (hx : s.exec.phase x = .running) (hq : s.stage x = .announced) :
    Timed deps node disabledIds { s.goto x .stopped with
      elapsed := Function.update s.elapsed x (s.clock - s.startAt x) } := by
  have hdis := enabled_of_running ht hx
  have hb := h.begun x hdis (by simp [hx, Phase.started])
  have hsub := toInt_sub_of_le (h.clock.1.trans hb.1) hb.2.1
  refine ⟨h.clock, ?_, h.begun, ?_, ?_⟩
  · intro y hy
    have hne : y ≠ x := by
      rintro rfl
      have hrun := hy.resolve_left (Bool.eq_false_iff.1 hdis)
      simp [Observed.goto, hx, Phase.started] at hrun
    simpa [Observed.goto, hne] using h.idle y hy
  · intro y hd hy
    rcases eq_or_ne y x with rfl | hne
    · simp only [Observed.goto, Function.update_self, hsub]
      omega
    · simpa [Observed.goto, hne] using h.ended y hd (by simpa [Observed.goto, hne] using hy)
  · intro y hd hy d hmem hdd
    have hrep := deps_reported ht hd hy d hmem
    have hdx : d ≠ x := by
      rintro rfl
      simp [hq] at hrep
    simpa [Observed.goto, hdx] using h.after y hd hy d hmem hdd

theorem started_of_partStep {exec : State n w} (h : PartStep s.exec exec x) :
    (exec.phase x).started = (s.exec.phase x).started := by
  cases h with
  | same hp =>
    rw [Bool.eq_iff_iff, ← not_iff_not, Bool.not_eq_true, Bool.not_eq_true,
      ← partOf_before_iff, ← partOf_before_iff, hp]
  | suspend hp hp' | resume hp hp' => rw [hp, hp', Phase.started, Phase.started]
  | exchange hp hp' =>
    have hs : (exec.phase x).started = true := by
      by_contra hs
      rw [partOf_before_iff.2 (by simpa using hs)] at hp'
      cases hp'
    rw [hs, hp]
    rfl

theorem timed_step (ht : Told deps node disabledIds s) (h : Timed deps node disabledIds s)
    (hst : ObservedStep deps node disabledIds s t) : Timed deps node disabledIds t := by
  have htold := told_step ht hst
  cases hst with
  | skip i hm hs hd =>
    refine timed_same h ⟨rfl, rfl⟩ ⟨rfl, rfl, rfl⟩ ?_ fun _ _ hy => hy
    intro y hy
    have hne : y ≠ i := by
      rintro rfl
      exact Bool.eq_false_iff.1 hy hd
    simp [State.setPhase, State.setStatus, State.setStack, hne]
  | start _ hx => exact timed_start ht h hx htold
  | @announce th x rest _ hx hq =>
    refine timed_same h ⟨rfl, rfl⟩ ⟨rfl, rfl, rfl⟩ (fun _ _ => rfl) fun y _ hy => ?_
    rcases eq_or_ne y x with rfl | hne
    · simp [Observed.emit, Observed.goto] at hy
    · simpa [Observed.emit, Observed.goto, hne] using hy
  | stop _ hx hq => exact timed_stop ht h hx hq
  | @finish th x rest ending _ hx hq =>
    refine timed_same h ⟨rfl, rfl⟩ ⟨rfl, rfl, rfl⟩ (fun y _ => ?_) fun _ _ hy => hy
    rcases eq_or_ne y x with rfl | hne
    · simp [State.setPhase, State.setStatus, hx, Phase.started, Phase.ended]
    · simp [State.setPhase, State.setStatus, hne]
  | @report th x rest _ hx hq =>
    refine timed_same h ⟨rfl, rfl⟩ ⟨rfl, rfl, rfl⟩ (fun _ _ => rfl) fun y hd hy => ?_
    rcases eq_or_ne y x with rfl | hne
    · have hfits := ht.fits y
      rw [hx, hd] at hfits
      exact .inl (hfits.resolve_left hq)
    · simpa [Observed.emit, Observed.goto, hne] using hy
  | coordinate hr hstatus hstarts =>
    exact timed_same h ⟨rfl, rfl⟩ ⟨rfl, rfl, rfl⟩ (fun y _ =>
      started_of_partStep (partStep_of_runStep ht.base hr hstatus hstarts y)) fun _ _ hy => hy

theorem timed_blank (hclock : 0 ≤ s.runStart.toInt ∧ s.runStart.toInt ≤ s.clock.toInt)
    (hzero : ∀ x, s.started x = 0 ∧ s.elapsed x = 0)
    (hphase : ∀ x, (s.exec.phase x).started = false) (hstage : ∀ x, s.stage x = .quiet) :
    Timed deps node disabledIds s := by
  refine ⟨hclock, fun x _ => hzero x, ?_, ?_, ?_⟩
  · intro x _ hx
    rw [hphase] at hx
    cases hx
  · intro x _ hx
    simp [hstage] at hx
  · intro x _ hx
    rw [hphase] at hx
    cases hx

theorem timed_reachable (h : (observed deps node disabledIds w).Reachable s) :
    Timed deps node disabledIds s := by
  refine (System.Reachable.invariant (I := fun s => Told deps node disabledIds s ∧
    Timed deps node disabledIds s) ?_ ?_ h).2
  · rintro s ⟨clock, hc, rfl⟩
    have hc' : 0 ≤ clock.toInt := Int64.le_iff_toInt_le.1 hc
    exact ⟨told_init clock, timed_blank ⟨hc', le_rfl⟩ (fun _ => ⟨rfl, rfl⟩) (fun _ => rfl)
      fun _ => rfl⟩
  · rintro s t ⟨ht, h⟩ hst
    cases hst with
    | run hst => exact ⟨told_step ht hst, timed_step ht h hst⟩
    | tick now hnow => exact ⟨told_tick ht now, timed_tick h hnow⟩
    | execute hm =>
      exact ⟨told_execute ht hm, timed_blank ⟨h.clock.1.trans h.clock.2, le_rfl⟩
        (fun _ => ⟨rfl, rfl⟩) (fun _ => rfl) fun _ => rfl⟩

end Timed

section Collector

variable (nd : Node) (action status error : String) (elapsed started : Int64)

theorem nodeEvent_status : (nodeEvent nd action status elapsed started error).get "status" =
    some status := by
  unfold nodeEvent
  split_ifs <;> rfl

theorem nodeEvent_type : (nodeEvent nd action status elapsed started error).get "type" =
    some nd.type := by
  unfold nodeEvent
  split_ifs <;> rfl

theorem nodeEvent_started :
    (nodeEvent nd action status elapsed started error).getNs "started_ns" = .ok started := by
  refine getNs_toInt ?_
  unfold nodeEvent
  split_ifs <;> rfl

variable {elapsed} in
theorem nodeEvent_elapsed (h : 0 ≤ elapsed) :
    (nodeEvent nd action status elapsed started error).getNs "elapsed_ns" = .ok elapsed := by
  refine getNs_toInt ?_
  simp only [nodeEvent, if_pos h]
  split_ifs <;> rfl

theorem nodeEvent_names : (nodeEvent nd action status elapsed started error).source = "dag" ∧
    (nodeEvent nd action status elapsed started error).action = action ∧
    (nodeEvent nd action status elapsed started error).subject = nd.id := by
  unfold nodeEvent
  split_ifs <;> exact ⟨rfl, rfl, rfl⟩

variable {action status elapsed} in
theorem emit_nodeEvent (stats : ExecutionStats) (ha : "node.".toList.isPrefixOf action.toList = true)
    (hs : status ≠ "running") (h : 0 ≤ elapsed) :
    stats.emit (nodeEvent nd action status elapsed started error) = .ok { stats with
      nodes := stats.nodes ++
        [⟨nd.id, nd.type, ExecutionStats.readStatus status, elapsed, started⟩] } := by
  obtain ⟨hsource, haction, hsubject⟩ := nodeEvent_names nd action status error elapsed started
  simp only [ExecutionStats.emit, hsource, haction, ha, ne_eq, not_true_eq_false, if_false, if_true,
    ExecutionStats.handleNodeEvent, nodeEvent_status, hs, nodeEvent_elapsed _ _ _ _ _ h,
    nodeEvent_started, nodeEvent_type, hsubject]
  rfl

def Observed.record (node : Fin n → Node) (s : Observed n w) (x : Fin n) : NodeRunStats :=
  ⟨(node x).id, (node x).type, s.exec.status x, s.elapsed x, s.started x⟩

theorem emit_startEvent (stats : ExecutionStats) (s : Observed n w) (x : Fin n) :
    stats.emit (s.startEvent node x) = .ok stats := by
  have hnode : "node.".toList.isPrefixOf "node.start".toList = true := by decide
  obtain ⟨hsource, haction, -⟩ :=
    nodeEvent_names (node x) "node.start" "running" "" (-1) (s.started x)
  simp only [Observed.startEvent, ExecutionStats.emit, hsource, haction, hnode, ne_eq,
    not_true_eq_false, if_false, if_true, ExecutionStats.handleNodeEvent, nodeEvent_status]

theorem emit_endEvent (stats : ExecutionStats) (hs : (s.exec.status x).terminal = true)
    (he : 0 ≤ s.elapsed x) (hz : s.exec.status x = .skipped → s.elapsed x = 0) :
    stats.emit (s.endEvent node x) = .ok { stats with
      nodes := stats.nodes ++ [s.record node x] } := by
  cases hst : s.exec.status x with
  | pending | running => simp [hst, Status.terminal] at hs
  | success | fallback | failed =>
    simp only [Observed.endEvent, hst]
    rw [emit_nodeEvent _ _ _ _ (by decide) (by decide) he, Observed.record, hst]
    rfl
  | skipped =>
    simp only [Observed.endEvent, hst]
    rw [emit_nodeEvent _ _ _ _ (by decide) (by decide) (by decide), Observed.record, hst, hz hst]
    rfl

end Collector

section Order

def isEnd (entry : Fin n × Event) : Bool := entry.2.action ≠ "node.start"

def Observed.reportOrder (s : Observed n w) : List (Fin n) := (s.log.filter isEnd).map (·.1)

theorem isEnd_startEvent : isEnd (x, s.startEvent node x) = false := by
  simp [isEnd, Observed.startEvent, (nodeEvent_names _ _ _ _ _ _).2.1]

theorem isEnd_endEvent : isEnd (x, s.endEvent node x) = true := by
  unfold isEnd Observed.endEvent
  split <;> simp [(nodeEvent_names _ _ _ _ _ _).2.1]

theorem entry_of_log (h : Told deps node disabledIds s) {entry : Fin n × Event}
    (hmem : entry ∈ s.log) : entry = (entry.1, s.startEvent node entry.1) ∨
      entry = (entry.1, s.endEvent node entry.1) ∧ s.stage entry.1 = .reported := by
  have he : entry.2 ∈ s.eventsOf entry.1 := by
    refine List.mem_map.2 ⟨entry, List.mem_filter.2 ⟨hmem, ?_⟩, rfl⟩
    simp
  rw [h.events, Observed.expected] at he
  cases hq : s.stage entry.1 with
  | quiet => simp [hq] at he
  | announced | stopped =>
    rw [hq, List.mem_singleton] at he
    exact .inl (Prod.ext rfl he)
  | reported =>
    rw [hq] at he
    have hcases : entry.2 = s.startEvent node entry.1 ∨ entry.2 = s.endEvent node entry.1 := by
      split_ifs at he
      · exact .inr (List.mem_singleton.1 he)
      · simpa using he
    exact hcases.imp (fun he => Prod.ext rfl he) fun he => ⟨Prod.ext rfl he, rfl⟩

theorem emitAll_log (stats : ExecutionStats) {log : List (Fin n × Event)}
    (hlog : ∀ entry ∈ log, entry = (entry.1, s.startEvent node entry.1) ∨
      entry = (entry.1, s.endEvent node entry.1) ∧
        ∀ stats : ExecutionStats, stats.emit (s.endEvent node entry.1) = .ok { stats with
          nodes := stats.nodes ++ [s.record node entry.1] }) :
    stats.emitAll (log.map (·.2)) = .ok { stats with
      nodes := stats.nodes ++ ((log.filter isEnd).map (·.1)).map (s.record node) } := by
  induction log generalizing stats with
  | nil =>
    simp only [List.map_nil, List.filter_nil, List.append_nil]
    rfl
  | cons entry log ih =>
    obtain ⟨x, e⟩ := entry
    have ih := fun stats => ih stats fun entry hmem => hlog entry (List.mem_cons_of_mem _ hmem)
    rw [List.map_cons, ExecutionStats.emitAll, List.foldlM_cons]
    rcases hlog (x, e) List.mem_cons_self with he | ⟨he, hemit⟩
    · have he : e = s.startEvent node x := congrArg Prod.snd he
      subst he
      rw [emit_startEvent, List.filter_cons_of_neg (by simp [isEnd_startEvent])]
      exact ih stats
    · have he : e = s.endEvent node x := congrArg Prod.snd he
      subst he
      rw [hemit, List.filter_cons_of_pos isEnd_endEvent]
      have ih' := ih { stats with nodes := stats.nodes ++ [s.record node x] }
      simpa [ExecutionStats.emitAll] using ih'

theorem count_reportOrder (x : Fin n) : s.reportOrder.count x =
    ((s.eventsOf x).filter fun e => e.action ≠ "node.start").length := by
  unfold Observed.reportOrder Observed.eventsOf
  induction s.log with
  | nil => rfl
  | cons entry log ih =>
    obtain ⟨y, e⟩ := entry
    rcases eq_or_ne y x with rfl | hy
    · by_cases he : e.action = "node.start"
      · simpa [isEnd, he] using ih
      · simpa [isEnd, he] using ih
    · by_cases he : e.action = "node.start"
      · simpa [isEnd, he, hy] using ih
      · simpa [isEnd, he, hy] using ih

theorem count_reported (h : Told deps node disabledIds s) (hx : s.stage x = .reported) :
    s.reportOrder.count x = 1 := by
  have hstart : (s.startEvent node x).action = "node.start" := (nodeEvent_names _ _ _ _ _ _).2.1
  have hmark : isEnd (x, s.endEvent node x) = true := isEnd_endEvent
  have hend : (s.endEvent node x).action ≠ "node.start" := by simpa [isEnd] using hmark
  rw [count_reportOrder, h.events, Observed.expected, hx]
  split_ifs
  · simp [hend]
  · simp [hstart, hend]

theorem reportOrder_perm (h : Told deps node disabledIds s) (hall : ∀ x, s.stage x = .reported) :
    s.reportOrder.Perm (List.finRange n) := by
  refine List.perm_iff_count.2 fun x => ?_
  rw [count_reported h (hall x), List.count_eq_one_of_mem (List.nodup_finRange n)
    (List.mem_finRange x)]

theorem pair_sublist {α : Type} {xs : List α} {a b : α} {i j : Nat} (hji : j < i)
    (hj : xs[j]? = some a) (hi : xs[i]? = some b) : [a, b].Sublist xs := by
  have ha : a ∈ xs.take i := List.mem_of_getElem? (by rwa [List.getElem?_take_of_lt hji])
  have hb : b ∈ xs.drop i := by
    refine List.mem_of_getElem? (i := 0) ?_
    rwa [List.getElem?_drop]
  have hpair := (List.singleton_sublist.2 ha).append (List.singleton_sublist.2 hb)
  rwa [List.take_append_drop] at hpair

theorem reportOrder_deps (h : Told deps node disabledIds s) (hx : s.stage x = .reported)
    (hd : disabledIds.contains (node x).id = false) {d : Fin n} (hmem : d ∈ deps x) :
    [d, x].Sublist s.reportOrder := by
  obtain ⟨i, hi, hix⟩ := List.getElem_of_mem (mem_log h hx)
  have hix : s.log[i]? = some (x, s.endEvent node x) := by rw [List.getElem?_eq_getElem hi, hix]
  obtain ⟨-, j, hji, hj⟩ := h.ordered i x _ hix hd d hmem
  have hpair := ((pair_sublist hji hj hix).filter isEnd).map (·.1)
  simpa [Observed.reportOrder, isEnd_endEvent] using hpair

theorem started_of_dep (ht : Told deps node disabledIds s) (h : Timed deps node disabledIds s)
    (hx : s.stage x = .reported) (hd : disabledIds.contains (node x).id = false) {d : Fin n}
    (hmem : d ∈ deps x) : 0 ≤ (s.elapsed d).toInt ∧
      (s.started d).toInt + (s.elapsed d).toInt ≤ (s.started x).toInt := by
  have hxs : (s.exec.phase x).started = true := by
    have hend := ended_of_reported ht hx
    cases hp : s.exec.phase x <;> simp_all [Phase.started, Phase.ended]
  have hb := h.begun x hd hxs
  have hrep := deps_reported ht hd hxs d hmem
  have hds : (s.exec.phase d).started = true := by
    have hend := ended_of_reported ht hrep
    cases hp : s.exec.phase d <;> simp_all [Phase.started, Phase.ended]
  cases hdd : disabledIds.contains (node d).id with
  | true =>
    obtain ⟨hs, he⟩ := h.idle d (.inl hdd)
    rw [hs, he, hb.2.2]
    simp [hb.1]
  | false =>
    have hbd := h.begun d hdd hds
    have he := h.ended d hdd (.inr hrep)
    have ha := h.after x hd hxs d hmem hdd
    omega

theorem emitAll_run (ht : Told deps node disabledIds s) (h : Timed deps node disabledIds s)
    (stats : ExecutionStats) : stats.emitAll (s.log.map (·.2)) = .ok { stats with
      nodes := stats.nodes ++ s.reportOrder.map (s.record node) } := by
  refine emitAll_log stats fun entry hmem => ?_
  refine (entry_of_log ht hmem).imp_right fun hentry => ⟨hentry.1, fun stats => ?_⟩
  have hterm := (ht.base.counts.terminal entry.1).trans (ended_of_reported ht hentry.2)
  have hzero : s.exec.status entry.1 = .skipped → s.elapsed entry.1 = 0 := fun hs =>
    (h.idle entry.1 (.inl ((ht.skipped entry.1).1 hs).1)).2
  refine emit_endEvent stats hterm ?_ hzero
  rw [Int64.le_iff_toInt_le]
  cases hd : disabledIds.contains (node entry.1).id with
  | true => simp [(h.idle entry.1 (.inl hd)).2]
  | false => exact (h.ended entry.1 hd (.inr hentry.2)).1

theorem sorted_pair {xs : List NodeRunStats} {a b : NodeRunStats} (h : [a, b].Sublist xs)
    (hle : a.startedAt.toInt ≤ b.startedAt.toInt) (totalElapsed : Int64) :
    [a, b].Sublist (ExecutionStats.sorted ⟨totalElapsed, xs⟩) := by
  refine List.pair_sublist_mergeSort ?_ ?_ (decide_eq_true (Int64.le_iff_toInt_le.2 hle)) h
  · intro a b c hab hbc
    simp only [decide_eq_true_eq, Int64.le_iff_toInt_le] at *
    exact hab.trans hbc
  · intro a b
    simp only [Bool.or_eq_true, decide_eq_true_eq, Int64.le_iff_toInt_le]
    exact le_total _ _

end Order

theorem stats_collected (h : (observed deps node disabledIds w).Reachable s)
    (hr : s.exec.main = .returned) (stats : ExecutionStats) :
    ∃ order : List (Fin n), order.Perm (List.finRange n) ∧
      stats.emitAll (s.log.map (·.2)) = .ok { stats with
        nodes := stats.nodes ++ order.map (s.record node) } ∧
      ∀ x, disabledIds.contains (node x).id = false → ∀ d ∈ deps x, [d, x].Sublist order ∧
        (s.started d).toInt + (s.elapsed d).toInt ≤ (s.started x).toInt ∧
        [s.record node d, s.record node x].Sublist
          (ExecutionStats.sorted ⟨stats.totalElapsed, order.map (s.record node)⟩) := by
  have ht := told_reachable h
  have htimed := timed_reachable h
  have hall := reported_of_returned ht hr
  refine ⟨s.reportOrder, reportOrder_perm ht hall, emitAll_run ht htimed stats, ?_⟩
  intro x hx d hmem
  have hpair := reportOrder_deps ht (hall x) hx hmem
  obtain ⟨he, hle⟩ := started_of_dep ht htimed (hall x) hx hmem
  refine ⟨hpair, hle, sorted_pair (hpair.map (s.record node)) ?_ _⟩
  change (s.started d).toInt ≤ (s.started x).toInt
  omega

theorem stats_collected_chain : ∃ s : Observed 2 1,
    ((observed chainDeps chainNodes [] 1).Reachable s ∧ s.exec.main = .returned) ∧
    ∃ order : List (Fin 2), order.Perm (List.finRange 2) ∧
      ExecutionStats.empty.emitAll (s.log.map (·.2)) =
        .ok ⟨0, order.map (s.record chainNodes)⟩ ∧ [0, 1].Sublist order := by
  obtain ⟨s, h, hr⟩ := chain_returned
  obtain ⟨order, hperm, hemit, hdeps⟩ := stats_collected h hr .empty
  exact ⟨s, ⟨h, hr⟩, order, hperm, hemit, (hdeps 1 rfl 0 (by decide)).1⟩

end Lark.Dag.NodeEvents
