import Lark.Column.Monitor
import Lark.Coro.NodeExecutor

namespace Lark.Dag.NodeEvents

open Lark.Base Lark.Column.Monitor Lark.Coro.NodeExecutor

structure Node where
  id : String
  type : String

-- How Run ends, an exception by its description, and what Fallback answers (`none`: it threw).
inductive Ending where
  | returned
  | threw (what : String) (fallback : Option Bool)

namespace Ending

def status : Ending → Status
  | returned => .success
  | threw _ (some true) => .fallback
  | threw _ _ => .failed

def error : Ending → Option String
  | returned => none
  | threw what _ => some what

end Ending

def nodeEvent (node : Node) (action status : String) (elapsed started : Int64) (error : String) :
    Event :=
  let e := ((Event.make "dag" action node.id).attr "type" node.type).attr "status" status
  let e := if 0 ≤ elapsed then e.attrNs "elapsed_ns" elapsed else e
  let e := e.attrNs "started_ns" started
  let e := if error = "" then e else e.attr "error" error
  { e with duration := elapsed, ok := error = "" }

-- How far a node's coroutine has come with what it records and emits.
inductive Stage where
  | quiet
  | announced
  | stopped
  | reported
  deriving DecidableEq

variable {n w : Nat}

-- `log` holds the events of the current run, each with the node that emitted it.
structure Observed (n w : Nat) where
  exec : State n w
  stage : Fin n → Stage
  startAt : Fin n → Int64
  started : Fin n → Int64
  elapsed : Fin n → Int64
  error : Fin n → Option String
  clock : Int64
  runStart : Int64
  log : List (Fin n × Event)

namespace Observed

def init (clock : Int64) : Observed n w where
  exec := .init
  stage := fun _ => .quiet
  startAt := fun _ => 0
  started := fun _ => 0
  elapsed := fun _ => 0
  error := fun _ => none
  clock := clock
  runStart := clock
  log := []

variable (node : Fin n → Node) (s : Observed n w) (x : Fin n)

def startEvent : Event := nodeEvent (node x) "node.start" "running" (-1) (s.started x) ""

def endEvent : Event :=
  match s.exec.status x with
  | .success => nodeEvent (node x) "node.success" "success" (s.elapsed x) (s.started x) ""
  | .fallback => nodeEvent (node x) "node.fallback" "fallback" (s.elapsed x) (s.started x) ""
  | .skipped => nodeEvent (node x) "node.skipped" "skipped" 0 (s.started x) ""
  | _ =>
    nodeEvent (node x) "node.failure" "failed" (s.elapsed x) (s.started x) ((s.error x).getD "")

def emit (e : Event) : Observed n w := { s with log := s.log ++ [(x, e)] }

def goto (stage : Stage) : Observed n w := { s with stage := Function.update s.stage x stage }

def resetRun : Observed n w :=
  { s with
    exec := s.exec.resetRunState
    stage := fun _ => .quiet
    started := fun _ => 0
    elapsed := fun _ => 0
    error := fun _ => none
    runStart := s.clock
    log := [] }

end Observed

variable (deps : Fin n → List (Fin n)) (node : Fin n → Node) (disabledIds : List String)

abbrev program : Program n := dag deps (fun x => (node x).id) disabledIds

-- The executor's steps with a monitor attached: a change of a node's status, the clock reading
-- next to it and the event that tells of it are steps of their own.
inductive ObservedStep : Observed n w → Observed n w → Prop
  | skip {s} (i : Fin n) (hm : s.exec.main = .spawning i) (hs : s.exec.stack .main = [])
      (hd : (program deps node disabledIds).disabled i = true) :
      ObservedStep s { s with
        exec := { ((s.exec.setPhase i .completed).setStatus i .skipped).setStack .main [i] with
          main := .spawning (i + 1) } }
  | start {s t x rest k} (ht : s.exec.stack t = x :: rest) (hx : s.exec.phase x = .awaiting k)
      (hk : (deps x)[k]? = none) :
      ObservedStep s { s with
        exec := { (s.exec.setPhase x .running).setStatus x .running with
          starts := Function.update s.exec.starts x (s.exec.starts x + 1) }
        startAt := Function.update s.startAt x s.clock
        started := Function.update s.started x (s.clock - s.runStart) }
  | announce {s t x rest} (ht : s.exec.stack t = x :: rest) (hx : s.exec.phase x = .running)
      (hq : s.stage x = .quiet) : ObservedStep s ((s.goto x .announced).emit x (s.startEvent node x))
  | stop {s t x rest} (ht : s.exec.stack t = x :: rest) (hx : s.exec.phase x = .running)
      (hq : s.stage x = .announced) :
      ObservedStep s { s.goto x .stopped with
        elapsed := Function.update s.elapsed x (s.clock - s.startAt x) }
  | finish {s t x rest} (ending : Ending) (ht : s.exec.stack t = x :: rest)
      (hx : s.exec.phase x = .running) (hq : s.stage x = .stopped) :
      ObservedStep s { s with
        exec := (s.exec.setPhase x .completed).setStatus x ending.status
        error := Function.update s.error x ending.error }
  | report {s t x rest} (ht : s.exec.stack t = x :: rest) (hx : s.exec.phase x = .completed)
      (hq : s.stage x ≠ .reported) : ObservedStep s ((s.goto x .reported).emit x (s.endEvent node x))
  | coordinate {s t} (h : RunStep (program deps node disabledIds) s.exec t)
      (hstatus : t.status = s.exec.status) (hstarts : t.starts = s.exec.starts)
      (hset : ∀ x, t.isSet x = true → s.exec.isSet x = true ∨ s.stage x = .reported)
      (hbody : ∀ x, t.phase x = .bodySuspended →
        s.exec.phase x = .bodySuspended ∨ s.stage x = .announced) :
      ObservedStep s { s with exec := t }

inductive ExecutorStep : Observed n w → Observed n w → Prop
  | run {s t} (h : ObservedStep deps node disabledIds s t) : ExecutorStep s t
  | tick {s} (now : Int64) (h : s.clock ≤ now) : ExecutorStep s { s with clock := now }
  | execute {s} (h : s.exec.main = .idle ∨ s.exec.main = .returned) : ExecutorStep s s.resetRun

def observed (w : Nat) : System (Observed n w) where
  initial := fun s => ∃ clock, 0 ≤ clock ∧ s = .init clock
  step := ExecutorStep deps node disabledIds

variable {deps} {node} {disabledIds} {s t : Observed n w} {x y : Fin n}

theorem exec_step (h : ObservedStep deps node disabledIds s t) :
    t.exec = s.exec ∨ RunStep (program deps node disabledIds) s.exec t.exec := by
  cases h with
  | announce | stop | report => exact .inl rfl
  | skip i hm hs hd => exact .inr (.skip i hm hs hd)
  | start ht hx hk => exact .inr (.start ht hx hk)
  | finish ending ht hx hq =>
    refine .inr (.finish ending.status ht hx ?_)
    rcases ending with _ | ⟨what, _ | recovered⟩
    · rfl
    · rfl
    · cases recovered <;> rfl
  | coordinate h => exact .inr h

inductive Part where
  | before
  | running
  | away
  | ended
  | past
  deriving DecidableEq

def partOf : Phase n → Part
  | .running => .running
  | .bodySuspended => .away
  | .completed => .ended
  | .setting _ | .counting | .signalling | .finished => .past
  | _ => .before

theorem partOf_past_iff {ph : Phase n} : partOf ph = .past ↔ ph.signalled = true := by
  cases ph <;> simp [partOf, Phase.signalled]

theorem partOf_before_iff {ph : Phase n} : partOf ph = .before ↔ ph.started = false := by
  cases ph <;> simp [partOf, Phase.started, Phase.ended]

inductive PartStep (s t : State n w) (x : Fin n) : Prop
  | same (h : partOf (t.phase x) = partOf (s.phase x))
  | suspend (h : s.phase x = .running) (h' : t.phase x = .bodySuspended)
  | resume (h : s.phase x = .bodySuspended) (h' : t.phase x = .running)
  | exchange (h : s.phase x = .completed) (h' : partOf (t.phase x) = .past)
    (hset : t.isSet x = true)

theorem partStep_update {s : State n w} {x : Fin n} {ph : Phase n}
    (h : partOf ph = partOf (s.phase x)) (y : Fin n) :
    partOf (Function.update s.phase x ph y) = partOf (s.phase y) := by
  rcases eq_or_ne y x with rfl | hy
  · simpa using h
  · simp [hy]

theorem partStep_of_runStep {p : Program n} {s t : State n w} (hi : Inv p s) (h : RunStep p s t)
    (hstatus : t.status = s.status) (hstarts : t.starts = s.starts) (y : Fin n) :
    PartStep s t y := by
  cases h with
  | spawn i hm =>
    refine .same (partStep_update ?_ y)
    have hq := hi.queued
    rw [hm] at hq
    rw [(hq.spawned i).2 le_rfl]
    rfl
  | skip i hm =>
    exfalso
    have hq := hi.queued
    rw [hm] at hq
    have hi' := (hi.counts.terminal i).trans (by rw [(hq.spawned i).2 le_rfl])
    have hst := congrFun hstatus i
    simp only [State.setPhase, State.setStatus, State.setStack, Function.update_self] at hst
    rw [← hst] at hi'
    cases hi'
  | spawnEnd | wait => exact .same rfl
  | @dequeue i x q _ hq =>
    refine .same (partStep_update ?_ y)
    have hx := (hi.queued.queued x).1 (by simp [hq])
    rw [hx]
    rfl
  | awaitSet _ hx | awaitSuspend _ hx =>
    refine .same (partStep_update ?_ y)
    rw [hx]
    rfl
  | @start th x rest k _ _ _ =>
    exfalso
    have := congrFun hstarts x
    simp at this
  | @bodySuspend th x rest _ hx _ =>
    rcases eq_or_ne y x with rfl | hy
    · exact .suspend hx (by simp [State.setPhase, State.setStack])
    · exact .same (by simp [State.setPhase, State.setStack, hy])
  | @bodyResume x j _ hx =>
    rcases eq_or_ne y x with rfl | hy
    · exact .resume hx (by simp [State.setPhase, State.setStack])
    · exact .same (by simp [State.setPhase, State.setStack, hy])
  | @finish th x rest o _ hx ho =>
    exfalso
    have hx' := hi.counts.terminal x
    have hst := congrFun hstatus x
    simp only [State.setPhase, State.setStatus, Function.update_self] at hst
    rw [← hst, p.outcome_terminal o ho, hx] at hx'
    cases hx'
  | @exchange th x rest _ hx =>
    rcases eq_or_ne y x with rfl | hy
    · exact .exchange hx (by simp [State.setPhase, partOf]) (by simp)
    · exact .same (by simp [State.setPhase, hy])
  | @resume th x rest z ws k _ hx hz =>
    refine .same ?_
    have hxz : z ≠ x := by
      rintro rfl
      simp [hx] at hz
    rcases eq_or_ne y z with rfl | hyz
    · simp [State.setPhase, State.setStack, hz, partOf]
    · rcases eq_or_ne y x with rfl | hyx
      · simp [State.setPhase, State.setStack, hyz, hx, partOf]
      · simp [State.setPhase, State.setStack, hyz, hyx]
  | setEnd _ hx | countLast _ hx | count _ hx | signal _ hx =>
    refine .same (partStep_update ?_ y)
    rw [hx]
    rfl

namespace Observed

def eventsOf (s : Observed n w) (x : Fin n) : List Event :=
  (s.log.filter fun entry => entry.1 = x).map (·.2)

variable (node) (disabledIds) in
def expected (s : Observed n w) (x : Fin n) : List Event :=
  match s.stage x with
  | .quiet => []
  | .announced | .stopped => [s.startEvent node x]
  | .reported =>
    if disabledIds.contains (node x).id then [s.endEvent node x]
    else [s.startEvent node x, s.endEvent node x]

structure Same (s t : Observed n w) (x : Fin n) : Prop where
  stage : t.stage x = s.stage x
  status : t.exec.status x = s.exec.status x
  startAt : t.startAt x = s.startAt x
  started : t.started x = s.started x
  elapsed : t.elapsed x = s.elapsed x
  error : t.error x = s.error x

theorem Same.startEvent (h : Same s t x) : t.startEvent node x = s.startEvent node x := by
  simp only [Observed.startEvent, h.started]

theorem Same.endEvent (h : Same s t x) : t.endEvent node x = s.endEvent node x := by
  simp only [Observed.endEvent, h.status, h.elapsed, h.started, h.error]

theorem Same.expected (h : Same s t x) :
    t.expected node disabledIds x = s.expected node disabledIds x := by
  simp only [Observed.expected, h.stage, h.startEvent, h.endEvent]

end Observed

def Fits (disabled : Bool) : Part → Stage → Prop
  | .before, stage => stage = .quiet
  | .running, stage => disabled = false ∧ stage ≠ .reported
  | .away, stage => disabled = false ∧ stage = .announced
  | .ended, stage => stage = .reported ∨ stage = if disabled then .quiet else .stopped
  | .past, stage => stage = .reported

variable (deps) (node) (disabledIds) in
structure Told (s : Observed n w) : Prop where
  base : Inv (program deps node disabledIds) s.exec
  fits : ∀ x, Fits (disabledIds.contains (node x).id) (partOf (s.exec.phase x)) (s.stage x)
  skipped : ∀ x, s.exec.status x = .skipped ↔
    disabledIds.contains (node x).id = true ∧ (s.exec.phase x).ended = true
  events : ∀ x, s.eventsOf x = s.expected node disabledIds x
  ordered : ∀ (i : Nat) x e, s.log[i]? = some (x, e) → disabledIds.contains (node x).id = false →
    ∀ d ∈ deps x, s.stage d = .reported ∧ ∃ j < i, s.log[j]? = some (d, s.endEvent node d)

section Told

theorem mem_log (h : Told deps node disabledIds s) (hx : s.stage x = .reported) :
    (x, s.endEvent node x) ∈ s.log := by
  have he : s.endEvent node x ∈ s.eventsOf x := by
    rw [h.events, Observed.expected, hx]
    split_ifs <;> simp
  obtain ⟨entry, hmem, heq⟩ := List.mem_map.1 he
  obtain ⟨hlog, hnode⟩ := List.mem_filter.1 hmem
  have hentry : entry = (x, s.endEvent node x) := Prod.ext (by simpa using hnode) heq
  rwa [hentry] at hlog

theorem deps_reported (h : Told deps node disabledIds s)
    (hd : disabledIds.contains (node x).id = false) (hx : (s.exec.phase x).started = true) :
    ∀ d ∈ deps x, s.stage d = .reported := by
  intro d hmem
  have hset := h.base.events.passed x hd hx d hmem
  rw [h.base.events.signalled] at hset
  have hfits := h.fits d
  rwa [partOf_past_iff.2 hset] at hfits

theorem told_quiet (h : Told deps node disabledIds s)
    (hbase : Inv (program deps node disabledIds) t.exec) (hlog : t.log = s.log)
    (hfits : ∀ y, Fits (disabledIds.contains (node y).id) (partOf (t.exec.phase y)) (t.stage y))
    (hskip : ∀ y, t.exec.status y = .skipped ↔
      disabledIds.contains (node y).id = true ∧ (t.exec.phase y).ended = true)
    (hexp : ∀ y, t.expected node disabledIds y = s.expected node disabledIds y)
    (hkept : ∀ y, s.stage y = .reported → t.stage y = .reported ∧
      t.endEvent node y = s.endEvent node y) : Told deps node disabledIds t := by
  refine ⟨hbase, hfits, hskip, ?_, ?_⟩
  · intro y
    rw [hexp, ← h.events, Observed.eventsOf, hlog]
    rfl
  · intro i y e hi hd d hmem
    rw [hlog] at hi
    obtain ⟨hrep, j, hj, hjd⟩ := h.ordered i y e hi hd d hmem
    obtain ⟨hrep', he⟩ := hkept d hrep
    exact ⟨hrep', j, hj, by rw [hlog, hjd, he]⟩

theorem told_emit {e : Event} (h : Told deps node disabledIds s)
    (hbase : Inv (program deps node disabledIds) t.exec) (hlog : t.log = s.log ++ [(x, e)])
    (hfits : ∀ y, Fits (disabledIds.contains (node y).id) (partOf (t.exec.phase y)) (t.stage y))
    (hskip : ∀ y, t.exec.status y = .skipped ↔
      disabledIds.contains (node y).id = true ∧ (t.exec.phase y).ended = true)
    (hexp : ∀ y, y ≠ x → t.expected node disabledIds y = s.expected node disabledIds y)
    (hx : t.expected node disabledIds x = s.expected node disabledIds x ++ [e])
    (hkept : ∀ y, s.stage y = .reported → t.stage y = .reported ∧
      t.endEvent node y = s.endEvent node y)
    (hready : disabledIds.contains (node x).id = false → ∀ d ∈ deps x, s.stage d = .reported) :
    Told deps node disabledIds t := by
  refine ⟨hbase, hfits, hskip, ?_, ?_⟩
  · intro y
    rw [Observed.eventsOf, hlog, List.filter_append, List.map_append]
    rcases eq_or_ne y x with rfl | hy
    · rw [hx, ← h.events]
      simp [Observed.eventsOf]
    · rw [hexp y hy, ← h.events]
      simp [Observed.eventsOf, Ne.symm hy]
  · intro i y e' hi hd d hmem
    have hold : ∀ j < s.log.length, t.log[j]? = s.log[j]? := by
      intro j hj
      rw [hlog, List.getElem?_append_left hj]
    have hlt : i < s.log.length ∨ i = s.log.length := by
      have := (List.getElem?_eq_some_iff.1 hi).1
      rw [hlog, List.length_append, List.length_singleton] at this
      omega
    rcases hlt with hlt | rfl
    · rw [hold i hlt] at hi
      obtain ⟨hrep, j, hj, hjd⟩ := h.ordered i y e' hi hd d hmem
      obtain ⟨hrep', he⟩ := hkept d hrep
      exact ⟨hrep', j, hj, by rw [hold j (hj.trans hlt), hjd, he]⟩
    · have hyx : y = x := by
        rw [hlog, List.getElem?_append_right le_rfl] at hi
        simpa using (congrArg (Option.map Prod.fst) hi).symm
      subst hyx
      have hrep := hready hd d hmem
      obtain ⟨hrep', he⟩ := hkept d hrep
      obtain ⟨j, hj, hjd⟩ := List.getElem_of_mem (mem_log h hrep)
      exact ⟨hrep', j, hj, by rw [hold j hj, he, List.getElem?_eq_getElem hj, hjd]⟩

theorem kept_of_same (hx : s.stage x ≠ .reported) (hs : ∀ y, y ≠ x → Observed.Same s t y) (y : Fin n)
    (hy : s.stage y = .reported) :
    t.stage y = .reported ∧ t.endEvent node y = s.endEvent node y := by
  have hne : y ≠ x := by
    rintro rfl
    exact hx hy
  exact ⟨(hs y hne).stage.trans hy, (hs y hne).endEvent⟩

theorem expected_of_same (hs : ∀ y, y ≠ x → Observed.Same s t y)
    (hx : t.expected node disabledIds x = s.expected node disabledIds x) (y : Fin n) :
    t.expected node disabledIds y = s.expected node disabledIds y := by
  rcases eq_or_ne y x with rfl | hy
  · exact hx
  · exact (hs y hy).expected

theorem base_of_step (h : Told deps node disabledIds s)
    (hst : ObservedStep deps node disabledIds s t) : Inv (program deps node disabledIds) t.exec := by
  rcases exec_step hst with he | hr
  · rw [he]
    exact h.base
  · exact inv_runStep h.base hr

theorem stage_quiet (h : Told deps node disabledIds s) (hx : partOf (s.exec.phase x) = .before) :
    s.stage x = .quiet := by
  have hfits := h.fits x
  rwa [hx] at hfits

theorem enabled_of_running (h : Told deps node disabledIds s) (hx : s.exec.phase x = .running) :
    disabledIds.contains (node x).id = false := by
  have hfits := h.fits x
  rw [hx] at hfits
  exact hfits.1

theorem told_status {ph : Phase n} {st : Status} (h : Told deps node disabledIds s)
    (hbase : Inv (program deps node disabledIds) t.exec) (hlog : t.log = s.log)
    (hphase : t.exec.phase = Function.update s.exec.phase x ph)
    (hstatus : t.exec.status = Function.update s.exec.status x st)
    (hsame : ∀ y, y ≠ x → Observed.Same s t y) (hq : s.stage x ≠ .reported)
    (hfits : Fits (disabledIds.contains (node x).id) (partOf ph) (t.stage x))
    (hskip : st = .skipped ↔ disabledIds.contains (node x).id = true ∧ ph.ended = true)
    (hexp : t.expected node disabledIds x = s.expected node disabledIds x) :
    Told deps node disabledIds t := by
  refine told_quiet h hbase hlog ?_ ?_ (expected_of_same hsame hexp) (kept_of_same hq hsame)
  · intro y
    rw [hphase]
    rcases eq_or_ne y x with rfl | hy
    · rwa [Function.update_self]
    · rw [Function.update_of_ne hy, (hsame y hy).stage]
      exact h.fits y
  · intro y
    rw [hphase, hstatus]
    rcases eq_or_ne y x with rfl | hy
    · rwa [Function.update_self, Function.update_self]
    · rw [Function.update_of_ne hy, Function.update_of_ne hy]
      exact h.skipped y

theorem told_stage (h : Told deps node disabledIds s) (hexec : t.exec = s.exec)
    (hsame : ∀ y, y ≠ x → Observed.Same s t y) (hq : s.stage x ≠ .reported)
    (hfits : Fits (disabledIds.contains (node x).id) (partOf (s.exec.phase x)) (t.stage x))
    (hlog : t.log = s.log ∧ t.expected node disabledIds x = s.expected node disabledIds x ∨
      ∃ e, t.log = s.log ++ [(x, e)] ∧
        t.expected node disabledIds x = s.expected node disabledIds x ++ [e] ∧
        (disabledIds.contains (node x).id = false → (s.exec.phase x).started = true)) :
    Told deps node disabledIds t := by
  have hbase : Inv (program deps node disabledIds) t.exec := hexec ▸ h.base
  have hfits' : ∀ y, Fits (disabledIds.contains (node y).id) (partOf (t.exec.phase y))
      (t.stage y) := by
    intro y
    rw [hexec]
    rcases eq_or_ne y x with rfl | hy
    · exact hfits
    · rw [(hsame y hy).stage]
      exact h.fits y
  have hskip : ∀ y, t.exec.status y = .skipped ↔
      disabledIds.contains (node y).id = true ∧ (t.exec.phase y).ended = true := by
    intro y
    rw [hexec]
    exact h.skipped y
  rcases hlog with ⟨hlog, hexp⟩ | ⟨e, hlog, hexp, hstarted⟩
  · exact told_quiet h hbase hlog hfits' hskip (expected_of_same hsame hexp)
      (kept_of_same hq hsame)
  · exact told_emit h hbase hlog hfits' hskip (fun y hy => (hsame y hy).expected) hexp
      (kept_of_same hq hsame) fun hd => deps_reported h hd (hstarted hd)

theorem told_coordinate {exec : State n w} (h : Told deps node disabledIds s)
    (hr : RunStep (program deps node disabledIds) s.exec exec)
    (hstatus : exec.status = s.exec.status) (hstarts : exec.starts = s.exec.starts)
    (hset : ∀ x, exec.isSet x = true → s.exec.isSet x = true ∨ s.stage x = .reported)
    (hbody : ∀ x, exec.phase x = .bodySuspended →
      s.exec.phase x = .bodySuspended ∨ s.stage x = .announced) :
    Told deps node disabledIds { s with exec := exec } := by
  have hbase := inv_runStep h.base hr
  have hsame : ∀ y, Observed.Same s { s with exec := exec } y :=
    fun y => ⟨rfl, congrFun hstatus y, rfl, rfl, rfl, rfl⟩
  refine told_quiet h hbase rfl ?_ ?_ (fun y => (hsame y).expected)
    fun y hy => ⟨hy, (hsame y).endEvent⟩
  · intro y
    have hfits := h.fits y
    cases partStep_of_runStep h.base hr hstatus hstarts y with
    | same hp => rwa [hp]
    | suspend hp hp' =>
      rw [hp] at hfits
      rw [hp']
      exact ⟨hfits.1, (hbody y hp').resolve_left (by simp [hp])⟩
    | resume hp hp' =>
      rw [hp] at hfits
      rw [hp']
      exact ⟨hfits.1, by simp [hfits.2]⟩
    | exchange hp hp' hs =>
      rw [hp']
      refine (hset y hs).resolve_left ?_
      simp [h.base.events.signalled, hp, Phase.signalled]
  · intro y
    have hterm := hbase.counts.terminal y
    have hterm' := h.base.counts.terminal y
    rw [← hterm, hstatus, hterm']
    exact h.skipped y

theorem told_step (h : Told deps node disabledIds s)
    (hst : ObservedStep deps node disabledIds s t) : Told deps node disabledIds t := by
  have hbase := base_of_step h hst
  cases hst with
  | skip i hm hs hd =>
    have hdis : disabledIds.contains (node i).id = true := hd
    have hq := h.base.queued
    rw [hm] at hq
    have hquiet : s.stage i = .quiet := stage_quiet h (by rw [(hq.spawned i).2 le_rfl]; rfl)
    refine told_status h hbase rfl rfl rfl (fun y hy => ⟨rfl, ?_, rfl, rfl, rfl, rfl⟩)
      (by simp [hquiet]) ?_ (iff_of_true rfl ⟨hdis, rfl⟩) ?_
    · exact Function.update_of_ne hy _ _
    · rw [hdis]
      exact .inr hquiet
    · simp only [Observed.expected, hquiet]
  | @start th x rest k ht hx hk =>
    have hquiet : s.stage x = .quiet := stage_quiet h (by rw [hx]; rfl)
    have hdis := not_disabled_of h.base.events (x := x) (by simp [hx]) (by simp [hx, Phase.ended])
    refine told_status h hbase rfl rfl rfl (fun y hy => ⟨rfl, ?_, ?_, ?_, rfl, rfl⟩)
      (by simp [hquiet]) ⟨hdis, by simp [hquiet]⟩ (by simp [Phase.ended]) ?_
    · exact Function.update_of_ne hy _ _
    · exact Function.update_of_ne hy _ _
    · exact Function.update_of_ne hy _ _
    · simp only [Observed.expected, hquiet]
  | @announce th x rest ht hx hq =>
    have hdis := enabled_of_running h hx
    refine told_stage (x := x) h rfl (fun y hy => ⟨?_, rfl, rfl, rfl, rfl, rfl⟩) (by simp [hq]) ?_
      (.inr ⟨_, rfl, ?_, fun _ => by simp [hx, Phase.started]⟩)
    · exact Function.update_of_ne hy _ _
    · rw [hx]
      exact ⟨hdis, by simp [Observed.emit, Observed.goto]⟩
    · simp [Observed.expected, Observed.emit, Observed.goto, hq, Observed.startEvent]
  | @stop th x rest ht hx hq =>
    have hdis := enabled_of_running h hx
    refine told_stage (x := x) h rfl (fun y hy => ⟨?_, rfl, rfl, rfl, ?_, rfl⟩) (by simp [hq]) ?_
      (.inl ⟨rfl, ?_⟩)
    · exact Function.update_of_ne hy _ _
    · exact Function.update_of_ne hy _ _
    · rw [hx]
      exact ⟨hdis, by simp [Observed.goto]⟩
    · simp [Observed.expected, Observed.goto, hq, Observed.startEvent]
  | @finish th x rest ending ht hx hq =>
    have hdis := enabled_of_running h hx
    refine told_status h hbase rfl rfl rfl (fun y hy => ⟨rfl, ?_, rfl, rfl, rfl, ?_⟩)
      (by simp [hq]) ?_ ?_ ?_
    · exact Function.update_of_ne hy _ _
    · exact Function.update_of_ne hy _ _
    · rw [hdis]
      exact .inr hq
    · rw [hdis]
      rcases ending with _ | ⟨what, _ | recovered⟩
      · simp [Ending.status]
      · simp [Ending.status]
      · cases recovered <;> simp [Ending.status]
    · simp [Observed.expected, hq, Observed.startEvent]
  | @report th x rest ht hx hq =>
    have hfits := h.fits x
    rw [hx] at hfits
    have hstage := hfits.resolve_left hq
    refine told_stage (x := x) h rfl (fun y hy => ⟨?_, rfl, rfl, rfl, rfl, rfl⟩) hq ?_
      (.inr ⟨_, rfl, ?_, fun _ => by simp [hx, Phase.started, Phase.ended]⟩)
    · exact Function.update_of_ne hy _ _
    · rw [hx]
      exact .inl (by simp [Observed.emit, Observed.goto])
    · by_cases hd : (node x).id ∈ disabledIds
      · rw [if_pos (by simpa using hd)] at hstage
        simp [Observed.expected, Observed.emit, Observed.goto, Observed.endEvent, hstage, hd]
      · rw [if_neg (by simpa using hd)] at hstage
        simp [Observed.expected, Observed.emit, Observed.goto, Observed.startEvent,
          Observed.endEvent, hstage, hd]
  | coordinate hr hstatus hstarts hset hbody =>
    exact told_coordinate h hr hstatus hstarts hset hbody

theorem told_tick (h : Told deps node disabledIds s) (now : Int64) :
    Told deps node disabledIds { s with clock := now } :=
  told_quiet h h.base rfl h.fits h.skipped (fun _ => rfl) fun _ hy => ⟨hy, rfl⟩

theorem told_execute (h : Told deps node disabledIds s)
    (hm : s.exec.main = .idle ∨ s.exec.main = .returned) : Told deps node disabledIds s.resetRun := by
  refine ⟨inv_execute h.base hm, ?_, ?_, ?_, ?_⟩
  · intro x
    rfl
  · intro x
    simp [Observed.resetRun, State.resetRunState, Phase.ended]
  · intro x
    rfl
  · intro i x e hi
    simp [Observed.resetRun] at hi

theorem told_init (clock : Int64) :
    Told deps node disabledIds (.init clock : Observed n w) := by
  refine ⟨inv_init, ?_, ?_, ?_, ?_⟩
  · intro x
    rfl
  · intro x
    simp [Observed.init, State.init, Phase.ended]
  · intro x
    rfl
  · intro i x e hi
    simp [Observed.init] at hi

theorem told_reachable (h : (observed deps node disabledIds w).Reachable s) :
    Told deps node disabledIds s := by
  refine System.Reachable.invariant (I := Told deps node disabledIds) ?_ ?_ h
  · rintro s ⟨clock, -, rfl⟩
    exact told_init clock
  · intro s t hs hst
    cases hst with
    | run hst => exact told_step hs hst
    | tick now => exact told_tick hs now
    | execute hm => exact told_execute hs hm

theorem ended_of_reported (h : Told deps node disabledIds s) (hx : s.stage x = .reported) :
    (s.exec.phase x).ended = true := by
  have hfits := h.fits x
  rw [hx] at hfits
  cases hp : s.exec.phase x <;> simp_all [partOf, Fits, Phase.ended]

theorem reported_of_signalled (h : Told deps node disabledIds s)
    (hx : (s.exec.phase x).signalled = true) : s.stage x = .reported := by
  have hfits := h.fits x
  rwa [partOf_past_iff.2 hx] at hfits

theorem reported_of_returned (h : Told deps node disabledIds s) (hm : s.exec.main = .returned)
    (x : Fin n) : s.stage x = .reported := by
  rcases h.base.returned hm with hn | hp
  · exact absurd x.pos (by omega)
  · refine reported_of_signalled h ?_
    rw [(all_finished h.base hp).2 x]
    rfl

theorem enabled_status (h : Told deps node disabledIds s)
    (hd : disabledIds.contains (node x).id = false) (hx : s.stage x = .reported) :
    s.exec.status x = .success ∨ s.exec.status x = .fallback ∨ s.exec.status x = .failed := by
  have hterm := h.base.counts.terminal x
  rw [ended_of_reported h hx] at hterm
  have hskip : s.exec.status x ≠ .skipped := by
    rw [Ne, h.skipped, hd]
    simp
  cases hst : s.exec.status x <;> simp_all [Status.terminal]

theorem running_enabled (h : Told deps node disabledIds s) {th : Thread w} {rest : List (Fin n)}
    (ht : s.exec.stack th = x :: rest) (hx : s.exec.phase x = .running) :
    ∃ t, ObservedStep deps node disabledIds s t := by
  cases hq : s.stage x with
  | quiet => exact ⟨_, .announce ht hx hq⟩
  | announced => exact ⟨_, .stop ht hx hq⟩
  | stopped => exact ⟨_, .finish .returned ht hx hq⟩
  | reported =>
    have hfits := h.fits x
    rw [hx] at hfits
    exact absurd hq hfits.2

theorem coordinate_enabled {exec : State n w}
    (hr : RunStep (program deps node disabledIds) s.exec exec)
    (hstatus : exec.status = s.exec.status) (hstarts : exec.starts = s.exec.starts)
    (hset : exec.isSet = s.exec.isSet)
    (hbody : ∀ x, exec.phase x = .bodySuspended → s.exec.phase x = .bodySuspended) :
    ∃ t, ObservedStep deps node disabledIds s t :=
  ⟨_, .coordinate hr hstatus hstarts (fun _ hx => .inl (hset ▸ hx)) fun x hx => .inl (hbody x hx)⟩

theorem suspended_of_update {phase : Fin n → Phase n} {ph : Phase n} (hph : ph ≠ .bodySuspended)
    (y : Fin n) (h : Function.update phase x ph y = .bodySuspended) : phase y = .bodySuspended := by
  rcases eq_or_ne y x with rfl | hy
  · exact absurd (by simpa using h) hph
  · simpa [hy] using h

theorem observed_enabled {exec : State n w} (h : Told deps node disabledIds s)
    (hr : RunStep (program deps node disabledIds) s.exec exec) :
    ∃ t, ObservedStep deps node disabledIds s t := by
  have hcopy := hr
  cases hr with
  | skip i hm hs hd => exact ⟨_, .skip i hm hs hd⟩
  | start ht hx hk => exact ⟨_, .start ht hx hk⟩
  | bodySuspend ht hx | finish _ ht hx => exact running_enabled h ht hx
  | @exchange th x rest ht hx =>
    by_cases hq : s.stage x = .reported
    · refine ⟨_, .coordinate hcopy rfl rfl ?_ fun y hy => .inl (suspended_of_update (by simp) y hy)⟩
      intro y hy
      rcases eq_or_ne y x with rfl | hne
      · exact .inr hq
      · exact .inl (by simpa [hne] using hy)
    · exact ⟨_, .report ht hx hq⟩
  | spawnEnd | wait => exact coordinate_enabled hcopy rfl rfl rfl fun _ hx => hx
  | resume =>
    refine coordinate_enabled hcopy rfl rfl rfl fun y hy => ?_
    exact suspended_of_update (by simp) y (suspended_of_update (by simp) y hy)
  | _ =>
    exact coordinate_enabled hcopy rfl rfl rfl fun y hy => suspended_of_update (by simp) y hy

end Told

variable (deps) (node) (disabledIds) in
structure Follows (s : Observed n w) : Prop where
  skipped : ∀ x, disabledIds.contains (node x).id = true → s.eventsOf x = [] ∨
    s.exec.status x = .skipped ∧ s.eventsOf x = [s.endEvent node x]
  ran : ∀ x, disabledIds.contains (node x).id = false → s.eventsOf x = [] ∨
    s.eventsOf x = [s.startEvent node x] ∨
    (s.exec.status x = .success ∨ s.exec.status x = .fallback ∨ s.exec.status x = .failed) ∧
      s.eventsOf x = [s.startEvent node x, s.endEvent node x]
  released : ∀ x, s.exec.isSet x = true → s.endEvent node x ∈ s.eventsOf x
  ordered : ∀ (i : Nat) x e, s.log[i]? = some (x, e) → disabledIds.contains (node x).id = false →
    ∀ d ∈ deps x, ∃ j < i, s.log[j]? = some (d, s.endEvent node d)
  returned : s.exec.main = .returned → ∀ x, s.endEvent node x ∈ s.eventsOf x
  drains : Acyclic deps → 0 < w → s.exec.main ≠ .idle →
    (∀ t, ¬ ObservedStep deps node disabledIds s t) → s.exec.main = .returned

theorem endEvent_mem (h : Told deps node disabledIds s) (hx : s.stage x = .reported) :
    s.endEvent node x ∈ s.eventsOf x := by
  refine List.mem_map.2 ⟨_, List.mem_filter.2 ⟨mem_log h hx, ?_⟩, rfl⟩
  simp

theorem Told.follows (ht : Told deps node disabledIds s) : Follows deps node disabledIds s := by
  refine ⟨?_, ?_, ?_, ?_, ?_, ?_⟩
  · intro x hx
    have hfits := ht.fits x
    rw [hx] at hfits
    rw [ht.events, Observed.expected, if_pos hx]
    cases hq : s.stage x with
    | quiet => exact .inl rfl
    | reported => exact .inr ⟨(ht.skipped x).2 ⟨hx, ended_of_reported ht hq⟩, rfl⟩
    | announced | stopped =>
      rw [hq] at hfits
      cases hp : partOf (s.exec.phase x) <;> simp [hp, Fits] at hfits
  · intro x hx
    rw [ht.events, Observed.expected, if_neg (by simpa using hx)]
    cases hq : s.stage x with
    | quiet => exact .inl rfl
    | announced | stopped => exact .inr (.inl rfl)
    | reported => exact .inr (.inr ⟨enabled_status ht hx hq, rfl⟩)
  · intro x hx
    rw [ht.base.events.signalled] at hx
    exact endEvent_mem ht (reported_of_signalled ht hx)
  · intro i x e hi hx d hmem
    exact (ht.ordered i x e hi hx d hmem).2
  · intro hm x
    exact endEvent_mem ht (reported_of_returned ht hm x)
  · intro hd hw hm hq
    obtain ⟨v, rfl⟩ := Nat.exists_eq_add_of_lt hw
    refine returned_of_quiescent hd ht.base (fun exec hr => ?_) hm
    obtain ⟨t, hst⟩ := observed_enabled ht hr
    exact hq t hst

theorem node_events_follow (h : (observed deps node disabledIds w).Reachable s) :
    Follows deps node disabledIds s :=
  (told_reachable h).follows

def chainDeps : Fin 2 → List (Fin 2) := ![[], [⟨0, Nat.two_pos⟩]]

def chainNodes : Fin 2 → Node := ![⟨"load", "Loader"⟩, ⟨"rank", "Ranker"⟩]

theorem coordinate_run {exec : State n w} (h : (observed deps node disabledIds w).Reachable s)
    (hr : RunStep (program deps node disabledIds) s.exec exec)
    (hstatus : exec.status = s.exec.status) (hstarts : exec.starts = s.exec.starts)
    (hset : ∀ x, exec.isSet x = true → s.exec.isSet x = true ∨ s.stage x = .reported)
    (hbody : ∀ x, exec.phase x ≠ .bodySuspended) :
    (observed deps node disabledIds w).Reachable { s with exec := exec } :=
  h.step (.run (.coordinate hr hstatus hstarts hset fun x hx => absurd hx (hbody x)))

theorem chain_returned : ∃ s, (observed chainDeps chainNodes [] 1).Reachable s ∧
    s.exec.main = .returned := by
  have h := System.reachable_initial (M := observed chainDeps chainNodes [] 1) ⟨5, by decide, rfl⟩
  have h := h.step (.execute (.inl rfl))
  have h := coordinate_run h (.spawn 0 rfl rfl rfl) rfl rfl (fun _ => .inl) (by decide)
  have h := coordinate_run h (.spawn 1 rfl rfl rfl) rfl rfl (fun _ => .inl) (by decide)
  have h := coordinate_run h (.spawnEnd rfl rfl) rfl rfl (fun _ => .inl) (by decide)
  have h := coordinate_run h (.dequeue 0 rfl rfl) rfl rfl (fun _ => .inl) (by decide)
  have h := h.step (.run (.start (t := .worker 0) (x := 0) rfl rfl rfl))
  have h := h.step (.run (.announce (t := .worker 0) (x := 0) rfl rfl rfl))
  have h := h.step (.run (.stop (t := .worker 0) (x := 0) rfl rfl rfl))
  have h := h.step (.run (.finish (t := .worker 0) (x := 0) .returned rfl rfl rfl))
  have h := h.step (.run (.report (t := .worker 0) (x := 0) rfl rfl (by decide)))
  have h := coordinate_run h (.exchange (t := .worker 0) (x := 0) rfl rfl) rfl rfl
    (by decide) (by decide)
  have h := coordinate_run h (.setEnd (t := .worker 0) (x := 0) rfl rfl) rfl rfl
    (fun _ => .inl) (by decide)
  have h := coordinate_run h (.count (t := .worker 0) (x := 0) rfl rfl (by decide)) rfl rfl
    (fun _ => .inl) (by decide)
  have h := coordinate_run h (.dequeue 0 rfl rfl) rfl rfl (fun _ => .inl) (by decide)
  have h := coordinate_run h (.awaitSet (t := .worker 0) (x := 1) rfl rfl rfl rfl) rfl rfl
    (fun _ => .inl) (by decide)
  have h := h.step (.run (.start (t := .worker 0) (x := 1) rfl rfl rfl))
  have h := h.step (.run (.announce (t := .worker 0) (x := 1) rfl rfl rfl))
  have h := h.step (.run (.stop (t := .worker 0) (x := 1) rfl rfl rfl))
  have h := h.step (.run (.finish (t := .worker 0) (x := 1) .returned rfl rfl rfl))
  have h := h.step (.run (.report (t := .worker 0) (x := 1) rfl rfl (by decide)))
  have h := coordinate_run h (.exchange (t := .worker 0) (x := 1) rfl rfl) rfl rfl
    (by decide) (by decide)
  have h := coordinate_run h (.setEnd (t := .worker 0) (x := 1) rfl rfl) rfl rfl
    (fun _ => .inl) (by decide)
  have h := coordinate_run h (.countLast (t := .worker 0) (x := 1) rfl rfl rfl) rfl rfl
    (fun _ => .inl) (by decide)
  have h := coordinate_run h (.signal (t := .worker 0) (x := 1) rfl rfl) rfl rfl
    (fun _ => .inl) (by decide)
  have h := coordinate_run h (.wait rfl (by decide)) rfl rfl (fun _ => .inl) (by decide)
  exact ⟨_, h, rfl⟩

theorem node_events_follow_chain : ∃ s : Observed 2 1,
    (Acyclic chainDeps ∧ (observed chainDeps chainNodes [] 1).Reachable s ∧
      s.exec.main = .returned) ∧ Follows chainDeps chainNodes [] s := by
  obtain ⟨s, h, hr⟩ := chain_returned
  have hacyclic : Acyclic chainDeps := .of_lt (by decide)
  exact ⟨s, ⟨hacyclic, h, hr⟩, node_events_follow h⟩

end Lark.Dag.NodeEvents
