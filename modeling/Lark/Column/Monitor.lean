import Lark.Base.Double
import Lark.Base.Exn
import Lark.Base.Strings

namespace Lark.Column.Monitor

open Lark.Base

-- `duration` counts nanoseconds. An attribute that is set again hides the earlier value.
structure Event where
  source : String
  action : String
  subject : String
  attrs : List (String × String)
  duration : Int64
  ok : Bool

namespace Event

def make (source action subject : String) : Event := ⟨source, action, subject, [], 0, true⟩

variable (e : Event)

def attr (key value : String) : Event := { e with attrs := (key, value) :: e.attrs }

def attrNs (key : String) (ns : Int64) : Event := e.attr key (intToString ns.toInt)

def get (key : String) : Option String := e.attrs.lookup key

-- An attribute that is absent counts as zero; one that does not parse throws.
def getNs (key : String) : Except Exn Int64 :=
  match e.get key with
  | some ns => Int64.ofInt <$> stoll ns
  | none => .ok 0

def getCount (key : String) : Except Exn UInt64 :=
  match e.get key with
  | some count => UInt64.ofNat <$> stoull count
  | none => .ok 0

def getReal (key : String) : Except Exn Double :=
  match e.get key with
  | some x => stod x
  | none => .ok 0

end Event

structure OpTiming where
  nodeId : String
  opType : String
  module : String
  elapsed : Int64

structure ModuleTiming where
  module : String
  elapsed : Int64
  nodeCount : UInt64

structure CpuPressure where
  pool : String
  utilization : Double
  busy : Int64
  wall : Int64
  workers : UInt64

structure RunStats where
  feedElapsed : Int64
  computeElapsed : Int64
  fetchElapsed : Int64
  computeWorkers : UInt64
  ops : List OpTiming
  modules : List ModuleTiming
  pressure : List CpuPressure

def moduleOf (nodeId : String) : String := String.ofList (nodeId.toList.takeWhile (· ≠ '/'))

namespace RunStats

def empty : RunStats := ⟨0, 0, 0, 0, [], [], []⟩

variable (stats : RunStats) (e : Event)

def handlePhase : RunStats :=
  if e.action = "feed.end" then { stats with feedElapsed := e.duration }
  else if e.action = "compute.end" then { stats with computeElapsed := e.duration }
  else if e.action = "fetch.end" then { stats with fetchElapsed := e.duration }
  else stats

def handleNode : RunStats :=
  { stats with
    ops := stats.ops ++ [⟨e.subject, (e.get "op").getD "", moduleOf e.subject, e.duration⟩] }

def handleModule : Except Exn RunStats := do
  let nodeCount ← e.getCount "node_count"
  pure { stats with modules := stats.modules ++ [⟨e.subject, e.duration, nodeCount⟩] }

def handleCpuPressure : Except Exn RunStats := do
  let busy ← e.getNs "busy_ns"
  let wall ← e.getNs "wall_ns"
  let workers ← e.getCount "workers"
  let utilization ← e.getReal "utilization"
  pure { stats with
    computeWorkers := workers
    pressure := stats.pressure ++
      [⟨(e.get "pool").getD "compute", utilization, busy, wall, workers⟩] }

def emit : Except Exn RunStats :=
  if e.source ≠ "column" then .ok stats
  else if e.action = "feed.end" ∨ e.action = "compute.end" ∨ e.action = "fetch.end" then
    .ok (stats.handlePhase e)
  else if e.action = "node.end" ∨ e.action = "node.error" then .ok (stats.handleNode e)
  else if e.action = "module.end" then stats.handleModule e
  else if e.action = "cpu.pressure" then stats.handleCpuPressure e
  else .ok stats

-- The collector's state when the events have been emitted, or when one of them threw.
def emitAll (stats : RunStats) : List Event → RunStats × Except Exn Unit
  | [] => (stats, .ok ())
  | e :: events =>
    match stats.emit e with
    | .error err => (stats, .error err)
    | .ok stats' => stats'.emitAll events

end RunStats

inductive RunPhase where
  | feed
  | compute
  | fetch
  deriving DecidableEq

structure PhaseTimer where
  phase : RunPhase
  elapsed : RunPhase → Int64
  start : Int64
  active : Bool

namespace PhaseTimer

def fresh : PhaseTimer := ⟨.feed, fun _ => 0, 0, false⟩

variable (t : PhaseTimer)

def endPhase (now : Int64) : PhaseTimer :=
  if t.active then
    { t with
      elapsed := Function.update t.elapsed t.phase (t.elapsed t.phase + (now - t.start))
      active := false }
  else t

-- Both calls of Clock::now: the one that closes a phase left open, and the one that opens `p`.
def beginPhase (p : RunPhase) (settle start : Int64) : PhaseTimer :=
  { t.endPhase settle with phase := p, start := start, active := true }

def Zeroed : Prop := ∀ p, t.elapsed p = 0

theorem endPhase_active (now : Int64) : (t.endPhase now).active = false := by
  unfold endPhase
  split_ifs with h
  · rfl
  · simpa using h

theorem endPhase_of_inactive (h : t.active = false) (now : Int64) : t.endPhase now = t := by
  simp [endPhase, h]

theorem endPhase_beginPhase (p : RunPhase) (settle start stop : Int64) :
    ((t.beginPhase p settle start).endPhase stop).elapsed =
      Function.update (t.endPhase settle).elapsed p
        ((t.endPhase settle).elapsed p + (stop - start)) := by
  simp [endPhase, beginPhase]

end PhaseTimer

section Stats

variable (stats : RunStats)

theorem moduleOf_slash (nodeId : String) : '/' ∉ (moduleOf nodeId).toList := by
  intro h
  rw [moduleOf, String.toList_ofList] at h
  have hne := List.mem_takeWhile_imp h
  simp at hne

variable {e : Event}

theorem emit_nodeEnd (hs : e.source = "column")
    (ha : e.action = "node.end" ∨ e.action = "node.error") :
    stats.emit e = .ok (stats.handleNode e) := by
  rcases ha with ha | ha
  all_goals simp [RunStats.emit, hs, ha]

theorem getCount_toNat {key : String} {count : UInt64}
    (hc : e.get key = some (intToString count.toNat)) : e.getCount key = .ok count := by
  have hcount : stoull (intToString count.toNat) = .ok count.toNat :=
    stoull_intToString count.toNat_lt
  simp only [Event.getCount, hc, hcount]
  change Except.ok (UInt64.ofNat count.toNat) = _
  rw [UInt64.ofNat_toNat]

theorem emit_moduleEnd (hs : e.source = "column") (ha : e.action = "module.end") {count : UInt64}
    (hc : e.get "node_count" = some (intToString count.toNat)) :
    stats.emit e =
      .ok { stats with modules := stats.modules ++ [⟨e.subject, e.duration, count⟩] } := by
  have hemit : stats.emit e = stats.handleModule e := by simp [RunStats.emit, hs, ha]
  rw [hemit, RunStats.handleModule, getCount_toNat hc]
  rfl

theorem getNs_toInt {key : String} {ns : Int64}
    (hns : e.get key = some (intToString ns.toInt)) : e.getNs key = .ok ns := by
  have hparse : stoll (intToString ns.toInt) = .ok ns.toInt :=
    stoll_intToString ⟨ns.le_toInt, ns.toInt_lt⟩
  simp only [Event.getNs, hns, hparse]
  change Except.ok (Int64.ofInt ns.toInt) = _
  rw [Int64.ofInt_toInt]

theorem emit_pressure (hs : e.source = "column") (ha : e.action = "cpu.pressure")
    {busy wall : Int64} {workers : UInt64} {utilization : Double}
    (hb : e.getNs "busy_ns" = .ok busy) (hw : e.getNs "wall_ns" = .ok wall)
    (hn : e.getCount "workers" = .ok workers) (hu : e.getReal "utilization" = .ok utilization) :
    stats.emit e = .ok { stats with
      computeWorkers := workers
      pressure := stats.pressure ++
        [⟨(e.get "pool").getD "compute", utilization, busy, wall, workers⟩] } := by
  have hemit : stats.emit e = stats.handleCpuPressure e := by simp [RunStats.emit, hs, ha]
  rw [hemit, RunStats.handleCpuPressure, hb, hw, hn, hu]
  rfl

end Stats

end Lark.Column.Monitor
