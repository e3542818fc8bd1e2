import Lark.Column.Monitor
import Lark.Column.Exec.Execution

namespace Lark.Column.Exec

open Lark.Base Lark.Column.Monitor Relation

structure ModuleAcc where
  start : Int64
  stop : Int64
  started : Bool
  count : UInt64

namespace ModuleAcc

def fresh : ModuleAcc := ⟨0, 0, false, 0⟩

def enter (start : Int64) (acc : ModuleAcc) : ModuleAcc :=
  { acc with
    count := acc.count + 1
    started := true
    start := if acc.started then acc.start else start }

def leave (stop : Int64) (acc : ModuleAcc) : ModuleAcc := { acc with stop := max acc.stop stop }

end ModuleAcc

abbrev ModuleAccs : Type := Std.TreeMap String ModuleAcc Ord.compare

-- `modules[name]`, with the entry the map makes for a name it does not hold.
def ModuleAccs.touch (accs : ModuleAccs) (name : String) (f : ModuleAcc → ModuleAcc) :
    ModuleAccs :=
  accs.alter name fun acc => some (f (acc.getD .fresh))

def NodeOp.type : NodeOp → String
  | op o => o.type
  | placeholder _ => "placeholder"

def Phase.ok : Phase → Bool
  | .done ok => ok
  | _ => false

def nodeEvent (action : String) (n : ComputeNode) (elapsed : Int64) (ok : Bool) : Event :=
  { ((Event.make "column" action n.id).attr "op" n.op.type).attrNs "elapsed_ns" elapsed with
    duration := elapsed
    ok := ok }

-- Where the coroutine of a node stands: each stage ends at a clock reading, a lock or an event.
inductive Stage where
  | waiting
  | started (start : Int64)
  | computing (start : Int64)
  | stopped (stop elapsed : Int64)
  | settled (elapsed : Int64)
  | reported
  | finished

structure AsyncState where
  exec : ExecState
  stage : Nat → Stage
  modules : ModuleAccs
  busy : Int64
  stats : RunStats

namespace AsyncState

def start (exec : ExecState) (stats : RunStats) : AsyncState :=
  ⟨exec, fun _ => .waiting, ∅, 0, stats⟩

def goto (s : AsyncState) (n : ComputeNode) (stage : Stage) : AsyncState :=
  { s with stage := Function.update s.stage n.ptr stage }

def endEvent (s : AsyncState) (n : ComputeNode) (elapsed : Int64) : Event :=
  let ok := (s.exec.phase n.ptr).ok
  nodeEvent (if ok then "node.end" else "node.error") n elapsed ok

end AsyncState

-- Every interleaving of the coroutines that SpawnNode starts.
inductive SpawnStep (libm : Libm) (g : ComputeGraph) (s : AsyncState) : AsyncState → Prop
  | start (n) (hn : n ∈ g.nodes) (hs : s.stage n.ptr = .waiting)
    (hd : ∀ d ∈ n.deps, s.stage d = .finished) (now : Int64) {stats : RunStats}
    (he : s.stats.emit (nodeEvent "node.start" n 0 true) = .ok stats) :
    SpawnStep libm g s { s.goto n (.started now) with stats := stats }
  | enter (n) (hn : n ∈ g.nodes) {start : Int64} (hs : s.stage n.ptr = .started start) :
    SpawnStep libm g s { s.goto n (.computing start) with
      modules := s.modules.touch n.module (.enter start) }
  | compute (n) (hn : n ∈ g.nodes) {start : Int64} (hs : s.stage n.ptr = .computing start)
    (hr : (s.exec.phase n.ptr).isDone = false) :
    SpawnStep libm g s { s with exec := s.exec.advance libm n }
  | stop (n) (hn : n ∈ g.nodes) {start : Int64} (hs : s.stage n.ptr = .computing start)
    (hr : (s.exec.phase n.ptr).isDone = true) (now : Int64) :
    SpawnStep libm g s (s.goto n (.stopped now (now - start)))
  | settle (n) (hn : n ∈ g.nodes) {stop elapsed : Int64}
    (hs : s.stage n.ptr = .stopped stop elapsed) :
    SpawnStep libm g s { s.goto n (.settled elapsed) with
      busy := s.busy + elapsed
      modules := s.modules.touch n.module (.leave stop) }
  | report (n) (hn : n ∈ g.nodes) {elapsed : Int64} (hs : s.stage n.ptr = .settled elapsed)
    {stats : RunStats} (he : s.stats.emit (s.endEvent n elapsed) = .ok stats) :
    SpawnStep libm g s { s.goto n .reported with stats := stats }
  | finish (n) (hn : n ∈ g.nodes) (hs : s.stage n.ptr = .reported) :
    SpawnStep libm g s (s.goto n .finished)

def moduleEvent (entry : String × ModuleAcc) : Event :=
  { (Event.make "column" "module.end" entry.1).attr "node_count"
      (intToString entry.2.count.toNat) with
    duration := entry.2.stop - entry.2.start }

-- `wall.count() * workers` is a product of unsigned words.
def utilization (busy wall : Int64) (workers : UInt64) : Double :=
  if 0 < wall ∧ 0 < workers then
    let util := Double.num busy.toInt / Double.num (wall.toUInt64 * workers).toNat
    if Double.lt 1 util then 1 else util
  else 0

def utilizationText : Double → String
  | .num q => fixedToString q
  | .inf negative => if negative then "-inf" else "inf"
  | .nan => "nan"

def pressureEvent (busy wall : Int64) (workers : UInt64) : Event :=
  (((((Event.make "column" "cpu.pressure" "compute").attr "pool" "compute").attr "utilization"
    (utilizationText (utilization busy wall workers))).attrNs "busy_ns" busy).attrNs
    "wall_ns" wall).attr "workers" (intToString workers.toNat)

def summaryEvents (s : AsyncState) (wall : Int64) (workers : UInt64) : List Event :=
  s.modules.toList.map moduleEvent ++ [pressureEvent s.busy wall workers]

section Touch

variable (accs : ModuleAccs) (name : String) (f : ModuleAcc → ModuleAcc)

theorem touch_self : (accs.touch name f)[name]? = some (f (accs[name]?.getD .fresh)) := by
  simp [ModuleAccs.touch]

theorem touch_of_ne {name' : String} (h : name' ≠ name) :
    (accs.touch name f)[name']? = accs[name']? := by
  have hcmp : ¬ Ord.compare name name' = .eq := fun he => h (Std.LawfulEqCmp.eq_of_compare he).symm
  simp [ModuleAccs.touch, Std.TreeMap.getElem?_alter, hcmp]

end Touch

namespace Stage

def isCounted : Stage → Bool
  | waiting | started _ => false
  | _ => true

def isStopped : Stage → Bool
  | waiting | started _ | computing _ => false
  | _ => true

def isReported : Stage → Bool
  | reported | finished => true
  | _ => false

end Stage

section Reached

variable {g : ComputeGraph} {stage : Nat → Stage} {f : Stage → Bool} {n : ComputeNode} {next : Stage}

def reached (g : ComputeGraph) (f : Stage → Bool) (stage : Nat → Stage) : List ComputeNode :=
  g.nodes.filter fun n => f (stage n.ptr)

theorem reached_same (h : f next = f (stage n.ptr)) :
    reached g f (Function.update stage n.ptr next) = reached g f stage := by
  refine List.filter_congr fun m _ => ?_
  by_cases hp : m.ptr = n.ptr
  · rw [hp, Function.update_self, h]
  · rw [Function.update_of_ne hp]

theorem reached_next (hwf : g.WellFormed) (f : Stage → Bool) (stage : Nat → Stage) (next : Stage)
    (hn : n ∈ g.nodes) (hf : f (stage n.ptr) = false)
    (hnext : f next = true) :
    (reached g f (Function.update stage n.ptr next)).Perm (n :: reached g f stage) := by
  have hnodup : g.nodes.Nodup := List.Nodup.of_map _ hwf.ptr_nodup
  have hnot : n ∉ reached g f stage := fun hmem => by
    have := (List.mem_filter.1 hmem).2
    rw [hf] at this
    cases this
  refine (List.perm_ext_iff_of_nodup (hnodup.filter _)
    (List.nodup_cons.2 ⟨hnot, hnodup.filter _⟩)).2 fun m => ?_
  rw [List.mem_cons, reached, List.mem_filter, List.mem_filter]
  by_cases hm : m = n
  · subst hm
    simp [hn, hnext]
  · rw [or_iff_right hm]
    refine and_congr_right fun hmem => ?_
    rw [Function.update_of_ne fun hp => hm (hwf.node_eq hmem hn hp)]

end Reached

def nodeEntry (n : ComputeNode) : String × String × String := (n.id, n.op.type, moduleOf n.id)

def opEntry (o : OpTiming) : String × String × String := (o.nodeId, o.opType, o.module)

def countIn (name : String) (nodes : List ComputeNode) : Nat := nodes.countP (·.module = name)

def Counts (acc : Option ModuleAcc) (k : Nat) : Prop :=
  acc.map (·.count) = if k = 0 then none else some (UInt64.ofNat k)

structure Tallied (g : ComputeGraph) (stats₀ : RunStats) (s : AsyncState) : Prop where
  stopped : ∀ n ∈ g.nodes, (s.stage n.ptr).isStopped = true → (s.exec.phase n.ptr).isDone = true
  counts : ∀ name, Counts s.modules[name]? (countIn name (reached g Stage.isCounted s.stage))
  ops : ∃ entries, s.stats = { stats₀ with ops := stats₀.ops ++ entries } ∧
    (entries.map opEntry).Perm ((reached g Stage.isReported s.stage).map nodeEntry)

section Steps

variable {libm : Libm} {g : ComputeGraph} {stats₀ : RunStats} {s t : AsyncState} {exec : ExecState}

theorem tallied_start : Tallied g stats₀ (.start exec stats₀) where
  stopped n _ h := by cases h
  counts name := by
    simp [AsyncState.start, reached, Stage.isCounted, countIn, Counts]
  ops := ⟨[], by simp [AsyncState.start], by simp [AsyncState.start, reached, Stage.isReported]⟩

theorem Counts.enter {acc : Option ModuleAcc} {k : Nat} (h : Counts acc k) (start : Int64) :
    Counts (some ((acc.getD .fresh).enter start)) (k + 1) := by
  cases acc with
  | none =>
    have hk : k = 0 := by
      by_contra hk
      simp [Counts, hk] at h
    simp [Counts, hk, ModuleAcc.enter, ModuleAcc.fresh]
  | some acc =>
    have hk : k ≠ 0 := by
      rintro rfl
      simp [Counts] at h
    simp only [Counts, hk, if_false, Option.map_some, Option.some.injEq] at h
    simp [Counts, ModuleAcc.enter, h, UInt64.ofNat_add]

theorem Counts.leave {acc : Option ModuleAcc} {k : Nat} (h : Counts acc k) (hk : k ≠ 0)
    (stop : Int64) : Counts (some ((acc.getD .fresh).leave stop)) k := by
  cases acc with
  | none => simp [Counts, hk] at h
  | some acc => exact h

theorem emit_nodeStart (stats : RunStats) (n : ComputeNode) :
    stats.emit (nodeEvent "node.start" n 0 true) = .ok stats := rfl

theorem emit_endEvent (s : AsyncState) (n : ComputeNode) (elapsed : Int64) :
    s.stats.emit (s.endEvent n elapsed) = .ok { s.stats with
      ops := s.stats.ops ++ [⟨n.id, n.op.type, moduleOf n.id, elapsed⟩] } := by
  have haction : (s.endEvent n elapsed).action = "node.end" ∨
      (s.endEvent n elapsed).action = "node.error" := by
    cases hok : (s.exec.phase n.ptr).ok <;> simp [AsyncState.endEvent, nodeEvent, hok, Event.make,
      Event.attr, Event.attrNs]
  rw [emit_nodeEnd s.stats rfl haction]
  rfl

theorem stopped_goto {phase : Nat → Phase} {stage : Nat → Stage} {n : ComputeNode} (next : Stage)
    (h : ∀ m ∈ g.nodes, (stage m.ptr).isStopped = true → (phase m.ptr).isDone = true)
    (hn : next.isStopped = true → (phase n.ptr).isDone = true) :
    ∀ m ∈ g.nodes, (Function.update stage n.ptr next m.ptr).isStopped = true →
      (phase m.ptr).isDone = true := by
  intro m hm hs
  by_cases hp : m.ptr = n.ptr
  · rw [hp, Function.update_self] at hs
    rw [hp]
    exact hn hs
  · exact h m hm (by rwa [Function.update_of_ne hp] at hs)

theorem countIn_cons (name : String) (n : ComputeNode) (nodes : List ComputeNode) :
    countIn name (n :: nodes) = countIn name nodes + if n.module = name then 1 else 0 := by
  simp [countIn, List.countP_cons]

theorem Tallied.touched (h : Tallied g stats₀ s) {f : ModuleAcc → ModuleAcc} {n : ComputeNode}
    {k : String → Nat} (hself : Counts (some (f (s.modules[n.module]?.getD .fresh))) (k n.module))
    (hne : ∀ name, name ≠ n.module → k name = countIn name (reached g Stage.isCounted s.stage))
    (name : String) : Counts (s.modules.touch n.module f)[name]? (k name) := by
  by_cases hm : name = n.module
  · subst hm
    rwa [touch_self]
  · rw [touch_of_ne _ _ _ hm, hne name hm]
    exact h.counts name

theorem Tallied.goto (h : Tallied g stats₀ s) {n : ComputeNode} (next : Stage)
    (hc : next.isCounted = (s.stage n.ptr).isCounted)
    (hr : next.isReported = (s.stage n.ptr).isReported)
    (hs : next.isStopped = true → (s.exec.phase n.ptr).isDone = true) :
    Tallied g stats₀ (s.goto n next) := by
  refine ⟨stopped_goto next h.stopped hs, fun name => ?_, ?_⟩
  · change Counts _ (countIn name (reached g _ (Function.update _ _ _)))
    rw [reached_same hc]
    exact h.counts name
  · change ∃ entries, _ ∧ (List.map _ _).Perm ((reached g _ (Function.update _ _ _)).map _)
    rw [reached_same hr]
    exact h.ops

theorem Tallied.enter (hwf : g.WellFormed) (h : Tallied g stats₀ s) {n : ComputeNode}
    (hn : n ∈ g.nodes) {start : Int64} (hs : s.stage n.ptr = .started start) :
    Tallied g stats₀ { s.goto n (.computing start) with
      modules := s.modules.touch n.module (.enter start) } := by
  have hperm := reached_next hwf Stage.isCounted s.stage (.computing start) hn (by rw [hs]; rfl) rfl
  have hcount (name : String) :
      countIn name (reached g Stage.isCounted (Function.update s.stage n.ptr (.computing start))) =
        countIn name (reached g Stage.isCounted s.stage) + if n.module = name then 1 else 0 := by
    rw [countIn, hperm.countP_eq]
    exact countIn_cons name n _
  refine ⟨stopped_goto _ h.stopped (fun hf => by cases hf), h.touched ?_ fun name hm => ?_, ?_⟩
  · change Counts _ (countIn n.module (reached g _ (Function.update _ _ _)))
    rw [hcount, if_pos rfl]
    exact (h.counts n.module).enter start
  · change countIn name (reached g _ (Function.update _ _ _)) = _
    rw [hcount, if_neg (Ne.symm hm), Nat.add_zero]
  · change ∃ entries, _ ∧ (List.map _ _).Perm ((reached g _ (Function.update _ _ _)).map _)
    rw [reached_same (by rw [hs]; rfl)]
    exact h.ops

theorem Tallied.compute (h : Tallied g stats₀ s) {n : ComputeNode} {start : Int64}
    (hs : s.stage n.ptr = .computing start) :
    Tallied g stats₀ { s with exec := s.exec.advance libm n } := by
  refine ⟨fun m hm hstop => ?_, h.counts, h.ops⟩
  have hp : m.ptr ≠ n.ptr := by
    intro hp
    change (s.stage m.ptr).isStopped = true at hstop
    rw [hp, hs] at hstop
    cases hstop
  change ((s.exec.advance libm n).phase m.ptr).isDone = true
  rw [advance_phase_of_ne hp]
  exact h.stopped m hm hstop

theorem Tallied.settle (h : Tallied g stats₀ s) {n : ComputeNode} (hn : n ∈ g.nodes)
    {stop elapsed busy : Int64} (hs : s.stage n.ptr = .stopped stop elapsed) :
    Tallied g stats₀ { s.goto n (.settled elapsed) with
      busy := busy
      modules := s.modules.touch n.module (.leave stop) } := by
  have hmoved := h.goto (n := n) (.settled elapsed) (by rw [hs]; rfl) (by rw [hs]; rfl)
    fun _ => h.stopped n hn (by rw [hs]; rfl)
  refine ⟨hmoved.stopped, hmoved.touched ?_ fun _ _ => rfl, hmoved.ops⟩
  refine (hmoved.counts n.module).leave ?_ stop
  have hmem : n ∈ reached g Stage.isCounted (s.goto n (.settled elapsed)).stage :=
    List.mem_filter.2 ⟨hn, by simp [AsyncState.goto, Stage.isCounted]⟩
  exact (List.countP_pos_iff.2 ⟨n, hmem, by simp⟩).ne'

theorem Tallied.report (hwf : g.WellFormed) (h : Tallied g stats₀ s) {n : ComputeNode}
    (hn : n ∈ g.nodes) {elapsed : Int64} (hs : s.stage n.ptr = .settled elapsed) :
    Tallied g stats₀ { s.goto n .reported with
      stats := { s.stats with
        ops := s.stats.ops ++ [⟨n.id, n.op.type, moduleOf n.id, elapsed⟩] } } := by
  have hstop := stopped_goto (n := n) .reported h.stopped
    fun _ => h.stopped n hn (by rw [hs]; rfl)
  refine ⟨hstop, fun name => ?_, ?_⟩
  · change Counts _ (countIn name (reached g _ (Function.update _ _ _)))
    rw [reached_same (by rw [hs]; rfl)]
    exact h.counts name
  · obtain ⟨entries, hstats, hperm⟩ := h.ops
    have hnext := reached_next hwf Stage.isReported s.stage .reported hn (by rw [hs]; rfl) rfl
    refine ⟨entries ++ [⟨n.id, n.op.type, moduleOf n.id, elapsed⟩], ?_, ?_⟩
    · simp only [hstats, List.append_assoc]
    · change (List.map _ _).Perm ((reached g _ (Function.update _ _ _)).map _)
      refine List.Perm.trans ?_ (hnext.map nodeEntry).symm
      rw [List.map_append]
      exact (List.perm_append_singleton _ _).trans (hperm.cons _)

theorem Tallied.step (hwf : g.WellFormed) (h : Tallied g stats₀ s) (hst : SpawnStep libm g s t) :
    Tallied g stats₀ t := by
  cases hst with
  | start n hn hs hd now he =>
    obtain rfl := Except.ok.inj ((emit_nodeStart s.stats n).symm.trans he)
    exact h.goto _ (by rw [hs]; rfl) (by rw [hs]; rfl) fun hf => by cases hf
  | enter n hn hs => exact h.enter hwf hn hs
  | compute n hn hs hr => exact h.compute hs
  | stop n hn hs hr now => exact h.goto _ (by rw [hs]; rfl) (by rw [hs]; rfl) fun _ => hr
  | settle n hn hs => exact h.settle hn hs
  | report n hn hs he =>
    obtain rfl := Except.ok.inj ((emit_endEvent s n _).symm.trans he)
    exact h.report hwf hn hs
  | finish n hn hs =>
    exact h.goto _ (by rw [hs]; rfl) (by rw [hs]; rfl) fun _ => h.stopped n hn (by rw [hs]; rfl)

theorem Tallied.steps (hwf : g.WellFormed) (h : Tallied g stats₀ s)
    (hst : ReflTransGen (SpawnStep libm g) s t) : Tallied g stats₀ t := by
  induction hst with
  | refl => exact h
  | tail _ hlast ih => exact ih.step hwf hlast

theorem reached_all (hf : ∀ n ∈ g.nodes, s.stage n.ptr = .finished) (f : Stage → Bool)
    (hfin : f .finished = true) : reached g f s.stage = g.nodes :=
  List.filter_eq_self.2 fun n hn => by rw [hf n hn, hfin]

end Steps

section Erasure

variable {libm : Libm} {g : ComputeGraph} {stats₀ : RunStats} {s t : AsyncState} {exec : ExecState}

def Awaited (g : ComputeGraph) (stage : Nat → Stage) : Prop :=
  ∀ n ∈ g.nodes, stage n.ptr ≠ .waiting → ∀ d ∈ n.deps, stage d = .finished

theorem Awaited.goto (hwf : g.WellFormed) {stage : Nat → Stage} (h : Awaited g stage)
    {n : ComputeNode} (hn : n ∈ g.nodes) (next : Stage) (hne : stage n.ptr ≠ .finished)
    (hd : stage n.ptr = .waiting → ∀ d ∈ n.deps, stage d = .finished) :
    Awaited g (Function.update stage n.ptr next) := by
  have hkeep {d : Nat} (hd : stage d = .finished) :
      Function.update stage n.ptr next d = .finished := by
    have hdn : d ≠ n.ptr := by
      rintro rfl
      exact hne hd
    rw [Function.update_of_ne hdn, hd]
  intro m hm hw d hdm
  by_cases hp : m.ptr = n.ptr
  · obtain rfl := hwf.node_eq hm hn hp
    by_cases hwait : stage m.ptr = .waiting
    · exact hkeep (hd hwait d hdm)
    · exact hkeep (h m hm hwait d hdm)
  · rw [Function.update_of_ne hp] at hw
    exact hkeep (h m hm hw d hdm)

theorem Awaited.step (hwf : g.WellFormed) (h : Awaited g s.stage) (hst : SpawnStep libm g s t) :
    Awaited g t.stage := by
  cases hst with
  | start n hn hs hd now he => exact h.goto hwf hn _ (by rw [hs]; simp) fun _ => hd
  | enter n hn hs => exact h.goto hwf hn _ (by rw [hs]; simp) fun hw => by simp [hs] at hw
  | compute n hn hs hr => exact h
  | stop n hn hs hr now => exact h.goto hwf hn _ (by rw [hs]; simp) fun hw => by simp [hs] at hw
  | settle n hn hs => exact h.goto hwf hn _ (by rw [hs]; simp) fun hw => by simp [hs] at hw
  | report n hn hs he => exact h.goto hwf hn _ (by rw [hs]; simp) fun hw => by simp [hs] at hw
  | finish n hn hs => exact h.goto hwf hn _ (by rw [hs]; simp) fun hw => by simp [hs] at hw

theorem SpawnStep.erase (hwf : g.WellFormed) (h : Tallied g stats₀ s) (ha : Awaited g s.stage)
    (hst : SpawnStep libm g s t) : t.exec = s.exec ∨ Step libm g s.exec t.exec := by
  cases hst with
  | compute n hn hs hr =>
    refine .inr (.node n hn ⟨fun d hd => ?_, hr⟩)
    obtain ⟨m, hm, rfl⟩ := hwf.node_of_dep hn hd
    refine h.stopped m hm ?_
    rw [ha n hn (by rw [hs]; simp) m.ptr hd]
    rfl
  | _ => exact .inl rfl

theorem spawned_run (hwf : g.WellFormed)
    (hst : ReflTransGen (SpawnStep libm g) (.start exec stats₀) t) :
    Tallied g stats₀ t ∧ Awaited g t.stage ∧ ReflTransGen (Step libm g) exec t.exec := by
  induction hst with
  | refl => exact ⟨tallied_start, fun n hn hw => absurd rfl hw, .refl⟩
  | tail _ hlast ih =>
    obtain ⟨htally, hwait, hrun⟩ := ih
    refine ⟨htally.step hwf hlast, hwait.step hwf hlast, ?_⟩
    rcases hlast.erase hwf htally hwait with hsame | hstep
    · rwa [hsame]
    · exact hrun.tail hstep

end Erasure

section Staging

variable {libm : Libm} {g : ComputeGraph} {s : AsyncState} {n : ComputeNode}

def Staged (g : ComputeGraph) (s : AsyncState) : Prop :=
  ∀ n ∈ g.nodes, if (s.exec.phase n.ptr).isDone then s.stage n.ptr = .finished
    else s.stage n.ptr = .waiting ∨ ∃ start, s.stage n.ptr = .computing start

structure Moved (libm : Libm) (g : ComputeGraph) (n : ComputeNode) (next : Stage)
    (s t : AsyncState) : Prop where
  run : ReflTransGen (SpawnStep libm g) s t
  exec : t.exec = s.exec
  stage : t.stage = Function.update s.stage n.ptr next

theorem exists_computing (hn : n ∈ g.nodes)
    (hs : s.stage n.ptr = .waiting ∨ ∃ start, s.stage n.ptr = .computing start)
    (hd : ∀ d ∈ n.deps, s.stage d = .finished) :
    ∃ t start, Moved libm g n (.computing start) s t := by
  rcases hs with hwait | ⟨start, hcomp⟩
  · refine ⟨_, 0, .head (.start n hn hwait hd 0 (emit_nodeStart _ _)) <|
      .single (.enter n hn (Function.update_self ..)), rfl, ?_⟩
    exact Function.update_idem ..
  · refine ⟨s, start, .refl, rfl, ?_⟩
    rw [← hcomp, Function.update_eq_self]

theorem exists_finished (hn : n ∈ g.nodes) {start : Int64} (hs : s.stage n.ptr = .computing start)
    (hr : (s.exec.phase n.ptr).isDone = true) : ∃ t, Moved libm g n .finished s t := by
  refine ⟨_, .head (.stop n hn hs hr 0) <| .head (.settle n hn (Function.update_self ..)) <|
    .head (.report n hn (Function.update_self ..) (emit_endEvent _ _ _)) <|
    .single (.finish n hn (Function.update_self ..)), rfl, ?_⟩
  simp [AsyncState.goto]

theorem Staged.advance (hwf : g.WellFormed) (h : Staged g s) (hn : n ∈ g.nodes)
    (he : Enabled s.exec n) : ∃ t, ReflTransGen (SpawnStep libm g) s t ∧
      t.exec = s.exec.advance libm n ∧ Staged g t := by
  have hrest := h n hn
  rw [he.running, if_neg (by decide)] at hrest
  have hdeps : ∀ d ∈ n.deps, s.stage d = .finished := by
    intro d hd
    obtain ⟨m, hm, rfl⟩ := hwf.node_of_dep hn hd
    have hdone := h m hm
    rwa [he.deps m.ptr hd, if_pos rfl] at hdone
  obtain ⟨u, start, hu⟩ := @exists_computing libm _ _ _ hn hrest hdeps
  have hustage : u.stage n.ptr = .computing start := by rw [hu.stage, Function.update_self]
  have hrun := hu.run.tail (.compute n hn hustage (by rw [hu.exec]; exact he.running))
  have hother {m : ComputeNode} (hm : m ∈ g.nodes) (hp : m.ptr ≠ n.ptr) :
      if ((u.exec.advance libm n).phase m.ptr).isDone then u.stage m.ptr = .finished
        else u.stage m.ptr = .waiting ∨ ∃ start, u.stage m.ptr = .computing start := by
    rw [advance_phase_of_ne hp, hu.exec, hu.stage, Function.update_of_ne hp]
    exact h m hm
  cases hdone : ((u.exec.advance libm n).phase n.ptr).isDone with
  | false =>
    refine ⟨_, hrun, by rw [hu.exec], fun m hm => ?_⟩
    by_cases hp : m.ptr = n.ptr
    · rw [hp]
      change if ((u.exec.advance libm n).phase n.ptr).isDone then _ else _
      rw [hdone, if_neg (by decide)]
      exact .inr ⟨start, hustage⟩
    · exact hother hm hp
  | true =>
    obtain ⟨t, ht⟩ :=
      @exists_finished libm _ { u with exec := u.exec.advance libm n } _ hn _ hustage hdone
    refine ⟨t, hrun.trans ht.run, by rw [ht.exec, hu.exec], fun m hm => ?_⟩
    rw [ht.exec, ht.stage]
    by_cases hp : m.ptr = n.ptr
    · rw [hp, Function.update_self, if_pos hdone]
    · rw [Function.update_of_ne hp]
      exact hother hm hp

theorem Staged.steps (hwf : g.WellFormed) (h : Staged g s) {exec : ExecState}
    (hr : ReflTransGen (Step libm g) s.exec exec) :
    ∃ t, ReflTransGen (SpawnStep libm g) s t ∧ t.exec = exec ∧ Staged g t := by
  induction hr with
  | refl => exact ⟨s, .refl, rfl, h⟩
  | tail _ hlast ih =>
    obtain ⟨u, hrun, rfl, hu⟩ := ih
    cases hlast with
    | node n hn he =>
      obtain ⟨t, hnext, hexec, ht⟩ := hu.advance hwf hn he
      exact ⟨t, hrun.trans hnext, hexec, ht⟩

theorem Staged.finished (h : Staged g s) (hf : Finished g s.exec) :
    ∀ n ∈ g.nodes, s.stage n.ptr = .finished := by
  intro n hn
  have hrest := h n hn
  rwa [hf n hn, if_pos rfl] at hrest

theorem exists_spawned (hwf : g.WellFormed) {exec exec' : ExecState}
    (hidle : ∀ n ∈ g.nodes, exec.phase n.ptr = .idle) (hr : ReflTransGen (Step libm g) exec exec')
    (hf : Finished g exec') (stats : RunStats) :
    ∃ t, ReflTransGen (SpawnStep libm g) (.start exec stats) t ∧ t.exec = exec' ∧
      ∀ n ∈ g.nodes, t.stage n.ptr = .finished := by
  have hstart : Staged g (.start exec stats) := by
    intro n hn
    change if (exec.phase n.ptr).isDone then _ else _
    rw [hidle n hn, if_neg (by decide)]
    exact .inl rfl
  obtain ⟨t, hrun, rfl, ht⟩ := hstart.steps hwf hr
  exact ⟨t, hrun, rfl, ht.finished hf⟩

end Staging

section Summary

variable {g : ComputeGraph} {s : AsyncState}

def moduleTiming (entry : String × ModuleAcc) : ModuleTiming :=
  ⟨entry.1, entry.2.stop - entry.2.start, entry.2.count⟩

theorem emitAll_modules (stats : RunStats) (entries : List (String × ModuleAcc))
    (rest : List Event) :
    stats.emitAll (entries.map moduleEvent ++ rest) =
      RunStats.emitAll { stats with modules := stats.modules ++ entries.map moduleTiming } rest := by
  induction entries generalizing stats with
  | nil => simp
  | cons entry entries ih =>
    have hcount : (moduleEvent entry).get "node_count" =
        some (intToString entry.2.count.toNat) := rfl
    have hemit := emit_moduleEnd stats rfl rfl hcount
    rw [List.map_cons, List.cons_append, RunStats.emitAll, hemit]
    simp only
    rw [ih, List.map_cons, List.append_assoc]
    rfl

theorem stod_utilizationText (busy wall : Int64) (workers : UInt64) :
    ∃ d, stod (utilizationText (utilization busy wall workers)) = .ok d := by
  have hnum {q : ℚ} (h : |q| ≤ 2 ^ 63) : ∃ d, stod (utilizationText (.num q)) = .ok d :=
    ⟨_, stod_fixedToString (inDoubleRange_fixedValue h)⟩
  have hbusy : |(busy.toInt : ℚ)| ≤ 2 ^ 63 := by
    have hlow := busy.le_toInt
    have hhigh := busy.toInt_lt
    rw [abs_le]
    exact ⟨by exact_mod_cast hlow, by exact_mod_cast hhigh.le⟩
  unfold utilization
  split_ifs with h
  · simp only
    split_ifs with hlt
    · exact hnum (by norm_num)
    · generalize hw : (wall.toUInt64 * workers).toNat = w
      by_cases hzero : w = 0
      · have hdiv : Double.num busy.toInt / Double.num w =
            if (busy.toInt : ℚ) = 0 then .nan else .inf (Double.signBit busy.toInt) :=
          if_pos (by rw [hzero, Nat.cast_zero])
        rw [hdiv]
        split_ifs
        · exact ⟨.nan, by decide⟩
        · cases Double.signBit busy.toInt
          · exact ⟨.inf false, by decide⟩
          · exact ⟨.inf true, by decide⟩
      · rw [Double.num_div _ _ (Nat.cast_ne_zero.2 hzero)]
        refine hnum ?_
        rw [abs_div, Nat.abs_cast]
        refine (div_le_self (abs_nonneg _) ?_).trans hbusy
        exact_mod_cast Nat.one_le_iff_ne_zero.2 hzero
  · exact hnum (by norm_num)

theorem emit_pressureEvent (stats : RunStats) (busy wall : Int64) (workers : UInt64) :
    ∃ w pressure, stats.emit (pressureEvent busy wall workers) =
      .ok { stats with computeWorkers := w, pressure := pressure } := by
  obtain ⟨d, hd⟩ := stod_utilizationText busy wall workers
  have hbusy : (pressureEvent busy wall workers).getNs "busy_ns" = .ok busy := getNs_toInt rfl
  have hwall : (pressureEvent busy wall workers).getNs "wall_ns" = .ok wall := getNs_toInt rfl
  have hworkers : (pressureEvent busy wall workers).getCount "workers" = .ok workers :=
    getCount_toNat rfl
  exact ⟨_, _, emit_pressure stats rfl rfl hbusy hwall hworkers hd⟩

theorem emitAll_summary (stats : RunStats) (s : AsyncState) (wall : Int64) (workers : UInt64) :
    ∃ w pressure, stats.emitAll (summaryEvents s wall workers) = ({ stats with
      modules := stats.modules ++ s.modules.toList.map moduleTiming
      computeWorkers := w
      pressure := pressure }, .ok ()) := by
  obtain ⟨w, pressure, hemit⟩ := emit_pressureEvent
    { stats with modules := stats.modules ++ s.modules.toList.map moduleTiming } s.busy wall workers
  refine ⟨w, pressure, ?_⟩
  rw [summaryEvents, emitAll_modules, RunStats.emitAll, hemit]
  rfl

end Summary

end Lark.Column.Exec
