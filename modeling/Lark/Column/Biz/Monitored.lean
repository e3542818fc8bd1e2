import Lark.Column.Exec.NodeEvents
import Lark.Column.Biz.Reuse
import Lark.Column.Biz.Roster

namespace Lark.Column.Biz

open Lark.Base Lark.Column.Exec Lark.Column.Monitor Relation

structure Span where
  settle : Int64
  start : Int64
  stop : Int64

def Span.elapsed (span : Span) : Int64 := span.stop - span.start

structure Clock where
  feed : Span
  compute : Span
  fetch : Span

def notifyStart (action phase : String) (stats : RunStats) : RunStats :=
  (stats.emitAll [Event.make "column" action phase]).1

def notifyEnd (action phase : String) (elapsed : Int64) (stats : RunStats) : RunStats :=
  (stats.emitAll [{ Event.make "column" action phase with duration := elapsed }]).1

def notifyFeedStart : RunStats → RunStats := notifyStart "feed.start" "feed"

def notifyFeedEnd (t : PhaseTimer) : RunStats → RunStats :=
  notifyEnd "feed.end" "feed" (t.elapsed .feed)

def notifyComputeStart : RunStats → RunStats := notifyStart "compute.start" "compute"

def notifyComputeEnd (t : PhaseTimer) : RunStats → RunStats :=
  notifyEnd "compute.end" "compute" (t.elapsed .compute)

def notifyFetchStart : RunStats → RunStats := notifyStart "fetch.start" "fetch"

def notifyFetchEnd (t : PhaseTimer) : RunStats → RunStats :=
  notifyEnd "fetch.end" "fetch" (t.elapsed .fetch)

structure Monitored where
  session : Session
  timer : PhaseTimer
  stats : RunStats

namespace Monitored

def compiled (ms : List Module) : Monitored := ⟨.compiled ms, .fresh, .empty⟩

def feed (span : Span) (names : List String) (rows : List Row) (m : Monitored) :
    Monitored × Except Exn Unit :=
  let timer := m.timer.beginPhase .feed span.settle span.start
  let stats := notifyFeedStart m.stats
  match m.session.feed names rows with
  | (s, .error e) => (⟨s, timer, stats⟩, .error e)
  | (s, .ok _) =>
    let timer := timer.endPhase span.stop
    (⟨s, timer, notifyFeedEnd timer stats⟩, .ok ())

def fetch (span : Span) (names : List String) (m : Monitored) :
    Monitored × Except Exn (List Row) :=
  let timer := m.timer.beginPhase .fetch span.settle span.start
  let stats := notifyFetchStart m.stats
  match m.session.fetch names with
  | (s, .error e) => (⟨s, timer, stats⟩, .error e)
  | (s, .ok rows) =>
    let timer := timer.endPhase span.stop
    (⟨s, timer, notifyFetchEnd timer stats⟩, .ok rows)

-- ExecuteAsync up to the future: every node has gone through its coroutine.
structure Spawned (libm : Libm) (q : Pipeline) (phase : Nat → Phase) (stats : RunStats)
    (x : AsyncState) : Prop where
  run : ReflTransGen (SpawnStep libm q.graph)
    (.start ⟨Session.resetRunState q.graph phase, q.graph.reserveOutputs q.store⟩ stats) x
  finished : ∀ n ∈ q.graph.nodes, x.stage n.ptr = .finished

-- compute(). The phase begins after a compilation that is due, and before the graph is sorted.
inductive Computes (libm : Libm) (span : Span) (workers : UInt64) (m : Monitored) :
    Monitored → Except Exn Unit → Prop
  | uncompilable {q : Pipeline} {e : Exn} (hc : m.session.pipeline.compiled = false)
    (h : m.session.pipeline.compile = (q, .error e)) :
    Computes libm span workers m { m with session := { m.session with pipeline := q } } (.error e)
  | unsorted {q : Pipeline} {e : Exn}
    (hc : m.session.pipeline.compiled = false → m.session.pipeline.compile.2 = .ok ())
    (h : m.session.pipeline.ready = (q, .error e)) :
    Computes libm span workers m
      ⟨{ m.session with pipeline := q }, m.timer.beginPhase .compute span.settle span.start,
        notifyComputeStart m.stats⟩ (.error e)
  | empty {q : Pipeline} {timer : PhaseTimer} (h : m.session.pipeline.ready = (q, .ok ()))
    (hn : q.graph.nodes = [])
    (ht : timer = (m.timer.beginPhase .compute span.settle span.start).endPhase span.stop) :
    Computes libm span workers m
      ⟨{ m.session with
          pipeline := q
          phase := Session.resetRunState q.graph m.session.phase }, timer,
        notifyComputeEnd timer (notifyComputeStart m.stats)⟩ (.ok ())
  | ran {q : Pipeline} {x : AsyncState} {timer : PhaseTimer} {wall : Int64} {stats : RunStats}
    (h : m.session.pipeline.ready = (q, .ok ())) (hn : q.graph.nodes ≠ [])
    (hx : Spawned libm q m.session.phase (notifyComputeStart m.stats) x)
    (hs : x.stats.emitAll (summaryEvents x wall workers) = (stats, .ok ()))
    (ht : timer = (m.timer.beginPhase .compute span.settle span.start).endPhase span.stop) :
    Computes libm span workers m
      ⟨{ m.session with
          pipeline := { q with store := x.exec.store }
          phase := x.exec.phase }, timer, notifyComputeEnd timer stats⟩ (.ok ())
  | summaryThrew {q : Pipeline} {x : AsyncState} {wall : Int64} {stats : RunStats} {e : Exn}
    (h : m.session.pipeline.ready = (q, .ok ())) (hn : q.graph.nodes ≠ [])
    (hx : Spawned libm q m.session.phase (notifyComputeStart m.stats) x)
    (hs : x.stats.emitAll (summaryEvents x wall workers) = (stats, .error e)) :
    Computes libm span workers m
      ⟨{ m.session with
          pipeline := { q with store := x.exec.store }
          phase := x.exec.phase }, m.timer.beginPhase .compute span.settle span.start, stats⟩
      (.error e)

inductive Ending where
  | feedThrew
  | computeThrew
  | fetchThrew
  | returned
  deriving DecidableEq

inductive Runs (libm : Libm) (clock : Clock) (workers : UInt64) (r : Session.Request)
    (m : Monitored) : Monitored → Ending → Prop
  | feedThrew {t : Monitored} {e : Exn}
    (h : m.feed clock.feed r.feedNames r.feedRows = (t, .error e)) :
    Runs libm clock workers r m t .feedThrew
  | computeThrew {t u : Monitored} {e : Exn}
    (h : m.feed clock.feed r.feedNames r.feedRows = (t, .ok ()))
    (hc : Computes libm clock.compute workers t u (.error e)) :
    Runs libm clock workers r m u .computeThrew
  | fetchThrew {t u v : Monitored} {e : Exn}
    (h : m.feed clock.feed r.feedNames r.feedRows = (t, .ok ()))
    (hc : Computes libm clock.compute workers t u (.ok ()))
    (hf : u.fetch clock.fetch r.fetchNames = (v, .error e)) :
    Runs libm clock workers r m v .fetchThrew
  | returned {t u v : Monitored} {rows : List Row}
    (h : m.feed clock.feed r.feedNames r.feedRows = (t, .ok ()))
    (hc : Computes libm clock.compute workers t u (.ok ()))
    (hf : u.fetch clock.fetch r.fetchNames = (v, .ok rows)) :
    Runs libm clock workers r m v .returned

inductive History (libm : Libm) (ms : List Module) : List Ending → Monitored → Prop
  | start : History libm ms [] (compiled ms)
  | call {es : List Ending} {m t : Monitored} {clock : Clock} {workers : UInt64}
    {r : Session.Request} {e : Ending} (h : History libm ms es m)
    (hr : Runs libm clock workers r m t e) : History libm ms (es ++ [e]) t

structure Describes (ms : List Module) (clock : Clock) (stats : RunStats) : Prop where
  ops : (stats.ops.map opEntry).Perm
    ((Session.graphOf ms).nodes.map fun n => (n.id, n.op.type, n.module))
  modules : (stats.modules.map fun e => (e.module, e.nodeCount)).Perm
    (ms.map fun m => (m.name, UInt64.ofNat (countIn m.name (Session.graphOf ms).nodes)))
  feed : stats.feedElapsed = clock.feed.elapsed
  compute : stats.computeElapsed = clock.compute.elapsed
  fetch : stats.fetchElapsed = clock.fetch.elapsed

section Phases

variable {m t : Monitored} {span : Span} {names : List String} {rows : List Row}

theorem feed_erase (span : Span) (names : List String) (rows : List Row) (m : Monitored) :
    ((m.feed span names rows).1.session, (m.feed span names rows).2) =
      m.session.feed names rows := by
  unfold feed
  cases m.session.feed names rows with
  | mk s r => cases r <;> rfl

theorem fetch_erase (span : Span) (names : List String) (m : Monitored) :
    ((m.fetch span names).1.session, (m.fetch span names).2) = m.session.fetch names := by
  unfold fetch
  cases m.session.fetch names with
  | mk s r => cases r <;> rfl

theorem feed_session {o : Except Exn Unit} (h : m.feed span names rows = (t, o)) :
    m.session.feed names rows = (t.session, o) := by
  rw [← feed_erase span, h]

theorem fetch_session {o : Except Exn (List Row)} (h : m.fetch span names = (t, o)) :
    m.session.fetch names = (t.session, o) := by
  rw [← fetch_erase span, h]

theorem feed_ok (h : m.feed span names rows = (t, .ok ())) : ∃ table : TensorTable,
    t.session.pipeline = m.session.pipeline.feed table.entries ∧
      t.timer = (m.timer.beginPhase .feed span.settle span.start).endPhase span.stop ∧
        t.stats = { m.stats with feedElapsed := t.timer.elapsed .feed } := by
  unfold feed Session.feed at h
  cases htable : Column.feedTable names rows with
  | error e => simp [htable] at h
  | ok table =>
    simp only [htable] at h
    obtain ⟨rfl, -⟩ := Prod.mk.inj h
    exact ⟨table, rfl, rfl, rfl⟩

theorem feed_error {e : Exn} (h : m.feed span names rows = (t, .error e)) : t.stats = m.stats := by
  have hsession := feed_session h
  unfold feed at h
  rw [hsession] at h
  generalize t.session = s at h
  obtain ⟨rfl, -⟩ := Prod.mk.inj h
  rfl

theorem fetch_ok (h : m.fetch span names = (t, .ok rows)) :
    t.timer = (m.timer.beginPhase .fetch span.settle span.start).endPhase span.stop ∧
      t.stats = { m.stats with fetchElapsed := t.timer.elapsed .fetch } := by
  have hsession := fetch_session h
  unfold fetch at h
  rw [hsession] at h
  generalize t.session = s at h
  obtain ⟨rfl, -⟩ := Prod.mk.inj h
  exact ⟨rfl, rfl⟩

theorem fetch_error {e : Exn} (h : m.fetch span names = (t, .error e)) : t.stats = m.stats := by
  have hsession := fetch_session h
  unfold fetch at h
  rw [hsession] at h
  generalize t.session = s at h
  obtain ⟨rfl, -⟩ := Prod.mk.inj h
  rfl

end Phases

section Graph

variable {ms : List Module}

theorem build_graphOf (hc : (Pipeline.register ms).compile.2 = .ok ()) :
    build ms = .ok (Session.graphOf ms) := by
  unfold Session.graphOf build
  unfold Pipeline.compile at hc ⊢
  cases h : compileAll ms with
  | error e c =>
    change Biz.compile (Pipeline.register ms).modules (Pipeline.register ms).moduleNames
      (.start .empty) = _ at h
    simp [h] at hc
  | ok a c =>
    change Biz.compile (Pipeline.register ms).modules (Pipeline.register ms).moduleNames
      (.start .empty) = _ at h
    simp only [h] at hc ⊢
    cases hf : c.graph.finalize with
    | mk g r =>
      rw [hf] at hc
      obtain rfl : r = .ok () := hc
      rfl

theorem keys_ne_nil (m : Module) : m.keys ≠ [] := by
  intro h
  simp only [Module.keys, List.append_eq_nil_iff, List.map_eq_nil_iff, List.range_eq_nil,
    List.length_eq_zero_iff] at h
  obtain ⟨⟨⟨⟨-, hops⟩, hpub⟩, hnoop⟩, -⟩ := h
  simp [hops, hpub] at hnoop

variable (hc : (Pipeline.register ms).compile.2 = .ok ())

include hc

theorem countIn_graphOf {name : String} :
    countIn name (Session.graphOf ms).nodes ≠ 0 ↔ name ∈ ms.map (·.name) := by
  have hnodes := congrArg (List.map Prod.snd) (build_nodes (build_graphOf hc))
  rw [List.map_map, List.map_map] at hnodes
  have hmem : name ∈ (Session.graphOf ms).nodes.map (·.module) ↔ name ∈ ms.map (·.name) := by
    change name ∈ List.map (Prod.snd ∘ fun n : ComputeNode => (n.id, n.module)) _ ↔ _
    rw [hnodes, List.mem_map, List.mem_map]
    constructor
    · rintro ⟨k, hk, rfl⟩
      obtain ⟨m, hm, hkm⟩ := List.mem_flatMap.1 hk
      exact ⟨m, hm, (mem_keys_module hkm).symm⟩
    · rintro ⟨m, hm, rfl⟩
      obtain ⟨k, hk⟩ := List.exists_mem_of_ne_nil _ (keys_ne_nil m)
      exact ⟨k, List.mem_flatMap.2 ⟨m, hm, hk⟩, mem_keys_module hk⟩
  rw [← hmem, ← Nat.pos_iff_ne_zero, countIn, List.countP_pos_iff, List.mem_map]
  simp

theorem graphOf_nodes_eq_nil : (Session.graphOf ms).nodes = [] ↔ ms = [] := by
  constructor
  · intro h
    by_contra hms
    obtain ⟨m, hm⟩ := List.exists_mem_of_ne_nil _ hms
    refine (countIn_graphOf hc).2 (List.mem_map_of_mem (f := (·.name)) hm) ?_
    rw [h]
    rfl
  · rintro rfl
    have hlen := congrArg List.length (build_nodes (build_graphOf hc))
    simpa using hlen

theorem moduleOf_graphOf :
    (∀ n ∈ (Session.graphOf ms).nodes, moduleOf n.id = n.module) ↔
      ∀ m ∈ ms, '/' ∉ m.name.toList := by
  have hnodes := build_nodes (build_graphOf hc)
  constructor
  · intro h m hm
    obtain ⟨k, hk⟩ := List.exists_mem_of_ne_nil _ (keys_ne_nil m)
    have hmem : entryOf k ∈ (Session.graphOf ms).nodes.map fun n => (n.id, n.module) := by
      rw [hnodes]
      exact List.mem_map_of_mem (List.mem_flatMap.2 ⟨m, hm, hk⟩)
    obtain ⟨n, hn, he⟩ := List.mem_map.1 hmem
    obtain ⟨-, hmod⟩ := Prod.mk.inj he
    rw [← mem_keys_module hk, ← hmod, ← h n hn]
    exact moduleOf_slash n.id
  · intro h n hn
    have hmem : (n.id, n.module) ∈ (ms.flatMap Module.keys).map entryOf := by
      rw [← hnodes]
      exact List.mem_map_of_mem (f := fun n : ComputeNode => (n.id, n.module)) hn
    obtain ⟨k, hk, he⟩ := List.mem_map.1 hmem
    obtain ⟨hid, hmod⟩ := Prod.mk.inj he
    obtain ⟨m, hm, hkm⟩ := List.mem_flatMap.1 hk
    have hslash : '/' ∉ k.module.toList := by
      rw [mem_keys_module hkm]
      exact h m hm
    rw [← hid, ← hmod, moduleOf, k.id_tag, takeWhile_slash hslash, String.ofList_toList]

end Graph

section Erasure

variable {libm : Libm} {span : Span} {clock : Clock} {workers : UInt64} {m t : Monitored}

theorem ready_of_starts {ms : List Module} (hc : (Pipeline.register ms).compile.2 = .ok ())
    {s : Session} (hs : Session.Starts ms s) {table : TensorTable}
    (hm : m.session.pipeline = s.pipeline.feed table.entries) :
    ∃ q, m.session.pipeline.ready = (q, .ok ()) ∧ q.graph = Session.graphOf ms ∧
      q.graph.WellFormed := by
  obtain ⟨q, hready, hgraph, -⟩ := hs table
  rw [← hm] at hready
  exact ⟨q, hready, hgraph, hgraph ▸ (Pipeline.compile_succeeded hc).2.1⟩

theorem Computes.erase {ms : List Module} (hc : (Pipeline.register ms).compile.2 = .ok ())
    {s : Session} (hs : Session.Starts ms s) {table : TensorTable} {o : Except Exn Unit}
    (hm : m.session.pipeline = s.pipeline.feed table.entries)
    (h : Computes libm span workers m t o) :
    ∃ order, Session.Computes libm order m.session t.session o := by
  obtain ⟨q, hready, -, hwf⟩ := ready_of_starts hc hs hm
  cases h with
  | uncompilable hun he =>
    unfold Pipeline.ready at hready
    rw [hun, he] at hready
    cases hready
  | unsorted hun he => exact ⟨[], .threw he⟩
  | empty he hn ht => exact ⟨[], .empty he hn⟩
  | @ran q' x _ _ _ he hn hx hsum ht =>
    obtain rfl := (Prod.mk.inj (he.symm.trans hready)).1
    obtain ⟨htally, -, hrun⟩ := spawned_run hwf hx.run
    obtain ⟨order, hfollows⟩ := exists_follows hrun
    refine ⟨order, .ran he hn hfollows fun n hmem => ?_⟩
    exact htally.stopped n hmem (by rw [hx.finished n hmem]; rfl)
  | @summaryThrew q' x wall _ _ he hn hx hsum =>
    obtain ⟨w, pressure, hok⟩ := emitAll_summary x.stats x wall workers
    cases (Prod.mk.inj (hsum.symm.trans hok)).2

theorem Computes.returns {ms : List Module} (hc : (Pipeline.register ms).compile.2 = .ok ())
    {s : Session} (hs : Session.Starts ms s) {table : TensorTable} {o : Except Exn Unit}
    (hm : m.session.pipeline = s.pipeline.feed table.entries)
    (h : Computes libm span workers m t o) : o = .ok () := by
  obtain ⟨order, hcomputes⟩ := h.erase hc hs hm
  exact (hs.computes table hm hcomputes).1

theorem fetched_erase {ms : List Module} (hc : (Pipeline.register ms).compile.2 = .ok ())
    (hs : Session.Starts ms m.session) {r : Session.Request} {f u : Monitored}
    {o : Except Exn (List Row)} (hfeed : m.feed clock.feed r.feedNames r.feedRows = (f, .ok ()))
    (hcomp : Computes libm clock.compute workers f u (.ok ()))
    (hfetch : u.fetch clock.fetch r.fetchNames = (t, o)) :
    ∃ order, Session.Runs libm order r m.session t.session o := by
  obtain ⟨table, hp, -⟩ := feed_ok hfeed
  obtain ⟨order, hcomputes⟩ := hcomp.erase hc hs hp
  have hrun := Session.Runs.fetched (feed_session hfeed) hcomputes
  rw [fetch_session hfetch] at hrun
  exact ⟨order, hrun⟩

theorem Runs.erase {ms : List Module} (hc : (Pipeline.register ms).compile.2 = .ok ())
    (hs : Session.Starts ms m.session) {r : Session.Request} {e : Ending}
    (h : Runs libm clock workers r m t e) :
    ∃ order o, Session.Runs libm order r m.session t.session o ∧
      (e = .returned ↔ ∃ rows, o = .ok rows) := by
  cases h with
  | feedThrew h => exact ⟨[], _, .feedThrew (feed_session h), by simp⟩
  | computeThrew h hcomp =>
    obtain ⟨table, hp, -⟩ := feed_ok h
    cases hcomp.returns hc hs hp
  | fetchThrew h hcomp hf =>
    obtain ⟨order, hrun⟩ := fetched_erase hc hs h hcomp hf
    exact ⟨order, _, hrun, by simp⟩
  | returned h hcomp hf =>
    obtain ⟨order, hrun⟩ := fetched_erase hc hs h hcomp hf
    exact ⟨order, _, hrun, by simp⟩

theorem exists_computes {ms : List Module} (hc : (Pipeline.register ms).compile.2 = .ok ())
    {s s' : Session} (hs : Session.Starts ms s) {table : TensorTable} {order : List Nat}
    (hm : m.session.pipeline = s.pipeline.feed table.entries)
    (h : Session.Computes libm order m.session s' (.ok ())) (span : Span) (workers : UInt64) :
    ∃ t, Computes libm span workers m t (.ok ()) ∧ t.session = s' := by
  obtain ⟨q, hready, -, hwf⟩ := ready_of_starts hc hs hm
  cases h with
  | empty he hn => exact ⟨_, .empty he hn rfl, rfl⟩
  | @ran q _ he hn hx hf =>
    obtain rfl := (Prod.mk.inj (he.symm.trans hready)).1
    have hidle (n : ComputeNode) (hmem : n ∈ q.graph.nodes) :=
      Session.resetRunState_node q.graph m.session.phase hmem
    obtain ⟨y, hrun, rfl, hfin⟩ :=
      exists_spawned hwf hidle hx.run hf (notifyComputeStart m.stats)
    obtain ⟨w, pressure, hsum⟩ := emitAll_summary y.stats y 0 workers
    exact ⟨_, .ran he hn ⟨hrun, hfin⟩ hsum rfl, rfl⟩

theorem exists_runs {ms : List Module} (hc : (Pipeline.register ms).compile.2 = .ok ())
    (hs : Session.Starts ms m.session) {r : Session.Request} {order : List Nat} {s : Session}
    {rows : List Row} (h : Session.Runs libm order r m.session s (.ok rows)) (clock : Clock)
    (workers : UInt64) : ∃ t, Runs libm clock workers r m t .returned ∧ t.session = s := by
  generalize ho : Except.ok rows = o at h
  cases h with
  | feedThrew h => cases ho
  | computeThrew h hcomp => cases ho
  | @fetched f u h hcomp =>
    have herase := feed_erase clock.feed r.feedNames r.feedRows m
    cases hfeed : m.feed clock.feed r.feedNames r.feedRows with
    | mk t o =>
      rw [hfeed, h] at herase
      obtain ⟨rfl, rfl⟩ := Prod.mk.inj herase
      obtain ⟨table, hp, -⟩ := feed_ok hfeed
      obtain ⟨v, hv, rfl⟩ := exists_computes hc hs hp hcomp clock.compute workers
      have hfetch := fetch_erase clock.fetch r.fetchNames v
      have hrows := (congrArg Prod.snd hfetch).trans ho.symm
      exact ⟨_, .returned hfeed hv (Prod.ext rfl hrows), congrArg Prod.fst hfetch⟩

end Erasure

section Recorded

variable {ms : List Module}

theorem modules_perm (hc : (Pipeline.register ms).compile.2 = .ok ())
    (hd : (ms.map (·.name)).Nodup) {accs : ModuleAccs}
    (hcounts : ∀ name, Counts accs[name]? (countIn name (Session.graphOf ms).nodes)) :
    (accs.toList.map fun e => (e.1, e.2.count)).Perm
      (ms.map fun m => (m.name, UInt64.ofNat (countIn m.name (Session.graphOf ms).nodes))) := by
  have hleft : (accs.toList.map fun e => (e.1, e.2.count)).Nodup := by
    have hkeys : (accs.toList.map Prod.fst).Nodup := by
      rw [Std.TreeMap.map_fst_toList_eq_keys]
      exact Std.TreeMap.nodup_keys
    refine List.Nodup.of_map Prod.fst ?_
    rw [List.map_map]
    exact hkeys
  have hright : (ms.map fun m =>
      (m.name, UInt64.ofNat (countIn m.name (Session.graphOf ms).nodes))).Nodup := by
    refine List.Nodup.of_map Prod.fst ?_
    rw [List.map_map]
    exact hd
  refine (List.perm_ext_iff_of_nodup hleft hright).2 fun entry => ?_
  obtain ⟨name, count⟩ := entry
  have hname := hcounts name
  rw [List.mem_map, List.mem_map]
  constructor
  · rintro ⟨⟨k, acc⟩, hmem, he⟩
    obtain ⟨rfl, rfl⟩ := Prod.mk.inj he
    rw [Std.TreeMap.mem_toList_iff_getElem?_eq_some.1 hmem] at hname
    have hk : countIn k (Session.graphOf ms).nodes ≠ 0 := by
      intro hzero
      simp [Counts, hzero] at hname
    simp only [Counts, hk, if_false, Option.map_some, Option.some.injEq] at hname
    obtain ⟨m, hm, rfl⟩ := List.mem_map.1 ((countIn_graphOf hc).1 hk)
    exact ⟨m, hm, by rw [hname]⟩
  · rintro ⟨m, hm, he⟩
    obtain ⟨rfl, rfl⟩ := Prod.mk.inj he
    have hk := (countIn_graphOf hc).2 (List.mem_map_of_mem (f := (·.name)) hm)
    cases hacc : accs[m.name]? with
    | none => simp [Counts, hk, hacc] at hname
    | some acc =>
      refine ⟨(m.name, acc), Std.TreeMap.mem_toList_iff_getElem?_eq_some.2 hacc, ?_⟩
      simp only [Counts, hacc, hk, if_false, Option.map_some, Option.some.injEq] at hname
      rw [hname]

structure Adds (ms : List Module) (before after : RunStats) : Prop where
  ops : ∃ entries, after.ops = before.ops ++ entries ∧
    (entries.map opEntry).Perm ((Session.graphOf ms).nodes.map nodeEntry)
  modules : ∃ entries, after.modules = before.modules ++ entries ∧
    (entries.map fun e => (e.module, e.nodeCount)).Perm
      (ms.map fun m => (m.name, UInt64.ofNat (countIn m.name (Session.graphOf ms).nodes)))
  feed : after.feedElapsed = before.feedElapsed
  fetch : after.fetchElapsed = before.fetchElapsed

theorem adds_summary (hc : (Pipeline.register ms).compile.2 = .ok ())
    (hd : (ms.map (·.name)).Nodup) {libm : Libm} {q : Pipeline} (hq : q.graph = Session.graphOf ms)
    {phase : Nat → Phase} {before : RunStats} {x : AsyncState}
    (hx : Spawned libm q phase before x) {wall : Int64} {workers : UInt64} {after : RunStats}
    {o : Except Exn Unit} (hs : x.stats.emitAll (summaryEvents x wall workers) = (after, o)) :
    Adds ms before after := by
  have hwf : q.graph.WellFormed := hq ▸ (Pipeline.compile_succeeded hc).2.1
  obtain ⟨htally, -, -⟩ := spawned_run hwf hx.run
  obtain ⟨w, pressure, hsum⟩ := emitAll_summary x.stats x wall workers
  obtain ⟨hafter, -⟩ := Prod.mk.inj (hs.symm.trans hsum)
  obtain ⟨entries, hstats, hperm⟩ := htally.ops
  have hreached := reached_all (s := x) hx.finished
  rw [hreached _ rfl, hq] at hperm
  have hcounts (name : String) :
      Counts x.modules[name]? (countIn name (Session.graphOf ms).nodes) := by
    have hname := htally.counts name
    rwa [hreached _ rfl, hq] at hname
  rw [hafter, hstats]
  refine ⟨⟨entries, rfl, hperm⟩, ⟨x.modules.toList.map moduleTiming, rfl, ?_⟩, rfl, rfl⟩
  rw [List.map_map]
  exact modules_perm hc hd hcounts

theorem adds_empty (hc : (Pipeline.register ms).compile.2 = .ok ())
    (hn : (Session.graphOf ms).nodes = []) (stats : RunStats) : Adds ms stats stats where
  ops := ⟨[], by simp, by simp [hn]⟩
  modules := ⟨[], by simp, by simp [(graphOf_nodes_eq_nil hc).1 hn]⟩
  feed := rfl
  fetch := rfl

structure ComputeSpec (ms : List Module) (span : Span) (m t : Monitored) : Prop where
  adds : Adds ms m.stats t.stats
  timer : t.timer = (m.timer.beginPhase .compute span.settle span.start).endPhase span.stop
  elapsed : t.stats.computeElapsed = t.timer.elapsed .compute

theorem computes_spec (hc : (Pipeline.register ms).compile.2 = .ok ())
    (hd : (ms.map (·.name)).Nodup) {s : Session} (hs : Session.Starts ms s) {table : TensorTable}
    {libm : Libm} {span : Span} {workers : UInt64} {m t : Monitored}
    (hm : m.session.pipeline = s.pipeline.feed table.entries)
    (h : Computes libm span workers m t (.ok ())) : ComputeSpec ms span m t := by
  obtain ⟨q, hready, hgraph, -⟩ := ready_of_starts hc hs hm
  cases h with
  | empty he hn ht =>
    obtain rfl := (Prod.mk.inj (he.symm.trans hready)).1
    have hadds := adds_empty hc (hgraph ▸ hn) m.stats
    exact ⟨⟨hadds.ops, hadds.modules, rfl, rfl⟩, ht, rfl⟩
  | ran he hn hx hsum ht =>
    obtain rfl := (Prod.mk.inj (he.symm.trans hready)).1
    have hadds := adds_summary hc hd hgraph hx hsum
    exact ⟨⟨hadds.ops, hadds.modules, hadds.feed, hadds.fetch⟩, ht, rfl⟩

end Recorded

section Histories

variable {ms : List Module} {libm : Libm} {es : List Ending} {m t : Monitored} {clock : Clock}
  {workers : UInt64} {r : Session.Request} {e : Ending}

def Untouched (ms : List Module) (es : List Ending) : Prop :=
  ms = [] ∨ ∀ e ∈ es, e = .feedThrew

structure Recorded (ms : List Module) (es : List Ending) (m : Monitored) : Prop where
  starts : Session.Starts ms m.session
  empty : Untouched ms es → m.stats.ops = [] ∧ m.stats.modules = []
  filled : ¬ Untouched ms es → m.stats.ops ≠ []

theorem runs_cases (hc : (Pipeline.register ms).compile.2 = .ok ())
    (hd : (ms.map (·.name)).Nodup) (hs : Session.Starts ms m.session)
    (h : Runs libm clock workers r m t e) :
    (e = .feedThrew ∧ t.stats = m.stats) ∨
      e ≠ .feedThrew ∧ ∃ before after, Adds ms before after ∧ before.ops = m.stats.ops ∧
        before.modules = m.stats.modules ∧ t.stats.ops = after.ops ∧
          t.stats.modules = after.modules := by
  cases h with
  | feedThrew h => exact .inl ⟨rfl, feed_error h⟩
  | computeThrew h hcomp =>
    obtain ⟨table, hp, -⟩ := feed_ok h
    cases hcomp.returns hc hs hp
  | fetchThrew h hcomp hf =>
    obtain ⟨table, hp, -, hstats⟩ := feed_ok h
    have hadds := (computes_spec hc hd hs hp hcomp).adds
    rw [fetch_error hf]
    exact .inr ⟨by simp, _, _, hadds, by rw [hstats], by rw [hstats], rfl, rfl⟩
  | returned h hcomp hf =>
    obtain ⟨table, hp, -, hstats⟩ := feed_ok h
    have hadds := (computes_spec hc hd hs hp hcomp).adds
    rw [(fetch_ok hf).2]
    exact .inr ⟨by simp, _, _, hadds, by rw [hstats], by rw [hstats], rfl, rfl⟩

theorem recorded_start (hc : (Pipeline.register ms).compile.2 = .ok ()) :
    Recorded ms [] (compiled ms) where
  starts := .of_compiled hc rfl (Pipeline.compile_config _).1 (Pipeline.compile_config _).2.1
    (Pipeline.compile_config _).2.2.1
  empty _ := ⟨rfl, rfl⟩
  filled h := absurd (.inr (by simp)) h

theorem Recorded.call (hc : (Pipeline.register ms).compile.2 = .ok ())
    (hd : (ms.map (·.name)).Nodup) (h : Recorded ms es m) (hr : Runs libm clock workers r m t e) :
    Recorded ms (es ++ [e]) t := by
  obtain ⟨order, o, herased, -⟩ := hr.erase hc h.starts
  have hstarts := h.starts.after hc herased
  rcases runs_cases hc hd h.starts hr with ⟨rfl, hstats⟩ |
    ⟨hne, before, after, hadds, hbops, hbmods, hops, hmods⟩
  · have hsame : Untouched ms (es ++ [.feedThrew]) ↔ Untouched ms es := by
      simp [Untouched, or_imp]
    exact ⟨hstarts, fun hu => hstats ▸ h.empty (hsame.1 hu),
      fun hu => hstats ▸ h.filled (mt hsame.2 hu)⟩
  · have hused : Untouched ms (es ++ [e]) → ms = [] := by
      rintro (hms | hall)
      · exact hms
      · exact absurd (hall e (by simp)) hne
    obtain ⟨entries, hentries, hperm⟩ := hadds.ops
    obtain ⟨mods, hmodsEq, hmperm⟩ := hadds.modules
    refine ⟨hstarts, fun hu => ?_, fun hu => ?_⟩
    · have hms := hused hu
      obtain ⟨ho, hm⟩ := h.empty (.inl hms)
      rw [(graphOf_nodes_eq_nil hc).2 hms] at hperm
      have hnil : entries = [] := by simpa using hperm.length_eq
      have hmnil : mods = [] := by
        subst hms
        simpa using hmperm.length_eq
      rw [hops, hmods, hentries, hmodsEq, hbops, hbmods, ho, hm, hnil, hmnil]
      exact ⟨rfl, rfl⟩
    · intro hnil
      rw [hops, hentries, List.append_eq_nil_iff] at hnil
      rw [hnil.2] at hperm
      have hnodes : (Session.graphOf ms).nodes = [] := by simpa using hperm.length_eq.symm
      exact hu (.inl ((graphOf_nodes_eq_nil hc).1 hnodes))

theorem history_recorded (hc : (Pipeline.register ms).compile.2 = .ok ())
    (hd : (ms.map (·.name)).Nodup) (h : History libm ms es m) : Recorded ms es m := by
  induction h with
  | start => exact recorded_start hc
  | call _ hr ih => exact ih.call hc hd hr

theorem returned_times (hc : (Pipeline.register ms).compile.2 = .ok ())
    (hd : (ms.map (·.name)).Nodup) (hs : Session.Starts ms m.session)
    (h : Runs libm clock workers r m t .returned) :
    t.stats.feedElapsed = (m.timer.endPhase clock.feed.settle).elapsed .feed + clock.feed.elapsed ∧
      t.stats.computeElapsed =
        (m.timer.endPhase clock.feed.settle).elapsed .compute + clock.compute.elapsed ∧
      t.stats.fetchElapsed =
        (m.timer.endPhase clock.feed.settle).elapsed .fetch + clock.fetch.elapsed := by
  cases h with
  | @returned f u _ rows hfeed hcomp hfetch =>
    obtain ⟨table, hp, hft, hfs⟩ := feed_ok hfeed
    have hspec := computes_spec hc hd hs hp hcomp
    obtain ⟨hvt, hvs⟩ := fetch_ok hfetch
    have hfinactive : f.timer.active = false := hft ▸ PhaseTimer.endPhase_active _ _
    have huinactive : u.timer.active = false := hspec.timer ▸ PhaseTimer.endPhase_active _ _
    have hfe : f.timer.elapsed = Function.update (m.timer.endPhase clock.feed.settle).elapsed .feed
        ((m.timer.endPhase clock.feed.settle).elapsed .feed + clock.feed.elapsed) := by
      rw [hft, PhaseTimer.endPhase_beginPhase]
      rfl
    have hue : u.timer.elapsed = Function.update f.timer.elapsed .compute
        (f.timer.elapsed .compute + clock.compute.elapsed) := by
      rw [hspec.timer, PhaseTimer.endPhase_beginPhase, PhaseTimer.endPhase_of_inactive _ hfinactive]
      rfl
    have hve : t.timer.elapsed = Function.update u.timer.elapsed .fetch
        (u.timer.elapsed .fetch + clock.fetch.elapsed) := by
      rw [hvt, PhaseTimer.endPhase_beginPhase, PhaseTimer.endPhase_of_inactive _ huinactive]
      rfl
    refine ⟨?_, ?_, ?_⟩
    · rw [hvs]
      change u.stats.feedElapsed = _
      rw [hspec.adds.feed, hfs]
      change f.timer.elapsed .feed = _
      rw [hfe, Function.update_self]
    · rw [hvs]
      change u.stats.computeElapsed = _
      rw [hspec.elapsed, hue, Function.update_self, hfe, Function.update_of_ne (by decide)]
    · rw [hvs]
      change t.timer.elapsed .fetch = _
      rw [hve, Function.update_self, hue, Function.update_of_ne (by decide), hfe,
        Function.update_of_ne (by decide)]

theorem entries_iff (hc : (Pipeline.register ms).compile.2 = .ok ()) :
    ((Session.graphOf ms).nodes.map nodeEntry).Perm
        ((Session.graphOf ms).nodes.map fun n => (n.id, n.op.type, n.module)) ↔
      ∀ m ∈ ms, '/' ∉ m.name.toList := by
  constructor
  · intro hperm m hm
    have hcount := (countIn_graphOf hc).2 (List.mem_map_of_mem (f := (·.name)) hm)
    obtain ⟨n, hn, hname⟩ := List.countP_pos_iff.1 (Nat.pos_of_ne_zero hcount)
    have hmem := hperm.mem_iff.2 (List.mem_map_of_mem (f := fun n : ComputeNode =>
      (n.id, n.op.type, n.module)) hn)
    obtain ⟨n', -, he⟩ := List.mem_map.1 hmem
    simp only [nodeEntry, Prod.mk.injEq] at he
    rw [← of_decide_eq_true hname, ← he.2.2]
    exact moduleOf_slash n'.id
  · intro h
    have hsame := (moduleOf_graphOf hc).2 h
    refine List.Perm.of_eq (List.map_congr_left fun n hn => ?_)
    rw [nodeEntry, hsame n hn]

theorem add_eq_right_iff (a d : Int64) : a + d = d ↔ a = 0 := by
  constructor
  · intro h
    grind
  · rintro rfl
    exact Int64.zero_add d

theorem returned_entries (hc : (Pipeline.register ms).compile.2 = .ok ())
    (hd : (ms.map (·.name)).Nodup) (hs : Session.Starts ms m.session)
    (h : Runs libm clock workers r m t .returned) :
    (∃ entries, t.stats.ops = m.stats.ops ++ entries ∧
      (entries.map opEntry).Perm ((Session.graphOf ms).nodes.map nodeEntry)) ∧
    ∃ entries, t.stats.modules = m.stats.modules ++ entries ∧
      (entries.map fun e => (e.module, e.nodeCount)).Perm
        (ms.map fun m => (m.name, UInt64.ofNat (countIn m.name (Session.graphOf ms).nodes))) := by
  rcases runs_cases hc hd hs h with ⟨he, -⟩ |
    ⟨-, before, after, hadds, hbops, hbmods, hops, hmods⟩
  · cases he
  · rw [hops, hmods, ← hbops, ← hbmods]
    exact ⟨hadds.ops, hadds.modules⟩

theorem Describes.untouched (hc : (Pipeline.register ms).compile.2 = .ok ())
    (hd : (ms.map (·.name)).Nodup) (hrec : Recorded ms es m)
    (hr : Runs libm clock workers r m t .returned) (h : Describes ms clock t.stats) :
    m.stats.ops = [] ∧ Untouched ms es := by
  obtain ⟨⟨entries, hops, hperm⟩, -⟩ := returned_entries hc hd hrec.starts hr
  have hlen := h.ops.length_eq
  have hnew := hperm.length_eq
  rw [hops, List.length_map, List.length_append, List.length_map] at hlen
  rw [List.length_map, List.length_map] at hnew
  have hnil : m.stats.ops = [] := List.length_eq_zero_iff.1 (by omega)
  exact ⟨hnil, by_contra fun hu => hrec.filled hu hnil⟩

theorem stats_describe_iff (hc : (Pipeline.register ms).compile.2 = .ok ())
    (hd : (ms.map (·.name)).Nodup) (h : History libm ms es m)
    (hr : Runs libm clock workers r m t .returned) :
    Describes ms clock t.stats ↔ (∀ m ∈ ms, '/' ∉ m.name.toList) ∧ Untouched ms es ∧
      (m.timer.endPhase clock.feed.settle).Zeroed := by
  have hrec := history_recorded hc hd h
  obtain ⟨hfeed, hcompute, hfetch⟩ := returned_times hc hd hrec.starts hr
  obtain ⟨⟨entries, hops, hperm⟩, mods, hmods, hmperm⟩ := returned_entries hc hd hrec.starts hr
  constructor
  · intro hdesc
    obtain ⟨hempty, hu⟩ := hdesc.untouched hc hd hrec hr
    refine ⟨(entries_iff hc).1 ?_, hu, ?_⟩
    · have hsame := hdesc.ops
      rw [hops, hempty, List.nil_append] at hsame
      exact hperm.symm.trans hsame
    · intro p
      cases p with
      | feed => exact (add_eq_right_iff _ _).1 (hfeed.symm.trans hdesc.feed)
      | compute => exact (add_eq_right_iff _ _).1 (hcompute.symm.trans hdesc.compute)
      | fetch => exact (add_eq_right_iff _ _).1 (hfetch.symm.trans hdesc.fetch)
  · rintro ⟨hslash, hu, hzero⟩
    obtain ⟨ho, hm⟩ := hrec.empty hu
    refine ⟨?_, ?_, ?_, ?_, ?_⟩
    · rw [hops, ho, List.nil_append]
      exact hperm.trans ((entries_iff hc).2 hslash)
    · rw [hmods, hm, List.nil_append]
      exact hmperm
    · exact hfeed.trans ((add_eq_right_iff _ _).2 (hzero .feed))
    · exact hcompute.trans ((add_eq_right_iff _ _).2 (hzero .compute))
    · exact hfetch.trans ((add_eq_right_iff _ _).2 (hzero .fetch))

end Histories

section Copying

open Session (copying copyRequest compile_copying)

def ticks : Clock := ⟨⟨0, 0, 1⟩, ⟨1, 1, 3⟩, ⟨3, 3, 4⟩⟩

theorem copying_returns {m : Monitored} (hs : Session.Starts [copying] m.session) (clock : Clock)
    (workers : UInt64) :
    ∃ t, Runs unusedLibm clock workers (copyRequest 1) m t .returned := by
  have hwf := (Pipeline.compile_succeeded compile_copying).2.1
  have hcompiled := (recorded_start compile_copying).starts
  obtain ⟨s, hrun, -⟩ := Session.copying_runs 1
  obtain ⟨u, o, hu⟩ := hcompiled.exists_run hwf hs hrun
  obtain ⟨rfl, -⟩ := hcompiled.runs_agree hwf hs hrun hu
  obtain ⟨t, ht, -⟩ := exists_runs compile_copying hs hu clock workers
  exact ⟨t, ht⟩

theorem stats_describe_copying :
    ∃ t, Runs unusedLibm ticks 1 (copyRequest 1) (compiled [copying]) t .returned ∧
      Describes [copying] ticks t.stats := by
  obtain ⟨t, ht⟩ := copying_returns (recorded_start compile_copying).starts ticks 1
  refine ⟨t, ht, ?_⟩
  refine (stats_describe_iff compile_copying (by decide) .start ht).2 ⟨by decide, .inr ?_, ?_⟩
  · simp
  · intro p
    rfl

-- After the second run() call the collector still has what the first one recorded.
theorem stats_accumulate : ∃ m t, History unusedLibm [copying] [.returned] m ∧
    Runs unusedLibm ticks 1 (copyRequest 1) m t .returned ∧ ¬ Describes [copying] ticks t.stats := by
  have hnames : ([copying].map (·.name)).Nodup := by decide
  obtain ⟨m, hm⟩ := copying_returns (recorded_start compile_copying).starts ticks 1
  have hhist : History unusedLibm [copying] [.returned] m := .call .start hm
  have hrec := history_recorded compile_copying hnames hhist
  obtain ⟨t, ht⟩ := copying_returns hrec.starts ticks 1
  refine ⟨m, t, hhist, ht, fun hdesc => ?_⟩
  obtain ⟨-, hu⟩ := hdesc.untouched compile_copying hnames hrec ht
  simp [Untouched] at hu

end Copying

end Monitored

end Lark.Column.Biz
