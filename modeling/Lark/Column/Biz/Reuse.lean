import Lark.Column.FeedFetch
import Lark.Column.Biz.Pipeline

namespace Lark.Column.Exec

open Relation

section Ordered

-- The run that advances the nodes in the given order, one read or write at a time.
inductive Follows (libm : Libm) (g : ComputeGraph) : List Nat → ExecState → ExecState → Prop
  | nil (s : ExecState) : Follows libm g [] s s
  | cons {s t : ExecState} {order : List Nat} (n : ComputeNode) (hn : n ∈ g.nodes)
    (he : Enabled s n) (h : Follows libm g order (s.advance libm n) t) :
    Follows libm g (n.ptr :: order) s t

variable {libm : Libm} {g : ComputeGraph} {order : List Nat} {s s' t t' : ExecState}

theorem Follows.run (h : Follows libm g order s t) : ReflTransGen (Step libm g) s t := by
  induction h with
  | nil s => exact .refl
  | cons n hn he _ ih => exact .head (.node n hn he) ih

theorem exists_follows (h : ReflTransGen (Step libm g) s t) :
    ∃ order, Follows libm g order s t := by
  induction h using ReflTransGen.head_induction_on with
  | refl => exact ⟨[], .nil t⟩
  | head hst _ ih =>
    obtain ⟨order, ho⟩ := ih
    cases hst with
    | node n hn he => exact ⟨n.ptr :: order, .cons n hn he ho⟩

structure SameRun (g : ComputeGraph) (s t : ExecState) : Prop where
  phase : ∀ n ∈ g.nodes, s.phase n.ptr = t.phase n.ptr
  store : s.store = t.store

theorem SameRun.advance (h : SameRun g s t) {n : ComputeNode} (hn : n ∈ g.nodes) :
    SameRun g (s.advance libm n) (t.advance libm n) := by
  have hnext : s.next libm n = t.next libm n := by
    rw [ExecState.next, ExecState.next, h.phase n hn, h.store]
  refine ⟨?_, ?_⟩
  · intro m hm
    rcases eq_or_ne m.ptr n.ptr with hp | hp
    · simp [ExecState.advance, ExecState.put, hp, hnext]
    · rw [advance_phase_of_ne hp, advance_phase_of_ne hp]
      exact h.phase m hm
  · simp [ExecState.advance, ExecState.put, hnext, h.store]

theorem SameRun.enabled (hwf : g.WellFormed) (h : SameRun g s t) {n : ComputeNode}
    (hn : n ∈ g.nodes) (he : Enabled s n) : Enabled t n := by
  refine ⟨?_, ?_⟩
  · intro d hd
    obtain ⟨m, hm, rfl⟩ := hwf.node_of_dep hn hd
    rw [← h.phase m hm]
    exact he.deps m.ptr hd
  · rw [← h.phase n hn]
    exact he.running

theorem SameRun.follows (hwf : g.WellFormed) (h : SameRun g s t) (hs : Follows libm g order s s') :
    ∃ t', Follows libm g order t t' ∧ SameRun g s' t' := by
  induction hs generalizing t with
  | nil s => exact ⟨t, .nil t, h⟩
  | cons n hn he _ ih =>
    obtain ⟨t', ht', hsame⟩ := ih (h.advance hn)
    exact ⟨t', .cons n hn (h.enabled hwf hn he) ht', hsame⟩

theorem Follows.unique (hwf : g.WellFormed) (hs : Follows libm g order s t)
    (hs' : Follows libm g order s t') : t = t' := by
  induction hs generalizing t' with
  | nil s =>
    cases hs'
    rfl
  | cons n hn _ _ ih =>
    generalize hp : n.ptr = p at hs'
    cases hs' with
    | cons m hm _ hrest =>
      obtain rfl := hwf.node_eq hn hm hp
      exact ih hrest

end Ordered

end Lark.Column.Exec

namespace Lark.Column.Biz

open Lark.Base Lark.Column.Exec Relation

inductive NodeStatus where
  | pending
  | success
  | failed
  deriving DecidableEq

def NodeStatus.ofPhase : Phase → NodeStatus
  | .done true => success
  | .done false => failed
  | _ => pending

-- A pipeline with what its runs leave behind: the nodes' run state, the feed and fetch tables.
structure Session where
  pipeline : Pipeline
  phase : Nat → Phase
  feedTable : TensorTable
  fetchTable : TensorTable

namespace Session

def register (ms : List Module) : Session :=
  ⟨Pipeline.register ms, fun _ => .idle, .empty, .empty⟩

def compiled (ms : List Module) : Session :=
  { register ms with pipeline := (Pipeline.register ms).compile.1 }

def statuses (s : Session) : List (String × NodeStatus) :=
  s.pipeline.graph.nodes.map fun n => (n.id, .ofPhase (s.phase n.ptr))

-- ResetRunState goes over the nodes of the graph.
def resetRunState (g : ComputeGraph) (phase : Nat → Phase) (p : Nat) : Phase :=
  if g.nodes.any (·.ptr = p) then .idle else phase p

def feed (names : List String) (rows : List Row) (s : Session) : Session × Except Exn Unit :=
  match Column.feedTable names rows with
  | .error e => (s, .error e)
  | .ok table => ({ s with pipeline := s.pipeline.feed table.entries, feedTable := table }, .ok ())

def fetch (names : List String) (s : Session) : Session × Except Exn (List Row) :=
  match s.pipeline.store.toTable names with
  | .error e => (s, .error e)
  | .ok table => ({ s with fetchTable := table }, fetchRows table names)

inductive Computes (libm : Libm) (order : List Nat) (s : Session) :
    Session → Except Exn Unit → Prop
  | threw {q : Pipeline} {e : Exn} (h : s.pipeline.ready = (q, .error e)) :
    Computes libm order s { s with pipeline := q } (.error e)
  | empty {q : Pipeline} (h : s.pipeline.ready = (q, .ok ())) (hn : q.graph.nodes = []) :
    Computes libm order s { s with pipeline := q, phase := resetRunState q.graph s.phase } (.ok ())
  | ran {q : Pipeline} {x : ExecState} (h : s.pipeline.ready = (q, .ok ()))
    (hn : q.graph.nodes ≠ [])
    (hx : Follows libm q.graph order
      ⟨resetRunState q.graph s.phase, q.graph.reserveOutputs q.store⟩ x)
    (hf : Finished q.graph x) :
    Computes libm order s
      { s with pipeline := { q with store := x.store }, phase := x.phase } (.ok ())

structure Request where
  feedNames : List String
  feedRows : List Row
  fetchNames : List String

inductive Runs (libm : Libm) (order : List Nat) (r : Request) (s : Session) :
    Session → Except Exn (List Row) → Prop
  | feedThrew {t : Session} {e : Exn} (h : s.feed r.feedNames r.feedRows = (t, .error e)) :
    Runs libm order r s t (.error e)
  | computeThrew {t u : Session} {e : Exn} (h : s.feed r.feedNames r.feedRows = (t, .ok ()))
    (hc : Computes libm order t u (.error e)) : Runs libm order r s u (.error e)
  | fetched {t u : Session} (h : s.feed r.feedNames r.feedRows = (t, .ok ()))
    (hc : Computes libm order t u (.ok ())) :
    Runs libm order r s (u.fetch r.fetchNames).1 (u.fetch r.fetchNames).2

def Request.Feeds (r : Request) : Prop :=
  ∃ table, Column.feedTable r.feedNames r.feedRows = .ok table

section Starting

variable {ms : List Module} {libm : Libm} {order : List Nat} {r : Request} {s t u : Session}

def graphOf (ms : List Module) : ComputeGraph := (Pipeline.register ms).compile.1.graph

def Starts (ms : List Module) (s : Session) : Prop :=
  ∀ table : TensorTable, ∃ q, (s.pipeline.feed table.entries).ready = (q, .ok ()) ∧
    q.graph = graphOf ms ∧ q.modules = ms ∧ q.moduleNames = ms.map (·.name) ∧
      q.compiled = true ∧ q.store = TensorStore.empty.addTable table

theorem ready_compiled {p : Pipeline} (hc : p.compiled = true) (hf : p.graph.finalized = true) :
    p.ready = (p, .ok ()) := by
  simp [Pipeline.ready, hc, hf]

theorem starts_register (hc : (Pipeline.register ms).compile.2 = .ok ()) :
    Starts ms (register ms) := by
  intro table
  obtain ⟨hfinal, -⟩ := Pipeline.compile_succeeded hc
  set p := (Pipeline.register ms).feed table.entries with hp
  obtain ⟨hgraph, hresult⟩ := Pipeline.compile_congr (p := Pipeline.register ms) (q := p) rfl rfl
  obtain ⟨hm, hn, hcompiled, hstore⟩ := Pipeline.compile_config p
  refine ⟨p.compile.1, ?_, hgraph, hm, hn, hcompiled, hstore⟩
  have hok : p.compile = (p.compile.1, .ok ()) := Prod.ext rfl (hresult.trans hc)
  change p.ready = _
  unfold Pipeline.ready
  rw [if_neg (by simp [hp, Pipeline.register, Pipeline.feed]), hok]
  simp only [hgraph, hfinal, if_true]

theorem Starts.of_compiled {s : Session} (hc : (Pipeline.register ms).compile.2 = .ok ())
    (hgraph : s.pipeline.graph = graphOf ms) (hm : s.pipeline.modules = ms)
    (hn : s.pipeline.moduleNames = ms.map (·.name)) (hcompiled : s.pipeline.compiled = true) :
    Starts ms s := by
  intro table
  obtain ⟨hfinal, -⟩ := Pipeline.compile_succeeded hc
  refine ⟨s.pipeline.feed table.entries, ready_compiled hcompiled ?_, hgraph, hm, hn, hcompiled, rfl⟩
  exact hgraph ▸ hfinal

structure Computed (ms : List Module) (libm : Libm) (order : List Nat) (before : Nat → Phase)
    (table : TensorTable) (u : Session) (x : ExecState) : Prop where
  config : u.pipeline.graph = graphOf ms ∧ u.pipeline.modules = ms ∧
    u.pipeline.moduleNames = ms.map (·.name) ∧ u.pipeline.compiled = true
  store : u.pipeline.store = x.store
  phase : ∀ n ∈ (graphOf ms).nodes, u.phase n.ptr = x.phase n.ptr
  follows : (graphOf ms).nodes ≠ [] → Follows libm (graphOf ms) order
    ⟨resetRunState (graphOf ms) before,
      (graphOf ms).reserveOutputs (TensorStore.empty.addTable table)⟩ x
  idle : (graphOf ms).nodes = [] → x.store = TensorStore.empty.addTable table
  finished : Finished (graphOf ms) x

theorem Starts.computes (hs : Starts ms s) (table : TensorTable) {o : Except Exn Unit}
    (ht : t.pipeline = s.pipeline.feed table.entries) (hc : Computes libm order t u o) :
    o = .ok () ∧ ∃ x, Computed ms libm order t.phase table u x := by
  obtain ⟨q, hready, hgraph, hm, hn, hcompiled, hstore⟩ := hs table
  rw [← ht] at hready
  cases hc with
  | threw h => cases h.symm.trans hready
  | empty h hnodes =>
    obtain rfl := (Prod.mk.inj (h.symm.trans hready)).1
    rw [hgraph] at hnodes
    refine ⟨rfl, ⟨fun _ => .idle, _⟩, ⟨hgraph, hm, hn, hcompiled⟩, rfl, ?_, ?_, fun _ => hstore,
      ?_⟩
    · simp [hnodes]
    · exact fun h => absurd hnodes h
    · simp [Finished, hnodes]
  | ran h hnodes hx hf =>
    obtain rfl := (Prod.mk.inj (h.symm.trans hready)).1
    rw [hgraph, hstore] at hx
    rw [hgraph] at hnodes hf
    exact ⟨rfl, _, ⟨hgraph, hm, hn, hcompiled⟩, rfl, fun _ _ => rfl, fun _ => hx,
      fun h => absurd h hnodes, hf⟩

theorem resetRunState_node (g : ComputeGraph) (phase : Nat → Phase) {n : ComputeNode}
    (hn : n ∈ g.nodes) : resetRunState g phase n.ptr = .idle :=
  if_pos (List.any_eq_true.mpr ⟨n, hn, by simp⟩)

theorem sameRun_reset (g : ComputeGraph) (phase phase' : Nat → Phase) (store : TensorStore) :
    SameRun g ⟨resetRunState g phase, g.reserveOutputs store⟩
      ⟨resetRunState g phase', g.reserveOutputs store⟩ := by
  refine ⟨?_, rfl⟩
  intro n hn
  change resetRunState _ _ _ = resetRunState _ _ _
  rw [resetRunState_node _ _ hn, resetRunState_node _ _ hn]

theorem Computed.same (hwf : (graphOf ms).WellFormed) {phase phase' : Nat → Phase}
    {table : TensorTable} {u' : Session} {x x' : ExecState}
    (h : Computed ms libm order phase table u x) (h' : Computed ms libm order phase' table u' x') :
    u.pipeline.store = u'.pipeline.store ∧ u.statuses = u'.statuses := by
  have hsame : SameRun (graphOf ms) x x' := by
    by_cases hnodes : (graphOf ms).nodes = []
    · exact ⟨by simp [hnodes], (h.idle hnodes).trans (h'.idle hnodes).symm⟩
    · have hstart := sameRun_reset (graphOf ms) phase phase' (TensorStore.empty.addTable table)
      obtain ⟨y, hy, hxy⟩ := hstart.follows hwf (h.follows hnodes)
      rwa [hy.unique hwf (h'.follows hnodes)] at hxy
  refine ⟨by rw [h.store, h'.store, hsame.store], ?_⟩
  unfold statuses
  rw [h.config.1, h'.config.1]
  apply List.map_congr_left
  intro n hn
  rw [h.phase n hn, h'.phase n hn, hsame.phase n hn]

theorem fetch_eq {u' : Session} (names : List String) (h : u.pipeline.store = u'.pipeline.store) :
    (u.fetch names).2 = (u'.fetch names).2 := by
  unfold fetch
  rw [h]
  split <;> rfl

theorem fetch_pipeline (names : List String) (u : Session) :
    (u.fetch names).1.pipeline = u.pipeline ∧ (u.fetch names).1.phase = u.phase := by
  unfold fetch
  split <;> exact ⟨rfl, rfl⟩

theorem statuses_fetch (names : List String) (u : Session) :
    (u.fetch names).1.statuses = u.statuses := by
  obtain ⟨hp, hphase⟩ := fetch_pipeline names u
  rw [statuses, hp, hphase]
  rfl

theorem Starts.runs (hs : Starts ms s) {o : Except Exn (List Row)}
    (hr : Runs libm order r s u o) :
    (∃ e, Column.feedTable r.feedNames r.feedRows = .error e ∧ u = s ∧ o = .error e) ∨
      ∃ table v x, Column.feedTable r.feedNames r.feedRows = .ok table ∧
        Computed ms libm order s.phase table v x ∧ u = (v.fetch r.fetchNames).1 ∧
          o = (v.fetch r.fetchNames).2 := by
  cases htable : Column.feedTable r.feedNames r.feedRows with
  | error e =>
    left
    have hfeed : s.feed r.feedNames r.feedRows = (s, .error e) := by
      simp [feed, htable]
    cases hr with
    | feedThrew h =>
      obtain ⟨rfl, he⟩ := Prod.mk.inj (h.symm.trans hfeed)
      exact ⟨e, rfl, rfl, congrArg Except.error (Except.error.inj he)⟩
    | computeThrew h _ => cases h.symm.trans hfeed
    | fetched h _ => cases h.symm.trans hfeed
  | ok table =>
    right
    have hfeed : s.feed r.feedNames r.feedRows =
        ({ s with pipeline := s.pipeline.feed table.entries, feedTable := table }, .ok ()) := by
      simp [feed, htable]
    cases hr with
    | feedThrew h => cases h.symm.trans hfeed
    | computeThrew h hc =>
      obtain rfl := (Prod.mk.inj (h.symm.trans hfeed)).1
      cases (hs.computes table rfl hc).1
    | fetched h hc =>
      obtain rfl := (Prod.mk.inj (h.symm.trans hfeed)).1
      obtain ⟨-, x, hx⟩ := hs.computes table rfl hc
      exact ⟨table, _, x, rfl, hx, rfl, rfl⟩

theorem Starts.after (hc : (Pipeline.register ms).compile.2 = .ok ()) (hs : Starts ms s)
    {o : Except Exn (List Row)} (hr : Runs libm order r s u o) : Starts ms u := by
  rcases hs.runs hr with ⟨e, -, rfl, -⟩ | ⟨table, v, x, -, hx, rfl, -⟩
  · exact hs
  · obtain ⟨hgraph, hm, hn, hcompiled⟩ := hx.config
    have hp := (fetch_pipeline r.fetchNames v).1
    exact .of_compiled hc (hp ▸ hgraph) (hp ▸ hm) (hp ▸ hn) (hp ▸ hcompiled)

theorem Starts.exists_run (hwf : (graphOf ms).WellFormed) (hs : Starts ms s) {s' : Session}
    (hs' : Starts ms s') {o : Except Exn (List Row)} (hr : Runs libm order r s u o) :
    ∃ u' o', Runs libm order r s' u' o' := by
  rcases hs.runs hr with ⟨e, htable, -, -⟩ | ⟨table, v, x, htable, hx, -, -⟩
  · exact ⟨s', .error e, .feedThrew (by simp [feed, htable])⟩
  · obtain ⟨q, hready, hgraph, -, -, -, hstore⟩ := hs' table
    have hfeed : s'.feed r.feedNames r.feedRows =
        ({ s' with pipeline := s'.pipeline.feed table.entries, feedTable := table }, .ok ()) := by
      simp [feed, htable]
    by_cases hnodes : (graphOf ms).nodes = []
    · exact ⟨_, _, .fetched hfeed (.empty hready (by rw [hgraph]; exact hnodes))⟩
    · have hstart := sameRun_reset (graphOf ms) s.phase s'.phase (TensorStore.empty.addTable table)
      obtain ⟨y, hy, hxy⟩ := hstart.follows hwf (hx.follows hnodes)
      refine ⟨_, _, .fetched hfeed (.ran (x := y) hready ?_ ?_ ?_)⟩
      · rw [hgraph]
        exact hnodes
      · rw [hgraph, hstore]
        exact hy
      · rw [hgraph]
        intro n hn
        rw [← hxy.phase n hn]
        exact hx.finished n hn

theorem Starts.runs_agree (hwf : (graphOf ms).WellFormed) (hs : Starts ms s) {s' u' : Session}
    (hs' : Starts ms s') {o o' : Except Exn (List Row)} (hr : Runs libm order r s u o)
    (hr' : Runs libm order r s' u' o') : o = o' ∧ (r.Feeds → u.statuses = u'.statuses) := by
  rcases hs.runs hr with ⟨e, htable, rfl, rfl⟩ | ⟨table, v, x, htable, hx, rfl, rfl⟩
  · rcases hs'.runs hr' with ⟨e', htable', rfl, rfl⟩ | ⟨table', v', x', htable', -⟩
    · obtain rfl := Except.error.inj (htable.symm.trans htable')
      refine ⟨rfl, ?_⟩
      rintro ⟨table, hfeeds⟩
      cases htable.symm.trans hfeeds
    · cases htable.symm.trans htable'
  · rcases hs'.runs hr' with ⟨e', htable', -⟩ | ⟨table', v', x', htable', hx', rfl, rfl⟩
    · cases htable.symm.trans htable'
    · obtain rfl := Except.ok.inj (htable.symm.trans htable')
      obtain ⟨hstore, hstatus⟩ := hx.same hwf hx'
      refine ⟨fetch_eq _ hstore, fun _ => ?_⟩
      rw [statuses_fetch, statuses_fetch]
      exact hstatus

theorem runs_independent (hc : (Pipeline.register ms).compile.2 = .ok ())
    {first : Request} {firstOrder : List Nat} {s₁ f : Session} {o₁ : Except Exn (List Row)}
    (h₁ : Runs libm firstOrder first (compiled ms) s₁ o₁) (hf : f = register ms ∨ f = compiled ms)
    (order : List Nat) (r : Request) :
    (∀ s₂ f₂ o o', Runs libm order r s₁ s₂ o → Runs libm order r f f₂ o' →
      o = o' ∧ (r.Feeds → s₂.statuses = f₂.statuses)) ∧
        ((∃ s₂ o, Runs libm order r s₁ s₂ o) ↔ ∃ f₂ o', Runs libm order r f f₂ o') := by
  have hwf : (graphOf ms).WellFormed := (Pipeline.compile_succeeded hc).2.1
  have hcompiled : Starts ms (compiled ms) :=
    .of_compiled hc rfl (Pipeline.compile_config _).1 (Pipeline.compile_config _).2.1
      (Pipeline.compile_config _).2.2.1
  have hs₁ : Starts ms s₁ := hcompiled.after hc h₁
  have hsf : Starts ms f := by
    rcases hf with rfl | rfl
    · exact starts_register hc
    · exact hcompiled
  refine ⟨?_, ?_, ?_⟩
  · intro s₂ f₂ o o' hr hr'
    exact hs₁.runs_agree hwf hsf hr hr'
  · rintro ⟨s₂, o, hr⟩
    exact hs₁.exists_run hwf hsf hr
  · rintro ⟨f₂, o', hr⟩
    exact hsf.exists_run hwf hs₁ hr

end Starting

def copying : Module := ⟨"m", [], ["y"], [], [⟨"identity", ["x"], ["y"], []⟩]⟩

def copyingNode : ComputeNode := ⟨0, "m/op0", "m", .op ⟨"identity", ["x"], ["y"], .identity⟩, []⟩

def copyRequest (v : Int64) : Request := ⟨["x"], [[.int64 v]], ["y"]⟩

theorem compile_copying : (Pipeline.register [copying]).compile.2 = .ok () := rfl

theorem copying_runs (v : Int64) : ∃ s,
    Runs unusedLibm [0, 0, 0] (copyRequest v) (compiled [copying]) s (.ok [[.int64 v]]) ∧
      s.statuses = [("m/op0", .success)] := by
  have hnode : copyingNode ∈ (graphOf [copying]).nodes := by decide
  have hdeps : ∀ s : ExecState, ∀ d ∈ copyingNode.deps, (s.phase d).isDone := by
    simp [copyingNode]
  obtain ⟨u, hu, hfetch, hstatus⟩ : ∃ u,
      Computes unusedLibm [0, 0, 0] ((compiled [copying]).feed ["x"] [[.int64 v]]).1 u (.ok ()) ∧
        (u.fetch ["y"]).2 = .ok [[.int64 v]] ∧ u.statuses = [("m/op0", .success)] := by
    refine ⟨_, .ran rfl (List.cons_ne_nil _ _) (.cons copyingNode hnode ⟨hdeps _, rfl⟩
      (.cons copyingNode hnode ⟨hdeps _, rfl⟩ (.cons copyingNode hnode ⟨hdeps _, rfl⟩ (.nil _))))
      ?_, rfl, rfl⟩
    intro n hn
    obtain rfl := List.mem_singleton.1 hn
    rfl
  refine ⟨(u.fetch ["y"]).1, ?_, (statuses_fetch _ _).trans hstatus⟩
  rw [← hfetch]
  exact .fetched rfl hu

theorem runs_independent_copying : ∃ s₁ s₂,
    Runs unusedLibm [0, 0, 0] (copyRequest 1) (compiled [copying]) s₁ (.ok [[.int64 1]]) ∧
      Runs unusedLibm [0, 0, 0] (copyRequest 2) s₁ s₂ (.ok [[.int64 2]]) ∧
        s₂.statuses = [("m/op0", .success)] := by
  obtain ⟨s₁, h₁, -⟩ := copying_runs 1
  obtain ⟨f₂, hf, hstatus⟩ := copying_runs 2
  obtain ⟨hsame, hexists⟩ :=
    runs_independent compile_copying h₁ (.inr rfl) [0, 0, 0] (copyRequest 2)
  obtain ⟨s₂, o, h₂⟩ := hexists.2 ⟨f₂, _, hf⟩
  obtain ⟨rfl, heq⟩ := hsame s₂ f₂ _ _ h₂ hf
  exact ⟨s₁, s₂, h₁, h₂, (heq ⟨_, rfl⟩).trans hstatus⟩

-- The second feed has a row without a cell: both runs throw, the statuses are those of the first.
theorem rejected_feed_keeps_statuses : ∃ s₁ s₂ f₂ e,
    Runs unusedLibm [0, 0, 0] (copyRequest 1) (compiled [copying]) s₁ (.ok [[.int64 1]]) ∧
      Runs unusedLibm [0, 0, 0] ⟨["x"], [[]], ["y"]⟩ s₁ s₂ (.error e) ∧
        Runs unusedLibm [0, 0, 0] ⟨["x"], [[]], ["y"]⟩ (compiled [copying]) f₂ (.error e) ∧
          s₂.statuses ≠ f₂.statuses := by
  obtain ⟨s₁, h₁, hstatus⟩ := copying_runs 1
  refine ⟨s₁, s₁, compiled [copying], _, h₁, .feedThrew rfl, .feedThrew rfl, ?_⟩
  rw [hstatus]
  decide

end Session

end Lark.Column.Biz
