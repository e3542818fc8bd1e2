import Lark.Column.FetchRows
import Lark.Column.Biz.ProgramRuns
import Lark.Column.Biz.Reuse

namespace Lark.Column

open Lark.Base

variable {names : List String} {rows : List Row} {table table' : TensorTable} {c : String}

theorem TensorTable.add_names {name : String} {t : Tensor} (h : table.add name t = .ok table') :
    ∀ d, d ∈ table.entries.map Prod.fst ∨ d = name → d ∈ table'.entries.map Prod.fst := by
  unfold TensorTable.add at h
  split_ifs at h with hsize hknown
  · obtain rfl := Except.ok.inj h
    have hkeys : (table.entries.map fun e => if e.1 = name then (name, t) else e).map Prod.fst =
        table.entries.map Prod.fst := by
      rw [List.map_map]
      apply List.map_congr_left
      intro e _
      by_cases he : e.1 = name <;> simp [he]
    have hname : name ∈ table.entries.map Prod.fst := by
      obtain ⟨u, hu⟩ := Option.isSome_iff_exists.1 hknown
      obtain ⟨pre, post, hsplit, -⟩ := List.lookup_eq_some_iff.1 hu
      simp [hsplit]
    rintro d (hd | rfl)
    · rwa [hkeys]
    · rwa [hkeys]
  · obtain rfl := Except.ok.inj h
    rintro d (hd | rfl)
    · simp only [List.map_append, List.mem_append]
      exact .inl hd
    · simp

theorem feedTable_names (h : feedTable names rows = .ok table) (hc : c ∈ names) :
    c ∈ table.entries.map Prod.fst := by
  have hfold : ∀ (ps : List (String × Nat)) (start : TensorTable),
      ps.foldlM (fun table p => do table.add p.1 (← feedColumn rows p.2)) start = .ok table →
      ∀ d, d ∈ start.entries.map Prod.fst ∨ d ∈ ps.map Prod.fst →
        d ∈ table.entries.map Prod.fst := by
    intro ps
    induction ps with
    | nil =>
      intro start hrun d hd
      obtain rfl := Except.ok.inj hrun
      simpa using hd
    | cons p ps ih =>
      intro start hrun d hd
      rw [List.foldlM_cons] at hrun
      obtain ⟨next, hstep, hrest⟩ := except_bind_eq_ok.mp hrun
      obtain ⟨t, -, hadd⟩ := except_bind_eq_ok.mp hstep
      apply ih next hrest
      rw [List.map_cons, List.mem_cons, ← or_assoc] at hd
      exact hd.imp_left (TensorTable.add_names hadd d)
  apply hfold names.zipIdx .empty h
  rw [List.zipIdx_map_fst]
  exact .inr hc

theorem isSome_addTable (store : TensorStore) (h : c ∈ table.entries.map Prod.fst) :
    ((store.addTable table).find c).isSome := by
  unfold TensorStore.addTable
  generalize table.entries = entries at h
  induction entries using List.reverseRecOn with
  | nil => cases h
  | append_singleton entries e ih =>
    rw [List.foldl_append, List.foldl_cons, List.foldl_nil]
    rcases eq_or_ne c e.1 with rfl | hne
    · simp
    · rw [TensorStore.set_find_of_ne _ _ _ hne]
      apply ih
      simpa [hne] using h

theorem toTable_congr {store store' : TensorStore}
    (h : ∀ c ∈ names, store.find c = store'.find c) :
    store.toTable names = store'.toTable names := by
  have hfold : ∀ acc, names.foldlM store.toTableStep acc = names.foldlM store'.toTableStep acc := by
    induction names with
    | nil => exact fun _ => rfl
    | cons name names ih =>
      intro acc
      have hstep : store.toTableStep acc name = store'.toTableStep acc name := by
        simp only [TensorStore.toTableStep, h name (by simp)]
      rw [List.foldlM_cons, List.foldlM_cons, hstep]
      congr 1
      funext acc
      exact ih (fun c hc => h c (by simp [hc])) acc
  change names.foldlM store.toTableStep (.empty, none) >>= _ =
    names.foldlM store'.toTableStep (.empty, none) >>= _
  rw [hfold]

end Lark.Column

namespace Lark.Column.Biz.Session

open Lark.Base Lark.Column.Exec Relation

def readOut (store : TensorStore) (names : List String) : Except Exn (List Row) :=
  store.toTable names >>= fun table => fetchRows table names

def Serves (libm : Libm) (s t : Session) : Prop := ∃ order r o, Runs libm order r s t o

inductive Answers (libm : Libm) (all : List Dsl.Statement) (r : Request) (t : Session) :
    Except Exn (List Row) → Prop
  | rejected {e : Exn} (h : Column.feedTable r.feedNames r.feedRows = .error e) :
    Answers libm all r t (.error e)
  | computed {table : TensorTable} {out : TensorStore}
    (h : Column.feedTable r.feedNames r.feedRows = .ok table)
    (hrun : Dsl.evalProgram libm all (TensorStore.empty.addTable table) = .ok out)
    (hs : ∀ p ∈ t.statuses, p.2 = .success) : Answers libm all r t (readOut out r.fetchNames)
  | failed {table : TensorTable} {pre post : List Dsl.Statement} {st : Dsl.Statement}
    {out : TensorStore} {e : Exn} {o : Except Exn (List Row)}
    (h : Column.feedTable r.feedNames r.feedRows = .ok table)
    (hall : Dsl.evalProgram libm all (TensorStore.empty.addTable table) = .error e)
    (hsplit : all = pre ++ st :: post)
    (hrun : Dsl.evalProgram libm pre (TensorStore.empty.addTable table) = .ok out)
    (hst : st.eval libm out = .error e) (hs : ∃ p ∈ t.statuses, p.2 = .failed)
    (ho : (∀ c ∈ r.fetchNames, c ∉ (st :: post).map Dsl.Statement.column) →
      o = readOut out r.fetchNames) : Answers libm all r t o

section

variable {libm : Libm} {ms : List Module} {prog : Module → List Dsl.Statement}
  {all : List Dsl.Statement} {g : ComputeGraph} {order : List Nat} {r : Request}
  {s t u : Session} {o : Except Exn (List Row)}

theorem compile_of_build (h : build ms = .ok g) :
    (Pipeline.register ms).compile.2 = .ok () ∧ graphOf ms = g := by
  have hcompile : Biz.compile (Pipeline.register ms).modules (Pipeline.register ms).moduleNames
      (.start .empty) = compileAll ms := rfl
  unfold build at h
  unfold graphOf Pipeline.compile
  rw [hcompile]
  cases hc : compileAll ms with
  | error e c => simp [hc] at h
  | ok a c =>
    simp only [hc] at h ⊢
    generalize c.graph.finalize = f at h ⊢
    obtain ⟨g', o⟩ := f
    cases o with
    | error e => cases h
    | ok a => exact ⟨rfl, Except.ok.inj h⟩

theorem fetch_readOut (names : List String) (v : Session) :
    (v.fetch names).2 = readOut v.pipeline.store names := by
  unfold fetch readOut
  cases v.pipeline.store.toTable names <;> rfl

theorem readOut_congr {store store' : TensorStore} {names : List String}
    (h : ∀ c ∈ names, store.find c = store'.find c) :
    readOut store names = readOut store' names := by
  rw [readOut, readOut, toTable_congr h]

theorem Computed.execution (hwf : (graphOf ms).WellFormed) {phase : Nat → Phase}
    {table : TensorTable} {x : ExecState} (h : Computed ms libm order phase table u x) :
    ∃ y, Execution libm (graphOf ms) (TensorStore.empty.addTable table) y ∧
      SameRun (graphOf ms) x y := by
  cases hnodes : (graphOf ms).nodes with
  | nil =>
    refine ⟨startState (graphOf ms) (TensorStore.empty.addTable table), ⟨.refl, ?_⟩, ?_, ?_⟩
    · simp [Finished, hnodes]
    · simp [hnodes]
    · rw [h.idle hnodes]
      simp [startState, ComputeGraph.reserveOutputs, hnodes]
  | cons n rest =>
    have hne : (graphOf ms).nodes ≠ [] := by simp [hnodes]
    have hstart : SameRun (graphOf ms)
        ⟨resetRunState (graphOf ms) phase,
          (graphOf ms).reserveOutputs (TensorStore.empty.addTable table)⟩
        (startState (graphOf ms) (TensorStore.empty.addTable table)) :=
      ⟨fun n hn => resetRunState_node (graphOf ms) phase hn, rfl⟩
    obtain ⟨y, hy, hsame⟩ := hstart.follows hwf (h.follows hne)
    refine ⟨y, ⟨hy.run, fun n hn => ?_⟩, hsame⟩
    rw [← hsame.phase n hn]
    exact h.finished n hn

theorem Starts.exists_runs (hs : Starts ms s) (hwf : (graphOf ms).WellFormed)
    (ha : (graphOf ms).Acyclic) (htopo : (graphOf ms).topo = (graphOf ms).sorted) :
    ∃ order t o, Runs libm order r s t o := by
  cases htable : Column.feedTable r.feedNames r.feedRows with
  | error e => exact ⟨[], s, .error e, .feedThrew (by simp [feed, htable])⟩
  | ok table =>
    obtain ⟨q, hready, hgraph, -, -, -, hstore⟩ := hs table
    have hfeed : s.feed r.feedNames r.feedRows =
        ({ s with pipeline := s.pipeline.feed table.entries, feedTable := table }, .ok ()) := by
      simp [feed, htable]
    have hx : Execution libm (graphOf ms) (TensorStore.empty.addTable table) _ :=
      execute_execution hwf ha htopo (TensorStore.empty.addTable table)
    obtain ⟨order, hfollows⟩ := exists_follows hx.run
    have hstart : SameRun (graphOf ms) (startState (graphOf ms) (TensorStore.empty.addTable table))
        ⟨resetRunState (graphOf ms) s.phase,
          (graphOf ms).reserveOutputs (TensorStore.empty.addTable table)⟩ :=
      ⟨fun n hn => (resetRunState_node (graphOf ms) s.phase hn).symm, rfl⟩
    obtain ⟨y, hy, hsame⟩ := hstart.follows hwf hfollows
    by_cases hnodes : (graphOf ms).nodes = []
    · exact ⟨[], _, _, .fetched hfeed (.empty hready (hgraph ▸ hnodes))⟩
    · refine ⟨order, _, _, .fetched hfeed (.ran (x := y) hready (hgraph ▸ hnodes) ?_ ?_)⟩
      · rw [hgraph, hstore]
        exact hy
      · rw [hgraph]
        intro n hn
        rw [← hsame.phase n hn]
        exact hx.finished n hn

theorem Computed.statuses_eq {phase : Nat → Phase} {table : TensorTable} {x y : ExecState}
    (h : Computed ms libm order phase table u x) (hsame : SameRun (graphOf ms) x y) :
    u.statuses = (graphOf ms).nodes.map fun n => (n.id, NodeStatus.ofPhase (y.phase n.ptr)) := by
  rw [statuses, h.config.1]
  apply List.map_congr_left
  intro n hn
  rw [h.phase n hn, hsame.phase n hn]

theorem starts_served (hc : (Pipeline.register ms).compile.2 = .ok ())
    (h : ReflTransGen (Serves libm) (register ms) s) : Starts ms s := by
  apply run_invariant (I := Starts ms) ?_ (starts_register hc) h
  rintro s t hs ⟨order, r, o, hr⟩
  exact hs.after hc hr

def FeedsPorts (ms : List Module) (all : List Dsl.Statement) (r : Request) : Prop :=
  ∀ c, isLocalName c = false → Declared ms c →
    c ∈ all.map Dsl.Statement.column ∨ c ∈ r.feedNames

theorem FeedsPorts.fed (h : FeedsPorts ms all r) {table : TensorTable}
    (ht : Column.feedTable r.feedNames r.feedRows = .ok table) :
    PortsFed ms all (TensorStore.empty.addTable table) :=
  fun c hl hd => (h c hl hd).imp_right fun hc => isSome_addTable _ (feedTable_names ht hc)

theorem answers_of_meets {table : TensorTable} {v : Session} {x y : ExecState}
    {phase : Nat → Phase} (ht : Column.feedTable r.feedNames r.feedRows = .ok table)
    (hx : Computed ms libm order phase table v x) (hsame : SameRun (graphOf ms) x y)
    (hnames : ∀ c ∈ r.fetchNames, isLocalName c = false)
    (hm : Meets libm all (TensorStore.empty.addTable table) (graphOf ms) y
      (Dsl.evalProgram libm all (TensorStore.empty.addTable table))) :
    Answers libm all r (v.fetch r.fetchNames).1 (v.fetch r.fetchNames).2 := by
  have hstatuses : (v.fetch r.fetchNames).1.statuses = _ :=
    (statuses_fetch r.fetchNames v).trans (hx.statuses_eq hsame)
  rw [fetch_readOut, hx.store, hsame.store]
  generalize hrun : Dsl.evalProgram libm all (TensorStore.empty.addTable table) = result at hm
  cases hm with
  | computed hdone hout =>
    rw [readOut_congr fun c hc => hout c (hnames c hc)]
    apply Answers.computed ht hrun
    intro p hp
    rw [hstatuses] at hp
    obtain ⟨n, hn, rfl⟩ := List.mem_map.1 hp
    rw [hdone n hn]
    rfl
  | @failed pre post st out e n hn hfail hsplit hpre hst hout =>
    apply Answers.failed ht hrun hsplit hpre hst
    · refine ⟨(n.id, .ofPhase (y.phase n.ptr)), ?_, ?_⟩
      · rw [hstatuses]
        exact List.mem_map_of_mem hn
      · rw [hfail]
        rfl
    · intro hdisjoint
      exact readOut_congr fun c hc => hout c (hnames c hc) (hdisjoint c hc)

theorem exists_run_served (hp : Programmed ms prog all g)
    (hs : ReflTransGen (Serves libm) (register ms) s) : ∃ order t o, Runs libm order r s t o := by
  obtain ⟨hcompile, rfl⟩ := compile_of_build hp.built
  obtain ⟨-, hcomp, hacyclic, htopo⟩ := build_spec hp.named hp.built
  exact (starts_served hcompile hs).exists_runs hcomp.wf hacyclic htopo

theorem run_answers (hp : Programmed ms prog all g)
    (hs : ReflTransGen (Serves libm) (register ms) s) (hports : FeedsPorts ms all r)
    (hnames : ∀ c ∈ r.fetchNames, isLocalName c = false) (hr : Runs libm order r s t o) :
    Answers libm all r t o := by
  obtain ⟨hcompile, rfl⟩ := compile_of_build hp.built
  rcases (starts_served hcompile hs).runs hr with
    ⟨e, htable, -, rfl⟩ | ⟨table, v, x, htable, hx, rfl, rfl⟩
  · exact .rejected htable
  · obtain ⟨y, hy, hsame⟩ := hx.execution hp.compiled.wf
    exact answers_of_meets htable hx hsame hnames (hp.execution_meets (hports.fed htable) hy)

end

def sumRequest (v : Int64) : Request := ⟨["x"], [[.int64 v]], ["z"]⟩

theorem sum_feedsPorts (v : Int64) :
    FeedsPorts [addsUp, hands] [sumStatement, copyStatement] (sumRequest v) := by
  intro c hl hdecl
  rcases sum_ports c hl hdecl with hc | hc
  · exact .inl hc
  · right
    by_contra hne
    have hx : c ≠ "x" := by simpa [sumRequest] using hne
    simp [fedX, hx, TensorStore.empty] at hc

theorem sum_answer :
    (Column.feedTable (sumRequest 5).feedNames (sumRequest 5).feedRows >>= fun table =>
      Dsl.evalProgram unusedLibm [sumStatement, copyStatement]
        (TensorStore.empty.addTable table) >>= fun out =>
          readOut out (sumRequest 5).fetchNames) = .ok [[.int64 10]] := by
  decide +kernel

end Lark.Column.Biz.Session
