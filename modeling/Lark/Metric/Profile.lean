import Lark.Base.Exn
import Lark.Base.Fold
import Lark.Base.Trie
import Lark.Toolkit.Str

namespace Lark.Metric

open Lark.Base Lark.Toolkit.Str

structure FlameGraphProfiler where
  totalNs : AList fun _ : String => Int
  count : AList fun _ : String => Int
  enabled : Bool

structure FrameTimes where
  selfNs : Int
  totalNs : Int
  count : Int
  deriving DecidableEq

-- A node of the tree builder holds its total and its count, a frame the time of its own as well.
abbrev Node : Type := Trie String (Int × Int)

abbrev Frame : Type := Trie String FrameTimes

-- std::sort by descending total: which of two equal frames comes first is not specified.
structure FrameSort where
  sort : List Frame → List Frame
  perm : ∀ fs, (sort fs).Perm fs
  sorted : ∀ fs, (sort fs).Pairwise fun a b => b.value.totalNs ≤ a.value.totalNs

namespace FlameGraphProfiler

def addSample (p : FlameGraphProfiler) (path : String) (elapsedNs : Int) : FlameGraphProfiler :=
  if p.enabled then
    { p with totalNs := addAt p.totalNs path elapsedNs, count := addAt p.count path 1 }
  else p

def countAt (p : FlameGraphProfiler) (path : String) : Except Exn Int :=
  match p.count.lookup path with
  | some c => .ok c
  | none => .error (.outOfRange "unordered_map::at")

mutual

def toFrame (sorting : FrameSort) : Node → Frame
  | .node name (total, count) children =>
    let frames := toFrames sorting children
    let kids := (frames.map fun f => f.value.totalNs).sum
    .node name ⟨total - kids, total, count⟩ (sorting.sort frames)

def toFrames (sorting : FrameSort) : List Node → List Frame
  | [] => []
  | n :: ns => toFrame sorting n :: toFrames sorting ns

end

-- The paths come in the order in which the hash map is walked.
def snapshot (sorting : FrameSort) (walk : List (Σ _ : String, Int)) (p : FlameGraphProfiler) :
    Except Exn Frame := do
  let children ← walk.foldlM (fun (ns : List Node) e => do
    let count ← p.countAt e.1
    .ok (Trie.insert (e.2, count) (split e.1 "::" false) ns)) []
  .ok (.node "root" ⟨0, 0, 0⟩ (toFrames sorting children))

end FlameGraphProfiler

structure Scope where
  startNs : Int
  active : Bool

-- The thread-local path stack, and the live scopes of the thread, innermost first.
structure Thread where
  profiler : FlameGraphProfiler
  pathStack : List String
  scopes : List Scope

inductive Event where
  | enter (name : String) (now : Int)
  | exit (now : Int)

namespace Event

def now : Event → Int
  | enter _ t => t
  | exit t => t

end Event

namespace Thread

def pathStackPush (name : String) (stack : List String) : List String := stack ++ [name]

def pathStackPop (stack : List String) : List String := stack.dropLast

def pathJoin (stack : List String) : String := join stack "::"

def step (t : Thread) : Event → Thread
  | .enter name now =>
    if t.profiler.enabled then
      { t with pathStack := pathStackPush name t.pathStack, scopes := ⟨now, true⟩ :: t.scopes }
    else { t with scopes := ⟨0, false⟩ :: t.scopes }
  | .exit now =>
    match t.scopes with
    | [] => t
    | scope :: scopes =>
      if scope.active then
        { profiler := t.profiler.addSample (pathJoin t.pathStack) (now - scope.startNs)
          pathStack := pathStackPop t.pathStack
          scopes := scopes }
      else { t with scopes := scopes }

def run (t : Thread) (events : List Event) : Thread := events.foldl step t

def start : Thread := ⟨⟨∅, ∅, true⟩, [], []⟩

theorem run_cons (t : Thread) (e : Event) (events : List Event) :
    t.run (e :: events) = (t.step e).run events := rfl

theorem run_append (t : Thread) (events events' : List Event) :
    t.run (events ++ events') = (t.run events).run events' :=
  List.foldl_append

end Thread

structure Call where
  path : List String
  elapsed : Int
  deriving DecidableEq

inductive WellNested : List String → List Event → List Call → Prop
  | nil (path : List String) : WellNested path [] []
  | scope {path : List String} {name : String} {start stop : Int} {inner rest : List Event}
    {calls after : List Call} (hinner : WellNested (path ++ [name]) inner calls)
    (hrest : WellNested path rest after) :
    WellNested path (.enter name start :: (inner ++ .exit stop :: rest))
      (calls ++ ⟨path ++ [name], stop - start⟩ :: after)

def callsAt (calls : List Call) (path : List String) : List Call := calls.filter (·.path = path)

def totalAt (calls : List Call) (path : List String) : Int :=
  ((callsAt calls path).map (·.elapsed)).sum

def frames (f : Frame) : List (List String × Int × Int) :=
  (Trie.entries f.children).map fun e => (e.1, e.2.totalNs, e.2.count)

structure Reproduces (calls : List Call) (f : Frame) : Prop where
  once : ((frames f).map Prod.fst).Nodup
  agree : ∀ path total count, (path, total, count) ∈ frames f ↔
    path ∈ calls.map (·.path) ∧ total = totalAt calls path ∧ count = (callsAt calls path).length

section Recording

variable {path : List String} {events : List Event} {calls : List Call} {t : Thread}
  {p : FlameGraphProfiler}

def record (p : FlameGraphProfiler) (calls : List Call) : FlameGraphProfiler :=
  calls.foldl (fun p c => p.addSample (Thread.pathJoin c.path) c.elapsed) p

theorem record_eq (hen : p.enabled = true) (calls : List Call) : record p calls =
    { p with
      totalNs := accumulate p.totalNs (calls.map fun c => (Thread.pathJoin c.path, c.elapsed))
      count := accumulate p.count (calls.map fun c => (Thread.pathJoin c.path, 1)) } := by
  induction calls generalizing p with
  | nil => rfl
  | cons c calls ih =>
    have hadd : (p.addSample (Thread.pathJoin c.path) c.elapsed).enabled = true := by
      simp [FlameGraphProfiler.addSample, hen]
    rw [record, List.foldl_cons, ← record, ih hadd]
    simp [FlameGraphProfiler.addSample, hen, accumulate]

theorem WellNested.run (h : WellNested path events calls) (hstack : t.pathStack = path)
    (hen : t.profiler.enabled = true) :
    t.run events = { t with profiler := record t.profiler calls } := by
  induction h generalizing t with
  | nil path => rfl
  | @scope path name start stop inner rest calls after _ _ ihin ihrest =>
    set opened : Thread :=
      { t with pathStack := path ++ [name], scopes := ⟨start, true⟩ :: t.scopes } with hopened
    have henter : t.step (.enter name start) = opened := by
      simp [Thread.step, hen, hstack, Thread.pathStackPush, hopened]
    have hinner : opened.run inner = { opened with profiler := record t.profiler calls } :=
      ihin rfl hen
    have henabled : (record t.profiler calls).enabled = true := by
      rw [record_eq hen]
      exact hen
    rw [Thread.run_cons, Thread.run_append, henter, hinner, Thread.run_cons,
      ihrest (by simp [Thread.step, Thread.pathStackPop, hopened])]
    · simp [Thread.step, Thread.pathStackPop, record, List.foldl_append, hstack, hopened]
    · simp [Thread.step, FlameGraphProfiler.addSample, henabled, hopened]

theorem WellNested.names (h : WellNested path events calls) :
    ∀ c ∈ calls, ∀ name ∈ c.path, name ∈ path ∨ ∃ now, .enter name now ∈ events := by
  induction h with
  | nil path => simp
  | @scope path name start stop inner rest calls after _ _ ihin ihrest =>
    intro c hc x hx
    rcases List.mem_append.1 hc with hc | hc
    · rcases ihin c hc x hx with hmem | ⟨now, hnow⟩
      · rcases List.mem_append.1 hmem with hmem | hmem
        · exact .inl hmem
        · exact .inr ⟨start, by simp [List.mem_singleton.1 hmem]⟩
      · exact .inr ⟨now, by simp [hnow]⟩
    · rcases List.mem_cons.1 hc with rfl | hc
      · rcases List.mem_append.1 hx with hx | hx
        · exact .inl hx
        · exact .inr ⟨start, by simp [List.mem_singleton.1 hx]⟩
      · rcases ihrest c hc x hx with hmem | ⟨now, hnow⟩
        · exact .inl hmem
        · exact .inr ⟨now, by simp [hnow]⟩

theorem WellNested.deeper (h : WellNested path events calls) :
    ∀ c ∈ calls, path <+: c.path ∧ path.length < c.path.length := by
  induction h with
  | nil path => simp
  | @scope path name start stop inner rest calls after _ _ ihin ihrest =>
    intro c hc
    rcases List.mem_append.1 hc with hc | hc
    · obtain ⟨hpre, hlen⟩ := ihin c hc
      rw [List.length_append] at hlen
      exact ⟨(List.prefix_append _ _).trans hpre, by omega⟩
    · rcases List.mem_cons.1 hc with rfl | hc
      · exact ⟨List.prefix_append _ _, by simp⟩
      · exact ihrest c hc

theorem WellNested.callers (h : WellNested path events calls) :
    ∀ c ∈ calls, ∀ q, path.length < q.length → q <+: c.path → q ∈ calls.map (·.path) := by
  induction h with
  | nil path => simp
  | @scope path name start stop inner rest calls after hin _ ihin ihrest =>
    intro c hc q hlen hq
    have hself : q.length = (path ++ [name]).length → path ++ [name] <+: c.path →
        q ∈ (calls ++ ⟨path ++ [name], stop - start⟩ :: after).map (·.path) := by
      intro heq hpre
      rw [List.prefix_of_prefix_length_le hq hpre heq.le |>.eq_of_length heq]
      simp
    rcases List.mem_append.1 hc with hc | hc
    · rcases Nat.lt_or_ge (path ++ [name]).length q.length with hlong | hshort
      · have hmem := ihin c hc q hlong hq
        rw [List.map_append]
        exact List.mem_append_left _ hmem
      · apply hself _ (hin.deeper c hc).1
        rw [List.length_append, List.length_singleton] at hshort ⊢
        omega
    · rcases List.mem_cons.1 hc with rfl | hc
      · apply hself _ List.prefix_rfl
        have hle := hq.length_le
        rw [List.length_append, List.length_singleton] at hle ⊢
        omega
      · have hmem := ihrest c hc q hlen hq
        rw [List.map_append, List.map_cons]
        exact List.mem_append_right _ (List.mem_cons_of_mem _ hmem)

theorem totalAt_append (calls after : List Call) (q : List String) :
    totalAt (calls ++ after) q = totalAt calls q + totalAt after q := by
  simp [totalAt, callsAt, List.filter_append]

theorem totalAt_cons (c : Call) (calls : List Call) (q : List String) :
    totalAt (c :: calls) q = (if c.path = q then c.elapsed else 0) + totalAt calls q := by
  by_cases hc : c.path = q <;> simp [totalAt, callsAt, hc]

theorem WellNested.total_within (h : WellNested path events calls)
    (hclock : (events.map Event.now).Pairwise (· ≤ ·)) {lo hi : Int} (hle : lo ≤ hi)
    (hrange : ∀ e ∈ events, lo ≤ e.now ∧ e.now ≤ hi) (q : List String) :
    0 ≤ totalAt calls q ∧ totalAt calls q ≤ hi - lo := by
  induction h generalizing lo hi with
  | nil path => simpa [totalAt, callsAt] using hle
  | @scope path name start stop inner rest calls after hin _ ihin ihrest =>
    simp only [List.map_cons, List.map_append, List.pairwise_cons, List.pairwise_append,
      List.mem_append, List.mem_cons, List.mem_map, Event.now] at hclock
    obtain ⟨hstart, hinner, ⟨hstop, hrest⟩, hcross⟩ := hclock
    have hspan : start ≤ stop := hstart stop (.inr (.inl rfl))
    have hlo : lo ≤ start := (hrange (.enter name start) List.mem_cons_self).1
    have hhi : stop ≤ hi := (hrange (.exit stop) (by simp)).2
    obtain ⟨hin0, hin1⟩ := ihin hinner hspan (fun e he =>
      ⟨hstart _ (.inl ⟨e, he, rfl⟩), hcross _ ⟨e, he, rfl⟩ _ (.inl rfl)⟩)
    obtain ⟨hrest0, hrest1⟩ := ihrest hrest hhi (fun e he =>
      ⟨hstop _ ⟨e, he, rfl⟩, (hrange e (by simp [he])).2⟩)
    rw [totalAt_append, totalAt_cons]
    by_cases hq : path ++ [name] = q
    · have hzero : totalAt calls q = 0 := by
        have hnone : callsAt calls q = [] := by
          apply List.filter_eq_nil_iff.2
          intro c hc heq
          have hlen := (hin.deeper c hc).2
          rw [of_decide_eq_true heq, hq] at hlen
          exact hlen.false
        simp [totalAt, hnone]
      simp only [hq, if_true]
      omega
    · rw [if_neg hq]
      omega

end Recording

section Frames

open FlameGraphProfiler

variable {sorting : FrameSort} {ns : List Node} {walk : List (Σ _ : String, Int)}
  {p : FlameGraphProfiler}

theorem toFrames_eq_map (ns : List Node) : toFrames sorting ns = ns.map (toFrame sorting) := by
  induction ns with
  | nil => rfl
  | cons n ns ih => rw [toFrames, ih, List.map_cons]

theorem label_toFrame (n : Node) : (toFrame sorting n).label = n.label := by
  cases n
  rfl

theorem children_toFrame (n : Node) :
    (toFrame sorting n).children = sorting.sort (toFrames sorting n.children) := by
  cases n
  rfl

theorem value_toFrame (sorting : FrameSort) (n : Node) :
    (toFrame sorting n).value.totalNs = n.value.1 ∧ (toFrame sorting n).value.count = n.value.2 := by
  cases n
  exact ⟨rfl, rfl⟩

theorem distinct_toFrames (sorting : FrameSort) (h : Trie.Distinct ns) :
    Trie.Distinct (toFrames sorting ns) := by
  induction h with
  | @intro ns labels _ ih =>
    rw [toFrames_eq_map]
    refine .intro ?_ ?_
    · rw [List.map_map]
      simpa [Function.comp_def, label_toFrame] using labels
    · intro f hf
      obtain ⟨n, hn, rfl⟩ := List.mem_map.1 hf
      rw [children_toFrame]
      exact (ih n hn).perm (sorting.perm _)

theorem mem_entries_toFrames (sorting : FrameSort) {q : List String} {total count : Int} :
    (∃ v : FrameTimes, (q, v) ∈ Trie.entries (toFrames sorting ns) ∧ v.totalNs = total ∧
      v.count = count) ↔ (q, (total, count)) ∈ Trie.entries ns := by
  induction q generalizing ns with
  | nil => simp [Trie.nil_notMem_entries]
  | cons k ks ih =>
    rw [toFrames_eq_map, Trie.mem_entries]
    constructor
    · rintro ⟨v, hv, rfl, rfl⟩
      obtain ⟨f, hf, hcases⟩ := Trie.mem_entries.1 hv
      obtain ⟨n, hn, rfl⟩ := List.mem_map.1 hf
      rw [label_toFrame, children_toFrame] at hcases
      obtain ⟨htotal, hcount⟩ := value_toFrame sorting n
      refine ⟨n, hn, ?_⟩
      rcases hcases with ⟨hq, rfl⟩ | ⟨q', hq, hmem⟩
      · exact .inl ⟨hq, by rw [htotal, hcount]⟩
      · obtain ⟨-, rfl⟩ := List.cons.inj hq
        rw [Trie.mem_entries_perm (sorting.perm _)] at hmem
        exact .inr ⟨ks, hq, ih.1 ⟨v, hmem, rfl, rfl⟩⟩
    · rintro ⟨n, hn, hcases⟩
      obtain ⟨htotal, hcount⟩ := value_toFrame sorting n
      have hf : toFrame sorting n ∈ ns.map (toFrame sorting) := List.mem_map_of_mem hn
      rcases hcases with ⟨hq, hv⟩ | ⟨q', hq, hmem⟩
      · refine ⟨_, Trie.mem_entries.2 ⟨_, hf, .inl ⟨by rw [hq, label_toFrame], rfl⟩⟩, ?_⟩
        rw [htotal, hcount, ← hv]
        exact ⟨rfl, rfl⟩
      · obtain ⟨-, rfl⟩ := List.cons.inj hq
        obtain ⟨v, hv, htotal, hcount⟩ := ih.2 hmem
        refine ⟨v, Trie.mem_entries.2 ⟨_, hf, .inr ⟨ks, by rw [hq, label_toFrame], ?_⟩⟩, htotal,
          hcount⟩
        rw [children_toFrame, Trie.mem_entries_perm (sorting.perm _)]
        exact hv

theorem snapshot_eq (count : String → Int) (h : ∀ e ∈ walk, p.countAt e.1 = .ok (count e.1)) :
    snapshot sorting walk p = .ok (.node "root" ⟨0, 0, 0⟩ (toFrames sorting
      (Trie.insertAll (walk.map fun e => (split e.1 "::" false, (e.2, count e.1))) []))) := by
  have hfold : ∀ ns : List Node, walk.foldlM (fun (ns : List Node) e => do
      let count ← p.countAt e.1
      .ok (Trie.insert (e.2, count) (split e.1 "::" false) ns)) ns =
        .ok (Trie.insertAll (walk.map fun e => (split e.1 "::" false, (e.2, count e.1))) ns) := by
    induction walk with
    | nil => exact fun _ => rfl
    | cons e walk ih =>
      intro ns
      obtain ⟨he, hwalk⟩ := List.forall_mem_cons.1 h
      rw [List.foldlM_cons, he, except_ok_bind, except_ok_bind, ih hwalk]
      rfl
  rw [snapshot, hfold, except_ok_bind]

end Frames

section RoundTrip

variable {path : List String}

theorem clear_colons (x : String) :
    Clear "::".toList x.toList ↔ contains x "::" = false ∧ endsWith x ":" = false := by
  have hdrop : "::".toList.dropLast = [':'] := rfl
  have hcolons : "::".toList = [':'] ++ [':'] := rfl
  rw [Clear, hdrop, List.infix_concat_iff, List.suffix_concat_iff, contains, endsWith,
    decide_eq_false_iff_not, decide_eq_false_iff_not, not_or, and_comm]
  apply and_congr_right
  intro _
  rw [hcolons]
  apply not_congr
  constructor
  · rintro (h | ⟨t, ht, hsuffix⟩)
    · cases h
    · obtain ⟨rfl, -⟩ := List.append_inj' ht rfl
      exact hsuffix
  · intro h
    exact .inr ⟨_, rfl, h⟩

theorem split_pathJoin (hne : path ≠ []) (hnames : ∀ x ∈ path, contains x "::" = false)
    (hends : ∀ x ∈ path.dropLast, endsWith x ":" = false) :
    split (Thread.pathJoin path) "::" false = path := by
  obtain ⟨parts, last, rfl⟩ := path.eq_nil_or_concat'.resolve_left hne
  rw [List.dropLast_concat] at hends
  apply split_join (by decide)
  · intro x hx
    exact (clear_colons x).2 ⟨hnames x (List.mem_append_left _ hx), hends x hx⟩
  · exact hnames last (by simp)

theorem endsWith_of_prefix_split {s : String} (h : path <+: split s "::" false) :
    ∀ x ∈ path.dropLast, endsWith x ":" = false := by
  intro x hx
  obtain ⟨parts, last, rfl⟩ := path.eq_nil_or_concat'.resolve_left (by rintro rfl; simp at hx)
  obtain ⟨rest, hrest⟩ := h
  rw [List.dropLast_concat] at hx
  refine ((clear_colons x).1 (clear_of_mem_split (by decide) s x ?_)).2
  rw [← hrest, List.append_assoc, List.dropLast_append_of_ne_nil (by simp)]
  exact List.mem_append_left _ hx

end RoundTrip

section Snapshot

open FlameGraphProfiler

variable {path : List String} {events : List Event} {calls : List Call} {k : String}
  {walk : List (Σ _ : String, Int)} {sorting : FrameSort}

def sampled (calls : List Call) : FlameGraphProfiler := record Thread.start.profiler calls

def tally (calls : List Call) (k : String) : Int × Int :=
  (((calls.filter (Thread.pathJoin ·.path = k)).map (·.elapsed)).sum,
    (calls.filter (Thread.pathJoin ·.path = k)).length)

theorem lookup_accumulated (g : Call → Int) (h : ∃ c ∈ calls, Thread.pathJoin c.path = k) :
    (accumulate ∅ (calls.map fun c => (Thread.pathJoin c.path, g c))).lookup k =
      some ((calls.filter (Thread.pathJoin ·.path = k)).map g).sum := by
  rw [lookup_accumulate_of_mem (.inr (by simpa using h))]
  simp [List.filter_map, Function.comp_def]

theorem lookup_sampled (h : ∃ c ∈ calls, Thread.pathJoin c.path = k) :
    (sampled calls).totalNs.lookup k = some (tally calls k).1 ∧
      (sampled calls).count.lookup k = some (tally calls k).2 := by
  rw [sampled, record_eq rfl]
  refine ⟨lookup_accumulated _ h, ?_⟩
  refine (lookup_accumulated (fun _ => 1) h).trans ?_
  simp [tally]

theorem exists_of_lookup {x : Int} (h : (sampled calls).totalNs.lookup k = some x) :
    ∃ c ∈ calls, Thread.pathJoin c.path = k := by
  by_contra hno
  rw [sampled, record_eq rfl] at h
  change (accumulate ∅ _).lookup k = _ at h
  rw [lookup_accumulate_of_not] at h
  · cases h
  · intro e he heq
    obtain ⟨c, hc, rfl⟩ := List.mem_map.1 he
    exact hno ⟨c, hc, heq⟩

theorem mem_walk (hwalk : walk.Perm (sampled calls).totalNs.entries) {x : Int} :
    ⟨k, x⟩ ∈ walk ↔ (∃ c ∈ calls, Thread.pathJoin c.path = k) ∧ x = (tally calls k).1 := by
  rw [hwalk.mem_iff, ← AList.mem_lookup_iff, Option.mem_def]
  constructor
  · intro hx
    have hc := exists_of_lookup hx
    exact ⟨hc, Option.some.inj (hx.symm.trans (lookup_sampled hc).1)⟩
  · rintro ⟨hc, rfl⟩
    exact (lookup_sampled hc).1

def inserted (calls : List Call) (walk : List (Σ _ : String, Int)) :
    List (List String × (Int × Int)) :=
  walk.map fun e => (split e.1 "::" false, (e.2, (tally calls e.1).2))

theorem mem_inserted (hwalk : walk.Perm (sampled calls).totalNs.entries)
    {e : List String × (Int × Int)} : e ∈ inserted calls walk ↔ ∃ c ∈ calls,
      e = (split (Thread.pathJoin c.path) "::" false, tally calls (Thread.pathJoin c.path)) := by
  rw [inserted, List.mem_map]
  constructor
  · rintro ⟨⟨k, x⟩, hk, rfl⟩
    obtain ⟨⟨c, hc, rfl⟩, rfl⟩ := (mem_walk hwalk).1 hk
    exact ⟨c, hc, rfl⟩
  · rintro ⟨c, hc, rfl⟩
    exact ⟨⟨_, _⟩, (mem_walk hwalk).2 ⟨⟨c, hc, rfl⟩, rfl⟩, rfl⟩

theorem nodup_inserted (hwalk : walk.Perm (sampled calls).totalNs.entries) :
    ((inserted calls walk).map Prod.fst).Nodup := by
  have hkeys : (walk.map Sigma.fst).Nodup :=
    (hwalk.map Sigma.fst).nodup_iff.2 (sampled calls).totalNs.keys_nodup
  have hinj : Function.Injective (split · "::" false) := by
    intro s s' h
    have hne : "::" ≠ "" := by decide
    rw [← join_split hne s, ← join_split hne s']
    exact congrArg (join · "::") h
  simpa [inserted, Function.comp_def] using hkeys.map hinj

def tree (calls : List Call) (walk : List (Σ _ : String, Int)) : List Node :=
  Trie.insertAll (inserted calls walk) []

theorem snapshot_sampled (hwalk : walk.Perm (sampled calls).totalNs.entries) :
    snapshot sorting walk (sampled calls) =
      .ok (.node "root" ⟨0, 0, 0⟩ (toFrames sorting (tree calls walk))) := by
  refine snapshot_eq (fun k => (tally calls k).2) ?_
  rintro ⟨k, x⟩ he
  obtain ⟨hc, -⟩ := (mem_walk hwalk).1 he
  simp [countAt, (lookup_sampled hc).2]

theorem distinct_tree (calls : List Call) (walk : List (Σ _ : String, Int)) :
    Trie.Distinct (tree calls walk) :=
  Trie.distinct_nil.insertAll _

theorem mem_frames {total count : Int} :
    (path, total, count) ∈ frames (.node "root" ⟨0, 0, 0⟩ (toFrames sorting (tree calls walk))) ↔
      Trie.find (tree calls walk) path = some (total, count) := by
  rw [(distinct_tree calls walk).find_eq_some, ← mem_entries_toFrames sorting, frames,
    List.mem_map]
  constructor
  · rintro ⟨⟨q, v⟩, hv, heq⟩
    obtain ⟨rfl, rfl, rfl⟩ : q = path ∧ v.totalNs = total ∧ v.count = count := by simpa using heq
    exact ⟨v, hv, rfl, rfl⟩
  · rintro ⟨v, hv, rfl, rfl⟩
    exact ⟨(path, v), hv, rfl⟩

theorem tally_pathJoin (hsplit : ∀ c ∈ calls, split (Thread.pathJoin c.path) "::" false = c.path)
    {c : Call} (hc : c ∈ calls) : tally calls (Thread.pathJoin c.path) =
      (totalAt calls c.path, ((callsAt calls c.path).length : Int)) := by
  have hkey : calls.filter (Thread.pathJoin ·.path = Thread.pathJoin c.path) =
      callsAt calls c.path := by
    apply List.filter_congr
    intro d hd
    rw [decide_eq_decide]
    refine ⟨?_, congrArg _⟩
    intro h
    rw [← hsplit d hd, h, hsplit c hc]
  rw [tally, hkey, totalAt]

theorem inserted_of_call (hsplit : ∀ c ∈ calls, split (Thread.pathJoin c.path) "::" false = c.path)
    (hwalk : walk.Perm (sampled calls).totalNs.entries) {c : Call} (hc : c ∈ calls) :
    (c.path, tally calls (Thread.pathJoin c.path)) ∈ inserted calls walk :=
  (mem_inserted hwalk).2 ⟨c, hc, by rw [hsplit c hc]⟩

theorem find_tree_of_call (hsplit : ∀ c ∈ calls, split (Thread.pathJoin c.path) "::" false = c.path)
    (hwalk : walk.Perm (sampled calls).totalNs.entries) {c : Call} (hc : c ∈ calls)
    (hne : c.path ≠ []) : Trie.find (tree calls walk) c.path =
      some (totalAt calls c.path, ((callsAt calls c.path).length : Int)) := by
  have hmem := inserted_of_call hsplit hwalk hc
  rw [tree, Trie.find_insertAll_of_prefix _ hne (.inr ⟨_, hmem, List.prefix_rfl⟩),
    sum_filter_of_nodup (nodup_inserted hwalk) hmem, tally_pathJoin hsplit hc]
  simp [Trie.find_nil]

theorem prefix_of_find_tree (hwalk : walk.Perm (sampled calls).totalNs.entries) {x : Int × Int}
    (h : Trie.find (tree calls walk) path = some x) :
    ∃ c ∈ calls, path <+: split (Thread.pathJoin c.path) "::" false := by
  by_contra hno
  rw [tree, Trie.find_insertAll_of_not, Trie.find_nil] at h
  · cases h
  · intro e he hpre
    obtain ⟨c, hc, rfl⟩ := (mem_inserted hwalk).1 he
    exact hno ⟨c, hc, hpre⟩

theorem endsWith_of_reproduces (hwalk : walk.Perm (sampled calls).totalNs.entries)
    (hrep : Reproduces calls (.node "root" ⟨0, 0, 0⟩ (toFrames sorting (tree calls walk)))) :
    ∀ c ∈ calls, ∀ name ∈ c.path.dropLast, endsWith name ":" = false := by
  intro c hc
  have hframe := (hrep.agree c.path _ _).2 ⟨List.mem_map_of_mem hc, rfl, rfl⟩
  obtain ⟨d, -, hpre⟩ := prefix_of_find_tree hwalk (mem_frames.1 hframe)
  exact endsWith_of_prefix_split hpre

theorem profiler_run (h : WellNested [] events calls) :
    (Thread.start.run events).profiler = sampled calls := by
  rw [h.run rfl rfl]
  rfl

theorem snapshot_reproduces_iff (h : WellNested [] events calls)
    (hnames : ∀ name now, .enter name now ∈ events → contains name "::" = false)
    (sorting : FrameSort) (hwalk : walk.Perm (Thread.start.run events).profiler.totalNs.entries) :
    (∃ f, snapshot sorting walk (Thread.start.run events).profiler = .ok f ∧ Reproduces calls f) ↔
      ∀ c ∈ calls, ∀ name ∈ c.path.dropLast, endsWith name ":" = false := by
  rw [profiler_run h] at hwalk ⊢
  rw [snapshot_sampled hwalk]
  constructor
  · rintro ⟨f, hf, hrep⟩
    obtain rfl := Except.ok.inj hf
    exact endsWith_of_reproduces hwalk hrep
  · intro hends
    have hdeep : ∀ c ∈ calls, c.path ≠ [] := by
      intro c hc hnil
      have hlen := (h.deeper c hc).2
      simp [hnil] at hlen
    have hsplit : ∀ c ∈ calls, split (Thread.pathJoin c.path) "::" false = c.path := by
      intro c hc
      apply split_pathJoin (hdeep c hc) _ (hends c hc)
      intro x hx
      obtain ⟨now, hnow⟩ := (h.names c hc x hx).resolve_left List.not_mem_nil
      exact hnames x now hnow
    refine ⟨_, rfl, ?_, ?_⟩
    · have hnodup := (distinct_toFrames sorting (distinct_tree calls walk)).nodup
      simpa [frames, Function.comp_def] using hnodup
    · intro q total count
      rw [mem_frames]
      constructor
      · intro hfind
        obtain ⟨c, hc, hpre⟩ := prefix_of_find_tree hwalk hfind
        rw [hsplit c hc] at hpre
        have hq : q ≠ [] := by
          rintro rfl
          cases hfind
        have hcall := h.callers c hc q (List.length_pos_of_ne_nil hq) hpre
        obtain ⟨d, hd, rfl⟩ := List.mem_map.1 hcall
        obtain ⟨rfl, rfl⟩ := Prod.mk.inj (Option.some.inj
          (hfind.symm.trans (find_tree_of_call hsplit hwalk hd hq)))
        exact ⟨hcall, rfl, rfl⟩
      · rintro ⟨hq, rfl, rfl⟩
        obtain ⟨c, hc, rfl⟩ := List.mem_map.1 hq
        exact find_tree_of_call hsplit hwalk hc (hdeep c hc)

def mergeSorting : FrameSort where
  sort fs := fs.mergeSort fun a b => b.value.totalNs ≤ a.value.totalNs
  perm fs := List.mergeSort_perm fs _
  sorted fs := by
    have htrans : ∀ a b c : Frame, decide (b.value.totalNs ≤ a.value.totalNs) →
        decide (c.value.totalNs ≤ b.value.totalNs) → decide (c.value.totalNs ≤ a.value.totalNs) := by
      simpa using fun a b c hab hbc => hbc.trans hab
    have htotal : ∀ a b : Frame, decide (b.value.totalNs ≤ a.value.totalNs) ||
        decide (a.value.totalNs ≤ b.value.totalNs) := by
      simpa using fun a b => le_total _ _
    simpa using List.pairwise_mergeSort htrans htotal fs

def nested (outer inner : String) : List Event :=
  [.enter outer 0, .enter inner 1, .exit 3, .exit 7]

def nestedCalls (outer inner : String) : List Call := [⟨[outer, inner], 2⟩, ⟨[outer], 7⟩]

theorem wellNested_nested (outer inner : String) :
    WellNested [] (nested outer inner) (nestedCalls outer inner) :=
  .scope (.scope (.nil _) (.nil _)) (.nil _)

theorem names_nested {outer inner : String} (houter : contains outer "::" = false)
    (hinner : contains inner "::" = false) :
    ∀ name now, .enter name now ∈ nested outer inner → contains name "::" = false := by
  intro name now h
  have hcases : name = outer ∧ now = 0 ∨ name = inner ∧ now = 1 := by
    simpa [nested] using h
  rcases hcases with ⟨rfl, -⟩ | ⟨rfl, -⟩
  · exact houter
  · exact hinner

theorem snapshot_reproduces_nested : ∃ f,
    snapshot mergeSorting (Thread.start.run (nested "a" "b")).profiler.totalNs.entries
      (Thread.start.run (nested "a" "b")).profiler = .ok f ∧ Reproduces (nestedCalls "a" "b") f := by
  refine (snapshot_reproduces_iff (wellNested_nested "a" "b")
    (names_nested (by decide) (by decide)) mergeSorting (.refl _)).2 ?_
  decide

-- "a:" and "b" are joined to "a:::b", which is split into "a" and ":b".
theorem snapshot_misplaces_nested : WellNested [] (nested "a:" "b") (nestedCalls "a:" "b") ∧
    (∀ name now, .enter name now ∈ nested "a:" "b" → contains name "::" = false) ∧
      ¬ ∃ f, snapshot mergeSorting (Thread.start.run (nested "a:" "b")).profiler.totalNs.entries
        (Thread.start.run (nested "a:" "b")).profiler = .ok f ∧
          Reproduces (nestedCalls "a:" "b") f := by
  have hnested := wellNested_nested "a:" "b"
  refine ⟨hnested, names_nested (by decide) (by decide), ?_⟩
  rintro ⟨f, hf, hrep⟩
  rw [profiler_run hnested, snapshot_sampled (.refl _)] at hf
  obtain rfl := Except.ok.inj hf
  have hends := endsWith_of_reproduces (.refl _) hrep ⟨["a:", "b"], 2⟩ (by simp [nestedCalls])
  simpa [endsWith] using hends "a:" (by simp)

end Snapshot

end Lark.Metric
