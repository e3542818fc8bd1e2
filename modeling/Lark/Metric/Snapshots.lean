import Lark.Base.Counting
import Lark.Metric.Profile

namespace Lark.Metric

open Lark.Base Lark.Toolkit.Str

-- Every thread has its own path stack; the profiler is shared.
structure Threads (ι : Type) where
  profiler : FlameGraphProfiler
  pathStack : ι → List String
  scopes : ι → List Scope

variable {ι : Type}

def entered (events : List (ι × Event)) : List String :=
  events.filterMap fun x =>
    match x.2 with
    | .enter name _ => some name
    | .exit _ => none

theorem clock_concat {events : List (ι × Event)} {x : ι × Event}
    (h : ((events ++ [x]).map fun x => x.2.now).Pairwise (· ≤ ·)) :
    (events.map fun x => x.2.now).Pairwise (· ≤ ·) ∧ ∀ y ∈ events, y.2.now ≤ x.2.now := by
  rw [List.map_append, List.pairwise_append] at h
  obtain ⟨hbefore, -, hlast⟩ := h
  exact ⟨hbefore, fun y hy => hlast _ (List.mem_map_of_mem hy) _ (by simp)⟩

namespace Threads

def start : Threads ι := ⟨Thread.start.profiler, fun _ => [], fun _ => []⟩

def step [DecidableEq ι] (s : Threads ι) (x : ι × Event) : Threads ι :=
  let t := Thread.step ⟨s.profiler, s.pathStack x.1, s.scopes x.1⟩ x.2
  { profiler := t.profiler
    pathStack := Function.update s.pathStack x.1 t.pathStack
    scopes := Function.update s.scopes x.1 t.scopes }

def run [DecidableEq ι] (events : List (ι × Event)) : Threads ι := events.foldl step start

end Threads

structure Consistent (root : Frame) : Prop where
  total : ∀ q f, Trie.At root.children q f →
    f.value.totalNs = f.value.selfNs + (f.children.map fun g => g.value.totalNs).sum
  self : ∀ q f, Trie.At root.children q f → 0 ≤ f.value.selfNs
  sorted : ∀ f, (f = root ∨ ∃ q, Trie.At root.children q f) →
    f.children.Pairwise fun a b => b.value.totalNs ≤ a.value.totalNs

-- `spent` is the time of the calls that have finished directly below an open one.
structure OpenCall where
  path : List String
  startNs : Int
  spent : Int

-- `own` is the time of a call without that of the calls directly below it.
structure Finished where
  call : Call
  own : Int

structure Ledger (ι : Type) where
  opened : ι → List OpenCall
  finished : List Finished

namespace Ledger

def topPath : List OpenCall → List String
  | [] => []
  | c :: _ => c.path

def spend (d : Int) : List OpenCall → List OpenCall
  | [] => []
  | c :: cs => { c with spent := c.spent + d } :: cs

def start : Ledger ι := ⟨fun _ => [], []⟩

def step [DecidableEq ι] (l : Ledger ι) : ι × Event → Ledger ι
  | (i, .enter name now) =>
    let c : OpenCall := ⟨topPath (l.opened i) ++ [name], now, 0⟩
    { l with opened := Function.update l.opened i (c :: l.opened i) }
  | (i, .exit now) =>
    match l.opened i with
    | [] => l
    | c :: cs =>
      { opened := Function.update l.opened i (spend (now - c.startNs) cs)
        finished := l.finished ++
          [⟨⟨c.path, now - c.startNs⟩, now - c.startNs - c.spent⟩] }

def run [DecidableEq ι] (events : List (ι × Event)) : Ledger ι := events.foldl step start

def calls (l : Ledger ι) : List Call := l.finished.map (·.call)

def ownAt (l : Ledger ι) (q : List String) : Int :=
  ((l.finished.filter (·.call.path = q)).map (·.own)).sum

def spentIn (cs : List OpenCall) (q : List String) : Int :=
  ((cs.filter (·.path = q)).map (·.spent)).sum

def spentAt [Fintype ι] (l : Ledger ι) (q : List String) : Int := ∑ i, spentIn (l.opened i) q

def Accounted [Fintype ι] (l : Ledger ι) : Prop :=
  ∀ i, ∀ c ∈ l.opened i, l.spentAt c.path ≤ l.ownAt c.path

def OutermostAgree (l : Ledger ι) : Prop :=
  ∀ c ∈ l.calls, ∀ d ∈ l.calls, totalAt l.calls (c.path.take 1) = totalAt l.calls (d.path.take 1)

end Ledger

def childrenAt (calls : List Call) (q : List String) : Int :=
  ((calls.filter fun c => c.path ≠ [] ∧ c.path.dropLast = q).map (·.elapsed)).sum

theorem childrenAt_append (calls after : List Call) (q : List String) :
    childrenAt (calls ++ after) q = childrenAt calls q + childrenAt after q := by
  simp [childrenAt, List.filter_append]

theorem childrenAt_single (c : Call) (q : List String) :
    childrenAt [c] q = if c.path ≠ [] ∧ c.path.dropLast = q then c.elapsed else 0 := by
  by_cases hc : c.path ≠ [] ∧ c.path.dropLast = q <;> simp [childrenAt, hc]

namespace Ledger

inductive Nested : Int → List OpenCall → Prop
  | nil {t : Int} : Nested t []
  | cons {t : Int} {c : OpenCall} {cs : List OpenCall} (hne : c.path ≠ [])
    (hpath : c.path.dropLast = topPath cs) (hspent : 0 ≤ c.spent) (ht : c.startNs + c.spent ≤ t)
    (hcs : Nested c.startNs cs) : Nested t (c :: cs)

structure Inv [Fintype ι] (l : Ledger ι) (t : Int) : Prop where
  nested : ∀ i, Nested t (l.opened i)
  own : ∀ f ∈ l.finished, 0 ≤ f.own
  deep : ∀ c ∈ l.calls, c.path ≠ []
  balance : ∀ q, q ≠ [] →
    totalAt l.calls q - childrenAt l.calls q = l.ownAt q - l.spentAt q

variable {l : Ledger ι} {t t' : Int} {cs : List OpenCall} {c : OpenCall} {q : List String}

theorem Nested.mono (h : Nested t cs) (hle : t ≤ t') : Nested t' cs := by
  cases h with
  | nil => exact .nil
  | cons hne hpath hspent ht hcs => exact .cons hne hpath hspent (ht.trans hle) hcs

theorem topPath_spend (d : Int) (cs : List OpenCall) : topPath (spend d cs) = topPath cs := by
  cases cs <;> rfl

theorem Nested.spend (h : Nested t cs) (hle : t ≤ t') : Nested t' (spend (t' - t) cs) := by
  cases h with
  | nil => exact .nil
  | @cons _ c cs hne hpath hspent ht hcs =>
    refine .cons hne hpath ?_ ?_ hcs
    · exact add_nonneg hspent (by omega)
    · change c.startNs + (c.spent + (t' - t)) ≤ t'
      omega

theorem spentIn_cons (c : OpenCall) (cs : List OpenCall) (q : List String) :
    spentIn (c :: cs) q = (if c.path = q then c.spent else 0) + spentIn cs q := by
  by_cases hc : c.path = q <;> simp [spentIn, hc]

theorem spentIn_spend (d : Int) (cs : List OpenCall) (hq : q ≠ []) :
    spentIn (Ledger.spend d cs) q = spentIn cs q + if topPath cs = q then d else 0 := by
  cases cs with
  | nil => simp [Ledger.spend, spentIn, topPath, hq.symm]
  | cons c cs =>
    rw [Ledger.spend, spentIn_cons, spentIn_cons, topPath]
    by_cases hc : c.path = q
    · simp only [hc, if_true]
      omega
    · simp [hc]

theorem calls_append (opened : ι → List OpenCall) (fs : List Finished) (f : Finished) :
    calls ⟨opened, fs ++ [f]⟩ = calls ⟨opened, fs⟩ ++ [f.call] := by
  simp [calls]

theorem ownAt_append (l : Ledger ι) (f : Finished) (opened : ι → List OpenCall) (q : List String) :
    ownAt ⟨opened, l.finished ++ [f]⟩ q = l.ownAt q + if f.call.path = q then f.own else 0 := by
  by_cases hf : f.call.path = q <;> simp [ownAt, List.filter_append, hf]

section Invariant

variable [Fintype ι] [DecidableEq ι]

theorem spentAt_update (l : Ledger ι) (i : ι) (cs : List OpenCall) (fs : List Finished)
    (q : List String) : spentAt ⟨Function.update l.opened i cs, fs⟩ q + spentIn (l.opened i) q =
      l.spentAt q + spentIn cs q :=
  sum_update_add fun cs => spentIn cs q

omit [DecidableEq ι] in
theorem Inv.mono (h : Inv l t) (hle : t ≤ t') : Inv l t' :=
  ⟨fun i => (h.nested i).mono hle, h.own, h.deep, h.balance⟩

omit [DecidableEq ι] in
theorem Inv.start (t : Int) : Inv (start : Ledger ι) t := by
  refine ⟨fun _ => .nil, by simp [Ledger.start], by simp [Ledger.start, calls], fun q _ => ?_⟩
  simp [Ledger.start, calls, totalAt, callsAt, childrenAt, ownAt, spentAt, spentIn]

theorem Inv.enter (h : Inv l t) (i : ι) (name : String) :
    Inv (l.step (i, .enter name t)) t := by
  refine ⟨?_, h.own, h.deep, fun q hq => ?_⟩
  · refine (Function.forall_update_iff _ fun _ cs => Nested t cs).2 ⟨?_, fun j _ => h.nested j⟩
    exact .cons (by simp) (by simp) le_rfl (by simp) (h.nested i)
  · have hspent := spentAt_update l i (⟨topPath (l.opened i) ++ [name], t, 0⟩ :: l.opened i)
      l.finished q
    have hbalance := h.balance q hq
    rw [spentIn_cons, ite_self, zero_add] at hspent
    rw [← add_right_cancel hspent] at hbalance
    exact hbalance

theorem Inv.balance_exit (h : Inv l t) {i : ι} (ho : l.opened i = c :: cs) (hne : c.path ≠ [])
    (hpath : c.path.dropLast = topPath cs) (hq : q ≠ []) {after : Ledger ι}
    (hafter : after = ⟨Function.update l.opened i (Ledger.spend (t - c.startNs) cs),
      l.finished ++ [⟨⟨c.path, t - c.startNs⟩, t - c.startNs - c.spent⟩]⟩) :
    totalAt after.calls q - childrenAt after.calls q = after.ownAt q - after.spentAt q := by
  have hcalls : after.calls = l.calls ++ [⟨c.path, t - c.startNs⟩] := by
    rw [hafter, calls_append]
    rfl
  have hown : after.ownAt q = l.ownAt q + if c.path = q then t - c.startNs - c.spent else 0 := by
    rw [hafter, ownAt_append]
  have hspent : after.spentAt q + spentIn (l.opened i) q =
      l.spentAt q + spentIn (Ledger.spend (t - c.startNs) cs) q := by
    rw [hafter]
    exact spentAt_update l i _ _ q
  have hbalance := h.balance q hq
  have hnil : totalAt [] q = 0 := rfl
  rw [ho, spentIn_cons, spentIn_spend _ _ hq, ← hpath] at hspent
  rw [hcalls, totalAt_append, childrenAt_append, totalAt_cons, childrenAt_single, hnil, hown]
  simp only [hne, ne_eq, not_false_eq_true, true_and]
  split_ifs at hspent ⊢ <;> omega

theorem Inv.exit (h : Inv l t) (i : ι) : Inv (l.step (i, .exit t)) t := by
  cases ho : l.opened i with
  | nil => simpa only [Ledger.step, ho] using h
  | cons c cs =>
    have hnested := h.nested i
    rw [ho] at hnested
    cases hnested with
    | cons hne hpath hspent ht hcs =>
      have hstart : c.startNs ≤ t := by omega
      simp only [Ledger.step, ho]
      refine ⟨?_, ?_, ?_, fun q hq => h.balance_exit ho hne hpath hq rfl⟩
      · exact (Function.forall_update_iff _ fun _ cs => Nested t cs).2
          ⟨hcs.spend hstart, fun j _ => h.nested j⟩
      · intro f hf
        rcases List.mem_append.1 hf with hf | hf
        · exact h.own f hf
        · rw [List.mem_singleton.1 hf]
          change 0 ≤ t - c.startNs - c.spent
          omega
      · intro d hd
        rw [calls_append, List.mem_append, List.mem_singleton] at hd
        rcases hd with hd | rfl
        · exact h.deep d hd
        · exact hne

omit [Fintype ι] in
theorem run_concat (events : List (ι × Event)) (x : ι × Event) :
    (run (events ++ [x]) : Ledger ι) = (run events).step x := by
  rw [run, List.foldl_append]
  rfl

theorem inv_run {events : List (ι × Event)}
    (hclock : (events.map fun x => x.2.now).Pairwise (· ≤ ·))
    (ht : ∀ x ∈ events, x.2.now ≤ t) : Inv (run events : Ledger ι) t := by
  induction events using List.reverseRecOn generalizing t with
  | nil => exact Inv.start t
  | append_singleton events x ih =>
    obtain ⟨hbefore, hlast⟩ := clock_concat hclock
    have hinv : Inv (run events : Ledger ι) x.2.now := ih hbefore hlast
    rw [run_concat]
    refine Inv.mono ?_ (ht x (by simp))
    obtain ⟨i, ⟨name, now⟩ | now⟩ := x
    · exact hinv.enter i name
    · exact hinv.exit i

end Invariant

structure Named (P : String → Prop) (l : Ledger ι) : Prop where
  opened : ∀ i, ∀ c ∈ l.opened i, ∀ x ∈ c.path, P x
  finished : ∀ c ∈ l.calls, ∀ x ∈ c.path, P x

section Names

variable [DecidableEq ι] {P : String → Prop}

omit [DecidableEq ι] in
theorem Named.topPath (h : Named P l) (i : ι) : ∀ x ∈ topPath (l.opened i), P x := by
  cases ho : l.opened i with
  | nil => simp [Ledger.topPath]
  | cons c cs => exact h.opened i c (by simp [ho])

theorem Named.enter (h : Named P l) (i : ι) {name : String} (hname : P name) (now : Int) :
    Named P (l.step (i, .enter name now)) := by
  refine ⟨?_, h.finished⟩
  refine (Function.forall_update_iff _ fun _ cs => ∀ c ∈ cs, ∀ x ∈ OpenCall.path c, P x).2
    ⟨?_, fun j _ => h.opened j⟩
  intro c hc x hx
  rcases List.mem_cons.1 hc with rfl | hc
  · rcases List.mem_append.1 hx with hx | hx
    · exact h.topPath i x hx
    · rw [List.mem_singleton.1 hx]
      exact hname
  · exact h.opened i c hc x hx

theorem mem_spend {d : Int} (h : c ∈ spend d cs) : ∃ c' ∈ cs, c.path = c'.path := by
  cases cs with
  | nil => cases h
  | cons c' cs =>
    rcases List.mem_cons.1 h with rfl | h
    · exact ⟨c', List.mem_cons_self, rfl⟩
    · exact ⟨c, List.mem_cons_of_mem _ h, rfl⟩

theorem Named.exit (h : Named P l) (i : ι) (now : Int) : Named P (l.step (i, .exit now)) := by
  cases ho : l.opened i with
  | nil => simpa only [Ledger.step, ho] using h
  | cons c cs =>
    simp only [Ledger.step, ho]
    refine ⟨?_, ?_⟩
    · refine (Function.forall_update_iff _ fun _ cs => ∀ c ∈ cs, ∀ x ∈ OpenCall.path c, P x).2
        ⟨?_, fun j _ => h.opened j⟩
      intro d hd
      obtain ⟨d', hd', hpath⟩ := mem_spend hd
      rw [hpath]
      exact h.opened i d' (by simp [ho, hd'])
    · intro d hd
      rw [calls_append, List.mem_append, List.mem_singleton] at hd
      rcases hd with hd | rfl
      · exact h.finished d hd
      · exact h.opened i c (by simp [ho])

theorem named_run {events : List (ι × Event)}
    (h : ∀ name ∈ entered events, P name) :
    Named P (run events : Ledger ι) := by
  induction events using List.reverseRecOn with
  | nil => exact ⟨by simp [run, Ledger.start], by simp [run, Ledger.start, calls]⟩
  | append_singleton events x ih =>
    rw [run_concat]
    rw [entered, List.filterMap_append] at h
    have hnamed := ih fun name hmem => h name (List.mem_append_left _ hmem)
    obtain ⟨i, ⟨name, now⟩ | now⟩ := x
    · exact hnamed.enter i (h name (by simp)) now
    · exact hnamed.exit i now

end Names

end Ledger

section Simulation

variable [Fintype ι] [DecidableEq ι] {l : Ledger ι} {s : Threads ι} {t : Int}

structure Tracks (s : Threads ι) (l : Ledger ι) : Prop where
  profiler : s.profiler = sampled l.calls
  pathStack : ∀ i, s.pathStack i = Ledger.topPath (l.opened i)
  scopes : ∀ i, s.scopes i = (l.opened i).map fun c => ⟨c.startNs, true⟩

theorem enabled_sampled (calls : List Call) : (sampled calls).enabled = true := by
  rw [sampled, record_eq rfl]
  rfl

theorem sampled_concat (calls : List Call) (c : Call) : sampled (calls ++ [c]) =
    (sampled calls).addSample (Thread.pathJoin c.path) c.elapsed := by
  rw [sampled, record, List.foldl_append]
  rfl

omit [Fintype ι] in
theorem Tracks.enter (h : Tracks s l) (i : ι) (name : String) (now : Int) :
    Tracks (s.step (i, .enter name now)) (l.step (i, .enter name now)) := by
  have henabled : s.profiler.enabled = true := by
    rw [h.profiler, enabled_sampled]
  have hstep : s.step (i, .enter name now) =
      { profiler := s.profiler
        pathStack := Function.update s.pathStack i (s.pathStack i ++ [name])
        scopes := Function.update s.scopes i (⟨now, true⟩ :: s.scopes i) } := by
    simp [Threads.step, Thread.step, henabled, Thread.pathStackPush]
  rw [hstep]
  refine ⟨h.profiler, fun j => ?_, fun j => ?_⟩
  · rcases eq_or_ne j i with rfl | hne
    · simp [Ledger.step, Ledger.topPath, h.pathStack]
    · simp [Ledger.step, hne, h.pathStack]
  · rcases eq_or_ne j i with rfl | hne
    · simp [Ledger.step, h.scopes]
    · simp [Ledger.step, hne, h.scopes]

theorem Tracks.exit (h : Tracks s l) (hinv : l.Inv t) (i : ι) (now : Int) :
    Tracks (s.step (i, .exit now)) (l.step (i, .exit now)) := by
  have hpath := h.pathStack i
  have hscopes := h.scopes i
  cases ho : l.opened i with
  | nil =>
    have hempty : s.scopes i = [] := by simpa [ho] using hscopes
    have hself : Function.update s.scopes i [] = s.scopes := by
      rw [← hempty, Function.update_eq_self]
    have hstep : s.step (i, .exit now) = s := by
      simp [Threads.step, Thread.step, hempty, hself]
    rw [hstep]
    simpa only [Ledger.step, ho] using h
  | cons c cs =>
    have hnested := hinv.nested i
    rw [ho] at hnested hpath hscopes
    have hstep : s.step (i, .exit now) =
        { profiler := s.profiler.addSample (Thread.pathJoin c.path) (now - c.startNs)
          pathStack := Function.update s.pathStack i c.path.dropLast
          scopes := Function.update s.scopes i (cs.map fun c => ⟨c.startNs, true⟩) } := by
      simp [Threads.step, Thread.step, hscopes, hpath, Thread.pathStackPop, Ledger.topPath]
    cases hnested with
    | cons hne hdrop hspent ht hcs =>
      rw [hstep]
      simp only [Ledger.step, ho]
      refine ⟨?_, fun j => ?_, fun j => ?_⟩
      · rw [Ledger.calls_append, sampled_concat, h.profiler]
        rfl
      · rcases eq_or_ne j i with rfl | hne
        · simp [Ledger.topPath_spend, hdrop]
        · simp [hne, h.pathStack]
      · rcases eq_or_ne j i with rfl | hne
        · cases cs <;> simp [Ledger.spend]
        · simp [hne, h.scopes]

theorem tracks_run {events : List (ι × Event)}
    (hclock : (events.map fun x => x.2.now).Pairwise (· ≤ ·)) :
    Tracks (Threads.run events) (Ledger.run events) := by
  induction events using List.reverseRecOn with
  | nil => exact ⟨rfl, fun _ => rfl, fun _ => rfl⟩
  | append_singleton events x ih =>
    have hrun : Threads.run (events ++ [x]) = (Threads.run events).step x := by
      rw [Threads.run, List.foldl_append]
      rfl
    obtain ⟨hbefore, hlast⟩ := clock_concat hclock
    have hinv := Ledger.inv_run hbefore hlast
    rw [hrun, Ledger.run_concat]
    obtain ⟨i, ⟨name, now⟩ | now⟩ := x
    · exact (ih hbefore).enter i name now
    · exact (ih hbefore).exit hinv i now

end Simulation

section Tree

open FlameGraphProfiler

variable {calls : List Call} {walk : List (Σ _ : String, Int)} {sorting : FrameSort}
  {q : List String} {n : Node}

theorem sum_inserted (P : List String → Prop) [DecidablePred P]
    (hwalk : walk.Perm (sampled calls).totalNs.entries)
    (hsplit : ∀ c ∈ calls, split (Thread.pathJoin c.path) "::" false = c.path) :
    (((inserted calls walk).filter fun e => P e.1).map Prod.snd).sum.1 =
      ((calls.filter fun c => P c.path).map (·.elapsed)).sum := by
  have hfst : (((inserted calls walk).filter fun e => P e.1).map Prod.snd).sum.1 =
      sumWhere (fun k => P (split k "::" false)) walk := by
    rw [← AddMonoidHom.coe_fst, map_list_sum, sumWhere, inserted, List.filter_map, List.map_map,
      List.map_map]
    rfl
  have hpaths : (calls.filter fun c => P (split (Thread.pathJoin c.path) "::" false)) =
      calls.filter fun c => P c.path := by
    apply List.filter_congr
    intro c hc
    rw [hsplit c hc]
  rw [hfst, sumWhere_perm _ hwalk, sampled, record_eq rfl, ← hpaths]
  simp only [sumWhere_accumulate]
  simp [Thread.start, sumWhere, List.filter_map, Function.comp_def]

theorem exists_call_of_at (hwalk : walk.Perm (sampled calls).totalNs.entries)
    (hsplit : ∀ c ∈ calls, split (Thread.pathJoin c.path) "::" false = c.path)
    (h : Trie.At (tree calls walk) q n) : ∃ c ∈ calls, q <+: c.path := by
  obtain ⟨hfind, -⟩ := h.find (distinct_tree calls walk)
  obtain ⟨c, hc, hpre⟩ := prefix_of_find_tree hwalk hfind
  exact ⟨c, hc, hsplit c hc ▸ hpre⟩

theorem exists_at_of_call (hwalk : walk.Perm (sampled calls).totalNs.entries)
    (hsplit : ∀ c ∈ calls, split (Thread.pathJoin c.path) "::" false = c.path) (hq : q ≠ [])
    {c : Call} (hc : c ∈ calls) (hpre : q <+: c.path) : ∃ n, Trie.At (tree calls walk) q n := by
  have hmem := inserted_of_call hsplit hwalk hc
  have hfind : Trie.find (tree calls walk) q = some _ :=
    Trie.find_insertAll_of_prefix _ hq (.inr ⟨_, hmem, hpre⟩)
  obtain ⟨n, hn, -⟩ := Trie.exists_at hfind
  exact ⟨n, hn⟩

theorem times_of_at (hwalk : walk.Perm (sampled calls).totalNs.entries)
    (hsplit : ∀ c ∈ calls, split (Thread.pathJoin c.path) "::" false = c.path)
    (h : Trie.At (tree calls walk) q n) : n.value.1 = totalAt calls q ∧
      (n.children.map fun m => m.value.1).sum = childrenAt calls q := by
  obtain ⟨hfind, hlevel⟩ := h.find (distinct_tree calls walk)
  constructor
  · obtain ⟨c, hc, hpre⟩ := exists_call_of_at hwalk hsplit h
    have hmem := inserted_of_call hsplit hwalk hc
    rw [tree, Trie.find_insertAll_of_prefix _ h.ne_nil (.inr ⟨_, hmem, hpre⟩)] at hfind
    rw [← Option.some.inj hfind, Trie.find_nil, Option.getD_none, zero_add,
      sum_inserted (· = q) hwalk hsplit]
    rfl
  · have hsum : (n.children.map fun m => m.value.1).sum =
        (Trie.level (tree calls walk) q).sum.1 := by
      rw [hlevel, ← AddMonoidHom.coe_fst, map_list_sum, List.map_map]
      rfl
    rw [hsum, tree, Trie.sum_level_insertAll, Trie.level_nil, List.sum_nil, zero_add,
      sum_inserted (fun p => p ≠ [] ∧ p.dropLast = q) hwalk hsplit]
    rfl

theorem at_toFrames {ns : List Node} {f : Frame} (h : Trie.At (toFrames sorting ns) q f) :
    ∃ n, Trie.At ns q n ∧ f = toFrame sorting n := by
  rw [toFrames_eq_map] at h
  induction q generalizing ns f with
  | nil => exact absurd rfl h.ne_nil
  | cons k ks ih =>
    cases h with
    | here hf =>
      obtain ⟨n, hn, rfl⟩ := List.mem_map.1 hf
      rw [label_toFrame]
      exact ⟨n, .here hn, rfl⟩
    | under hf hu =>
      obtain ⟨n, hn, rfl⟩ := List.mem_map.1 hf
      rw [children_toFrame] at hu
      obtain ⟨m, hm, rfl⟩ := ih (toFrames_eq_map _ ▸ hu.perm (sorting.perm _))
      rw [label_toFrame]
      exact ⟨m, .under hn hm, rfl⟩

theorem at_toFrames_of_at {ns : List Node} (h : Trie.At ns q n) :
    Trie.At (toFrames sorting ns) q (toFrame sorting n) := by
  have hlabel : ∀ n : Node, n.label = (toFrame sorting n).label := fun n => (label_toFrame n).symm
  induction h with
  | @here ns n hn =>
    rw [hlabel, toFrames_eq_map]
    exact .here (List.mem_map_of_mem hn)
  | @under ns n m q hn _ ih =>
    rw [hlabel, toFrames_eq_map]
    refine .under (List.mem_map_of_mem hn) ?_
    rw [children_toFrame]
    exact ih.perm (sorting.perm _).symm

theorem totals_toFrames (sorting : FrameSort) (ns : List Node) :
    (toFrames sorting ns).map (fun f => f.value.totalNs) = ns.map fun n => n.value.1 := by
  rw [toFrames_eq_map, List.map_map]
  apply List.map_congr_left
  intro n _
  exact (value_toFrame sorting n).1

theorem self_toFrame (sorting : FrameSort) (n : Node) : (toFrame sorting n).value.selfNs =
    n.value.1 - (n.children.map fun m => m.value.1).sum := by
  obtain ⟨name, total, children⟩ := n
  rw [toFrame, totals_toFrames]
  rfl

theorem sum_children_toFrame (sorting : FrameSort) (n : Node) :
    ((toFrame sorting n).children.map fun g => g.value.totalNs).sum =
      (n.children.map fun m => m.value.1).sum := by
  rw [children_toFrame, ((sorting.perm _).map _).sum_eq, totals_toFrames]

theorem pairwise_toFrames (sorting : FrameSort) (ns : List Node) :
    ((toFrames sorting ns).Pairwise fun a b => b.value.totalNs ≤ a.value.totalNs) ↔
      ns.Pairwise fun m n => n.value.1 ≤ m.value.1 := by
  have htotals := totals_toFrames sorting ns
  rw [← List.pairwise_map (R := fun x y => y ≤ x), htotals, List.pairwise_map]

theorem consistent_iff (sorting : FrameSort) (hwalk : walk.Perm (sampled calls).totalNs.entries)
    (hsplit : ∀ c ∈ calls, split (Thread.pathJoin c.path) "::" false = c.path) :
    Consistent (.node "root" ⟨0, 0, 0⟩ (toFrames sorting (tree calls walk))) ↔
      (∀ q, q ≠ [] → (∃ c ∈ calls, q <+: c.path) → childrenAt calls q ≤ totalAt calls q) ∧
        (tree calls walk).Pairwise fun m n => n.value.1 ≤ m.value.1 := by
  constructor
  · rintro ⟨-, hself, hsorted⟩
    refine ⟨?_, (pairwise_toFrames sorting _).1 (hsorted _ (.inl rfl))⟩
    rintro q hq ⟨c, hc, hpre⟩
    obtain ⟨n, hn⟩ := exists_at_of_call hwalk hsplit hq hc hpre
    obtain ⟨htotal, hkids⟩ := times_of_at hwalk hsplit hn
    have hnonneg := hself q _ (at_toFrames_of_at hn)
    rw [self_toFrame, htotal, hkids] at hnonneg
    omega
  · rintro ⟨hle, hsorted⟩
    refine ⟨?_, ?_, ?_⟩
    · intro q f hf
      obtain ⟨n, -, rfl⟩ := at_toFrames hf
      rw [self_toFrame, sum_children_toFrame, (value_toFrame sorting n).1]
      omega
    · intro q f hf
      obtain ⟨n, hn, rfl⟩ := at_toFrames hf
      obtain ⟨htotal, hkids⟩ := times_of_at hwalk hsplit hn
      have hq := hle q hn.ne_nil (exists_call_of_at hwalk hsplit hn)
      rw [self_toFrame, htotal, hkids]
      omega
    · rintro f (rfl | ⟨q, hf⟩)
      · exact (pairwise_toFrames sorting _).2 hsorted
      · obtain ⟨n, -, rfl⟩ := at_toFrames hf
        rw [children_toFrame]
        exact sorting.sorted _

theorem snapshot_sampled_iff (hwalk : walk.Perm (sampled calls).totalNs.entries)
    (hsplit : ∀ c ∈ calls, split (Thread.pathJoin c.path) "::" false = c.path) :
    (∃ f, snapshot sorting walk (sampled calls) = .ok f ∧ Consistent f) ↔
      (∀ q, q ≠ [] → (∃ c ∈ calls, q <+: c.path) → childrenAt calls q ≤ totalAt calls q) ∧
        (tree calls walk).Pairwise fun m n => n.value.1 ≤ m.value.1 := by
  rw [← consistent_iff sorting hwalk hsplit, snapshot_sampled hwalk]
  constructor
  · rintro ⟨f, hf, hc⟩
    obtain rfl := Except.ok.inj hf
    exact hc
  · intro hc
    exact ⟨_, rfl, hc⟩

theorem take_one_eq {k : String} {p : List String} (h : [k] <+: p) : p.take 1 = [k] := by
  obtain ⟨rest, rfl⟩ := h
  rfl

theorem total_of_mem_tree (hwalk : walk.Perm (sampled calls).totalNs.entries)
    (hsplit : ∀ c ∈ calls, split (Thread.pathJoin c.path) "::" false = c.path)
    (hn : n ∈ tree calls walk) :
    ∃ c ∈ calls, c.path.take 1 = [n.label] ∧ n.value.1 = totalAt calls (c.path.take 1) := by
  obtain ⟨c, hc, hpre⟩ := exists_call_of_at hwalk hsplit (.here hn)
  refine ⟨c, hc, take_one_eq hpre, ?_⟩
  rw [take_one_eq hpre]
  exact (times_of_at hwalk hsplit (.here hn)).1

theorem exists_root_of_call (hwalk : walk.Perm (sampled calls).totalNs.entries)
    (hsplit : ∀ c ∈ calls, split (Thread.pathJoin c.path) "::" false = c.path)
    {c : Call} (hc : c ∈ calls) (hne : c.path ≠ []) :
    ∃ n ∈ tree calls walk, n.value.1 = totalAt calls (c.path.take 1) := by
  obtain ⟨k, ks, hpath⟩ := List.exists_cons_of_ne_nil hne
  have hpre : [k] <+: c.path := ⟨ks, hpath.symm⟩
  obtain ⟨n, hn⟩ := exists_at_of_call hwalk hsplit (by simp) hc hpre
  have htotal := (times_of_at hwalk hsplit hn).1
  rw [take_one_eq hpre]
  cases hn with
  | here hn => exact ⟨n, hn, htotal⟩
  | under _ hu => exact absurd rfl hu.ne_nil

theorem exists_walk_from (hsplit : ∀ c ∈ calls,
    split (Thread.pathJoin c.path) "::" false = c.path) {c : Call} (hc : c ∈ calls)
    (hne : c.path ≠ []) : ∃ walk : List (Σ _ : String, Int),
      walk.Perm (sampled calls).totalNs.entries ∧ ∃ n ns, tree calls walk = n :: ns ∧
        n.value.1 = totalAt calls (c.path.take 1) := by
  have hmem : (⟨Thread.pathJoin c.path, (tally calls (Thread.pathJoin c.path)).1⟩ :
      Σ _ : String, Int) ∈ (sampled calls).totalNs.entries :=
    (mem_walk (.refl _)).2 ⟨⟨c, hc, rfl⟩, rfl⟩
  obtain ⟨before, after, hentries⟩ := List.append_of_mem hmem
  have hwalk := List.perm_middle.symm.trans (List.Perm.of_eq hentries.symm)
  refine ⟨_, hwalk, ?_⟩
  obtain ⟨k, ks, hpath⟩ := List.exists_cons_of_ne_nil hne
  obtain ⟨n, ns, htree, hlabel⟩ : ∃ n ns, tree calls (⟨Thread.pathJoin c.path,
      (tally calls (Thread.pathJoin c.path)).1⟩ :: (before ++ after)) = n :: ns ∧ n.label = k := by
    rw [tree, inserted, List.map_cons, Trie.insertAll, List.foldl_cons, ← Trie.insertAll,
      hsplit c hc, hpath, Trie.insert_cons]
    exact Trie.head_insertAll _ _ _
  refine ⟨n, ns, htree, ?_⟩
  have hn : Trie.At (n :: ns) [n.label] n := .here List.mem_cons_self
  rw [take_one_eq ⟨ks, hpath.symm⟩, ← hlabel]
  exact (times_of_at hwalk hsplit (htree ▸ hn)).1

end Tree

section Result

open FlameGraphProfiler

variable {l : Ledger ι} {t : Int} {q : List String}

theorem Ledger.Nested.deep {cs : List OpenCall} (h : Ledger.Nested t cs) :
    ∀ c ∈ cs, c.path ≠ [] := by
  induction h with
  | nil => simp
  | cons hne _ _ _ _ ih =>
    intro c hc
    rcases List.mem_cons.1 hc with rfl | hc
    · exact hne
    · exact ih c hc

theorem sum_filter_of_not {α : Type} {p : α → Prop} [DecidablePred p] (f : α → Int) {xs : List α}
    (h : ∀ x ∈ xs, ¬ p x) : ((xs.filter fun x => p x).map f).sum = 0 := by
  have hnone : xs.filter (fun x => p x) = [] := by
    apply List.filter_eq_nil_iff.2
    intro x hx
    simpa using h x hx
  rw [hnone, List.map_nil, List.sum_nil]

theorem times_of_not (h : ¬ ∃ f ∈ l.finished, q <+: f.call.path) :
    totalAt l.calls q = 0 ∧ childrenAt l.calls q = 0 ∧ l.ownAt q = 0 := by
  have hcalls : ∀ c ∈ l.calls, ¬ q <+: c.path := by
    rintro c hc hpre
    obtain ⟨f, hf, rfl⟩ := List.mem_map.1 hc
    exact h ⟨f, hf, hpre⟩
  refine ⟨sum_filter_of_not _ ?_, sum_filter_of_not _ ?_, sum_filter_of_not _ ?_⟩
  · rintro c hc rfl
    exact hcalls c hc List.prefix_rfl
  · rintro c hc ⟨-, rfl⟩
    exact hcalls c hc (List.dropLast_prefix _)
  · rintro f hf rfl
    exact h ⟨f, hf, List.prefix_rfl⟩

theorem Ledger.Inv.accounted_iff [Fintype ι] (h : l.Inv t) : l.Accounted ↔
    ∀ q, q ≠ [] → (∃ c ∈ l.calls, q <+: c.path) → childrenAt l.calls q ≤ totalAt l.calls q := by
  constructor
  · rintro haccounted q hq -
    have hbalance := h.balance q hq
    by_cases hopen : ∃ i, ∃ c ∈ l.opened i, c.path = q
    · obtain ⟨i, c, hc, rfl⟩ := hopen
      have hle := haccounted i c hc
      omega
    · have hspent : l.spentAt q = 0 := by
        apply Finset.sum_eq_zero
        intro i _
        apply sum_filter_of_not
        rintro c hc rfl
        exact hopen ⟨i, c, hc, rfl⟩
      have hown : 0 ≤ l.ownAt q := by
        apply List.sum_nonneg
        intro x hx
        obtain ⟨f, hf, rfl⟩ := List.mem_map.1 hx
        exact h.own f (List.mem_of_mem_filter hf)
      omega
  · intro hle i c hc
    have hne := (h.nested i).deep c hc
    have hbalance := h.balance c.path hne
    by_cases hcall : ∃ f ∈ l.finished, c.path <+: f.call.path
    · obtain ⟨f, hf, hpre⟩ := hcall
      have hself := hle c.path hne ⟨f.call, List.mem_map_of_mem hf, hpre⟩
      omega
    · obtain ⟨htotal, hkids, hown⟩ := times_of_not hcall
      omega

theorem Ledger.agree_iff (hsplit : ∀ c ∈ l.calls,
    split (Thread.pathJoin c.path) "::" false = c.path) (hdeep : ∀ c ∈ l.calls, c.path ≠ []) :
    l.OutermostAgree ↔ ∀ walk : List (Σ _ : String, Int),
      walk.Perm (sampled l.calls).totalNs.entries →
        (tree l.calls walk).Pairwise fun m n => n.value.1 ≤ m.value.1 := by
  constructor
  · intro hagree walk hwalk
    apply List.pairwise_of_forall_mem_list
    intro m hm n hn
    obtain ⟨c, hc, -, hcm⟩ := total_of_mem_tree hwalk hsplit hm
    obtain ⟨d, hd, -, hdn⟩ := total_of_mem_tree hwalk hsplit hn
    rw [hcm, hdn, hagree c hc d hd]
  · intro hsorted
    have hle : ∀ c ∈ l.calls, ∀ d ∈ l.calls,
        totalAt l.calls (d.path.take 1) ≤ totalAt l.calls (c.path.take 1) := by
      intro c hc d hd
      obtain ⟨walk, hwalk, n, ns, htree, hn⟩ := exists_walk_from hsplit hc (hdeep c hc)
      obtain ⟨m, hm, hmd⟩ := exists_root_of_call hwalk hsplit hd (hdeep d hd)
      have hpairs := hsorted walk hwalk
      rw [htree] at hpairs hm
      rw [← hn, ← hmd]
      rcases List.mem_cons.1 hm with rfl | hm
      · exact le_rfl
      · exact List.rel_of_pairwise_cons hpairs hm
    exact fun c hc d hd => (hle d hd c hc).antisymm (hle c hc d hd)

theorem split_of_names {path : List String} (hne : path ≠ [])
    (hnames : ∀ x ∈ path, ':' ∉ x.toList) :
    split (Thread.pathJoin path) "::" false = path := by
  apply split_pathJoin hne
  · intro x hx
    rw [contains, decide_eq_false_iff_not]
    intro hoccurs
    exact hnames x hx (hoccurs.subset (by simp))
  · intro x hx
    rw [endsWith, decide_eq_false_iff_not]
    intro hsuffix
    exact hnames x (List.mem_of_mem_dropLast hx) (hsuffix.subset (by simp))

theorem snapshot_consistent_iff [Fintype ι] [DecidableEq ι] {events : List (ι × Event)}
    (hclock : (events.map fun x => x.2.now).Pairwise (· ≤ ·))
    (hnames : ∀ name ∈ entered events, ':' ∉ name.toList) :
    (∀ (sorting : FrameSort) (walk : List (Σ _ : String, Int)),
      walk.Perm (Threads.run events).profiler.totalNs.entries →
        ∃ f, snapshot sorting walk (Threads.run events).profiler = .ok f ∧ Consistent f) ↔
      (Ledger.run events).Accounted ∧ (Ledger.run events).OutermostAgree := by
  have htracks := tracks_run hclock
  obtain ⟨hi, hhi⟩ := (List.finite_toSet (events.map fun x => x.2.now)).bddAbove
  have hinv := Ledger.inv_run hclock fun x hx => hhi (List.mem_map.2 ⟨x, hx, rfl⟩)
  have hnamed := Ledger.named_run hnames
  have hsplit : ∀ c ∈ (Ledger.run events).calls,
      split (Thread.pathJoin c.path) "::" false = c.path :=
    fun c hc => split_of_names (hinv.deep c hc) (hnamed.finished c hc)
  rw [hinv.accounted_iff, Ledger.agree_iff hsplit hinv.deep, htracks.profiler]
  constructor
  · intro h
    refine ⟨?_, fun walk hwalk => ?_⟩
    · exact ((snapshot_sampled_iff (.refl _) hsplit).1 (h mergeSorting _ (.refl _))).1
    · exact ((snapshot_sampled_iff hwalk hsplit).1 (h mergeSorting walk hwalk)).2
  · rintro ⟨hle, hsorted⟩ sorting walk hwalk
    exact (snapshot_sampled_iff hwalk hsplit).2 ⟨hle, hsorted walk hwalk⟩

-- b is left while a is open: a has no time yet, and its frame gets -2 of its own.
def halfway : List (Fin 2 × Event) := [(0, .enter "a" 0), (0, .enter "b" 1), (0, .exit 3)]

-- Two outermost scopes, the shorter of which comes first in the walk.
def apart : List (Fin 2 × Event) := [(0, .enter "a" 0), (0, .exit 1), (1, .enter "b" 1), (1, .exit 3)]

def interleaved : List (Fin 2 × Event) :=
  [(0, .enter "a" 0), (1, .enter "a" 1), (0, .enter "b" 1), (0, .exit 2), (0, .exit 4), (1, .exit 7)]

theorem snapshot_consistent_interleaved :
    ∃ f, snapshot mergeSorting (Threads.run interleaved).profiler.totalNs.entries
      (Threads.run interleaved).profiler = .ok f ∧ Consistent f := by
  refine (snapshot_consistent_iff (by decide) (by decide)).2 ⟨?_, ?_⟩ mergeSorting _ (.refl _)
  · unfold Ledger.Accounted
    decide
  · unfold Ledger.OutermostAgree
    decide

theorem snapshot_inconsistent :
    (halfway.map fun x => x.2.now).Pairwise (· ≤ ·) ∧
      (∀ name ∈ entered halfway, ':' ∉ name.toList) ∧
      (apart.map fun x => x.2.now).Pairwise (· ≤ ·) ∧
      (∀ name ∈ entered apart, ':' ∉ name.toList) ∧
      (¬ ∃ f, snapshot mergeSorting (Threads.run halfway).profiler.totalNs.entries
        (Threads.run halfway).profiler = .ok f ∧ Consistent f) ∧
      ¬ ∃ f, snapshot mergeSorting (Threads.run apart).profiler.totalNs.entries.reverse
        (Threads.run apart).profiler = .ok f ∧ Consistent f := by
  refine ⟨by decide, by decide, by decide, by decide, ?_, ?_⟩
  · have hcalls : (Threads.run halfway).profiler = sampled [⟨["a", "b"], 2⟩] := by rfl
    have hsplit : ∀ c ∈ [(⟨["a", "b"], 2⟩ : Call)],
        split (Thread.pathJoin c.path) "::" false = c.path := by
      intro c hc
      rw [List.mem_singleton.1 hc]
      exact split_of_names (by decide) (by decide)
    rw [hcalls, snapshot_sampled_iff (.refl _) hsplit]
    rintro ⟨hle, -⟩
    exact absurd (hle ["a"] (by decide) ⟨_, List.mem_singleton_self _, by decide⟩) (by decide)
  · have hcalls : (Threads.run apart).profiler = sampled [⟨["a"], 1⟩, ⟨["b"], 2⟩] := by rfl
    have hsplit : ∀ c ∈ [(⟨["a"], 1⟩ : Call), ⟨["b"], 2⟩],
        split (Thread.pathJoin c.path) "::" false = c.path := by
      intro c hc
      rcases List.mem_pair.1 hc with rfl | rfl <;> exact split_of_names (by decide) (by decide)
    have hinserted : inserted [⟨["a"], 1⟩, ⟨["b"], 2⟩] [⟨"a", 1⟩, ⟨"b", 2⟩] =
        [(["a"], (1, 1)), (["b"], (2, 1))] := by
      have ha : split "a" "::" false = ["a"] := hsplit ⟨["a"], 1⟩ (by decide)
      have hb : split "b" "::" false = ["b"] := hsplit ⟨["b"], 2⟩ (by decide)
      rw [inserted, List.map_cons, List.map_cons, ha, hb]
      rfl
    rw [hcalls, snapshot_sampled_iff (List.reverse_perm _) hsplit]
    rintro ⟨-, hsorted⟩
    change (Trie.insertAll (inserted _ [⟨"a", 1⟩, ⟨"b", 2⟩]) []).Pairwise _ at hsorted
    rw [hinserted] at hsorted
    simp [Trie.insertAll, Trie.insert, Trie.atLabel] at hsorted

end Result

end Lark.Metric
