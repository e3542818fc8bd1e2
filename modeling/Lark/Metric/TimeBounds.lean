import Lark.Metric.Snapshots

namespace Lark.Metric

open Lark.Base Lark.Toolkit.Str

namespace Ledger

variable {ι : Type} {P : List String → Prop} [DecidablePred P] {l : Ledger ι} {lo t t' : Int}
  {c : OpenCall} {cs : List OpenCall}

def timeAt (P : List String → Prop) [DecidablePred P] (l : Ledger ι) : Int :=
  ((l.calls.filter fun c => P c.path).map (·.elapsed)).sum

def openTime (P : List String → Prop) [DecidablePred P] (t : Int) (cs : List OpenCall) : Int :=
  ((cs.filter fun c => P c.path).map fun c => t - c.startNs).sum

def OneLength (P : List String → Prop) : Prop :=
  ∀ p p' : List String, P p → P p' → p.length = p'.length

theorem openTime_cons (t : Int) (c : OpenCall) (cs : List OpenCall) :
    openTime P t (c :: cs) = (if P c.path then t - c.startNs else 0) + openTime P t cs := by
  by_cases hc : P c.path <;> simp [openTime, hc]

theorem openTime_spend (t d : Int) (cs : List OpenCall) :
    openTime P t (spend d cs) = openTime P t cs := by
  cases cs with
  | nil => rfl
  | cons c cs => rw [spend, openTime_cons, openTime_cons]

theorem openTime_of_not (t : Int) (h : ∀ c ∈ cs, ¬ P c.path) : openTime P t cs = 0 :=
  sum_filter_of_not _ h

theorem Nested.length_le (h : Nested t cs) :
    ∀ c ∈ cs, c.path.length ≤ (topPath cs).length := by
  induction h with
  | nil => simp
  | @cons t c cs hne hpath _ _ _ ih =>
    intro d hd
    rcases List.mem_cons.1 hd with rfl | hd
    · exact le_rfl
    · have hle := ih d hd
      rw [← hpath, List.length_dropLast] at hle
      exact hle.trans (Nat.sub_le _ _)

theorem Nested.shorter (h : Nested t (c :: cs)) : ∀ d ∈ cs, d.path.length < c.path.length := by
  cases h with
  | cons hne hpath _ _ hcs =>
    intro d hd
    have hle := hcs.length_le d hd
    rw [← hpath, List.length_dropLast] at hle
    have hpos := List.length_pos_of_ne_nil hne
    omega

theorem Nested.openTime_le {t₀ : Int} (h : Nested t₀ cs) (hP : OneLength P) (hle : t ≤ t') :
    openTime P t' cs ≤ openTime P t cs + (t' - t) := by
  induction h with
  | nil =>
    rw [openTime_of_not t' (by simp), openTime_of_not t (by simp)]
    omega
  | @cons t₀ c cs hne hpath hspent ht hcs ih =>
    rw [openTime_cons, openTime_cons]
    by_cases hc : P c.path
    · have hnone : ∀ d ∈ cs, ¬ P d.path := by
        intro d hd hPd
        have hlt := (Nested.cons hne hpath hspent ht hcs).shorter d hd
        have heq := hP _ _ hPd hc
        omega
      rw [openTime_of_not t' hnone, openTime_of_not t hnone, if_pos hc, if_pos hc]
      omega
    · rw [if_neg hc, if_neg hc]
      omega

theorem Nested.openTime_nonneg (h : Nested t cs) : 0 ≤ openTime P t cs := by
  induction h with
  | nil => exact (openTime_of_not _ (by simp)).ge
  | @cons t c cs _ _ hspent ht hcs ih =>
    have hstart : c.startNs ≤ t := by omega
    have hlater : openTime P c.startNs cs ≤ openTime P t cs := by
      apply List.sum_le_sum
      intro d _
      omega
    rw [openTime_cons]
    split_ifs <;> omega

theorem timeAt_append (opened : ι → List OpenCall) (f : Finished) :
    timeAt P ⟨opened, l.finished ++ [f]⟩ =
      timeAt P l + if P f.call.path then f.call.elapsed else 0 := by
  by_cases hf : P f.call.path <;> simp [timeAt, calls, List.filter_append, hf]

variable [Fintype ι]

structure Within (P : List String → Prop) [DecidablePred P] (lo t : Int) (l : Ledger ι) :
    Prop where
  elapsed : ∀ c ∈ l.calls, 0 ≤ c.elapsed
  time : timeAt P l + ∑ i, openTime P t (l.opened i) ≤ Fintype.card ι * (t - lo)

theorem Within.start (hle : lo ≤ t) : Within P lo t (start : Ledger ι) := by
  refine ⟨by simp [Ledger.start, calls], ?_⟩
  have hspan : 0 ≤ (Fintype.card ι : Int) * (t - lo) :=
    mul_nonneg (Int.natCast_nonneg _) (by omega)
  simpa [Ledger.start, timeAt, calls, openTime] using hspan

theorem Within.later (h : Within P lo t l) (hinv : Inv l t) (hP : OneLength P) (hle : t ≤ t') :
    Within P lo t' l := by
  refine ⟨h.elapsed, ?_⟩
  have hopen : ∑ i, openTime P t' (l.opened i) ≤ ∑ i, (openTime P t (l.opened i) + (t' - t)) := by
    apply Finset.sum_le_sum
    intro i _
    exact (hinv.nested i).openTime_le hP hle
  rw [Finset.sum_add_distrib, Finset.sum_const, Finset.card_univ, nsmul_eq_mul] at hopen
  have htime := h.time
  have hspan : (Fintype.card ι : Int) * (t' - lo) =
      Fintype.card ι * (t - lo) + Fintype.card ι * (t' - t) := by ring
  omega

variable [DecidableEq ι]

theorem openTime_update (l : Ledger ι) (i : ι) (cs : List OpenCall) :
    ∑ j, openTime P t (Function.update l.opened i cs j) + openTime P t (l.opened i) =
      ∑ j, openTime P t (l.opened j) + openTime P t cs :=
  sum_update_add fun cs => openTime P t cs

theorem Within.enter (h : Within P lo t l) (i : ι) (name : String) :
    Within P lo t (l.step (i, .enter name t)) := by
  refine ⟨h.elapsed, ?_⟩
  have hopen := openTime_update (P := P) (t := t) l i
    (⟨topPath (l.opened i) ++ [name], t, 0⟩ :: l.opened i)
  rw [openTime_cons, sub_self, ite_self, zero_add] at hopen
  have htime := h.time
  rw [← add_right_cancel hopen] at htime
  exact htime

theorem Within.exit (h : Within P lo t l) (hinv : Inv l t) (i : ι) :
    Within P lo t (l.step (i, .exit t)) := by
  cases ho : l.opened i with
  | nil => simpa only [Ledger.step, ho] using h
  | cons c cs =>
    have hnested := hinv.nested i
    rw [ho] at hnested
    cases hnested with
    | cons _ _ hspent ht _ =>
      simp only [Ledger.step, ho]
      constructor
      · intro d hd
        rw [calls_append, List.mem_append, List.mem_singleton] at hd
        rcases hd with hd | rfl
        · exact h.elapsed d hd
        · change 0 ≤ t - c.startNs
          omega
      · have hopen := openTime_update (P := P) (t := t) l i (spend (t - c.startNs) cs)
        rw [ho, openTime_spend, openTime_cons] at hopen
        have htime := h.time
        rw [timeAt_append]
        change timeAt P l + (if P c.path then t - c.startNs else 0) +
          ∑ j, openTime P t (Function.update l.opened i (spend (t - c.startNs) cs) j) ≤ _
        omega

theorem within_run {events : List (ι × Event)} (hP : OneLength P) (hle : lo ≤ t)
    (hclock : (events.map fun x => x.2.now).Pairwise (· ≤ ·))
    (hrange : ∀ x ∈ events, lo ≤ x.2.now ∧ x.2.now ≤ t) : Within P lo t (run events) := by
  induction events using List.reverseRecOn generalizing t with
  | nil => exact Within.start hle
  | append_singleton events x ih =>
    obtain ⟨hbefore, hlast⟩ := clock_concat hclock
    obtain ⟨hlo, hhi⟩ := hrange x (by simp)
    have hinv : Inv (run events) x.2.now := inv_run hbefore hlast
    have hwithin : Within P lo x.2.now (run events) := ih hlo hbefore fun y hy =>
      ⟨(hrange y (List.mem_append_left _ hy)).1, hlast y hy⟩
    rw [run_concat]
    obtain ⟨i, ⟨name, now⟩ | now⟩ := x
    · exact (hwithin.enter i name).later (hinv.enter i name) hP hhi
    · exact (hwithin.exit hinv i).later (hinv.exit i) hP hhi

theorem time_within {events : List (ι × Event)} (hP : OneLength P) (hle : lo ≤ t)
    (hclock : (events.map fun x => x.2.now).Pairwise (· ≤ ·))
    (hrange : ∀ x ∈ events, lo ≤ x.2.now ∧ x.2.now ≤ t) :
    0 ≤ timeAt P (run events) ∧ timeAt P (run events) ≤ Fintype.card ι * (t - lo) := by
  have hwithin := within_run hP hle hclock hrange
  have hinv : Inv (run events) t := inv_run hclock fun x hx => (hrange x hx).2
  have hopen : 0 ≤ ∑ i, openTime P t ((run events).opened i) :=
    Finset.sum_nonneg fun i _ => (hinv.nested i).openTime_nonneg
  have htime := hwithin.time
  refine ⟨?_, by omega⟩
  apply List.sum_nonneg
  intro x hx
  obtain ⟨c, hc, rfl⟩ := List.mem_map.1 hx
  exact hwithin.elapsed c (List.mem_of_mem_filter hc)

end Ledger

open FlameGraphProfiler

-- The times are int64 in the code: n threads cannot wrap them before n times the span of the clock
-- reaches 2^63 ns.
theorem frames_within {ι : Type} [Fintype ι] [DecidableEq ι] {events : List (ι × Event)}
    (hclock : (events.map fun x => x.2.now).Pairwise (· ≤ ·))
    (hnames : ∀ name ∈ entered events, ':' ∉ name.toList) {lo hi : Int} (hle : lo ≤ hi)
    (hrange : ∀ x ∈ events, lo ≤ x.2.now ∧ x.2.now ≤ hi) {sorting : FrameSort}
    {walk : List (Σ _ : String, Int)}
    (hwalk : walk.Perm (Threads.run events).profiler.totalNs.entries) {root : Frame}
    (hroot : snapshot sorting walk (Threads.run events).profiler = .ok root) :
    ∀ q f, Trie.At root.children q f →
      0 ≤ f.value.totalNs ∧ f.value.totalNs ≤ Fintype.card ι * (hi - lo) ∧
        |f.value.selfNs| ≤ Fintype.card ι * (hi - lo) := by
  have hinv : Ledger.Inv (Ledger.run events) hi := Ledger.inv_run hclock fun x hx => (hrange x hx).2
  have hnamed := Ledger.named_run hnames
  have hsplit : ∀ c ∈ (Ledger.run events).calls,
      split (Thread.pathJoin c.path) "::" false = c.path :=
    fun c hc => split_of_names (hinv.deep c hc) (hnamed.finished c hc)
  rw [(tracks_run hclock).profiler] at hwalk hroot
  rw [snapshot_sampled hwalk] at hroot
  obtain rfl := Except.ok.inj hroot
  intro q f hf
  obtain ⟨n, hn, rfl⟩ := at_toFrames hf
  obtain ⟨htotal, hkids⟩ := times_of_at hwalk hsplit hn
  have hat : Ledger.OneLength (· = q) := by
    rintro p p' rfl rfl
    rfl
  have hbelow : Ledger.OneLength fun p => p ≠ [] ∧ p.dropLast = q := by
    rintro p p' ⟨hp, rfl⟩ ⟨hp', hdrop⟩
    have hlen := congrArg List.length hdrop
    have hpos := List.length_pos_of_ne_nil hp
    have hpos' := List.length_pos_of_ne_nil hp'
    rw [List.length_dropLast, List.length_dropLast] at hlen
    omega
  obtain ⟨ht0, ht1⟩ := Ledger.time_within hat hle hclock hrange
  obtain ⟨hk0, hk1⟩ := Ledger.time_within hbelow hle hclock hrange
  change 0 ≤ totalAt (Ledger.run events).calls q at ht0
  change totalAt (Ledger.run events).calls q ≤ _ at ht1
  change 0 ≤ childrenAt (Ledger.run events).calls q at hk0
  change childrenAt (Ledger.run events).calls q ≤ _ at hk1
  rw [self_toFrame, (value_toFrame sorting n).1, htotal, hkids, abs_le]
  omega

end Lark.Metric
