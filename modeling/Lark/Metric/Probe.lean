import Lark.Base.Deviation
import Mathlib.Analysis.Real.Sqrt

namespace Lark.Metric

open Lark.Base

-- A "probe.anomaly" event; it shows the root of the variance.
structure Anomaly where
  subject : String
  value : ℚ
  mean : ℚ
  variance : ℚ
  k : ℚ
  deriving DecidableEq

structure AnomalyDetector where
  monitored : Bool
  k : ℚ
  mean : ℚ
  m2 : ℚ
  n : Nat
  emitted : List Anomaly

namespace AnomalyDetector

def new (monitored : Bool) (k : ℚ) : AnomalyDetector := ⟨monitored, k, 0, 0, 0, []⟩

noncomputable def sd (d : AnomalyDetector) : ℝ := √((d.m2 / d.n : ℚ) : ℝ)

noncomputable def stddev (d : AnomalyDetector) : ℝ := if d.n < 1 then 0 else d.sd

def Anomalous (d : AnomalyDetector) (value : ℚ) : Prop :=
  ¬ d.n < 1 ∧ 0 < d.sd ∧ d.k * d.sd < |((value - d.mean : ℚ) : ℝ)|

theorem anomalous_iff (d : AnomalyDetector) (value : ℚ) : d.Anomalous value ↔
    0 < d.n ∧ 0 < d.m2 / d.n ∧ (d.k < 0 ∨ d.k ^ 2 * (d.m2 / d.n) < (value - d.mean) ^ 2) := by
  set v := d.m2 / d.n with hv
  have hsd : 0 < d.sd ↔ 0 < v := by
    rw [sd, Real.sqrt_pos]
    exact_mod_cast Iff.rfl
  rw [Anomalous, not_lt, Nat.one_le_iff_ne_zero, ← Nat.pos_iff_ne_zero, hsd]
  refine and_congr_right fun _ => and_congr_right fun hpos => ?_
  have hsq : d.sd ^ 2 = (v : ℝ) := Real.sq_sqrt (by exact_mod_cast hpos.le)
  rcases lt_or_ge d.k 0 with hk | hk
  · have hneg : (d.k : ℝ) * d.sd < 0 := mul_neg_of_neg_of_pos (by exact_mod_cast hk) (hsd.2 hpos)
    simp only [hk, true_or, iff_true]
    exact hneg.trans_le (abs_nonneg _)
  · have hnonneg : (0 : ℝ) ≤ d.k * d.sd := mul_nonneg (by exact_mod_cast hk) (Real.sqrt_nonneg _)
    rw [← sq_lt_sq₀ hnonneg (abs_nonneg _), mul_pow, sq_abs, hsq]
    simp only [not_lt.2 hk, false_or]
    exact_mod_cast Iff.rfl

instance (d : AnomalyDetector) (value : ℚ) : Decidable (d.Anomalous value) :=
  decidable_of_iff' _ (anomalous_iff d value)

def feed (d : AnomalyDetector) (value : ℚ) (subject : String) : AnomalyDetector × Bool :=
  let anomaly := decide (d.Anomalous value)
  let emitted := if anomaly && d.monitored
    then d.emitted ++ [⟨subject, value, d.mean, d.m2 / d.n, d.k⟩] else d.emitted
  let n := d.n + 1
  let delta := value - d.mean
  let mean := d.mean + delta / n
  ({ d with mean, m2 := d.m2 + delta * (value - mean), n, emitted }, anomaly)

def feedAll (d : AnomalyDetector) (fed : List (ℚ × String)) : AnomalyDetector :=
  fed.foldl (fun d x => (d.feed x.1 x.2).1) d

structure Summary (d : AnomalyDetector) (xs : List ℚ) : Prop where
  count : d.n = xs.length
  mean : d.mean = Base.mean xs
  m2 : d.m2 = squares (Base.mean xs) xs

variable {d : AnomalyDetector} {xs : List ℚ}

theorem summary_new (monitored : Bool) (k : ℚ) : Summary (new monitored k) [] :=
  ⟨rfl, rfl, rfl⟩

theorem Summary.feed (h : Summary d xs) (value : ℚ) (subject : String) :
    Summary (d.feed value subject).1 (xs ++ [value]) := by
  have hmean : (d.feed value subject).1.mean = Base.mean (xs ++ [value]) := by
    rw [mean_concat, ← h.mean, ← h.count]
    simp [AnomalyDetector.feed]
  refine ⟨?_, hmean, ?_⟩
  · rw [List.length_append, ← h.count]
    rfl
  · rw [squares_concat, ← hmean, ← h.mean]
    have hm2 := h.m2
    rw [← h.mean] at hm2
    rw [← hm2]
    rfl

theorem summary_feedAll (h : Summary d xs) (fed : List (ℚ × String)) :
    Summary (d.feedAll fed) (xs ++ fed.map Prod.fst) := by
  induction fed generalizing d xs with
  | nil => simpa [feedAll] using h
  | cons x fed ih =>
    have hrest := ih (h.feed x.1 x.2)
    rw [List.append_assoc] at hrest
    exact hrest

theorem k_feedAll (d : AnomalyDetector) (fed : List (ℚ × String)) : (d.feedAll fed).k = d.k := by
  induction fed generalizing d with
  | nil => rfl
  | cons x fed ih => exact ih (d.feed x.1 x.2).1

-- The standard deviation is that of the population, not of a sample.
theorem Summary.stddev (h : Summary d xs) :
    d.stddev = √((squares (Base.mean xs) xs / xs.length : ℚ) : ℝ) := by
  rw [AnomalyDetector.stddev, sd, h.m2, h.count]
  split_ifs with hlen
  · have hnil : xs = [] := List.eq_nil_of_length_eq_zero (by omega)
    simp [hnil]
  · rfl

theorem feed_eq_true_iff (hk : 0 ≤ d.k) (value : ℚ) (subject : String) :
    (d.feed value subject).2 = true ↔
      0 < d.n ∧ 0 < d.m2 ∧ d.k ^ 2 * (d.m2 / d.n) < (value - d.mean) ^ 2 := by
  rw [AnomalyDetector.feed, decide_eq_true_iff, anomalous_iff]
  refine and_congr_right fun hn => ?_
  have hpos : 0 < d.m2 / d.n ↔ 0 < d.m2 := div_pos_iff_of_pos_right (by exact_mod_cast hn)
  rw [hpos]
  simp only [not_lt.2 hk, false_or]

structure Welford (k : ℚ) (d : AnomalyDetector) (xs : List ℚ) : Prop where
  count : d.n = xs.length
  mean : d.mean = if xs = [] then 0 else xs.sum / xs.length
  m2 : d.m2 = (xs.map fun x => (x - d.mean) ^ 2).sum
  nonneg : 0 ≤ d.m2
  detects : ∀ value subject, (d.feed value subject).2 = true ↔
    1 ≤ d.n ∧ 0 < d.m2 ∧ k ^ 2 * (d.m2 / d.n) < (value - d.mean) ^ 2

theorem feedAll_welford (monitored : Bool) {k : ℚ} (hk : 0 ≤ k) (fed : List (ℚ × String)) :
    Welford k ((new monitored k).feedAll fed) (fed.map Prod.fst) := by
  set d := (new monitored k).feedAll fed with hd
  have hsummary : Summary d (fed.map Prod.fst) := summary_feedAll (summary_new monitored k) fed
  have hkept : d.k = k := k_feedAll _ fed
  have hm2 : d.m2 = squares d.mean (fed.map Prod.fst) := by
    rw [hsummary.mean]
    exact hsummary.m2
  refine ⟨hsummary.count, hsummary.mean, hm2, ?_, ?_⟩
  · rw [hm2]
    exact squares_nonneg _ _
  · intro value subject
    rw [feed_eq_true_iff (hkept.symm ▸ hk), hkept]
    rfl

theorem feedAll_welford_three :
    ((new true 3).feedAll [(2, "a"), (4, "b"), (9, "c")]).m2 = 26 ∧
      (((new true 3).feedAll [(2, "a"), (4, "b"), (9, "c")]).feed 15 "d").2 = true := by
  have h := feedAll_welford true (by norm_num : (0 : ℚ) ≤ 3) [(2, "a"), (4, "b"), (9, "c")]
  have hcount : ((new true 3).feedAll [(2, "a"), (4, "b"), (9, "c")]).n = 3 := h.count
  have hmean : ((new true 3).feedAll [(2, "a"), (4, "b"), (9, "c")]).mean = 5 :=
    h.mean.trans ((if_neg (by simp)).trans (by norm_num))
  have hm2 : ((new true 3).feedAll [(2, "a"), (4, "b"), (9, "c")]).m2 = 26 :=
    h.m2.trans (by rw [hmean]; norm_num)
  refine ⟨hm2, (h.detects 15 "d").2 ?_⟩
  rw [hcount, hmean, hm2]
  norm_num

end AnomalyDetector

end Lark.Metric
