import Lark.Column.Exec.ScalarOps

namespace Lark.Column.Exec

open Lark.Base

inductive IntColumn : Tensor → List Int → Prop
  | int32 (data : List Int32) : IntColumn (.scalar .int32 data) (data.map Int32.toInt)
  | int64 (data : List Int64) : IntColumn (.scalar .int64 data) (data.map Int64.toInt)

def Yields (libm : Libm) (kind : ReduceKind) (a : Tensor) (v : ℚ) : Prop :=
  ∃ r, reduce libm kind a = .ok r ∧ r.values = [.num v]

structure ReducesBetween (libm : Libm) (a : Tensor) (ns : List Int) : Prop where
  mean : ∃ lo m hi : ℚ, Yields libm .min a lo ∧ Yields libm .mean a m ∧ Yields libm .max a hi ∧
    lo ≤ m ∧ m ≤ hi
  sum : Yields libm .sum a ns.sum

theorem foldl_wraps (xs : List Int64) (s : Int) :
    xs.foldl (· + ·) (Int64.ofInt s) = Int64.ofInt (s + (xs.map Int64.toInt).sum) := by
  induction xs generalizing s with
  | nil => simp
  | cons x xs ih =>
    have hx : Int64.ofInt s + x = Int64.ofInt (s + x.toInt) := by
      rw [Int64.ofInt_add, Int64.ofInt_toInt]
    rw [List.foldl_cons, hx, ih, List.map_cons, List.sum_cons, add_assoc]

theorem tensorSum_wraps {a : Tensor} {ns : List Int} (h : IntColumn a ns) :
    tensorSum a = .ok (ofInt64 (Int64.ofInt ns.sum)) := by
  cases h with
  | int32 data =>
    have hwiden : (data.map fun x => Int64.ofInt x.toInt).map Int64.toInt =
        data.map Int32.toInt := by
      simp [Function.comp_def]
    have hfold := foldl_wraps (data.map fun x => Int64.ofInt x.toInt) 0
    rw [zero_add, hwiden] at hfold
    rw [tensorSum, ← hfold]
    rfl
  | int64 data =>
    have hfold := foldl_wraps data 0
    rw [zero_add] at hfold
    rw [tensorSum, ← hfold]
    rfl

theorem size_intColumn {a : Tensor} {ns : List Int} (h : IntColumn a ns) :
    a.size = ns.length := by
  cases h <;> simp [Tensor.size]

section Extremes

variable {t : ScalarType} (I : IntType t)

theorem toInt_foldl_minmax (wantMax : Bool) (xs : List t.Carrier) (x : t.Carrier) :
    I.toInt (xs.foldl (fun acc y =>
      if (if wantMax then Elem.lt acc y else Elem.lt y acc) then y else acc) x) =
        (xs.map I.toInt).foldl (if wantMax then max else min) (I.toInt x) := by
  induction xs generalizing x with
  | nil => rfl
  | cons y ys ih =>
    rw [List.foldl_cons, ih, List.map_cons, List.foldl_cons]
    congr 1
    cases wantMax with
    | true =>
      simp only [if_true, I.lt_eq, decide_eq_true_eq]
      split_ifs with hlt
      · exact (max_eq_right hlt.le).symm
      · exact (max_eq_left (not_lt.mp hlt)).symm
    | false =>
      simp only [Bool.false_eq_true, if_false, I.lt_eq, decide_eq_true_eq]
      split_ifs with hlt
      · exact (min_eq_right hlt.le).symm
      · exact (min_eq_left (not_lt.mp hlt)).symm

theorem yields_minmax (libm : Libm) (x : t.Carrier) (xs : List t.Carrier) :
    Yields libm .min (.scalar t (x :: xs)) ((xs.map I.toInt).foldl min (I.toInt x) : Int) ∧
      Yields libm .max (.scalar t (x :: xs)) ((xs.map I.toInt).foldl max (I.toInt x) : Int) := by
  refine ⟨⟨_, rfl, ?_⟩, ⟨_, rfl, ?_⟩⟩
  · rw [Tensor.values_scalar, List.map_singleton, I.toDouble_eq, toInt_foldl_minmax]
    rfl
  · rw [Tensor.values_scalar, List.map_singleton, I.toDouble_eq, toInt_foldl_minmax]
    rfl

end Extremes

theorem yields_extremes (libm : Libm) {a : Tensor} {n : Int} {ns : List Int}
    (h : IntColumn a (n :: ns)) :
    Yields libm .min a (ns.foldl min n : Int) ∧ Yields libm .max a (ns.foldl max n : Int) := by
  generalize hm : n :: ns = ms at h
  cases h with
  | int32 data =>
    obtain ⟨x, xs, rfl, rfl, rfl⟩ := List.map_eq_cons_iff.mp hm.symm
    exact yields_minmax int32Type libm x xs
  | int64 data =>
    obtain ⟨x, xs, rfl, rfl, rfl⟩ := List.map_eq_cons_iff.mp hm.symm
    exact yields_minmax int64Type libm x xs

theorem foldl_min_le {α : Type} [LinearOrder α] (xs : List α) (x : α) :
    ∀ y ∈ x :: xs, xs.foldl min x ≤ y := by
  induction xs generalizing x with
  | nil => simp
  | cons z zs ih =>
    have hmin := ih (min x z) (min x z) (by simp)
    intro y hy
    rcases List.mem_cons.mp hy with rfl | hy
    · exact hmin.trans (min_le_left _ _)
    · rcases List.mem_cons.mp hy with rfl | hy
      · exact hmin.trans (min_le_right _ _)
      · exact ih (min x z) y (by simp [hy])

theorem le_foldl_max {α : Type} [LinearOrder α] (xs : List α) (x : α) :
    ∀ y ∈ x :: xs, y ≤ xs.foldl max x :=
  @foldl_min_le αᵒᵈ _ xs x

theorem mean_between (n : Int) (ns : List Int) :
    ((ns.foldl min n : Int) : ℚ) ≤ (n :: ns).sum / ((n :: ns).length : ℚ) ∧
      (n :: ns).sum / ((n :: ns).length : ℚ) ≤ (ns.foldl max n : Int) := by
  have hpos : (0 : ℚ) < (n :: ns).length := by exact_mod_cast Nat.succ_pos _
  have hlo := List.card_nsmul_le_sum (n :: ns) _ (foldl_min_le ns n)
  have hhi := List.sum_le_card_nsmul (n :: ns) _ (le_foldl_max ns n)
  rw [nsmul_eq_mul] at hlo hhi
  rw [le_div_iff₀' hpos, div_le_iff₀' hpos]
  exact ⟨by exact_mod_cast hlo, by exact_mod_cast hhi⟩

theorem abs_round_sub_le {n : Int} {v : ℚ} (h : Double.round n = .num v) :
    |v - n| ≤ |(n : ℚ)| / 2 := by
  rw [Double.round] at h
  split_ifs at h with hlt
  obtain rfl : Rounding.roundTo 53 (-1074) n = v := Double.num.inj h
  by_cases hn : n = 0
  · subst hn
    simp [Rounding.roundTo_zero]
  · apply Rounding.abs_roundTo_sub_le_half (by decide)
    have hone : (1 : ℚ) ≤ |(n : ℚ)| := by exact_mod_cast Int.one_le_abs hn
    have hlow : (2 : ℚ) ^ (-1074 : ℤ) ≤ 1 := zpow_le_one_of_nonpos₀ one_le_two (by decide)
    exact hlow.trans hone

-- A sum that wraps is off by 2^64 at least, more than rounding can make good.
theorem sum_exact_iff (n : Int) :
    ofInt64 (Int64.ofInt n) = .num n ↔ FitsInt64 n ∧ IsBinary64 n := by
  constructor
  · intro h
    rw [ofInt64] at h
    have hclose := abs_round_sub_le h
    have hlo := Int64.le_toInt (Int64.ofInt n)
    have hhi := Int64.toInt_lt (Int64.ofInt n)
    obtain ⟨k, hk⟩ : (2 ^ 64 : ℤ) ∣ n - (Int64.ofInt n).toInt := by
      rw [Int64.toInt_ofInt]
      exact Int.dvd_self_sub_bmod
    generalize (Int64.ofInt n).toInt = w at *
    have hhalf : 2 * |n - w| ≤ |w| := by
      have hhalf : 2 * |(n : ℚ) - w| ≤ |(w : ℚ)| := by linarith
      exact_mod_cast hhalf
    have heq : w = n := by
      have hw : |w| ≤ 2 ^ 63 := abs_le.mpr ⟨by omega, by omega⟩
      have hn := abs_le.mp (show |n - w| ≤ 2 ^ 62 by omega)
      omega
    subst heq
    exact ⟨⟨hlo, hhi⟩, Double.round_eq_num_iff.mp h⟩
  · rintro ⟨hfit, hdouble⟩
    rw [ofInt64, Int64.toInt_ofInt_of_le hfit.1 hfit.2]
    exact Double.round_of_isBinary64 hdouble

section Sum

variable {libm : Libm} {a : Tensor} {ns : List Int}

theorem yields_sum_iff (h : IntColumn a ns) {v : ℚ} :
    Yields libm .sum a v ↔ ofInt64 (Int64.ofInt ns.sum) = .num v := by
  have hreduce : reduce libm .sum a =
      .ok (.scalar .float64 [ofInt64 (Int64.ofInt ns.sum)]) := by
    rw [reduce, tensorSum_wraps h]
    rfl
  constructor
  · rintro ⟨r, hr, hv⟩
    obtain rfl := Except.ok.inj (hreduce.symm.trans hr)
    exact List.singleton_inj.mp hv
  · intro hv
    exact ⟨_, hreduce, List.singleton_inj.mpr hv⟩

theorem yields_mean (h : IntColumn a ns) (hne : ns ≠ []) {v : ℚ}
    (hv : ofInt64 (Int64.ofInt ns.sum) = .num v) : Yields libm .mean a (v / (ns.length : ℚ)) := by
  have hlen : (ns.length : ℚ) ≠ 0 := by simpa using hne
  have hsize : a.size ≠ 0 := by
    rw [size_intColumn h]
    exact mt List.length_eq_zero_iff.mp hne
  refine ⟨.scalar .float64 [.num (v / (ns.length : ℚ))], ?_, rfl⟩
  rw [reduce, tensorMean, if_neg hsize, tensorSum_wraps h, size_intColumn h, except_ok_bind,
    except_ok_bind, hv, Double.num_div _ _ hlen]
  rfl

theorem mean_between_extremes_iff (libm : Libm) (h : IntColumn a ns) (hne : ns ≠ []) :
    ReducesBetween libm a ns ↔ FitsInt64 ns.sum ∧ IsBinary64 ns.sum := by
  rw [← sum_exact_iff]
  constructor
  · intro hred
    exact (yields_sum_iff h).mp (by exact_mod_cast hred.sum)
  · intro hexact
    have hsum : Yields libm .sum a ns.sum := (yields_sum_iff h).mpr (by exact_mod_cast hexact)
    have hmean : Yields libm .mean a (ns.sum / (ns.length : ℚ)) := by
      exact yields_mean h hne (by exact_mod_cast hexact)
    obtain ⟨n, ms, rfl⟩ := List.exists_cons_of_ne_nil hne
    obtain ⟨hmin, hmax⟩ := yields_extremes libm h
    obtain ⟨hlo, hhi⟩ := mean_between n ms
    exact ⟨⟨_, _, _, hmin, hmean, hmax, hlo, hhi⟩, hsum⟩

end Sum

theorem mean_between_extremes_pair :
    IntColumn (.scalar .int32 [-3, 8]) [-3, 8] ∧
      ReducesBetween ⟨id, id, id⟩ (.scalar .int32 [-3, 8]) [-3, 8] := by
  have hfit : FitsInt64 [-3, 8].sum := by
    unfold FitsInt64
    decide
  have hdouble : IsBinary64 (([-3, 8] : List Int).sum : Int) :=
    Double.isBinary64_intCast (by decide)
  exact ⟨.int32 [-3, 8],
    (mean_between_extremes_iff ⟨id, id, id⟩ (.int32 [-3, 8]) (by simp)).mpr ⟨hfit, hdouble⟩⟩

-- The sum of the first column wraps, the sum of the second has 54 significant bits.
theorem mean_below_minimum :
    (IntColumn (.scalar .int64 [9223372036854775807, 1]) [9223372036854775807, 1] ∧
      Yields ⟨id, id, id⟩ .min (.scalar .int64 [9223372036854775807, 1]) 1 ∧
      Yields ⟨id, id, id⟩ .mean (.scalar .int64 [9223372036854775807, 1]) (-4611686018427387904) ∧
      Yields ⟨id, id, id⟩ .sum (.scalar .int64 [9223372036854775807, 1]) (-9223372036854775808) ∧
      ¬ ReducesBetween ⟨id, id, id⟩ (.scalar .int64 [9223372036854775807, 1])
        [9223372036854775807, 1]) ∧
    IntColumn (.scalar .int64 [9007199254740993]) [9007199254740993] ∧
      Yields ⟨id, id, id⟩ .min (.scalar .int64 [9007199254740993]) 9007199254740993 ∧
      Yields ⟨id, id, id⟩ .mean (.scalar .int64 [9007199254740993]) 9007199254740992 ∧
      ¬ ReducesBetween ⟨id, id, id⟩ (.scalar .int64 [9007199254740993]) [9007199254740993] := by
  have hwraps : IntColumn (.scalar .int64 [9223372036854775807, 1]) [9223372036854775807, 1] :=
    .int64 [9223372036854775807, 1]
  have hrounds : IntColumn (.scalar .int64 [9007199254740993]) [9007199254740993] :=
    .int64 [9007199254740993]
  refine ⟨⟨hwraps, ⟨.scalar .int64 [1], by decide +kernel, rfl⟩,
    ⟨.scalar .float64 [.num (-4611686018427387904)], by decide +kernel, rfl⟩,
    ⟨.scalar .float64 [.num (-9223372036854775808)], by decide +kernel, rfl⟩, ?_⟩, hrounds,
    ⟨.scalar .int64 [9007199254740993], by decide +kernel, rfl⟩,
    ⟨.scalar .float64 [.num 9007199254740992], by decide +kernel, rfl⟩, ?_⟩
  · intro h
    have hexact := (yields_sum_iff hwraps).mp h.sum
    exact absurd hexact (by decide +kernel)
  · intro h
    have hexact := (yields_sum_iff hrounds).mp h.sum
    exact absurd hexact (by decide +kernel)

end Lark.Column.Exec
