import Lark.Base.Double
import Mathlib.Data.Int.Log

namespace Lark.Base

namespace Rounding

-- To the nearest integer, a tie to the even one.
def nearestEven (q : ℚ) : ℤ :=
  if Int.fract q < 1 / 2 then ⌊q⌋
  else if 1 / 2 < Int.fract q then ⌊q⌋ + 1
  else if ⌊q⌋ % 2 = 0 then ⌊q⌋ else ⌊q⌋ + 1

theorem nearestEven_intCast (n : ℤ) : nearestEven n = n := by
  simp [nearestEven]

theorem abs_nearestEven_sub_le (q : ℚ) : |nearestEven q - q| ≤ 1 / 2 := by
  have hsplit : (⌊q⌋ : ℚ) + Int.fract q = q := Int.floor_add_fract q
  have hlo := Int.fract_nonneg q
  have hhi := Int.fract_lt_one q
  rw [abs_le, nearestEven]
  split_ifs <;> push_cast <;> constructor <;> linarith

theorem abs_nearestEven_le {q : ℚ} {n : ℤ} (h : |q| < n) : |nearestEven q| ≤ n := by
  have herror := abs_le.mp (abs_nearestEven_sub_le q)
  obtain ⟨hlo, hhi⟩ := abs_lt.mp h
  have hupper : (nearestEven q : ℚ) < (n + 1 : ℤ) := by
    push_cast
    linarith
  have hlower : ((-n - 1 : ℤ) : ℚ) < nearestEven q := by
    push_cast
    linarith
  have hupper : nearestEven q < n + 1 := by exact_mod_cast hupper
  have hlower : -n - 1 < nearestEven q := by exact_mod_cast hlower
  rw [abs_le]
  omega

section Precision

variable (p : ℕ) (low : ℤ)

def Representable (q : ℚ) : Prop := ∃ m e : ℤ, low ≤ e ∧ |m| < 2 ^ p ∧ q = m * 2 ^ e

def place (q : ℚ) : ℤ := max (Int.log 2 |q| + 1 - p) low

def roundTo (q : ℚ) : ℚ := nearestEven (q / 2 ^ place p low q) * 2 ^ place p low q

variable {p low} {q : ℚ}

theorem roundTo_zero : roundTo p low 0 = 0 := by
  have hzero := nearestEven_intCast 0
  rw [Int.cast_zero] at hzero
  rw [roundTo, zero_div, hzero, Int.cast_zero, zero_mul]

theorem place_le {m e : ℤ} (hq : (m : ℚ) * 2 ^ e ≠ 0) (he : low ≤ e) (hm : |m| < 2 ^ p) :
    place p low (m * 2 ^ e) ≤ e := by
  have hpow : (0 : ℚ) < 2 ^ e := by positivity
  have hm : |(m : ℚ)| < 2 ^ p := by exact_mod_cast hm
  have hlt : |(m : ℚ) * 2 ^ e| < ((2 : ℕ) : ℚ) ^ (e + p) := by
    rw [abs_mul, abs_of_pos hpow, Nat.cast_ofNat, zpow_add₀ two_ne_zero, zpow_natCast,
      mul_comm ((2 : ℚ) ^ e)]
    exact mul_lt_mul_of_pos_right hm hpow
  have hlog := (Int.lt_zpow_iff_log_lt one_lt_two (abs_pos.mpr hq)).mp hlt
  exact max_le (by omega) he

theorem roundTo_of_representable (h : Representable p low q) : roundTo p low q = q := by
  obtain ⟨m, e, he, hm, rfl⟩ := h
  by_cases hq : (m : ℚ) * 2 ^ e = 0
  · rw [hq, roundTo_zero]
  · obtain ⟨k, hk⟩ := Int.le.dest (place_le hq he hm)
    have hpow : (2 : ℚ) ^ place p low (m * 2 ^ e) ≠ 0 := by positivity
    have hscaled : (m : ℚ) * 2 ^ e / 2 ^ place p low (m * 2 ^ e) = (m * 2 ^ k : ℤ) := by
      rw [div_eq_iff hpow]
      nth_rewrite 1 [← hk]
      rw [zpow_add₀ two_ne_zero, zpow_natCast]
      push_cast
      ring
    rw [roundTo, hscaled, nearestEven_intCast, ← hscaled, div_mul_cancel₀ _ hpow]

theorem abs_roundTo_sub_le (q : ℚ) : |roundTo p low q - q| ≤ 2 ^ place p low q / 2 := by
  have hpow : (0 : ℚ) < 2 ^ place p low q := by positivity
  have herror : roundTo p low q - q =
      (nearestEven (q / 2 ^ place p low q) - q / 2 ^ place p low q) * 2 ^ place p low q := by
    rw [roundTo, sub_mul, div_mul_cancel₀ _ hpow.ne']
  rw [herror, abs_mul, abs_of_pos hpow]
  calc |nearestEven (q / 2 ^ place p low q) - q / 2 ^ place p low q| * 2 ^ place p low q
      ≤ 1 / 2 * 2 ^ place p low q :=
        mul_le_mul_of_nonneg_right (abs_nearestEven_sub_le _) hpow.le
    _ = 2 ^ place p low q / 2 := by ring

theorem abs_roundTo_sub_le_half (hp : 0 < p) (hq : 2 ^ low ≤ |q|) :
    |roundTo p low q - q| ≤ |q| / 2 := by
  have hpos : 0 < |q| := lt_of_lt_of_le (by positivity) hq
  have hplace : (2 : ℚ) ^ place p low q ≤ |q| := by
    have hlog := Int.zpow_log_le_self one_lt_two hpos
    have hlow : low ≤ Int.log 2 |q| :=
      (Int.zpow_le_iff_le_log one_lt_two hpos).mp (by exact_mod_cast hq)
    have hle : place p low q ≤ Int.log 2 |q| := max_le (by omega) hlow
    exact (zpow_le_zpow_right₀ one_le_two hle).trans (by exact_mod_cast hlog)
  have herror := @abs_roundTo_sub_le p low q
  linarith

theorem abs_scaled_lt (q : ℚ) : |q / 2 ^ place p low q| < 2 ^ p := by
  have hpow : (0 : ℚ) < 2 ^ place p low q := by positivity
  have hlog := Int.lt_zpow_succ_log_self one_lt_two |q|
  have hle : Int.log 2 |q| + 1 ≤ p + place p low q := by
    have hmax := le_max_left (Int.log 2 |q| + 1 - p) low
    rw [place]
    omega
  rw [abs_div, abs_of_pos hpow, div_lt_iff₀ hpow, ← zpow_natCast, ← zpow_add₀ two_ne_zero]
  exact lt_of_lt_of_le (by exact_mod_cast hlog) (zpow_le_zpow_right₀ one_le_two hle)

theorem representable_roundTo (hp : 0 < p) (q : ℚ) : Representable p low (roundTo p low q) := by
  obtain ⟨k, rfl⟩ := Nat.exists_eq_succ_of_ne_zero hp.ne'
  have hlow : low ≤ place (k + 1) low q := le_max_right _ _
  have hbound : |nearestEven (q / 2 ^ place (k + 1) low q)| ≤ 2 ^ (k + 1) := by
    apply abs_nearestEven_le
    exact_mod_cast abs_scaled_lt q
  rcases hbound.lt_or_eq with hlt | heq
  · exact ⟨_, _, hlow, hlt, rfl⟩
  · -- The digits carried into one more place.
    rcases abs_eq (by positivity) |>.mp heq with hn | hn
    · refine ⟨2 ^ k, place (k + 1) low q + 1, by omega, ?_, ?_⟩
      · rw [abs_of_pos (by positivity)]
        exact pow_lt_pow_right₀ one_lt_two k.lt_succ_self
      · rw [roundTo, hn, zpow_add₀ two_ne_zero]
        push_cast
        ring
    · refine ⟨-2 ^ k, place (k + 1) low q + 1, by omega, ?_, ?_⟩
      · rw [abs_neg, abs_of_pos (by positivity)]
        exact pow_lt_pow_right₀ one_lt_two k.lt_succ_self
      · rw [roundTo, hn, zpow_add₀ two_ne_zero]
        push_cast
        ring

theorem roundTo_eq_iff (hp : 0 < p) : roundTo p low q = q ↔ Representable p low q := by
  constructor
  · intro h
    rw [← h]
    exact representable_roundTo hp q
  · exact roundTo_of_representable

end Precision

end Rounding

def IsBinary64 (q : ℚ) : Prop := Rounding.Representable 53 (-1074) q ∧ |q| < 2 ^ 1024

theorem IsBinary64.neg {q : ℚ} (h : IsBinary64 q) : IsBinary64 (-q) := by
  obtain ⟨⟨m, e, he, hm, rfl⟩, hlt⟩ := h
  refine ⟨⟨-m, e, he, by rwa [abs_neg], ?_⟩, by rwa [abs_neg]⟩
  rw [Int.cast_neg, neg_mul]

namespace Double

def round (q : ℚ) : Double :=
  if |Rounding.roundTo 53 (-1074) q| < 2 ^ 1024 then num (Rounding.roundTo 53 (-1074) q)
  else inf (signBit q)

variable {q : ℚ}

theorem round_of_isBinary64 (h : IsBinary64 q) : round q = num q := by
  rw [round, Rounding.roundTo_of_representable h.1, if_pos h.2]

theorem round_eq_num_iff : round q = num q ↔ IsBinary64 q := by
  constructor
  · intro h
    rw [round] at h
    split_ifs at h with hlt
    have hround : Rounding.roundTo 53 (-1074) q = q := by simpa using h
    rw [hround] at hlt
    exact ⟨(Rounding.roundTo_eq_iff (by decide)).mp hround, hlt⟩
  · exact round_of_isBinary64

theorem isBinary64_intCast {n : ℤ} (h : |n| < 2 ^ 53) : IsBinary64 n := by
  refine ⟨⟨n, 0, by decide, h, by simp⟩, ?_⟩
  have hlt : (2 : ℚ) ^ 53 < 2 ^ 1024 := pow_lt_pow_right₀ one_lt_two (by decide)
  have h : |(n : ℚ)| < 2 ^ 53 := by exact_mod_cast h
  exact h.trans hlt

end Double

end Lark.Base
