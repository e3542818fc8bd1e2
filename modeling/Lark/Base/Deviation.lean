import Mathlib.Algebra.Order.BigOperators.Group.List
import Mathlib.Tactic

namespace Lark.Base

section Centre

variable {F : Type} [Field F]

def mean (xs : List F) : F := if xs = [] then 0 else xs.sum / xs.length

def squares (c : F) (xs : List F) : F := (xs.map fun x => (x - c) ^ 2).sum

theorem squares_cons (c x : F) (xs : List F) :
    squares c (x :: xs) = (x - c) ^ 2 + squares c xs := by
  simp [squares]

theorem squares_append (c : F) (xs ys : List F) :
    squares c (xs ++ ys) = squares c xs + squares c ys := by
  simp [squares]

theorem squares_shift (c d : F) (xs : List F) : squares d xs =
    squares c xs + 2 * (c - d) * (xs.sum - xs.length * c) + xs.length * (c - d) ^ 2 := by
  induction xs with
  | nil => simp [squares]
  | cons x xs ih =>
    rw [squares_cons, squares_cons, ih, List.sum_cons, List.length_cons]
    push_cast
    ring

variable [CharZero F]

theorem length_mul_mean (xs : List F) : xs.length * mean xs = xs.sum := by
  rw [mean]
  split_ifs with hxs
  · simp [hxs]
  · have hlen : (xs.length : F) ≠ 0 := by
      simpa using hxs
    rw [mul_div_cancel₀ _ hlen]

theorem mean_concat (xs : List F) (x : F) :
    mean (xs ++ [x]) = mean xs + (x - mean xs) / (xs.length + 1) := by
  have hlen : (xs.length : F) + 1 ≠ 0 := by
    exact_mod_cast Nat.succ_ne_zero xs.length
  rw [mean, if_neg (by simp), List.sum_append, List.sum_singleton, ← length_mul_mean xs,
    List.length_append, List.length_singleton]
  push_cast
  field_simp
  ring

theorem squares_mean (d : F) (xs : List F) :
    squares d xs = squares (mean xs) xs + xs.length * (mean xs - d) ^ 2 := by
  rw [squares_shift (mean xs) d xs, length_mul_mean, sub_self, mul_zero, add_zero]

theorem squares_concat (xs : List F) (x : F) : squares (mean (xs ++ [x])) (xs ++ [x]) =
    squares (mean xs) xs + (x - mean xs) * (x - mean (xs ++ [x])) := by
  have hlen : (xs.length : F) + 1 ≠ 0 := by
    exact_mod_cast Nat.succ_ne_zero xs.length
  rw [squares_append, squares_mean _ xs, mean_concat, squares_cons]
  simp only [squares, List.map_nil, List.sum_nil]
  field_simp
  ring

end Centre

theorem squares_nonneg {F : Type} [Field F] [LinearOrder F] [IsStrictOrderedRing F] (c : F)
    (xs : List F) : 0 ≤ squares c xs := by
  apply List.sum_nonneg
  intro y hy
  obtain ⟨x, -, rfl⟩ := List.mem_map.1 hy
  exact sq_nonneg (x - c)

end Lark.Base
