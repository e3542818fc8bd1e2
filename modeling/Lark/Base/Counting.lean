import Mathlib.Algebra.Order.BigOperators.Group.Finset
import Mathlib.Data.Fintype.Card
import Mathlib.Tactic

namespace Lark.Base

theorem forall_lt_zero {p : Fin 2 → Prop} : ∀ j < 0, p j := by
  intro j hj
  exact absurd hj (Fin.not_lt_zero j)

theorem forall_lt_one {p : Fin 2 → Prop} (h : p 0) : ∀ j < 1, p j := by
  intro j hj
  rwa [(Fin.lt_one_iff j).1 hj]

theorem forall_both {p : Fin 2 → Prop} (h₀ : p 0) (h₁ : p 1) : ∀ j, p j :=
  Fin.forall_fin_two.2 ⟨h₀, h₁⟩

variable {ι α : Type} [Fintype ι] [DecidableEq ι] {f : ι → α} {x : ι} {a : α}
  {q : α → Prop} [DecidablePred q]

theorem filter_update_same (h : q a ↔ q (f x)) :
    (Finset.univ.filter fun y => q (Function.update f x a y)) =
      Finset.univ.filter fun y => q (f y) := by
  ext y
  rcases eq_or_ne y x with rfl | hy
  · simp [h]
  · simp [hy]

theorem filter_update_erase (h : ¬ q a) :
    (Finset.univ.filter fun y => q (Function.update f x a y)) =
      (Finset.univ.filter fun y => q (f y)).erase x := by
  ext y
  rcases eq_or_ne y x with rfl | hy
  · simp [h]
  · simp [hy]

def count (q : α → Prop) [DecidablePred q] (f : ι → α) : Nat :=
  (Finset.univ.filter fun y => q (f y)).card

theorem count_update_same (h : q a ↔ q (f x)) : count q (Function.update f x a) = count q f :=
  congrArg Finset.card (filter_update_same h)

theorem count_update_drop (hx : q (f x)) (ha : ¬ q a) :
    count q (Function.update f x a) + 1 = count q f := by
  unfold count
  rw [filter_update_erase ha]
  exact Finset.card_erase_add_one (by simp [hx])

omit [DecidableEq ι] in
theorem count_eq_zero : count q f = 0 ↔ ∀ x, ¬ q (f x) := by
  simp [count, Finset.filter_eq_empty_iff]

theorem count_update_grow (hx : ¬ q (f x)) (ha : q a) :
    count q (Function.update f x a) = count q f + 1 := by
  have hdrop := count_update_drop (f := Function.update f x a) (x := x) (a := f x) (q := q)
    (by simpa using ha) hx
  simpa using hdrop.symm

omit [DecidableEq ι] in
theorem count_eq_card : count q f = Fintype.card ι ↔ ∀ x, q (f x) := by
  rw [count, Finset.card_eq_iff_eq_univ, Finset.filter_eq_self]
  simp

omit [Fintype ι] in
theorem sum_update_lt_of_mem {β : ι → Type} {g : (i : ι) → β i} {b : β x}
    (r : (i : ι) → β i → Nat) {s : Finset ι} (hx : x ∈ s) (h : r x b < r x (g x)) :
    ∑ i ∈ s, r i (Function.update g x b i) < ∑ i ∈ s, r i (g i) := by
  refine Finset.sum_lt_sum ?_ ⟨x, hx, by simpa using h⟩
  intro i _
  rcases eq_or_ne i x with rfl | hi
  · simpa using h.le
  · simp [hi]

theorem sum_update_lt {β : ι → Type} {g : (i : ι) → β i} {b : β x} (r : (i : ι) → β i → Nat)
    (h : r x b < r x (g x)) : ∑ i, r i (Function.update g x b i) < ∑ i, r i (g i) :=
  sum_update_lt_of_mem r (Finset.mem_univ x) h

theorem sum_update_add {M : Type} [AddCommMonoid M] (r : α → M) :
    ∑ i, r (Function.update f x a i) + r (f x) = ∑ i, r (f i) + r a := by
  have hrest : ∀ i ∈ Finset.univ.erase x, r (Function.update f x a i) = r (f i) := by
    intro i hi
    rw [Function.update_of_ne (Finset.ne_of_mem_erase hi)]
  rw [← Finset.add_sum_erase _ _ (Finset.mem_univ x), ← Finset.add_sum_erase (a := x) Finset.univ
    (fun i => r (f i)) (Finset.mem_univ x), Finset.sum_congr rfl hrest, Function.update_self]
  ac_rfl

end Lark.Base
