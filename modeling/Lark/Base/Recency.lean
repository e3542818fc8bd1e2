import Mathlib.Data.List.Nodup
import Mathlib.Tactic

namespace Lark.Base.Recency

variable {α : Type} [DecidableEq α]

def lastUse (x : α) : List α → Nat
  | [] => 0
  | y :: uses => if y = x then uses.length + 1 else lastUse x uses

def forget (x : α) (lru : List α) : List α := lru.filter (· ≠ x)

def touch (x : α) (lru : List α) : List α := x :: forget x lru

structure Ordered (uses lru : List α) : Prop where
  nodup : lru.Nodup
  recent : lru.Pairwise fun a b => lastUse b uses < lastUse a uses

variable {uses lru : List α} {x : α}

theorem lastUse_le (x : α) (uses : List α) : lastUse x uses ≤ uses.length := by
  induction uses with
  | nil => exact le_rfl
  | cons y uses ih =>
    simp only [lastUse, List.length_cons]
    split_ifs
    · exact le_rfl
    · exact ih.trans (Nat.le_succ _)

@[simp] theorem mem_forget {y : α} : y ∈ forget x lru ↔ y ∈ lru ∧ y ≠ x := by
  simp [forget]

theorem mem_touch {y : α} : y ∈ touch x lru ↔ y = x ∨ y ∈ lru := by
  simp only [touch, List.mem_cons, mem_forget]
  tauto

theorem forget_of_notMem (h : x ∉ lru) : forget x lru = lru :=
  List.filter_eq_self.2 fun y hy => by
    have hne : y ≠ x := fun he => h (he ▸ hy)
    simpa using hne

theorem Ordered.sublist (h : Ordered uses lru) {lru' : List α} (hs : lru'.Sublist lru) :
    Ordered uses lru' :=
  ⟨hs.nodup h.nodup, h.recent.sublist hs⟩

theorem Ordered.forget (h : Ordered uses lru) (x : α) : Ordered uses (forget x lru) :=
  h.sublist List.filter_sublist

theorem Ordered.touch (h : Ordered uses lru) (x : α) : Ordered (x :: uses) (touch x lru) := by
  have hf := h.forget x
  have hold : ∀ y ∈ Recency.forget x lru, lastUse y (x :: uses) = lastUse y uses := by
    intro y hy
    have hne : x ≠ y := (mem_forget.1 hy).2.symm
    simp [lastUse, hne]
  refine ⟨List.nodup_cons.2 ⟨by simp, hf.nodup⟩, List.pairwise_cons.2 ⟨?_, ?_⟩⟩
  · intro y hy
    rw [hold y hy]
    simpa [lastUse] using Nat.lt_succ_of_le (lastUse_le y uses)
  · refine hf.recent.imp_of_mem fun {a b} ha hb hab => ?_
    rw [hold a ha, hold b hb]
    exact hab

theorem Ordered.oldest {y : α} (h : Ordered uses (lru ++ [y])) {x : α} (hx : x ∈ lru) :
    lastUse y uses < lastUse x uses :=
  (List.pairwise_append.1 h.recent).2.2 x hx y (by simp)

end Lark.Base.Recency
