import Mathlib.Logic.Relation

namespace Lark.Base

structure System (S : Type) where
  initial : S → Prop
  step : S → S → Prop

namespace System

variable {S : Type} (M : System S)

def Reachable (s : S) : Prop := ∃ s₀, M.initial s₀ ∧ Relation.ReflTransGen M.step s₀ s

def Quiescent (s : S) : Prop := ∀ t, ¬ M.step s t

variable {M}

theorem reachable_initial {s : S} (h : M.initial s) : M.Reachable s := ⟨s, h, .refl⟩

theorem Reachable.step {s t : S} (h : M.Reachable s) (hst : M.step s t) : M.Reachable t := by
  obtain ⟨s₀, h₀, hs⟩ := h
  exact ⟨s₀, h₀, hs.tail hst⟩

theorem Reachable.invariant {I : S → Prop} (h₀ : ∀ s, M.initial s → I s)
    (hstep : ∀ s t, I s → M.step s t → I t) {s : S} (h : M.Reachable s) : I s := by
  obtain ⟨s₀, hi, hs⟩ := h
  induction hs with
  | refl => exact h₀ _ hi
  | tail _ ht ih => exact hstep _ _ ih ht

theorem exists_quiescent (hwf : WellFounded fun t s => M.step s t) {s : S} (h : M.Reachable s) :
    ∃ t, M.Reachable t ∧ M.Quiescent t := by
  induction s using hwf.induction with
  | _ s ih =>
    by_cases hq : M.Quiescent s
    · exact ⟨s, h, hq⟩
    · obtain ⟨t, hst⟩ := Classical.not_forall_not.1 hq
      exact ih t hst (h.step hst)

end System

section Confluence

open Relation

variable {S : Type} {r : S → S → Prop} {I : S → Prop} {s t u : S}

theorem run_invariant (hI : ∀ s t, I s → r s t → I t) (hs : I s) (h : ReflTransGen r s t) :
    I t := by
  induction h with
  | refl => exact hs
  | tail _ hst ih => exact hI _ _ ih hst

theorem run_within (hI : ∀ s t, I s → r s t → I t) (hs : I s) (h : ReflTransGen r s t) :
    ReflTransGen (fun s t => I s ∧ r s t) s t := by
  induction h with
  | refl => exact .refl
  | tail hrun hst ih => exact ih.tail ⟨run_invariant hI hs hrun, hst⟩

theorem eq_of_final (h : ReflTransGen (fun s t => I s ∧ r s t) s t) (hs : ∀ v, ¬ r s v) :
    s = t := by
  rcases h.cases_head with rfl | ⟨v, hv, -⟩
  · rfl
  · exact absurd hv.2 (hs v)

theorem final_unique (hI : ∀ s t, I s → r s t → I t)
    (hd : ∀ s t u, I s → r s t → r s u → t = u ∨ ∃ v, r t v ∧ r u v) (hs : I s)
    (ht : ReflTransGen r s t) (hu : ReflTransGen r s u) (ht' : ∀ v, ¬ r t v)
    (hu' : ∀ v, ¬ r u v) : t = u := by
  obtain ⟨v, htv, huv⟩ := church_rosser (r := fun s t => I s ∧ r s t) (fun a b c hb hc => by
    rcases hd a b c hb.1 hb.2 hc.2 with rfl | ⟨v, hbv, hcv⟩
    · exact ⟨b, .refl, .refl⟩
    · exact ⟨v, .single ⟨hI a b hb.1 hb.2, hbv⟩, .single ⟨hI a c hc.1 hc.2, hcv⟩⟩)
    (run_within hI hs ht) (run_within hI hs hu)
  exact (eq_of_final htv ht').trans (eq_of_final huv hu').symm

end Confluence

section Detour

open Relation

variable {α : Type} {r : α → α → Prop} {v a b : α}

def Avoiding (r : α → α → Prop) (v x y : α) : Prop := r x y ∧ x ≠ v ∧ y ≠ v

theorem path_of_avoiding (h : ReflTransGen (Avoiding r v) a b) : ReflTransGen r a b :=
  ReflTransGen.mono (fun _ _ h => h.1) _ _ h

theorem avoiding_or_reaches (h : TransGen r a b) (ha : a ≠ v) :
    (b = v → ∃ x, ReflTransGen (Avoiding r v) a x ∧ r x v) ∧
      (b ≠ v → TransGen (Avoiding r v) a b ∨ ∃ x y, ReflTransGen (Avoiding r v) a x ∧ r x v ∧
        r v y ∧ ReflTransGen (Avoiding r v) y b) := by
  induction h with
  | single hab =>
    refine ⟨?_, fun hb => .inl (.single ⟨hab, ha, hb⟩)⟩
    rintro rfl
    exact ⟨a, .refl, hab⟩
  | @tail c b _ hcb ih =>
    rcases Classical.em (c = v) with rfl | hc
    · obtain ⟨x, hax, hx⟩ := ih.1 rfl
      exact ⟨fun _ => ⟨x, hax, hx⟩, fun hb => .inr ⟨x, b, hax, hx, hcb, .refl⟩⟩
    · rcases ih.2 hc with hac | ⟨x, y, hax, hx, hy, hyc⟩
      · refine ⟨?_, fun hb => .inl (hac.tail ⟨hcb, hc, hb⟩)⟩
        rintro rfl
        exact ⟨c, hac.to_reflTransGen, hcb⟩
      · exact ⟨fun _ => ⟨x, hax, hx⟩, fun hb => .inr ⟨x, y, hax, hx, hy, hyc.tail ⟨hcb, hc, hb⟩⟩⟩

theorem transGen_avoiding_iff (ha : a ≠ v) (hb : b ≠ v) : TransGen r a b ↔
    TransGen (Avoiding r v) a b ∨ ∃ x y, ReflTransGen (Avoiding r v) a x ∧ r x v ∧ r v y ∧
      ReflTransGen (Avoiding r v) y b := by
  constructor
  · intro h
    exact (avoiding_or_reaches h ha).2 hb
  · rintro (h | ⟨x, y, hax, hx, hy, hyb⟩)
    · exact TransGen.mono (fun _ _ h => h.1) _ _ h
    · have htov : TransGen r a v := TransGen.tail' (path_of_avoiding hax) hx
      exact (htov.tail hy).trans_left (path_of_avoiding hyb)

end Detour

end Lark.Base
