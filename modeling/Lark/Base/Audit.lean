import Mathlib.Data.List.Basic

namespace Lark.Base

variable {S E : Type} {f : S → E → S} {ok : S → E → Prop} {s : S} {es es' : List E} {e : E}

-- Every event is in order, given the state that the events before it lead to.
def Clean (f : S → E → S) (ok : S → E → Prop) (s : S) (es : List E) : Prop :=
  ∀ before e after, es = before ++ e :: after → ok (before.foldl f s) e

theorem clean_nil : Clean f ok s [] := by
  intro before e after h
  simp at h

theorem clean_cons_iff : Clean f ok s (e :: es) ↔ ok s e ∧ Clean f ok (f s e) es := by
  constructor
  · intro h
    refine ⟨h [] e es rfl, fun before e' after hsplit => ?_⟩
    exact h (e :: before) e' after (by rw [hsplit, List.cons_append])
  · rintro ⟨he, hrest⟩ before e' after hsplit
    cases before with
    | nil =>
      obtain ⟨rfl, rfl⟩ := List.cons.inj hsplit
      exact he
    | cons e'' before =>
      obtain ⟨rfl, htail⟩ := List.cons.inj hsplit
      exact hrest before e' after htail

theorem clean_append_iff :
    Clean f ok s (es ++ es') ↔ Clean f ok s es ∧ Clean f ok (es.foldl f s) es' := by
  induction es generalizing s with
  | nil => simp [clean_nil]
  | cons e es ih => rw [List.cons_append, clean_cons_iff, clean_cons_iff, ih, and_assoc,
      List.foldl_cons]

theorem clean_concat (h : Clean f ok s es) (he : ok (es.foldl f s) e) :
    Clean f ok s (es ++ [e]) :=
  clean_append_iff.2 ⟨h, clean_cons_iff.2 ⟨he, clean_nil⟩⟩

end Lark.Base
