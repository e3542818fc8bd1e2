import Mathlib.Data.List.AList
import Mathlib.Tactic

namespace Lark.Base

variable {α β γ : Type}

theorem foldl_rule_mem {P : β → Prop} {f : β → α → β} (xs : List α) {b : β} (h : P b)
    (hf : ∀ b, ∀ x ∈ xs, P b → P (f b x)) : P (xs.foldl f b) := by
  induction xs generalizing b with
  | nil => exact h
  | cons x xs ih => exact ih (hf b x (by simp) h) fun b y hy => hf b y (by simp [hy])

theorem foldl_rule {P : β → Prop} {f : β → α → β} (xs : List α) {b : β} (h : P b)
    (hf : ∀ b x, P b → P (f b x)) : P (xs.foldl f b) :=
  foldl_rule_mem xs h fun b x _ hb => hf b x hb

theorem foldl_along {P : β → Prop} {ok : β → α → Prop} {f : β → α → β} {xs : List α} {b : β}
    (h : P b) (hf : ∀ b x, P b → ok b x → P (f b x))
    (hok : ∀ before x, before ++ [x] <+: xs → ok (before.foldl f b) x) :
    ∀ before, before <+: xs → P (before.foldl f b) := by
  intro before
  induction before using List.reverseRecOn with
  | nil => exact fun _ => h
  | append_singleton before x ih =>
    intro hbefore
    rw [List.foldl_append]
    exact hf _ x (ih ((List.prefix_append before [x]).trans hbefore)) (hok before x hbefore)

theorem foldl_snd {f : α × β → γ → α × β} {g : β → γ → β} (h : ∀ w x, (f w x).2 = g w.2 x)
    (xs : List γ) (w : α × β) : (xs.foldl f w).2 = xs.foldl g w.2 := by
  induction xs generalizing w with
  | nil => rfl
  | cons x xs ih => rw [List.foldl_cons, List.foldl_cons, ih, h]

theorem foldl_collects {f : β → α → β} {S : β → γ → Prop} {A : List α → α → γ → Prop}
    {xs : List α} {b : β}
    (hstep : ∀ pre x post, xs = pre ++ x :: post → ∀ y,
      S (f (pre.foldl f b) x) y ↔ S (pre.foldl f b) y ∨ A pre x y) (y : γ) :
    S (xs.foldl f b) y ↔ S b y ∨ ∃ pre x post, xs = pre ++ x :: post ∧ A pre x y := by
  induction xs using List.reverseRecOn with
  | nil => simp
  | append_singleton xs x ih =>
    have hih := ih fun pre x' post he y => hstep pre x' (post ++ [x]) (by simp [he]) y
    rw [List.foldl_append, List.foldl_cons, List.foldl_nil, hstep xs x [] rfl y, hih, or_assoc]
    refine or_congr_right ?_
    constructor
    · rintro (⟨pre, x', post, rfl, ha⟩ | ha)
      · exact ⟨pre, x', post ++ [x], by simp, ha⟩
      · exact ⟨xs, x, [], rfl, ha⟩
    · rintro ⟨pre, x', post, he, ha⟩
      rcases List.eq_nil_or_concat post with rfl | ⟨post', z, rfl⟩
      · obtain ⟨rfl, hx⟩ := List.append_inj' he rfl
        obtain ⟨rfl, -⟩ := List.cons.inj hx
        exact .inr ha
      · rw [List.concat_eq_append, ← List.cons_append, ← List.append_assoc] at he
        obtain ⟨rfl, -⟩ := List.append_inj' he rfl
        exact .inl ⟨pre, x', post', rfl, ha⟩

theorem getElem?_snoc {xs : List α} {x y : α} {i : Nat} :
    (xs ++ [x])[i]? = some y ↔ xs[i]? = some y ∨ i = xs.length ∧ x = y := by
  rcases lt_trichotomy i xs.length with h | rfl | h
  · simp [List.getElem?_append_left h, h.ne]
  · simp
  · rw [List.getElem?_append_right h.le, List.getElem?_eq_none h.le]
    simp [h.ne', List.getElem?_eq_none (l := [x]) (i := i - xs.length) (by simp; omega)]

section Lookup

variable {κ α : Type} [DecidableEq κ]

theorem lookup_cons_ite (k : κ) (e : κ × α) (es : List (κ × α)) :
    (e :: es).lookup k = if k = e.1 then some e.2 else es.lookup k := by
  rw [List.lookup_cons]
  split_ifs with h
  · simp [h]
  · rw [beq_eq_false_iff_ne.mpr h]

theorem lookup_snoc {es : List (κ × α)} {k : κ} (h : es.lookup k = none) (x : α) (j : κ) :
    (es ++ [(k, x)]).lookup j = if j = k then some x else es.lookup j := by
  rw [List.lookup_append, lookup_cons_ite]
  by_cases hj : j = k
  · subst hj
    simp [h]
  · simp [hj]

theorem lookup_replace_ne {k j : κ} (hj : j ≠ k) (x : α) (es : List (κ × α)) :
    (es.map fun e => if e.1 = k then (k, x) else e).lookup j = es.lookup j := by
  induction es with
  | nil => rfl
  | cons e es ih =>
    rw [List.map_cons, lookup_cons_ite, lookup_cons_ite, ih]
    by_cases he : e.1 = k
    · simp [he, hj]
    · simp [he]

theorem lookup_replace_self {es : List (κ × α)} {k : κ} (h : (es.lookup k).isSome) (x : α) :
    (es.map fun e => if e.1 = k then (k, x) else e).lookup k = some x := by
  induction es with
  | nil => simp at h
  | cons e es ih =>
    rw [lookup_cons_ite] at h
    rw [List.map_cons, lookup_cons_ite]
    by_cases he : e.1 = k
    · simp [he]
    · rw [if_neg (Ne.symm he)] at h
      simp [he, Ne.symm he, ih h]

end Lookup

section Accumulate

variable {κ α : Type} [DecidableEq κ] [AddMonoid α] {m : AList fun _ : κ => α} {k : κ}

def addAt (m : AList fun _ : κ => α) (k : κ) (x : α) : AList fun _ : κ => α :=
  m.insert k ((m.lookup k).getD 0 + x)

def accumulate (m : AList fun _ : κ => α) (es : List (κ × α)) : AList fun _ : κ => α :=
  es.foldl (fun m e => addAt m e.1 e.2) m

theorem lookup_accumulate_of_not {es : List (κ × α)} (h : ∀ e ∈ es, e.1 ≠ k) :
    (accumulate m es).lookup k = m.lookup k := by
  induction es generalizing m with
  | nil => rfl
  | cons e es ih =>
    obtain ⟨he, hes⟩ := List.forall_mem_cons.1 h
    rw [accumulate, List.foldl_cons, ← accumulate, ih hes, addAt, AList.lookup_insert_ne he.symm]

theorem lookup_accumulate_of_mem {es : List (κ × α)}
    (h : (m.lookup k).isSome ∨ ∃ e ∈ es, e.1 = k) : (accumulate m es).lookup k =
      some ((m.lookup k).getD 0 + ((es.filter (·.1 = k)).map Prod.snd).sum) := by
  induction es generalizing m with
  | nil =>
    obtain ⟨a, ha⟩ := Option.isSome_iff_exists.1 (h.resolve_right (by simp))
    simp [accumulate, ha]
  | cons e es ih =>
    rw [accumulate, List.foldl_cons, ← accumulate]
    rcases eq_or_ne e.1 k with rfl | hne
    · have hadd : (addAt m e.1 e.2).lookup e.1 = some ((m.lookup e.1).getD 0 + e.2) :=
        AList.lookup_insert m
      rw [ih (.inl (by simp [hadd])), hadd]
      simp [add_assoc]
    · have hadd : (addAt m e.1 e.2).lookup k = m.lookup k := AList.lookup_insert_ne hne.symm
      rw [ih, hadd]
      · simp [hne]
      · rw [hadd]
        simpa [hne] using h

theorem sum_filter_of_nodup {es : List (κ × α)} (hnodup : (es.map Prod.fst).Nodup) {e : κ × α}
    (he : e ∈ es) : ((es.filter (·.1 = e.1)).map Prod.snd).sum = e.2 := by
  induction es with
  | nil => cases he
  | cons d es ih =>
    rw [List.map_cons, List.nodup_cons] at hnodup
    rcases List.mem_cons.1 he with rfl | he
    · have hnone : es.filter (·.1 = e.1) = [] := by
        apply List.filter_eq_nil_iff.2
        intro d hd heq
        exact hnodup.1 (of_decide_eq_true heq ▸ List.mem_map_of_mem hd)
      simp [hnone]
    · have hne : d.1 ≠ e.1 := by
        intro heq
        exact hnodup.1 (heq ▸ List.mem_map_of_mem he)
      simpa [hne] using ih hnodup.2 he

end Accumulate

section Sums

variable {κ α : Type} [DecidableEq κ] [AddCommMonoid α] (P : κ → Prop) [DecidablePred P]

def sumWhere (es : List (Σ _ : κ, α)) : α := ((es.filter fun e => P e.1).map Sigma.snd).sum

omit [DecidableEq κ] in
theorem sumWhere_cons (e : Σ _ : κ, α) (es : List (Σ _ : κ, α)) :
    sumWhere P (e :: es) = (if P e.1 then e.2 else 0) + sumWhere P es := by
  by_cases he : P e.1 <;> simp [sumWhere, he]

omit [DecidableEq κ] in
theorem sumWhere_perm {es es' : List (Σ _ : κ, α)} (h : es.Perm es') :
    sumWhere P es = sumWhere P es' := by
  rw [sumWhere, sumWhere]
  exact ((h.filter fun e => P e.1).map fun e => e.2).sum_eq

theorem sumWhere_kerase (k : κ) (es : List (Σ _ : κ, α)) :
    sumWhere P es = (if P k then (es.dlookup k).getD 0 else 0) + sumWhere P (es.kerase k) := by
  induction es with
  | nil => simp [sumWhere]
  | cons e es ih =>
    obtain ⟨k', x⟩ := e
    rcases eq_or_ne k k' with rfl | hne
    · have herase : List.kerase k (⟨k, x⟩ :: es) = es := List.kerase_cons_eq rfl
      rw [herase, List.dlookup_cons_eq, sumWhere_cons, Option.getD_some]
    · rw [List.kerase_cons_ne hne, List.dlookup_cons_ne _ _ hne, sumWhere_cons, sumWhere_cons, ih,
        add_left_comm]

theorem sumWhere_addAt (m : AList fun _ : κ => α) (k : κ) (x : α) :
    sumWhere P (addAt m k x).entries = sumWhere P m.entries + if P k then x else 0 := by
  rw [addAt, AList.entries_insert, sumWhere_cons, sumWhere_kerase P k m.entries, AList.lookup]
  split_ifs
  · rw [add_right_comm]
  · rw [zero_add, add_zero]

theorem sumWhere_accumulate (m : AList fun _ : κ => α) (es : List (κ × α)) :
    sumWhere P (accumulate m es).entries =
      sumWhere P m.entries + ((es.filter fun e => P e.1).map Prod.snd).sum := by
  induction es generalizing m with
  | nil => simp [accumulate]
  | cons e es ih =>
    rw [accumulate, List.foldl_cons, ← accumulate, ih, sumWhere_addAt, add_assoc]
    by_cases he : P e.1 <;> simp [he]

end Sums

end Lark.Base
