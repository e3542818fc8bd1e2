import Mathlib.Data.List.Infix

namespace Lark.Base

variable {α : Type*} [DecidableEq α] {delim part rest s : List α}

def breakAt (delim : List α) : List α → Option (List α × List α)
  | [] => if delim = [] then some ([], []) else none
  | c :: cs =>
    if delim <+: c :: cs then some ([], (c :: cs).drop delim.length)
    else (breakAt delim cs).map fun p => (c :: p.1, p.2)

def Clear (delim part : List α) : Prop := ¬ delim <:+: part ++ delim.dropLast

theorem breakAt_eq_some (h : breakAt delim s = some (part, rest)) :
    s = part ++ delim ++ rest ∧ (delim ≠ [] → Clear delim part) := by
  induction s generalizing part with
  | nil =>
    simp only [breakAt, Option.ite_none_right_eq_some, Option.some.injEq, Prod.mk.injEq] at h
    obtain ⟨rfl, rfl, rfl⟩ := h
    exact ⟨rfl, fun h => absurd rfl h⟩
  | cons c cs ih =>
    rw [breakAt] at h
    split_ifs at h with hp
    · obtain ⟨t, ht⟩ := hp
      obtain ⟨rfl, rfl⟩ := Prod.mk.inj (Option.some.inj h)
      refine ⟨by rw [← ht, List.drop_left]; rfl, ?_⟩
      intro hne hinfix
      have hlen := hinfix.length_le
      have hpos := List.length_pos_of_ne_nil hne
      simp only [List.nil_append, List.length_dropLast] at hlen
      omega
    · obtain ⟨⟨q, r⟩, hq, hqr⟩ := Option.map_eq_some_iff.1 h
      obtain ⟨rfl, rfl⟩ := Prod.mk.inj hqr
      obtain ⟨hcs, hclear⟩ := ih hq
      refine ⟨by simp [hcs], ?_⟩
      intro hne hinfix
      rcases List.infix_cons_iff.1 hinfix with hprefix | hinfix
      · apply hp
        have hdrop : delim.dropLast <+: delim ++ r :=
          (List.dropLast_prefix delim).trans (List.prefix_append _ _)
        rw [hcs, List.append_assoc]
        exact hprefix.trans (List.prefix_append_right_inj (c :: q) |>.2 hdrop)
      · exact hclear hne hinfix

theorem breakAt_append (hne : delim ≠ []) (hclear : Clear delim part) (rest : List α) :
    breakAt delim (part ++ delim ++ rest) = some (part, rest) := by
  induction part with
  | nil =>
    obtain ⟨d, ds, rfl⟩ := List.exists_cons_of_ne_nil hne
    rw [List.nil_append, List.cons_append, breakAt, if_pos]
    · simp
    · exact ⟨rest, rfl⟩
  | cons c cs ih =>
    have hclear' : Clear delim cs := fun h => hclear (h.trans (List.suffix_cons c _).isInfix)
    have hno : ¬ delim <+: c :: (cs ++ delim ++ rest) := by
      intro hp
      have hwhole : c :: cs ++ delim.dropLast <+: c :: (cs ++ delim ++ rest) := by
        rw [List.append_assoc, ← List.cons_append, List.prefix_append_right_inj]
        exact (List.dropLast_prefix delim).trans (List.prefix_append _ _)
      apply hclear
      apply List.IsPrefix.isInfix
      apply List.prefix_of_prefix_length_le hp hwhole
      have hpos := List.length_pos_of_ne_nil hne
      simp only [List.length_append, List.length_cons, List.length_dropLast]
      omega
    rw [List.cons_append, List.cons_append, breakAt, if_neg hno, ih hclear']
    rfl

theorem breakAt_eq_none : breakAt delim s = none ↔ ¬ delim <:+: s := by
  induction s with
  | nil => simp [breakAt]
  | cons c cs ih =>
    rw [breakAt, List.infix_cons_iff]
    split_ifs with hp
    · simp [hp]
    · simp [hp, ih]

theorem length_breakAt (hne : delim ≠ []) (h : breakAt delim s = some (part, rest)) :
    rest.length < s.length := by
  obtain ⟨rfl, -⟩ := breakAt_eq_some h
  have hpos := List.length_pos_of_ne_nil hne
  simp only [List.length_append]
  omega

def splitAround (delim s : List α) : List (List α) :=
  if _hne : delim = [] then [s]
  else
    match _hb : breakAt delim s with
    | none => [s]
    | some (part, rest) => part :: splitAround delim rest
termination_by s.length
decreasing_by exact length_breakAt _hne _hb

theorem splitAround_of_none (hne : delim ≠ []) (h : breakAt delim s = none) :
    splitAround delim s = [s] := by
  rw [splitAround, dif_neg hne]
  split
  · rfl
  · rename_i hb
    rw [h] at hb
    cases hb

theorem splitAround_of_some (hne : delim ≠ []) (h : breakAt delim s = some (part, rest)) :
    splitAround delim s = part :: splitAround delim rest := by
  conv_lhs => rw [splitAround, dif_neg hne]
  split
  · rename_i hb
    rw [h] at hb
    cases hb
  · rename_i hb
    rw [h] at hb
    obtain ⟨rfl, rfl⟩ := Prod.mk.inj (Option.some.inj hb)
    rfl

theorem splitAround_ne_nil (delim s : List α) : splitAround delim s ≠ [] := by
  rw [splitAround]
  split
  · simp
  · split <;> simp

theorem splitAround_induction (hne : delim ≠ []) {motive : List α → Prop}
    (last : ∀ s, breakAt delim s = none → motive s)
    (step : ∀ s part rest, breakAt delim s = some (part, rest) → motive rest → motive s)
    (s : List α) : motive s := by
  induction hn : s.length using Nat.strong_induction_on generalizing s with
  | _ n ih =>
    cases hb : breakAt delim s with
    | none => exact last s hb
    | some p => exact step s p.1 p.2 hb (ih _ (hn ▸ length_breakAt hne hb) p.2 rfl)

theorem intercalate_splitAround (hne : delim ≠ []) (s : List α) :
    delim.intercalate (splitAround delim s) = s := by
  induction s using splitAround_induction hne with
  | last s hb => rw [splitAround_of_none hne hb, List.intercalate_singleton]
  | step s part rest hb ih =>
    rw [splitAround_of_some hne hb, List.intercalate_cons_of_ne_nil (splitAround_ne_nil _ _), ih]
    exact (breakAt_eq_some hb).1.symm

theorem clear_of_mem_splitAround (hne : delim ≠ []) (s : List α) :
    ∀ x ∈ (splitAround delim s).dropLast, Clear delim x := by
  induction s using splitAround_induction hne with
  | last s hb => simp [splitAround_of_none hne hb]
  | step s part rest hb ih =>
    intro x hx
    rw [splitAround_of_some hne hb, List.dropLast_cons_of_ne_nil (splitAround_ne_nil _ _)] at hx
    rcases List.mem_cons.1 hx with rfl | hx
    · exact (breakAt_eq_some hb).2 hne
    · exact ih x hx

theorem not_infix_of_mem_splitAround (hne : delim ≠ []) (s : List α) :
    ∀ x ∈ splitAround delim s, ¬ delim <:+: x := by
  induction s using splitAround_induction hne with
  | last s hb =>
    rw [splitAround_of_none hne hb]
    intro x hx
    rw [List.mem_singleton.1 hx]
    exact breakAt_eq_none.1 hb
  | step s part rest hb ih =>
    rw [splitAround_of_some hne hb]
    intro x hx
    rcases List.mem_cons.1 hx with rfl | hx
    · intro hoccurs
      exact (breakAt_eq_some hb).2 hne (hoccurs.trans (List.prefix_append _ _).isInfix)
    · exact ih x hx

theorem splitAround_intercalate (hne : delim ≠ []) {parts : List (List α)} {last : List α}
    (hclear : ∀ x ∈ parts, Clear delim x) (hlast : ¬ delim <:+: last) :
    splitAround delim (delim.intercalate (parts ++ [last])) = parts ++ [last] := by
  induction parts with
  | nil => rw [List.nil_append, List.intercalate_singleton,
      splitAround_of_none hne (breakAt_eq_none.2 hlast)]
  | cons part parts ih =>
    have hbreak := breakAt_append hne (hclear part List.mem_cons_self)
      (delim.intercalate (parts ++ [last]))
    rw [List.cons_append, List.intercalate_cons_of_ne_nil (by simp),
      splitAround_of_some hne hbreak, ih fun x hx => hclear x (List.mem_cons_of_mem _ hx)]

end Lark.Base
