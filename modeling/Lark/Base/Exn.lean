import Mathlib.Tactic

namespace Lark.Base

-- `undefined` stands for undefined behaviour, `fuel` for a model that ran out of steps.
inductive Exn where
  | invalidArgument (what : String)
  | outOfRange (what : String)
  | runtimeError (what : String)
  | logicError (what : String)
  | dslError (what : String) (line col : Nat)
  | undefined (what : String)
  | fuel
  deriving DecidableEq, Repr

@[simp] theorem except_ok_bind {ε α β : Type} (a : α) (f : α → Except ε β) :
    (Except.ok a >>= f) = f a := rfl

@[simp] theorem except_error_bind {ε α β : Type} (e : ε) (f : α → Except ε β) :
    (Except.error e >>= f) = .error e := rfl

theorem except_bind_eq_ok {ε α β : Type} {x : Except ε α} {f : α → Except ε β} {b : β} :
    x >>= f = .ok b ↔ ∃ a, x = .ok a ∧ f a = .ok b := by
  cases x <;> simp

theorem except_map_eq_ok {ε α β : Type} {x : Except ε α} {f : α → β} {b : β} :
    (x >>= fun a => .ok (f a)) = .ok b ↔ ∃ a, x = .ok a ∧ f a = b := by
  cases x <;> simp

-- Two fallible computations that fail alike or succeed with related results.
inductive ExceptRel {ε α β : Type} (R : α → β → Prop) : Except ε α → Except ε β → Prop
  | error (e : ε) : ExceptRel R (.error e) (.error e)
  | ok {a : α} {b : β} (h : R a b) : ExceptRel R (.ok a) (.ok b)

theorem ExceptRel.bind_eq {ε α β α' β' : Type} {R : α → β → Prop} {S : α' → β' → Prop}
    {x : Except ε α} {y : Except ε β} {f : α → Except ε α'} {g : β → Except ε β'}
    (h : ExceptRel R x y) (hfg : ∀ a b, x = .ok a → R a b → ExceptRel S (f a) (g b)) :
    ExceptRel S (x >>= f) (y >>= g) := by
  cases h with
  | error e => exact .error e
  | ok h => exact hfg _ _ rfl h

theorem ExceptRel.bind {ε α β α' β' : Type} {R : α → β → Prop} {S : α' → β' → Prop}
    {x : Except ε α} {y : Except ε β} {f : α → Except ε α'} {g : β → Except ε β'}
    (h : ExceptRel R x y) (hfg : ∀ a b, R a b → ExceptRel S (f a) (g b)) :
    ExceptRel S (x >>= f) (y >>= g) :=
  h.bind_eq fun a b _ => hfg a b

theorem ExceptRel.mono {ε α β : Type} {R S : α → β → Prop} {x : Except ε α} {y : Except ε β}
    (h : ExceptRel R x y) (hRS : ∀ a b, R a b → S a b) : ExceptRel S x y := by
  cases h with
  | error e => exact .error e
  | ok h => exact .ok (hRS _ _ h)

theorem ExceptRel.refl {ε α : Type} {R : α → α → Prop} (x : Except ε α)
    (h : ∀ a, x = .ok a → R a a) : ExceptRel R x x := by
  cases x with
  | error e => exact .error e
  | ok a => exact .ok (h a rfl)

theorem mapM_ok {ε α β : Type} {xs : List α} {f : α → Except ε β} {g : α → β}
    (h : ∀ x ∈ xs, f x = .ok (g x)) : xs.mapM f = .ok (xs.map g) := by
  induction xs with
  | nil => rfl
  | cons x xs ih =>
    rw [List.mapM_cons, h x (by simp), except_ok_bind, ih fun y hy => h y (by simp [hy])]
    rfl

theorem mapM_congr {ε α β : Type} {xs : List α} {f g : α → Except ε β}
    (h : ∀ x ∈ xs, f x = g x) : xs.mapM f = xs.mapM g := by
  induction xs with
  | nil => rfl
  | cons x xs ih =>
    rw [List.mapM_cons, List.mapM_cons, h x (by simp), ih fun y hy => h y (by simp [hy])]

theorem forM_ok {ε α : Type} {xs : List α} {f : α → Except ε Unit}
    (h : ∀ x ∈ xs, f x = .ok ()) : xs.forM f = .ok () := by
  induction xs with
  | nil => rfl
  | cons x xs ih =>
    change (f x >>= fun _ => xs.forM f) = _
    rw [h x (by simp), except_ok_bind, ih fun y hy => h y (by simp [hy])]

theorem mapM_eq_ok_iff {ε α β : Type} {f : α → Except ε β} {xs : List α} {ys : List β} :
    xs.mapM f = .ok ys ↔ List.Forall₂ (fun x y => f x = .ok y) xs ys := by
  induction xs generalizing ys with
  | nil =>
    cases ys with
    | nil => simp [pure, Except.pure]
    | cons y ys => simp [pure, Except.pure]
  | cons x xs ih =>
    rw [List.mapM_cons]
    cases hx : f x with
    | error e => cases ys <;> simp [hx]
    | ok y =>
      cases hxs : xs.mapM f with
      | error e =>
        cases ys with
        | nil => simp
        | cons z ys =>
          have hne := @ih ys
          simp only [hxs, reduceCtorEq, false_iff] at hne
          simp [hne]
      | ok zs =>
        cases ys with
        | nil => simp [pure, Except.pure]
        | cons z ys =>
          have heq := @ih ys
          simp only [hxs, Except.ok.injEq] at heq
          simp [pure, Except.pure, hx, ← heq]

theorem getElem?_mapM {ε α β : Type} {f : α → Except ε β} {xs : List α} {ys : List β}
    (h : xs.mapM f = .ok ys) {i : Nat} {x : α} (hx : xs[i]? = some x) :
    ∃ y, ys[i]? = some y ∧ f x = .ok y := by
  have hrel := mapM_eq_ok_iff.mp h
  clear h
  induction hrel generalizing i with
  | nil => simp at hx
  | cons hxy _ ih =>
    cases i with
    | zero =>
      obtain rfl := Option.some.inj hx
      exact ⟨_, rfl, hxy⟩
    | succ i => exact ih hx

theorem exists_of_mem_mapM {ε α β : Type} {f : α → Except ε β} {xs : List α} {ys : List β}
    (h : xs.mapM f = .ok ys) {y : β} (hy : y ∈ ys) : ∃ x ∈ xs, f x = .ok y := by
  have hrel := mapM_eq_ok_iff.mp h
  clear h
  induction hrel with
  | nil => simp at hy
  | cons hxy _ ih =>
    rcases List.mem_cons.mp hy with rfl | hy
    · exact ⟨_, by simp, hxy⟩
    · obtain ⟨x, hx, hfx⟩ := ih hy
      exact ⟨x, by simp [hx], hfx⟩

theorem exists_mapM_ok {ε α β : Type} {f : α → Except ε β} {xs : List α}
    (h : ∀ x ∈ xs, ∃ y, f x = .ok y) : ∃ ys, xs.mapM f = .ok ys := by
  induction xs with
  | nil => exact ⟨[], rfl⟩
  | cons x xs ih =>
    obtain ⟨y, hy⟩ := h x (by simp)
    obtain ⟨ys, hys⟩ := ih fun z hz => h z (by simp [hz])
    refine ⟨y :: ys, ?_⟩
    rw [List.mapM_cons, hy, except_ok_bind, hys]
    rfl

theorem exists_of_mapM_error {ε α β : Type} {f : α → Except ε β} {xs : List α} {e : ε}
    (h : xs.mapM f = .error e) : ∃ x ∈ xs, f x = .error e := by
  induction xs with
  | nil => cases h
  | cons x xs ih =>
    rw [List.mapM_cons] at h
    cases hx : f x with
    | error e' =>
      rw [hx] at h
      exact ⟨x, by simp, by rw [hx, Except.error.inj h]⟩
    | ok y =>
      rw [hx, except_ok_bind] at h
      cases hxs : xs.mapM f with
      | error e' =>
        rw [hxs] at h
        obtain ⟨z, hz, hfz⟩ := ih (by rw [hxs]; exact h)
        exact ⟨z, by simp [hz], hfz⟩
      | ok ys =>
        rw [hxs] at h
        cases h

theorem mapM_range_error {ε β : Type} {f : Nat → Except ε β} {n m : Nat} {e : ε}
    (hok : ∀ i < n, ∃ y, f i = .ok y) (he : f n = .error e) (hn : n < m) :
    (List.range m).mapM f = .error e := by
  have hfront : ∀ i ∈ List.range n, ∃ y, f i = .ok y := by simpa using hok
  obtain ⟨ys, hys⟩ := exists_mapM_ok hfront
  obtain ⟨k, rfl⟩ := Nat.exists_eq_add_of_lt hn
  have hsplit : List.range (n + k + 1) =
      List.range n ++ n :: (List.range k).map (n + 1 + ·) := by
    rw [Nat.add_assoc, List.range_add, Nat.add_comm k 1, List.range_add]
    simp [Nat.add_assoc, Function.comp_def]
  rw [hsplit, List.mapM_append, hys, except_ok_bind, List.mapM_cons, he]
  rfl

end Lark.Base
