import Mathlib.Tactic

namespace Lark.Base

variable {ε σ α β γ : Type}

def Runs (x : EStateM ε σ α) (s : σ) (Q : α → σ → Prop) : Prop := ∃ a s', x s = .ok a s' ∧ Q a s'

def Yields (x : EStateM ε σ α) (s : σ) (Q : α → σ → Prop) : Prop :=
  ∀ a s', x s = .ok a s' → Q a s'

def Ends (x : EStateM ε σ α) (s : σ) (Q : α → σ → Prop) (E : Prop) : Prop :=
  match x s with
  | .ok a s' => Q a s'
  | .error _ _ => E

def finalState : EStateM.Result ε σ α → σ
  | .ok _ s => s
  | .error _ s => s

-- The invariant also survives an exception: the state is the one at the throw.
def Keeps (I : σ → Prop) (x : EStateM ε σ α) : Prop := ∀ s, I s → I (finalState (x s))

theorem bind_ok {x : EStateM ε σ α} {f : α → EStateM ε σ β} {s s' : σ} {a : α}
    (h : x s = .ok a s') : (x >>= f) s = f a s' := by
  change EStateM.bind x f s = _
  simp [EStateM.bind, h]

theorem bind_error {x : EStateM ε σ α} {f : α → EStateM ε σ β} {s s' : σ} {e : ε}
    (h : x s = .error e s') : (x >>= f) s = .error e s' := by
  change EStateM.bind x f s = _
  simp [EStateM.bind, h]

theorem bind_eq_ok {x : EStateM ε σ α} {f : α → EStateM ε σ β} {s t : σ} {b : β}
    (h : (x >>= f) s = .ok b t) : ∃ a s', x s = .ok a s' ∧ f a s' = .ok b t := by
  cases hxs : x s with
  | ok a s' => exact ⟨a, s', rfl, by rwa [bind_ok hxs] at h⟩
  | error e s' => simp [bind_error hxs] at h

namespace Runs

theorem pure {a : α} {s : σ} {Q : α → σ → Prop} (h : Q a s) :
    Runs (Pure.pure a : EStateM ε σ α) s Q := ⟨a, s, rfl, h⟩

theorem bind {x : EStateM ε σ α} {f : α → EStateM ε σ β} {s : σ} {Q : α → σ → Prop}
    {R : β → σ → Prop} (hx : Runs x s Q) (hf : ∀ a s', Q a s' → Runs (f a) s' R) :
    Runs (x >>= f) s R := by
  obtain ⟨a, s', hxs, hq⟩ := hx
  obtain ⟨b, t, hft, hr⟩ := hf a s' hq
  exact ⟨b, t, by rw [bind_ok hxs, hft], hr⟩

theorem mono {x : EStateM ε σ α} {s : σ} {Q R : α → σ → Prop} (hx : Runs x s Q)
    (h : ∀ a s', Q a s' → R a s') : Runs x s R := by
  obtain ⟨a, s', hxs, hq⟩ := hx
  exact ⟨a, s', hxs, h a s' hq⟩

theorem foldlM {xs : List γ} {f : α → γ → EStateM ε σ α} {g : β → γ → β} {a : α} {b : β} {s : σ}
    {V : α → σ → β → Prop} (h : V a s b)
    (hstep : ∀ pre x post a s, xs = pre ++ x :: post → V a s (pre.foldl g b) →
      Runs (f a x) s fun a' s' => V a' s' (g (pre.foldl g b) x)) :
    Runs (xs.foldlM f a) s fun a' s' => V a' s' (xs.foldl g b) := by
  induction xs generalizing a b s with
  | nil => exact ⟨a, s, rfl, h⟩
  | cons x xs ih =>
    rw [List.foldlM_cons]
    refine (hstep [] x xs a s rfl h).bind fun a' s' h' => ih h' ?_
    intro pre y post a s he
    exact hstep (x :: pre) y post a s (by simp [he])

theorem forM {xs : List γ} {f : γ → EStateM ε σ PUnit} {g : β → γ → β} {b : β} {s : σ}
    {V : σ → β → Prop} (h : V s b)
    (hstep : ∀ pre x post s, xs = pre ++ x :: post → V s (pre.foldl g b) →
      Runs (f x) s fun _ s' => V s' (g (pre.foldl g b) x)) :
    Runs (xs.forM f) s fun _ s' => V s' (xs.foldl g b) := by
  induction xs generalizing b s with
  | nil => exact ⟨⟨⟩, s, rfl, h⟩
  | cons x xs ih =>
    change Runs (f x >>= fun _ => xs.forM f) s _
    refine (hstep [] x xs s rfl h).bind fun _ s' h' => ih h' ?_
    intro pre y post s he
    exact hstep (x :: pre) y post s (by simp [he])

end Runs

namespace Yields

theorem bind {x : EStateM ε σ α} {f : α → EStateM ε σ β} {s : σ} {Q : α → σ → Prop}
    {R : β → σ → Prop} (hx : Yields x s Q) (hf : ∀ a s', Q a s' → Yields (f a) s' R) :
    Yields (x >>= f) s R := by
  intro b t hb
  obtain ⟨a, s', hxs, hfs⟩ := bind_eq_ok hb
  exact hf a s' (hx a s' hxs) b t hfs

theorem pure {a : α} {s : σ} {Q : α → σ → Prop} (h : Q a s) :
    Yields (Pure.pure a : EStateM ε σ α) s Q := by
  intro b t hb
  cases hb
  exact h

theorem trivial (x : EStateM ε σ α) (s : σ) : Yields x s fun _ _ => True := fun _ _ _ => True.intro

theorem foldlM {xs : List γ} {f : α → γ → EStateM ε σ α} {g : β → γ → β} {a : α} {b : β} {s : σ}
    {V : α → σ → β → Prop} {P : β → γ → Prop} (h : V a s b)
    (hstep : ∀ a b s, ∀ x ∈ xs, V a s b → Yields (f a x) s fun a' s' => P b x ∧ V a' s' (g b x)) :
    Yields (xs.foldlM f a) s fun a' s' => V a' s' (xs.foldl g b) ∧
      ∀ pre x post, xs = pre ++ x :: post → P (pre.foldl g b) x := by
  induction xs generalizing a b s with
  | nil =>
    intro a' s' he
    cases he
    exact ⟨h, by simp⟩
  | cons x xs ih =>
    rw [List.foldlM_cons]
    refine (hstep a b s x (by simp) h).bind fun a' s' h' => ?_
    intro a'' s'' he
    obtain ⟨hv, hp⟩ := ih h'.2 (fun a b s y hy => hstep a b s y (by simp [hy])) a'' s'' he
    refine ⟨hv, fun pre y post hsplit => ?_⟩
    cases pre with
    | nil =>
      obtain ⟨rfl, -⟩ := List.cons.inj hsplit
      exact h'.1
    | cons z pre =>
      obtain ⟨rfl, hrest⟩ := List.cons.inj hsplit
      exact hp pre y post hrest

theorem forM {xs : List γ} {f : γ → EStateM ε σ PUnit} {g : β → γ → β} {b : β} {s : σ}
    {V : σ → β → Prop} (h : V s b)
    (hstep : ∀ b s, ∀ x ∈ xs, V s b → Yields (f x) s fun _ s' => V s' (g b x)) :
    Yields (xs.forM f) s fun _ s' => V s' (xs.foldl g b) := by
  induction xs generalizing b s with
  | nil =>
    intro a s' he
    cases he
    exact h
  | cons x xs ih =>
    change Yields (f x >>= fun _ => xs.forM f) s _
    refine (hstep b s x (by simp) h).bind fun _ s' h' => ih h' ?_
    exact fun b s y hy => hstep b s y (by simp [hy])

theorem mono {x : EStateM ε σ α} {s : σ} {Q R : α → σ → Prop} (hx : Yields x s Q)
    (h : ∀ a s', Q a s' → R a s') : Yields x s R := fun a s' he => h a s' (hx a s' he)

theorem and {x : EStateM ε σ α} {s : σ} {Q R : α → σ → Prop} (hq : Yields x s Q)
    (hr : Yields x s R) : Yields x s fun a s' => Q a s' ∧ R a s' :=
  fun a s' he => ⟨hq a s' he, hr a s' he⟩

end Yields

namespace Ends

theorem pure {a : α} {s : σ} {Q : α → σ → Prop} {E : Prop} (h : Q a s) :
    Ends (Pure.pure a : EStateM ε σ α) s Q E := h

theorem bind {x : EStateM ε σ α} {f : α → EStateM ε σ β} {s : σ} {Q : α → σ → Prop}
    {R : β → σ → Prop} {E : Prop} (hx : Ends x s Q E) (hf : ∀ a s', Q a s' → Ends (f a) s' R E) :
    Ends (x >>= f) s R E := by
  unfold Ends at hx ⊢
  cases hxs : x s with
  | ok a s' =>
    rw [bind_ok hxs]
    rw [hxs] at hx
    exact hf a s' hx
  | error e s' =>
    rw [bind_error hxs]
    rwa [hxs] at hx

theorem mono {x : EStateM ε σ α} {s : σ} {Q R : α → σ → Prop} {E : Prop} (hx : Ends x s Q E)
    (h : ∀ a s', Q a s' → R a s') : Ends x s R E := by
  unfold Ends at hx ⊢
  cases hxs : x s with
  | ok a s' =>
    rw [hxs] at hx
    exact h a s' hx
  | error e s' => rwa [hxs] at hx

theorem forM {xs : List γ} {f : γ → EStateM ε σ PUnit} {s : σ} {V : List γ → σ → Prop} {E : Prop}
    (h : V [] s)
    (hstep : ∀ pre x post s, xs = pre ++ x :: post → V pre s →
      Ends (f x) s (fun _ s' => V (pre ++ [x]) s') E) :
    Ends (xs.forM f) s (fun _ s' => V xs s') E := by
  suffices hrest : ∀ rest pre s, xs = pre ++ rest → V pre s →
      Ends (rest.forM f) s (fun _ s' => V xs s') E from hrest xs [] s rfl h
  intro rest
  induction rest with
  | nil =>
    intro pre s hsplit hv
    rw [List.append_nil] at hsplit
    subst hsplit
    exact hv
  | cons x rest ih =>
    intro pre s hsplit hv
    change Ends (f x >>= fun _ => rest.forM f) s _ E
    refine (hstep pre x rest s hsplit hv).bind fun _ s' hv' => ?_
    exact ih (pre ++ [x]) s' (by simp [hsplit]) hv'

theorem ok_iff {x : EStateM ε σ α} {s : σ} {Q : α → σ → Prop} {P : Prop}
    (h : Ends x s (fun a s' => Q a s' ∧ P) (¬ P)) : P ↔ Runs x s Q := by
  unfold Ends at h
  constructor
  · intro hp
    cases hxs : x s with
    | ok a s' =>
      rw [hxs] at h
      exact ⟨a, s', hxs, h.1⟩
    | error e s' =>
      rw [hxs] at h
      exact absurd hp h
  · rintro ⟨a, s', hxs, -⟩
    rw [hxs] at h
    exact h.2

end Ends

def Gives (x : Except ε α) (Q : α → Prop) : Prop := ∀ a, x = .ok a → Q a

namespace Gives

theorem ok {a : α} {Q : α → Prop} (h : Q a) : Gives (.ok a : Except ε α) Q := by
  rintro b hb
  cases hb
  exact h

theorem error (e : ε) (Q : α → Prop) : Gives (.error e) Q := by
  rintro b hb
  cases hb

theorem bind {x : Except ε α} {f : α → Except ε β} {Q : α → Prop} {R : β → Prop} (hx : Gives x Q)
    (hf : ∀ a, Q a → Gives (f a) R) : Gives (x >>= f) R := by
  cases x with
  | ok a => exact hf a (hx a rfl)
  | error e => exact error e R

theorem mono {x : Except ε α} {Q R : α → Prop} (hx : Gives x Q) (h : ∀ a, Q a → R a) :
    Gives x R := fun a ha => h a (hx a ha)

theorem trivial (x : Except ε α) : Gives x fun _ => True := fun _ _ => True.intro

end Gives

def Settles (x : Except ε α) (Q : α → Prop) (E : ε → Prop) : Prop :=
  match x with
  | .ok a => Q a
  | .error e => E e

namespace Settles

variable {E : ε → Prop}

theorem bind {x : Except ε α} {f : α → Except ε β} {Q : α → Prop} {R : β → Prop}
    (hx : Settles x Q E) (hf : ∀ a, Q a → Settles (f a) R E) : Settles (x >>= f) R E := by
  cases x with
  | ok a => exact hf a hx
  | error e => exact hx

theorem mono {x : Except ε α} {Q R : α → Prop} (hx : Settles x Q E) (h : ∀ a, Q a → R a) :
    Settles x R E := by
  cases x with
  | ok a => exact h a hx
  | error e => exact hx

theorem and_gives {x : Except ε α} {Q R : α → Prop} (hx : Settles x Q E) (hr : Gives x R) :
    Settles x (fun a => Q a ∧ R a) E := by
  cases x with
  | ok a => exact ⟨hx, hr a rfl⟩
  | error e => exact hx

end Settles

def Simulates {ε' : Type} (x : Except ε α) (y : Except ε' β) (R : α → β → Prop) : Prop :=
  ∀ a, x = .ok a → ∃ b, y = .ok b ∧ R a b

namespace Simulates

variable {α' β' ε' : Type}

theorem ok {a : α} {b : β} {R : α → β → Prop} (h : R a b) :
    Simulates (.ok a : Except ε α) (.ok b : Except ε' β) R := by
  rintro a' ha
  cases ha
  exact ⟨b, rfl, h⟩

theorem error (e : ε) (y : Except ε' β) (R : α → β → Prop) : Simulates (.error e) y R := by
  rintro a ha
  cases ha

theorem bind {x : Except ε α} {y : Except ε' β} {f : α → Except ε α'} {g : β → Except ε' β'}
    {R : α → β → Prop} {S : α' → β' → Prop} (h : Simulates x y R)
    (hfg : ∀ a b, R a b → Simulates (f a) (g b) S) : Simulates (x >>= f) (y >>= g) S := by
  cases x with
  | error e => exact error e _ S
  | ok a =>
    obtain ⟨b, rfl, hab⟩ := h a rfl
    exact hfg a b hab

end Simulates

namespace Keeps

variable {I : σ → Prop}

theorem yields {x : EStateM ε σ α} {s : σ} (hx : Keeps I x) (h : I s) :
    Yields x s fun _ s' => I s' := by
  intro a s' he
  have hs := hx s h
  rwa [he] at hs

theorem pure (a : α) : Keeps I (Pure.pure a : EStateM ε σ α) := fun _ h => h

theorem throw (e : ε) : Keeps I (MonadExcept.throw e : EStateM ε σ α) := fun _ h => h

theorem get : Keeps I (MonadState.get : EStateM ε σ σ) := fun _ h => h

theorem modify {f : σ → σ} (hf : ∀ s, I s → I (f s)) :
    Keeps I (modifyGet fun s => (PUnit.unit, f s) : EStateM ε σ PUnit) := by
  intro s h
  exact hf s h

theorem bind {x : EStateM ε σ α} {f : α → EStateM ε σ β} (hx : Keeps I x)
    (hf : ∀ a, Keeps I (f a)) : Keeps I (x >>= f) := by
  intro s h
  have hs := hx s h
  cases hxs : x s with
  | ok a s' =>
    rw [bind_ok hxs]
    rw [hxs] at hs
    exact hf a s' hs
  | error e s' =>
    rw [bind_error hxs]
    rwa [hxs] at hs

theorem foldlM {xs : List γ} {f : α → γ → EStateM ε σ α} (hf : ∀ a, ∀ x ∈ xs, Keeps I (f a x))
    (a : α) : Keeps I (xs.foldlM f a) := by
  induction xs generalizing a with
  | nil => exact pure a
  | cons x xs ih =>
    rw [List.foldlM_cons]
    exact (hf a x (by simp)).bind fun a' => ih (fun a y hy => hf a y (by simp [hy])) a'

theorem forM {xs : List γ} {f : γ → EStateM ε σ PUnit} (hf : ∀ x ∈ xs, Keeps I (f x)) :
    Keeps I (xs.forM f) := by
  induction xs with
  | nil => exact pure PUnit.unit
  | cons x xs ih =>
    change Keeps I (f x >>= fun _ => xs.forM f)
    exact (hf x (by simp)).bind fun _ => ih fun y hy => hf y (by simp [hy])

end Keeps

end Lark.Base
