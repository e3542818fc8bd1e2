import Mathlib.Logic.Function.Basic

namespace Lark.Base.Memo

variable {α β γ δ : Type} {f : α → β}

def Sound (f : α → β) (table : α → Option β) : Prop := ∀ a b, table a = some b → b = f a

def consult [DecidableEq α] (f : α → β) (a : α) : StateM (α → Option β) β := fun table =>
  match table a with
  | some b => (b, table)
  | none => (f a, Function.update table a (some (f a)))

def Answers (f : α → β) (x : StateM (α → Option β) γ) (v : γ) : Prop :=
  ∀ table, Sound f table → (x.run table).1 = v ∧ Sound f (x.run table).2

theorem sound_empty : Sound f fun _ => none := by
  intro a b h
  cases h

theorem Sound.update [DecidableEq α] {table : α → Option β} (h : Sound f table) (a : α) :
    Sound f (Function.update table a (some (f a))) := by
  intro a' b hb
  by_cases ha : a' = a
  · subst ha
    rw [Function.update_self] at hb
    exact (Option.some.inj hb).symm
  · rw [Function.update_of_ne ha] at hb
    exact h a' b hb

theorem answers_pure (v : γ) : Answers f (pure v) v := fun _ h => ⟨rfl, h⟩

theorem Answers.bind {x : StateM (α → Option β) γ} {k : γ → StateM (α → Option β) δ} {v : γ}
    {w : δ} (hx : Answers f x v) (hk : Answers f (k v) w) : Answers f (x >>= k) w := by
  intro table h
  obtain ⟨hv, hs⟩ := hx table h
  obtain ⟨hw, hs'⟩ := hk _ hs
  subst hv
  exact ⟨hw, hs'⟩

theorem answers_consult [DecidableEq α] (a : α) : Answers f (consult f a) (f a) := by
  intro table h
  change (consult f a table).1 = f a ∧ Sound f (consult f a table).2
  unfold consult
  cases ha : table a with
  | some b => exact ⟨h a b ha, h⟩
  | none => exact ⟨rfl, h.update a⟩

theorem Answers.mapM {k : γ → StateM (α → Option β) δ} {g : γ → δ} {xs : List γ}
    (hk : ∀ x ∈ xs, Answers f (k x) (g x)) : Answers f (xs.mapM k) (xs.map g) := by
  induction xs with
  | nil => exact answers_pure []
  | cons x xs ih =>
    rw [List.mapM_cons]
    have hx := hk x (by simp)
    have hxs := ih fun y hy => hk y (by simp [hy])
    exact hx.bind (hxs.bind (answers_pure _))

end Lark.Base.Memo
