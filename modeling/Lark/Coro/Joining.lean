import Lark.Coro.Future

namespace Lark.Coro

open Lark.Base Lark.Coro.Future

variable {F J E T : Type}

theorem holds_unique {f : FutureState E T} {o o' : Except E T} (h : Holds f o)
    (h' : Holds f o') : o = o' := by
  cases o with
  | ok v =>
    cases o' with
    | ok v' => rw [Option.some.inj (h.1.symm.trans h'.1)]
    | error e' => exact absurd (h.2.symm.trans h'.2) (by simp)
  | error e =>
    cases o' with
    | ok v' => exact absurd (h.2.symm.trans h'.2) (by simp)
    | error e' => rw [Option.some.inj (h.2.symm.trans h'.2)]

theorem holds_set {f : FutureState E T} {o : Except E T} (h : Holds f o) :
    Holds { f with done := true } o := by
  cases o with
  | ok v => exact h
  | error e => exact h

theorem not_holds_pending {o : Except E T} : ¬ Holds (.pending : FutureState E T) o := by
  intro h
  cases o with
  | ok v => cases h.1
  | error e => cases h.2

def unset (f : FutureState E T) : Nat := (if f.resolved then 0 else 1) + if f.done then 0 else 1

theorem unset_resolve {f : FutureState E T} (h : f.resolved = false) (o : Except E T) :
    unset (f.resolve o) < unset f := by
  simp [unset, h, resolve_resolved, resolve_done]

theorem unset_done {f : FutureState E T} (h : f.done = false) :
    unset { f with done := true } < unset f := by
  simp [unset, h]

structure World (F J E T : Type) where
  input : F → FutureState E T
  join : J

namespace World

inductive Step [DecidableEq F] (outcome : F → Except E T)
    (joinStep : (F → FutureState E T) → J → J → Prop) : World F J E T → World F J E T → Prop
  | settle {s} (f : F) (h : (s.input f).resolved = false) :
      Step outcome joinStep s
        { s with input := Function.update s.input f ((s.input f).resolve (outcome f)) }
  | signal {s} (f : F) (h : (s.input f).resolved = true) (hd : (s.input f).done = false) :
      Step outcome joinStep s
        { s with input := Function.update s.input f { s.input f with done := true } }
  | join {s j} (h : joinStep s.input s.join j) : Step outcome joinStep s { s with join := j }

def system [DecidableEq F] (outcome : F → Except E T)
    (joinStep : (F → FutureState E T) → J → J → Prop) (start : J) : System (World F J E T) where
  initial := fun s => s = ⟨fun _ => .pending, start⟩
  step := Step outcome joinStep

end World

def InputsOk (outcome : F → Except E T) (input : F → FutureState E T) : Prop :=
  ∀ f, input f = .pending ∨ (input f).resolved = true ∧ Holds (input f) (outcome f)

namespace InputsOk

variable {outcome : F → Except E T} {input : F → FutureState E T}

theorem holds (h : InputsOk outcome input) {f : F} {o : Except E T} (ho : Holds (input f) o) :
    o = outcome f ∧ (input f).resolved = true := by
  rcases h f with hp | ⟨hr, hv⟩
  · rw [hp] at ho
    exact absurd ho not_holds_pending
  · exact ⟨holds_unique ho hv, hr⟩

theorem of_done (h : InputsOk outcome input) {f : F} (hd : (input f).done = true) :
    (input f).resolved = true ∧ Holds (input f) (outcome f) := by
  rcases h f with hp | hv
  · rw [hp] at hd
    cases hd
  · exact hv

end InputsOk

section Invariant

variable [DecidableEq F] {outcome : F → Except E T}
  {joinStep : (F → FutureState E T) → J → J → Prop} {start : J}
  {I : (F → FutureState E T) → J → Prop}

theorem inputs_update {s : World F J E T} (h : InputsOk outcome s.input ∧ I s.input s.join)
    (hmono : ∀ input input' j, (∀ f o, Holds (input f) o → Holds (input' f) o) →
      I input j → I input' j)
    {f : F} {g : FutureState E T} (hr : g.resolved = true) (hg : Holds g (outcome f)) :
    InputsOk outcome (Function.update s.input f g) ∧ I (Function.update s.input f g) s.join := by
  refine ⟨fun f' => ?_, hmono _ _ _ (fun f' o ho => ?_) h.2⟩
  · rcases eq_or_ne f' f with rfl | hne
    · exact .inr (by simpa using ⟨hr, hg⟩)
    · simpa [hne] using h.1 f'
  · rcases eq_or_ne f' f with rfl | hne
    · rw [Function.update_self, (h.1.holds ho).1]
      exact hg
    · simpa [hne] using ho

theorem World.run_join {s t : World F J E T} {P : J → Prop}
    (hstep : ∀ input j j', P j → joinStep input j j' → P j')
    (h : Relation.ReflTransGen (World.Step outcome joinStep) s t) (hs : P s.join) : P t.join := by
  refine run_invariant (I := fun s : World F J E T => P s.join) ?_ hs h
  intro s t hs hst
  cases hst with
  | settle => exact hs
  | signal => exact hs
  | join hj => exact hstep _ _ _ hs hj

theorem World.reachable_inv {s : World F J E T}
    (h : (World.system outcome joinStep start).Reachable s) (hstart : I (fun _ => .pending) start)
    (hmono : ∀ input input' j, (∀ f o, Holds (input f) o → Holds (input' f) o) →
      I input j → I input' j)
    (hstep : ∀ input j j', InputsOk outcome input → I input j → joinStep input j j' →
      I input j') : InputsOk outcome s.input ∧ I s.input s.join := by
  refine System.Reachable.invariant
    (I := fun s : World F J E T => InputsOk outcome s.input ∧ I s.input s.join) ?_ ?_ h
  · rintro s rfl
    exact ⟨fun _ => .inl rfl, hstart⟩
  · intro s t hs hst
    cases hst with
    | settle f hf =>
      rcases hs.1 f with hp | ⟨hr, -⟩
      · refine inputs_update hs hmono resolve_resolved ?_
        rw [hp]
        exact holds_resolve_pending
      · simp [hf] at hr
    | signal f hf hd =>
      rcases hs.1 f with hp | ⟨hr, hv⟩
      · rw [hp] at hf
        cases hf
      · exact inputs_update hs hmono hr (holds_set hv)
    | join hj => exact ⟨hs.1, hstep _ _ _ hs.1 hs.2 hj⟩

theorem World.inputs_done {s : World F J E T}
    (hq : (World.system outcome joinStep start).Quiescent s) (f : F) : (s.input f).done = true := by
  cases hr : (s.input f).resolved with
  | false => exact absurd (World.Step.settle f hr) (hq _)
  | true =>
    cases hd : (s.input f).done with
    | false => exact absurd (World.Step.signal f hr hd) (hq _)
    | true => rfl

end Invariant

end Lark.Coro
