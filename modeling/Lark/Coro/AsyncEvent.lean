import Lark.Base.Transition
import Mathlib.Logic.Function.Basic
import Mathlib.Tactic

namespace Lark.Coro.AsyncEvent

open Lark.Base

inductive Ptr (A : Type) where
  | null
  | event
  | waiter (a : A)
  deriving DecidableEq

inductive AwaiterPc (A : Type) where
  | awaitReady
  | awaitSuspend
  | compareExchange (old : Ptr A)
  | suspended
  | continued
  deriving DecidableEq

inductive SetPc (A : Type) where
  | exchange
  | resuming (waiter : Ptr A)
  | finished
  deriving DecidableEq

inductive Continuation (K : Type) where
  | notSuspended
  | resumedBy (k : K)

variable {A K : Type}

structure State (A K : Type) where
  state : Ptr A
  next : A → Ptr A
  awaiter : A → AwaiterPc A
  setter : K → SetPc A
  first : Option K
  log : A → List (Continuation K)

def State.init : State A K where
  state := .null
  next := fun _ => .null
  awaiter := fun _ => .awaitReady
  setter := fun _ => .exchange
  first := none
  log := fun _ => []

section Model

variable [DecidableEq A] [DecidableEq K]

def State.setAwaiter (s : State A K) (a : A) (pc : AwaiterPc A) : State A K :=
  { s with awaiter := Function.update s.awaiter a pc }

def State.setSetter (s : State A K) (k : K) (pc : SetPc A) : State A K :=
  { s with setter := Function.update s.setter k pc }

def State.continue (s : State A K) (a : A) (c : Continuation K) : State A K :=
  { s with awaiter := Function.update s.awaiter a .continued,
           log := Function.update s.log a (c :: s.log a) }

-- The body of await_suspend's do-while loop for the value `old` last read from `state_`.
def State.register (s : State A K) (a : A) (old : Ptr A) : State A K :=
  if old = .event then s.continue a .notSuspended
  else { s with next := Function.update s.next a old,
                awaiter := Function.update s.awaiter a (.compareExchange old) }

inductive Step : State A K → State A K → Prop
  | readySet {s a} (h : s.awaiter a = .awaitReady) (hs : s.state = .event) :
      Step s (s.continue a .notSuspended)
  | readyUnset {s a} (h : s.awaiter a = .awaitReady) (hs : s.state ≠ .event) :
      Step s (s.setAwaiter a .awaitSuspend)
  | load {s a} (h : s.awaiter a = .awaitSuspend) : Step s (s.register a s.state)
  | casSuccess {s a old} (h : s.awaiter a = .compareExchange old) (hs : s.state = old) :
      Step s { s.setAwaiter a .suspended with state := .waiter a }
  -- compare_exchange_weak may also fail when `state_` still holds `old`.
  | casFail {s a old} (h : s.awaiter a = .compareExchange old) : Step s (s.register a s.state)
  | exchangeFirst {s k} (h : s.setter k = .exchange) (hs : s.state ≠ .event) :
      Step s { s.setSetter k (.resuming s.state) with state := .event, first := some k }
  | exchangeSet {s k} (h : s.setter k = .exchange) (hs : s.state = .event) :
      Step s (s.setSetter k .finished)
  | resume {s k a} (h : s.setter k = .resuming (.waiter a)) :
      Step s ((s.setSetter k (.resuming (s.next a))).continue a (.resumedBy k))
  | resumeEnd {s k} (h : s.setter k = .resuming .null) : Step s (s.setSetter k .finished)

def system (A K : Type) [DecidableEq A] [DecidableEq K] : System (State A K) where
  initial := fun s => s = .init
  step := Step

end Model

def Chain (next : A → Ptr A) : Ptr A → List A → Prop
  | p, [] => p = .null
  | p, a :: xs => p = .waiter a ∧ Chain next (next a) xs

theorem chain_congr {next next' : A → Ptr A} {p : Ptr A} {xs : List A}
    (h : ∀ a ∈ xs, next' a = next a) (hc : Chain next p xs) : Chain next' p xs := by
  induction xs generalizing p with
  | nil => exact hc
  | cons a xs ih =>
    obtain ⟨hp, hc⟩ := hc
    refine ⟨hp, ?_⟩
    rw [h a (by simp)]
    exact ih (fun b hb => h b (by simp [hb])) hc

theorem chain_null {next : A → Ptr A} {xs : List A} (h : Chain next .null xs) : xs = [] := by
  cases xs with
  | nil => rfl
  | cons a xs => cases h.1

theorem chain_waiter {next : A → Ptr A} {a : A} {xs : List A} (h : Chain next (.waiter a) xs) :
    ∃ ys, xs = a :: ys ∧ Chain next (next a) ys := by
  cases xs with
  | nil => cases h
  | cons b ys =>
    obtain ⟨hp, hc⟩ := h
    cases hp
    exact ⟨ys, rfl, hc⟩

theorem chain_ne_event {next : A → Ptr A} {p : Ptr A} {xs : List A} (h : Chain next p xs) :
    p ≠ .event := by
  cases xs with
  | nil => simp [show p = .null from h]
  | cons a xs => simp [h.1]

-- The list that `state_` heads before the first exchange is the list its caller walks after it.
def Pending (s : State A K) (xs : List A) : Prop :=
  match s.first with
  | none => Chain s.next s.state xs ∧ ∀ k, s.setter k = .exchange
  | some k => s.state = .event ∧
      ((∃ p, s.setter k = .resuming p ∧ Chain s.next p xs) ∨ s.setter k = .finished ∧ xs = []) ∧
      ∀ k', k' ≠ k → s.setter k' = .exchange ∨ s.setter k' = .finished

theorem pending_frame {s t : State A K} {xs : List A} (hp : Pending s xs)
    (hf : t.first = s.first) (hst : t.state = s.state) (hset : t.setter = s.setter)
    (hn : ∀ a ∈ xs, t.next a = s.next a) : Pending t xs := by
  simp only [Pending, hf, hst, hset] at hp ⊢
  cases hs : s.first with
  | none =>
    rw [hs] at hp
    exact ⟨chain_congr hn hp.1, hp.2⟩
  | some k =>
    rw [hs] at hp
    obtain ⟨he, hc, ho⟩ := hp
    refine ⟨he, ?_, ho⟩
    rcases hc with ⟨p, hk, hc⟩ | hc
    · exact .inl ⟨p, hk, chain_congr hn hc⟩
    · exact .inr hc

theorem resuming_first {s : State A K} {k : K} {p : Ptr A} {xs : List A} (hp : Pending s xs)
    (hk : s.setter k = .resuming p) :
    s.first = some k ∧ s.state = .event ∧ Chain s.next p xs ∧
      ∀ k', k' ≠ k → s.setter k' = .exchange ∨ s.setter k' = .finished := by
  cases hf : s.first with
  | none =>
    rw [Pending, hf] at hp
    simp [hp.2 k] at hk
  | some k' =>
    rw [Pending, hf] at hp
    obtain ⟨he, hc, ho⟩ := hp
    have hkk : k' = k := by
      by_contra hne
      rcases ho k (Ne.symm hne) with h | h <;> simp [h] at hk
    subst hkk
    rcases hc with ⟨q, hq, hc⟩ | ⟨hc, -⟩
    · rw [hk] at hq
      cases hq
      exact ⟨rfl, he, hc, ho⟩
    · simp [hc] at hk

variable [DecidableEq A]

structure Inv (s : State A K) : Prop where
  pending : ∃ xs : List A, xs.Nodup ∧ (∀ a, a ∈ xs ↔ s.awaiter a = .suspended) ∧ Pending s xs
  cas : ∀ a old, s.awaiter a = .compareExchange old → s.next a = old ∧ old ≠ .event
  log : ∀ a, (s.log a).length = if s.awaiter a = .continued then 1 else 0
  early : ∀ a, s.awaiter a = .continued → s.first ≠ none

theorem inv_init : Inv (State.init : State A K) := by
  refine ⟨⟨[], .nil, ?_, ?_⟩, ?_, ?_, ?_⟩ <;> simp [State.init, Pending, Chain]

theorem first_of_event {s : State A K} (h : Inv s) (hs : s.state = .event) : s.first ≠ none := by
  obtain ⟨xs, -, -, hp⟩ := h.pending
  intro hf
  rw [Pending, hf] at hp
  exact chain_ne_event hp.1 hs

theorem exchanged_of_first {s : State A K} (h : Inv s) (hf : s.first ≠ none) :
    ∃ k, s.setter k ≠ .exchange := by
  obtain ⟨xs, -, -, hp⟩ := h.pending
  obtain ⟨k, hk⟩ := Option.ne_none_iff_exists'.1 hf
  rw [Pending, hk] at hp
  refine ⟨k, ?_⟩
  rcases hp.2.1 with ⟨p, hr, -⟩ | ⟨hr, -⟩ <;> simp [hr]

theorem not_suspended_of_finished {s : State A K} (h : Inv s) {k : K} (hf : s.first = some k)
    (hk : s.setter k = .finished) (a : A) : s.awaiter a ≠ .suspended := by
  obtain ⟨xs, -, hx, hp⟩ := h.pending
  rw [Pending, hf] at hp
  obtain ⟨-, ⟨p, hr, -⟩ | ⟨-, rfl⟩, -⟩ := hp
  · simp [hk] at hr
  · intro ha
    simpa using (hx a).2 ha

theorem mem_update {xs : List A} {f : A → AwaiterPc A} {a : A} {pc : AwaiterPc A}
    (hx : ∀ b, b ∈ xs ↔ f b = .suspended) (ha : f a ≠ .suspended) (hpc : pc ≠ .suspended) :
    ∀ b, b ∈ xs ↔ Function.update f a pc b = .suspended := by
  intro b
  rcases eq_or_ne b a with rfl | hb
  · simp [hx, ha, hpc]
  · simp [hx, hb]

section Update

variable {s : State A K} {a : A} {pc : AwaiterPc A}

theorem cas_update (h : Inv s) (hpc : ∀ old, pc ≠ .compareExchange old) (b : A) (old : Ptr A)
    (hb : Function.update s.awaiter a pc b = .compareExchange old) :
    s.next b = old ∧ old ≠ .event := by
  rcases eq_or_ne b a with rfl | hne
  · exact absurd (by simpa using hb) (hpc old)
  · exact h.cas b old (by simpa [hne] using hb)

theorem log_update (h : Inv s) (ha : s.awaiter a ≠ .continued) (hpc : pc ≠ .continued) (b : A) :
    (s.log b).length = if Function.update s.awaiter a pc b = .continued then 1 else 0 := by
  rcases eq_or_ne b a with rfl | hne
  · simpa [hpc, ha] using h.log b
  · simpa [hne] using h.log b

theorem early_update (h : Inv s) (hpc : pc ≠ .continued) (b : A)
    (hb : Function.update s.awaiter a pc b = .continued) : s.first ≠ none := by
  rcases eq_or_ne b a with rfl | hne
  · exact absurd (by simpa using hb) hpc
  · exact h.early b (by simpa [hne] using hb)

end Update

theorem inv_continue {s : State A K} {a : A} {c : Continuation K} (h : Inv s)
    (ha : s.awaiter a ≠ .suspended) (hc : s.awaiter a ≠ .continued) (hf : s.first ≠ none) :
    Inv (s.continue a c) := by
  obtain ⟨xs, hnd, hx, hp⟩ := h.pending
  refine ⟨⟨xs, hnd, mem_update hx ha (by simp), pending_frame hp rfl rfl rfl fun _ _ => rfl⟩,
    ?_, ?_, ?_⟩
  · exact cas_update h (by simp)
  · intro b
    rcases eq_or_ne b a with rfl | hne
    · simpa [State.continue, hc] using h.log b
    · simpa [State.continue, hne] using h.log b
  · intro b _
    exact hf

theorem inv_register {s : State A K} {a : A} (h : Inv s) (ha : s.awaiter a ≠ .suspended)
    (hc : s.awaiter a ≠ .continued) : Inv (s.register a s.state) := by
  unfold State.register
  split_ifs with he
  · exact inv_continue h ha hc (first_of_event h he)
  · obtain ⟨xs, hnd, hx, hp⟩ := h.pending
    have hnot : a ∉ xs := fun hm => ha ((hx a).1 hm)
    refine ⟨⟨xs, hnd, mem_update hx ha (by simp), pending_frame hp rfl rfl rfl ?_⟩, ?_, ?_, ?_⟩
    · intro b hb
      have hba : b ≠ a := by
        rintro rfl
        exact hnot hb
      simp [hba]
    · intro b old hb
      rcases eq_or_ne b a with rfl | hne
      · have hold : s.state = old := by simpa using hb
        subst hold
        simpa using he
      · simpa [hne] using h.cas b old (by simpa [hne] using hb)
    · exact log_update h hc (by simp)
    · exact early_update h (by simp)

theorem inv_awaitSuspend {s : State A K} {a : A} (h : Inv s) (ha : s.awaiter a = .awaitReady) :
    Inv (s.setAwaiter a .awaitSuspend) := by
  obtain ⟨xs, hnd, hx, hp⟩ := h.pending
  refine ⟨⟨xs, hnd, mem_update hx (by simp [ha]) (by simp),
    pending_frame hp rfl rfl rfl fun _ _ => rfl⟩, ?_, ?_, ?_⟩
  · exact cas_update h (by simp)
  · exact log_update h (by simp [ha]) (by simp)
  · exact early_update h (by simp)

theorem inv_casSuccess {s : State A K} {a : A} (h : Inv s)
    (ha : s.awaiter a = .compareExchange s.state) :
    Inv { s.setAwaiter a .suspended with state := .waiter a } := by
  obtain ⟨xs, hnd, hx, hp⟩ := h.pending
  obtain ⟨hnext, he⟩ := h.cas a _ ha
  have hnot : a ∉ xs := fun hm => by simpa [ha] using (hx a).1 hm
  have hfirst : s.first = none := by
    cases hf : s.first with
    | none => rfl
    | some k =>
      rw [Pending, hf] at hp
      exact absurd hp.1 he
  rw [Pending, hfirst] at hp
  refine ⟨⟨a :: xs, List.nodup_cons.2 ⟨hnot, hnd⟩, ?_, ?_⟩, ?_, ?_, ?_⟩
  · intro b
    rcases eq_or_ne b a with rfl | hne
    · simp [State.setAwaiter]
    · simp [State.setAwaiter, hne, hx]
  · simp only [Pending, State.setAwaiter, hfirst]
    refine ⟨⟨rfl, ?_⟩, hp.2⟩
    rw [hnext]
    exact hp.1
  · exact cas_update h (by simp)
  · exact log_update h (by simp [ha]) (by simp)
  · exact early_update h (by simp)

variable [DecidableEq K]

theorem inv_exchangeFirst {s : State A K} {k : K} (h : Inv s) (he : s.state ≠ .event) :
    Inv { s.setSetter k (.resuming s.state) with state := .event, first := some k } := by
  obtain ⟨xs, hnd, hx, hp⟩ := h.pending
  refine ⟨⟨xs, hnd, hx, ?_⟩, h.cas, h.log, by simp⟩
  cases hf : s.first with
  | some k' =>
    rw [Pending, hf] at hp
    exact absurd hp.1 he
  | none =>
    rw [Pending, hf] at hp
    refine ⟨rfl, .inl ⟨s.state, by simp [State.setSetter], hp.1⟩, ?_⟩
    intro k' hk
    simp [State.setSetter, hk, hp.2]

theorem inv_exchangeSet {s : State A K} {k : K} (h : Inv s) (hk : s.setter k = .exchange)
    (he : s.state = .event) : Inv (s.setSetter k .finished) := by
  obtain ⟨xs, hnd, hx, hp⟩ := h.pending
  refine ⟨⟨xs, hnd, hx, ?_⟩, h.cas, h.log, h.early⟩
  cases hf : s.first with
  | none => exact absurd hf (first_of_event h he)
  | some k' =>
    simp only [Pending, State.setSetter, hf] at hp ⊢
    obtain ⟨_, hc, ho⟩ := hp
    have hne : k' ≠ k := by
      rintro rfl
      simp [hk] at hc
    refine ⟨he, by simpa [hne] using hc, ?_⟩
    intro j hj
    rcases eq_or_ne j k with rfl | hjk
    · simp
    · simpa [hjk] using ho j hj

theorem inv_resume {s : State A K} {k : K} {a : A} (h : Inv s)
    (hk : s.setter k = .resuming (.waiter a)) :
    Inv ((s.setSetter k (.resuming (s.next a))).continue a (.resumedBy k)) := by
  obtain ⟨xs, hnd, hx, hp⟩ := h.pending
  obtain ⟨hf, he, hc, ho⟩ := resuming_first hp hk
  obtain ⟨ys, rfl, htail⟩ := chain_waiter hc
  obtain ⟨hnot, hnd⟩ := List.nodup_cons.1 hnd
  have hsus : s.awaiter a = .suspended := (hx a).1 (by simp)
  refine ⟨⟨ys, hnd, ?_, ?_⟩, ?_, ?_, ?_⟩
  · intro b
    rcases eq_or_ne b a with rfl | hne
    · simp [State.continue, State.setSetter, hnot]
    · have hb := hx b
      simpa [State.continue, State.setSetter, hne] using hb
  · simp only [Pending, State.continue, State.setSetter, hf]
    refine ⟨he, .inl ⟨s.next a, by simp, htail⟩, ?_⟩
    intro k' hk'
    simpa [hk'] using ho k' hk'
  · intro b old hb
    have hb' : Function.update s.awaiter a .continued b = .compareExchange old := hb
    exact cas_update h (by simp) b old hb'
  · intro b
    rcases eq_or_ne b a with rfl | hne
    · simpa [State.continue, State.setSetter, hsus] using h.log b
    · simpa [State.continue, State.setSetter, hne] using h.log b
  · intro b _
    simp [State.continue, State.setSetter, hf]

theorem inv_resumeEnd {s : State A K} {k : K} (h : Inv s) (hk : s.setter k = .resuming .null) :
    Inv (s.setSetter k .finished) := by
  obtain ⟨xs, hnd, hx, hp⟩ := h.pending
  obtain ⟨hf, he, hc, ho⟩ := resuming_first hp hk
  obtain rfl := chain_null hc
  refine ⟨⟨[], hnd, hx, ?_⟩, h.cas, h.log, h.early⟩
  unfold Pending
  rw [show (s.setSetter k .finished).first = some k from hf]
  refine ⟨he, .inr ⟨by simp [State.setSetter], rfl⟩, ?_⟩
  intro k' hk'
  simpa [State.setSetter, hk'] using ho k' hk'

theorem inv_step {s t : State A K} (h : Inv s) (hst : Step s t) : Inv t := by
  cases hst with
  | readySet ha hs => exact inv_continue h (by simp [ha]) (by simp [ha]) (first_of_event h hs)
  | readyUnset ha _ => exact inv_awaitSuspend h ha
  | load ha => exact inv_register h (by simp [ha]) (by simp [ha])
  | casSuccess ha hs =>
    subst hs
    exact inv_casSuccess h ha
  | casFail ha => exact inv_register h (by simp [ha]) (by simp [ha])
  | exchangeFirst _ hs => exact inv_exchangeFirst h hs
  | exchangeSet hk hs => exact inv_exchangeSet h hk hs
  | resume hk => exact inv_resume h hk
  | resumeEnd hk => exact inv_resumeEnd h hk

theorem inv_reachable {s : State A K} (h : (system A K).Reachable s) : Inv s :=
  h.invariant (fun _ hs => hs ▸ inv_init) fun _ _ => inv_step

theorem wakeups_exact {s : State A K} (h : (system A K).Reachable s) :
    (∀ a, (s.log a).length ≤ 1) ∧
    (∀ k, s.first = some k → s.setter k = .finished → ∀ a,
      s.awaiter a = .suspended ∨ s.awaiter a = .continued → (s.log a).length = 1) ∧
    (∀ a, s.log a ≠ [] → ∃ k, s.setter k ≠ .exchange) := by
  have hi := inv_reachable h
  refine ⟨?_, ?_, ?_⟩
  · intro a
    rw [hi.log a]
    split_ifs <;> omega
  · intro k hf hk a ha
    have hc := ha.resolve_left (not_suspended_of_finished hi hf hk a)
    rw [hi.log a, if_pos hc]
  · intro a ha
    have hc : s.awaiter a = .continued := by
      by_contra hne
      have hl := hi.log a
      rw [if_neg hne] at hl
      exact ha (List.length_eq_zero_iff.1 hl)
    exact exchanged_of_first hi (hi.early a hc)

theorem wakeups_exact_suspended_then_set : ∃ s : State Unit Unit,
    (system Unit Unit).Reachable s ∧ s.first = some () ∧ s.setter () = .finished ∧
    s.awaiter () = .continued ∧ (s.log ()).length = 1 := by
  have h₀ : (system Unit Unit).Reachable .init := System.reachable_initial rfl
  have h₁ := h₀.step (Step.readyUnset (a := ()) rfl (by simp [State.init]))
  have h₂ := h₁.step (Step.load (a := ()) rfl)
  have h₃ := h₂.step (Step.casSuccess (a := ()) rfl rfl)
  have h₄ := h₃.step (Step.exchangeFirst (k := ()) rfl (by simp))
  have h₅ := h₄.step (Step.resume (k := ()) (a := ()) rfl)
  have h₆ := h₅.step (Step.resumeEnd (k := ()) rfl)
  exact ⟨_, h₆, rfl, rfl, rfl, (wakeups_exact h₆).2.1 () rfl rfl () (.inr rfl)⟩

end Lark.Coro.AsyncEvent
