import Lark.Base.Counting
import Lark.Coro.Joining

namespace Lark.Coro.AnyOf

open Lark.Base Lark.Coro.Future

-- The program points of `RunAnyOf`; `setting` and `finished` say which branch led there.
inductive Phase (E T : Type) where
  | detached
  | awaiting
  | failed (e : E)
  | recording (e : E)
  | tallying (e : E)
  | checking (e : E)
  | rejecting (e : E)
  | claiming (v : T)
  | winning (v : T)
  | setting (ok : Bool)
  | finished (ok : Bool)

namespace Phase

variable {E T : Type}

def tallied : Phase E T → Bool
  | checking _ => true
  | rejecting _ => true
  | setting ok => !ok
  | finished ok => !ok
  | _ => false

def passed : Phase E T → Bool
  | winning _ => true
  | setting _ => true
  | finished _ => true
  | ph => ph.tallied

def isFinished : Phase E T → Bool
  | finished _ => true
  | _ => false

end Phase

-- `order` and `resolvers` are history: the continuations in the order in which they exchanged
-- the winner flag or counted their failure, and those whose resolution of `out` took effect.
structure State (n : Nat) (E T V : Type) where
  phase : Fin n → Phase E T
  winner : Bool
  failures : Nat
  firstError : Option E
  out : FutureState E V
  order : List (Fin n)
  resolvers : List (Fin n)

variable {n : Nat} {E T V : Type}

namespace State

def init : State n E T V := ⟨fun _ => .detached, false, 0, none, .pending, [], []⟩

def setPhase (s : State n E T V) (i : Fin n) (ph : Phase E T) : State n E T V :=
  { s with phase := Function.update s.phase i ph }

def lock (s : State n E T V) (i : Fin n) (ok : Bool) (o : Except E V) : State n E T V :=
  { s with
    out := s.out.resolve o
    phase := Function.update s.phase i (if s.out.resolved then .finished ok else .setting ok)
    resolvers := if s.out.resolved then s.resolvers else s.resolvers ++ [i] }

end State

-- `RunAnyOf` passes errors through the `shared` slot `first_error`; `RunAnyOfVoid` has no slot.
inductive Step (pick : Fin n → T → V) (shared : Bool) (src : Fin n → FutureState E T) :
    State n E T V → State n E T V → Prop
  | attach {s} (i : Fin n) (h : s.phase i = .detached) (hp : ∀ j < i, s.phase j ≠ .detached) :
      Step pick shared src s (s.setPhase i .awaiting)
  | resumeError {s} (i : Fin n) {e} (h : s.phase i = .awaiting) (hd : (src i).done = true)
      (he : (src i).error = some e) :
      Step pick shared src s (s.setPhase i (if shared then .failed e else .tallying e))
  | resumeValue {s} (i : Fin n) {v} (h : s.phase i = .awaiting) (hd : (src i).done = true)
      (he : (src i).error = none) (hv : (src i).value = some v) :
      Step pick shared src s (s.setPhase i (.claiming v))
  | load {s} (i : Fin n) {e} (h : s.phase i = .failed e) :
      Step pick shared src s (s.setPhase i (if s.winner then .tallying e else .recording e))
  | record {s} (i : Fin n) {e} (h : s.phase i = .recording e) :
      Step pick shared src s { s.setPhase i (.tallying e) with firstError := some e }
  | tally {s} (i : Fin n) {e} (h : s.phase i = .tallying e) :
      Step pick shared src s
        { s.setPhase i (if s.failures + 1 = n then .checking e else .finished false) with
          failures := s.failures + 1
          order := s.order ++ [i] }
  | check {s} (i : Fin n) {e} (h : s.phase i = .checking e) :
      Step pick shared src s
        (s.setPhase i (if s.winner then .finished false else .rejecting e))
  | rejectShared {s} (i : Fin n) {e e'} (h : s.phase i = .rejecting e) (hs : shared = true)
      (he : s.firstError = some e') : Step pick shared src s (s.lock i false (.error e'))
  | rejectOwn {s} (i : Fin n) {e} (h : s.phase i = .rejecting e) (hs : shared = false) :
      Step pick shared src s (s.lock i false (.error e))
  | claim {s} (i : Fin n) {v} (h : s.phase i = .claiming v) :
      Step pick shared src s { s.setPhase i (if s.winner then .finished true else .winning v) with
        winner := true
        order := s.order ++ [i] }
  | win {s} (i : Fin n) {v} (h : s.phase i = .winning v) :
      Step pick shared src s (s.lock i true (.ok (pick i v)))
  | set {s} (i : Fin n) {ok} (h : s.phase i = .setting ok) :
      Step pick shared src s
        { s.setPhase i (.finished ok) with out := { s.out with done := true } }

inductive PhaseOk (f : FutureState E T) : Phase E T → Prop
  | detached : PhaseOk f .detached
  | awaiting : PhaseOk f .awaiting
  | failed {e} (h : Holds f (.error e)) : PhaseOk f (.failed e)
  | recording {e} (h : Holds f (.error e)) : PhaseOk f (.recording e)
  | tallying {e} (h : Holds f (.error e)) : PhaseOk f (.tallying e)
  | checking {e} (h : Holds f (.error e)) : PhaseOk f (.checking e)
  | rejecting {e} (h : Holds f (.error e)) : PhaseOk f (.rejecting e)
  | claiming {v} (h : Holds f (.ok v)) : PhaseOk f (.claiming v)
  | winning {v} (h : Holds f (.ok v)) : PhaseOk f (.winning v)
  | settingError {e} (h : Holds f (.error e)) : PhaseOk f (.setting false)
  | settingValue {v} (h : Holds f (.ok v)) : PhaseOk f (.setting true)
  | finishedError {e} (h : Holds f (.error e)) : PhaseOk f (.finished false)
  | finishedValue {v} (h : Holds f (.ok v)) : PhaseOk f (.finished true)

def succeeded (src : Fin n → FutureState E T) (i : Fin n) : Bool := (src i).value.isSome

def Won (pick : Fin n → T → V) (src : Fin n → FutureState E T) (s : State n E T V)
    (i : Fin n) (v : T) : Prop :=
  s.order.find? (succeeded src) = some i ∧ Holds (src i) (.ok v) ∧
    ((s.phase i = .winning v ∧ s.out = .pending ∧ s.resolvers = []) ∨
      (s.out.resolved = true ∧ Holds s.out (.ok (pick i v)) ∧ s.resolvers = [i]))

def Lost (src : Fin n → FutureState E T) (s : State n E T V) : Prop :=
  (s.out = .pending ∧ s.resolvers = []) ∨
    ∃ i j e, s.out.resolved = true ∧ Holds s.out (.error e) ∧ s.resolvers = [i] ∧
      Holds (src j) (.error e) ∧ s.failures = n

structure Inv (pick : Fin n → T → V) (shared : Bool) (src : Fin n → FutureState E T)
    (s : State n E T V) : Prop where
  phase : ∀ i, PhaseOk (src i) (s.phase i)
  order : ∀ i, i ∈ s.order ↔ (s.phase i).passed = true
  tally : s.failures = count (fun ph : Phase E T => ph.tallied = true) s.phase
  won : s.winner = true → ∃ i v, Won pick src s i v
  lost : s.winner = false → Lost src s ∧ ∀ i ∈ s.order, (src i).value = none
  winning : ∀ i v, s.phase i = .winning v →
    s.winner = true ∧ s.order.find? (succeeded src) = some i
  all : ∀ i e, s.phase i = .checking e ∨ s.phase i = .rejecting e → s.failures = n
  error : ∀ e, s.firstError = some e → ∃ j, Holds (src j) (.error e)
  recorded : shared = true → s.winner = false → ∀ i,
    (∃ e, s.phase i = .tallying e) ∨ (s.phase i).tallied = true → s.firstError ≠ none
  settled : ∀ i ok, s.phase i = .setting ok → s.out.resolved = true
  live : s.failures = n → 0 < n → s.out.resolved = true ∨
    ∃ i e, s.phase i = .checking e ∨ s.phase i = .rejecting e

section

variable {f g : FutureState E T} {ph : Phase E T} {src src' : Fin n → FutureState E T}

theorem phaseOk_mono (h : PhaseOk f ph) (hfg : ∀ o, Holds f o → Holds g o) : PhaseOk g ph := by
  cases h with
  | detached => exact .detached
  | awaiting => exact .awaiting
  | failed h => exact .failed (hfg _ h)
  | recording h => exact .recording (hfg _ h)
  | tallying h => exact .tallying (hfg _ h)
  | checking h => exact .checking (hfg _ h)
  | rejecting h => exact .rejecting (hfg _ h)
  | claiming h => exact .claiming (hfg _ h)
  | winning h => exact .winning (hfg _ h)
  | settingError h => exact .settingError (hfg _ h)
  | settingValue h => exact .settingValue (hfg _ h)
  | finishedError h => exact .finishedError (hfg _ h)
  | finishedValue h => exact .finishedValue (hfg _ h)

theorem phaseOk_tallied (h : PhaseOk f ph) (ht : ph.tallied = true) : ∃ e, Holds f (.error e) := by
  cases h with
  | checking h => exact ⟨_, h⟩
  | rejecting h => exact ⟨_, h⟩
  | settingError h => exact ⟨_, h⟩
  | finishedError h => exact ⟨_, h⟩
  | _ => simp [Phase.tallied] at ht

theorem phaseOk_passed (h : PhaseOk f ph) (hp : ph.passed = true) : ∃ o, Holds f o := by
  cases h with
  | checking h => exact ⟨_, h⟩
  | rejecting h => exact ⟨_, h⟩
  | winning h => exact ⟨_, h⟩
  | settingError h => exact ⟨_, h⟩
  | settingValue h => exact ⟨_, h⟩
  | finishedError h => exact ⟨_, h⟩
  | finishedValue h => exact ⟨_, h⟩
  | _ => simp [Phase.passed, Phase.tallied] at hp

theorem holds_value {o : Except E T} (h : Holds f o) : f.value = o.toOption := by
  cases o with
  | ok v => exact h.1
  | error e => exact h.1

theorem holds_error_ok {e : E} {v : T} (he : Holds f (.error e)) : ¬ Holds f (.ok v) := by
  intro hv
  cases holds_unique he hv

theorem find_congr {l : List (Fin n)} (h : ∀ i ∈ l, (src' i).value = (src i).value) :
    l.find? (succeeded src') = l.find? (succeeded src) :=
  List.find?_congr fun i hi => by simp only [succeeded, h i hi]

end

namespace Inv

variable {pick : Fin n → T → V} {shared : Bool} {src src' : Fin n → FutureState E T}
  {s t : State n E T V} {i : Fin n}

theorem value_kept (h : Inv pick shared src s) (hs : ∀ i o, Holds (src i) o → Holds (src' i) o) :
    ∀ i ∈ s.order, (src' i).value = (src i).value := by
  intro i hi
  obtain ⟨o, ho⟩ := phaseOk_passed (h.phase i) ((h.order i).1 hi)
  rw [holds_value ho, holds_value (hs i o ho)]

theorem mono (h : Inv pick shared src s) (hs : ∀ i o, Holds (src i) o → Holds (src' i) o) :
    Inv pick shared src' s where
  phase := fun i => phaseOk_mono (h.phase i) (hs i)
  order := h.order
  tally := h.tally
  won := by
    intro hw
    obtain ⟨i, v, hfirst, hv, hstate⟩ := h.won hw
    exact ⟨i, v, by rwa [find_congr (h.value_kept hs)], hs i _ hv, hstate⟩
  lost := by
    intro hw
    obtain ⟨hlost, hnone⟩ := h.lost hw
    refine ⟨?_, fun i hi => by rw [h.value_kept hs i hi, hnone i hi]⟩
    rcases hlost with hpend | ⟨i, j, e, hres, hout, hr, he, hall⟩
    · exact .inl hpend
    · exact .inr ⟨i, j, e, hres, hout, hr, hs _ _ he, hall⟩
  winning := by
    intro i v hi
    rw [find_congr (h.value_kept hs)]
    exact h.winning i v hi
  all := h.all
  error := fun e he => (h.error e he).imp fun j => hs j _
  recorded := h.recorded
  settled := h.settled
  live := h.live

theorem tallied_of_all (h : Inv pick shared src s) (hn : s.failures = n) (i : Fin n) :
    (s.phase i).tallied = true := by
  refine (count_eq_card (q := fun ph : Phase E T => ph.tallied = true)).1 ?_ i
  rw [← h.tally, hn, Fintype.card_fin]

theorem not_all (h : Inv pick shared src s) (hi : (s.phase i).tallied = false) :
    s.failures ≠ n := by
  intro hn
  simp [h.tallied_of_all hn i] at hi

theorem winner_of_all (h : Inv pick shared src s) (hn : s.failures = n) : s.winner = false := by
  cases hw : s.winner with
  | false => rfl
  | true =>
    obtain ⟨i, v, -, hv, -⟩ := h.won hw
    obtain ⟨e, he⟩ := phaseOk_tallied (h.phase i) (h.tallied_of_all hn i)
    exact absurd hv (holds_error_ok he)

theorem phase_self (s : State n E T V) (i : Fin n) (ph : Phase E T) :
    (s.setPhase i ph).phase i = ph := by
  simp [State.setPhase]

theorem phase_other {j : Fin n} (hj : j ≠ i) (ph : Phase E T) :
    (s.setPhase i ph).phase j = s.phase j := by
  simp [State.setPhase, hj]

theorem phase_moved (h : Inv pick shared src s) {ph : Phase E T} (hph : PhaseOk (src i) ph)
    (j : Fin n) : PhaseOk (src j) ((s.setPhase i ph).phase j) := by
  rcases eq_or_ne j i with rfl | hne
  · rw [phase_self]
    exact hph
  · rw [phase_other hne]
    exact h.phase j

theorem order_passed (h : Inv pick shared src s) {ph : Phase E T} (hph : ph.passed = true)
    (j : Fin n) : (j ∈ s.order ++ [i]) ↔ ((s.setPhase i ph).phase j).passed = true := by
  rcases eq_or_ne j i with rfl | hne
  · simp [phase_self, hph]
  · simp [phase_other hne, hne, h.order j]

theorem find_kept {p : Fin n → Bool} {order : List (Fin n)} {j : Fin n}
    (hj : order.find? p = some j) (i : Fin n) : (order ++ [i]).find? p = some j := by
  simp [hj]

theorem move (h : Inv pick shared src s) {ph : Phase E T} (hph : PhaseOk (src i) ph)
    (hpassed : ph.passed = (s.phase i).passed) (htallied : ph.tallied = (s.phase i).tallied)
    (hw : ∀ v, ph ≠ .winning v) (hw' : ∀ v, s.phase i = .winning v → s.out.resolved = true)
    (hall : ∀ e, ph = .checking e ∨ ph = .rejecting e → s.failures = n)
    (hrec : shared = true → s.winner = false → (∃ e, ph = .tallying e) → s.firstError ≠ none)
    (hset : ∀ ok, ph = .setting ok → s.out.resolved = true)
    (hlive : (∃ e, s.phase i = .checking e ∨ s.phase i = .rejecting e) →
      s.out.resolved = true ∨ ∃ e, ph = .checking e ∨ ph = .rejecting e) :
    Inv pick shared src (s.setPhase i ph) := by
  refine ⟨h.phase_moved hph, fun j => ?_, ?_, fun hwin => ?_, h.lost, fun j v hj => ?_,
    fun j e hj => ?_, h.error, fun hsh hwin j hj => ?_, fun j ok hj => ?_, fun hn hpos => ?_⟩
  · rcases eq_or_ne j i with rfl | hne
    · rw [phase_self, hpassed]
      exact h.order j
    · rw [phase_other hne]
      exact h.order j
  · refine h.tally.trans (count_update_same ?_).symm
    rw [htallied]
  · obtain ⟨j, v, hfirst, hv, hstate⟩ := h.won hwin
    refine ⟨j, v, hfirst, hv, hstate.imp_left fun hj => ?_⟩
    have hne : j ≠ i := by
      rintro rfl
      have hres := hw' v hj.1
      rw [hj.2.1] at hres
      cases hres
    rwa [phase_other hne]
  · rcases eq_or_ne j i with rfl | hne
    · rw [phase_self] at hj
      exact absurd hj (hw v)
    · rw [phase_other hne] at hj
      exact h.winning j v hj
  · rcases eq_or_ne j i with rfl | hne
    · rw [phase_self] at hj
      exact hall e hj
    · rw [phase_other hne] at hj
      exact h.all j e hj
  · rcases eq_or_ne j i with rfl | hne
    · rw [phase_self] at hj
      rcases hj with hj | hj
      · exact hrec hsh hwin hj
      · exact h.recorded hsh hwin j (.inr (htallied ▸ hj))
    · rw [phase_other hne] at hj
      exact h.recorded hsh hwin j hj
  · rcases eq_or_ne j i with rfl | hne
    · rw [phase_self] at hj
      exact hset ok hj
    · rw [phase_other hne] at hj
      exact h.settled j ok hj
  · rcases h.live hn hpos with hr | ⟨j, e, hj⟩
    · exact .inl hr
    · rcases eq_or_ne j i with rfl | hne
      · refine (hlive ⟨e, hj⟩).imp_right ?_
        rintro ⟨e', he'⟩
        exact ⟨j, e', by rwa [phase_self]⟩
      · exact .inr ⟨j, e, by rwa [phase_other hne]⟩

theorem record (h : Inv pick shared src s) {e : E} (hi : s.phase i = .recording e) :
    Inv pick shared src { s.setPhase i (.tallying e) with firstError := some e } := by
  have hp := h.phase i
  rw [hi] at hp
  have he : Holds (src i) (.error e) := by
    cases hp with
    | recording he => exact he
  have hinv : Inv pick shared src { s with firstError := some e } := by
    refine ⟨h.phase, h.order, h.tally, h.won, h.lost, h.winning, h.all, ?_, ?_, h.settled, h.live⟩
    · intro e' he'
      rw [← Option.some.inj he']
      exact ⟨i, he⟩
    · simp
  refine hinv.move (.tallying he) ?_ ?_ (by simp) (by simp [hi]) (by simp) (by simp) (by simp)
    (by simp [hi])
  · simp [hi, Phase.passed, Phase.tallied]
  · simp [hi, Phase.tallied]

theorem tallyFailure (h : Inv pick shared src s) {e : E} (hi : s.phase i = .tallying e) :
    Inv pick shared src
      { s.setPhase i (if s.failures + 1 = n then .checking e else .finished false) with
        failures := s.failures + 1
        order := s.order ++ [i] } := by
  have hp := h.phase i
  rw [hi] at hp
  have he : Holds (src i) (.error e) := by
    cases hp with
    | tallying he => exact he
  have hnot : s.failures ≠ n := h.not_all (i := i) (by simp [hi, Phase.tallied])
  set ph : Phase E T := if s.failures + 1 = n then .checking e else .finished false with hph
  have hok : PhaseOk (src i) ph := by
    rw [hph]
    split_ifs
    · exact .checking he
    · exact .finishedError he
  have htallied : ph.tallied = true := by
    rw [hph]
    split_ifs <;> rfl
  have hpassed : ph.passed = true := by
    rw [hph]
    split_ifs <;> rfl
  refine ⟨h.phase_moved hok, h.order_passed hpassed, ?_, fun hwin => ?_, fun hwin => ?_,
    fun j v hj => ?_, fun j e' hj => ?_, h.error, fun hsh hwin j hj => ?_, fun j ok hj => ?_,
    fun hn _ => ?_⟩
  · have hgrow := count_update_grow (q := fun ph : Phase E T => ph.tallied = true) (f := s.phase)
      (x := i) (by simp [hi, Phase.tallied]) htallied
    exact (congrArg (· + 1) h.tally).trans hgrow.symm
  · obtain ⟨j, v, hfirst, hv, hstate⟩ := h.won hwin
    refine ⟨j, v, find_kept hfirst i, hv, hstate.imp_left fun hj => ?_⟩
    have hne : j ≠ i := by
      rintro rfl
      simp [hi] at hj
    rwa [phase_other hne]
  · obtain ⟨hlost, hnone⟩ := h.lost hwin
    refine ⟨?_, fun j hj => ?_⟩
    · rcases hlost with hpend | ⟨_, _, _, _, _, _, _, hall⟩
      · exact .inl hpend
      · exact absurd hall hnot
    · rcases List.mem_append.1 hj with hj | hj
      · exact hnone j hj
      · obtain rfl := List.mem_singleton.1 hj
        exact holds_value he
  · rcases eq_or_ne j i with rfl | hne
    · rw [phase_self, hph] at hj
      split_ifs at hj
    · rw [phase_other hne] at hj
      obtain ⟨hwin, hfirst⟩ := h.winning j v hj
      exact ⟨hwin, find_kept hfirst i⟩
  · rcases eq_or_ne j i with rfl | hne
    · rw [phase_self, hph] at hj
      split_ifs at hj with hn
      · exact hn
      · simp at hj
    · rw [phase_other hne] at hj
      exact absurd (h.all j e' hj) hnot
  · rcases eq_or_ne j i with rfl | hne
    · exact h.recorded hsh hwin j (.inl ⟨e, hi⟩)
    · rw [phase_other hne] at hj
      exact h.recorded hsh hwin j hj
  · rcases eq_or_ne j i with rfl | hne
    · rw [phase_self, hph] at hj
      split_ifs at hj
    · rw [phase_other hne] at hj
      exact h.settled j ok hj
  · refine .inr ⟨i, e, .inl ?_⟩
    rw [phase_self, hph, if_pos hn]

theorem claim (h : Inv pick shared src s) {v : T} (hi : s.phase i = .claiming v) :
    Inv pick shared src { s.setPhase i (if s.winner then .finished true else .winning v) with
      winner := true
      order := s.order ++ [i] } := by
  have hp := h.phase i
  rw [hi] at hp
  have hv : Holds (src i) (.ok v) := by
    cases hp with
    | claiming hv => exact hv
  have hnot : s.failures ≠ n := h.not_all (i := i) (by simp [hi, Phase.tallied])
  set ph : Phase E T := if s.winner then .finished true else .winning v with hph
  have hok : PhaseOk (src i) ph := by
    rw [hph]
    split_ifs
    · exact .finishedValue hv
    · exact .winning hv
  have htallied : ph.tallied = false := by
    rw [hph]
    split_ifs <;> rfl
  have hpassed : ph.passed = true := by
    rw [hph]
    split_ifs <;> rfl
  have hnew : s.winner = false → (s.order ++ [i]).find? (succeeded src) = some i := by
    intro hwin
    have hnone : s.order.find? (succeeded src) = none := by
      rw [List.find?_eq_none]
      intro j hj
      simp [succeeded, (h.lost hwin).2 j hj]
    simp [hnone, succeeded, holds_value hv, Except.toOption]
  refine ⟨h.phase_moved hok, h.order_passed hpassed, ?_, fun _ => ?_, fun hwin => by simp at hwin,
    fun j w hj => ?_, fun j e' hj => ?_, h.error, fun _ hwin => by simp at hwin,
    fun j ok hj => ?_, fun hn => ?_⟩
  · refine h.tally.trans (count_update_same ?_).symm
    rw [htallied, hi]
    rfl
  · cases hwin : s.winner with
    | true =>
      obtain ⟨j, w, hfirst, hw, hstate⟩ := h.won hwin
      refine ⟨j, w, find_kept hfirst i, hw, hstate.imp_left fun hj => ?_⟩
      have hne : j ≠ i := by
        rintro rfl
        simp [hi] at hj
      rwa [phase_other hne]
    | false =>
      rcases (h.lost hwin).1 with hpend | ⟨_, _, _, _, _, _, _, hall⟩
      · refine ⟨i, v, hnew hwin, hv, .inl ⟨?_, hpend⟩⟩
        rw [phase_self, hph, if_neg (by simp [hwin])]
      · exact absurd hall hnot
  · refine ⟨rfl, ?_⟩
    rcases eq_or_ne j i with rfl | hne
    · rw [phase_self, hph] at hj
      cases hwin : s.winner with
      | true => simp [hwin] at hj
      | false => exact hnew hwin
    · rw [phase_other hne] at hj
      exact find_kept (h.winning j w hj).2 i
  · rcases eq_or_ne j i with rfl | hne
    · rw [phase_self, hph] at hj
      split_ifs at hj <;> simp at hj
    · rw [phase_other hne] at hj
      exact h.all j e' hj
  · rcases eq_or_ne j i with rfl | hne
    · rw [phase_self, hph] at hj
      split_ifs at hj
    · rw [phase_other hne] at hj
      exact h.settled j ok hj
  · exact absurd hn hnot

theorem lock (h : Inv pick shared src s) {ok : Bool} {o : Except E V}
    (hok : PhaseOk (src i) (.finished ok)) (hset : PhaseOk (src i) (.setting ok))
    (hpassed : (s.phase i).passed = true) (htallied : (s.phase i).tallied = !ok)
    (hwon : s.winner = true → ∃ i' v, Won pick src { s with
      out := s.out.resolve o
      resolvers := if s.out.resolved then s.resolvers else s.resolvers ++ [i] } i' v)
    (hlost : s.winner = false → Lost src { s with
      out := s.out.resolve o
      resolvers := if s.out.resolved then s.resolvers else s.resolvers ++ [i] }) :
    Inv pick shared src (s.lock i ok o) := by
  have hres : (s.out.resolve o).resolved = true := resolve_resolved
  have hinv : Inv pick shared src { s with
      out := s.out.resolve o
      resolvers := if s.out.resolved then s.resolvers else s.resolvers ++ [i] } :=
    ⟨h.phase, h.order, h.tally, hwon, fun hwin => ⟨hlost hwin, (h.lost hwin).2⟩, h.winning, h.all,
      h.error, h.recorded, fun _ _ _ => hres, fun _ _ => .inl hres⟩
  have hph : PhaseOk (src i) (if s.out.resolved then .finished ok else .setting ok) := by
    split_ifs
    · exact hok
    · exact hset
  refine hinv.move hph ?_ ?_ ?_ (fun _ _ => hres) ?_ ?_ (fun _ _ => hres) fun _ => .inl hres
  · rw [hpassed]
    split_ifs <;> rfl
  · rw [htallied]
    split_ifs <;> rfl
  · intro v
    split_ifs <;> simp
  · intro e
    split_ifs <;> simp
  · split_ifs <;> simp

theorem win (h : Inv pick shared src s) {v : T} (hi : s.phase i = .winning v) :
    Inv pick shared src (s.lock i true (.ok (pick i v))) := by
  have hp := h.phase i
  rw [hi] at hp
  have hv : Holds (src i) (.ok v) := by
    cases hp with
    | winning hv => exact hv
  obtain ⟨hwin, hfirst⟩ := h.winning i v hi
  refine h.lock (.finishedValue hv) (.settingValue hv) (by simp [hi, Phase.passed])
    (by simp [hi, Phase.tallied]) (fun _ => ?_) fun hno => by simp [hwin] at hno
  obtain ⟨j, w, hj, hw, hstate⟩ := h.won hwin
  obtain rfl : i = j := Option.some.inj (hfirst.symm.trans hj)
  obtain rfl : v = w := Except.ok.inj (holds_unique hv hw)
  refine ⟨i, v, hfirst, hv, .inr ?_⟩
  rcases hstate with ⟨-, hout, hr⟩ | ⟨hres, hout, hr⟩
  · simpa [hout, hr, FutureState.pending] using ⟨resolve_resolved, holds_resolve_pending⟩
  · simpa [resolve_of_resolved hres, hres] using ⟨hout, hr⟩

theorem reject (h : Inv pick shared src s) {e e' : E} (hi : s.phase i = .rejecting e) {j : Fin n}
    (hj : Holds (src j) (.error e')) : Inv pick shared src (s.lock i false (.error e')) := by
  have hp := h.phase i
  rw [hi] at hp
  have he : Holds (src i) (.error e) := by
    cases hp with
    | rejecting he => exact he
  have hall := h.all i e (.inr hi)
  have hwin := h.winner_of_all hall
  refine h.lock (.finishedError he) (.settingError he) (by simp [hi, Phase.passed, Phase.tallied])
    (by simp [hi, Phase.tallied]) (fun hno => by simp [hwin] at hno) fun _ => ?_
  rcases (h.lost hwin).1 with ⟨hout, hr⟩ | ⟨k, l, e₀, hres, hout, hr, hl, -⟩
  · refine .inr ⟨i, j, e', ?_⟩
    simpa [hout, hr, FutureState.pending] using
      ⟨resolve_resolved, holds_resolve_pending, hj, hall⟩
  · refine .inr ⟨k, l, e₀, ?_⟩
    simpa [resolve_of_resolved hres, hres] using ⟨hout, hr, hl, hall⟩

theorem set (h : Inv pick shared src s) {ok : Bool} (hi : s.phase i = .setting ok) :
    Inv pick shared src
      { s.setPhase i (.finished ok) with out := { s.out with done := true } } := by
  have hp := h.phase i
  rw [hi] at hp
  have hres := h.settled i ok hi
  have hinv : Inv pick shared src { s with out := { s.out with done := true } } := by
    refine ⟨h.phase, h.order, h.tally, fun hwin => ?_, fun hwin => ?_, h.winning, h.all, h.error,
      h.recorded, h.settled, h.live⟩
    · obtain ⟨j, v, hfirst, hv, ⟨-, hout, -⟩ | hstate⟩ := h.won hwin
      · simp [hout, FutureState.pending] at hres
      · exact ⟨j, v, hfirst, hv, .inr hstate⟩
    · obtain ⟨⟨hout, -⟩ | hrej, hnone⟩ := h.lost hwin
      · simp [hout, FutureState.pending] at hres
      · exact ⟨.inr hrej, hnone⟩
  have hfin : PhaseOk (src i) (.finished ok) := by
    cases hp with
    | settingError he => exact .finishedError he
    | settingValue hv => exact .finishedValue hv
  refine hinv.move hfin ?_ ?_ (by simp) (by simp [hi]) (by simp) (by simp) (by simp) (by simp [hi])
  · simp [hi, Phase.passed]
  · simp [hi, Phase.tallied]

theorem check (h : Inv pick shared src s) {e : E} (hi : s.phase i = .checking e) :
    Inv pick shared src (s.setPhase i (if s.winner then .finished false else .rejecting e)) := by
  have hp := h.phase i
  rw [hi] at hp
  have he : Holds (src i) (.error e) := by
    cases hp with
    | checking he => exact he
  have hall := h.all i e (.inl hi)
  rw [if_neg (by simp [h.winner_of_all hall])]
  refine h.move (.rejecting he) ?_ ?_ (by simp) (by simp [hi]) (fun _ _ => hall) (by simp) (by simp)
    fun _ => .inr ⟨e, .inr rfl⟩
  · simp [hi, Phase.passed, Phase.tallied]
  · simp [hi, Phase.tallied]

theorem step (h : Inv pick shared src s) (hst : Step pick shared src s t)
    (hsrc : ∀ i, (src i).done = true → ∃ o, Holds (src i) o) : Inv pick shared src t := by
  cases hst with
  | attach i hi =>
    refine h.move .awaiting ?_ ?_ (by simp) (by simp [hi]) (by simp) (by simp) (by simp)
      (by simp [hi])
    · simp [hi, Phase.passed, Phase.tallied]
    · simp [hi, Phase.tallied]
  | @resumeError i e hi hd he =>
    obtain ⟨o, ho⟩ := hsrc i hd
    have hf : Holds (src i) (.error e) := by
      cases o with
      | ok v => simp [ho.2] at he
      | error e' => exact ⟨ho.1, he⟩
    cases hshared : shared with
    | true =>
      subst hshared
      refine h.move (.failed hf) ?_ ?_ (by simp) (by simp [hi]) (by simp) (by simp) (by simp)
        (by simp [hi])
      · simp [hi, Phase.passed, Phase.tallied]
      · simp [hi, Phase.tallied]
    | false =>
      subst hshared
      refine h.move (.tallying hf) ?_ ?_ (by simp) (by simp [hi]) (by simp) (by simp) (by simp)
        (by simp [hi])
      · simp [hi, Phase.passed, Phase.tallied]
      · simp [hi, Phase.tallied]
  | resumeValue i hi hd he hv =>
    refine h.move (.claiming ⟨hv, he⟩) ?_ ?_ (by simp) (by simp [hi]) (by simp) (by simp) (by simp)
      (by simp [hi])
    · simp [hi, Phase.passed, Phase.tallied]
    · simp [hi, Phase.tallied]
  | @load i e hi =>
    have hp := h.phase i
    rw [hi] at hp
    have he : Holds (src i) (.error e) := by
      cases hp with
      | failed he => exact he
    cases hwin : s.winner with
    | true =>
      refine h.move (.tallying he) ?_ ?_ (by simp) (by simp [hi]) (by simp) (by simp [hwin])
        (by simp) (by simp [hi])
      · simp [hi, Phase.passed, Phase.tallied]
      · simp [hi, Phase.tallied]
    | false =>
      refine h.move (.recording he) ?_ ?_ (by simp) (by simp [hi]) (by simp) (by simp) (by simp)
        (by simp [hi])
      · simp [hi, Phase.passed, Phase.tallied]
      · simp [hi, Phase.tallied]
  | record i hi => exact h.record hi
  | tally i hi => exact h.tallyFailure hi
  | check i hi => exact h.check hi
  | rejectShared i hi _ he => exact (h.error _ he).elim fun j hj => h.reject hi hj
  | @rejectOwn i e hi =>
    have hp := h.phase i
    rw [hi] at hp
    cases hp with
    | rejecting he => exact h.reject hi he
  | claim i hi => exact h.claim hi
  | win i hi => exact h.win hi
  | set i hi => exact h.set hi

theorem init (src : Fin n → FutureState E T) : Inv pick shared src .init := by
  refine ⟨fun _ => .detached, ?_, ?_, ?_, fun _ => ⟨.inl ⟨rfl, rfl⟩, ?_⟩, ?_, ?_, ?_, ?_, ?_, ?_⟩
  · simp [State.init, Phase.passed, Phase.tallied]
  · simp [State.init, count, Phase.tallied]
  · simp [State.init]
  · simp [State.init]
  · simp [State.init]
  · simp [State.init]
  · simp [State.init]
  · simp [State.init, Phase.tallied]
  · simp [State.init]
  · intro hz hpos
    exact absurd hz hpos.ne

theorem resolved_of_finished (h : Inv pick shared src s)
    (hf : ∀ i, (s.phase i).isFinished = true) (hpos : 0 < n) : s.out.resolved = true := by
  by_cases hall : ∀ i, s.phase i = .finished false
  · have hn : s.failures = n := by
      have hcard := (count_eq_card (q := fun ph : Phase E T => ph.tallied = true)
        (f := s.phase)).2 fun i => by simp [hall i, Phase.tallied]
      rw [h.tally, hcard, Fintype.card_fin]
    rcases h.live hn hpos with hr | ⟨i, e, hi⟩
    · exact hr
    · simp [hall i] at hi
  · obtain ⟨i, hi⟩ := not_forall.1 hall
    have hfin := hf i
    have htrue : s.phase i = .finished true := by
      cases hp : s.phase i with
      | finished ok =>
        cases ok with
        | true => rfl
        | false => exact absurd hp hi
      | _ => simp [hp, Phase.isFinished] at hfin
    have hmem : i ∈ s.order := (h.order i).2 (by simp [htrue, Phase.passed])
    have hp := h.phase i
    rw [htrue] at hp
    cases hp with
    | finishedValue hv =>
      cases hwin : s.winner with
      | false =>
        have hnone := (h.lost hwin).2 i hmem
        rw [hv.1] at hnone
        cases hnone
      | true =>
        obtain ⟨j, w, -, -, ⟨hj, -⟩ | ⟨hres, -⟩⟩ := h.won hwin
        · have hjf := hf j
          simp [hj, Phase.isFinished] at hjf
        · exact hres

end Inv

def joinStep {F : Type} (pick : Nat → T → V) (shared : Bool) (futures : List F)
    (input : F → FutureState E T) :
    State futures.length E T V → State futures.length E T V → Prop :=
  Step (fun i => pick i) shared fun i => input (futures.get i)

def system {F : Type} [DecidableEq F] (pick : Nat → T → V) (shared : Bool) (futures : List F)
    (outcome : F → Except E T) : System (World F (State futures.length E T V) E T) :=
  World.system outcome (joinStep pick shared futures) .init

def anyOf {F : Type} [DecidableEq F] (futures : List F) (outcome : F → Except E T) :
    System (World F (State futures.length E T (Nat × T)) E T) :=
  system Prod.mk true futures outcome

def anyOfVoid {F : Type} [DecidableEq F] (futures : List F) (outcome : F → Except E Unit) :
    System (World F (State futures.length E Unit Unit) E Unit) :=
  system (fun _ _ => ()) false futures outcome

section World

variable {F : Type} [DecidableEq F] {pick : Nat → T → V} {shared : Bool} {futures : List F}
  {outcome : F → Except E T} {s t : World F (State futures.length E T V) E T}

theorem inv_reachable (h : (system pick shared futures outcome).Reachable s) :
    InputsOk outcome s.input ∧
      Inv (fun i => pick i) shared (fun i => s.input (futures.get i)) s.join := by
  refine World.reachable_inv
    (I := fun input => Inv (fun i => pick i) shared fun i => input (futures.get i)) h
    (.init _) ?_ ?_
  · intro input input' j hmono hinv
    exact hinv.mono fun i => hmono (futures.get i)
  · intro input j j' hin hinv hst
    exact hinv.step hst fun i hd => ⟨_, (hin.of_done hd).2⟩

theorem step_keeps {pick : Fin n → T → V} {src : Fin n → FutureState E T} {s t : State n E T V}
    (h : Step pick shared src s t) (hr : s.out.resolved = true) :
    t.out.resolved = true ∧ t.out.get = s.out.get := by
  cases h with
  | rejectShared i => simp [State.lock, resolve_of_resolved hr, hr]
  | rejectOwn i => simp [State.lock, resolve_of_resolved hr, hr]
  | win i => simp [State.lock, resolve_of_resolved hr, hr]
  | set i => exact ⟨hr, rfl⟩
  | _ => exact ⟨hr, rfl⟩

theorem run_keeps
    (h : Relation.ReflTransGen (World.Step outcome (joinStep pick shared futures)) s t)
    (hr : s.join.out.resolved = true) :
    t.join.out.resolved = true ∧ t.join.out.get = s.join.out.get := by
  refine World.run_join (P := fun j => j.out.resolved = true ∧ j.out.get = s.join.out.get) ?_ h
    ⟨hr, rfl⟩
  rintro input j j' ⟨hj, hget⟩ hst
  obtain ⟨hr', hg⟩ := step_keeps hst hj
  exact ⟨hr', hg.trans hget⟩

theorem finished_of_quiescent (h : InputsOk outcome s.input)
    (hinv : Inv (fun i => pick i) shared (fun i => s.input (futures.get i)) s.join)
    (hq : (system pick shared futures outcome).Quiescent s) (i : Fin futures.length) :
    (s.join.phase i).isFinished = true := by
  have hdone := World.inputs_done hq
  have hattached : ∀ k, ∀ j : Fin futures.length, j.1 = k → s.join.phase j ≠ .detached := by
    intro k
    induction k using Nat.strong_induction_on with
    | _ k ih =>
      rintro j rfl hj
      exact absurd (World.Step.join (.attach j hj fun j' hlt => ih j'.1 hlt j' rfl)) (hq _)
  cases hi : s.join.phase i with
  | detached => exact absurd hi (hattached i.1 i rfl)
  | awaiting =>
    obtain ⟨-, ho⟩ := h.of_done (hdone (futures.get i))
    cases hout : outcome (futures.get i) with
    | ok v =>
      rw [hout] at ho
      exact absurd (World.Step.join (.resumeValue i hi (hdone _) ho.2 ho.1)) (hq _)
    | error e =>
      rw [hout] at ho
      exact absurd (World.Step.join (.resumeError i hi (hdone _) ho.2)) (hq _)
  | failed e => exact absurd (World.Step.join (.load i hi)) (hq _)
  | recording e => exact absurd (World.Step.join (.record i hi)) (hq _)
  | tallying e => exact absurd (World.Step.join (.tally i hi)) (hq _)
  | checking e => exact absurd (World.Step.join (.check i hi)) (hq _)
  | rejecting e =>
    cases hshared : shared with
    | false => exact absurd (World.Step.join (.rejectOwn i hi hshared)) (hq _)
    | true =>
      have hwin := hinv.winner_of_all (hinv.all i e (.inr hi))
      have hrec := hinv.recorded hshared hwin i (.inr (by simp [hi, Phase.tallied]))
      obtain ⟨e', he'⟩ := Option.ne_none_iff_exists'.1 hrec
      exact absurd (World.Step.join (.rejectShared i hi hshared he')) (hq _)
  | claiming v => exact absurd (World.Step.join (.claim i hi)) (hq _)
  | winning v => exact absurd (World.Step.join (.win i hi)) (hq _)
  | setting ok => exact absurd (World.Step.join (.set i hi)) (hq _)
  | finished ok => rfl

structure Picked (pick : Nat → T → V) (shared : Bool) (futures : List F)
    (outcome : F → Except E T) (s : World F (State futures.length E T V) E T) : Prop where
  once : s.join.resolvers.length ≤ 1
  kept : s.join.out.resolved = true → ∀ t,
    Relation.ReflTransGen (World.Step outcome (joinStep pick shared futures)) s t →
      t.join.out.get = s.join.out.get
  value : ∀ r, s.join.out.get = some (.ok r) → ∃ i v,
    s.join.order.find? (fun i => (outcome (futures.get i)).isOk) = some i ∧
      outcome (futures.get i) = .ok v ∧ r = pick i v
  error : ∀ e, s.join.out.get = some (.error e) → (∀ f ∈ futures, ∃ e', outcome f = .error e') ∧
    ∃ i, s.join.order.head? = some i ∧ outcome (futures.get i) = .error e
  resolved : (∀ i, (s.join.phase i).isFinished = true) → s.join.out.resolved = true

def Decided (futures : List F) (outcome : F → Except E T) : Prop :=
  futures ≠ [] ∧ ((∃ f ∈ futures, ∃ v, outcome f = .ok v) ∨ ∃ e, ∀ f ∈ futures, outcome f = .error e)

omit [DecidableEq F] in
theorem first_success (h : InputsOk outcome s.input)
    (hinv : Inv (fun i => pick i) shared (fun i => s.input (futures.get i)) s.join) :
    s.join.order.find? (succeeded fun i => s.input (futures.get i)) =
      s.join.order.find? fun i => (outcome (futures.get i)).isOk := by
  refine List.find?_congr fun i hi => ?_
  obtain ⟨o, ho⟩ := phaseOk_passed (hinv.phase i) ((hinv.order i).1 hi)
  rw [succeeded, holds_value ho, (h.holds ho).1]
  cases outcome (futures.get i) <;> rfl

omit [DecidableEq F] in
theorem head_fails {e : E} (hall : ∀ f ∈ futures, outcome f = .error e)
    (hinv : Inv (fun i => pick i) shared (fun i => s.input (futures.get i)) s.join)
    (hn : s.join.failures = futures.length) (hne : futures ≠ []) :
    ∃ i, s.join.order.head? = some i ∧ outcome (futures.get i) = .error e := by
  have hpos : 0 < futures.length := List.length_pos_iff.2 hne
  have hmem : (⟨0, hpos⟩ : Fin futures.length) ∈ s.join.order := by
    refine (hinv.order _).2 ?_
    have ht := hinv.tallied_of_all hn ⟨0, hpos⟩
    cases hp : s.join.phase ⟨0, hpos⟩ <;> simp_all [Phase.passed, Phase.tallied]
  cases ho : s.join.order with
  | nil => simp [ho] at hmem
  | cons i order => exact ⟨i, rfl, hall _ (List.get_mem futures i)⟩

theorem picked (hd : Decided futures outcome) (hin : InputsOk outcome s.input)
    (hinv : Inv (fun i => pick i) shared (fun i => s.input (futures.get i)) s.join) :
    Picked pick shared futures outcome s := by
  obtain ⟨hne, hdec⟩ := hd
  have hresolved := fun hf => hinv.resolved_of_finished hf (List.length_pos_iff.2 hne)
  have hpending : s.join.out = .pending → s.join.resolvers = [] →
      Picked pick shared futures outcome s := by
    intro hout hr
    refine ⟨by simp [hr], fun hres => ?_, by simp [hout, FutureState.get, FutureState.pending],
      by simp [hout, FutureState.get, FutureState.pending], hresolved⟩
    rw [hout] at hres
    cases hres
  cases hwin : s.join.winner with
  | true =>
    obtain ⟨i, v, hfirst, hv, ⟨-, hout, hr⟩ | ⟨hres, hout, hr⟩⟩ := hinv.won hwin
    · exact hpending hout hr
    · have hget := get_of_holds hres hout
      refine ⟨by simp [hr], fun hres t ht => (run_keeps ht hres).2, fun r hg => ?_,
        by simp [hget], hresolved⟩
      obtain rfl : pick i v = r := by simpa [hget] using hg
      exact ⟨i, v, by rw [← first_success hin hinv, hfirst], (hin.holds hv).1.symm, rfl⟩
  | false =>
    rcases (hinv.lost hwin).1 with ⟨hout, hr⟩ | ⟨i, j, e, hres, hout, hr, he, hn⟩
    · exact hpending hout hr
    · have hfail : ∀ k, ∃ e', outcome (futures.get k) = .error e' := by
        intro k
        obtain ⟨e', he'⟩ := phaseOk_tallied (hinv.phase k) (hinv.tallied_of_all hn k)
        exact ⟨e', (hin.holds he').1.symm⟩
      have hget := get_of_holds hres hout
      refine ⟨by simp [hr], fun hres t ht => (run_keeps ht hres).2, by simp [hget],
        fun e' hg => ?_, hresolved⟩
      obtain rfl : e = e' := by simpa [hget] using hg
      rcases hdec with ⟨f, hf, v, hv⟩ | ⟨e₀, hall⟩
      · obtain ⟨k, rfl⟩ := List.mem_iff_get.1 hf
        obtain ⟨e', he'⟩ := hfail k
        rw [hv] at he'
        cases he'
      · obtain rfl : e = e₀ := by
          have hj := (hin.holds he).1
          rw [hall _ (List.get_mem futures j)] at hj
          exact Except.error.inj hj
        exact ⟨fun f hf => ⟨e, hall f hf⟩, head_fails hall hinv hn hne⟩

end World

def mixed : Bool → Except String Nat
  | false => .error "timeout"
  | true => .ok 7

def twoErrors (T : Type) : Bool → Except String T
  | false => .error "first"
  | true => .error "second"

end Lark.Coro.AnyOf
