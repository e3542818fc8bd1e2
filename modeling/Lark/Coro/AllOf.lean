import Lark.Base.PackedWrites
import Lark.Coro.Joining

namespace Lark.Coro.AllOf

open Lark.Base Lark.Coro.Future

-- The program points of `RunAllOf`. `setting` and `finished` say which branch led there.
inductive Phase (E T : Type) where
  | detached
  | awaiting
  | failed (e : E)
  | storing (v : T)
  | counting
  | last
  | setting (ok : Bool)
  | finished (ok : Bool)

namespace Phase

variable {E T : Type}

def counted : Phase E T → Bool
  | last => true
  | setting ok => ok
  | finished ok => ok
  | _ => false

def isFinished : Phase E T → Bool
  | finished _ => true
  | _ => false

end Phase

-- `moved` and `resolvers` are history: whether the result vector was moved out, and the
-- continuations whose resolution of `out` took effect.
structure State (n : Nat) (E T V : Type) where
  phase : Fin n → Phase E T
  result : List T
  remaining : Nat
  out : FutureState E V
  moved : Bool
  resolvers : List (Fin n)

variable {n : Nat} {E T V : Type}

namespace State

def setPhase (s : State n E T V) (i : Fin n) (ph : Phase E T) : State n E T V :=
  { s with phase := Function.update s.phase i ph }

def lock (s : State n E T V) (i : Fin n) (ok : Bool) (o : Except E V) : State n E T V :=
  { s with
    out := s.out.resolve o
    phase := Function.update s.phase i (if s.out.resolved then .finished ok else .setting ok)
    resolvers := if s.out.resolved then s.resolvers else s.resolvers ++ [i] }

-- `take` turns the moved-out vector into the value: itself for `AllOf` over values; for
-- `Future<void>`, whose slots are of `Unit`, nothing.
def init [Inhabited T] (take : List T → V) : State n E T V where
  phase := fun _ => .detached
  result := List.replicate n default
  remaining := n
  out := if n = 0 then { (FutureState.pending.resolve (.ok (take []))) with done := true }
    else .pending
  moved := false
  resolvers := []

end State

-- `store` writes a slot that is an object of its own; `allOf` below has the packed vector as well.
inductive Step (take : List T → V) (src : Fin n → FutureState E T) :
    State n E T V → State n E T V → Prop
  | attach {s} (i : Fin n) (h : s.phase i = .detached) (hp : ∀ j < i, s.phase j ≠ .detached) :
      Step take src s (s.setPhase i .awaiting)
  | resumeError {s} (i : Fin n) {e} (h : s.phase i = .awaiting) (hd : (src i).done = true)
      (he : (src i).error = some e) : Step take src s (s.setPhase i (.failed e))
  | resumeValue {s} (i : Fin n) {v} (h : s.phase i = .awaiting) (hd : (src i).done = true)
      (he : (src i).error = none) (hv : (src i).value = some v) :
      Step take src s (s.setPhase i (.storing v))
  | store {s} (i : Fin n) {v} (h : s.phase i = .storing v) :
      Step take src s { s.setPhase i .counting with result := s.result.set i v }
  | count {s} (i : Fin n) (h : s.phase i = .counting) :
      Step take src s { s.setPhase i (if s.remaining = 1 then .last else .finished true) with
        remaining := s.remaining - 1 }
  | resolveError {s} (i : Fin n) {e} (h : s.phase i = .failed e) :
      Step take src s (s.lock i false (.error e))
  | resolveValue {s} (i : Fin n) (h : s.phase i = .last) :
      Step take src s { s.lock i true (.ok (take s.result)) with result := [], moved := true }
  | set {s} (i : Fin n) {ok} (h : s.phase i = .setting ok) :
      Step take src s { s.setPhase i (.finished ok) with out := { s.out with done := true } }

inductive PhaseOk (f : FutureState E T) : Phase E T → Prop
  | detached : PhaseOk f .detached
  | awaiting : PhaseOk f .awaiting
  | failed {e} (h : Holds f (.error e)) : PhaseOk f (.failed e)
  | storing {v} (h : Holds f (.ok v)) : PhaseOk f (.storing v)
  | counting {v} (h : Holds f (.ok v)) : PhaseOk f .counting
  | last {v} (h : Holds f (.ok v)) : PhaseOk f .last
  | settingError {e} (h : Holds f (.error e)) : PhaseOk f (.setting false)
  | settingValue {v} (h : Holds f (.ok v)) : PhaseOk f (.setting true)
  | finishedError {e} (h : Holds f (.error e)) : PhaseOk f (.finished false)
  | finishedValue {v} (h : Holds f (.ok v)) : PhaseOk f (.finished true)

inductive OutOk (take : List T → V) (src : Fin n → FutureState E T) :
    FutureState E V → List (Fin n) → Prop
  | pending : OutOk take src .pending []
  | error {f i e} (hr : f.resolved = true) (hf : Holds f (.error e)) (h : Holds (src i) (.error e)) :
      OutOk take src f [i]
  | value {f rs vs} (hr : f.resolved = true) (hf : Holds f (.ok (take vs))) (hn : vs.length = n)
      (h : ∀ i : Fin n, ∀ v ∈ vs[i]?, Holds (src i) (.ok v)) (hone : rs.length ≤ 1) :
      OutOk take src f rs

def Phase.stored : Phase E T → Bool
  | counting => true
  | ph => ph.counted

structure Inv (take : List T → V) (src : Fin n → FutureState E T) (s : State n E T V) :
    Prop where
  phase : ∀ i, PhaseOk (src i) (s.phase i)
  out : OutOk take src s.out s.resolvers
  length : s.moved = false → s.result.length = n
  slot : s.moved = false → ∀ i v, (s.phase i).stored = true → Holds (src i) (.ok v) →
    s.result[i]? = some v
  remaining : s.remaining = count (fun ph : Phase E T => ph.counted = false) s.phase
  last : ∀ i, s.phase i = .last → s.remaining = 0 ∧ s.moved = false ∧ ∀ j, s.phase j = .last → j = i
  settled : ∀ i ok, s.phase i = .setting ok ∨ s.phase i = .finished false →
    s.out.resolved = true
  live : s.remaining = 0 → s.out.resolved = true ∨ ∃ i, s.phase i = .last
  moved : s.moved = true → s.remaining = 0

section

variable {f g : FutureState E T} {ph : Phase E T} {take : List T → V}
  {src src' : Fin n → FutureState E T} {out : FutureState E V} {rs : List (Fin n)}

theorem phaseOk_mono (h : PhaseOk f ph) (hfg : ∀ o, Holds f o → Holds g o) : PhaseOk g ph := by
  cases h with
  | detached => exact .detached
  | awaiting => exact .awaiting
  | failed h => exact .failed (hfg _ h)
  | storing h => exact .storing (hfg _ h)
  | counting h => exact .counting (hfg _ h)
  | last h => exact .last (hfg _ h)
  | settingError h => exact .settingError (hfg _ h)
  | settingValue h => exact .settingValue (hfg _ h)
  | finishedError h => exact .finishedError (hfg _ h)
  | finishedValue h => exact .finishedValue (hfg _ h)

theorem phaseOk_stored (h : PhaseOk f ph) (hs : ph.stored = true) : ∃ v, Holds f (.ok v) := by
  cases h with
  | counting h => exact ⟨_, h⟩
  | last h => exact ⟨_, h⟩
  | settingValue h => exact ⟨_, h⟩
  | finishedValue h => exact ⟨_, h⟩
  | _ => simp [Phase.stored, Phase.counted] at hs

theorem phaseOk_set {ok : Bool} (h : PhaseOk f (.setting ok)) : PhaseOk f (.finished ok) := by
  cases h with
  | settingError h => exact .finishedError h
  | settingValue h => exact .finishedValue h

theorem outOk_mono (h : OutOk take src out rs) (hs : ∀ i o, Holds (src i) o → Holds (src' i) o) :
    OutOk take src' out rs := by
  cases h with
  | pending => exact .pending
  | error hr hf h => exact .error hr hf (hs _ _ h)
  | value hr hf hn h hone => exact .value hr hf hn (fun i v hv => hs _ _ (h i v hv)) hone

theorem outOk_done (h : OutOk take src out rs) (hr : out.resolved = true) :
    OutOk take src { out with done := true } rs := by
  cases h with
  | pending => simp [FutureState.pending] at hr
  | error hr hf h => exact .error hr hf h
  | value hr hf hn h hone => exact .value hr hf hn h hone

theorem outOk_pending (h : OutOk take src out rs) (hr : out.resolved = false) :
    out = .pending ∧ rs = [] := by
  cases h with
  | pending => exact ⟨rfl, rfl⟩
  | error hr' => simp [hr] at hr'
  | value hr' => simp [hr] at hr'

theorem outOk_error (h : OutOk take src out rs) {i : Fin n} {e : E}
    (he : Holds (src i) (.error e)) :
    OutOk take src (out.resolve (.error e)) (if out.resolved then rs else rs ++ [i]) := by
  cases hr : out.resolved with
  | true => simpa [resolve_of_resolved hr] using h
  | false =>
    obtain ⟨rfl, rfl⟩ := outOk_pending h hr
    exact .error resolve_resolved holds_resolve_pending he

theorem outOk_value (h : OutOk take src out rs) {i : Fin n} {vs : List T} (hn : vs.length = n)
    (hv : ∀ i : Fin n, ∀ v ∈ vs[i]?, Holds (src i) (.ok v)) :
    OutOk take src (out.resolve (.ok (take vs))) (if out.resolved then rs else rs ++ [i]) := by
  cases hr : out.resolved with
  | true => simpa [resolve_of_resolved hr] using h
  | false =>
    obtain ⟨rfl, rfl⟩ := outOk_pending h hr
    exact .value resolve_resolved holds_resolve_pending hn hv le_rfl

end

namespace Inv

variable {take : List T → V} {src src' : Fin n → FutureState E T} {s t : State n E T V}

theorem mono (h : Inv take src s) (hs : ∀ i o, Holds (src i) o → Holds (src' i) o) :
    Inv take src' s where
  phase := fun i => phaseOk_mono (h.phase i) (hs i)
  out := outOk_mono h.out hs
  length := h.length
  slot := by
    intro hm i v hst hv
    obtain ⟨v', hv'⟩ := phaseOk_stored (h.phase i) hst
    have he := holds_unique hv (hs i _ hv')
    rw [Except.ok.inj he]
    exact h.slot hm i v' hst hv'
  remaining := h.remaining
  last := h.last
  settled := h.settled
  live := h.live
  moved := h.moved

theorem counted_of_zero (h : Inv take src s) (hz : s.remaining = 0) (i : Fin n) :
    (s.phase i).counted = true := by
  have hall := count_eq_zero.1 (h.remaining.symm.trans hz) i
  simpa using hall

theorem not_moved (h : Inv take src s) {i : Fin n} (hi : (s.phase i).counted = false) :
    s.moved = false ∧ 0 < s.remaining := by
  have hpos : 0 < s.remaining := by
    refine Nat.pos_of_ne_zero fun hz => ?_
    simp [h.counted_of_zero hz i] at hi
  refine ⟨?_, hpos⟩
  cases hm : s.moved with
  | false => rfl
  | true => exact absurd (h.moved hm) hpos.ne'

theorem move (h : Inv take src s) {i : Fin n} {ph : Phase E T} {r : List T}
    (hph : PhaseOk (src i) ph) (hc : ph.counted = (s.phase i).counted) (hl : ph ≠ .last)
    (hl' : s.phase i ≠ .last)
    (hset : ∀ ok, ph = .setting ok ∨ ph = .finished false → s.out.resolved = true)
    (hlen : s.moved = false → r.length = n)
    (hslot : s.moved = false → ∀ j v, (Function.update s.phase i ph j).stored = true →
      Holds (src j) (.ok v) → r[j]? = some v) :
    Inv take src { s.setPhase i ph with result := r } := by
  have hlast : ∀ j, Function.update s.phase i ph j = .last → s.phase j = .last := by
    intro j hj
    rcases eq_or_ne j i with rfl | hne
    · simp [hl] at hj
    · simpa [hne] using hj
  refine ⟨fun j => ?_, h.out, hlen, hslot, ?_, fun j hj => ?_, fun j ok hj => ?_, fun hz => ?_,
    h.moved⟩
  · rcases eq_or_ne j i with rfl | hne
    · simpa [State.setPhase] using hph
    · simpa [State.setPhase, hne] using h.phase j
  · refine h.remaining.trans (count_update_same ?_).symm
    simp [hc]
  · obtain ⟨hz, hm, huniq⟩ := h.last j (hlast j hj)
    exact ⟨hz, hm, fun k hk => huniq k (hlast k hk)⟩
  · rcases eq_or_ne j i with rfl | hne
    · exact hset ok (by simpa [State.setPhase] using hj)
    · exact h.settled j ok (by simpa [State.setPhase, hne] using hj)
  · rcases h.live hz with hr | ⟨j, hj⟩
    · exact .inl hr
    · have hne : j ≠ i := by
        rintro rfl
        exact hl' hj
      exact .inr ⟨j, by simpa [State.setPhase, hne] using hj⟩

theorem setPhase (h : Inv take src s) {i : Fin n} {ph : Phase E T} (hph : PhaseOk (src i) ph)
    (hc : ph.counted = (s.phase i).counted) (hst : ph.stored = (s.phase i).stored)
    (hl : ph ≠ .last) (hl' : s.phase i ≠ .last)
    (hset : ∀ ok, ph = .setting ok ∨ ph = .finished false → s.out.resolved = true) :
    Inv take src (s.setPhase i ph) := by
  refine h.move hph hc hl hl' hset h.length fun hm j v hs hv => h.slot hm j v ?_ hv
  rcases eq_or_ne j i with rfl | hne
  · rw [← hst]
    simpa using hs
  · simpa [hne] using hs

theorem store (h : Inv take src s) {i : Fin n} {v : T} (hi : s.phase i = .storing v) :
    Inv take src { s.setPhase i .counting with result := s.result.set i v } := by
  have hp := h.phase i
  rw [hi] at hp
  have hv : Holds (src i) (.ok v) := by
    cases hp with
    | storing hv => exact hv
  refine h.move (.counting hv) (by simp [hi, Phase.counted]) (by simp) (by simp [hi]) (by simp)
    (fun hm => by simpa using h.length hm) fun hm j w hst hw => ?_
  rcases eq_or_ne j i with rfl | hne
  · have hlen : (j : Nat) < s.result.length := by
      rw [h.length hm]
      exact j.2
    rw [← Except.ok.inj (holds_unique hv hw)]
    simp [hlen]
  · have hval : (i : Nat) ≠ j := fun he => hne (Fin.ext he.symm)
    have hslot := h.slot hm j w (by simpa [hne] using hst) hw
    simpa [List.getElem?_set_ne hval] using hslot

theorem arrive (h : Inv take src s) {i : Fin n} (hi : s.phase i = .counting) :
    Inv take src { s.setPhase i (if s.remaining = 1 then .last else .finished true) with
      remaining := s.remaining - 1 } := by
  have hp := h.phase i
  rw [hi] at hp
  obtain ⟨v, hv⟩ := phaseOk_stored hp rfl
  obtain ⟨hm, hpos⟩ := h.not_moved (i := i) (by simp [hi, Phase.counted])
  have hnolast : ∀ j, s.phase j ≠ .last := by
    intro j hj
    exact hpos.ne' (h.last j hj).1
  have hcounted : (if s.remaining = 1 then Phase.last else .finished true : Phase E T).counted =
      true := by
    split_ifs <;> rfl
  have honly : ∀ j, Function.update s.phase i
      (if s.remaining = 1 then .last else .finished true) j = .last → j = i ∧ s.remaining = 1 := by
    intro j hj
    rcases eq_or_ne j i with rfl | hne
    · refine ⟨rfl, ?_⟩
      rw [Function.update_self] at hj
      split_ifs at hj with hone
      exact hone
    · rw [Function.update_of_ne hne] at hj
      exact absurd hj (hnolast j)
  refine ⟨fun j => ?_, h.out, h.length, fun hm j w hst hw => ?_, ?_, fun j hj => ?_,
    fun j ok hj => ?_, fun hz => ?_, fun hm' => ?_⟩
  · rcases eq_or_ne j i with rfl | hne
    · simp only [State.setPhase, Function.update_self]
      split_ifs
      · exact .last hv
      · exact .finishedValue hv
    · simpa [State.setPhase, hne] using h.phase j
  · refine h.slot hm j w ?_ hw
    rcases eq_or_ne j i with rfl | hne
    · simp [hi, Phase.stored]
    · simpa [State.setPhase, hne] using hst
  · have hdrop := count_update_drop (q := fun ph : Phase E T => ph.counted = false)
      (f := s.phase) (x := i) (a := if s.remaining = 1 then .last else .finished true)
      (by simp [hi, Phase.counted]) (by simp [hcounted])
    have hrem := h.remaining
    simp only [State.setPhase]
    omega
  · obtain ⟨rfl, hone⟩ := honly j hj
    exact ⟨by simp [hone], hm, fun k hk => (honly k hk).1⟩
  · rcases eq_or_ne j i with rfl | hne
    · simp only [State.setPhase, Function.update_self] at hj
      split_ifs at hj <;> simp at hj
    · exact h.settled j ok (by simpa [State.setPhase, hne] using hj)
  · have hone : s.remaining = 1 := by
      have : s.remaining - 1 = 0 := hz
      omega
    exact .inr ⟨i, by simp [State.setPhase, hone]⟩
  · exact absurd hm' (by simp [State.setPhase, hm])

theorem resolveError (h : Inv take src s) {i : Fin n} {e : E} (hi : s.phase i = .failed e) :
    Inv take src (s.lock i false (.error e)) := by
  have hp := h.phase i
  rw [hi] at hp
  have he : Holds (src i) (.error e) := by
    cases hp with
    | failed he => exact he
  have hres : (s.out.resolve (.error e)).resolved = true := resolve_resolved
  have hph : PhaseOk (src i) (if s.out.resolved then .finished false else .setting false) := by
    split_ifs
    · exact .finishedError he
    · exact .settingError he
  have hinv : Inv take src { s with
      out := s.out.resolve (.error e)
      resolvers := if s.out.resolved then s.resolvers else s.resolvers ++ [i] } :=
    ⟨h.phase, outOk_error h.out he, h.length, h.slot, h.remaining, h.last, fun _ _ _ => hres,
      fun _ => .inl hres, h.moved⟩
  refine hinv.setPhase hph ?_ ?_ ?_ (by simp [hi]) fun _ _ => hres
  · simp only [hi]
    split_ifs <;> rfl
  · simp only [hi]
    split_ifs <;> rfl
  · split_ifs <;> simp

theorem resolveValue (h : Inv take src s) {i : Fin n} (hi : s.phase i = .last) :
    Inv take src { s.lock i true (.ok (take s.result)) with result := [], moved := true } := by
  obtain ⟨hz, hm, huniq⟩ := h.last i hi
  have hall : ∀ j : Fin n, ∀ v ∈ s.result[j]?, Holds (src j) (.ok v) := by
    intro j v hv
    have hst : (s.phase j).stored = true := by
      have hc := h.counted_of_zero hz j
      cases hj : s.phase j <;> simp_all [Phase.stored, Phase.counted]
    obtain ⟨w, hw⟩ := phaseOk_stored (h.phase j) hst
    have hslot := h.slot hm j w hst hw
    rw [Option.mem_def.1 hv] at hslot
    exact Option.some.inj hslot ▸ hw
  have hp := h.phase i
  rw [hi] at hp
  obtain ⟨v, hv⟩ := phaseOk_stored hp rfl
  have hres : (s.out.resolve (.ok (take s.result))).resolved = true := resolve_resolved
  have hcounted : (if s.out.resolved then Phase.finished true else .setting true :
      Phase E T).counted = true := by
    split_ifs <;> rfl
  refine ⟨fun j => ?_, outOk_value h.out (h.length hm) hall, fun hm' => by simp at hm',
    fun hm' => by simp at hm', ?_, fun j hj => ?_, fun _ _ _ => hres, fun _ => .inl hres,
    fun _ => hz⟩
  · simp only [State.lock]
    rcases eq_or_ne j i with rfl | hne
    · rw [Function.update_self]
      split_ifs
      · exact .finishedValue hv
      · exact .settingValue hv
    · rw [Function.update_of_ne hne]
      exact h.phase j
  · refine h.remaining.trans (count_update_same ?_).symm
    rw [hi, hcounted]
    rfl
  · simp only [State.lock] at hj
    rcases eq_or_ne j i with rfl | hne
    · rw [Function.update_self] at hj
      split_ifs at hj
    · rw [Function.update_of_ne hne] at hj
      exact absurd (huniq j hj) hne

theorem set (h : Inv take src s) {i : Fin n} {ok : Bool} (hi : s.phase i = .setting ok) :
    Inv take src { s.setPhase i (.finished ok) with out := { s.out with done := true } } := by
  have hp := h.phase i
  rw [hi] at hp
  have hres := h.settled i ok (.inl hi)
  have hinv : Inv take src { s with out := { s.out with done := true } } :=
    ⟨h.phase, outOk_done h.out hres, h.length, h.slot, h.remaining, h.last, h.settled, h.live,
      h.moved⟩
  refine hinv.setPhase (phaseOk_set hp) ?_ ?_ (by simp) (by simp [hi]) fun _ _ => hres
  · simp [hi, Phase.counted]
  · simp [hi, Phase.stored, Phase.counted]

theorem step (h : Inv take src s) (hst : Step take src s t)
    (hsrc : ∀ i, (src i).done = true → ∃ o, Holds (src i) o) : Inv take src t := by
  cases hst with
  | attach i hi =>
    refine h.setPhase .awaiting ?_ ?_ (by simp) (by simp [hi]) (by simp)
    · simp [hi, Phase.counted]
    · simp [hi, Phase.stored, Phase.counted]
  | @resumeError i e hi hd he =>
    obtain ⟨o, ho⟩ := hsrc i hd
    have hf : Holds (src i) (.error e) := by
      cases o with
      | ok v => simp [ho.2] at he
      | error e' => exact ⟨ho.1, he⟩
    refine h.setPhase (.failed hf) ?_ ?_ (by simp) (by simp [hi]) (by simp)
    · simp [hi, Phase.counted]
    · simp [hi, Phase.stored, Phase.counted]
  | resumeValue i hi hd he hv =>
    refine h.setPhase (.storing ⟨hv, he⟩) ?_ ?_ (by simp) (by simp [hi]) (by simp)
    · simp [hi, Phase.counted]
    · simp [hi, Phase.stored, Phase.counted]
  | store i hi => exact h.store hi
  | count i hi => exact h.arrive hi
  | resolveError i hi => exact h.resolveError hi
  | resolveValue i hi => exact h.resolveValue hi
  | set i hi => exact h.set hi

theorem init [Inhabited T] (take : List T → V) (src : Fin n → FutureState E T) :
    Inv take src (.init take) := by
  refine ⟨fun _ => .detached, ?_, fun _ => by simp [State.init], ?_, ?_, ?_, ?_, fun hz => ?_, ?_⟩
  · simp only [State.init]
    split_ifs with hn
    · subst hn
      exact .value rfl ⟨rfl, rfl⟩ rfl (fun i => i.elim0) (Nat.zero_le 1)
    · exact .pending
  · simp [State.init, Phase.stored, Phase.counted]
  · simp [State.init, count, Phase.counted]
  · simp [State.init]
  · simp [State.init]
  · have hn : n = 0 := hz
    subst hn
    exact .inl rfl
  · simp [State.init]

theorem resolved_of_finished (h : Inv take src s) (hf : ∀ i, (s.phase i).isFinished = true) :
    s.out.resolved = true := by
  by_cases hall : ∀ i, s.phase i = .finished true
  · have hz : s.remaining = 0 := by
      rw [h.remaining, count_eq_zero]
      intro i
      simp [hall i, Phase.counted]
    rcases h.live hz with hr | ⟨i, hi⟩
    · exact hr
    · simp [hall i] at hi
  · obtain ⟨i, hi⟩ := not_forall.1 hall
    have hfin := hf i
    cases hp : s.phase i with
    | finished ok =>
      cases ok with
      | true => exact absurd hp hi
      | false => exact h.settled i true (.inr hp)
    | _ => simp [hp, Phase.isFinished] at hfin

end Inv

section Component

variable {take : List T → V} {src : Fin n → FutureState E T} {s t : State n E T V}

theorem finished_of_stuck (hsrc : ∀ i, (src i).done = true ∧ ∃ o, Holds (src i) o)
    (hq : ∀ t, ¬ Step take src s t) (i : Fin n) : (s.phase i).isFinished = true := by
  have hattached : ∀ k, ∀ j : Fin n, j.1 = k → s.phase j ≠ .detached := by
    intro k
    induction k using Nat.strong_induction_on with
    | _ k ih =>
      rintro j rfl hj
      exact hq _ (.attach j hj fun j' hlt => ih j'.1 hlt j' rfl)
  cases hi : s.phase i with
  | detached => exact absurd hi (hattached i.1 i rfl)
  | awaiting =>
    obtain ⟨hd, o, ho⟩ := hsrc i
    cases o with
    | ok v => exact absurd (.resumeValue i hi hd ho.2 ho.1) (hq _)
    | error e => exact absurd (.resumeError i hi hd ho.2) (hq _)
  | failed e => exact absurd (.resolveError i hi) (hq _)
  | storing v => exact absurd (.store i hi) (hq _)
  | counting => exact absurd (.count i hi) (hq _)
  | last => exact absurd (.resolveValue i hi) (hq _)
  | setting ok => exact absurd (.set i hi) (hq _)
  | finished ok => rfl

theorem Inv.out_value (h : Inv take src s) {r : V} (hr : Holds s.out (.ok r)) (i : Fin n) :
    ∃ v, Holds (src i) (.ok v) := by
  have hout := h.out
  generalize s.out = out at hr hout
  generalize s.resolvers = rs at hout
  cases hout with
  | pending => exact absurd hr not_holds_pending
  | error _ hf _ => cases holds_unique hr hf
  | @value _ _ vs _ hf hn hv _ =>
    have hlt : i.1 < vs.length := by
      rw [hn]
      exact i.2
    exact ⟨vs[i.1], hv i _ (List.getElem?_eq_getElem hlt)⟩

theorem Inv.out_error (h : Inv take src s) {e : E} (hr : Holds s.out (.error e)) :
    ∃ i, Holds (src i) (.error e) := by
  have hout := h.out
  generalize s.out = out at hr hout
  generalize s.resolvers = rs at hout
  cases hout with
  | pending => exact absurd hr not_holds_pending
  | @error _ i e' _ hf hi =>
    obtain rfl := Except.error.inj (holds_unique hr hf)
    exact ⟨i, hi⟩
  | value _ hf _ _ _ => cases holds_unique hr hf

theorem Inv.out_holds (h : Inv take src s) (hr : s.out.resolved = true) : ∃ o, Holds s.out o := by
  have hout := h.out
  generalize s.out = out at hr hout
  generalize s.resolvers = rs at hout
  cases hout with
  | pending => cases hr
  | error _ hf _ => exact ⟨_, hf⟩
  | value _ hf _ _ _ => exact ⟨_, hf⟩

theorem Inv.out_resolved (h : Inv take src s) (hd : s.out.done = true) :
    s.out.resolved = true := by
  have hout := h.out
  generalize s.out = out at hd hout ⊢
  generalize s.resolvers = rs at hout
  cases hout with
  | pending => cases hd
  | error hr _ _ => exact hr
  | value hr _ _ _ _ => exact hr

def Signals (s : State n E T V) : Prop :=
  s.out.resolved = true → s.out.done = true ∨ ∃ i ok, s.phase i = .setting ok

theorem signals_setPhase (h : Signals s) {i : Fin n} {ph : Phase E T}
    (hi : ∀ ok, s.phase i ≠ .setting ok) : Signals (s.setPhase i ph) := by
  intro hr
  refine (h hr).imp_right ?_
  rintro ⟨j, ok, hj⟩
  have hne : j ≠ i := by
    rintro rfl
    exact hi ok hj
  exact ⟨j, ok, by simpa [State.setPhase, hne] using hj⟩

theorem signals_lock (h : Signals s) {i : Fin n} {ok : Bool} {o : Except E V}
    (hi : ∀ ok, s.phase i ≠ .setting ok) : Signals (s.lock i ok o) := by
  intro _
  cases hr : s.out.resolved with
  | false => exact .inr ⟨i, ok, by simp [State.lock, hr]⟩
  | true =>
    refine (h hr).imp (fun hd => ?_) ?_
    · simpa [State.lock, resolve_of_resolved hr] using hd
    · rintro ⟨j, ok', hj⟩
      have hne : j ≠ i := by
        rintro rfl
        exact hi ok' hj
      exact ⟨j, ok', by simpa [State.lock, hne] using hj⟩

theorem signals_step (h : Signals s) (hst : Step take src s t) : Signals t := by
  cases hst with
  | attach i hi => exact signals_setPhase h (by simp [hi])
  | resumeError i hi => exact signals_setPhase h (by simp [hi])
  | resumeValue i hi => exact signals_setPhase h (by simp [hi])
  | store i hi => exact signals_setPhase h (by simp [hi])
  | count i hi => exact signals_setPhase h (by simp [hi])
  | resolveError i hi => exact signals_lock h (by simp [hi])
  | resolveValue i hi => exact signals_lock h (by simp [hi])
  | set i => exact fun _ => .inl rfl

theorem signals_init [Inhabited T] : Signals (.init take : State n E T V) := by
  intro hr
  simp only [State.init] at hr ⊢
  split_ifs at hr with hn
  · exact .inl (by simp [hn])
  · cases hr

theorem done_of_finished (h : Inv take src s) (hs : Signals s)
    (hf : ∀ i, (s.phase i).isFinished = true) : s.out.done = true := by
  rcases hs (h.resolved_of_finished hf) with hd | ⟨i, ok, hi⟩
  · exact hd
  · have hfin := hf i
    simp [hi, Phase.isFinished] at hfin

def Phase.rank : Phase E T → Nat
  | detached => 6
  | awaiting => 5
  | failed _ => 4
  | storing _ => 4
  | counting => 3
  | last => 2
  | setting _ => 1
  | finished _ => 0

def State.rank (s : State n E T V) : Nat := ∑ i, (s.phase i).rank

theorem rank_setPhase {i : Fin n} {ph : Phase E T} (h : ph.rank < (s.phase i).rank) :
    (s.setPhase i ph).rank < s.rank :=
  sum_update_lt (fun _ => Phase.rank) h

theorem rank_step (hst : Step take src s t) : t.rank < s.rank := by
  cases hst with
  | attach i hi => exact rank_setPhase (by simp [hi, Phase.rank])
  | resumeError i hi => exact rank_setPhase (by simp [hi, Phase.rank])
  | resumeValue i hi => exact rank_setPhase (by simp [hi, Phase.rank])
  | store i hi => exact rank_setPhase (by simp [hi, Phase.rank])
  | count i hi =>
    refine rank_setPhase ?_
    rw [hi]
    split_ifs <;> simp [Phase.rank]
  | resolveError i hi =>
    refine rank_setPhase ?_
    rw [hi]
    split_ifs <;> simp [Phase.rank]
  | resolveValue i hi =>
    refine rank_setPhase ?_
    rw [hi]
    split_ifs <;> simp [Phase.rank]
  | set i hi => exact rank_setPhase (by simp [hi, Phase.rank])

theorem step_keeps (h : Step take src s t)
    (hr : s.out.resolved = true) : t.out.resolved = true ∧ t.out.get = s.out.get := by
  cases h with
  | resolveError i => simp [State.lock, resolve_of_resolved hr, hr]
  | resolveValue i => simp [State.lock, resolve_of_resolved hr, hr]
  | set i => exact ⟨hr, rfl⟩
  | _ => exact ⟨hr, rfl⟩

theorem Inv.out_mono (h : Inv take src s) (hst : Step take src s t) {o : Except E V}
    (ho : Holds s.out o) : Holds t.out o := by
  have hr : s.out.resolved = true := by
    have hout := h.out
    generalize s.out = out at ho hout ⊢
    generalize s.resolvers = rs at hout
    cases hout with
    | pending => exact absurd ho not_holds_pending
    | error hr _ _ => exact hr
    | value hr _ _ _ _ => exact hr
  cases hst with
  | resolveError i => simpa [State.lock, resolve_of_resolved hr] using ho
  | resolveValue i => simpa [State.lock, resolve_of_resolved hr] using ho
  | set i => exact holds_set ho
  | _ => exact ho

end Component

-- One future may occur several times in the list.
def joinStep {F : Type} (take : List T → V) (futures : List F) (input : F → FutureState E T) :
    State futures.length E T V → State futures.length E T V → Prop :=
  Step take fun i => input (futures.get i)

def system {F : Type} [DecidableEq F] [Inhabited T] (take : List T → V) (futures : List F)
    (outcome : F → Except E T) : System (World F (State futures.length E T V) E T) :=
  World.system outcome (joinStep take futures) (.init take)

section World

variable {F : Type} [DecidableEq F] {take : List T → V} {futures : List F}
  {outcome : F → Except E T} {s t : World F (State futures.length E T V) E T}

theorem inv_reachable [Inhabited T] (h : (system take futures outcome).Reachable s) :
    InputsOk outcome s.input ∧ Inv take (fun i => s.input (futures.get i)) s.join := by
  refine World.reachable_inv (I := fun input => Inv take fun i => input (futures.get i)) h
    (.init take _) ?_ ?_
  · intro input input' j hmono hinv
    exact hinv.mono fun i => hmono (futures.get i)
  · intro input j j' hin hinv hst
    exact hinv.step hst fun i hd => ⟨_, (hin.of_done hd).2⟩

theorem finished_of_quiescent [Inhabited T] (h : InputsOk outcome s.input)
    (hq : (system take futures outcome).Quiescent s) (i : Fin futures.length) :
    (s.join.phase i).isFinished = true := by
  have hdone := World.inputs_done hq
  refine finished_of_stuck (fun i => ?_) (fun t hst => hq _ (World.Step.join hst)) i
  exact ⟨hdone _, _, (h.of_done (hdone _)).2⟩

def Phase.slot : Phase E T → Option T
  | storing v => some v
  | _ => none

theorem slot_eq {ph : Phase E T} {v : T} : ph.slot = some v ↔ ph = .storing v := by
  cases ph <;> simp [Phase.slot]

def due {N : Nat} (s : World F (State N E T V) E T) (i : Fin N) : Option (Nat × T) :=
  (s.join.phase i).slot.map fun v => (i.1, v)

def put {N : Nat} (s : World F (State N E T V) E T) (i : Fin N) (result : List T) :
    World F (State N E T V) E T :=
  { s with join := { s.join.setPhase i .counting with result := result } }

omit [DecidableEq F] in
theorem due_eq {i : Fin futures.length} {x : Nat × T} :
    due s i = some x ↔ s.join.phase i = .storing x.2 ∧ i.1 = x.1 := by
  obtain ⟨k, v⟩ := x
  simp [due, slot_eq, and_comm]

omit [DecidableEq F] in
theorem due_put {i j : Fin futures.length} (c : List T) (h : j ≠ i) :
    due (put s i c) j = due s j := by
  simp [due, put, State.setPhase, h]

theorem storing_step {src : Fin n → FutureState E T} {s t : State n E T V} {i : Fin n} {v : T}
    (h : Step take src s t) (hi : s.phase i = .storing v) :
    t.phase i = .storing v ∨ t = { s.setPhase i .counting with result := s.result.set i v } := by
  have hother : ∀ {j : Fin n} {ph : Phase E T}, (∀ w, s.phase j ≠ .storing w) →
      Function.update s.phase j ph i = .storing v := by
    intro j ph hj
    have hne : i ≠ j := by
      rintro rfl
      exact hj v hi
    rw [Function.update_of_ne hne, hi]
  cases h with
  | attach j hj => exact .inl (hother (by simp [hj]))
  | resumeError j hj => exact .inl (hother (by simp [hj]))
  | resumeValue j hj => exact .inl (hother (by simp [hj]))
  | @store j w hj =>
    rcases eq_or_ne i j with rfl | hne
    · obtain rfl : w = v := Phase.storing.inj (hj.symm.trans hi)
      exact .inr rfl
    · exact .inl (by simpa [State.setPhase, hne] using hi)
  | count j hj => exact .inl (hother (by simp [hj]))
  | resolveError j hj => exact .inl (hother (by simp [hj]))
  | resolveValue j hj => exact .inl (hother (by simp [hj]))
  | set j hj => exact .inl (hother (by simp [hj]))

theorem only_write [Inhabited T] {i : Fin futures.length} {k : Nat} {v : T}
    (hst : (system take futures outcome).step s t) (hi : due s i = some (k, v))
    (hne : due t i ≠ some (k, v)) : t = put s i (s.join.result.set k v) := by
  obtain ⟨hphase, rfl⟩ := due_eq.1 hi
  cases hst with
  | settle => exact absurd hi hne
  | signal => exact absurd hi hne
  | join hj =>
    rcases storing_step hj hphase with hkept | rfl
    · exact absurd (due_eq.2 ⟨hkept, rfl⟩) hne
    · rfl

theorem still_step [Inhabited T] {i : Fin futures.length} {x : Nat × T}
    (h : (system take futures outcome).Reachable s) (hi : due s i = some x)
    (hst : (system take futures outcome).step s t)
    (hdue : ∀ j y, due s j = some y → due t j = some y) : t.join.result = s.join.result := by
  obtain ⟨-, hinv⟩ := inv_reachable h
  cases hst with
  | settle => rfl
  | signal => rfl
  | join hj =>
    cases hj with
    | @store j v hj =>
      have hkept := hdue j (j.1, v) (due_eq.2 ⟨hj, rfl⟩)
      simp [due, State.setPhase, Phase.slot] at hkept
    | resolveValue j hj =>
      have hcounted := hinv.counted_of_zero (hinv.last j hj).1 i
      simp [(due_eq.1 hi).1, Phase.counted] at hcounted
    | _ => rfl

def writers [Inhabited T] (take : List T → V) (futures : List F) (outcome : F → Except E T) :
    Writers (system take futures outcome) futures.length T where
  cells s := s.join.result
  due := due
  put := put
  cells_put := by
    intro s i c
    rfl
  due_put := due_put
  write := by
    intro s i k v _ hi
    obtain ⟨hphase, rfl⟩ := due_eq.1 hi
    exact .join (.store i hphase)
  still := still_step
  only := only_write

def allOf [Inhabited T] (layout : Layout T) (futures : List F) (outcome : F → Except E T) :
    System (Torn (World F (State futures.length E T (List T)) E T) futures.length T) :=
  (writers id futures outcome).system layout

def allOfVoid (futures : List F) (outcome : F → Except E Unit) :
    System (Torn (World F (State futures.length E Unit Unit) E Unit) futures.length Unit) :=
  (writers (fun _ => ()) futures outcome).system .apart

structure Joined [Inhabited T] (layout : Layout T) (take : List T → V) (futures : List F)
    (outcome : F → Except E T)
    (s : Torn (World F (State futures.length E T V) E T) futures.length T) : Prop where
  once : s.base.join.resolvers.length ≤ 1
  kept : s.base.join.out.resolved = true → ∀ t,
    Relation.ReflTransGen ((writers take futures outcome).Step layout) s t →
      t.base.join.out.get = s.base.join.out.get
  value : ∀ r, s.base.join.out.get = some (.ok r) → ∃ vs, futures.map outcome = vs.map .ok ∧
    r = take vs ∧ ∀ f ∈ futures, (s.base.input f).resolved = true
  error : ∀ e, s.base.join.out.get = some (.error e) → ∃ i, s.base.join.resolvers = [i] ∧
    outcome (futures.get i) = .error e ∧ (s.base.input (futures.get i)).resolved = true
  resolved : (∀ i, (s.base.join.phase i).isFinished = true) → s.base.join.out.resolved = true ∧
    ((∃ vs, futures.map outcome = vs.map .ok ∧ s.base.join.out.get = some (.ok (take vs))) ∨
      (∃ f ∈ futures, ∃ e, outcome f = .error e) ∧ ∃ e, s.base.join.out.get = some (.error e))

theorem outOk_get {src : Fin n → FutureState E T} {out : FutureState E V} {rs : List (Fin n)}
    (h : OutOk take src out rs) :
    (out.get = none ∧ out.resolved = false ∧ rs = []) ∨
    (∃ i e, out.get = some (.error e) ∧ rs = [i] ∧ Holds (src i) (.error e)) ∨
    (∃ vs, out.get = some (.ok (take vs)) ∧ vs.length = n ∧ rs.length ≤ 1 ∧
      ∀ i : Fin n, ∀ v ∈ vs[i]?, Holds (src i) (.ok v)) := by
  cases h with
  | pending => exact .inl ⟨rfl, rfl, rfl⟩
  | error hr hf h => exact .inr (.inl ⟨_, _, get_of_holds hr hf, rfl, h⟩)
  | value hr hf hn h hone => exact .inr (.inr ⟨_, get_of_holds hr hf, hn, hone, h⟩)

omit [DecidableEq F] in
theorem values_eq (h : InputsOk outcome s.input) {vs : List T}
    (hn : vs.length = futures.length) (hv : ∀ i : Fin futures.length, ∀ v ∈ vs[i]?,
      Holds (s.input (futures.get i)) (.ok v)) :
    futures.map outcome = vs.map .ok ∧ ∀ f ∈ futures, (s.input f).resolved = true := by
  have hat : ∀ i : Fin futures.length, ∃ v, vs[i]? = some v ∧
      outcome (futures.get i) = .ok v ∧ (s.input (futures.get i)).resolved = true := by
    intro i
    have hlt : i.1 < vs.length := by
      rw [hn]
      exact i.2
    have hsome : vs[i]? = some vs[i.1] := List.getElem?_eq_getElem hlt
    obtain ⟨he, hr⟩ := h.holds (hv i _ hsome)
    exact ⟨_, hsome, he.symm, hr⟩
  constructor
  · refine List.ext_getElem (by simp [hn]) fun k h₁ h₂ => ?_
    obtain ⟨v, hsome, ho, -⟩ := hat ⟨k, by simpa using h₁⟩
    have hlt : k < vs.length := by simpa using h₂
    have hvk : vs[k] = v := by
      have hget : vs[k]? = some v := hsome
      rw [List.getElem?_eq_getElem hlt] at hget
      exact Option.some.inj hget
    simpa [hvk] using ho
  · intro f hf
    obtain ⟨i, rfl⟩ := List.mem_iff_get.1 hf
    obtain ⟨-, -, -, hr⟩ := hat i
    exact hr

section Torn

variable [Inhabited T] {layout : Layout T}
  {s t : Torn (World F (State futures.length E T V) E T) futures.length T}

theorem run_keeps (h : Relation.ReflTransGen ((writers take futures outcome).Step layout) s t)
    (hr : s.base.join.out.resolved = true) :
    t.base.join.out.resolved = true ∧ t.base.join.out.get = s.base.join.out.get := by
  have hbase : ∀ u v : World F (State futures.length E T V) E T,
      (system take futures outcome).step u v → u.join.out.resolved = true →
        v.join.out.resolved = true ∧ v.join.out.get = u.join.out.get := by
    intro u v hst hu
    cases hst with
    | settle => exact ⟨hu, rfl⟩
    | signal => exact ⟨hu, rfl⟩
    | join hj => exact step_keeps hj hu
  refine run_invariant (I := fun u => u.base.join.out.resolved = true ∧
    u.base.join.out.get = s.base.join.out.get) ?_ ⟨hr, rfl⟩ h
  rintro u v ⟨hu, hget⟩ hst
  cases hst with
  | whole _ hs => exact (hbase _ _ hs hu).imp_right fun hg => hg.trans hget
  | quiet _ hs => exact (hbase _ _ hs.1 hu).imp_right fun hg => hg.trans hget
  | read => exact ⟨hu, hget⟩
  | write => exact ⟨hu, hget⟩

theorem joined (h : (writers take futures outcome).Clean layout s) :
    Joined layout take futures outcome s := by
  obtain ⟨hin, hinv⟩ := inv_reachable h.reachable
  rcases outOk_get hinv.out with ⟨hg, hr, hrs⟩ | ⟨i, e, hg, hrs, he⟩ | ⟨vs, hg, hn, hone, hv⟩
  · refine ⟨by simp [hrs], fun hr' => by simp [hr] at hr', by simp [hg], by simp [hg], fun hf => ?_⟩
    simp [hinv.resolved_of_finished hf] at hr
  · obtain ⟨hout, hres⟩ := hin.holds he
    refine ⟨by simp [hrs], fun hr t ht => (run_keeps ht hr).2, by simp [hg], fun e' he' => ?_,
      fun hf => ⟨hinv.resolved_of_finished hf, .inr ⟨⟨_, List.get_mem futures i, e, hout.symm⟩,
        e, hg⟩⟩⟩
    obtain rfl : e = e' := by simpa [hg] using he'
    exact ⟨i, hrs, hout.symm, hres⟩
  · obtain ⟨hmap, hres⟩ := values_eq hin hn hv
    refine ⟨hone, fun hr t ht => (run_keeps ht hr).2, fun r hr => ?_, by simp [hg], fun hf =>
      ⟨hinv.resolved_of_finished hf, .inl ⟨vs, hmap, hg⟩⟩⟩
    obtain rfl : take vs = r := by simpa [hg] using hr
    exact ⟨vs, hmap, rfl, hres⟩

theorem finished_of_run (h : (writers take futures outcome).Clean layout s)
    (hq : ((writers take futures outcome).system layout).Quiescent s) (i : Fin futures.length) :
    (s.base.join.phase i).isFinished = true :=
  finished_of_quiescent (inv_reachable h.reachable).1 (Writers.base_quiescent hq) i

end Torn

end World

theorem allOf_joins {F : Type} [DecidableEq F] [Inhabited T] (layout : Layout T)
    (futures : List F) :
    (∀ (outcome : F → Except E T) s, (writers id futures outcome).Clean layout s →
      Joined layout id futures outcome s ∧
        ((allOf layout futures outcome).Quiescent s →
          ∀ i, (s.base.join.phase i).isFinished = true)) ∧
    (∀ (outcome : F → Except E Unit) s, (allOfVoid futures outcome).Reachable s →
      Joined .apart (fun _ => ()) futures outcome s ∧
        ((allOfVoid futures outcome).Quiescent s →
          ∀ i, (s.base.join.phase i).isFinished = true)) := by
  constructor
  · intro outcome s h
    exact ⟨joined h, finished_of_run h⟩
  · intro outcome s h
    have hrun : (writers (fun _ => ()) futures outcome).Clean .apart s := .inl ⟨rfl, h⟩
    exact ⟨joined hrun, finished_of_run hrun⟩

theorem allOf_joins_repeated :
    ∃ s : Torn (World Unit (State 2 String Nat (List Nat)) String Nat) 2 Nat,
      (allOf .apart [(), ()] fun _ => .ok 7).Reachable s ∧
        s.base.join.out.get = some (.ok [7, 7]) ∧
        ∃ vs : List Nat, [(), ()].map (fun _ => (.ok 7 : Except String Nat)) = vs.map .ok ∧
          [7, 7] = vs := by
  have h₀ : (allOf .apart [(), ()] fun _ => (.ok 7 : Except String Nat)).Reachable
      ⟨⟨fun _ => .pending, .init id⟩, fun _ => none⟩ := System.reachable_initial ⟨rfl, fun _ => rfl⟩
  have h₁ := h₀.step (.whole rfl (.join (.attach 0 rfl (by simp))))
  have h₂ := h₁.step (.whole rfl (.join (.attach 1 rfl (forall_lt_one fun hd => by cases hd))))
  have h₃ := h₂.step (.whole rfl (.settle () rfl))
  have h₄ := h₃.step (.whole rfl (.signal () rfl rfl))
  have h₅ := h₄.step (.whole rfl (.join (.resumeValue 1 rfl rfl rfl rfl)))
  have h₆ := h₅.step (.whole rfl (.join (.store 1 rfl)))
  have h₇ := h₆.step (.whole rfl (.join (.count 1 rfl)))
  have h₈ := h₇.step (.whole rfl (.join (.resumeValue 0 rfl rfl rfl rfl)))
  have h₉ := h₈.step (.whole rfl (.join (.store 0 rfl)))
  have h₁₀ := h₉.step (.whole rfl (.join (.count 0 rfl)))
  have h₁₁ := h₁₀.step (.whole rfl (.join (.resolveValue 0 rfl)))
  obtain ⟨vs, hvs, hr, -⟩ :=
    ((allOf_joins Layout.apart [(), ()]).1 _ _ (.inl ⟨rfl, h₁₁⟩)).1.value [7, 7] rfl
  exact ⟨_, h₁₁, rfl, vs, hvs, hr⟩

-- Both continuations read the word before either writes it back, so the first `true` is lost.
theorem allOf_loses_bool :
    ∃ s : Torn (World Bool (State 2 String Bool (List Bool)) String Bool) 2 Bool,
      (allOf .packed [false, true] fun _ => .ok true).Reachable s ∧
        (∀ i, (s.base.join.phase i).isFinished = true) ∧
        s.base.join.out.get = some (.ok [false, true]) ∧
        ¬ Joined .packed id [false, true] (fun _ => .ok true) s := by
  have h₀ : (allOf .packed [false, true] fun _ => (.ok true : Except String Bool)).Reachable
      ⟨⟨fun _ => .pending, .init id⟩, fun _ => none⟩ := System.reachable_initial ⟨rfl, fun _ => rfl⟩
  have h₁ := h₀.step (.quiet rfl (.of_due (.join (.attach 0 rfl (by simp))) (by decide)))
  have h₂ := h₁.step (.quiet rfl (.of_due
    (.join (.attach 1 rfl (forall_lt_one fun hd => by cases hd))) (by decide)))
  have h₃ := h₂.step (.quiet rfl (.of_due (.settle false rfl) (by decide)))
  have h₄ := h₃.step (.quiet rfl (.of_due (.signal false rfl rfl) (by decide)))
  have h₅ := h₄.step (.quiet rfl (.of_due (.settle true rfl) (by decide)))
  have h₆ := h₅.step (.quiet rfl (.of_due (.signal true rfl rfl) (by decide)))
  have h₇ := h₆.step (.quiet rfl (.of_due (.join (.resumeValue 0 rfl rfl rfl rfl)) (by decide)))
  have h₈ := h₇.step (.quiet rfl (.of_due (.join (.resumeValue 1 rfl rfl rfl rfl)) (by decide)))
  have h₉ := h₈.step (.read 0 rfl rfl rfl)
  have h₁₀ := h₉.step (.read 1 rfl rfl rfl)
  have h₁₁ := h₁₀.step (.write 0 rfl rfl rfl)
  have h₁₂ := h₁₁.step (.write 1 rfl rfl rfl)
  have h₁₃ := h₁₂.step (.quiet rfl (.of_due (.join (.count 0 rfl)) (by decide)))
  have h₁₄ := h₁₃.step (.quiet rfl (.of_due (.join (.count 1 rfl)) (by decide)))
  have h₁₅ := h₁₄.step (.quiet rfl (.of_due (.join (.resolveValue 1 rfl)) (by decide)))
  have h₁₆ := h₁₅.step (.quiet rfl (.of_due (.join (.set 1 rfl)) (by decide)))
  refine ⟨_, h₁₆, by decide, rfl, fun hj => ?_⟩
  obtain ⟨vs, hvs, hr, -⟩ := hj.value [false, true] rfl
  rw [← show [false, true] = vs from hr] at hvs
  simp at hvs

end Lark.Coro.AllOf
