import Lark.Base.Counting
import Lark.Base.Transition
import Mathlib.Data.Fin.Tuple.Basic
import Mathlib.Data.Fintype.BigOperators
import Mathlib.Tactic

namespace Lark.Coro.Future

open Lark.Base

-- A `Future<void>` is a future of `Unit`: its coroutines differ from the valued ones only in
-- not passing the value.
structure FutureState (E V : Type) where
  resolved : Bool
  value : Option V
  error : Option E
  done : Bool

namespace FutureState

variable {E V : Type}

def pending : FutureState E V := ⟨false, none, none, false⟩

def resolveValue (f : FutureState E V) (v : V) : FutureState E V :=
  if f.resolved then f else { f with value := some v, resolved := true }

def resolveError (f : FutureState E V) (e : E) : FutureState E V :=
  if f.resolved then f else { f with error := some e, resolved := true }

def resolve (f : FutureState E V) : Except E V → FutureState E V
  | .ok v => f.resolveValue v
  | .error e => f.resolveError e

def get (f : FutureState E V) : Option (Except E V) :=
  if f.resolved then
    match f.error with
    | some e => some (.error e)
    | none => f.value.map .ok
  else none

end FutureState

inductive Stage (E : Type) : Type → Type → Type 1 where
  | andThen {V U : Type} (fn : V → Except E U) : Stage E V U
  | thenAsync {V U : Type} (fn : V → Except E (Except E U)) : Stage E V U
  | onError {V : Type} (fn : E → Except E V) : Stage E V V
  | whenComplete {V : Type} (fn : Option V → Option E → Except E Unit) : Stage E V V

inductive Cont (E U : Type) where
  | resolve (o : Except E U)
  | await (next : Except E U)

namespace Stage

variable {E V U : Type}

-- What the coroutine does once `co_await self->done` has returned: the number of calls of its
-- function and what is left to do. `none` is the dereference of an empty `value`.
def resume : {V U : Type} → Stage E V U → FutureState E V → Option (Nat × Cont E U)
  | _, _, andThen fn, self =>
    match self.error with
    | some e => some (0, .resolve (.error e))
    | none => self.value.map fun v => (1, .resolve (fn v))
  | _, _, thenAsync fn, self =>
    match self.error with
    | some e => some (0, .resolve (.error e))
    | none => self.value.map fun v =>
      match fn v with
      | .error e => (1, .resolve (.error e))
      | .ok next => (1, .await next)
  | _, _, onError fn, self =>
    match self.error with
    | none => self.value.map fun v => (0, .resolve (.ok v))
    | some e => some (1, .resolve (fn e))
  | _, _, whenComplete fn, self =>
    match fn self.value self.error with
    | .error e => some (1, .resolve (.error e))
    | .ok () =>
      match self.error with
      | some e => some (1, .resolve (.error e))
      | none => self.value.map fun v => (1, .resolve (.ok v))

def eval : {V U : Type} → Stage E V U → Except E V → Except E U
  | _, _, andThen _, .error e => .error e
  | _, _, andThen fn, .ok v => fn v
  | _, _, thenAsync _, .error e => .error e
  | _, _, thenAsync fn, .ok v => fn v >>= id
  | _, _, onError _, .ok v => .ok v
  | _, _, onError fn, .error e => fn e
  | _, _, whenComplete fn, .ok v => fn (some v) none >>= fun _ => .ok v
  | _, _, whenComplete fn, .error e => fn none (some e) >>= fun _ => .error e

def callCount : {V U : Type} → Stage E V U → Except E V → Nat
  | _, _, andThen _, .ok _ => 1
  | _, _, thenAsync _, .ok _ => 1
  | _, _, onError _, .error _ => 1
  | _, _, whenComplete _, _ => 1
  | _, _, _, _ => 0

def isWhenComplete : {V U : Type} → Stage E V U → Bool
  | _, _, whenComplete _ => true
  | _, _, _ => false

end Stage

inductive Phase (E U : Type) where
  | detached
  | awaiting
  | suspended
  | ready
  | inner (o : Except E U)
  | resolving (o : Except E U)
  | setting
  | finished

namespace Phase

variable {E U : Type}

def wake : Phase E U → Phase E U
  | suspended => ready
  | ph => ph

def ofCont : Cont E U → Phase E U
  | .resolve o => resolving o
  | .await o => inner o

end Phase

inductive ResolverPhase where
  | idle
  | setting
  | finished
  deriving DecidableEq

structure Chain (E : Type) {k : Nat} (T : Fin (k + 1) → Type) where
  stage : (i : Fin k) → Stage E (T i.castSucc) (T i.succ)

variable {E : Type} {k : Nat} {T : Fin (k + 1) → Type} {R : Type}

def Chain.eval (c : Chain E T) (o : Except E (T 0)) (f : Fin (k + 1)) : Except E (T f) :=
  Fin.induction o (fun i acc => (c.stage i).eval acc) f

structure State (E : Type) {k : Nat} (T : Fin (k + 1) → Type) (R : Type) where
  future : (f : Fin (k + 1)) → FutureState E (T f)
  phase : (i : Fin k) → Phase E (T i.succ)
  resolver : R → ResolverPhase
  locked : List R
  resolves : Fin (k + 1) → Nat
  calls : Fin k → Nat

namespace State

def init : State E T R where
  future := fun _ => .pending
  phase := fun _ => .detached
  resolver := fun _ => .idle
  locked := []
  resolves := fun _ => 0
  calls := fun _ => 0

def setPhase (s : State E T R) (i : Fin k) (ph : Phase E (T i.succ)) : State E T R :=
  { s with phase := Function.update s.phase i ph }

def lock (s : State E T R) (f : Fin (k + 1)) (o : Except E (T f)) : State E T R :=
  { s with
    future := Function.update s.future f ((s.future f).resolve o)
    resolves := if (s.future f).resolved then s.resolves
      else Function.update s.resolves f (s.resolves f + 1) }

def set (s : State E T R) (f : Fin (k + 1)) : State E T R :=
  { s with
    future := Function.update s.future f { s.future f with done := true }
    phase := fun i => if i.castSucc = f then (s.phase i).wake else s.phase i }

end State

inductive Step [DecidableEq R] (c : Chain E T) (outcome : R → Except E (T 0)) :
    State E T R → State E T R → Prop
  | attach {s} (i : Fin k) (h : s.phase i = .detached)
      (hp : ∀ j : Fin k, j.succ = i.castSucc → s.phase j ≠ .detached) :
      Step c outcome s (s.setPhase i .awaiting)
  | awaitReady {s} (i : Fin k) (h : s.phase i = .awaiting)
      (hd : (s.future i.castSucc).done = true) : Step c outcome s (s.setPhase i .ready)
  | awaitSuspend {s} (i : Fin k) (h : s.phase i = .awaiting)
      (hd : (s.future i.castSucc).done = false) : Step c outcome s (s.setPhase i .suspended)
  | resume {s} (i : Fin k) {m co} (h : s.phase i = .ready)
      (hr : (c.stage i).resume (s.future i.castSucc) = some (m, co)) :
      Step c outcome s { s.setPhase i (.ofCont co) with
        calls := Function.update s.calls i (s.calls i + m) }
  | inner {s} (i : Fin k) {o} (h : s.phase i = .inner o) :
      Step c outcome s (s.setPhase i (.resolving o))
  | lock {s} (i : Fin k) {o} (h : s.phase i = .resolving o) :
      Step c outcome s ((s.lock i.succ o).setPhase i
        (if (s.future i.succ).resolved then .finished else .setting))
  | set {s} (i : Fin k) (h : s.phase i = .setting) :
      Step c outcome s ((s.set i.succ).setPhase i .finished)
  | resolverLock {s} (r : R) (h : s.resolver r = .idle) :
      Step c outcome s { s.lock 0 (outcome r) with
        locked := s.locked ++ [r]
        resolver := Function.update s.resolver r
          (if (s.future 0).resolved then .finished else .setting) }
  | resolverSet {s} (r : R) (h : s.resolver r = .setting) :
      Step c outcome s { s.set 0 with resolver := Function.update s.resolver r .finished }

def system [DecidableEq R] (c : Chain E T) (outcome : R → Except E (T 0)) : System (State E T R) where
  initial := fun s => s = .init
  step := Step c outcome

def Holds {V : Type} (f : FutureState E V) : Except E V → Prop
  | .ok v => f.value = some v ∧ f.error = none
  | .error e => f.value = none ∧ f.error = some e

def Cont.outcome {U : Type} : Cont E U → Except E U
  | resolve o => o
  | await o => o

section

variable {V U : Type} {f : FutureState E V} {o : Except E V}

theorem get_of_holds (hr : f.resolved = true) (h : Holds f o) : f.get = some o := by
  cases o with
  | ok v => simp [FutureState.get, hr, h.1, h.2]
  | error e => simp [FutureState.get, hr, h.2]

theorem holds_resolve_pending : Holds ((FutureState.pending : FutureState E V).resolve o) o := by
  cases o with
  | ok v => exact ⟨rfl, rfl⟩
  | error e => exact ⟨rfl, rfl⟩

theorem resolve_resolved : (f.resolve o).resolved = true := by
  cases o <;> cases h : f.resolved <;>
    simp [FutureState.resolve, FutureState.resolveValue, FutureState.resolveError, h]

theorem resolve_done : (f.resolve o).done = f.done := by
  cases o <;> cases h : f.resolved <;>
    simp [FutureState.resolve, FutureState.resolveValue, FutureState.resolveError, h]

theorem resolve_of_resolved (h : f.resolved = true) : f.resolve o = f := by
  cases o <;> simp [FutureState.resolve, FutureState.resolveValue, FutureState.resolveError, h]

theorem resume_holds (st : Stage E V U) (h : Holds f o) :
    ∃ co, st.resume f = some (st.callCount o, co) ∧ co.outcome = st.eval o := by
  cases st with
  | andThen fn =>
    cases o with
    | ok v => exact ⟨.resolve (fn v), by simp [Stage.resume, h.1, h.2, Stage.callCount], rfl⟩
    | error e => exact ⟨.resolve (.error e), by simp [Stage.resume, h.2, Stage.callCount], rfl⟩
  | thenAsync fn =>
    cases o with
    | ok v =>
      cases hfn : fn v with
      | ok next =>
        exact ⟨.await next, by simp [Stage.resume, h.1, h.2, hfn, Stage.callCount],
          by simp [Stage.eval, hfn, Cont.outcome, bind, Except.bind]⟩
      | error e =>
        exact ⟨.resolve (.error e), by simp [Stage.resume, h.1, h.2, hfn, Stage.callCount],
          by simp [Stage.eval, hfn, Cont.outcome, bind, Except.bind]⟩
    | error e => exact ⟨.resolve (.error e), by simp [Stage.resume, h.2, Stage.callCount], rfl⟩
  | onError fn =>
    cases o with
    | ok v => exact ⟨.resolve (.ok v), by simp [Stage.resume, h.1, h.2, Stage.callCount], rfl⟩
    | error e => exact ⟨.resolve (fn e), by simp [Stage.resume, h.2, Stage.callCount], rfl⟩
  | whenComplete fn =>
    cases o with
    | ok v =>
      cases hfn : fn (some v) none with
      | ok u =>
        exact ⟨.resolve (.ok v), by simp [Stage.resume, h.1, h.2, hfn, Stage.callCount],
          by simp [Stage.eval, hfn, Cont.outcome, bind, Except.bind]⟩
      | error e =>
        exact ⟨.resolve (.error e), by simp [Stage.resume, h.1, h.2, hfn, Stage.callCount],
          by simp [Stage.eval, hfn, Cont.outcome, bind, Except.bind]⟩
    | error e =>
      cases hfn : fn none (some e) with
      | ok u =>
        exact ⟨.resolve (.error e), by simp [Stage.resume, h.1, h.2, hfn, Stage.callCount],
          by simp [Stage.eval, hfn, Cont.outcome, bind, Except.bind]⟩
      | error e' =>
        exact ⟨.resolve (.error e'), by simp [Stage.resume, h.1, h.2, hfn, Stage.callCount],
          by simp [Stage.eval, hfn, Cont.outcome, bind, Except.bind]⟩

theorem callCount_le_one (st : Stage E V U) : st.callCount o ≤ 1 := by
  cases st <;> cases o <;> simp [Stage.callCount]

theorem callCount_whenComplete (st : Stage E V U) (h : st.isWhenComplete = true) :
    st.callCount o = 1 := by
  cases st <;> simp_all [Stage.callCount, Stage.isWhenComplete]

end

inductive FutureOk {V : Type} : FutureState E V → Nat → Option (Except E V) → Prop
  | pending {src} : FutureOk .pending 0 src
  | resolved {f o} (hr : f.resolved = true) (hv : Holds f o) : FutureOk f 1 (some o)

inductive PhaseOk {V U : Type} (st : Stage E V U) (self : FutureState E V) (out : FutureState E U) :
    Phase E U → Nat → Option (Except E V) → Prop
  | detached {src} (ho : out.resolved = false) : PhaseOk st self out .detached 0 src
  | awaiting {src} (ho : out.resolved = false) : PhaseOk st self out .awaiting 0 src
  | suspended {src} (ho : out.resolved = false) (hd : self.done = false) :
      PhaseOk st self out .suspended 0 src
  | ready {src} (ho : out.resolved = false) (hr : self.resolved = true) :
      PhaseOk st self out .ready 0 src
  | inner {a} (ho : out.resolved = false) :
      PhaseOk st self out (.inner (st.eval a)) (st.callCount a) (some a)
  | resolving {a} (ho : out.resolved = false) :
      PhaseOk st self out (.resolving (st.eval a)) (st.callCount a) (some a)
  | setting {a} (ho : out.resolved = true) : PhaseOk st self out .setting (st.callCount a) (some a)
  | finished {a} (ho : out.resolved = true) (hd : out.done = true) :
      PhaseOk st self out .finished (st.callCount a) (some a)

section

variable {V U : Type} {f : FutureState E V} {st : Stage E V U} {self self' : FutureState E V}
  {out : FutureState E U} {ph : Phase E U} {m : Nat} {src src' : Option (Except E V)}

theorem futureOk_mono (h : FutureOk f m src) (hs : ∀ a, src = some a → src' = some a) :
    FutureOk f m src' := by
  cases h with
  | pending => exact .pending
  | resolved hr hv =>
    rw [hs _ rfl]
    exact .resolved hr hv

theorem futureOk_set (h : FutureOk f m src) (hr : f.resolved = true) :
    FutureOk { f with done := true } m src := by
  cases h with
  | pending => simp [FutureState.pending] at hr
  | resolved hr hv =>
    refine .resolved hr ?_
    rename_i o
    cases o with
    | ok v => exact hv
    | error e => exact hv

theorem futureOk_resolve {a : Except E V} (h : FutureOk f m (some a)) :
    FutureOk (f.resolve a) (if f.resolved then m else m + 1) (some a) := by
  cases h with
  | pending =>
    refine .resolved resolve_resolved holds_resolve_pending
  | resolved hr hv =>
    rw [if_pos hr, resolve_of_resolved hr]
    exact .resolved hr hv

theorem futureOk_resolves (h : FutureOk f m src) (hr : f.resolved = true) : m = 1 := by
  cases h with
  | pending => simp [FutureState.pending] at hr
  | resolved => rfl

theorem futureOk_spec (h : FutureOk f m src) :
    m ≤ 1 ∧ (f.resolved = true → ∃ o, src = some o ∧ f.get = some o) := by
  cases h with
  | pending => simp [FutureState.pending]
  | resolved hr hv => exact ⟨le_rfl, fun _ => ⟨_, rfl, get_of_holds hr hv⟩⟩

theorem phaseOk_mono (h : PhaseOk st self out ph m src)
    (hd : ph = .suspended → self.done = false → self'.done = false)
    (hr : self.resolved = true → self'.resolved = true)
    (hs : ∀ a, src = some a → src' = some a) : PhaseOk st self' out ph m src' := by
  cases h with
  | detached ho => exact .detached ho
  | awaiting ho => exact .awaiting ho
  | suspended ho hd' => exact .suspended ho (hd rfl hd')
  | ready ho hr' => exact .ready ho (hr hr')
  | inner ho =>
    rw [hs _ rfl]
    exact .inner ho
  | resolving ho =>
    rw [hs _ rfl]
    exact .resolving ho
  | setting ho =>
    rw [hs _ rfl]
    exact .setting ho
  | finished ho hd' =>
    rw [hs _ rfl]
    exact .finished ho hd'

theorem phaseOk_wake (h : PhaseOk st self out ph m src) (hr : self.resolved = true) :
    PhaseOk st { self with done := true } out ph.wake m src := by
  cases h with
  | detached ho => exact .detached ho
  | awaiting ho => exact .awaiting ho
  | suspended ho _ => exact .ready ho hr
  | ready ho hr' => exact .ready ho hr'
  | inner ho => exact .inner ho
  | resolving ho => exact .resolving ho
  | setting ho => exact .setting ho
  | finished ho hd' => exact .finished ho hd'

theorem phaseOk_out (h : PhaseOk st self out ph m src) :
    PhaseOk st self { out with done := true } ph m src := by
  cases h with
  | detached ho => exact .detached ho
  | awaiting ho => exact .awaiting ho
  | suspended ho hd => exact .suspended ho hd
  | ready ho hr => exact .ready ho hr
  | inner ho => exact .inner ho
  | resolving ho => exact .resolving ho
  | setting ho => exact .setting ho
  | finished ho _ => exact .finished ho rfl

theorem resolved_of_done (h : FutureOk f m src) (hd : f.done = true) : f.resolved = true := by
  cases h with
  | pending => simp [FutureState.pending] at hd
  | resolved hr => exact hr

theorem phaseOk_attach (h : PhaseOk st self out .detached m src) :
    PhaseOk st self out .awaiting m src := by
  cases h with
  | detached ho => exact .awaiting ho

theorem phaseOk_awaitReady (h : PhaseOk st self out .awaiting m src) (hr : self.resolved = true) :
    PhaseOk st self out .ready m src := by
  cases h with
  | awaiting ho => exact .ready ho hr

theorem phaseOk_awaitSuspend (h : PhaseOk st self out .awaiting m src) (hd : self.done = false) :
    PhaseOk st self out .suspended m src := by
  cases h with
  | awaiting ho => exact .suspended ho hd

theorem phaseOk_ready {r : Nat} (h : PhaseOk st self out .ready m src) (hf : FutureOk self r src) :
    ∃ a co, src = some a ∧ m = 0 ∧ out.resolved = false ∧
      st.resume self = some (st.callCount a, co) ∧ co.outcome = st.eval a := by
  cases h with
  | ready ho hr =>
    cases hf with
    | pending => simp [FutureState.pending] at hr
    | resolved hr hv =>
      obtain ⟨co, hco, ho'⟩ := resume_holds st hv
      exact ⟨_, co, rfl, rfl, ho, hco, ho'⟩

theorem phaseOk_resume {r n : Nat} {co : Cont E U} (h : PhaseOk st self out .ready m src)
    (hf : FutureOk self r src) (hr : st.resume self = some (n, co)) :
    PhaseOk st self out (.ofCont co) (m + n) src := by
  obtain ⟨a, co', rfl, rfl, ho, hr', hout⟩ := phaseOk_ready h hf
  rw [hr] at hr'
  obtain ⟨rfl, rfl⟩ : n = st.callCount a ∧ co = co' := by simpa using hr'
  rw [Nat.zero_add]
  cases co with
  | resolve o =>
    have hout : o = st.eval a := hout
    rw [hout]
    exact .resolving ho
  | await o =>
    have hout : o = st.eval a := hout
    rw [hout]
    exact .inner ho

theorem phaseOk_inner {o : Except E U} (h : PhaseOk st self out (.inner o) m src) :
    PhaseOk st self out (.resolving o) m src := by
  cases h with
  | inner ho => exact .resolving ho

theorem phaseOk_resolving {o : Except E U} (h : PhaseOk st self out (.resolving o) m src) :
    ∃ a, src = some a ∧ o = st.eval a ∧ m = st.callCount a ∧ out.resolved = false := by
  cases h with
  | resolving ho => exact ⟨_, rfl, rfl, rfl, ho⟩

theorem phaseOk_setting (h : PhaseOk st self out .setting m src) :
    ∃ a, src = some a ∧ m = st.callCount a ∧ out.resolved = true := by
  cases h with
  | setting ho => exact ⟨_, rfl, rfl, ho⟩

theorem phaseOk_calls_le_one (h : PhaseOk st self out ph m src) : m ≤ 1 := by
  cases h <;> simp [callCount_le_one]

end

section

variable (c : Chain E T) (outcome : R → Except E (T 0))

def source (locked : List R) (f : Fin (k + 1)) : Option (Except E (T f)) :=
  locked.head?.map fun r => c.eval (outcome r) f

structure Inv (s : State E T R) : Prop where
  future : ∀ f, FutureOk (s.future f) (s.resolves f) (source c outcome s.locked f)
  phase : ∀ i, PhaseOk (c.stage i) (s.future i.castSucc) (s.future i.succ) (s.phase i) (s.calls i)
    (source c outcome s.locked i.castSucc)
  idle : ∀ r, s.resolver r = .idle ↔ r ∉ s.locked
  locked : (s.future 0).resolved = true ↔ s.locked ≠ []
  signalled : (s.future 0).resolved = true →
    (s.future 0).done = true ∨ ∃ r, s.resolver r = .setting

variable {c outcome} {s t : State E T R}

theorem source_succ (locked : List R) (i : Fin k) :
    source c outcome locked i.succ = (source c outcome locked i.castSucc).map (c.stage i).eval := by
  simp [source, Chain.eval, Function.comp_def]

theorem source_append {locked : List R} {r : R} {f : Fin (k + 1)} {a : Except E (T f)}
    (h : source c outcome locked f = some a) : source c outcome (locked ++ [r]) f = some a := by
  cases locked with
  | nil => simp [source] at h
  | cons r' l => exact h

theorem inv_init : Inv c outcome (.init : State E T R) := by
  refine ⟨fun _ => .pending, fun _ => .detached rfl, ?_, ?_, ?_⟩
  all_goals simp [State.init, FutureState.pending]

theorem inv_call (h : Inv c outcome s) {i : Fin k} {ph : Phase E (T i.succ)} {m : Nat}
    (hi : PhaseOk (c.stage i) (s.future i.castSucc) (s.future i.succ) ph m
      (source c outcome s.locked i.castSucc)) :
    Inv c outcome { s.setPhase i ph with calls := Function.update s.calls i m } := by
  refine ⟨h.future, fun j => ?_, h.idle, h.locked, h.signalled⟩
  rcases eq_or_ne j i with rfl | hj
  · simpa [State.setPhase] using hi
  · simpa [State.setPhase, hj] using h.phase j

theorem inv_setPhase (h : Inv c outcome s) {i : Fin k} {ph : Phase E (T i.succ)}
    (hi : PhaseOk (c.stage i) (s.future i.castSucc) (s.future i.succ) ph (s.calls i)
      (source c outcome s.locked i.castSucc)) :
    Inv c outcome (s.setPhase i ph) := by
  have h' := inv_call h hi
  rwa [Function.update_eq_self] at h'

theorem inv_lock (h : Inv c outcome s) {i : Fin k} {o : Except E (T i.succ)}
    (hi : s.phase i = .resolving o) :
    Inv c outcome ((s.lock i.succ o).setPhase i
      (if (s.future i.succ).resolved then .finished else .setting)) := by
  have hp := h.phase i
  rw [hi] at hp
  obtain ⟨a, hsrc, ho, hm, hun⟩ := phaseOk_resolving hp
  have hsrc' : source c outcome s.locked i.succ = some o := by rw [source_succ, hsrc, ho]; rfl
  rw [if_neg (by simp [hun])]
  refine ⟨fun f => ?_, fun j => ?_, h.idle, ?_, ?_⟩
  · rcases eq_or_ne f i.succ with rfl | hf
    · have hf := h.future i.succ
      rw [hsrc'] at hf
      have hok := futureOk_resolve hf
      rw [if_neg (by simp [hun])] at hok
      simpa [State.lock, State.setPhase, hun, hsrc'] using hok
    · simpa [State.lock, State.setPhase, hun, hf] using h.future f
  · rcases eq_or_ne j i with rfl | hj
    · have hne : j.castSucc ≠ j.succ := (Fin.castSucc_lt_succ).ne
      simp only [State.lock, State.setPhase, Function.update_self, Function.update_of_ne hne, hsrc,
        hm]
      exact .setting resolve_resolved
    · have hout : j.succ ≠ i.succ := fun e => hj (Fin.succ_injective _ e)
      simp only [State.lock, State.setPhase, Function.update_of_ne hout, Function.update_of_ne hj]
      refine phaseOk_mono (h.phase j) ?_ ?_ (fun _ => id)
      · rcases eq_or_ne j.castSucc i.succ with he | he
        · intro _
          rw [he, Function.update_self, resolve_done]
          exact id
        · simp [he]
      · rcases eq_or_ne j.castSucc i.succ with he | he
        · intro _
          rw [he, Function.update_self, resolve_resolved]
        · simp [he]
  · simpa [State.lock, State.setPhase, (Fin.succ_ne_zero i).symm] using h.locked
  · simpa [State.lock, State.setPhase, (Fin.succ_ne_zero i).symm] using h.signalled

theorem inv_set (h : Inv c outcome s) {f : Fin (k + 1)} (hr : (s.future f).resolved = true) :
    Inv c outcome (s.set f) := by
  refine ⟨fun g => ?_, fun j => ?_, h.idle, ?_, ?_⟩
  · rcases eq_or_ne g f with rfl | hg
    · simpa [State.set] using futureOk_set (h.future g) hr
    · simpa [State.set, hg] using h.future g
  · have hself : PhaseOk (c.stage j) ((s.set f).future j.castSucc) (s.future j.succ)
        ((s.set f).phase j) (s.calls j) (source c outcome s.locked j.castSucc) := by
      rcases eq_or_ne j.castSucc f with rfl | hj
      · simpa [State.set] using phaseOk_wake (h.phase j) hr
      · simpa [State.set, hj] using h.phase j
    rcases eq_or_ne j.succ f with rfl | hj
    · have hout : (s.set j.succ).future j.succ = { s.future j.succ with done := true } := by
        simp [State.set]
      rw [hout]
      exact phaseOk_out hself
    · have hout : (s.set f).future j.succ = s.future j.succ := by simp [State.set, hj]
      rw [hout]
      exact hself
  · rcases eq_or_ne 0 f with rfl | hf
    · simpa [State.set] using h.locked
    · simpa [State.set, hf] using h.locked
  · rcases eq_or_ne 0 f with rfl | hf
    · simp [State.set]
    · simpa [State.set, hf] using h.signalled

theorem inv_stageSet (h : Inv c outcome s) {i : Fin k} (hi : s.phase i = .setting) :
    Inv c outcome ((s.set i.succ).setPhase i .finished) := by
  have hp := h.phase i
  rw [hi] at hp
  obtain ⟨a, hsrc, hm, hr⟩ := phaseOk_setting hp
  refine inv_setPhase (inv_set h hr) ?_
  have hcalls : (s.set i.succ).calls i = (c.stage i).callCount a := hm
  have hsource : source c outcome (s.set i.succ).locked i.castSucc = some a := hsrc
  rw [hcalls, hsource]
  exact .finished (by simpa [State.set] using hr) (by simp [State.set])

theorem finished_spec (h : Inv c outcome s) {i : Fin k} (hi : s.phase i = .finished) :
    (s.future i.succ).done = true ∧ ∃ a, s.calls i = (c.stage i).callCount a := by
  have hp := h.phase i
  rw [hi] at hp
  generalize s.calls i = m at *
  generalize source c outcome s.locked i.castSucc = src at *
  cases hp with
  | finished _ hd => exact ⟨hd, _, rfl⟩

variable [DecidableEq R]

theorem inv_resolverLock (h : Inv c outcome s) {r : R} (hi : s.resolver r = .idle) :
    Inv c outcome { s.lock 0 (outcome r) with
      locked := s.locked ++ [r]
      resolver := Function.update s.resolver r
        (if (s.future 0).resolved then .finished else .setting) } := by
  have hmono : ∀ f a, source c outcome s.locked f = some a →
      source c outcome (s.locked ++ [r]) f = some a := fun f a => source_append
  have hidle : ∀ r', Function.update s.resolver r
      (if (s.future 0).resolved then .finished else .setting) r' = .idle ↔ r' ∉ s.locked ++ [r] := by
    intro r'
    rcases eq_or_ne r' r with rfl | hne
    · rw [Function.update_self]
      split_ifs <;> simp
    · simp [hne, h.idle]
  cases hres : (s.future 0).resolved with
  | true =>
    have hlock : s.lock 0 (outcome r) = s := by
      simp [State.lock, hres, resolve_of_resolved hres, Function.update_eq_self]
    rw [hres] at hidle
    rw [hlock]
    refine ⟨fun f => futureOk_mono (h.future f) (hmono f), fun j => ?_, hidle, by simp [hres], ?_⟩
    · exact phaseOk_mono (h.phase j) (fun _ => id) id (hmono _)
    · intro hr
      rcases h.signalled hr with hd | ⟨r', hr'⟩
      · exact .inl hd
      · refine .inr ⟨r', ?_⟩
        have hne : r' ≠ r := by
          rintro rfl
          simp [hi] at hr'
        simpa [hne] using hr'
  | false =>
    have hnil : s.locked = [] := by
      by_contra hne
      have := h.locked.2 hne
      simp [hres] at this
    rw [hres] at hidle
    refine ⟨fun f => ?_, fun j => ?_, hidle, ?_, ?_⟩
    · rcases eq_or_ne f 0 with rfl | hf
      · have hsrc : source c outcome (s.locked ++ [r]) 0 = some (outcome r) := by
          simp [source, hnil, Chain.eval]
        have hf := futureOk_mono (h.future 0) (hmono 0)
        rw [hsrc] at hf
        have hok := futureOk_resolve hf
        rw [if_neg (by simp [hres])] at hok
        simpa [State.lock, hres, hsrc] using hok
      · simpa [State.lock, hf, hres] using futureOk_mono (h.future f) (hmono f)
    · have hout : j.succ ≠ 0 := Fin.succ_ne_zero j
      simp only [State.lock, Function.update_of_ne hout]
      refine phaseOk_mono (h.phase j) ?_ ?_ (hmono _)
      · rcases eq_or_ne j.castSucc 0 with he | he
        · intro _
          rw [he, Function.update_self, resolve_done]
          exact id
        · simp [he]
      · rcases eq_or_ne j.castSucc 0 with he | he
        · intro _
          rw [he, Function.update_self, resolve_resolved]
        · simp [he]
    · simp [State.lock, resolve_resolved]
    · exact fun _ => .inr ⟨r, by simp⟩

theorem inv_resolverSet (h : Inv c outcome s) {r : R} (hi : s.resolver r = .setting) :
    Inv c outcome { s.set 0 with resolver := Function.update s.resolver r .finished } := by
  have hmem : r ∈ s.locked := by
    by_contra hn
    have := (h.idle r).2 hn
    simp [hi] at this
  have hr : (s.future 0).resolved = true := h.locked.2 (List.ne_nil_of_mem hmem)
  have hs := inv_set h hr
  refine ⟨hs.future, hs.phase, ?_, hs.locked, ?_⟩
  · intro r'
    rcases eq_or_ne r' r with rfl | hne
    · simp [State.set, hmem]
    · simpa [State.set, hne] using h.idle r'
  · simp [State.set]

theorem inv_step (h : Inv c outcome s) (hst : Step c outcome s t) : Inv c outcome t := by
  cases hst with
  | attach i hi =>
    have hp := h.phase i
    rw [hi] at hp
    exact inv_setPhase h (phaseOk_attach hp)
  | awaitReady i hi hd =>
    have hp := h.phase i
    rw [hi] at hp
    exact inv_setPhase h (phaseOk_awaitReady hp (resolved_of_done (h.future _) hd))
  | awaitSuspend i hi hd =>
    have hp := h.phase i
    rw [hi] at hp
    exact inv_setPhase h (phaseOk_awaitSuspend hp hd)
  | resume i hi hr =>
    have hp := h.phase i
    rw [hi] at hp
    exact inv_call h (phaseOk_resume hp (h.future _) hr)
  | inner i hi =>
    have hp := h.phase i
    rw [hi] at hp
    exact inv_setPhase h (phaseOk_inner hp)
  | lock i hi => exact inv_lock h hi
  | set i hi => exact inv_stageSet h hi
  | resolverLock r hi => exact inv_resolverLock h hi
  | resolverSet r hi => exact inv_resolverSet h hi

theorem inv_reachable (h : (system c outcome).Reachable s) : Inv c outcome s := by
  refine System.Reachable.invariant (I := Inv c outcome) ?_ ?_ h
  · rintro s rfl
    exact inv_init
  · exact fun s t hs hst => inv_step hs hst

theorem resolver_finished (hq : (system c outcome).Quiescent s) (r : R) :
    s.resolver r = .finished := by
  cases hr : s.resolver r with
  | idle => exact absurd (Step.resolverLock r hr) (hq _)
  | setting => exact absurd (Step.resolverSet r hr) (hq _)
  | finished => rfl

theorem stage_finished (h : Inv c outcome s) (hq : (system c outcome).Quiescent s) (i : Fin k)
    (hd : (s.future i.castSucc).done = true)
    (hprev : ∀ j : Fin k, j.succ = i.castSucc → s.phase j ≠ .detached) : s.phase i = .finished := by
  have hp := h.phase i
  cases hi : s.phase i with
  | detached => exact absurd (Step.attach i hi hprev) (hq _)
  | awaiting => exact absurd (Step.awaitReady i hi hd) (hq _)
  | suspended =>
    rw [hi] at hp
    generalize s.calls i = m at hp
    cases hp with
    | suspended _ hd' => simp [hd] at hd'
  | ready =>
    rw [hi] at hp
    obtain ⟨a, co, -, -, -, hr, -⟩ := phaseOk_ready hp (h.future _)
    exact absurd (Step.resume i hi hr) (hq _)
  | inner o => exact absurd (Step.inner i hi) (hq _)
  | resolving o => exact absurd (Step.lock i hi) (hq _)
  | setting => exact absurd (Step.set i hi) (hq _)
  | finished => rfl

theorem all_done [Nonempty R] (h : Inv c outcome s) (hq : (system c outcome).Quiescent s) :
    ∀ f : Fin (k + 1), (s.future f).done = true ∧ ∀ j : Fin k, j.succ = f → s.phase j = .finished := by
  intro f
  induction f using Fin.induction with
  | zero =>
    obtain ⟨r⟩ := ‹Nonempty R›
    have hr : r ∈ s.locked := by
      by_contra hn
      have := (h.idle r).2 hn
      simp [resolver_finished hq r] at this
    have hres := h.locked.2 (List.ne_nil_of_mem hr)
    refine ⟨?_, fun j hj => absurd hj (Fin.succ_ne_zero j)⟩
    rcases h.signalled hres with hd | ⟨r', hr'⟩
    · exact hd
    · simp [resolver_finished hq r'] at hr'
  | succ i ih =>
    have hfin := stage_finished h hq i ih.1 fun j hj => by simp [ih.2 j hj]
    refine ⟨(finished_spec h hfin).1, fun j hj => ?_⟩
    obtain rfl := Fin.succ_injective _ hj
    exact hfin

end

def Phase.rank {U : Type} : Phase E U → Nat
  | .detached => 7
  | .awaiting => 6
  | .suspended => 5
  | .ready => 4
  | .inner _ => 3
  | .resolving _ => 2
  | .setting => 1
  | .finished => 0

def ResolverPhase.rank : ResolverPhase → Nat
  | .idle => 2
  | .setting => 1
  | .finished => 0

def State.rank [Fintype R] (s : State E T R) : Nat :=
  ∑ i, (s.phase i).rank + ∑ r, (s.resolver r).rank

section

variable [Fintype R] {c : Chain E T} {outcome : R → Except E (T 0)} {s t : State E T R}

theorem rank_wake {U : Type} (ph : Phase E U) : ph.wake.rank ≤ ph.rank := by
  cases ph <;> simp [Phase.wake, Phase.rank]

theorem rank_setPhase {i : Fin k} {ph : Phase E (T i.succ)} (h : ph.rank < (s.phase i).rank) :
    (s.setPhase i ph).rank < s.rank :=
  Nat.add_lt_add_right (sum_update_lt (fun _ => Phase.rank) h) _

theorem rank_set (f : Fin (k + 1)) : (s.set f).rank ≤ s.rank := by
  refine Nat.add_le_add_right (Finset.sum_le_sum fun j _ => ?_) _
  simp only [State.set]
  split_ifs
  · exact rank_wake _
  · exact le_rfl

variable [DecidableEq R]

theorem rank_step (hst : Step c outcome s t) : t.rank < s.rank := by
  cases hst with
  | attach i hi => exact rank_setPhase (by simp [hi, Phase.rank])
  | awaitReady i hi => exact rank_setPhase (by simp [hi, Phase.rank])
  | awaitSuspend i hi => exact rank_setPhase (by simp [hi, Phase.rank])
  | resume i hi hr =>
    rename_i m co
    have h : (Phase.ofCont co).rank < (s.phase i).rank := by
      cases co <;> simp [hi, Phase.rank, Phase.ofCont]
    exact rank_setPhase h
  | inner i hi => exact rank_setPhase (by simp [hi, Phase.rank])
  | lock i hi =>
    refine rank_setPhase (s := s.lock i.succ _) ?_
    simp only [State.lock, hi]
    split_ifs <;> simp [Phase.rank]
  | set i hi =>
    have h : (Phase.finished : Phase E (T i.succ)).rank < ((s.set i.succ).phase i).rank := by
      have hne : i.castSucc ≠ i.succ := (Fin.castSucc_lt_succ).ne
      simp [State.set, hne, hi, Phase.rank]
    exact (rank_setPhase h).trans_le (rank_set _)
  | resolverLock r hi =>
    refine Nat.add_lt_add_left (sum_update_lt (fun _ => ResolverPhase.rank) ?_) _
    rw [hi]
    split_ifs <;> simp [ResolverPhase.rank]
  | resolverSet r hi =>
    refine (Nat.add_lt_add_left (sum_update_lt (fun _ => ResolverPhase.rank) ?_) _).trans_le
      (rank_set 0)
    simp [hi, ResolverPhase.rank]

theorem step_wellFounded : WellFounded fun t s => Step c outcome s t :=
  Subrelation.wf (fun h => rank_step h) (measure State.rank).wf

end

theorem chain_evaluates [DecidableEq R] {c : Chain E T} {outcome : R → Except E (T 0)}
    {s : State E T R} (h : (system c outcome).Reachable s) :
    (∀ f, s.resolves f ≤ 1 ∧ ((s.future f).resolved = true →
      ∃ r, s.locked.head? = some r ∧ (s.future f).get = some (c.eval (outcome r) f))) ∧
    (∀ i, s.calls i ≤ 1) ∧
    (Nonempty R → (system c outcome).Quiescent s →
      (∀ f, (s.future f).resolved = true ∧ s.resolves f = 1) ∧
      ∀ i, (c.stage i).isWhenComplete = true → s.calls i = 1) ∧
    (Finite R → Acc (fun t s => (system c outcome).step s t) s) := by
  have hinv := inv_reachable h
  refine ⟨fun f => ?_, fun i => phaseOk_calls_le_one (hinv.phase i), fun hR hq => ?_, fun hR => ?_⟩
  · obtain ⟨hle, hget⟩ := futureOk_spec (hinv.future f)
    refine ⟨hle, fun hr => ?_⟩
    obtain ⟨o, hsrc, ho⟩ := hget hr
    obtain ⟨r, hhead, rfl⟩ := Option.map_eq_some_iff.1 hsrc
    exact ⟨r, hhead, ho⟩
  · have hdone := all_done hinv hq
    refine ⟨fun f => ?_, fun i hi => ?_⟩
    · have hr := resolved_of_done (hinv.future f) (hdone f).1
      exact ⟨hr, futureOk_resolves (hinv.future f) hr⟩
    · obtain ⟨-, a, ha⟩ := finished_spec hinv ((hdone i.succ).2 i rfl)
      rw [ha, callCount_whenComplete _ hi]
  · have := Fintype.ofFinite R
    exact step_wellFounded.apply s

def doubled : Chain String (fun _ : Fin 2 => Nat) where
  stage := fun _ => .andThen fun v => .ok (2 * v)

def resolvedTwice : Bool → Except String Nat
  | true => .ok 5
  | false => .error "late"

theorem chain_evaluates_doubled : ∃ s : State String (fun _ : Fin 2 => Nat) Bool,
    (system doubled resolvedTwice).Reachable s ∧ s.locked = [true, false] ∧
      (s.future 1).get = some (.ok 10) ∧ s.calls 0 ≤ 1 := by
  have h₀ : (system doubled resolvedTwice).Reachable .init := System.reachable_initial rfl
  have h₁ := h₀.step (Step.attach 0 rfl (by simp))
  have h₂ := h₁.step (Step.awaitSuspend 0 rfl rfl)
  have h₃ := h₂.step (Step.resolverLock true rfl)
  have h₄ := h₃.step (Step.resolverLock false rfl)
  have h₅ := h₄.step (Step.resolverSet true rfl)
  have h₆ := h₅.step (Step.resume 0 rfl rfl)
  have h₇ := h₆.step (Step.lock 0 rfl)
  refine ⟨_, h₇, rfl, ?_, (chain_evaluates h₇).2.1 0⟩
  obtain ⟨r, hr, hget⟩ := ((chain_evaluates h₇).1 1).2 rfl
  have hr : some true = some r := hr
  cases hr
  exact hget

end Lark.Coro.Future
