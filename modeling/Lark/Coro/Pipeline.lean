import Lark.Coro.Batch

namespace Lark.Coro.Pipeline

open Lark.Base Lark.Coro.Future

variable {E : Type}

-- A step with the outcomes of its functions: `Add` and `AddSync`, or `AddParallel`.
inductive StepSpec (E : Type) where
  | fn (outcome : Except E Unit)
  | parallel (outcomes : List (Except E Unit))

namespace StepSpec

def functions : StepSpec E → List (Except E Unit)
  | fn outcome => [outcome]
  | parallel outcomes => outcomes

def isParallel : StepSpec E → Bool
  | fn _ => false
  | parallel _ => true

def arity (st : StepSpec E) : Nat := st.functions.length

def outcome (st : StepSpec E) (i : Fin st.arity) : Except E Unit := st.functions.get i

def Fails (st : StepSpec E) : Prop := ∃ i, ∃ e, st.outcome i = .error e

end StepSpec

-- The coroutine of `RunStep`.
inductive Body (E : Type) where
  | idle
  | queued
  | launching
  | joining
  | calling
  | ended (o : Except E Unit)

structure Stage (m : Nat) (E : Type) where
  link : Link E
  out : FutureState E Unit
  body : Body E
  result : FutureState E Unit
  call : Fin m → Task E
  join : AllOf.State m E Unit Unit

namespace Stage

variable {m : Nat}

def init : Stage m E := ⟨.detached, .pending, .idle, .pending, fun _ => .idle, .init fun _ => ()⟩

def setCall (s : Stage m E) (i : Fin m) (t : Task E) : Stage m E :=
  { s with call := Function.update s.call i t }

end Stage

inductive StageStep (st : StepSpec E) (src : FutureState E Unit) :
    Stage st.arity E → Stage st.arity E → Prop
  | resumeError {s e} (h : s.link = .awaiting) (hd : src.done = true) (he : src.error = some e) :
      StageStep st src s { s with link := .ended (.error e) }
  | resumeValue {s} (h : s.link = .awaiting) (hd : src.done = true) (he : src.error = none) :
      StageStep st src s { s with link := .inner, body := .queued }
  | enterParallel {s} (h : s.body = .queued) (hp : st.isParallel = true) :
      StageStep st src s { s with body := .launching }
  | launch {s} (i : Fin st.arity) (h : s.body = .launching) (hi : (s.call i).call = .idle)
      (hp : ∀ j < i, (s.call j).call.Launched) :
      StageStep st src s (s.setCall i ((s.call i).launch 0))
  | launched {s} (h : s.body = .launching) (hl : ∀ i, (s.call i).call.Launched) :
      StageStep st src s { s with body := .joining }
  | branch {s} (i : Fin st.arity) {t} (hp : st.isParallel = true)
      (h : Task.Step (st.outcome i) (s.call i) t) : StageStep st src s (s.setCall i t)
  | join {s j} (hb : s.body = .joining ∨ ∃ o, s.body = .ended o)
      (h : AllOf.Step (fun _ => ()) (fun i => (s.call i).future) s.join j) :
      StageStep st src s { s with join := j }
  | joined {s o} (h : s.body = .joining) (hp : ∀ i, s.join.phase i ≠ .detached)
      (hd : s.join.out.done = true) (ho : s.join.out.get = some o) :
      StageStep st src s { s with body := .ended o }
  | enterFn {s} (i : Fin st.arity) (h : s.body = .queued) (hp : st.isParallel = false)
      (hi : (s.call i).call = .idle) :
      StageStep st src s
        { s.setCall i { s.call i with call := .running } with body := .calling }
  | returnFn {s} (i : Fin st.arity) (h : s.body = .calling) (hi : (s.call i).call = .running) :
      StageStep st src s { s.setCall i { s.call i with call := .ended (st.outcome i) } with
        body := .ended (st.outcome i) }
  | lockResult {s o} (h : s.body = .ended o) (hr : s.result.resolved = false) :
      StageStep st src s { s with result := s.result.resolve o }
  | setResult {s} (h : s.result.resolved = true) (hd : s.result.done = false) :
      StageStep st src s { s with result := { s.result with done := true } }
  | next {s o} (h : s.link = .inner) (hd : s.result.done = true) (ho : s.result.get = some o) :
      StageStep st src s { s with link := .ended o }
  | lockOut {s o} (h : s.link = .ended o) (hr : s.out.resolved = false) :
      StageStep st src s { s with out := s.out.resolve o }
  | setOut {s} (h : s.out.resolved = true) (hd : s.out.done = false) :
      StageStep st src s { s with out := { s.out with done := true } }

def just : FutureState E Unit := { FutureState.pending.resolve (.ok ()) with done := true }

variable {steps : List (StepSpec E)}

abbrev State (steps : List (StepSpec E)) : Type :=
  (k : Fin steps.length) → Stage (steps.get k).arity E

def input (s : State steps) (k : Fin steps.length) : FutureState E Unit :=
  match k with
  | ⟨0, _⟩ => just
  | ⟨k + 1, h⟩ => (s ⟨k, Nat.lt_of_succ_lt h⟩).out

def out (s : State steps) : FutureState E Unit :=
  if h : steps.length = 0 then just
  else (s ⟨steps.length - 1, Nat.sub_lt (Nat.pos_of_ne_zero h) Nat.one_pos⟩).out

inductive Step : State steps → State steps → Prop
  | attach {s} (k : Fin steps.length) (h : (s k).link = .detached)
      (hp : ∀ j < k, (s j).link ≠ .detached) :
      Step s (Function.update s k { s k with link := .awaiting })
  | stage {s} (k : Fin steps.length) {t} (h : StageStep (steps.get k) (input s k) (s k) t) :
      Step s (Function.update s k t)

def run (steps : List (StepSpec E)) : System (State steps) where
  initial := fun s => s = fun _ => .init
  step := Step

inductive LinkOk {m : Nat} (src : FutureState E Unit) (s : Stage m E) : Prop
  | waiting (hl : s.link = .detached ∨ s.link = .awaiting) (hb : s.body = .idle)
      (hout : s.out = .pending)
  | inner (hl : s.link = .inner) (hsrc : Holds src (.ok ())) (hb : s.body ≠ .idle)
      (hout : s.out = .pending)
  | skipped {e} (hl : s.link = .ended (.error e)) (hsrc : Holds src (.error e))
      (hb : s.body = .idle) (hout : s.out = .pending ∨
        s.out.resolved = true ∧ Holds s.out (.error e))
  | ran {o} (hl : s.link = .ended o) (hsrc : Holds src (.ok ())) (hb : s.body = .ended o)
      (hout : s.out = .pending ∨ s.out.resolved = true ∧ Holds s.out o)

def Reported (m : Nat) (call : Fin m → Task E) : Except E Unit → Prop
  | .ok _ => ∀ i, (call i).call = .ended (.ok ())
  | .error e => ∃ i, (call i).call = .ended (.error e)

inductive BodyOk (st : StepSpec E) (s : Stage st.arity E) : Prop
  | waiting (hb : s.body = .idle ∨ s.body = .queued) (hc : ∀ i, (s.call i).call = .idle)
      (hres : s.result = .pending)
  | parallel (hb : s.body = .launching ∨ s.body = .joining ∧ ∀ i, (s.call i).call.Launched)
      (hp : st.isParallel = true) (hres : s.result = .pending)
  | calling (hb : s.body = .calling) (hp : st.isParallel = false)
      (hc : ∀ i, (s.call i).call = .running) (hres : s.result = .pending)
  | ended {o} (hb : s.body = .ended o) (hrep : Reported st.arity s.call o)
      (hres : s.result = .pending ∨ s.result.resolved = true ∧ Holds s.result o)

structure StageInv (st : StepSpec E) (src : FutureState E Unit) (s : Stage st.arity E) :
    Prop where
  task : ∀ i, Task.Ok (st.outcome i) (s.call i)
  join : AllOf.Inv (fun _ => ()) (fun i => (s.call i).future) s.join
  signals : AllOf.Signals s.join
  link : LinkOk src s
  body : BodyOk st s

section Stage

variable {st : StepSpec E} {src src' : FutureState E Unit} {s t : Stage st.arity E}

theorem subsingleton_of_fn (h : st.isParallel = false) : Subsingleton (Fin st.arity) := by
  cases st with
  | fn outcome => exact inferInstanceAs (Subsingleton (Fin 1))
  | parallel outcomes => cases h

theorem nonempty_of_fn (h : st.isParallel = false) : Nonempty (Fin st.arity) := by
  cases st with
  | fn outcome => exact ⟨(0 : Fin 1)⟩
  | parallel outcomes => cases h

theorem linkOk_mono (h : LinkOk src s) (hs : ∀ o, Holds src o → Holds src' o) :
    LinkOk src' s := by
  cases h with
  | waiting hl hb hout => exact .waiting hl hb hout
  | inner hl hsrc hb hout => exact .inner hl (hs _ hsrc) hb hout
  | skipped hl hsrc hb hout => exact .skipped hl (hs _ hsrc) hb hout
  | ran hl hsrc hb hout => exact .ran hl (hs _ hsrc) hb hout

theorem linkOk_inner (h : LinkOk src s) (hi : s.body ≠ .idle) (he : ∀ o, s.body ≠ .ended o) :
    s.link = .inner ∧ Holds src (.ok ()) ∧ s.out = .pending := by
  cases h with
  | waiting _ hb => exact absurd hb hi
  | inner hl hsrc _ hout => exact ⟨hl, hsrc, hout⟩
  | skipped _ _ hb => exact absurd hb hi
  | ran _ _ hb => exact absurd hb (he _)

theorem linkOk_body {body : Body E} (h : LinkOk src s) (hi : s.body ≠ .idle)
    (he : ∀ o, s.body ≠ .ended o) (hb : body ≠ .idle) : LinkOk src { s with body := body } := by
  obtain ⟨hl, hsrc, hout⟩ := linkOk_inner h hi he
  exact .inner hl hsrc hb hout

theorem linkOk_out (h : LinkOk src s) {o : Except E Unit} (hl : s.link = .ended o) :
    s.out = .pending ∨ s.out.resolved = true ∧ Holds s.out o := by
  cases h with
  | waiting hl' => simp [hl] at hl'
  | inner hl' => simp [hl] at hl'
  | skipped hl' _ _ hout =>
    obtain rfl := Link.ended.inj (hl.symm.trans hl')
    exact hout
  | ran hl' _ _ hout =>
    obtain rfl := Link.ended.inj (hl.symm.trans hl')
    exact hout

theorem linkOk_resolved (h : LinkOk src s) (hr : s.out.resolved = true) :
    ∃ o, s.link = .ended o ∧ Holds s.out o := by
  have hnot : s.out ≠ .pending := by
    intro hp
    rw [hp] at hr
    cases hr
  cases h with
  | waiting _ _ hout => exact absurd hout hnot
  | inner _ _ _ hout => exact absurd hout hnot
  | skipped hl _ _ hout => exact ⟨_, hl, (hout.resolve_left hnot).2⟩
  | ran hl _ _ hout => exact ⟨_, hl, (hout.resolve_left hnot).2⟩

theorem linkOk_setOut {out : FutureState E Unit} (h : LinkOk src s) {o : Except E Unit}
    (hl : s.link = .ended o) (hr : out.resolved = true) (ho : Holds out o) :
    LinkOk src { s with out := out } := by
  cases h with
  | waiting hl' => simp [hl] at hl'
  | inner hl' => simp [hl] at hl'
  | skipped hl' hsrc hb _ =>
    obtain rfl := Link.ended.inj (hl.symm.trans hl')
    exact .skipped hl' hsrc hb (.inr ⟨hr, ho⟩)
  | ran hl' hsrc hb _ =>
    obtain rfl := Link.ended.inj (hl.symm.trans hl')
    exact .ran hl' hsrc hb (.inr ⟨hr, ho⟩)

theorem linkOk_frame {s t : Stage st.arity E} (h : LinkOk src s) (hl : t.link = s.link)
    (hb : t.body = s.body) (hout : t.out = s.out) : LinkOk src t := by
  cases h with
  | waiting hl' hb' hout' => exact .waiting (by rwa [hl]) (hb.trans hb') (hout.trans hout')
  | inner hl' hsrc hb' hout' =>
    exact .inner (hl.trans hl') hsrc (by rwa [hb]) (hout.trans hout')
  | skipped hl' hsrc hb' hout' =>
    exact .skipped (hl.trans hl') hsrc (hb.trans hb') (by rwa [hout])
  | ran hl' hsrc hb' hout' => exact .ran (hl.trans hl') hsrc (hb.trans hb') (by rwa [hout])

theorem bodyOk_ended (h : BodyOk st s) {o : Except E Unit} (hb : s.body = .ended o) :
    Reported st.arity s.call o ∧
      (s.result = .pending ∨ s.result.resolved = true ∧ Holds s.result o) := by
  cases h with
  | waiting hb' => simp [hb] at hb'
  | parallel hb' => simp [hb] at hb'
  | calling hb' => simp [hb] at hb'
  | ended hb' hrep hres =>
    obtain rfl := Body.ended.inj (hb.symm.trans hb')
    exact ⟨hrep, hres⟩

theorem bodyOk_resolved (h : BodyOk st s) (hr : s.result.resolved = true) :
    ∃ o, s.body = .ended o ∧ Reported st.arity s.call o ∧ Holds s.result o := by
  have hnot : s.result ≠ .pending := by
    intro hp
    rw [hp] at hr
    cases hr
  cases h with
  | waiting _ _ hres => exact absurd hres hnot
  | parallel _ _ hres => exact absurd hres hnot
  | calling _ _ _ hres => exact absurd hres hnot
  | ended hb hrep hres => exact ⟨_, hb, hrep, (hres.resolve_left hnot).2⟩

theorem bodyOk_frame {s t : Stage st.arity E} (h : BodyOk st s) (hb : t.body = s.body)
    (hc : t.call = s.call) (hres : t.result = s.result) : BodyOk st t := by
  cases h with
  | waiting hb' hc' hres' => exact .waiting (by rwa [hb]) (by rwa [hc]) (hres.trans hres')
  | parallel hb' hp hres' => exact .parallel (by rwa [hb, hc]) hp (hres.trans hres')
  | calling hb' hp hc' hres' =>
    exact .calling (hb.trans hb') hp (by rwa [hc]) (hres.trans hres')
  | ended hb' hrep hres' => exact .ended (hb.trans hb') (by rwa [hc]) (by rwa [hres])

theorem reported_mono {call call' : Fin st.arity → Task E} {o : Except E Unit}
    (h : Reported st.arity call o)
    (hmono : ∀ i o, (call i).call = .ended o → (call' i).call = .ended o) :
    Reported st.arity call' o := by
  cases o with
  | ok v => exact fun i => hmono i _ (h i)
  | error e =>
    obtain ⟨i, hi⟩ := h
    exact ⟨i, hmono i _ hi⟩

namespace StageInv

theorem setCall_task (h : StageInv st src s) {i : Fin st.arity} {t : Task E}
    (ht : Task.Ok (st.outcome i) t) (j : Fin st.arity) :
    Task.Ok (st.outcome j) ((s.setCall i t).call j) := by
  rcases eq_or_ne j i with rfl | hne
  · simpa [Stage.setCall] using ht
  · simpa [Stage.setCall, hne] using h.task j

theorem setCall_join (h : StageInv st src s) {i : Fin st.arity} {t : Task E}
    (hmono : ∀ o, Holds (s.call i).future o → Holds t.future o) :
    AllOf.Inv (fun _ => ()) (fun j => ((s.setCall i t).call j).future) s.join := by
  refine h.join.mono fun j o ho => ?_
  rcases eq_or_ne j i with rfl | hne
  · simpa [Stage.setCall] using hmono o ho
  · simpa [Stage.setCall, hne] using ho

theorem launch (h : StageInv st src s) {i : Fin st.arity} (hb : s.body = .launching)
    (hi : (s.call i).call = .idle) : StageInv st src (s.setCall i ((s.call i).launch 0)) := by
  refine ⟨h.setCall_task ((h.task i).launch hi 0), h.setCall_join fun _ ho => ho, h.signals,
    linkOk_frame h.link rfl rfl rfl, ?_⟩
  cases h.body with
  | waiting hb' => simp [hb] at hb'
  | parallel _ hp hres => exact .parallel (.inl hb) hp hres
  | calling hb' => simp [hb] at hb'
  | ended hb' => simp [hb] at hb'

theorem branch (h : StageInv st src s) {i : Fin st.arity} {t : Task E}
    (hp : st.isParallel = true) (hi : Task.Step (st.outcome i) (s.call i) t) :
    StageInv st src (s.setCall i t) := by
  have hlaunched : ∀ j, ((s.setCall i t).call j).call.Launched ↔ (s.call j).call.Launched := by
    intro j
    rcases eq_or_ne j i with rfl | hne
    · simpa [Stage.setCall] using hi.launched
    · simp [Stage.setCall, hne]
  have hended : ∀ j o, (s.call j).call = .ended o → ((s.setCall i t).call j).call = .ended o := by
    intro j o ho
    rcases eq_or_ne j i with rfl | hne
    · simpa [Stage.setCall] using hi.ended ho
    · simpa [Stage.setCall, hne] using ho
  refine ⟨h.setCall_task ((h.task i).step hi),
    h.setCall_join fun _ ho => (h.task i).step_holds hi ho, h.signals,
    linkOk_frame h.link rfl rfl rfl, ?_⟩
  cases h.body with
  | waiting hb hc hres =>
    refine .waiting hb (fun j => ?_) hres
    have hidle : ¬ (s.call j).call.Launched := fun hl => hl (hc j)
    exact not_not.1 fun hl => hidle ((hlaunched j).1 hl)
  | parallel hb hp hres =>
    exact .parallel (hb.imp_right fun hj => ⟨hj.1, fun j => (hlaunched j).2 (hj.2 j)⟩) hp hres
  | calling _ hp' => simp [hp] at hp'
  | ended hb hrep hres => exact .ended hb (reported_mono hrep hended) hres

theorem reported_of_join (h : StageInv st src s) {o : Except E Unit}
    (hd : s.join.out.done = true) (ho : s.join.out.get = some o) :
    Reported st.arity s.call o := by
  have hr := h.join.out_resolved hd
  obtain ⟨o', ho'⟩ := h.join.out_holds hr
  obtain rfl : o' = o := by
    rw [get_of_holds hr ho'] at ho
    exact Option.some.inj ho
  cases o' with
  | ok v =>
    intro i
    obtain ⟨w, hw⟩ := h.join.out_value ho' i
    obtain ⟨hout, hend⟩ := (h.task i).holds hw
    rw [hend, ← hout]
  | error e =>
    obtain ⟨i, hi⟩ := h.join.out_error ho'
    obtain ⟨hout, hend⟩ := (h.task i).holds hi
    exact ⟨i, by rw [hend, ← hout]⟩

theorem enterFn (h : StageInv st src s) {i : Fin st.arity} (hb : s.body = .queued)
    (hp : st.isParallel = false) : StageInv st src
      { s.setCall i { s.call i with call := .running } with body := .calling } := by
  have hsub := subsingleton_of_fn hp
  have hidle : ∀ j, (s.call j).call = .idle := by
    cases h.body with
    | waiting _ hc => exact hc
    | parallel hb' => simp [hb] at hb'
    | calling hb' => simp [hb] at hb'
    | ended hb' => simp [hb] at hb'
  have hres : s.result = .pending := by
    cases h.body with
    | waiting _ _ hres => exact hres
    | parallel hb' => simp [hb] at hb'
    | calling hb' => simp [hb] at hb'
    | ended hb' => simp [hb] at hb'
  obtain ⟨hl, hsrc, hout⟩ := linkOk_inner h.link (by simp [hb]) (by simp [hb])
  refine ⟨h.setCall_task ((h.task i).step_pending (by simp [hidle i]) (by simp)),
    h.setCall_join fun _ ho => ho, h.signals, .inner hl hsrc (by simp) hout,
    .calling rfl hp (fun j => ?_) hres⟩
  obtain rfl := Subsingleton.elim j i
  simp [Stage.setCall]

theorem returnFn (h : StageInv st src s) {i : Fin st.arity} (hb : s.body = .calling) :
    StageInv st src { s.setCall i { s.call i with call := .ended (st.outcome i) } with
      body := .ended (st.outcome i) } := by
  obtain ⟨hp, hc, hres⟩ : st.isParallel = false ∧ (∀ j, (s.call j).call = .running) ∧
      s.result = .pending := by
    cases h.body with
    | waiting hb' => simp [hb] at hb'
    | parallel hb' => simp [hb] at hb'
    | calling _ hp hc hres => exact ⟨hp, hc, hres⟩
    | ended hb' => simp [hb] at hb'
  have hsub := subsingleton_of_fn hp
  obtain ⟨hl, hsrc, hout⟩ := linkOk_inner h.link (by simp [hb]) (by simp [hb])
  have hself : ((s.setCall i { s.call i with call := .ended (st.outcome i) }).call i).call =
      .ended (st.outcome i) := by
    simp [Stage.setCall]
  refine ⟨h.setCall_task ((h.task i).step_pending (by simp [hc i]) (by simp [eq_comm])),
    h.setCall_join fun _ ho => ho, h.signals, .inner hl hsrc (by simp) hout,
    .ended rfl ?_ (.inl hres)⟩
  cases ho : st.outcome i with
  | ok v =>
    intro j
    obtain rfl := Subsingleton.elim j i
    rw [ho] at hself
    exact hself
  | error e =>
    rw [ho] at hself
    exact ⟨i, hself⟩

theorem mono (h : StageInv st src s) (hs : ∀ o, Holds src o → Holds src' o) :
    StageInv st src' s :=
  ⟨h.task, h.join, h.signals, linkOk_mono h.link hs, h.body⟩

theorem attach (h : StageInv st src s) (hl : s.link = .detached) :
    StageInv st src { s with link := .awaiting } := by
  refine ⟨h.task, h.join, h.signals, ?_, bodyOk_frame h.body rfl rfl rfl⟩
  cases h.link with
  | waiting _ hb hout => exact .waiting (.inr rfl) hb hout
  | inner hl' => simp [hl] at hl'
  | skipped hl' => simp [hl] at hl'
  | ran hl' => simp [hl] at hl'

theorem awaiting (h : StageInv st src s) (hl : s.link = .awaiting) :
    s.body = .idle ∧ s.out = .pending := by
  cases h.link with
  | waiting _ hb hout => exact ⟨hb, hout⟩
  | inner hl' => simp [hl] at hl'
  | skipped hl' => simp [hl] at hl'
  | ran hl' => simp [hl] at hl'

theorem step (h : StageInv st src s) (hst : StageStep st src s t)
    (hsrc : src.done = true → ∃ o, Holds src o) : StageInv st src t := by
  cases hst with
  | @resumeError e hl hd he =>
    obtain ⟨hb, hout⟩ := h.awaiting hl
    have hv : Holds src (.error e) := by
      obtain ⟨o, ho⟩ := hsrc hd
      cases o with
      | ok v => simp [ho.2] at he
      | error e' => exact ⟨ho.1, he⟩
    exact ⟨h.task, h.join, h.signals, .skipped rfl hv hb (.inl hout),
      bodyOk_frame h.body rfl rfl rfl⟩
  | resumeValue hl hd he =>
    obtain ⟨hb, hout⟩ := h.awaiting hl
    have hv : Holds src (.ok ()) := by
      obtain ⟨o, ho⟩ := hsrc hd
      cases o with
      | ok v => exact ho
      | error e' => simp [ho.2] at he
    refine ⟨h.task, h.join, h.signals, .inner rfl hv (by simp) hout, ?_⟩
    cases h.body with
    | waiting _ hc hres => exact .waiting (.inr rfl) hc hres
    | parallel hb' => simp [hb] at hb'
    | calling hb' => simp [hb] at hb'
    | ended hb' => simp [hb] at hb'
  | enterParallel hb hp =>
    refine ⟨h.task, h.join, h.signals,
      linkOk_body h.link (by simp [hb]) (by simp [hb]) (by simp), ?_⟩
    cases h.body with
    | waiting _ _ hres => exact .parallel (.inl rfl) hp hres
    | parallel hb' => simp [hb] at hb'
    | calling hb' => simp [hb] at hb'
    | ended hb' => simp [hb] at hb'
  | launch i hb hi => exact h.launch hb hi
  | launched hb hl =>
    refine ⟨h.task, h.join, h.signals,
      linkOk_body h.link (by simp [hb]) (by simp [hb]) (by simp), ?_⟩
    cases h.body with
    | waiting hb' => simp [hb] at hb'
    | parallel _ hp hres => exact .parallel (.inr ⟨rfl, hl⟩) hp hres
    | calling hb' => simp [hb] at hb'
    | ended hb' => simp [hb] at hb'
  | branch i hp hi => exact h.branch hp hi
  | join hb hj =>
    exact ⟨h.task, h.join.step hj fun i hd => ⟨_, (h.task i).of_done hd⟩,
      AllOf.signals_step h.signals hj, linkOk_frame h.link rfl rfl rfl,
      bodyOk_frame h.body rfl rfl rfl⟩
  | joined hb hp hd ho =>
    refine ⟨h.task, h.join, h.signals,
      linkOk_body h.link (by simp [hb]) (by simp [hb]) (by simp), ?_⟩
    cases h.body with
    | waiting hb' => simp [hb] at hb'
    | parallel _ _ hres => exact .ended rfl (h.reported_of_join hd ho) (.inl hres)
    | calling hb' => simp [hb] at hb'
    | ended hb' => simp [hb] at hb'
  | enterFn i hb hp => exact h.enterFn hb hp
  | returnFn i hb => exact h.returnFn hb
  | lockResult hb hr =>
    obtain ⟨hrep, hres⟩ := bodyOk_ended h.body hb
    refine ⟨h.task, h.join, h.signals, linkOk_frame h.link rfl rfl rfl,
      .ended hb hrep (.inr ⟨resolve_resolved, ?_⟩)⟩
    rcases hres with hres | ⟨hres, -⟩
    · rw [hres]
      exact holds_resolve_pending
    · simp [hr] at hres
  | setResult hr hd =>
    obtain ⟨o, hb, hrep, ho⟩ := bodyOk_resolved h.body hr
    exact ⟨h.task, h.join, h.signals, linkOk_frame h.link rfl rfl rfl,
      .ended hb hrep (.inr ⟨hr, holds_set ho⟩)⟩
  | @next o hl hd ho =>
    have hres : s.result.resolved = true := by
      cases hr : s.result.resolved with
      | true => rfl
      | false => simp [FutureState.get, hr] at ho
    obtain ⟨o', hb, hrep, ho'⟩ := bodyOk_resolved h.body hres
    obtain rfl : o' = o := by
      rw [get_of_holds hres ho'] at ho
      exact Option.some.inj ho
    refine ⟨h.task, h.join, h.signals, ?_, bodyOk_frame h.body rfl rfl rfl⟩
    cases h.link with
    | waiting hl' => simp [hl] at hl'
    | inner _ hsrc' _ hout => exact .ran rfl hsrc' hb (.inl hout)
    | skipped hl' => simp [hl] at hl'
    | ran hl' => simp [hl] at hl'
  | lockOut hl hr =>
    refine ⟨h.task, h.join, h.signals, linkOk_setOut h.link hl resolve_resolved ?_,
      bodyOk_frame h.body rfl rfl rfl⟩
    rcases linkOk_out h.link hl with hp | ⟨hr', -⟩
    · rw [hp]
      exact holds_resolve_pending
    · simp [hr] at hr'
  | setOut hr hd =>
    obtain ⟨o, hl, ho⟩ := linkOk_resolved h.link hr
    exact ⟨h.task, h.join, h.signals, linkOk_setOut h.link hl hr (holds_set ho),
      bodyOk_frame h.body rfl rfl rfl⟩

theorem out_pending (h : StageInv st src s) (hr : s.out.resolved = false) : s.out = .pending := by
  cases h.link with
  | waiting _ _ hout => exact hout
  | inner _ _ _ hout => exact hout
  | skipped _ _ _ hout => exact hout.resolve_right (by simp [hr])
  | ran _ _ _ hout => exact hout.resolve_right (by simp [hr])

theorem out_mono (h : StageInv st src s) (hst : StageStep st src s t) {o : Except E Unit}
    (ho : Holds s.out o) : Holds t.out o := by
  cases hst with
  | lockOut hl hr =>
    rw [h.out_pending hr] at ho
    exact absurd ho not_holds_pending
  | setOut => exact holds_set ho
  | _ => exact ho

theorem out_done (h : StageInv st src s) (hd : s.out.done = true) : ∃ o, Holds s.out o := by
  cases hr : s.out.resolved with
  | true => exact (linkOk_resolved h.link hr).imp fun o ho => ho.2
  | false =>
    rw [h.out_pending hr] at hd
    cases hd

theorem init : StageInv st src (.init) :=
  ⟨fun _ => Task.ok_idle, .init _ _, AllOf.signals_init, .waiting (.inl rfl) rfl rfl,
    .waiting (.inl rfl) (fun _ => rfl) rfl⟩

end StageInv

section Progress

theorem not_stuck_joining (h : StageInv st src s) (hb : s.body = .joining)
    (hl : ∀ i, (s.call i).call.Launched) (hp : st.isParallel = true)
    (hq : ∀ t, ¬ StageStep st src s t) : False := by
  have hdone : ∀ i, (s.call i).future.done = true := by
    intro i
    exact Task.done_of_stuck (hl i) fun t ht => hq _ (.branch i hp ht)
  have hfin := AllOf.finished_of_stuck (fun i => ⟨hdone i, _, (h.task i).of_done (hdone i)⟩)
    fun j hj => hq _ (.join (.inl hb) hj)
  have hd := AllOf.done_of_finished h.join h.signals hfin
  have hr := h.join.out_resolved hd
  obtain ⟨o, ho⟩ := h.join.out_holds hr
  refine hq _ (.joined hb (fun i hi => ?_) hd (get_of_holds hr ho))
  have hi' := hfin i
  simp [hi, AllOf.Phase.isFinished] at hi'

variable (src) in
theorem launch_or_launched (hb : s.body = .launching) : ∃ t, StageStep st src s t := by
  by_cases hl : ∀ i, (s.call i).call.Launched
  · exact ⟨_, .launched hb hl⟩
  · have hex : ∃ i, (s.call i).call = .idle := by simpa [Call.Launched] using hl
    obtain ⟨i, hi, hmin⟩ := wellFounded_lt.has_min {i | (s.call i).call = .idle} hex
    exact ⟨_, .launch i hb hi fun j hj hidle => hmin j hidle hj⟩

theorem result_done (h : StageInv st src s) (hl : s.link = .inner)
    (hq : ∀ t, ¬ StageStep st src s t) : s.result.done = true := by
  cases h.body with
  | waiting hb hc =>
    have hqueued : s.body = .queued := by
      refine hb.resolve_left fun hb => ?_
      cases h.link with
      | waiting hl' => simp [hl] at hl'
      | inner _ _ hb' => exact hb' hb
      | skipped hl' => simp [hl] at hl'
      | ran hl' => simp [hl] at hl'
    cases hp : st.isParallel with
    | true => exact absurd (.enterParallel hqueued hp) (hq _)
    | false =>
      obtain ⟨i⟩ := nonempty_of_fn hp
      exact absurd (.enterFn i hqueued hp (hc i)) (hq _)
  | parallel hb hp =>
    rcases hb with hb | ⟨hb, hlaunched⟩
    · obtain ⟨t, ht⟩ := launch_or_launched src hb
      exact absurd ht (hq t)
    · exact (not_stuck_joining h hb hlaunched hp hq).elim
  | calling hb hp hc =>
    obtain ⟨i⟩ := nonempty_of_fn hp
    exact absurd (.returnFn i hb (hc i)) (hq _)
  | ended hb =>
    cases hr : s.result.resolved with
    | false => exact absurd (.lockResult hb hr) (hq _)
    | true =>
      cases hd : s.result.done with
      | false => exact absurd (.setResult hr hd) (hq _)
      | true => rfl

theorem out_done_of_stuck (h : StageInv st src s) (hl : s.link ≠ .detached)
    (hd : src.done = true) (hsrc : ∃ o, Holds src o) (hq : ∀ t, ¬ StageStep st src s t) :
    s.out.done = true := by
  cases hlink : s.link with
  | detached => exact absurd hlink hl
  | awaiting =>
    obtain ⟨o, ho⟩ := hsrc
    cases o with
    | ok v => exact absurd (.resumeValue hlink hd ho.2) (hq _)
    | error e => exact absurd (.resumeError hlink hd ho.2) (hq _)
  | inner =>
    have hres := result_done h hlink hq
    have hr : s.result.resolved = true := by
      cases hr : s.result.resolved with
      | true => rfl
      | false =>
        have hp : s.result = .pending := by
          cases h.body with
          | waiting _ _ hp => exact hp
          | parallel _ _ hp => exact hp
          | calling _ _ _ hp => exact hp
          | ended _ _ hp => exact hp.resolve_right (by simp [hr])
        rw [hp] at hres
        cases hres
    obtain ⟨o, -, -, ho⟩ := bodyOk_resolved h.body hr
    exact absurd (.next hlink hres (get_of_holds hr ho)) (hq _)
  | ended o =>
    cases hr : s.out.resolved with
    | false => exact absurd (.lockOut hlink hr) (hq _)
    | true =>
      cases hdone : s.out.done with
      | false => exact absurd (.setOut hr hdone) (hq _)
      | true => rfl

end Progress

end Stage

def Inv (s : State steps) : Prop := ∀ k, StageInv (steps.get k) (input s k) (s k)

section Run

variable {s t : State steps}

theorem holds_just : Holds (just : FutureState E Unit) (.ok ()) := ⟨rfl, rfl⟩

theorem input_mono {k : Fin steps.length} {t : Stage (steps.get k).arity E}
    (h : ∀ o, Holds (s k).out o → Holds t.out o) (j : Fin steps.length) {o : Except E Unit}
    (ho : Holds (input s j) o) : Holds (input (Function.update s k t) j) o := by
  match j, ho with
  | ⟨0, _⟩, ho => exact ho
  | ⟨j + 1, hj⟩, ho =>
    have hjk : Holds (s ⟨j, Nat.lt_of_succ_lt hj⟩).out o := ho
    change Holds (Function.update s k t ⟨j, Nat.lt_of_succ_lt hj⟩).out o
    rcases eq_or_ne (⟨j, Nat.lt_of_succ_lt hj⟩ : Fin steps.length) k with rfl | hne
    · simpa using h o hjk
    · simpa [hne] using hjk

theorem input_done (h : Inv s) (k : Fin steps.length) (hd : (input s k).done = true) :
    ∃ o, Holds (input s k) o := by
  match k, hd with
  | ⟨0, _⟩, _ => exact ⟨_, holds_just⟩
  | ⟨k + 1, hk⟩, hd => exact (h ⟨k, Nat.lt_of_succ_lt hk⟩).out_done hd

theorem inv_update (h : Inv s) {k : Fin steps.length} {t : Stage (steps.get k).arity E}
    (ht : StageInv (steps.get k) (input s k) t) (hout : ∀ o, Holds (s k).out o → Holds t.out o) :
    Inv (Function.update s k t) := by
  intro j
  rcases eq_or_ne j k with rfl | hne
  · rw [Function.update_self]
    exact ht.mono fun o ho => input_mono hout j ho
  · rw [Function.update_of_ne hne]
    exact (h j).mono fun o ho => input_mono hout j ho

theorem inv_step (h : Inv s) (hst : Step s t) : Inv t := by
  cases hst with
  | attach k hk => exact inv_update h ((h k).attach hk) fun _ ho => ho
  | stage k hk =>
    exact inv_update h ((h k).step hk (input_done h k)) fun _ ho => (h k).out_mono hk ho

theorem inv_reachable (h : (run steps).Reachable s) : Inv s := by
  refine System.Reachable.invariant (I := Inv) ?_ (fun s t hs hst => inv_step hs hst) h
  rintro s rfl k
  exact .init

theorem input_of_launched (h : Inv s) {k : Fin steps.length} {i : Fin (steps.get k).arity}
    (hl : ((s k).call i).call.Launched) : Holds (input s k) (.ok ()) := by
  have hbody : (s k).body ≠ .idle := by
    intro hb
    cases (h k).body with
    | waiting _ hc => exact hl (hc i)
    | parallel hb' => simp [hb] at hb'
    | calling hb' => simp [hb] at hb'
    | ended hb' => simp [hb] at hb'
  cases (h k).link with
  | waiting _ hb => exact absurd hb hbody
  | inner _ hsrc => exact hsrc
  | skipped _ _ hb => exact absurd hb hbody
  | ran _ hsrc => exact hsrc

theorem out_value (h : Inv s) {k : Fin steps.length} (ho : Holds (s k).out (.ok ())) :
    Holds (input s k) (.ok ()) ∧ ∀ i, ((s k).call i).call = .ended (.ok ()) := by
  have hnot : (s k).out ≠ .pending := by
    intro hp
    rw [hp] at ho
    exact not_holds_pending ho
  cases (h k).link with
  | waiting _ _ hout => exact absurd hout hnot
  | inner _ _ _ hout => exact absurd hout hnot
  | skipped _ _ _ hout => cases holds_unique ho (hout.resolve_left hnot).2
  | ran _ hsrc hb hout =>
    obtain rfl := holds_unique ho (hout.resolve_left hnot).2
    exact ⟨hsrc, (bodyOk_ended (h k).body hb).1⟩

theorem out_error (h : Inv s) {k : Fin steps.length} {e : E} (ho : Holds (s k).out (.error e)) :
    Holds (input s k) (.error e) ∨
      (Holds (input s k) (.ok ()) ∧ ∃ i, ((s k).call i).call = .ended (.error e)) := by
  have hnot : (s k).out ≠ .pending := by
    intro hp
    rw [hp] at ho
    exact not_holds_pending ho
  cases (h k).link with
  | waiting _ _ hout => exact absurd hout hnot
  | inner _ _ _ hout => exact absurd hout hnot
  | skipped _ hsrc _ hout =>
    obtain rfl := Except.error.inj (holds_unique ho (hout.resolve_left hnot).2)
    exact .inl hsrc
  | ran _ hsrc hb hout =>
    obtain rfl := holds_unique ho (hout.resolve_left hnot).2
    exact .inr ⟨hsrc, (bodyOk_ended (h k).body hb).1⟩

theorem earlier_succeeded (h : Inv s) {k : Fin steps.length} (hk : Holds (input s k) (.ok ()))
    {j : Fin steps.length} (hj : j < k) (i : Fin (steps.get j).arity) :
    ((s j).call i).call = .ended (.ok ()) := by
  obtain ⟨k, hlt⟩ := k
  induction k with
  | zero => exact absurd hj (Nat.not_lt_zero _)
  | succ k ih =>
    obtain ⟨hin, hall⟩ := out_value h (k := ⟨k, Nat.lt_of_succ_lt hlt⟩) hk
    rcases Nat.lt_succ_iff_lt_or_eq.1 hj with hlt' | heq
    · exact ih _ hin hlt'
    · have hjk : j = ⟨k, Nat.lt_of_succ_lt hlt⟩ := Fin.ext heq
      subst hjk
      exact hall i

theorem first_error (h : Inv s) {e : E} (k : Fin steps.length) (ho : Holds (s k).out (.error e)) :
    ∃ j, Holds (input s j) (.ok ()) ∧ ∃ i, ((s j).call i).call = .ended (.error e) := by
  obtain ⟨k, hlt⟩ := k
  induction k with
  | zero =>
    rcases out_error h ho with hin | hran
    · cases holds_unique hin holds_just
    · exact ⟨_, hran⟩
  | succ k ih =>
    rcases out_error h ho with hin | hran
    · exact ih (Nat.lt_of_succ_lt hlt) hin
    · exact ⟨_, hran⟩

theorem outcome_of_ended (h : Inv s) {k : Fin steps.length} {i : Fin (steps.get k).arity}
    {o : Except E Unit} (hc : ((s k).call i).call = .ended o) : (steps.get k).outcome i = o :=
  (((h k).task i).call o hc).symm

theorem out_holds_value (h : Inv s) (ho : Holds (out s) (.ok ())) (k : Fin steps.length)
    (i : Fin (steps.get k).arity) : ((s k).call i).call = .ended (.ok ()) := by
  have hpos : steps.length ≠ 0 := (Nat.zero_lt_of_lt k.2).ne'
  rw [out, dif_neg hpos] at ho
  obtain ⟨hin, hall⟩ := out_value h ho
  rcases Nat.lt_or_ge k.1 (steps.length - 1) with hlt | hge
  · exact earlier_succeeded h hin hlt i
  · have hk : k = ⟨steps.length - 1, Nat.sub_lt (Nat.pos_of_ne_zero hpos) Nat.one_pos⟩ :=
      Fin.ext (Nat.le_antisymm (Nat.le_sub_one_of_lt k.2) hge)
    subst hk
    exact hall i

theorem out_holds_error (h : Inv s) {e : E} (ho : Holds (out s) (.error e)) :
    ∃ j, Holds (input s j) (.ok ()) ∧ ∃ i, ((s j).call i).call = .ended (.error e) := by
  by_cases hz : steps.length = 0
  · rw [out, dif_pos hz] at ho
    cases holds_unique ho holds_just
  · rw [out, dif_neg hz] at ho
    exact first_error h _ ho

theorem out_resolved (h : Inv s) (hr : (out s).resolved = true) : ∃ o, Holds (out s) o := by
  by_cases hz : steps.length = 0
  · rw [out, dif_pos hz]
    exact ⟨_, holds_just⟩
  · rw [out, dif_neg hz] at hr ⊢
    exact (linkOk_resolved (h _).link hr).imp fun o ho => ho.2

theorem attached_of_quiescent (hq : (run steps).Quiescent s) (k : Fin steps.length) :
    (s k).link ≠ .detached := by
  obtain ⟨k, hlt⟩ := k
  induction k using Nat.strong_induction_on with
  | _ k ih =>
    intro hk
    exact hq _ (.attach ⟨k, hlt⟩ hk fun j hj => ih j.1 hj j.2)

theorem done_of_quiescent (h : Inv s) (hq : (run steps).Quiescent s) (k : Fin steps.length) :
    (s k).out.done = true := by
  obtain ⟨k, hlt⟩ := k
  induction k with
  | zero =>
    exact out_done_of_stuck (h _) (attached_of_quiescent hq _) rfl ⟨_, holds_just⟩
      fun t ht => hq _ (.stage _ ht)
  | succ k ih =>
    have hd := ih (Nat.lt_of_succ_lt hlt)
    exact out_done_of_stuck (h _) (attached_of_quiescent hq _) hd (input_done h ⟨k + 1, hlt⟩ hd)
      fun t ht => hq _ (.stage _ ht)

theorem resolved_of_quiescent (h : Inv s) (hq : (run steps).Quiescent s) :
    (out s).resolved = true := by
  by_cases hz : steps.length = 0
  · rw [out, dif_pos hz]
    rfl
  · rw [out, dif_neg hz]
    set k : Fin steps.length := ⟨steps.length - 1, Nat.sub_lt (Nat.pos_of_ne_zero hz) Nat.one_pos⟩
    cases hr : (s k).out.resolved with
    | true => rfl
    | false =>
      have hd := done_of_quiescent h hq k
      rw [(h k).out_pending hr] at hd
      cases hd

structure Sequenced (steps : List (StepSpec E)) (s : State steps) : Prop where
  inOrder : ∀ k k' : Fin steps.length, k'.1 = k.1 + 1 → ∀ i, ((s k').call i).call.Launched →
    ∀ j, ((s k).call j).call = .ended (.ok ())
  stops : ∀ k k' : Fin steps.length, k < k' → ∀ j e, ((s k).call j).call = .ended (.error e) →
    ∀ i, ¬ ((s k').call i).call.Launched
  outcome : ∀ k i o, ((s k).call i).call = .ended o → o = (steps.get k).outcome i
  value : (out s).get = some (.ok ()) → ∀ k i, ((s k).call i).call = .ended (.ok ())
  error : ∀ e, (out s).get = some (.error e) → ∃ k, (∀ j < k, ¬ (steps.get j).Fails) ∧
    ∃ i, ((s k).call i).call = .ended (.error e)
  succeeds : (out s).resolved = true →
    ((out s).get = some (.ok ()) ↔ ∀ k, ¬ (steps.get k).Fails)

theorem not_fails_of_ended (h : Inv s) {k : Fin steps.length}
    (hk : ∀ i, ((s k).call i).call = .ended (.ok ())) : ¬ (steps.get k).Fails := by
  rintro ⟨i, e, he⟩
  rw [outcome_of_ended h (hk i)] at he
  cases he

theorem holds_of_get (h : Inv s) {o : Except E Unit} (ho : (out s).get = some o) :
    Holds (out s) o := by
  have hr : (out s).resolved = true := by
    cases hr : (out s).resolved with
    | true => rfl
    | false => simp [FutureState.get, hr] at ho
  obtain ⟨o', ho'⟩ := out_resolved h hr
  rw [get_of_holds hr ho'] at ho
  exact Option.some.inj ho ▸ ho'

theorem fails_of_error (h : Inv s) {e : E} (ho : Holds (out s) (.error e)) :
    ∃ k, (∀ j < k, ¬ (steps.get j).Fails) ∧ ∃ i, ((s k).call i).call = .ended (.error e) := by
  obtain ⟨k, hin, hi⟩ := out_holds_error h ho
  exact ⟨k, fun j hj => not_fails_of_ended h (earlier_succeeded h hin hj), hi⟩

theorem sequenced (h : Inv s) : Sequenced steps s := by
  refine ⟨fun k k' hk i hl j => ?_, fun k k' hlt j e he i hl => ?_, fun k i o ho => ?_,
    fun hg => ?_, fun e hg => ?_, fun hr => ⟨fun hg k => ?_, fun hall => ?_⟩⟩
  · exact earlier_succeeded h (input_of_launched h hl) (Fin.lt_def.2 (by omega)) j
  · rw [earlier_succeeded h (input_of_launched h hl) hlt j] at he
    cases he
  · exact (outcome_of_ended h ho).symm
  · exact out_holds_value h (holds_of_get h hg)
  · exact fails_of_error h (holds_of_get h hg)
  · exact not_fails_of_ended h (out_holds_value h (holds_of_get h hg) k)
  · obtain ⟨o, ho⟩ := out_resolved h hr
    cases o with
    | ok v => exact get_of_holds hr ho
    | error e =>
      obtain ⟨k, -, i, hi⟩ := fails_of_error h ho
      exact absurd ⟨i, e, outcome_of_ended h hi⟩ (hall k)

end Run

section Termination

def Body.rank : Body E → Nat
  | .idle => 4
  | .queued => 3
  | .launching => 2
  | .joining => 1
  | .calling => 1
  | .ended _ => 0

def Stage.rank {m : Nat} (s : Stage m E) : Nat :=
  s.link.rank + unset s.out + s.body.rank + unset s.result + ∑ i, (s.call i).rank + s.join.rank

theorem rank_setCall {m : Nat} {s : Stage m E} {i : Fin m} {t : Task E}
    (h : t.rank < (s.call i).rank) : ∑ j, ((s.setCall i t).call j).rank < ∑ j, (s.call j).rank :=
  sum_update_lt (fun _ => Task.rank) h

theorem StageStep.rank_lt {st : StepSpec E} {src : FutureState E Unit} {s t : Stage st.arity E}
    (h : StageStep st src s t) : t.rank < s.rank := by
  cases h with
  | resumeError hl => simp [Stage.rank, hl, Link.rank]
  | resumeValue hl =>
    simp only [Stage.rank, hl, Link.rank, Body.rank]
    omega
  | enterParallel hb => simp [Stage.rank, hb, Body.rank]
  | launch i hb hi =>
    have hlt := rank_setCall (s := s) (i := i) (t := (s.call i).launch 0)
      (by simp [Task.rank, Task.launch, hi, Call.rank])
    exact Nat.add_lt_add_right (Nat.add_lt_add_left hlt _) _
  | launched hb => simp [Stage.rank, hb, Body.rank]
  | branch i hp hi =>
    exact Nat.add_lt_add_right (Nat.add_lt_add_left (rank_setCall hi.rank_lt) _) _
  | join hb hj => exact Nat.add_lt_add_left (AllOf.rank_step hj) _
  | joined hb => simp [Stage.rank, hb, Body.rank]
  | enterFn i hb hp hi =>
    have hlt := rank_setCall (s := s) (i := i) (t := { s.call i with call := .running })
      (by simp [Task.rank, hi, Call.rank])
    simp only [Stage.rank, Stage.setCall, hb, Body.rank] at hlt ⊢
    omega
  | returnFn i hb hi =>
    have hlt := rank_setCall (s := s) (i := i)
      (t := { s.call i with call := .ended (st.outcome i) }) (by simp [Task.rank, hi, Call.rank])
    simp only [Stage.rank, Stage.setCall, hb, Body.rank] at hlt ⊢
    omega
  | @lockResult o hb hr =>
    have hlt := unset_resolve hr o
    simp only [Stage.rank]
    omega
  | setResult hr hd =>
    have hlt := unset_done hd
    simp only [Stage.rank]
    omega
  | next hl => simp [Stage.rank, hl, Link.rank]
  | @lockOut o hl hr =>
    have hlt := unset_resolve hr o
    simp only [Stage.rank]
    omega
  | setOut hr hd =>
    have hlt := unset_done hd
    simp only [Stage.rank]
    omega

def rank (s : State steps) : Nat := ∑ k, (s k).rank

theorem step_wellFounded : WellFounded fun t s : State steps => Step s t := by
  refine Subrelation.wf (fun {t s} hst => ?_) (measure rank).wf
  cases hst with
  | attach k hk =>
    exact sum_update_lt (fun _ => Stage.rank) (by simp [Stage.rank, hk, Link.rank])
  | stage k hk => exact sum_update_lt (fun _ => Stage.rank) hk.rank_lt

end Termination

theorem pipeline_runs_in_order (steps : List (StepSpec E)) :
    WellFounded (fun t s : State steps => Step s t) ∧
      ∀ s, (run steps).Reachable s → Sequenced steps s ∧
        ((run steps).Quiescent s → (out s).resolved = true) := by
  refine ⟨step_wellFounded, fun s h => ?_⟩
  have hinv := inv_reachable h
  exact ⟨sequenced hinv, resolved_of_quiescent hinv⟩

theorem reachable_stage {s : State steps} (h : (run steps).Reachable s) (k : Fin steps.length)
    {t : Stage (steps.get k).arity E} (hst : StageStep (steps.get k) (input s k) (s k) t) :
    (run steps).Reachable (Function.update s k t) :=
  h.step (.stage k hst)

abbrev failsFirst : List (StepSpec String) := [.fn (.error "bad"), .fn (.ok ())]

theorem failsFirst_run : ∃ s, (run failsFirst).Reachable s ∧ (out s).get = some (.error "bad") ∧
    ((s 0).call (0 : Fin 1)).call = .ended (.error "bad") := by
  have h₀ : (run failsFirst).Reachable fun _ => .init := System.reachable_initial rfl
  have h₁ := h₀.step (.attach 0 rfl (by simp))
  have h₂ := h₁.step (.attach 1 rfl (forall_lt_one fun hd => by cases hd))
  have h₃ := reachable_stage h₂ 0 (.resumeValue rfl rfl rfl)
  have h₄ := reachable_stage h₃ 0 (@StageStep.enterFn _ (.fn _) _ _ (0 : Fin 1) rfl rfl rfl)
  have h₅ := reachable_stage h₄ 0 (@StageStep.returnFn _ (.fn _) _ _ (0 : Fin 1) rfl rfl)
  have h₆ := reachable_stage h₅ 0 (.lockResult rfl rfl)
  have h₇ := reachable_stage h₆ 0 (.setResult rfl rfl)
  have h₈ := reachable_stage h₇ 0 (.next rfl rfl rfl)
  have h₉ := reachable_stage h₈ 0 (.lockOut rfl rfl)
  have h₁₀ := reachable_stage h₉ 0 (.setOut rfl rfl)
  have h₁₁ := reachable_stage h₁₀ 1 (.resumeError rfl rfl rfl)
  have h₁₂ := reachable_stage h₁₁ 1 (.lockOut rfl rfl)
  exact ⟨_, h₁₂, rfl, rfl⟩

theorem pipeline_runs_in_order_failing : ∃ s, (run failsFirst).Reachable s ∧
    (out s).get = some (.error "bad") ∧ ∀ i, ¬ ((s 1).call i).call.Launched := by
  obtain ⟨s, h, hout, hend⟩ := failsFirst_run
  obtain ⟨hseq, -⟩ := (pipeline_runs_in_order failsFirst).2 s h
  exact ⟨s, h, hout, hseq.stops 0 1 (by decide) (0 : Fin 1) "bad" hend⟩

section Quiet

variable {s : State steps}

theorem holds_back (h : Inv s) {k : Nat} (hk : k + 1 < steps.length)
    (ho : ∃ o, Holds (s ⟨k + 1, hk⟩).out o) : ∃ o, Holds (s ⟨k, Nat.lt_of_succ_lt hk⟩).out o := by
  obtain ⟨o, ho⟩ := ho
  cases o with
  | ok v => exact ⟨_, (out_value h ho).1⟩
  | error e =>
    rcases out_error h ho with hin | ⟨hin, -⟩
    · exact ⟨_, hin⟩
    · exact ⟨_, hin⟩

theorem holds_all (h : Inv s) (hr : (out s).resolved = true) (k : Fin steps.length) :
    ∃ o, Holds (s k).out o := by
  have hz : steps.length ≠ 0 := (Nat.zero_lt_of_lt k.2).ne'
  have hback : ∀ d j, (hj : j + d < steps.length) → (∃ o, Holds (s ⟨j + d, hj⟩).out o) →
      ∃ o, Holds (s ⟨j, Nat.lt_of_le_of_lt (Nat.le_add_right j d) hj⟩).out o := by
    intro d
    induction d with
    | zero => exact fun j hj ho => ho
    | succ d ih => exact fun j hj ho => ih j (Nat.lt_of_succ_lt hj) (holds_back h hj ho)
  have hsum : k.1 + (steps.length - 1 - k.1) = steps.length - 1 := by omega
  refine hback (steps.length - 1 - k.1) k.1 (by omega) ?_
  obtain ⟨o, ho⟩ := out_resolved h hr
  rw [out, dif_neg hz] at ho
  refine ⟨o, ?_⟩
  convert ho

def EarlyFailure (steps : List (StepSpec E)) : Prop :=
  ∃ k : Fin steps.length, (steps.get k).isParallel = true ∧ 2 ≤ (steps.get k).arity ∧
    (steps.get k).Fails ∧ ∀ j < k, ¬ (steps.get j).Fails

theorem ended_of_resolved (h : Inv s) (hc : ¬ EarlyFailure steps) (hr : (out s).resolved = true)
    {k : Fin steps.length} {i : Fin (steps.get k).arity} (hl : ((s k).call i).call.Launched) :
    ((s k).call i).call.Ended := by
  have hin := input_of_launched h hl
  obtain ⟨o, ho⟩ := holds_all h hr k
  cases o with
  | ok v => exact ⟨_, (out_value h ho).2 i⟩
  | error e =>
    obtain ⟨-, j, hj⟩ := (out_error h ho).resolve_left fun he => by cases holds_unique hin he
    have hone : (steps.get k).arity ≤ 1 := by
      by_contra hmany
      refine hc ⟨k, ?_, by omega, ⟨j, e, outcome_of_ended h hj⟩, fun j' hj' =>
        not_fails_of_ended h (earlier_succeeded h hin hj')⟩
      cases hp : (steps.get k).isParallel with
      | true => rfl
      | false =>
        have hsub := subsingleton_of_fn hp
        exact absurd (Fin.subsingleton_iff_le_one.1 hsub) hmany
    have hsub := Fin.subsingleton_iff_le_one.2 hone
    obtain rfl := Subsingleton.elim i j
    exact ⟨_, hj⟩

end Quiet

theorem launched_queued (k : Nat) : (Call.queued k : Call String).Launched := by
  simp [Call.Launched]

theorem launched_ended (o : Except String Unit) : (Call.ended o).Launched := by
  simp [Call.Launched]

def succeeds (_ _ _ : UInt64) : Except String Unit := .ok ()

theorem batches_run : ∃ s, (Batch.runBatches 2 1 1 succeeds (some ())).Reachable s ∧
    s.result.resolved = true ∧ ∀ b, (s.batch b).call.Launched := by
  have h₀ : (Batch.runBatches 2 1 1 succeeds (some ())).Reachable .init :=
    System.reachable_initial rfl
  have h₁ := h₀.step (.launch (0 : Fin 2) rfl forall_lt_zero)
  have h₂ := h₁.step (.launch (1 : Fin 2) rfl (forall_lt_one (launched_queued 1)))
  have h₃ := h₂.step (.run (0 : Fin 2) (.hop rfl))
  have h₄ := h₃.step (.run (0 : Fin 2) (.start rfl))
  have h₅ := h₄.step (.run (0 : Fin 2) (.finish rfl))
  have h₆ := h₅.step (.run (0 : Fin 2) (.lock rfl rfl))
  have h₇ := h₆.step (.run (0 : Fin 2) (.set rfl rfl))
  have h₈ := h₇.step (.run (1 : Fin 2) (.hop rfl))
  have h₉ := h₈.step (.run (1 : Fin 2) (.start rfl))
  have h₁₀ := h₉.step (.run (1 : Fin 2) (.finish rfl))
  have h₁₁ := h₁₀.step (.run (1 : Fin 2) (.lock rfl rfl))
  have h₁₂ := h₁₁.step (.run (1 : Fin 2) (.set rfl rfl))
  have h₁₃ := h₁₂.step (.join (forall_both (launched_ended _) (launched_ended _))
    (.attach (0 : Fin 2) rfl forall_lt_zero))
  have h₁₄ := h₁₃.step (.join (forall_both (launched_ended _) (launched_ended _))
    (.attach (1 : Fin 2) rfl (forall_lt_one fun hd => by cases hd)))
  have h₁₅ := h₁₄.step (.join (forall_both (launched_ended _) (launched_ended _))
    (.resumeValue (0 : Fin 2) rfl rfl rfl rfl))
  have h₁₆ := h₁₅.step (.join (forall_both (launched_ended _) (launched_ended _))
    (.store (0 : Fin 2) rfl))
  have h₁₇ := h₁₆.step (.join (forall_both (launched_ended _) (launched_ended _))
    (.count (0 : Fin 2) rfl))
  have h₁₈ := h₁₇.step (.join (forall_both (launched_ended _) (launched_ended _))
    (.resumeValue (1 : Fin 2) rfl rfl rfl rfl))
  have h₁₉ := h₁₈.step (.join (forall_both (launched_ended _) (launched_ended _))
    (.store (1 : Fin 2) rfl))
  have h₂₀ := h₁₉.step (.join (forall_both (launched_ended _) (launched_ended _))
    (.count (1 : Fin 2) rfl))
  have h₂₁ := h₂₀.step (.join (forall_both (launched_ended _) (launched_ended _))
    (.resolveValue (1 : Fin 2) rfl))
  have h₂₂ := h₂₁.step (.join (forall_both (launched_ended _) (launched_ended _))
    (.set (1 : Fin 2) rfl))
  have h₂₃ := h₂₂.step (.observe rfl
    (forall_both (fun hd => by cases hd) fun hd => by cases hd) rfl)
  have h₂₄ := h₂₃.step (.call rfl)
  exact ⟨_, h₂₄, rfl, forall_both (launched_ended _) (launched_ended _)⟩

abbrev branchesThenFailure : List (StepSpec String) :=
  [.parallel [.ok (), .ok ()], .fn (.error "bad")]

theorem branchesThenFailure_run : ∃ s, (run branchesThenFailure).Reachable s ∧
    (out s).get = some (.error "bad") ∧
      (∀ i : Fin 2, ((s 0).call i).call.Launched) ∧ ((s 1).call (0 : Fin 1)).call.Launched := by
  have h₀ : (run branchesThenFailure).Reachable fun _ => .init := System.reachable_initial rfl
  have h₁ := h₀.step (.attach 0 rfl (by simp))
  have h₂ := h₁.step (.attach 1 rfl (forall_lt_one fun hd => by cases hd))
  have h₃ := reachable_stage h₂ 0 (.resumeValue rfl rfl rfl)
  have h₄ := reachable_stage h₃ 0 (.enterParallel rfl rfl)
  have h₅ := reachable_stage h₄ 0 (@StageStep.launch _ (.parallel [_, _]) _ _ (0 : Fin 2) rfl rfl
    forall_lt_zero)
  have h₆ := reachable_stage h₅ 0 (@StageStep.launch _ (.parallel [_, _]) _ _ (1 : Fin 2) rfl rfl
    (forall_lt_one (launched_queued 0)))
  have h₇ := reachable_stage h₆ 0 (.launched rfl
    (forall_both (launched_queued 0) (launched_queued 0)))
  have hbranch : ∀ (i : Fin 2) {s : State branchesThenFailure} {t : Task String},
      (run branchesThenFailure).Reachable s → Task.Step (.ok ()) ((s 0).call i) t →
        (run branchesThenFailure).Reachable (Function.update s 0 ((s 0).setCall i t)) := by
    intro i s t h ht
    refine reachable_stage h 0 (@StageStep.branch _ (.parallel [_, _]) _ _ i _ rfl ?_)
    fin_cases i
    · exact ht
    · exact ht
  have h₈ := hbranch 0 h₇ (.start rfl)
  have h₉ := hbranch 1 h₈ (.start rfl)
  have h₁₀ := hbranch 1 h₉ (.finish rfl)
  have h₁₁ := hbranch 1 h₁₀ (.lock rfl rfl)
  have h₁₂ := hbranch 1 h₁₁ (.set rfl rfl)
  have h₁₃ := hbranch 0 h₁₂ (.finish rfl)
  have h₁₄ := hbranch 0 h₁₃ (.lock rfl rfl)
  have h₁₅ := hbranch 0 h₁₄ (.set rfl rfl)
  have h₁₆ := reachable_stage h₁₅ 0 (.join (.inl rfl) (.attach (0 : Fin 2) rfl forall_lt_zero))
  have h₁₇ := reachable_stage h₁₆ 0 (.join (.inl rfl)
    (.attach (1 : Fin 2) rfl (forall_lt_one fun hd => by cases hd)))
  have h₁₈ := reachable_stage h₁₇ 0 (.join (.inl rfl) (.resumeValue (0 : Fin 2) rfl rfl rfl rfl))
  have h₁₉ := reachable_stage h₁₈ 0 (.join (.inl rfl) (.store (0 : Fin 2) rfl))
  have h₂₀ := reachable_stage h₁₉ 0 (.join (.inl rfl) (.count (0 : Fin 2) rfl))
  have h₂₁ := reachable_stage h₂₀ 0 (.join (.inl rfl) (.resumeValue (1 : Fin 2) rfl rfl rfl rfl))
  have h₂₂ := reachable_stage h₂₁ 0 (.join (.inl rfl) (.store (1 : Fin 2) rfl))
  have h₂₃ := reachable_stage h₂₂ 0 (.join (.inl rfl) (.count (1 : Fin 2) rfl))
  have h₂₄ := reachable_stage h₂₃ 0 (.join (.inl rfl) (.resolveValue (1 : Fin 2) rfl))
  have h₂₅ := reachable_stage h₂₄ 0 (.join (.inl rfl) (.set (1 : Fin 2) rfl))
  have h₂₆ := reachable_stage h₂₅ 0 (.joined rfl
    (forall_both (fun hd => by cases hd) fun hd => by cases hd) rfl rfl)
  have h₂₇ := reachable_stage h₂₆ 0 (.lockResult rfl rfl)
  have h₂₈ := reachable_stage h₂₇ 0 (.setResult rfl rfl)
  have h₂₉ := reachable_stage h₂₈ 0 (.next rfl rfl rfl)
  have h₃₀ := reachable_stage h₂₉ 0 (.lockOut rfl rfl)
  have h₃₁ := reachable_stage h₃₀ 0 (.setOut rfl rfl)
  have h₃₂ := reachable_stage h₃₁ 1 (.resumeValue rfl rfl rfl)
  have h₃₃ := reachable_stage h₃₂ 1 (@StageStep.enterFn _ (.fn _) _ _ (0 : Fin 1) rfl rfl rfl)
  have h₃₄ := reachable_stage h₃₃ 1 (@StageStep.returnFn _ (.fn _) _ _ (0 : Fin 1) rfl rfl)
  have h₃₅ := reachable_stage h₃₄ 1 (.lockResult rfl rfl)
  have h₃₆ := reachable_stage h₃₅ 1 (.setResult rfl rfl)
  have h₃₇ := reachable_stage h₃₆ 1 (.next rfl rfl rfl)
  have h₃₈ := reachable_stage h₃₇ 1 (.lockOut rfl rfl)
  exact ⟨_, h₃₈, rfl, forall_both (launched_ended _) (launched_ended _), launched_ended _⟩

theorem resolved_means_finished {V : Type} :
    (∀ (n batchSize workers : UInt64) (batchFn : UInt64 → UInt64 → UInt64 → Except E Unit)
      (collect : Option V) s, (Batch.runBatches n batchSize workers batchFn collect).Reachable s →
      ((Batch.batches n batchSize workers).toNat ≤ 1 ∨
        ∀ b, Batch.launches n batchSize workers batchFn b = .ok ()) →
      s.join.out.resolved = true ∨ s.result.resolved = true →
        ∀ b, (s.batch b).call.Launched → (s.batch b).call.Ended) ∧
    (∀ (steps : List (StepSpec E)) s, (run steps).Reachable s → ¬ EarlyFailure steps →
      (out s).resolved = true → ∀ k i, ((s k).call i).call.Launched →
        ((s k).call i).call.Ended) := by
  constructor
  · intro n batchSize workers batchFn collect s h hc hr b _
    have hinv := Batch.inv_reachable h
    refine hinv.ended hc ?_ b
    exact hr.elim id fun hres => hinv.relay (hinv.result hres)
  · intro steps s h hc hr k i hl
    exact ended_of_resolved (inv_reachable h) hc hr hl

theorem resolved_means_finished_failing :
    (∃ s, (Batch.runBatches 2 1 1 succeeds (some ())).Reachable s ∧ s.result.resolved = true ∧
      ∀ b, (s.batch b).call.Launched ∧ (s.batch b).call.Ended) ∧
    ∃ s, (run branchesThenFailure).Reachable s ∧ (out s).get = some (.error "bad") ∧
      (∀ i : Fin 2, ((s 0).call i).call.Launched ∧ ((s 0).call i).call.Ended) ∧
        ((s 1).call (0 : Fin 1)).call.Launched ∧ ((s 1).call (0 : Fin 1)).call.Ended := by
  obtain ⟨hbatches, hpipeline⟩ := resolved_means_finished (E := String) (V := Unit)
  constructor
  · obtain ⟨s, h, hr, hl⟩ := batches_run
    have hended := hbatches 2 1 1 succeeds (some ()) s h (.inr fun _ => rfl) (.inr hr)
    exact ⟨s, h, hr, fun b => ⟨hl b, hended b (hl b)⟩⟩
  · obtain ⟨s, h, hout, hl, hl'⟩ := branchesThenFailure_run
    have hok : ∀ i : Fin 2, (branchesThenFailure.get 0).outcome i = .ok () := forall_both rfl rfl
    have hearly : ¬ EarlyFailure branchesThenFailure := by
      rintro ⟨k, hp, -, ⟨i, e, he⟩, -⟩
      fin_cases k
      · cases (hok i).symm.trans he
      · cases hp
    have hr : (out s).resolved = true := by
      cases hr : (out s).resolved with
      | true => rfl
      | false => simp [FutureState.get, hr] at hout
    have hended := hpipeline branchesThenFailure s h hearly hr
    exact ⟨s, h, hout, fun i => ⟨hl i, hended 0 i (hl i)⟩, hl', hended 1 (0 : Fin 1) hl'⟩

def throwsFirst (_ _ batch : UInt64) : Except String Unit :=
  if batch = 0 then .error "bad" else .ok ()

abbrev twoBranches : List (StepSpec String) := [.parallel [.error "bad", .ok ()]]

theorem resolved_before_finished :
    (∃ s, (Batch.runBatches 2 1 1 throwsFirst (some ())).Reachable s ∧
      s.join.out.resolved = true ∧
        ∃ b, (s.batch b).call.Launched ∧ ¬ (s.batch b).call.Ended) ∧
    ∃ s, (run twoBranches).Reachable s ∧ (out s).resolved = true ∧
      ∃ k i, ((s k).call i).call.Launched ∧ ¬ ((s k).call i).call.Ended := by
  have hopen : ∀ k, ¬ (Call.queued k : Call String).Ended := by simp [Call.Ended]
  constructor
  · have h₀ : (Batch.runBatches 2 1 1 throwsFirst (some ())).Reachable .init :=
      System.reachable_initial rfl
    have h₁ := h₀.step (.launch (0 : Fin 2) rfl forall_lt_zero)
    have h₂ := h₁.step (.launch (1 : Fin 2) rfl (forall_lt_one (launched_queued 1)))
    have h₃ := h₂.step (.run (0 : Fin 2) (.hop rfl))
    have h₄ := h₃.step (.run (0 : Fin 2) (.start rfl))
    have h₅ := h₄.step (.run (0 : Fin 2) (.finish rfl))
    have h₆ := h₅.step (.run (0 : Fin 2) (.lock rfl rfl))
    have h₇ := h₆.step (.run (0 : Fin 2) (.set rfl rfl))
    have h₈ := h₇.step (.join (forall_both (launched_ended _) (launched_queued 1))
      (.attach (0 : Fin 2) rfl forall_lt_zero))
    have h₉ := h₈.step (.join (forall_both (launched_ended _) (launched_queued 1))
      (.attach (1 : Fin 2) rfl (forall_lt_one fun hd => by cases hd)))
    have h₁₀ := h₉.step (.join (forall_both (launched_ended _) (launched_queued 1))
      (.resumeError (0 : Fin 2) rfl rfl rfl))
    have h₁₁ := h₁₀.step (.join (forall_both (launched_ended _) (launched_queued 1))
      (.resolveError (0 : Fin 2) rfl))
    exact ⟨_, h₁₁, rfl, (1 : Fin 2), launched_queued 1, hopen 1⟩
  · have h₀ : (run twoBranches).Reachable fun _ => .init := System.reachable_initial rfl
    have h₁ := h₀.step (.attach 0 rfl (by simp))
    have h₂ := reachable_stage h₁ 0 (.resumeValue rfl rfl rfl)
    have h₃ := reachable_stage h₂ 0 (.enterParallel rfl rfl)
    have h₄ := reachable_stage h₃ 0 (@StageStep.launch _ (.parallel [_, _]) _ _ (0 : Fin 2) rfl rfl
      forall_lt_zero)
    have h₅ := reachable_stage h₄ 0 (@StageStep.launch _ (.parallel [_, _]) _ _ (1 : Fin 2) rfl rfl
      (forall_lt_one (launched_queued 0)))
    have h₆ := reachable_stage h₅ 0 (.launched rfl
      (forall_both (launched_queued 0) (launched_queued 0)))
    have h₇ := reachable_stage h₆ 0
      (@StageStep.branch _ (.parallel [_, _]) _ _ (0 : Fin 2) _ rfl (.start rfl))
    have h₈ := reachable_stage h₇ 0
      (@StageStep.branch _ (.parallel [_, _]) _ _ (0 : Fin 2) _ rfl (.finish rfl))
    have h₉ := reachable_stage h₈ 0
      (@StageStep.branch _ (.parallel [_, _]) _ _ (0 : Fin 2) _ rfl (.lock rfl rfl))
    have h₁₀ := reachable_stage h₉ 0
      (@StageStep.branch _ (.parallel [_, _]) _ _ (0 : Fin 2) _ rfl (.set rfl rfl))
    have h₁₁ := reachable_stage h₁₀ 0 (.join (.inl rfl)
      (.attach (0 : Fin 2) rfl forall_lt_zero))
    have h₁₂ := reachable_stage h₁₁ 0 (.join (.inl rfl)
      (.attach (1 : Fin 2) rfl (forall_lt_one fun hd => by cases hd)))
    have h₁₃ := reachable_stage h₁₂ 0 (.join (.inl rfl) (.resumeError (0 : Fin 2) rfl rfl rfl))
    have h₁₄ := reachable_stage h₁₃ 0 (.join (.inl rfl) (.resolveError (0 : Fin 2) rfl))
    have h₁₅ := reachable_stage h₁₄ 0 (.join (.inl rfl) (.set (0 : Fin 2) rfl))
    have h₁₆ := reachable_stage h₁₅ 0 (.joined rfl
      (forall_both (fun hd => by cases hd) fun hd => by cases hd) rfl rfl)
    have h₁₇ := reachable_stage h₁₆ 0 (.lockResult rfl rfl)
    have h₁₈ := reachable_stage h₁₇ 0 (.setResult rfl rfl)
    have h₁₉ := reachable_stage h₁₈ 0 (.next rfl rfl rfl)
    have h₂₀ := reachable_stage h₁₉ 0 (.lockOut rfl rfl)
    exact ⟨_, h₂₀, rfl, 0, (1 : Fin 2), launched_queued 0, hopen 0⟩

end Lark.Coro.Pipeline
