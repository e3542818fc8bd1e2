import Lark.Coro.Task
import Lark.Dag.OpGraph
import Mathlib.Data.List.AList

namespace Lark.Dag

open Lark.Base Lark.Coro Lark.Coro.Future

inductive OpStatus where
  | pending
  | running
  | success
  | skipped
  | failed
  deriving DecidableEq, Repr

def OpStatus.terminal : OpStatus → Bool
  | success => true
  | skipped => true
  | failed => true
  | _ => false

def OpStatus.passed : OpStatus → Bool
  | success => true
  | skipped => true
  | _ => false

-- What the user functions do when they are called on an op.
structure Callbacks (α β E : Type) where
  shouldSkip : β → α → Except E Bool
  onBefore : β → α → Except E Unit
  execute : α → Except E Unit
  onAfter : β → α → OpStatus → Except E Unit

variable {α β E : Type}

namespace OpExecutor

-- The program points of `RunOp`; the lists are the aspects still to be called.
inductive Body (β E : Type) where
  | idle
  | queued
  | skipping (rest : List β)
  | before (rest : List β)
  | executing
  | after (rest : List β) (status : OpStatus)
  | ended (o : Except E Unit)

variable (cb : Callbacks α β E) (aspects : List β)

def executeStatus (x : α) : OpStatus :=
  match cb.execute x with
  | .ok _ => .success
  | .error _ => .failed

-- The next program point, with the status that is set on the way.
def advance (x : α) : Body β E → Option (Body β E × Option OpStatus)
  | .idle => none
  | .queued => some (.skipping aspects, some .running)
  | .skipping [] => some (.before aspects, none)
  | .skipping (a :: rest) =>
    match cb.shouldSkip a x with
    | .ok true => some (.ended (.ok ()), some .skipped)
    | .ok false => some (.skipping rest, none)
    | .error e => some (.ended (.error e), none)
  | .before [] => some (.executing, none)
  | .before (a :: rest) =>
    match cb.onBefore a x with
    | .ok _ => some (.before rest, none)
    | .error e => some (.ended (.error e), none)
  | .executing => some (.after aspects (executeStatus cb x), some (executeStatus cb x))
  | .after [] _ => some (.ended (.ok ()), none)
  | .after (a :: rest) status =>
    match cb.onAfter a x status with
    | .ok _ => some (.after rest status, none)
    | .error e => some (.ended (.error e), none)
  | .ended _ => none

def skips (x : α) : List β → Except E Bool
  | [] => .ok false
  | a :: rest =>
    match cb.shouldSkip a x with
    | .ok true => .ok true
    | .ok false => skips x rest
    | .error e => .error e

def Quiet (x : α) : Prop :=
  skips cb x aspects = .ok true ∨ (skips cb x aspects = .ok false ∧
    ∀ a ∈ aspects, cb.onBefore a x = .ok () ∧ cb.onAfter a x (executeStatus cb x) = .ok ())

def finalStatus (x : α) : OpStatus :=
  match skips cb x aspects with
  | .ok true => .skipped
  | _ => executeStatus cb x

inductive BodyOk (x : α) (initial status : OpStatus) (offered : Nat) : Body β E → Prop
  | idle (hs : status = initial) (ho : offered = 0) : BodyOk x initial status offered .idle
  | queued (hs : status = initial) (ho : offered = 0) : BodyOk x initial status offered .queued
  | skipping {rest} (hs : status = .running) (ho : offered = 1)
      (hr : skips cb x rest = skips cb x aspects) :
      BodyOk x initial status offered (.skipping rest)
  | before {rest} (hs : status = .running) (ho : offered = 1) (hr : skips cb x aspects = .ok false)
      (hsub : rest ⊆ aspects) : BodyOk x initial status offered (.before rest)
  | executing (hs : status = .running) (ho : offered = 1) (hr : skips cb x aspects = .ok false) :
      BodyOk x initial status offered .executing
  | after {rest} (hs : status = executeStatus cb x) (ho : offered = 1)
      (hr : skips cb x aspects = .ok false) (hsub : rest ⊆ aspects) :
      BodyOk x initial status offered (.after rest (executeStatus cb x))
  | ended (hs : status = finalStatus cb aspects x) (ho : offered = 1) :
      BodyOk x initial status offered (.ended (.ok ()))

section Body

variable {cb aspects} {x : α} {initial status : OpStatus} {offered : Nat}

theorem Quiet.of_skip (h : Quiet cb aspects x) (hr : skips cb x aspects = .ok false) {a : β}
    (ha : a ∈ aspects) :
    cb.onBefore a x = .ok () ∧ cb.onAfter a x (executeStatus cb x) = .ok () := by
  rcases h with htrue | ⟨-, hall⟩
  · rw [hr] at htrue
    cases htrue
  · exact hall a ha

theorem Quiet.not_error (h : Quiet cb aspects x) {e : E} : skips cb x aspects ≠ .error e := by
  rcases h with htrue | ⟨hfalse, -⟩
  · simp [htrue]
  · simp [hfalse]

def entered (offered : Nat) (st : Option OpStatus) : Nat :=
  if st = some .running then offered + 1 else offered

theorem executeStatus_ne_running : executeStatus cb x ≠ .running := by
  unfold executeStatus
  split <;> simp

theorem executeStatus_terminal : (executeStatus cb x).terminal = true := by
  unfold executeStatus
  split <;> rfl

theorem finalStatus_terminal : (finalStatus cb aspects x).terminal = true := by
  unfold finalStatus
  split
  · rfl
  · exact executeStatus_terminal

theorem advance_ne_idle {b b' : Body β E} {st : Option OpStatus}
    (hb : advance cb aspects x b = some (b', st)) : b' ≠ .idle := by
  rintro rfl
  unfold advance at hb
  repeat' split at hb
  all_goals simp at hb

theorem bodyOk_advance {b b' : Body β E} {st : Option OpStatus} (hq : Quiet cb aspects x)
    (h : BodyOk cb aspects x initial status offered b)
    (hb : advance cb aspects x b = some (b', st)) :
    BodyOk cb aspects x initial (st.getD status) (entered offered st) b' := by
  cases h with
  | idle => cases hb
  | queued hs ho =>
    obtain ⟨rfl, rfl⟩ := Prod.mk.inj (Option.some.inj hb)
    exact .skipping rfl (by simp [entered, ho]) rfl
  | @skipping rest hs ho hr =>
    cases rest with
    | nil =>
      obtain ⟨rfl, rfl⟩ := Prod.mk.inj (Option.some.inj hb)
      exact .before hs ho hr.symm (List.Subset.refl _)
    | cons a rest =>
      simp only [skips] at hr
      simp only [advance] at hb
      split at hb
      · rename_i hskip
        rw [hskip] at hr
        obtain ⟨rfl, rfl⟩ := Prod.mk.inj (Option.some.inj hb)
        refine .ended ?_ ho
        simp [finalStatus, ← hr]
      · rename_i hskip
        rw [hskip] at hr
        obtain ⟨rfl, rfl⟩ := Prod.mk.inj (Option.some.inj hb)
        exact .skipping hs ho hr
      · rename_i e hskip
        rw [hskip] at hr
        exact absurd hr.symm hq.not_error
  | @before rest hs ho hr hsub =>
    cases rest with
    | nil =>
      obtain ⟨rfl, rfl⟩ := Prod.mk.inj (Option.some.inj hb)
      exact .executing hs ho hr
    | cons a rest =>
      obtain ⟨ha, hrest⟩ := List.cons_subset.1 hsub
      simp only [advance, (hq.of_skip hr ha).1] at hb
      obtain ⟨rfl, rfl⟩ := Prod.mk.inj (Option.some.inj hb)
      exact .before hs ho hr hrest
  | executing hs ho hr =>
    obtain ⟨rfl, rfl⟩ := Prod.mk.inj (Option.some.inj hb)
    refine .after rfl ?_ hr (List.Subset.refl _)
    simp [entered, executeStatus_ne_running, ho]
  | @after rest hs ho hr hsub =>
    cases rest with
    | nil =>
      obtain ⟨rfl, rfl⟩ := Prod.mk.inj (Option.some.inj hb)
      refine .ended ?_ ho
      simpa [finalStatus, hr] using hs
    | cons a rest =>
      obtain ⟨ha, hrest⟩ := List.cons_subset.1 hsub
      simp only [advance, (hq.of_skip hr ha).2] at hb
      obtain ⟨rfl, rfl⟩ := Prod.mk.inj (Option.some.inj hb)
      exact .after hs ho hr hrest
  | ended => cases hb

end Body

structure Node (m : Nat) (β E : Type) where
  ready : AllOf.State m E Unit Unit
  link : Link E
  body : Body β E
  out : FutureState E Unit

def Node.init {m : Nat} : Node m β E := ⟨.init fun _ => (), .detached, .idle, .pending⟩

def Body.rank (k : Nat) : Body β E → Nat
  | .idle => 0
  | .queued => 3 * k + 7
  | .skipping rest => 2 * k + rest.length + 6
  | .before rest => k + rest.length + 4
  | .executing => k + 3
  | .after rest _ => rest.length + 1
  | .ended _ => 0

def linkRank (k : Nat) : Link E → Nat
  | .detached => 3 * k + 10
  | .awaiting => 3 * k + 9
  | .inner => 1
  | .ended _ => 0

def Node.rank {m : Nat} (k : Nat) (s : Node m β E) : Nat :=
  s.ready.rank + linkRank k s.link + s.body.rank k + unset s.out

inductive NodeStep {m : Nat} (x : α) (src : Fin m → FutureState E Unit) :
    Node m β E → Node m β E → Option OpStatus → Prop
  | ready {s j} (h : AllOf.Step (fun _ => ()) src s.ready j) :
      NodeStep x src s { s with ready := j } none
  | resumeError {s e} (h : s.link = .awaiting) (hd : s.ready.out.done = true)
      (he : s.ready.out.error = some e) :
      NodeStep x src s { s with link := .ended (.error e) } none
  | resumeValue {s} (h : s.link = .awaiting) (hd : s.ready.out.done = true)
      (he : s.ready.out.error = none) :
      NodeStep x src s { s with link := .inner, body := .queued } none
  | run {s b st} (h : s.link = .inner) (hb : advance cb aspects x s.body = some (b, st)) :
      NodeStep x src s { s with body := b } st
  | next {s o} (h : s.link = .inner) (hb : s.body = .ended o) :
      NodeStep x src s { s with link := .ended o } none
  | lock {s o} (h : s.link = .ended o) (hr : s.out.resolved = false) :
      NodeStep x src s { s with out := s.out.resolve o } none
  | set {s} (h : s.out.resolved = true) (hd : s.out.done = false) :
      NodeStep x src s { s with out := { s.out with done := true } } none

inductive LinkOk {m : Nat} (s : Node m β E) : Prop
  | waiting (hl : s.link = .detached ∨ s.link = .awaiting) (hb : s.body = .idle)
      (hout : s.out = .pending)
  | inner (hl : s.link = .inner) (hready : Holds s.ready.out (.ok ())) (hb : s.body ≠ .idle)
      (hout : s.out = .pending)
  | ended (hl : s.link = .ended (.ok ())) (hready : Holds s.ready.out (.ok ()))
      (hb : s.body = .ended (.ok ()))
      (hout : s.out = .pending ∨ s.out.resolved = true ∧ Holds s.out (.ok ()))

structure NodeOk {m : Nat} (x : α) (src : Fin m → FutureState E Unit) (initial status : OpStatus)
    (offered : Nat) (s : Node m β E) : Prop where
  ready : AllOf.Inv (fun _ => ()) src s.ready
  signals : AllOf.Signals s.ready
  body : BodyOk cb aspects x initial status offered s.body
  link : LinkOk s

section Node

variable {cb aspects} {m : Nat} {x : α} {src src' : Fin m → FutureState E Unit}
  {initial status : OpStatus} {offered : Nat} {s t : Node m β E}

theorem linkOk_out (h : LinkOk s) {o : Except E Unit} (ho : Holds s.out o) :
    o = .ok () ∧ s.out.resolved = true ∧ s.link = .ended (.ok ()) ∧
      Holds s.ready.out (.ok ()) ∧ s.body = .ended (.ok ()) := by
  have hnot : s.out ≠ .pending := by
    intro hp
    rw [hp] at ho
    exact not_holds_pending ho
  cases h with
  | waiting _ _ hout => exact absurd hout hnot
  | inner _ _ _ hout => exact absurd hout hnot
  | ended hl hready hb hout =>
    obtain ⟨hr, hv⟩ := hout.resolve_left hnot
    exact ⟨holds_unique ho hv, hr, hl, hready, hb⟩

theorem linkOk_pending (h : LinkOk s) (hr : s.out.resolved = false) : s.out = .pending := by
  cases h with
  | waiting _ _ hout => exact hout
  | inner _ _ _ hout => exact hout
  | ended _ _ _ hout => exact hout.resolve_right (by simp [hr])

theorem linkOk_resolved (h : LinkOk s) (hr : s.out.resolved = true) : Holds s.out (.ok ()) := by
  have hnot : s.out ≠ .pending := by
    intro hp
    rw [hp] at hr
    cases hr
  cases h with
  | waiting _ _ hout => exact absurd hout hnot
  | inner _ _ _ hout => exact absurd hout hnot
  | ended _ _ _ hout => exact (hout.resolve_left hnot).2

theorem linkOk_started (h : LinkOk s) (hb : s.body ≠ .idle) : Holds s.ready.out (.ok ()) := by
  cases h with
  | waiting _ hb' => exact absurd hb' hb
  | inner _ hready => exact hready
  | ended _ hready => exact hready

theorem linkOk_ready {ready : AllOf.State m E Unit Unit} (h : LinkOk s)
    (hmono : ∀ o, Holds s.ready.out o → Holds ready.out o) : LinkOk { s with ready := ready } := by
  cases h with
  | waiting hl hb hout => exact .waiting hl hb hout
  | inner hl hready hb hout => exact .inner hl (hmono _ hready) hb hout
  | ended hl hready hb hout => exact .ended hl (hmono _ hready) hb hout

namespace NodeOk

theorem mono (h : NodeOk cb aspects x src initial status offered s)
    (hs : ∀ i o, Holds (src i) o → Holds (src' i) o) :
    NodeOk cb aspects x src' initial status offered s :=
  ⟨h.ready.mono hs, h.signals, h.body, h.link⟩

theorem ready_ok (h : NodeOk cb aspects x src initial status offered s)
    (hsrc : ∀ i o, Holds (src i) o → o = .ok ()) (hd : s.ready.out.done = true) :
    Holds s.ready.out (.ok ()) := by
  obtain ⟨o, ho⟩ := h.ready.out_holds (h.ready.out_resolved hd)
  cases o with
  | ok v => exact ho
  | error e =>
    obtain ⟨i, hi⟩ := h.ready.out_error ho
    cases hsrc i _ hi

theorem attach (h : NodeOk cb aspects x src initial status offered s) (hl : s.link = .detached) :
    NodeOk cb aspects x src initial status offered { s with link := .awaiting } := by
  refine ⟨h.ready, h.signals, h.body, ?_⟩
  cases h.link with
  | waiting _ hb hout => exact .waiting (.inr rfl) hb hout
  | inner hl' => simp [hl] at hl'
  | ended hl' => simp [hl] at hl'

theorem step {st : Option OpStatus} (h : NodeOk cb aspects x src initial status offered s)
    (hq : Quiet cb aspects x) (hsrc : ∀ i o, Holds (src i) o → o = .ok ())
    (hdone : ∀ i, (src i).done = true → ∃ o, Holds (src i) o)
    (hst : NodeStep cb aspects x src s t st) :
    NodeOk cb aspects x src initial (st.getD status) (entered offered st) t := by
  cases hst with
  | ready hj =>
    exact ⟨h.ready.step hj hdone, AllOf.signals_step h.signals hj, h.body,
      linkOk_ready h.link fun o ho => h.ready.out_mono hj ho⟩
  | resumeError hl hd he =>
    have hok := h.ready_ok hsrc hd
    rw [hok.2] at he
    cases he
  | resumeValue hl hd he =>
    have hok := h.ready_ok hsrc hd
    have hwait : s.body = .idle ∧ s.out = .pending := by
      cases h.link with
      | waiting _ hb hout => exact ⟨hb, hout⟩
      | inner hl' => simp [hl] at hl'
      | ended hl' => simp [hl] at hl'
    refine ⟨h.ready, h.signals, ?_, .inner rfl hok (by simp) hwait.2⟩
    have hb := h.body
    rw [hwait.1] at hb
    cases hb with
    | idle hs ho => exact .queued hs ho
  | @run b st hl hb =>
    refine ⟨h.ready, h.signals, bodyOk_advance hq h.body hb, ?_⟩
    cases h.link with
    | waiting hl' => simp [hl] at hl'
    | inner _ hready hb' hout =>
      exact .inner hl hready (advance_ne_idle hb) hout
    | ended hl' => simp [hl] at hl'
  | next hl hb =>
    have hbody := h.body
    rw [hb] at hbody
    cases hbody with
    | ended _ _ =>
      refine ⟨h.ready, h.signals, h.body, ?_⟩
      cases h.link with
      | waiting hl' => simp [hl] at hl'
      | inner _ hready _ hout => exact .ended rfl hready hb (.inl hout)
      | ended hl' => simp [hl] at hl'
  | lock hl hr =>
    refine ⟨h.ready, h.signals, h.body, ?_⟩
    cases h.link with
    | waiting hl' => simp [hl] at hl'
    | inner hl' => simp [hl] at hl'
    | ended hl' hready hb hout =>
      obtain rfl := Link.ended.inj (hl.symm.trans hl')
      have hv : Holds (s.out.resolve (.ok ())) (.ok ()) := by
        rw [linkOk_pending h.link hr]
        exact holds_resolve_pending
      exact .ended hl hready hb (.inr ⟨resolve_resolved, hv⟩)
  | set hr hd =>
    have hv := linkOk_resolved h.link hr
    obtain ⟨-, -, hl, hready, hb⟩ := linkOk_out h.link hv
    exact ⟨h.ready, h.signals, h.body, .ended hl hready hb (.inr ⟨hr, holds_set hv⟩)⟩

end NodeOk

theorem NodeStep.out_mono {st : Option OpStatus} (hl : LinkOk s)
    (hst : NodeStep cb aspects x src s t st) {o : Except E Unit} (ho : Holds s.out o) :
    Holds t.out o := by
  cases hst with
  | lock _ hr =>
    rw [linkOk_pending hl hr] at ho
    exact absurd ho not_holds_pending
  | set => exact holds_set ho
  | _ => exact ho

theorem NodeStep.link {st : Option OpStatus} (hst : NodeStep cb aspects x src s t st) :
    t.link = .detached ↔ s.link = .detached := by
  cases hst with
  | ready => exact Iff.rfl
  | resumeError hl => simp [hl]
  | resumeValue hl => simp [hl]
  | run => exact Iff.rfl
  | next hl => simp [hl]
  | lock => exact Iff.rfl
  | set => exact Iff.rfl

variable (cb aspects x) in
theorem advance_some {b : Body β E} (hi : b ≠ .idle) (he : ∀ o, b ≠ .ended o) :
    ∃ r, advance cb aspects x b = some r := by
  cases b with
  | idle => exact absurd rfl hi
  | queued => exact ⟨_, rfl⟩
  | skipping rest =>
    cases rest with
    | nil => exact ⟨_, rfl⟩
    | cons a rest =>
      simp only [advance]
      split <;> exact ⟨_, rfl⟩
  | before rest =>
    cases rest with
    | nil => exact ⟨_, rfl⟩
    | cons a rest =>
      simp only [advance]
      split <;> exact ⟨_, rfl⟩
  | executing => exact ⟨_, rfl⟩
  | after rest st =>
    cases rest with
    | nil => exact ⟨_, rfl⟩
    | cons a rest =>
      simp only [advance]
      split <;> exact ⟨_, rfl⟩
  | ended o => exact absurd rfl (he o)

theorem node_done (h : NodeOk cb aspects x src initial status offered s)
    (hl : s.link ≠ .detached) (hdone : ∀ i, (src i).done = true ∧ ∃ o, Holds (src i) o)
    (hsrc : ∀ i o, Holds (src i) o → o = .ok ())
    (hq : ∀ t st, ¬ NodeStep cb aspects x src s t st) : s.out.done = true := by
  have hfin := AllOf.finished_of_stuck hdone fun j hj => hq _ _ (.ready hj)
  have hready := AllOf.done_of_finished h.ready h.signals hfin
  have hok := h.ready_ok hsrc hready
  cases hlink : s.link with
  | detached => exact absurd hlink hl
  | awaiting => exact absurd (.resumeValue hlink hready hok.2) (hq _ _)
  | inner =>
    have hb : s.body ≠ .idle := by
      cases h.link with
      | waiting hl' => simp [hlink] at hl'
      | inner _ _ hb => exact hb
      | ended hl' => simp [hlink] at hl'
    by_cases he : ∃ o, s.body = .ended o
    · obtain ⟨o, ho⟩ := he
      exact absurd (.next hlink ho) (hq _ _)
    · obtain ⟨r, hr⟩ := advance_some cb aspects x hb fun o ho => he ⟨o, ho⟩
      exact absurd (.run hlink hr) (hq _ _)
  | ended o =>
    cases hr : s.out.resolved with
    | false => exact absurd (.lock hlink hr) (hq _ _)
    | true =>
      cases hd : s.out.done with
      | false => exact absurd (.set hr hd) (hq _ _)
      | true => rfl

theorem rank_advance {b b' : Body β E} {st : Option OpStatus}
    (hb : advance cb aspects x b = some (b', st)) :
    b'.rank aspects.length < b.rank aspects.length := by
  cases b with
  | idle => cases hb
  | queued =>
    obtain ⟨rfl, -⟩ := Prod.mk.inj (Option.some.inj hb)
    simp only [Body.rank]
    omega
  | skipping rest =>
    cases rest with
    | nil =>
      obtain ⟨rfl, -⟩ := Prod.mk.inj (Option.some.inj hb)
      simp only [Body.rank]
      omega
    | cons a rest =>
      simp only [advance] at hb
      split at hb
      all_goals
        obtain ⟨rfl, -⟩ := Prod.mk.inj (Option.some.inj hb)
        simp only [Body.rank, List.length_cons]
        omega
  | before rest =>
    cases rest with
    | nil =>
      obtain ⟨rfl, -⟩ := Prod.mk.inj (Option.some.inj hb)
      simp only [Body.rank]
      omega
    | cons a rest =>
      simp only [advance] at hb
      split at hb
      all_goals
        obtain ⟨rfl, -⟩ := Prod.mk.inj (Option.some.inj hb)
        simp only [Body.rank, List.length_cons]
        omega
  | executing =>
    obtain ⟨rfl, -⟩ := Prod.mk.inj (Option.some.inj hb)
    simp only [Body.rank]
    omega
  | after rest status =>
    cases rest with
    | nil =>
      obtain ⟨rfl, -⟩ := Prod.mk.inj (Option.some.inj hb)
      simp [Body.rank]
    | cons a rest =>
      simp only [advance] at hb
      split at hb
      all_goals
        obtain ⟨rfl, -⟩ := Prod.mk.inj (Option.some.inj hb)
        simp [Body.rank]
  | ended o => cases hb

theorem NodeStep.rank_lt {st : Option OpStatus} (hst : NodeStep cb aspects x src s t st) :
    t.rank aspects.length < s.rank aspects.length := by
  cases hst with
  | ready hj =>
    have hlt := AllOf.rank_step hj
    simp only [Node.rank]
    omega
  | resumeError hl =>
    simp only [Node.rank, hl, linkRank]
    omega
  | resumeValue hl =>
    simp only [Node.rank, hl, linkRank, Body.rank]
    omega
  | run _ hb =>
    have hlt := rank_advance hb
    simp only [Node.rank]
    omega
  | next hl =>
    simp only [Node.rank, hl, linkRank]
    omega
  | @lock o _ hr =>
    have hlt := unset_resolve hr o
    simp only [Node.rank]
    omega
  | set _ hd =>
    have hlt := unset_done hd
    simp only [Node.rank]
    omega

end Node

end OpExecutor

variable [DecidableEq α]

abbrev StatusMap (α : Type) : Type := AList fun _ : α => OpStatus

namespace StatusMap

def status (m : StatusMap α) (x : α) : OpStatus := (m.lookup x).getD .pending

def allSucceeded (m : StatusMap α) : Bool := m.entries.all fun e => e.2.passed

end StatusMap

namespace OpExecutor

variable (cb : Callbacks α β E) (aspects : List β)

-- `built` counts the ops whose futures `ExecuteAsync` has made; `offered` is history.
structure State (deps : α → List α) (n : Nat) (β E : Type) where
  node : (x : α) → Node (deps x).length β E
  status : StatusMap α
  offered : α → Nat
  built : Nat
  all : AllOf.State n E Unit Unit

variable {deps : α → List α} {n : Nat}

namespace State

def init (status : StatusMap α) : State deps n β E :=
  ⟨fun _ => .init, status, fun _ => 0, 0, .init fun _ => ()⟩

def outs (s : State deps n β E) (x : α) (i : Fin (deps x).length) : FutureState E Unit :=
  (s.node ((deps x).get i)).out

def setNode (s : State deps n β E) (x : α) (t : Node (deps x).length β E)
    (st : Option OpStatus) : State deps n β E :=
  { s with
    node := Function.update s.node x t
    status := match st with
      | some st => s.status.insert x st
      | none => s.status
    offered := if st = some .running then Function.update s.offered x (s.offered x + 1)
      else s.offered }

def attach (s : State deps n β E) (x : α) : State deps n β E :=
  { s with
    node := Function.update s.node x { s.node x with link := .awaiting }
    built := s.built + 1 }

end State

inductive Step (order : List α) : State deps order.length β E → State deps order.length β E → Prop
  | node {s} (x : α) {t st} (hx : x ∈ order.take (s.built + 1))
      (h : NodeStep cb aspects x (s.outs x) (s.node x) t st) : Step order s (s.setNode x t st)
  | attach {s} (x : α) (hx : order[s.built]? = some x) (hl : (s.node x).link = .detached)
      (hp : ∀ i, (s.node x).ready.phase i ≠ .detached) :
      Step order s (s.attach x)
  | all {s j} (hb : s.built = order.length)
      (h : AllOf.Step (fun _ => ()) (fun i => (s.node (order.get i)).out) s.all j) :
      Step order s { s with all := j }

def executeAsync (deps : α → List α) (order : List α) (status : StatusMap α) :
    System (State deps order.length β E) where
  initial := fun s => s = .init status
  step := Step cb aspects order

structure Inv (order : List α) (initial : StatusMap α) (s : State deps order.length β E) :
    Prop where
  node : ∀ x, NodeOk cb aspects x (s.outs x) (initial.status x) (s.status.status x) (s.offered x)
    (s.node x)
  built : ∀ x, (s.node x).link ≠ .detached ↔ x ∈ order.take s.built
  built_le : s.built ≤ order.length
  all : AllOf.Inv (fun _ => ()) (fun i => (s.node (order.get i)).out) s.all
  signals : AllOf.Signals s.all
  keys : ∀ x, x ∉ order → s.status.lookup x = initial.lookup x

section Run

variable {cb aspects} {order : List α} {initial : StatusMap α}
  {s t : State deps order.length β E}

theorem status_insert (m : StatusMap α) (x y : α) (st : OpStatus) :
    StatusMap.status (m.insert x st) y = if y = x then st else m.status y := by
  unfold StatusMap.status
  rcases eq_or_ne y x with rfl | hne
  · simp
  · rw [AList.lookup_insert_ne hne, if_neg hne]

theorem setNode_status {x y : α} {t : Node (deps x).length β E} {st : Option OpStatus} :
    (s.setNode x t st).status.status y =
      if y = x then st.getD (s.status.status x) else s.status.status y := by
  cases st with
  | none =>
    rcases eq_or_ne y x with rfl | hne
    · simp [State.setNode]
    · simp [State.setNode, hne]
  | some st => exact status_insert s.status x y st

theorem setNode_offered {x y : α} {t : Node (deps x).length β E} {st : Option OpStatus} :
    (s.setNode x t st).offered y = if y = x then entered (s.offered x) st else s.offered y := by
  simp only [State.setNode, entered]
  split_ifs with hst hy
  · subst hy
    simp
  · simp [hy]
  · rename_i hy
    rw [hy]
  · rfl

theorem outs_mono {node' : (x : α) → Node (deps x).length β E} {x : α}
    {t : Node (deps x).length β E} (hn : node' = Function.update s.node x t)
    (h : ∀ o, Holds (s.node x).out o → Holds t.out o) (y : α) {o : Except E Unit}
    (ho : Holds (s.node y).out o) : Holds (node' y).out o := by
  subst hn
  rcases eq_or_ne y x with rfl | hne
  · simpa using h o ho
  · simpa [hne] using ho

namespace Inv

theorem out_ok (h : Inv cb aspects order initial s) (x : α) {o : Except E Unit}
    (ho : Holds (s.node x).out o) : o = .ok () :=
  (linkOk_out (h.node x).link ho).1

theorem out_done (h : Inv cb aspects order initial s) (x : α) (hd : (s.node x).out.done = true) :
    ∃ o, Holds (s.node x).out o := by
  cases hr : (s.node x).out.resolved with
  | true => exact ⟨_, linkOk_resolved (h.node x).link hr⟩
  | false =>
    rw [linkOk_pending (h.node x).link hr] at hd
    cases hd

theorem setNode (h : Inv cb aspects order initial s) {x : α} (hx : x ∈ order.take (s.built + 1))
    {t : Node (deps x).length β E} {st : Option OpStatus} (hq : Quiet cb aspects x)
    (hst : NodeStep cb aspects x (s.outs x) (s.node x) t st) :
    Inv cb aspects order initial (s.setNode x t st) := by
  have hmono : ∀ y {o}, Holds (s.node y).out o → Holds ((s.setNode x t st).node y).out o :=
    outs_mono rfl fun o ho => hst.out_mono (h.node x).link ho
  have hstep := (h.node x).step hq (fun i o ho => h.out_ok _ ho) (fun i hd => h.out_done _ hd) hst
  refine ⟨fun y => ?_, fun y => ?_, h.built_le, h.all.mono fun i o ho => hmono _ ho, h.signals,
    fun y hy => ?_⟩
  · rw [setNode_status, setNode_offered]
    rcases eq_or_ne y x with rfl | hne
    · have hself : (s.setNode y t st).node y = t := by simp [State.setNode]
      rw [if_pos rfl, if_pos rfl, hself]
      exact hstep.mono fun i o ho => hmono _ ho
    · have hother : (s.setNode x t st).node y = s.node y := by simp [State.setNode, hne]
      rw [if_neg hne, if_neg hne, hother]
      exact (h.node y).mono fun i o ho => hmono _ ho
  · rcases eq_or_ne y x with rfl | hne
    · have hself : (s.setNode y t st).node y = t := by simp [State.setNode]
      rw [hself, ne_eq, hst.link]
      exact h.built y
    · have hother : (s.setNode x t st).node y = s.node y := by simp [State.setNode, hne]
      rw [hother]
      exact h.built y
  · have hne : y ≠ x := by
      rintro rfl
      exact hy (List.mem_of_mem_take hx)
    rw [← h.keys y hy]
    cases st with
    | none => rfl
    | some st => exact AList.lookup_insert_ne hne

theorem attach (h : Inv cb aspects order initial s) {x : α} (hx : order[s.built]? = some x)
    (hl : (s.node x).link = .detached) : Inv cb aspects order initial (s.attach x) := by
  have hmono : ∀ y {o}, Holds (s.node y).out o → Holds ((s.attach x).node y).out o :=
    outs_mono rfl fun o ho => ho
  have hself : (s.attach x).node x = { s.node x with link := .awaiting } := by
    simp [State.attach]
  have hother : ∀ {y}, y ≠ x → (s.attach x).node y = s.node y := by
    intro y hne
    simp [State.attach, hne]
  have htake : order.take (s.built + 1) = order.take s.built ++ [x] := by
    rw [List.take_add_one, hx]
    rfl
  refine ⟨fun y => ?_, fun y => ?_, (List.getElem?_eq_some_iff.1 hx).1,
    h.all.mono fun i o ho => hmono _ ho, h.signals, h.keys⟩
  · rcases eq_or_ne y x with rfl | hne
    · rw [hself]
      exact ((h.node y).attach hl).mono fun i o ho => hmono _ ho
    · rw [hother hne]
      exact (h.node y).mono fun i o ho => hmono _ ho
  · change _ ↔ y ∈ order.take (s.built + 1)
    rw [htake, List.mem_append, List.mem_singleton]
    rcases eq_or_ne y x with rfl | hne
    · simp [hself]
    · rw [hother hne, or_iff_left hne]
      exact h.built y

theorem step (h : Inv cb aspects order initial s) (hq : ∀ x ∈ order, Quiet cb aspects x)
    (hst : Step cb aspects order s t) : Inv cb aspects order initial t := by
  cases hst with
  | node x hx hn => exact h.setNode hx (hq x (List.mem_of_mem_take hx)) hn
  | attach x hx hl => exact h.attach hx hl
  | all hb hj =>
    exact ⟨h.node, h.built, h.built_le, h.all.step hj fun i hd => h.out_done _ hd,
      AllOf.signals_step h.signals hj, h.keys⟩

theorem init : Inv cb aspects order initial (.init initial : State deps order.length β E) := by
  refine ⟨fun x => ⟨.init _ _, AllOf.signals_init, .idle rfl rfl, .waiting (.inl rfl) rfl rfl⟩,
    fun x => ?_, Nat.zero_le _, .init _ _, AllOf.signals_init, fun _ _ => rfl⟩
  simp [State.init, Node.init]

end Inv

theorem inv_reachable (hq : ∀ x ∈ order, Quiet cb aspects x)
    (h : (executeAsync cb aspects deps order initial).Reachable s) :
    Inv cb aspects order initial s := by
  refine System.Reachable.invariant (I := Inv cb aspects order initial) ?_
    (fun s t hs hst => hs.step hq hst) h
  rintro s rfl
  exact .init

namespace Inv

theorem finished (h : Inv cb aspects order initial s) {x : α} {o : Except E Unit}
    (ho : Holds (s.node x).out o) : (s.node x).body = .ended (.ok ()) ∧
      s.status.status x = finalStatus cb aspects x ∧ s.offered x = 1 := by
  obtain ⟨-, -, -, -, hb⟩ := linkOk_out (h.node x).link ho
  have hbody := (h.node x).body
  rw [hb] at hbody
  cases hbody with
  | ended hs ho => exact ⟨hb, hs, ho⟩

theorem offered_le (h : Inv cb aspects order initial s) (x : α) : s.offered x ≤ 1 := by
  have hbody := (h.node x).body
  generalize (s.node x).body = b at hbody
  cases hbody with
  | idle _ ho => omega
  | queued _ ho => omega
  | skipping _ ho => omega
  | before _ ho => omega
  | executing _ ho => omega
  | after _ ho => omega
  | ended _ ho => omega

theorem started (h : Inv cb aspects order initial s) {x : α} (hx : 0 < s.offered x)
    {d : α} (hd : d ∈ deps x) : (s.node d).body = .ended (.ok ()) ∧
      s.status.status d = finalStatus cb aspects d := by
  have hb : (s.node x).body ≠ .idle := by
    intro hb
    have hbody := (h.node x).body
    rw [hb] at hbody
    cases hbody with
    | idle _ ho => omega
  have hready := linkOk_started (h.node x).link hb
  obtain ⟨i, rfl⟩ := List.mem_iff_get.1 hd
  obtain ⟨v, hv⟩ := (h.node x).ready.out_value hready i
  obtain ⟨hend, hst, -⟩ := h.finished hv
  exact ⟨hend, hst⟩

theorem joined (h : Inv cb aspects order initial s) (hr : s.all.out.resolved = true) {x : α}
    (hx : x ∈ order) : (s.node x).body = .ended (.ok ()) ∧
      s.status.status x = finalStatus cb aspects x ∧ s.offered x = 1 := by
  obtain ⟨o, ho⟩ := h.all.out_holds hr
  cases o with
  | error e =>
    obtain ⟨i, hi⟩ := h.all.out_error ho
    cases h.out_ok _ hi
  | ok v =>
    obtain ⟨i, rfl⟩ := List.mem_iff_get.1 hx
    obtain ⟨w, hw⟩ := h.all.out_value ho i
    exact h.finished hw

end Inv

section Progress

def State.rank (k : Nat) (s : State deps order.length β E) : Nat :=
  ∑ x ∈ order.toFinset, (s.node x).rank k + s.all.rank

theorem rank_update {k : Nat} {x : α} (hx : x ∈ order) {t : Node (deps x).length β E}
    (h : t.rank k < (s.node x).rank k) :
    ∑ y ∈ order.toFinset, (Function.update s.node x t y).rank k <
      ∑ y ∈ order.toFinset, (s.node y).rank k :=
  sum_update_lt_of_mem (fun y (n : Node (deps y).length β E) => n.rank k)
    (List.mem_toFinset.2 hx) h

theorem rank_step (hst : Step cb aspects order s t) :
    t.rank aspects.length < s.rank aspects.length := by
  cases hst with
  | @node x t st hx hn =>
    have hlt := rank_update (List.mem_of_mem_take hx) hn.rank_lt
    exact Nat.add_lt_add_right hlt _
  | attach x hx hl =>
    have hlt := rank_update (s := s) (k := aspects.length) (List.mem_of_getElem? hx)
      (t := { s.node x with link := .awaiting }) (by simp [Node.rank, hl, linkRank])
    exact Nat.add_lt_add_right hlt _
  | all _ hj => exact Nat.add_lt_add_left (AllOf.rank_step hj) _

theorem step_wellFounded : WellFounded fun t s : State deps order.length β E =>
    Step cb aspects order s t :=
  Subrelation.wf (fun h => rank_step h) (measure (State.rank aspects.length)).wf

theorem built_all (h : Inv cb aspects order initial s) (hnd : order.Nodup)
    (hq : (executeAsync cb aspects deps order initial).Quiescent s) :
    order.length ≤ s.built := by
  by_contra hlt
  rw [not_le] at hlt
  have hx : order[s.built]? = some order[s.built] := List.getElem?_eq_getElem hlt
  set x := order[s.built]
  have hmem : x ∈ order.take (s.built + 1) := by
    rw [List.take_add_one, hx]
    simp
  have hdet : (s.node x).link = .detached := by
    refine not_not.1 fun hne => ?_
    have hin := (h.built x).1 hne
    obtain ⟨i, hi, he⟩ := List.mem_take_iff_getElem.1 hin
    have heq := (List.Nodup.getElem_inj_iff hnd).1 he
    omega
  refine hq _ (.attach x hx hdet fun i hi => ?_)
  obtain ⟨j, hj, hmin⟩ := wellFounded_lt.has_min {j | (s.node x).ready.phase j = .detached} ⟨i, hi⟩
  exact hq _ (.node x hmem (.ready (.attach j hj fun k hk hkd => hmin k hkd hk)))

theorem out_done_of_quiescent (h : Inv cb aspects order initial s) (hnd : order.Nodup)
    (hord : Kahn.Ordered deps order)
    (hq : (executeAsync cb aspects deps order initial).Quiescent s) {x : α} (hx : x ∈ order) :
    (s.node x).out.done = true := by
  have hbuilt := built_all h hnd hq
  have htake : order.take s.built = order := List.take_of_length_le hbuilt
  have hall : ∀ k (hk : k < order.length), (s.node order[k]).out.done = true := by
    intro k
    induction k using Nat.strong_induction_on with
    | _ k ih =>
      intro hk
      have hmem : order[k] ∈ order := List.getElem_mem hk
      have hdeps : ∀ d ∈ deps order[k], (s.node d).out.done = true := by
        intro d hd
        have hsplit : order = order.take k ++ order[k] :: order.drop (k + 1) := by
          rw [List.cons_getElem_drop_succ, List.take_append_drop]
        have hpre := hord _ _ _ hsplit d hd
        obtain ⟨i, hi, rfl⟩ := List.mem_take_iff_getElem.1 hpre
        exact ih i (by omega) (by omega)
      refine node_done (h.node _) ?_ (fun i => ?_) (fun i o ho => h.out_ok _ ho) fun t st hst => ?_
      · rw [h.built, htake]
        exact hmem
      · have hd := hdeps _ (List.get_mem _ i)
        exact ⟨hd, h.out_done _ hd⟩
      · refine hq _ (.node _ ?_ hst)
        rw [List.take_of_length_le (by omega)]
        exact hmem
  obtain ⟨k, hk, rfl⟩ := List.getElem_of_mem hx
  exact hall k hk

theorem resolved_of_quiescent (h : Inv cb aspects order initial s) (hnd : order.Nodup)
    (hord : Kahn.Ordered deps order)
    (hq : (executeAsync cb aspects deps order initial).Quiescent s) :
    s.all.out.resolved = true := by
  have hbuilt : s.built = order.length := le_antisymm h.built_le (built_all h hnd hq)
  have hdone : ∀ i, (s.node (order.get i)).out.done = true := fun i =>
    out_done_of_quiescent h hnd hord hq (List.get_mem order i)
  exact h.all.resolved_of_finished (AllOf.finished_of_stuck
    (fun i => ⟨hdone i, h.out_done _ (hdone i)⟩) fun j hj => hq _ (.all hbuilt hj))

end Progress

end Run

structure Drained (g : OpGraph α β) {n : Nat} (s : State g.deps n β E) : Prop where
  once : ∀ x, s.offered x ≤ 1
  inOrder : ∀ x, 0 < s.offered x → ∀ d ∈ g.deps x,
    (∃ o, (s.node d).body = .ended o) ∧ (s.status.status d).terminal = true
  drained : s.all.out.resolved = true → ∀ x ∈ g.ops, (s.status.status x).terminal = true ∧
    s.offered x = 1 ∧ ∃ o, (s.node x).body = .ended o

theorem execute_drains {g : OpGraph α β} {name : α → String} (hb : g.Built name)
    (ha : g.Acyclic) (hn : g.ops.Nodup) {cb : Callbacks α β E}
    (hq : ∀ x ∈ g.ops, Quiet cb g.aspects x) (initial : StatusMap α) :
    ∃ order, g.compile.1 = .ok order ∧
      (WellFounded fun t s : State g.deps order.length β E => Step cb g.aspects order s t) ∧
      ∀ s, (executeAsync cb g.aspects g.deps order initial).Reachable s → Drained g s ∧
        ((executeAsync cb g.aspects g.deps order initial).Quiescent s →
          s.all.out.resolved = true) := by
  obtain ⟨order, hc⟩ := hb.wellFormed.compile_ok hn ha
  have hord := hb.wellFormed.compile_order hn hc
  refine ⟨order, hc, step_wellFounded, fun s hs => ?_⟩
  have hinv := inv_reachable (fun x hx => hq x ((hord.mem x).1 hx)) hs
  refine ⟨⟨hinv.offered_le, fun x hx d hd => ?_, fun hr x hx => ?_⟩,
    resolved_of_quiescent hinv hord.nodup hord.ordered⟩
  · obtain ⟨hend, hst⟩ := hinv.started hx hd
    exact ⟨⟨_, hend⟩, by rw [hst, finalStatus_terminal]⟩
  · obtain ⟨hend, hst, ho⟩ := hinv.joined hr ((hord.mem x).2 hx)
    exact ⟨by rw [hst, finalStatus_terminal], ho, _, hend⟩

def opName (x : Bool) : String := if x then "b" else "a"

def chained : OpGraph Bool Unit :=
  ⟨[false, true],
    Function.update (Function.update (fun _ => none) "a" (some false)) "b" (some true),
    Function.update (fun _ => []) true [false], [()], [], false⟩

theorem chained_built : chained.Built opName := by
  have h₁ : (OpGraph.empty.addAspect (some ())).Built opName := .addAspect .empty (some ())
  have h₂ := @OpGraph.Built.addOp _ _ _ opName _ _ (some false) "a" h₁ rfl
  have h₃ := @OpGraph.Built.addOp _ _ _ opName _ _ (some true) "b" h₂ rfl
  exact @OpGraph.Built.dependsOn _ _ _ _ _ _ "a" "b" h₃ rfl

theorem chained_acyclic : chained.Acyclic := by
  have hdeps : ∀ x, ∀ d ∈ chained.deps x, x = true ∧ d = false := by decide
  intro x hx
  obtain ⟨d, hd, hrest⟩ := Relation.TransGen.head'_iff.1 hx
  obtain ⟨rfl, rfl⟩ := hdeps x d hd
  obtain h | ⟨e, he, -⟩ := Relation.ReflTransGen.cases_head hrest
  · cases h
  · cases (hdeps false e he).1

-- The one aspect skips `true`, and `execute` throws in `false`.
def picky : Callbacks Bool Unit String where
  shouldSkip := fun _ x => .ok x
  onBefore := fun _ _ => .ok ()
  execute := fun _ => .error "bad"
  onAfter := fun _ _ _ => .ok ()

abbrev ChainedState : Type := State chained.deps 2 Unit String

theorem chained_run : ∃ s : ChainedState,
    (executeAsync picky chained.aspects chained.deps [false, true] ∅).Reachable s ∧
      s.all.out.resolved = true ∧ s.status.status false = .failed ∧
        s.status.status true = .skipped := by
  have h₀ : (executeAsync picky chained.aspects chained.deps [false, true] ∅).Reachable
      (.init ∅ : ChainedState) := System.reachable_initial rfl
  have hfirst : false ∈ [false, true] := .head _
  have hlast : true ∈ [false, true] := .tail _ (.head _)
  have h₁ := h₀.step (.attach false rfl rfl fun i => i.elim0)
  have h₂ := h₁.step (.node true hlast
    (.ready (.attach (0 : Fin 1) rfl fun j hj => absurd hj (Fin.not_lt_zero j))))
  have h₃ := h₂.step (.attach true rfl rfl (Fin.forall_fin_one.2 fun hd => by cases hd))
  have h₄ := h₃.step (.node false hfirst (.resumeValue rfl rfl rfl))
  have h₅ := h₄.step (.node false hfirst (.run rfl rfl))
  have h₆ := h₅.step (.node false hfirst (.run rfl rfl))
  have h₇ := h₆.step (.node false hfirst (.run rfl rfl))
  have h₈ := h₇.step (.node false hfirst (.run rfl rfl))
  have h₉ := h₈.step (.node false hfirst (.run rfl rfl))
  have h₁₀ := h₉.step (.node false hfirst (.run rfl rfl))
  have h₁₁ := h₁₀.step (.node false hfirst (.run rfl rfl))
  have h₁₂ := h₁₁.step (.node false hfirst (.run rfl rfl))
  have h₁₃ := h₁₂.step (.node false hfirst (.next rfl rfl))
  have h₁₄ := h₁₃.step (.node false hfirst (.lock rfl rfl))
  have h₁₅ := h₁₄.step (.node false hfirst (.set rfl rfl))
  have h₁₆ := h₁₅.step (.node true hlast (.ready (.resumeValue (0 : Fin 1) rfl rfl rfl rfl)))
  have h₁₇ := h₁₆.step (.node true hlast (.ready (.store (0 : Fin 1) rfl)))
  have h₁₈ := h₁₇.step (.node true hlast (.ready (.count (0 : Fin 1) rfl)))
  have h₁₉ := h₁₈.step (.node true hlast (.ready (.resolveValue (0 : Fin 1) rfl)))
  have h₂₀ := h₁₉.step (.node true hlast (.ready (.set (0 : Fin 1) rfl)))
  have h₂₁ := h₂₀.step (.node true hlast (.resumeValue rfl rfl rfl))
  have h₂₂ := h₂₁.step (.node true hlast (.run rfl rfl))
  have h₂₃ := h₂₂.step (.node true hlast (.run rfl rfl))
  have h₂₄ := h₂₃.step (.node true hlast (.next rfl rfl))
  have h₂₅ := h₂₄.step (.node true hlast (.lock rfl rfl))
  have h₂₆ := h₂₅.step (.node true hlast (.set rfl rfl))
  have h₂₇ := h₂₆.step (.all rfl (.attach (0 : Fin 2) rfl forall_lt_zero))
  have h₂₈ := h₂₇.step (.all rfl (.attach (1 : Fin 2) rfl (forall_lt_one fun hd => by cases hd)))
  have h₂₉ := h₂₈.step (.all rfl (.resumeValue (0 : Fin 2) rfl rfl rfl rfl))
  have h₃₀ := h₂₉.step (.all rfl (.store (0 : Fin 2) rfl))
  have h₃₁ := h₃₀.step (.all rfl (.count (0 : Fin 2) rfl))
  have h₃₂ := h₃₁.step (.all rfl (.resumeValue (1 : Fin 2) rfl rfl rfl rfl))
  have h₃₃ := h₃₂.step (.all rfl (.store (1 : Fin 2) rfl))
  have h₃₄ := h₃₃.step (.all rfl (.count (1 : Fin 2) rfl))
  have h₃₅ := h₃₄.step (.all rfl (.resolveValue (1 : Fin 2) rfl))
  exact ⟨_, h₃₅, rfl, rfl, rfl⟩

theorem execute_drains_chained : ∃ s : ChainedState,
    (executeAsync picky chained.aspects chained.deps [false, true] ∅).Reachable s ∧
      s.all.out.resolved = true ∧ s.status.status false = .failed ∧
        s.status.status true = .skipped ∧ ∀ x, s.offered x = 1 := by
  obtain ⟨s, hs, hr, hfailed, hskipped⟩ := chained_run
  have hquiet : ∀ x ∈ chained.ops, Quiet picky chained.aspects x := by
    intro x _
    cases x with
    | false => exact .inr ⟨rfl, fun _ _ => ⟨rfl, rfl⟩⟩
    | true => exact .inl rfl
  obtain ⟨order, hc, -, hall⟩ := execute_drains chained_built chained_acyclic (by decide) hquiet ∅
  obtain rfl : [false, true] = order := Except.ok.inj hc
  refine ⟨s, hs, hr, hfailed, hskipped, ?_⟩
  intro x
  have hx : x ∈ chained.ops := by cases x <;> decide
  obtain ⟨-, ho, -⟩ := (hall s hs).1.drained hr x hx
  exact ho

def single (x : Bool) (aspects : List Unit) : OpGraph Bool Unit :=
  ⟨[x], Function.update (fun _ => none) "op" (some x), fun _ => [], aspects, [], false⟩

theorem single_built (x : Bool) : (single x []).Built fun _ => "op" :=
  @OpGraph.Built.addOp _ _ _ _ .empty _ (some x) "op" .empty rfl

def plain (outcome : Except String Unit) : Callbacks Bool Unit String where
  shouldSkip := fun _ _ => .ok false
  onBefore := fun _ _ => .ok ()
  execute := fun _ => outcome
  onAfter := fun _ _ _ => .ok ()

theorem single_node {x : Bool} {cb : Callbacks Bool Unit String} {aspects : List Unit}
    {initial : StatusMap Bool} {s : State (fun _ : Bool => []) 1 Unit String}
    (h : (executeAsync cb aspects (fun _ => []) [x] initial).Reachable s)
    {t : Node 0 Unit String} {st : Option OpStatus}
    (hst : NodeStep cb aspects x (s.outs x) (s.node x) t st) :
    (executeAsync cb aspects (fun _ => []) [x] initial).Reachable (s.setNode x t st) :=
  h.step (.node x (by simp) hst)

theorem single_run (x : Bool) (outcome : Except String Unit) (initial : StatusMap Bool) :
    ∃ s : State (fun _ : Bool => []) 1 Unit String,
      (executeAsync (plain outcome) [] (fun _ => []) [x] initial).Reachable s ∧
        s.all.out.resolved = true ∧
          s.status = (initial.insert x .running).insert x (executeStatus (plain outcome) x) := by
  have h₀ : (executeAsync (plain outcome) [] (fun _ => []) [x] initial).Reachable (.init initial) :=
    System.reachable_initial rfl
  have hnone : ∀ {P : Fin 1 → Prop}, ∀ j < (0 : Fin 1), P j := by
    intro P j hj
    exact absurd hj (Fin.not_lt_zero j)
  cases x
  all_goals
    have h₁ := h₀.step (.attach _ rfl rfl fun i => i.elim0)
    have h₂ := single_node h₁ (.resumeValue rfl rfl rfl)
    have h₃ := single_node h₂ (.run rfl rfl)
    have h₄ := single_node h₃ (.run rfl rfl)
    have h₅ := single_node h₄ (.run rfl rfl)
    have h₆ := single_node h₅ (.run rfl rfl)
    have h₇ := single_node h₆ (.run rfl rfl)
    have h₈ := single_node h₇ (.next rfl rfl)
    have h₉ := single_node h₈ (.lock rfl rfl)
    have h₁₀ := single_node h₉ (.set rfl rfl)
    have h₁₁ := h₁₀.step (.all rfl (.attach (0 : Fin 1) rfl hnone))
    have h₁₂ := h₁₁.step (.all rfl (.resumeValue (0 : Fin 1) rfl rfl rfl rfl))
    have h₁₃ := h₁₂.step (.all rfl (.store (0 : Fin 1) rfl))
    have h₁₄ := h₁₃.step (.all rfl (.count (0 : Fin 1) rfl))
    have h₁₅ := h₁₄.step (.all rfl (.resolveValue (0 : Fin 1) rfl))
    exact ⟨_, h₁₅, rfl, rfl⟩

theorem single_acyclic (x : Bool) (aspects : List Unit) : (single x aspects).Acyclic := by
  intro y hy
  obtain ⟨d, hd, -⟩ := Relation.TransGen.head'_iff.1 hy
  cases hd

def throwing : Callbacks Bool Unit String where
  shouldSkip := fun _ _ => .ok false
  onBefore := fun _ _ => .error "bad"
  execute := fun _ => .ok ()
  onAfter := fun _ _ _ => .ok ()

theorem execute_returns_running :
    (single true [()]).Built (fun _ => "op") ∧ (single true [()]).compile.1 = .ok [true] ∧
      ∃ s : State (fun _ : Bool => []) 1 Unit String,
        (executeAsync throwing [()] (fun _ => []) [true] ∅).Reachable s ∧
          s.all.out.get = some (.error "bad") ∧ s.status.status true = .running := by
  refine ⟨.addAspect (single_built true) (some ()), rfl, ?_⟩
  have h₀ : (executeAsync throwing [()] (fun _ => []) [true] ∅).Reachable
      (.init ∅ : State (fun _ : Bool => []) 1 Unit String) := System.reachable_initial rfl
  have hnone : ∀ {P : Fin 1 → Prop}, ∀ j < (0 : Fin 1), P j := by
    intro P j hj
    exact absurd hj (Fin.not_lt_zero j)
  have h₁ := h₀.step (.attach _ rfl rfl fun i => i.elim0)
  have h₂ := single_node h₁ (.resumeValue rfl rfl rfl)
  have h₃ := single_node h₂ (.run rfl rfl)
  have h₄ := single_node h₃ (.run rfl rfl)
  have h₅ := single_node h₄ (.run rfl rfl)
  have h₆ := single_node h₅ (.run rfl rfl)
  have h₇ := single_node h₆ (.next rfl rfl)
  have h₈ := single_node h₇ (.lock rfl rfl)
  have h₉ := single_node h₈ (.set rfl rfl)
  have h₁₀ := h₉.step (.all rfl (.attach (0 : Fin 1) rfl hnone))
  have h₁₁ := h₁₀.step (.all rfl (.resumeError (0 : Fin 1) rfl rfl rfl))
  have h₁₂ := h₁₁.step (.all rfl (.resolveError (0 : Fin 1) rfl))
  exact ⟨_, h₁₂, rfl, rfl⟩

structure Execution (α β E : Type) where
  graph : OpGraph α β
  cb : Callbacks α β E

namespace Execution

def Returns (c : Execution α β E) (initial final : StatusMap α) : Prop :=
  ∃ order, c.graph.compile.1 = .ok order ∧
    ∃ s : State c.graph.deps order.length β E,
      (executeAsync c.cb c.graph.aspects c.graph.deps order initial).Reachable s ∧
        s.all.out.resolved = true ∧ s.status = final

structure Calm (c : Execution α β E) : Prop where
  built : ∃ name, c.graph.Built name
  nodup : c.graph.ops.Nodup
  quiet : ∀ x ∈ c.graph.ops, Quiet c.cb c.graph.aspects x

def ended (c : Execution α β E) (x : α) : OpStatus := finalStatus c.cb c.graph.aspects x

structure Reported (c : Execution α β E) (m : StatusMap α) : Prop where
  allSucceeded : m.allSucceeded = true ↔ ∀ x ∈ c.graph.ops, (c.ended x).passed = true
  status : ∀ x ∈ c.graph.ops, m.status x = c.ended x
  pending : ∀ x, x ∉ c.graph.ops → m.status x = .pending

end Execution

inductive History : List (Execution α β E) → StatusMap α → Prop
  | start : History [] ∅
  | call {cs m m'} {c : Execution α β E} (h : History cs m) (hc : c.Returns m m') :
      History (cs ++ [c]) m'

theorem allSucceeded_iff {m : StatusMap α} :
    m.allSucceeded = true ↔ ∀ x st, m.lookup x = some st → st.passed = true := by
  rw [StatusMap.allSucceeded, List.all_eq_true]
  constructor
  · intro h x st hx
    exact h ⟨x, st⟩ (AList.mem_lookup_iff.1 hx)
  · rintro h ⟨x, st⟩ hx
    exact h x st (AList.mem_lookup_iff.2 hx)

theorem lookup_of_status {m : StatusMap α} {x : α} (h : m.status x ≠ .pending) :
    m.lookup x = some (m.status x) := by
  unfold StatusMap.status at h ⊢
  cases hx : m.lookup x with
  | none => simp [hx] at h
  | some st => rfl

theorem terminal_ne_pending {st : OpStatus} (h : st.terminal = true) : st ≠ .pending := by
  rintro rfl
  cases h

namespace Execution

variable {c : Execution α β E} {m m' : StatusMap α}

theorem Calm.returns (h : c.Calm) (hr : c.Returns m m') :
    (∀ x ∈ c.graph.ops, m'.lookup x = some (c.ended x)) ∧
      ∀ x, x ∉ c.graph.ops → m'.lookup x = m.lookup x := by
  obtain ⟨name, hb⟩ := h.built
  obtain ⟨order, hc, s, hs, hres, rfl⟩ := hr
  have hord := hb.wellFormed.compile_order h.nodup hc
  have hinv := inv_reachable (fun x hx => h.quiet x ((hord.mem x).1 hx)) hs
  refine ⟨fun x hx => ?_, fun x hx => hinv.keys x fun hx' => hx ((hord.mem x).1 hx')⟩
  obtain ⟨-, hst, -⟩ := hinv.joined hres ((hord.mem x).2 hx)
  have hne : s.status.status x ≠ .pending := by
    rw [hst]
    exact terminal_ne_pending finalStatus_terminal
  rw [lookup_of_status hne, hst]
  rfl

end Execution

theorem History.entries {cs : List (Execution α β E)} {m : StatusMap α} (h : History cs m)
    (hcalm : ∀ c ∈ cs, c.Calm) (x : α) :
    ((∃ c ∈ cs, x ∈ c.graph.ops) → m.status x ≠ .pending) ∧
      ((∀ c ∈ cs, x ∉ c.graph.ops) → m.lookup x = none) := by
  induction h with
  | start => exact ⟨by simp, fun _ => rfl⟩
  | @call cs m m' c _ hc ih =>
    obtain ⟨hin, hout⟩ := (hcalm c (by simp)).returns hc
    obtain ⟨ih₁, ih₂⟩ := ih fun c' hc' => hcalm c' (by simp [hc'])
    refine ⟨?_, fun hno => ?_⟩
    · rintro ⟨c', hc', hx⟩
      by_cases hmem : x ∈ c.graph.ops
      · unfold StatusMap.status
        rw [hin x hmem]
        exact terminal_ne_pending finalStatus_terminal
      · have hc'' : c' ∈ cs := by
          rcases List.mem_append.1 hc' with hc' | hc'
          · exact hc'
          · obtain rfl := List.mem_singleton.1 hc'
            exact absurd hx hmem
        unfold StatusMap.status
        rw [hout x hmem]
        exact ih₁ ⟨c', hc'', hx⟩
    · rw [hout x (hno c (by simp))]
      exact ih₂ fun c' hc' => hno c' (by simp [hc'])

theorem status_reports_last {cs : List (Execution α β E)} {c : Execution α β E}
    {m m' : StatusMap α} (h : History cs m) (hc : c.Returns m m') (hcalm : ∀ c' ∈ cs, c'.Calm)
    (hlast : c.Calm) :
    c.Reported m' ↔ ∀ c' ∈ cs, ∀ x ∈ c'.graph.ops, x ∈ c.graph.ops := by
  obtain ⟨hin, hout⟩ := hlast.returns hc
  constructor
  · intro hrep c' hc' x hx
    by_contra hnot
    have hpend := hrep.pending x hnot
    unfold StatusMap.status at hpend
    rw [hout x hnot] at hpend
    exact (h.entries hcalm x).1 ⟨c', hc', hx⟩ hpend
  · intro hsub
    have hnone : ∀ x, x ∉ c.graph.ops → m'.lookup x = none := by
      intro x hx
      rw [hout x hx]
      exact (h.entries hcalm x).2 fun c' hc' hx' => hx (hsub c' hc' x hx')
    refine ⟨?_, fun x hx => ?_, fun x hx => ?_⟩
    · rw [allSucceeded_iff]
      constructor
      · exact fun hall x hx => hall x _ (hin x hx)
      · intro hall x st hst
        by_cases hx : x ∈ c.graph.ops
        · rw [hin x hx] at hst
          exact Option.some.inj hst ▸ hall x hx
        · rw [hnone x hx] at hst
          cases hst
    · unfold StatusMap.status
      rw [hin x hx]
      rfl
    · unfold StatusMap.status
      rw [hnone x hx]
      rfl

def plainCall (x : Bool) (outcome : Except String Unit) : Execution Bool Unit String :=
  ⟨single x [], plain outcome⟩

theorem plainCall_returns (x : Bool) (outcome : Except String Unit) (m : StatusMap Bool) :
    (plainCall x outcome).Returns m
      ((m.insert x .running).insert x (executeStatus (plain outcome) x)) := by
  obtain ⟨s, hs, hr, hst⟩ := single_run x outcome m
  refine ⟨[x], ?_, s, hs, hr, hst⟩
  cases x <;> rfl

theorem plainCall_calm (x : Bool) (outcome : Except String Unit) : (plainCall x outcome).Calm where
  built := ⟨_, single_built x⟩
  nodup := by simp [plainCall, single]
  quiet := fun y _ => .inr ⟨rfl, by simp [plainCall, single]⟩

theorem status_reports_last_repeated :
    History [plainCall true (.error "bad")]
      (((∅ : StatusMap Bool).insert true .running).insert true .failed) ∧
    (plainCall true (.ok ())).Reported
      (((((∅ : StatusMap Bool).insert true .running).insert true .failed).insert true
        .running).insert true .success) := by
  have h : History [plainCall true (.error "bad")]
      (((∅ : StatusMap Bool).insert true .running).insert true .failed) :=
    .call .start (plainCall_returns true (.error "bad") ∅)
  refine ⟨h, (status_reports_last h (plainCall_returns true (.ok ()) _) ?_
    (plainCall_calm true _)).2 ?_⟩
  · simp [plainCall_calm]
  · simp [plainCall, single]

theorem status_keeps_earlier :
    ∃ m, History [plainCall true (.error "bad"), plainCall false (.ok ())] m ∧
      m.allSucceeded = false ∧ (plainCall false (.ok ())).ended false = .success ∧
        m.status true = .failed := by
  have h₁ : History [plainCall true (.error "bad")] _ :=
    .call .start (plainCall_returns true (.error "bad") ∅)
  exact ⟨_, .call h₁ (plainCall_returns false (.ok ()) _), rfl, rfl, rfl⟩

end OpExecutor

end Lark.Dag
