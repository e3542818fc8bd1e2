import Lark.Coro.Context

namespace Lark.Dag

open Lark.Base Lark.Coro

variable {τ : Type} [DecidableEq τ] {val : τ → Type}

structure Entry (val : τ → Type) where
  type : τ
  value : Object val

structure DefaultContext (val : τ → Type) where
  data : AList fun _ : String => Entry val

namespace DefaultContext

def empty : DefaultContext val := ⟨∅⟩

def setVoid (c : DefaultContext val) (key : String) (value : Object val) (type : τ) :
    DefaultContext val :=
  ⟨c.data.insert key ⟨type, value⟩⟩

def getVoid (c : DefaultContext val) (key : String) (type : τ) : Option (Object val) :=
  match c.data.lookup key with
  | none => none
  | some entry => if entry.type ≠ type then none else some entry.value

def hasVoid (c : DefaultContext val) (key : String) (type : τ) : Bool :=
  match c.data.lookup key with
  | none => false
  | some entry => entry.type = type

def erase (c : DefaultContext val) (key : String) : DefaultContext val := ⟨c.data.erase key⟩

def set (c : DefaultContext val) (key : String) {T : τ} (value : val T) : DefaultContext val :=
  c.setVoid key ⟨T, value⟩ T

def get (c : DefaultContext val) (key : String) (T : τ) : Except Exn (val T) :=
  match c.getVoid key T with
  | some p => staticPointerCast T p
  | none => .error (.outOfRange ("IContext::Get: missing key '" ++ key ++ "'"))

def has (c : DefaultContext val) (key : String) (T : τ) : Bool := c.hasVoid key T

def step (c : DefaultContext val) : KeyedOp String (Object val) → DefaultContext val
  | .set key ⟨_, value⟩ => c.set key value
  | .erase key => c.erase key

def run (ops : List (KeyedOp String (Object val))) : DefaultContext val := ops.foldl step empty

omit [DecidableEq τ] in
theorem data_run (ops : List (KeyedOp String (Object val))) (key : String) :
    (run ops).data.lookup key = (KeyedOp.latest ops key).map fun p => ⟨p.1, p⟩ := by
  have hdata : ∀ c : DefaultContext val, (ops.foldl step c).data =
      ops.foldl (KeyedOp.store fun p => ⟨p.1, p⟩) c.data := by
    induction ops with
    | nil => exact fun _ => rfl
    | cons op ops ih =>
      intro c
      rw [List.foldl_cons, List.foldl_cons, ih]
      cases op <;> rfl
  rw [run, hdata]
  exact KeyedOp.lookup_replay _ ops key

end DefaultContext

structure Fetches (held : Option (Object val)) (T : τ) (r : Except Exn (val T)) : Prop where
  ok : ∀ v, r = .ok v ↔ held = some ⟨T, v⟩
  throws : (∀ v, held ≠ some ⟨T, v⟩) → ∃ what, r = .error (.outOfRange what)

structure Agree (ops : List (KeyedOp String (Object val))) (key : String) (T : τ) : Prop where
  has : (Context.run ops).has key T = (DefaultContext.run ops).has key T
  context : Fetches (KeyedOp.latest ops key) T ((Context.run ops).get key T)
  default : Fetches (KeyedOp.latest ops key) T ((DefaultContext.run ops).get key T)
  succeeds : ((∃ v, (Context.run ops).get key T = .ok v) ↔ (Context.run ops).has key T) ∧
    ((∃ v, (DefaultContext.run ops).get key T = .ok v) ↔ (DefaultContext.run ops).has key T)

section Runs

variable {ops : List (KeyedOp String (Object val))} {key : String} {T : τ}

omit [DecidableEq τ] in
theorem fetches_none (key : String) : Fetches (none : Option (Object val)) T
    (.error (.outOfRange key)) :=
  ⟨by simp, fun _ => ⟨key, rfl⟩⟩

omit [DecidableEq τ] in
theorem fetches_self (v : val T) : Fetches (some ⟨T, v⟩) T (.ok v) :=
  ⟨by simp, fun h => absurd rfl (h v)⟩

omit [DecidableEq τ] in
theorem fetches_of_ne {p : Object val} (h : p.1 ≠ T) (what : String) :
    Fetches (some p) T (.error (.outOfRange what)) := by
  refine ⟨?_, fun _ => ⟨what, rfl⟩⟩
  intro v
  simp only [reduceCtorEq, false_iff]
  intro heq
  exact h (congrArg Sigma.fst (Option.some.inj heq))

theorem has_context : (Context.run ops).has key T =
    ((KeyedOp.latest ops key).map fun p => decide (p.1 = T)).getD false := by
  rw [Context.has, Context.fields_run]
  cases KeyedOp.latest ops key <;> rfl

theorem has_default : (DefaultContext.run ops).has key T =
    ((KeyedOp.latest ops key).map fun p => decide (p.1 = T)).getD false := by
  rw [DefaultContext.has, DefaultContext.hasVoid, DefaultContext.data_run]
  cases KeyedOp.latest ops key <;> rfl

theorem get_default : Fetches (KeyedOp.latest ops key) T ((DefaultContext.run ops).get key T) := by
  rw [DefaultContext.get, DefaultContext.getVoid, DefaultContext.data_run]
  cases KeyedOp.latest ops key with
  | none => exact fetches_none _
  | some p =>
    rcases eq_or_ne p.1 T with rfl | hne
    · simp only [Option.map_some, ne_eq, not_true_eq_false, if_false, staticPointerCast_self]
      exact fetches_self p.2
    · simp only [Option.map_some, hne, ne_eq, not_false_eq_true, if_true]
      exact fetches_of_ne hne _

theorem get_context (h : ∀ p, KeyedOp.latest ops key = some p → p.1 = T) :
    Fetches (KeyedOp.latest ops key) T ((Context.run ops).get key T) := by
  rw [Context.get, Context.fields_run]
  cases hp : KeyedOp.latest ops key with
  | none => exact fetches_none _
  | some p =>
    obtain rfl := h p hp
    simp only [Option.map_some, staticPointerCast_self]
    exact fetches_self p.2

theorem get_context_of_ne {p : Object val} (hp : KeyedOp.latest ops key = some p) (hne : p.1 ≠ T) :
    (Context.run ops).get key T = .error (.undefined "static_pointer_cast") := by
  rw [Context.get, Context.fields_run, hp]
  exact staticPointerCast_of_ne hne

theorem Fetches.succeeds_iff {held : Option (Object val)} {r : Except Exn (val T)}
    (h : Fetches held T r) :
    (∃ v, r = .ok v) ↔ (held.map fun p => decide (p.1 = T)).getD false = true := by
  simp only [h.ok]
  cases held with
  | none => simp
  | some p =>
    simp only [Option.some.injEq, Option.map_some, Option.getD_some, decide_eq_true_eq]
    constructor
    · rintro ⟨v, rfl⟩
      rfl
    · rintro rfl
      exact ⟨p.2, rfl⟩

theorem contexts_agree_iff (ops : List (KeyedOp String (Object val))) (key : String) (T : τ) :
    Agree ops key T ↔ ∀ p, KeyedOp.latest ops key = some p → p.1 = T := by
  constructor
  · intro h p hp
    by_contra hne
    obtain ⟨what, hwhat⟩ := h.context.throws (by
      intro v hv
      exact hne (congrArg Sigma.fst (Option.some.inj (hp.symm.trans hv))))
    rw [get_context_of_ne hp hne] at hwhat
    cases hwhat
  · intro h
    refine ⟨has_context.trans has_default.symm, get_context h, get_default, ?_, ?_⟩
    · rw [has_context, (get_context h).succeeds_iff]
    · rw [has_default, get_default.succeeds_iff]

end Runs

inductive Kind where
  | int
  | string
  deriving DecidableEq

def Kind.carrier : Kind → Type
  | int => Int
  | string => String

def overwritten : List (KeyedOp String (Object Kind.carrier)) :=
  [.set "x" ⟨.string, "seven"⟩, .set "x" ⟨.int, (7 : Int)⟩]

-- "x" is read as a string after an int was set there: only one of the two bags notices.
theorem contexts_disagree : (Context.run overwritten).has "x" .string = false ∧
    (Context.run overwritten).get "x" .string = .error (.undefined "static_pointer_cast") ∧
    (DefaultContext.run overwritten).get "x" .string =
      .error (.outOfRange "IContext::Get: missing key 'x'") ∧
    ¬ Agree overwritten "x" .string := by
  have hlatest : KeyedOp.latest overwritten "x" = some ⟨.int, (7 : Int)⟩ := by rfl
  have hget : (Context.run overwritten).get "x" .string =
      .error (.undefined "static_pointer_cast") :=
    get_context_of_ne hlatest (by decide)
  refine ⟨by rfl, hget, by rfl, fun h => ?_⟩
  obtain ⟨what, hwhat⟩ := h.context.throws (by
    intro v hv
    rw [hlatest] at hv
    cases congrArg Sigma.fst (Option.some.inj hv))
  rw [hget] at hwhat
  cases hwhat

end Lark.Dag
