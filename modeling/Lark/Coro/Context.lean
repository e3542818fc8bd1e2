import Lark.Base.Exn
import Lark.Base.KeyedHistory

namespace Lark.Coro

open Lark.Base

variable {τ : Type} [DecidableEq τ] {val : τ → Type}

-- The object behind a shared_ptr<void>: the type it was made with, and its value.
abbrev Object (val : τ → Type) : Type := Σ T, val T

def staticPointerCast (T : τ) (p : Object val) : Except Exn (val T) :=
  if h : p.1 = T then .ok (h ▸ p.2) else .error (.undefined "static_pointer_cast")

theorem staticPointerCast_self (p : Object val) : staticPointerCast p.1 p = .ok p.2 :=
  dif_pos rfl

theorem staticPointerCast_of_ne {T : τ} {p : Object val} (h : p.1 ≠ T) :
    staticPointerCast T p = .error (.undefined "static_pointer_cast") :=
  dif_neg h

structure Field (val : τ → Type) where
  value : Object val
  type : τ

structure Context (val : τ → Type) where
  fields : AList fun _ : String => Field val

namespace Context

def empty : Context val := ⟨∅⟩

def set (c : Context val) (key : String) {T : τ} (value : val T) : Context val :=
  ⟨c.fields.insert key ⟨⟨T, value⟩, T⟩⟩

-- The type tag of the field is not looked at.
def get (c : Context val) (key : String) (T : τ) : Except Exn (val T) :=
  match c.fields.lookup key with
  | none => .error (.outOfRange ("Context: missing field '" ++ key ++ "'"))
  | some field => staticPointerCast T field.value

def has (c : Context val) (key : String) (T : τ) : Bool :=
  match c.fields.lookup key with
  | none => false
  | some field => field.type = T

def erase (c : Context val) (key : String) : Context val := ⟨c.fields.erase key⟩

def step (c : Context val) : KeyedOp String (Object val) → Context val
  | .set key ⟨_, value⟩ => c.set key value
  | .erase key => c.erase key

def run (ops : List (KeyedOp String (Object val))) : Context val := ops.foldl step empty

omit [DecidableEq τ] in
theorem fields_run (ops : List (KeyedOp String (Object val))) (key : String) :
    (run ops).fields.lookup key = (KeyedOp.latest ops key).map fun p => ⟨p, p.1⟩ := by
  have hfields : ∀ c : Context val, (ops.foldl step c).fields =
      ops.foldl (KeyedOp.store fun p => ⟨p, p.1⟩) c.fields := by
    induction ops with
    | nil => exact fun _ => rfl
    | cons op ops ih =>
      intro c
      rw [List.foldl_cons, List.foldl_cons, ih]
      cases op <;> rfl
  rw [run, hfields]
  exact KeyedOp.lookup_replay _ ops key

end Context

end Lark.Coro
