import Mathlib.Data.List.AList
import Mathlib.Data.List.Induction

namespace Lark.Base

inductive KeyedOp (κ α : Type*) where
  | set (k : κ) (a : α)
  | erase (k : κ)
  deriving DecidableEq

namespace KeyedOp

variable {κ α β : Type*}

def key : KeyedOp κ α → κ
  | set k _ => k
  | erase k => k

def written : KeyedOp κ α → Option α
  | set _ a => some a
  | erase _ => none

variable [DecidableEq κ]

def latest (ops : List (KeyedOp κ α)) (k : κ) : Option α :=
  (ops.filter (·.key = k)).getLast?.bind written

def store (f : α → β) (m : AList fun _ : κ => β) : KeyedOp κ α → AList fun _ : κ => β
  | set k a => m.insert k (f a)
  | erase k => m.erase k

theorem latest_concat (ops : List (KeyedOp κ α)) (op : KeyedOp κ α) (k : κ) :
    latest (ops ++ [op]) k = if op.key = k then op.written else latest ops k := by
  by_cases hop : op.key = k <;> simp [latest, List.filter_append, hop]

theorem lookup_store (f : α → β) (m : AList fun _ : κ => β) (op : KeyedOp κ α) (k : κ) :
    (store f m op).lookup k = if op.key = k then op.written.map f else m.lookup k := by
  cases op with
  | set j a =>
    rw [store, key]
    split_ifs with hj
    · rw [hj, AList.lookup_insert]
      rfl
    · rw [AList.lookup_insert_ne (Ne.symm hj)]
  | erase j =>
    rw [store, key]
    split_ifs with hj
    · rw [hj, AList.lookup_erase]
      rfl
    · rw [AList.lookup_erase_ne (Ne.symm hj)]

theorem lookup_replay (f : α → β) (ops : List (KeyedOp κ α)) (k : κ) :
    (ops.foldl (store f) ∅).lookup k = (latest ops k).map f := by
  induction ops using List.reverseRecOn with
  | nil => rfl
  | append_singleton ops op ih =>
    rw [List.foldl_append, List.foldl_cons, List.foldl_nil, lookup_store, latest_concat, ih]
    split_ifs <;> rfl

end KeyedOp

end Lark.Base
