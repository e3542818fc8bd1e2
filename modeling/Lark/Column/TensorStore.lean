import Lark.Column.Tensor

namespace Lark.Column

structure TensorStore where
  find : String → Option Tensor
  order : List String

namespace TensorStore

def empty : TensorStore := ⟨fun _ => none, []⟩

def set (s : TensorStore) (name : String) (tensor : Tensor) : TensorStore where
  find := Function.update s.find name (some tensor)
  order := if (s.find name).isSome then s.order else s.order ++ [name]

def ensureName (s : TensorStore) (name : String) : TensorStore :=
  if (s.find name).isSome then s else s.set name .empty

def ensureNames (s : TensorStore) (names : List String) : TensorStore := names.foldl ensureName s

variable (s : TensorStore) (name : String) (tensor : Tensor)

@[simp] theorem set_find_self : (s.set name tensor).find name = some tensor := by
  simp [set]

@[simp] theorem set_find_of_ne {other : String} (h : other ≠ name) :
    (s.set name tensor).find other = s.find other := by
  simp [set, h]

end TensorStore

end Lark.Column
