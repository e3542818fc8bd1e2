import Lark.Base.Splitting

namespace Lark.Toolkit.Str

open Lark.Base

def split (s delim : String) (skipEmpty : Bool) : List String :=
  let parts := (splitAround delim.toList s.toList).map String.ofList
  if skipEmpty ∧ delim ≠ "" then parts.filter (· ≠ "") else parts

def join (parts : List String) (sep : String) : String := sep.intercalate parts

def contains (s needle : String) : Bool := decide (needle.toList <:+: s.toList)

def endsWith (s suffix : String) : Bool := decide (suffix.toList <:+ s.toList)

variable {delim : String}

theorem toList_ne_nil (hne : delim ≠ "") : delim.toList ≠ [] := by
  simpa using hne

theorem map_toList_split (s delim : String) :
    (split s delim false).map String.toList = splitAround delim.toList s.toList := by
  simp [split, Function.comp_def]

theorem join_split (hne : delim ≠ "") (s : String) : join (split s delim false) delim = s := by
  apply String.toList_injective
  rw [join, String.toList_intercalate, map_toList_split,
    intercalate_splitAround (toList_ne_nil hne)]

theorem split_join (hne : delim ≠ "") {parts : List String} {last : String}
    (hclear : ∀ x ∈ parts, Clear delim.toList x.toList) (hlast : contains last delim = false) :
    split (join (parts ++ [last]) delim) delim false = parts ++ [last] := by
  apply List.map_injective_iff.2 fun _ _ h => String.toList_injective h
  rw [map_toList_split, join, String.toList_intercalate, List.map_append]
  apply splitAround_intercalate (toList_ne_nil hne)
  · simpa using hclear
  · simpa [contains] using hlast

theorem clear_of_mem_split (hne : delim ≠ "") (s : String) :
    ∀ x ∈ (split s delim false).dropLast, Clear delim.toList x.toList := by
  intro x hx
  apply clear_of_mem_splitAround (toList_ne_nil hne) s.toList
  rw [← map_toList_split, ← List.map_dropLast]
  exact List.mem_map_of_mem hx

end Lark.Toolkit.Str
