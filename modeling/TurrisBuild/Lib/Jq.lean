import Mathlib.Data.List.Sort
import Mathlib.Data.String.Basic

/-!
# Values of `jq`

The fragment of JSON made of objects and of arrays of strings, with the operators
of `jq` that accumulate and normalise such values. An error of a filter is `none`.
-/

namespace Jq

/-- An array of strings, or an object with its members in their order. -/
inductive Value
  | strings (items : List String)
  | object (members : List (String × Value))

/-- The members with a new value for a key, at its place or at the end. -/
def setMember (key : String) (value : Value) :
    List (String × Value) → List (String × Value)
  | [] => [(key, value)]
  | (k, v) :: members =>
    if k = key then (k, value) :: members else (k, v) :: setMember key value members

mutual

/-- `$left * $right` on two objects, member by member. Where one of the values
is not an object, the right one replaces the left one. -/
def merge : Value → Value → Value
  | .object left, .object right => .object (mergeMembers left right)
  | .object _, .strings items => .strings items
  | .strings _, right => right

@[inherit_doc merge]
def mergeMembers (left : List (String × Value)) :
    List (String × Value) → List (String × Value)
  | [] => left
  | (key, value) :: right =>
    match left.lookup key with
    | some old => mergeMembers (setMember key (merge old value) left) right
    | none => mergeMembers (setMember key value left) right

end

/-- `sort` is an error on everything but arrays. -/
def sort : Value → Option Value
  | .strings items => some (.strings (items.insertionSort (· ≤ ·)))
  | .object _ => none

/-- `map_values` on the members of an object. -/
def mapValues (f : Value → Option Value) (members : List (String × Value)) :
    Option (List (String × Value)) :=
  members.mapM fun member => (f member.2).map fun value => (member.1, value)

end Jq
