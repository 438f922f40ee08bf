import TreePatch.Text.Basic

set_option autoImplicit false

/-!
# Labels: the names of a closed set of cases

Several types of this library are closed sets of cases that are known outside by
a name and by a position: kinds of value, kinds of fault, verbs, forms of a path.
`Labelled` says what both are. A position beyond the last case has the label
`unknown`.
-/

namespace TreePatch

/-- A finite type whose members are listed in a fixed order and carry names. -/
class Labelled (α : Type) where
  /-- Every member, in order. -/
  members : List α
  /-- The name of a member. -/
  label : α → Text
  /-- The list leaves no member out. -/
  complete : ∀ a, a ∈ members

namespace Labelled

variable {α : Type} [Labelled α]

/-- The name of the member at a position. -/
def labelAt (α : Type) [Labelled α] (position : Nat) : Text :=
  ((members (α := α))[position]?.map label).getD (utf8 "unknown")

/-- The first member with a name. -/
def ofLabel? (t : Text) : Option α := members.find? fun a => label a == t

end Labelled

end TreePatch
