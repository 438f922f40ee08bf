import TreePatch.Label

set_option autoImplicit false

/-!
# Kinds of fault

A fault has one of nine kinds, which is what a caller is meant to tell apart. The
position of a kind in `Labelled.members` is its number.
-/

namespace TreePatch.Fault

/-- The kind of a fault. -/
inductive Kind where
  /-- An expression is no path, or a path is used where its form is not allowed. -/
  | invalidPath
  /-- A member that the operation needs is absent. -/
  | missingRequiredField
  /-- The operation's verb is none of the six. -/
  | unsupportedOperation
  /-- The addressed value, or the place it should go, does not exist. -/
  | targetNotFound
  /-- A name used on something other than an object, or a position on something
  other than an array. -/
  | invalidPathSegment
  /-- An insertion behind the end of an array. -/
  | indexOutOfBounds
  /-- An insertion into an array at something other than a position. -/
  | invalidIndex
  /-- A compared value differs from the expected one. -/
  | testFailed
  /-- A value is not shaped like a list of operations. -/
  | invalidPatch
deriving DecidableEq, Repr

/-- The name of a kind, as reports cite it. -/
def Kind.name : Kind → Text
  | .invalidPath => utf8 "invalid_path"
  | .missingRequiredField => utf8 "missing_required_field"
  | .unsupportedOperation => utf8 "unsupported_operation"
  | .targetNotFound => utf8 "target_not_found"
  | .invalidPathSegment => utf8 "invalid_path_segment"
  | .indexOutOfBounds => utf8 "index_out_of_bounds"
  | .invalidIndex => utf8 "invalid_index"
  | .testFailed => utf8 "test_failed"
  | .invalidPatch => utf8 "invalid_patch"

instance : Labelled Kind where
  members :=
    [.invalidPath, .missingRequiredField, .unsupportedOperation, .targetNotFound,
      .invalidPathSegment, .indexOutOfBounds, .invalidIndex, .testFailed, .invalidPatch]
  label := Kind.name
  complete := by intro k; cases k <;> decide

/-- The number of a kind: its position among the kinds. -/
def Kind.number : Kind → Nat
  | .invalidPath => 0
  | .missingRequiredField => 1
  | .unsupportedOperation => 2
  | .targetNotFound => 3
  | .invalidPathSegment => 4
  | .indexOutOfBounds => 5
  | .invalidIndex => 6
  | .testFailed => 7
  | .invalidPatch => 8

/-- The number of a kind leads back to its name. -/
theorem Kind.labelAt_number (k : Kind) : Labelled.labelAt Kind k.number = k.name := by
  cases k <;> decide

end TreePatch.Fault
