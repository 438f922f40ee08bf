import TreePatch.Label

set_option autoImplicit false

/-!
# The vocabulary of operations

An operation is written as an object. Its `op` member names one of six verbs, and
up to three further members say where the verb acts and with what. This module
holds the six verbs, the four members and which members a verb needs.
-/

namespace TreePatch

/-- What an operation does. -/
inductive Verb where
  /-- Insert a value. -/
  | add
  /-- Take a value out. -/
  | remove
  /-- Overwrite a value that is there. -/
  | replace
  /-- Take a value out and insert it elsewhere. -/
  | move
  /-- Insert a value again elsewhere. -/
  | copy
  /-- Compare a value with an expected one. -/
  | test
deriving DecidableEq, Repr

namespace Verb

/-- The word for a verb in an operation. -/
def name : Verb → Text
  | .add => utf8 "add"
  | .remove => utf8 "remove"
  | .replace => utf8 "replace"
  | .move => utf8 "move"
  | .copy => utf8 "copy"
  | .test => utf8 "test"

instance : Labelled Verb where
  members := [.add, .remove, .replace, .move, .copy, .test]
  label := name
  complete := by intro v; cases v <;> decide

/-- The verb that a word names. -/
def ofText? (t : Text) : Option Verb := Labelled.ofLabel? t

/-- A word names a verb exactly when it is that verb's name. -/
theorem ofText?_eq_some_iff {t : Text} {v : Verb} : ofText? t = some v ↔ t = v.name := by
  constructor
  · intro h
    have := List.find?_some h
    exact (beq_iff_eq.1 this).symm
  · rintro rfl
    cases v <;> decide

end Verb

/-- The members of an operation that have a meaning. -/
inductive Field where
  /-- The verb. -/
  | op
  /-- Where the verb acts. -/
  | path
  /-- Where a moved or copied value comes from. -/
  | source
  /-- The value to insert or to compare with. -/
  | value
deriving DecidableEq, Repr

/-- The name of the member. -/
def Field.name : Field → Text
  | .op => utf8 "op"
  | .path => utf8 "path"
  | .source => utf8 "from"
  | .value => utf8 "value"

end TreePatch
