import TreePatch.Operation.Vocabulary
import TreePatch.Value.Equality

set_option autoImplicit false

/-!
# Operations

An operation is kept as it was written: the word for its verb, which need not be
one, and up to three members, each of which may be absent. Whether it can be run is
decided when it is (`Operation.command`). The functions named for the verbs build
operations that can.
-/

namespace TreePatch

/-- An operation as written. -/
structure Operation where
  /-- The word for the verb. -/
  op : Text
  /-- Where the verb acts. -/
  path : Option Text := none
  /-- Where a moved or copied value comes from. -/
  source : Option Text := none
  /-- The value to insert or to compare with. Null is a value. -/
  value : Option Value := none
deriving DecidableEq

namespace Operation

/-- The verb, if the word is one. -/
def verb? (o : Operation) : Option Verb := Verb.ofText? o.op

/-- Insert a value. -/
def add (path : Text) (value : Value) : Operation :=
  { op := Verb.add.name, path := some path, value := some value }

/-- Take a value out. -/
def remove (path : Text) : Operation := { op := Verb.remove.name, path := some path }

/-- Overwrite a value. -/
def replace (path : Text) (value : Value) : Operation :=
  { op := Verb.replace.name, path := some path, value := some value }

/-- Move a value. -/
def move (source path : Text) : Operation :=
  { op := Verb.move.name, path := some path, source := some source }

/-- Copy a value. -/
def copy (source path : Text) : Operation :=
  { op := Verb.copy.name, path := some path, source := some source }

/-- Compare a value. -/
def test (path : Text) (value : Value) : Operation :=
  { op := Verb.test.name, path := some path, value := some value }

/-- Equality of operations: the texts are the same and the values deeply equal. -/
def equals (a b : Operation) : Bool :=
  a.op == b.op && a.path == b.path && a.source == b.source &&
    match a.value, b.value with
    | none, none => true
    | some v, some w => v.equals w
    | _, _ => false

end Operation

end TreePatch
