import TreePatch.Fault.Basic
import TreePatch.Operation.Basic

set_option autoImplicit false

/-!
# Commands: operations that can be run

A command is an operation whose word is a verb and which has every member that the
verb needs. `Operation.command` finds the command or the first thing that is
missing: the verb, then `path`, then `value` or `from`. Members that the verb does
not need are ignored. The fault cites the operation's path, if it has one.
-/

namespace TreePatch

/-- An operation with exactly the members its verb needs. -/
inductive Command where
  /-- Insert a value at every place. -/
  | add (path : Text) (value : Value)
  /-- Take out the value at every place. -/
  | remove (path : Text)
  /-- Overwrite the value at every place. -/
  | replace (path : Text) (value : Value)
  /-- Take out the value at every source and insert it at every place. -/
  | move (source path : Text)
  /-- Insert the value of every source at every place. -/
  | copy (source path : Text)
  /-- Compare the value at every place. -/
  | test (path : Text) (value : Value)
deriving DecidableEq

namespace Operation

/-- The fault for an operation that cannot be run. -/
def refuse {α : Type} (o : Operation) (cause : Cause) : Except Fault α :=
  .error { cause := cause, path := o.path.getD [] }

/-- A member that the operation needs. -/
def require {α : Type} (o : Operation) (field : Field) (member : Option α) :
    Except Fault α :=
  match member with
  | some a => .ok a
  | none => o.refuse (.missingField o.op field)

/-- The command that the operation stands for. -/
def command (o : Operation) : Except Fault Command :=
  match o.verb? with
  | none => o.refuse (.unknownVerb o.op)
  | some verb =>
      (o.require .path o.path).bind fun path =>
        match verb with
        | .add => (o.require .value o.value).map (.add path)
        | .remove => .ok (.remove path)
        | .replace => (o.require .value o.value).map (.replace path)
        | .move => (o.require .source o.source).map (.move · path)
        | .copy => (o.require .source o.source).map (.copy · path)
        | .test => (o.require .value o.value).map (.test path)

end Operation

end TreePatch
