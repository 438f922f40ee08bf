import TreePatch.Fault.Cause

set_option autoImplicit false

/-!
# Faults and reports

A `Fault` is a cause together with the expression it concerns and, while a patch
runs, the word of the operation that failed. A `Report` is what is told about it:
the kind by its number, the message and the two texts. Two faults with one report
cannot be told apart from outside.
-/

namespace TreePatch

/-- A failure: what went wrong, at which expression, under which operation. The
last two are empty where there is none. -/
structure Fault where
  cause : Cause
  path : Text := []
  op : Text := []
deriving DecidableEq, Repr

/-- What is told about a failure. -/
structure Report where
  /-- The kind by its number. Numbers beyond the kinds are named `unknown`. -/
  number : Nat
  message : Text
  path : Text
  op : Text
deriving DecidableEq, Repr

namespace Report

/-- The name of the kind. -/
def kindName (r : Report) : Text := Labelled.labelAt Fault.Kind r.number

/-- The report in one line. The texts in parentheses are left out where empty. -/
def describe (r : Report) : Text :=
  let op := if r.op.isEmpty then [] else [utf8 "op " ++ r.op.quoted]
  let path := if r.path.isEmpty then [] else [utf8 "path " ++ r.path.quoted]
  let context := (utf8 ", ").intercalate (op ++ path)
  r.kindName ++ utf8 ": " ++ r.message ++
    if context.isEmpty then [] else utf8 " (" ++ context ++ utf8 ")"

end Report

namespace Fault

/-- The kind of a fault. -/
def kind (f : Fault) : Kind := f.cause.kind

/-- The wording of a fault. -/
def message (f : Fault) : Text := f.cause.message

/-- The report of a fault. -/
def report (f : Fault) : Report := ⟨f.kind.number, f.message, f.path, f.op⟩

/-- The same fault under an operation. -/
def under (op : Text) (f : Fault) : Fault := { f with op := op }

end Fault

end TreePatch
