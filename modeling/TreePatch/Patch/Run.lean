import TreePatch.Operation.Command
import TreePatch.Patch.Outcome
import TreePatch.Path.Expansion
import TreePatch.Value.Edit

set_option autoImplicit false

/-!
# Running operations on a document

A command first expands its expressions, the source before the path and both
against the document as it is, and then works through the places in order. Each
place is worked on in the document that the places before it have left, and the
first that fails ends the run.

* `add`, `remove` and `replace` edit every place.
* `test` compares the value at every place with the expected one and changes nothing.
* `move` and `copy` go through the sources; the value of each is inserted at every
  place, after `move` has taken it out. A value is never moved below itself.

`Operation.apply` runs an operation and cites its word in the fault. `Patch.apply`
runs a list. The variants that answer `Except Fault Value` run on a copy, so a
failed run leaves nothing.
-/

namespace TreePatch

namespace Command

/-! ## The places of a command -/

/-- Insert a value at every place. -/
def addAll (value : Value) (places : List Path) (doc : Value) : Outcome :=
  Outcome.forEach (fun doc p => .ofExcept doc (doc.add p value)) doc places

/-- Take out the value at every place. -/
def removeAll (places : List Path) (doc : Value) : Outcome :=
  Outcome.forEach (fun doc p => .ofExcept doc (doc.remove p)) doc places

/-- Overwrite the value at every place. -/
def replaceAll (value : Value) (places : List Path) (doc : Value) : Outcome :=
  Outcome.forEach (fun doc p => .ofExcept doc (doc.replace p value)) doc places

/-- Compare the value at a place with the expected one. -/
def check (expected : Value) (doc : Value) (p : Path) : Except Fault Unit :=
  match doc.follow p.segments with
  | .error m => .error (p.fault (.nothing .test m))
  | .ok actual => if actual.equals expected then .ok () else .error (p.fault .differs)

/-- Compare the value at every place. -/
def checkAll (expected : Value) (places : List Path) (doc : Value) : Outcome :=
  Outcome.forEach (fun doc p => .ofExcept doc ((check expected doc p).map fun _ => doc)) doc
    places

/-- The value of a source. -/
def fetch (doc : Value) (source : Path) : Except Fault Value :=
  (doc.follow source.segments).mapError fun m => source.fault (.nothing .source m)

/-- Insert the value of a source at every place. -/
def copyTo (places : List Path) (doc : Value) (source : Path) : Outcome :=
  match fetch doc source with
  | .error fault => .failed doc fault
  | .ok value => addAll value places doc

/-- Does a path lead to a place strictly below another? -/
def isBelow (source target : Path) : Bool :=
  decide (source.size < target.size) && target.startsWith source

/-- Take a source out and insert its value at every place, none of which may lie
strictly below the source. -/
def moveTo (places : List Path) (doc : Value) (source : Path) : Outcome :=
  match fetch doc source with
  | .error fault => .failed doc fault
  | .ok value =>
      match places.find? (isBelow source) with
      | some target => .failed doc (target.fault .intoItself)
      | none => (Outcome.ofExcept doc (doc.remove source)).andThen (addAll value places)

/-! ## Commands -/

/-- Expand an expression and go on with its places. -/
def withPlaces (doc : Value) (expression : Text) (next : List Path → Outcome) : Outcome :=
  match Path.expandPath doc expression with
  | .error fault => .failed doc fault
  | .ok places => next places

/-- Run a command. -/
def run (doc : Value) : Command → Outcome
  | .add path value => withPlaces doc path fun places => addAll value places doc
  | .remove path => withPlaces doc path fun places => removeAll places doc
  | .replace path value => withPlaces doc path fun places => replaceAll value places doc
  | .move source path =>
      withPlaces doc source fun sources =>
        withPlaces doc path fun places => Outcome.forEach (moveTo places) doc sources
  | .copy source path =>
      withPlaces doc source fun sources =>
        withPlaces doc path fun places => Outcome.forEach (copyTo places) doc sources
  | .test path value => withPlaces doc path fun places => checkAll value places doc

end Command

namespace Operation

/-- Run an operation on a document, which keeps what was done before a failure. -/
def apply (doc : Value) (o : Operation) : Outcome :=
  match o.command with
  | .error fault => (Outcome.failed doc fault).under o.op
  | .ok command => (command.run doc).under o.op

/-- The document after an operation. -/
def applied (doc : Value) (o : Operation) : Except Fault Value := (o.apply doc).result

end Operation

namespace Patch

/-- Run a list of operations on a document, which keeps what was done before a
failure. -/
def apply (doc : Value) (operations : List Operation) : Outcome :=
  Outcome.forEach (fun doc o => o.apply doc) doc operations

/-- The document after a list of operations. -/
def applied (doc : Value) (operations : List Operation) : Except Fault Value :=
  (apply doc operations).result

/-- The document after a list of operations, and nothing if either is absent. -/
def applied? (doc : Option Value) (operations : Option (List Operation)) :
    Except Fault (Option Value) :=
  match doc, operations with
  | some doc, some operations => (applied doc operations).map some
  | _, _ => .ok none

end Patch

end TreePatch
