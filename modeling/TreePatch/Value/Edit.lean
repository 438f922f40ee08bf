import TreePatch.Path.Reader
import TreePatch.Value.Access

set_option autoImplicit false

/-!
# Edits: inserting, overwriting and taking out one value

An edit gives the changed document or a fault, so a failed edit changes nothing.

* `add` inserts at a place whose parent exists: into an array at a position up to
  its size or at its end, into an object under a name, overwriting a member of
  that name. At the root it replaces the document.
* `replace` and `assign` overwrite a value that is there. They differ in how they
  report that none is.
* `remove` takes a value out. The root cannot be taken out.

`insertChild` and `eraseChild` do the last step of `add` and `remove`, and
`editParent` finds the node at which that step is taken.
-/

namespace TreePatch.Value

/-! ## At one node -/

/-- Insert a child where a segment says. -/
def insertChild (v : Value) (s : Segment) (new : Value) : Except Cause Value :=
  match v with
  | .array xs =>
      match s with
      | .append => .ok (.array (xs ++ [new]))
      | .index n =>
          if n ≤ xs.length then .ok (.array (xs.insertIdx n new))
          else .error (.outOfBounds n xs.length)
      | .key name => .error (.notAnIndex name)
      | .wildcard => .error (.misstep .wildcard)
  | .object ms =>
      match s.memberName? with
      | some name => .ok (.object (Members.insert ms name new))
      | none => .error (.misstep .wildcard)
  | _ => .error (.notAContainer v.kind)

/-- Take out the child that a segment leads to. Nothing changes where it leads to
none. -/
def dropChild (v : Value) (s : Segment) : Value :=
  match v with
  | .array xs =>
      match s with
      | .index n => .array (xs.eraseIdx n)
      | _ => .array xs
  | .object ms =>
      match s.memberName? with
      | some name => .object (Members.erase ms name)
      | none => .object ms
  | v => v

/-- Take out the child that a segment leads to, which has to be there. -/
def eraseChild (v : Value) (s : Segment) : Except Misstep Value :=
  match v.child s with
  | .error m => .error m
  | .ok _ => .ok (v.dropChild s)

/-- Follow all steps but the last, `s` and then `rest`, and edit the node there by
the last. A misstep on the way is reported as `lift` says. -/
def editParent {ε : Type} (lift : Misstep → ε) (edit : Value → Segment → Except ε Value)
    (v : Value) (s : Segment) : List Segment → Except ε Value
  | [] => edit v s
  | t :: rest =>
      match v.child s with
      | .error m => .error (lift m)
      | .ok c =>
          match editParent lift edit c t rest with
          | .error e => .error e
          | .ok c' => .ok (v.setChild s c')

/-! ## At a path -/

/-- Insert a value at a path. -/
def add (v : Value) (p : Path) (new : Value) : Except Fault Value :=
  if p.isConcrete then
    match p.segments with
    | [] => .ok new
    | s :: rest =>
        (editParent .misstep (fun parent last => parent.insertChild last new) v s rest).mapError
          p.fault
  else .error (p.fault (.misstep .wildcard))

/-- Overwrite the value at a path. -/
def replace (v : Value) (p : Path) (new : Value) : Except Fault Value :=
  if p.isConcrete then
    (v.overwrite p.segments new).mapError fun m => p.fault (.nothing .replace m)
  else .error (p.fault (.misstep .wildcard))

/-- Overwrite the value at a path, reporting as `get` does that none is there. -/
def assign (v : Value) (p : Path) (new : Value) : Except Fault Value :=
  (v.overwrite p.segments new).mapError fun m => p.fault (.misstep m)

/-- Take out the value at a path. -/
def remove (v : Value) (p : Path) : Except Fault Value :=
  if p.isConcrete then
    match p.segments with
    | [] => .error { cause := .rootRemoval }
    | s :: rest =>
        (editParent id eraseChild v s rest).mapError fun m => p.fault (.nothing .remove m)
  else .error (p.fault (.misstep .wildcard))

/-! ## At a pointer text -/

/-- The value at a pointer. -/
def getPointer (v : Value) (pointer : Text) : Except Fault Value :=
  (Path.parsePointer pointer).bind v.get

/-- Insert a value at a pointer. -/
def putPointer (v : Value) (pointer : Text) (new : Value) : Except Fault Value :=
  (Path.parsePointer pointer).bind fun p => v.add p new

/-- Take out the value at a pointer. -/
def deletePointer (v : Value) (pointer : Text) : Except Fault Value :=
  (Path.parsePointer pointer).bind v.remove

end TreePatch.Value
