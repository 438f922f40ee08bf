import TreePatch.Fault.Cause
import TreePatch.Path.Basic

set_option autoImplicit false

/-!
# Access: from a node to its children

The rule for taking a step is `Value.child`; everything that follows a path, to read
or to write, goes through it, and the step of a query (`narrow`) comes to the same.
On an object a segment selects the member it names. On an array a position below the
size selects an element. All else is a `Misstep`.

`children` lists the steps that a wildcard stands for, and `follow` takes several
steps. `setChild` and `overwrite` are the writing counterparts of `child` and
`follow`; `TreePatch.Value.Lens` has their laws.
-/

namespace TreePatch

/-- The misstep of looking for a child in a node that has none. -/
def Misstep.atLeaf (found : Value.Kind) : Segment → Misstep
  | .key name => .notAnObject name found
  | .index n => .notAnArray n found
  | .append => .noEnd found
  | .wildcard => .wildcard

namespace Value

/-! ## One step -/

/-- The member that a segment names. -/
def childOfMembers (ms : Members Value) (s : Segment) : Except Misstep Value :=
  match s.memberName? with
  | none => .error .wildcard
  | some name =>
      match ms.get? name with
      | none => .error (.noMember name)
      | some c => .ok c

/-- The element that a segment selects. -/
def childOfElements (xs : List Value) : Segment → Except Misstep Value
  | .key name => .error (.notAnObject name .array)
  | .index n =>
      match xs[n]? with
      | none => .error (.pastTheEnd n xs.length)
      | some c => .ok c
  | .append => .error .atTheEnd
  | .wildcard => .error .wildcard

/-- The child that a segment leads to. -/
def child (v : Value) (s : Segment) : Except Misstep Value :=
  match v with
  | .object ms => childOfMembers ms s
  | .array xs => childOfElements xs s
  | _ => .error (.atLeaf v.kind s)

/-- The children with the steps that lead to them: the members by name in order of
insertion, or the elements by position. -/
def children : Value → List (Segment × Value)
  | .array xs => xs.mapIdx fun i x => (.index i, x)
  | .object ms => ms.map fun m => (.key m.1, m.2)
  | _ => []

/-- Overwrite the child that a segment leads to. Nothing changes where it leads to
none. -/
def setChild (v : Value) (s : Segment) (new : Value) : Value :=
  match v with
  | .object _ =>
      match s.memberName? with
      | some name => v.updateMember name new
      | none => v
  | _ =>
      match s with
      | .index n => v.updateElement n new
      | _ => v

/-! ## Many steps -/

/-- The node at the end of a list of steps. -/
def follow : Value → List Segment → Except Misstep Value
  | v, [] => .ok v
  | v, s :: rest =>
      match v.child s with
      | .error m => .error m
      | .ok c => follow c rest

/-- Overwrite the node at the end of a list of steps. -/
def overwrite : Value → List Segment → Value → Except Misstep Value
  | _, [], new => .ok new
  | v, s :: rest, new =>
      match v.child s with
      | .error m => .error m
      | .ok c =>
          match overwrite c rest new with
          | .error m => .error m
          | .ok c' => .ok (v.setChild s c')

/-- The value at a path. -/
def get (v : Value) (p : Path) : Except Fault Value :=
  (v.follow p.segments).mapError fun m => p.fault (.misstep m)

/-- Is there a value at a path? -/
def has (v : Value) (p : Path) : Bool := (v.get p).toBool

end Value

end TreePatch
