import TreePatch.Fault.Basic
import TreePatch.Operation.Basic
import TreePatch.Result

set_option autoImplicit false

/-!
# Operations as values

An operation is read from an object. Its `op` member has to be there and, like
`path` and `from`, has to be a text; `value` may be anything, and other members are
ignored. A patch is an array of operations; the fault for a bad element cites its
position. `Operation.toValue` writes an operation as the object it is read from.
-/

namespace TreePatch.Operation

/-- The text of a member, if the member is there. Anything but a text is a flaw. -/
def textMember (ms : Members Value) (field : Field) : Except OperationFlaw (Option Text) :=
  match ms.get? field.name with
  | none => .ok none
  | some (.string t) => .ok (some t)
  | some v => .error (.notText field v.kind)

/-- Read an operation from its members. -/
def ofMembers (ms : Members Value) : Except OperationFlaw Operation := do
  let some op ← textMember ms .op | throw .noVerb
  let path ← textMember ms .path
  let source ← textMember ms .source
  return { op, path, source, value := ms.get? Field.value.name }

/-- Read an operation, with the flaw alone as the failure. -/
def read : Value → Except OperationFlaw Operation
  | .object ms => ofMembers ms
  | v => .error (.notAnObject v.kind)

/-- Read an operation. -/
def ofValue (v : Value) : Except Fault Operation :=
  (read v).mapError fun flaw => { cause := .malformed flaw }

/-- Read the elements of a patch from a position on. -/
def readFrom (position : Nat) : List Value → Except Cause (List Operation)
  | [] => .ok []
  | v :: rest =>
      match read v with
      | .error flaw => .error (.malformedAt position flaw)
      | .ok o => (readFrom (position + 1) rest).map (o :: ·)

/-- Read a patch. -/
def listOfValue : Value → Except Fault (List Operation)
  | .array xs => (readFrom 0 xs).mapError fun cause => { cause := cause }
  | v => .error { cause := .notAPatch v.kind }

/-- A member, if there is something to write. -/
def memberOf (field : Field) (v : Option Value) : List (Text × Value) :=
  match v with
  | none => []
  | some v => [(field.name, v)]

/-- Write an operation. Absent members are left out. -/
def toValue (o : Operation) : Value :=
  .object (memberOf .op (some (.string o.op)) ++ memberOf .source (o.source.map .string) ++
    memberOf .path (o.path.map .string) ++ memberOf .value o.value)

/-! ## What is read -/

/-- An operation is read from members exactly if its word is a text among them, its path and
its source are texts among them or absent, and its value is the member of that name. -/
theorem ofMembers_eq_ok_iff {ms : Members Value} {o : Operation} : ofMembers ms = .ok o ↔
    textMember ms .op = .ok (some o.op) ∧ textMember ms .path = .ok o.path ∧
      textMember ms .source = .ok o.source ∧ ms.get? Field.value.name = o.value := by
  obtain ⟨op, path, source, value⟩ := o
  simp only [ofMembers, bind, pure, throw, throwThe, MonadExceptOf.throw]
  rcases textMember ms .op with flaw | _ | op'
  · simp [Except.bind]
  · simp [Except.bind]
  cases textMember ms .path <;> cases textMember ms .source <;> simp [Except.bind, Except.pure]

/-- Operations are read from objects only. -/
theorem ofValue_eq_ok_iff {v : Value} {o : Operation} :
    ofValue v = .ok o ↔ ∃ ms, v = .object ms ∧ ofMembers ms = .ok o := by
  rw [ofValue, Result.mapError_eq_ok_iff]
  cases v <;> simp [read]

end TreePatch.Operation
