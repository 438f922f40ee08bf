import TreePatch.Fault.Kind
import TreePatch.Operation.Vocabulary
import TreePatch.Text.Decimal
import TreePatch.Value.Basic

set_option autoImplicit false

/-!
# Causes: what went wrong, and how it is worded

Every failure of the library is a `Cause`. A cause keeps what the message cites,
and its kind and its message are functions of it, so all wording is in this
module. Causes are grouped by the activity that fails:

* `PathFlaw`: a text is no path expression;
* `Misstep`: a segment leads from a node to no child;
* `OperationFlaw`: a value is no operation; and
* `Cause`: these, and the ways in which an edit or a patch fails.

A misstep is worded in two ways. A pointer cites the position and the size of the
array; a query, which may arrive at many arrays, does not (`Misstep.brief`). A walk
along a query looks up no wildcard, and has words of its own for one.
-/

namespace TreePatch

/-! ## Reading a path -/

/-- Why a text is no path expression. -/
inductive PathFlaw where
  /-- A pointer that is not empty starts with something other than a slash. -/
  | noLeadingSlash
  /-- A query starts with something other than a dollar sign. -/
  | noLeadingDollar
  /-- Something other than a slash follows the dollar sign. -/
  | noSlashAfterDollar
  /-- Two slashes meet, or the text ends in one. -/
  | emptySegment
  /-- A tilde is followed by something other than `0` or `1`. -/
  | strayTilde (raw : Text)
  /-- A percent sign is followed by fewer than two bytes. -/
  | truncatedPercent (segment : Text)
  /-- A percent sign is followed by something other than hexadecimal digits. -/
  | invalidPercent (segment : Text)
  /-- A position does not fit 64 bits. -/
  | hugeIndex (digits : Text)
deriving DecidableEq, Repr

/-- The wording of a path flaw. -/
def PathFlaw.message : PathFlaw → Text
  | .noLeadingSlash => utf8 "pointer must be empty or start with '/'"
  | .noLeadingDollar => utf8 "query must start with '$'"
  | .noSlashAfterDollar => utf8 "expected '/' after '$'"
  | .emptySegment => utf8 "empty path segment"
  | .strayTilde raw => utf8 "invalid escape sequence in segment " ++ raw.quoted
  | .truncatedPercent segment =>
      utf8 "truncated percent escape in segment " ++ segment.quoted
  | .invalidPercent segment => utf8 "invalid percent escape in segment " ++ segment.quoted
  | .hugeIndex digits => utf8 "array index " ++ digits.quoted ++ utf8 " is too large"

/-! ## Following a path -/

/-- Why a segment leads from a node to no child. -/
inductive Misstep where
  /-- The object has no such member. -/
  | noMember (name : Text)
  /-- A name is looked up in something other than an object. -/
  | notAnObject (name : Text) (found : Value.Kind)
  /-- A position is looked up in something that has no positions. -/
  | notAnArray (index : Nat) (found : Value.Kind)
  /-- The array is too short. -/
  | pastTheEnd (index size : Nat)
  /-- The position behind the last element is looked up in something that has no
  positions. -/
  | noEnd (found : Value.Kind)
  /-- The position behind the last element holds no element. -/
  | atTheEnd
  /-- A wildcard addresses no single child. -/
  | wildcard
deriving DecidableEq, Repr

namespace Misstep

/-- The kind of fault that a misstep is. -/
def kind : Misstep → Fault.Kind
  | .noMember _ | .pastTheEnd _ _ | .atTheEnd => .targetNotFound
  | .notAnObject _ _ | .notAnArray _ _ | .noEnd _ => .invalidPathSegment
  | .wildcard => .invalidPath

/-- The wording of a misstep along a pointer. -/
def message : Misstep → Text
  | .noMember name => utf8 "no member " ++ name.quoted
  | .notAnObject name found =>
      utf8 "cannot look up member " ++ name.quoted ++ utf8 " in " ++ found.name
  | .notAnArray index found =>
      utf8 "cannot index " ++ found.name ++ utf8 " with " ++ Decimal.ofNat index
  | .pastTheEnd index size =>
      utf8 "index " ++ Decimal.ofNat index ++ utf8 " is past the end of an array of size " ++
        Decimal.ofNat size
  | .noEnd found => utf8 "cannot apply '-' to " ++ found.name
  | .atTheEnd => utf8 "'-' does not address an existing element"
  | .wildcard => utf8 "'*' is only valid in a query"

/-- The wording of a misstep along a query: as along a pointer, but without the
position at a node that has none and without the size of an array. -/
def brief : Misstep → Text
  | .notAnArray _ found => utf8 "cannot index " ++ found.name
  | .pastTheEnd index _ =>
      utf8 "index " ++ Decimal.ofNat index ++ utf8 " is past the end of the array"
  | .wildcard => utf8 "unexpected wildcard"
  | m => m.message

end Misstep

/-! ## Reading an operation -/

/-- Why a value is no operation. -/
inductive OperationFlaw where
  /-- It is no object. -/
  | notAnObject (found : Value.Kind)
  /-- A member that has to be a text is none. -/
  | notText (field : Field) (found : Value.Kind)
  /-- The member that names the verb is absent. -/
  | noVerb
deriving DecidableEq, Repr

namespace OperationFlaw

/-- The kind of fault that a flaw is. -/
def kind : OperationFlaw → Fault.Kind
  | .notAnObject _ | .notText _ _ => .invalidPatch
  | .noVerb => .missingRequiredField

/-- The wording of a flaw. -/
def message : OperationFlaw → Text
  | .notAnObject found => utf8 "an operation must be an object, not " ++ found.name
  | .notText field found =>
      utf8 "member " ++ field.name.quoted ++ utf8 " must be a string, not " ++ found.name
  | .noVerb => utf8 "operation has no 'op' member"

end OperationFlaw

/-! ## All causes -/

/-- What a value that is not there was wanted for. -/
inductive Purpose where
  /-- To be overwritten. -/
  | replace
  /-- To be taken out. -/
  | remove
  /-- To be compared. -/
  | test
  /-- To be moved or copied. -/
  | source
deriving DecidableEq, Repr

/-- How a report of a missing value begins. -/
def Purpose.lead : Purpose → Text
  | .replace => utf8 "nothing to replace: "
  | .remove => utf8 "nothing to remove: "
  | .test => utf8 "nothing to test: "
  | .source => utf8 "nothing at source: "

/-- What went wrong. -/
inductive Cause where
  /-- A text is no path expression. -/
  | unreadable (flaw : PathFlaw)
  /-- A path with a wildcard has no pointer text. -/
  | noPointerText
  /-- A pointer leads nowhere. -/
  | misstep (m : Misstep)
  /-- A branch of a query leads nowhere. -/
  | deadEnd (m : Misstep)
  /-- The value to work on is missing. -/
  | nothing (purpose : Purpose) (m : Misstep)
  /-- The root has no place that it could be taken out of. -/
  | rootRemoval
  /-- An insertion behind the end of an array. -/
  | outOfBounds (index size : Nat)
  /-- An insertion into an array at a name. -/
  | notAnIndex (name : Text)
  /-- An insertion into something that has no children. -/
  | notAContainer (found : Value.Kind)
  /-- The operation's word is none of the verbs. -/
  | unknownVerb (op : Text)
  /-- The verb needs a member that the operation lacks. -/
  | missingField (op : Text) (field : Field)
  /-- A compared value differs from the expected one. -/
  | differs
  /-- A value cannot become its own descendant. -/
  | intoItself
  /-- A value is no operation. -/
  | malformed (flaw : OperationFlaw)
  /-- An element of a patch is no operation. -/
  | malformedAt (position : Nat) (flaw : OperationFlaw)
  /-- A value is no list of operations. -/
  | notAPatch (found : Value.Kind)
deriving DecidableEq, Repr

namespace Cause

/-- The kind of fault. A missing value to work on counts as not found, whatever
the misstep on the way to it. -/
def kind : Cause → Fault.Kind
  | .unreadable _ | .noPointerText | .rootRemoval | .intoItself => .invalidPath
  | .misstep m | .deadEnd m => m.kind
  | .nothing _ _ | .notAContainer _ => .targetNotFound
  | .outOfBounds _ _ => .indexOutOfBounds
  | .notAnIndex _ => .invalidIndex
  | .unknownVerb _ => .unsupportedOperation
  | .missingField _ _ => .missingRequiredField
  | .differs => .testFailed
  | .malformed flaw | .malformedAt _ flaw => flaw.kind
  | .notAPatch _ => .invalidPatch

/-- The wording. -/
def message : Cause → Text
  | .unreadable flaw => flaw.message
  | .noPointerText => utf8 "a path containing '*' has no pointer form"
  | .misstep m => m.message
  | .deadEnd m => m.brief
  | .nothing purpose m => purpose.lead ++ m.message
  | .rootRemoval => utf8 "the document root cannot be removed"
  | .outOfBounds index size =>
      utf8 "index " ++ Decimal.ofNat index ++ utf8 " is outside [0, " ++ Decimal.ofNat size ++
        utf8 "]"
  | .notAnIndex name => name.quoted ++ utf8 " is not an array index"
  | .notAContainer found => utf8 "parent is " ++ found.name ++ utf8 ", not a container"
  | .unknownVerb op => utf8 "unknown operation " ++ op.quoted
  | .missingField op field =>
      op.quoted ++ utf8 " requires a " ++ field.name.quoted ++ utf8 " member"
  | .differs => utf8 "value differs from the expected value"
  | .intoItself => utf8 "cannot move a value into one of its own children"
  | .malformed flaw => flaw.message
  | .malformedAt position flaw =>
      utf8 "operation " ++ Decimal.ofNat position ++ utf8 ": " ++ flaw.message
  | .notAPatch found => utf8 "a patch must be an array, not " ++ found.name

end Cause

end TreePatch
