import TreePatch.Path.Basic

set_option autoImplicit false

/-!
# Reading paths

A pointer is empty or a slash followed by segments; a query is a dollar sign alone
or before the same. Segments are separated by slashes and none is empty. In a
query a segment that is exactly `*` is the wildcard. Every other segment is freed
of its escapes, and what is left decides its sort: `-` is the end, digits are a
position, anything else is a name. The sort is decided after the escapes are
undone, so an escaped spelling of digits is a position too.

The reader looks for one slash after another (`readFrom`), which comes to reading the
pieces between the slashes one by one (`readPieces_eq`). The first flaw from the left
is the one reported, and the fault cites the whole expression.
-/

namespace TreePatch.Path

/-- A segment freed of its escapes. -/
def unescape (raw : Text) : Except PathFlaw Text :=
  match Text.undoTildes raw with
  | none => .error (.strayTilde raw)
  | some t =>
      match Text.undoPercents t with
      | .ok decoded => .ok decoded
      | .error .truncated => .error (.truncatedPercent t)
      | .error .notHexadecimal => .error (.invalidPercent t)

/-- The segment that an unescaped text spells. Positions have to fit 64 bits. -/
def classify (decoded : Text) : Except PathFlaw Segment :=
  if decoded = utf8 "-" then .ok .append
  else if Decimal.isNumeral decoded then
    if Decimal.value decoded < UInt64.size then .ok (.index (Decimal.value decoded))
    else .error (.hugeIndex decoded)
  else .ok (.key decoded)

/-- Read one piece between slashes. -/
def readSegment (form : Form) (raw : Text) : Except PathFlaw Segment :=
  if raw.isEmpty then .error .emptySegment
  else if form = .query ∧ raw = utf8 "*" then .ok .wildcard
  else (unescape raw).bind classify

theorem length_drop_lt {t : Text} {b : UInt8} {next : Nat} (h : t.idxOf? b = some next) :
    (t.drop (next + 1)).length < t.length := by
  have hlt := (List.idxOf?_eq_some_iff.1 h).1
  rw [List.length_drop]
  omega

/-- Read segments up to the end of the text, behind those that the path has already.
A segment goes up to the next slash, and behind the slash another one starts, even
if nothing follows. -/
def readFrom (path : Path) (t : Text) : Except PathFlaw Path :=
  match hnext : t.idxOf? Text.slash with
  | none => (readSegment path.form t).map path.push
  | some next =>
      match readSegment path.form (t.take next) with
      | .error flaw => .error flaw
      | .ok s =>
          have := length_drop_lt hnext
          readFrom (path.push s) (t.drop (next + 1))
termination_by t.length

/-- Read what follows the first slash. -/
def readPieces (form : Form) (t : Text) : Except PathFlaw Path := readFrom ⟨form, []⟩ t

/-- Read a pointer, with the flaw alone as the failure. -/
def pointerOf : Text → Except PathFlaw Path
  | [] => .ok ⟨.pointer, []⟩
  | b :: rest => if b = Text.slash then readPieces .pointer rest else .error .noLeadingSlash

/-- Does the expression have to be read as a query? -/
def isQueryText (t : Text) : Bool := t.head? == some Text.dollar

/-- Read a query, with the flaw alone as the failure. -/
def queryOf : Text → Except PathFlaw Path
  | [] => .error .noLeadingDollar
  | b :: rest =>
      if b = Text.dollar then
        match rest with
        | [] => .ok ⟨.query, []⟩
        | c :: rest =>
            if c = Text.slash then readPieces .query rest else .error .noSlashAfterDollar
      else .error .noLeadingDollar

/-- The fault for a flaw in an expression, which cites the whole expression. -/
def unreadable (t : Text) (flaw : PathFlaw) : Fault :=
  { cause := .unreadable flaw, path := t }

/-- Read a pointer. -/
def parsePointer (t : Text) : Except Fault Path := (pointerOf t).mapError (unreadable t)

/-- Read a query. -/
def parseQuery (t : Text) : Except Fault Path := (queryOf t).mapError (unreadable t)

/-- Read an expression, as a query if it starts like one. -/
def parse (t : Text) : Except Fault Path :=
  if isQueryText t then parseQuery t else parsePointer t

/-! ## Reading piece by piece -/

/-- Read the pieces of a text that is cut at its slashes already. -/
def readSegments (form : Form) : List Text → Except PathFlaw (List Segment)
  | [] => .ok []
  | raw :: rest =>
      match readSegment form raw with
      | .error flaw => .error flaw
      | .ok s => (readSegments form rest).map (s :: ·)

/-! ## Reading back -/

/-- Does the pointer text of a path read back as the same path? `none` if the path
has no pointer text. -/
def readsBack? (p : Path) : Option Bool :=
  match p.canonical with
  | .error _ => none
  | .ok t =>
      match parsePointer t with
      | .error _ => some false
      | .ok q => some (q.same p)

/-- Does reading keep its promises on a text? A path that was read has a pointer
text exactly when it has no wildcard, and that text reads back as the same path. -/
def isSoundOn (t : Text) : Bool :=
  match parse t with
  | .error _ => true
  | .ok p => if p.isConcrete then p.readsBack? == some true else p.readsBack? == none

end TreePatch.Path
