import TreePatch.Fault.Basic
import TreePatch.Text.Escape

set_option autoImplicit false

/-!
# Paths: places in a document

A path is a list of segments, each of which takes one step from a node to a child.
On an object every segment but the wildcard stands for a member name
(`Segment.memberName?`): a position for its numeral and the end for `-`. Two
segments take the same step exactly if they have one name (`Segment.sameStep_iff`), so
paths are compared by the names of their steps (`Path.same_iff`, `Path.startsWith_iff`).
Equality as data (`=`) is finer: it tells the name `0` from the position 0, and a pointer
from a query.

This module provides:

* `Segment` and `Path`, with their names, order and prefixes; and
* `Path.toText`, the written form, and `Path.canonical?`, the pointer text of a
  path without wildcards.
-/

namespace TreePatch

/-! ## Segments -/

/-- One step of a path. -/
inductive Segment where
  /-- A member name. -/
  | key (name : Text)
  /-- A position in an array. -/
  | index (n : Nat)
  /-- The position behind the last element. -/
  | append
  /-- Every child. -/
  | wildcard
deriving DecidableEq, Repr

namespace Segment

/-- The member name that the segment stands for on an object. A wildcard stands
for none. -/
def memberName? : Segment → Option Text
  | .key name => some name
  | .index n => some (Decimal.ofNat n)
  | .append => some (utf8 "-")
  | .wildcard => none

/-- Is this the wildcard? -/
def isWildcard : Segment → Bool
  | .wildcard => true
  | _ => false

/-- Is this a member name? -/
def isKey : Segment → Bool
  | .key _ => true
  | _ => false

/-- Do two segments take the same step from every object? Equal segments do. Of two others one
has to be a name, and the other has to stand for it. -/
def sameStep (s t : Segment) : Bool :=
  if s = t then true
  else if !s.isKey && !t.isKey then false
  else
    match s.memberName?, t.memberName? with
    | some a, some b => a == b
    | _, _ => false

/-- The place of a segment's sort in the order of segments. -/
def rank : Segment → Nat
  | .key _ => 0
  | .index _ => 1
  | .append => 2
  | .wildcard => 3

/-- The order of segments: by sort first, then names bytewise and positions by
number. -/
def compare : Segment → Segment → Ordering
  | .key a, .key b => Ord.compare a b
  | .index m, .index n => Ord.compare m n
  | s, t => Ord.compare s.rank t.rank

/-- The written form of a segment. Only names need escaping. -/
def toText : Segment → Text
  | .key name => name.escape
  | .index n => Decimal.ofNat n
  | .append => utf8 "-"
  | .wildcard => utf8 "*"

end Segment

/-! ## Paths -/

/-- The two forms of path. Only a query may be written with wildcards. -/
inductive Path.Form where
  /-- A pointer, which addresses one place. -/
  | pointer
  /-- A query, which addresses any number of places. -/
  | query
deriving DecidableEq, Repr

/-- The name of a form. -/
def Path.Form.name : Path.Form → Text
  | .pointer => utf8 "pointer"
  | .query => utf8 "query"

instance : Labelled Path.Form where
  members := [.pointer, .query]
  label := Path.Form.name
  complete := by intro f; cases f <;> decide

/-- A list of steps from the root, and the form it is written in. -/
structure Path where
  form : Path.Form
  segments : List Segment
deriving DecidableEq, Repr

namespace Path

/-- The path of the root itself. -/
def root : Path := ⟨.pointer, []⟩

/-- The pointer with the given steps. -/
def ofSegments (segments : List Segment) : Path := ⟨.pointer, segments⟩

/-- The number of steps. -/
def size (p : Path) : Nat := p.segments.length

/-- Does the path take no step? -/
def isRoot (p : Path) : Bool := p.segments.isEmpty

/-- Is the path free of wildcards? -/
def isConcrete (p : Path) : Bool := p.segments.all fun s => !s.isWildcard

/-- The last step. -/
def last? (p : Path) : Option Segment := p.segments.getLast?

/-- The path without its last step. The root is its own parent. -/
def parent (p : Path) : Path := { p with segments := p.segments.dropLast }

/-- The path with one more step. -/
def push (p : Path) (s : Segment) : Path := { p with segments := p.segments ++ [s] }

/-- The path in pointer form. -/
def asPointer (p : Path) : Path := { p with form := .pointer }

/-- The steps of one path followed by those of another, in the form of the first. -/
instance : Append Path where
  append p r := { p with segments := p.segments ++ r.segments }

/-- The names of the steps. -/
def names (p : Path) : List (Option Text) := p.segments.map Segment.memberName?

/-- Do two paths take the same steps, whatever their form? -/
def same (p q : Path) : Bool := p.segments.isEqv q.segments Segment.sameStep

/-- Does a path begin with the steps of another? -/
def startsWith (p q : Path) : Bool :=
  decide (q.size ≤ p.size) && (q.segments.zip p.segments).all fun st => st.1.sameStep st.2

/-! ## The written form -/

/-- The segments, each behind a slash. -/
def joined (segments : List Segment) : Text :=
  segments.flatMap fun s => Text.slash :: s.toText

/-- The written form of a path. -/
def toText (p : Path) : Text :=
  match p.form with
  | .pointer => joined p.segments
  | .query => Text.dollar :: joined p.segments

/-- A fault that concerns a path. -/
def fault (p : Path) (cause : Cause) : Fault := { cause := cause, path := p.toText }

/-- The pointer text of a path without wildcards. -/
def canonical (p : Path) : Except Fault Text :=
  if p.isConcrete then .ok p.asPointer.toText else .error (p.fault .noPointerText)

end Path

/-! ## Laws of steps -/

/-- A numeral is not the name of the end. -/
theorem Decimal.ofNat_ne_dash (n : Nat) : ofNat n ≠ utf8 "-" := by
  intro h
  have hnumeral := isNumeral_ofNat n
  rw [h] at hnumeral
  revert hnumeral
  decide

theorem Segment.isKey_iff {s : Segment} : s.isKey = true ↔ ∃ name, s = .key name := by
  cases s <;> simp [isKey]

/-- Segments of one name that are not names themselves are equal: the names of positions and of
the end do not meet, and the wildcard has none. -/
theorem Segment.eq_of_memberName?_eq {s t : Segment} (hs : s.isKey = false)
    (ht : t.isKey = false) (h : s.memberName? = t.memberName?) : s = t := by
  cases s with
  | key name => cases hs
  | index m =>
      cases t with
      | key name => cases ht
      | index n => rw [Decimal.ofNat_injective (Option.some.inj h)]
      | append => exact absurd (Option.some.inj h) (Decimal.ofNat_ne_dash m)
      | wildcard => cases h
  | append =>
      cases t with
      | key name => cases ht
      | index n => exact absurd (Option.some.inj h).symm (Decimal.ofNat_ne_dash n)
      | append => rfl
      | wildcard => cases h
  | wildcard =>
      cases t with
      | wildcard => rfl
      | _ => cases h

/-- Segments take the same step exactly if they have one name, or none. -/
theorem Segment.sameStep_iff {s t : Segment} :
    s.sameStep t = true ↔ s.memberName? = t.memberName? := by
  rw [sameStep]
  by_cases heq : s = t
  · simp [heq]
  · rw [if_neg heq]
    cases hs : s.isKey with
    | true =>
        obtain ⟨name, rfl⟩ := isKey_iff.1 hs
        cases t.memberName? <;> simp [memberName?]
    | false =>
        cases ht : t.isKey with
        | true =>
            obtain ⟨name, rfl⟩ := isKey_iff.1 ht
            cases s.memberName? <;> simp [memberName?]
        | false => simpa using fun h => heq (eq_of_memberName?_eq hs ht h)

/-- Every segment but the wildcard stands for a name. -/
theorem Segment.exists_memberName?_of_ne {s : Segment} (h : s ≠ .wildcard) :
    ∃ name, s.memberName? = some name := by
  cases s with
  | wildcard => exact absurd rfl h
  | _ => exact ⟨_, rfl⟩

theorem Segment.isWildcard_iff {s : Segment} : s.isWildcard = true ↔ s = .wildcard := by
  cases s <;> simp [isWildcard]

/-- Paths take the same steps exactly if their steps have the same names. -/
theorem Path.same_iff {p q : Path} : p.same q = true ↔ p.names = q.names := by
  rw [same, names, names]
  generalize p.segments = ss
  generalize q.segments = ts
  induction ss generalizing ts with
  | nil => cases ts <;> simp
  | cons s ss ih =>
      cases ts with
      | nil => simp
      | cons t ts => simp [List.isEqv, Segment.sameStep_iff, ih]

/-- A path begins with the steps of another exactly if it does so with their names. -/
theorem Path.startsWith_iff {p q : Path} : p.startsWith q = true ↔ q.names <+: p.names := by
  rw [startsWith, size, size, names, names]
  generalize p.segments = ss
  generalize q.segments = ts
  induction ts generalizing ss with
  | nil => simp
  | cons t ts ih =>
      cases ss with
      | nil => simp
      | cons s ss =>
          have ih := ih ss
          simp only [Bool.and_eq_true, decide_eq_true_eq] at ih
          simp only [List.length_cons, Nat.add_le_add_iff_right, List.zip_cons_cons, List.all_cons,
            Bool.and_eq_true, decide_eq_true_eq, Segment.sameStep_iff, List.map_cons,
            List.cons_prefix_cons, ← ih]
          exact and_left_comm

@[simp] theorem Path.segments_append (p r : Path) :
    (p ++ r).segments = p.segments ++ r.segments := rfl

@[simp] theorem Path.segments_push (p : Path) (s : Segment) :
    (p.push s).segments = p.segments ++ [s] := rfl

@[simp] theorem Path.names_push (p : Path) (s : Segment) :
    (p.push s).names = p.names ++ [s.memberName?] := by
  simp [Path.names]

@[simp] theorem Path.parent_push (p : Path) (s : Segment) : (p.push s).parent = p := by
  simp [Path.push, Path.parent]

@[simp] theorem Path.last?_push (p : Path) (s : Segment) : (p.push s).last? = some s := by
  simp [Path.last?]

@[simp] theorem Path.isRoot_push (p : Path) (s : Segment) : (p.push s).isRoot = false := by
  simp [Path.push, Path.isRoot]

@[simp] theorem Path.isConcrete_push (p : Path) (s : Segment) :
    (p.push s).isConcrete = (p.isConcrete && !s.isWildcard) := by
  simp [Path.isConcrete]

/-- A path goes to its parent and takes its last step. -/
theorem Path.push_parent {p : Path} {s : Segment} (h : p.last? = some s) :
    p.parent.push s = p := by
  obtain ⟨steps, hsteps⟩ := List.getLast?_eq_some_iff.1 h
  rw [Path.push, Path.parent, hsteps, List.dropLast_concat, ← hsteps]

/-- A path below the root has a last step. -/
theorem Path.exists_push {p : Path} (h : p.isRoot = false) :
    ∃ (a : Path) (s : Segment), p = a.push s := by
  have hne : p.segments ≠ [] := List.isEmpty_eq_false_iff.1 h
  refine ⟨p.parent, p.segments.getLast hne, ?_⟩
  rw [Path.push, Path.parent, List.dropLast_concat_getLast hne]

/-- A path is concrete when no step is a wildcard. -/
theorem Path.isConcrete_iff {p : Path} :
    p.isConcrete = true ↔ Segment.wildcard ∉ p.segments := by
  simp only [Path.isConcrete, List.all_eq_true, Bool.not_eq_true', ← Bool.not_eq_true,
    Segment.isWildcard_iff]
  exact ⟨fun h hw => h _ hw rfl, fun h s hs e => h (e ▸ hs)⟩

/-- Steps that begin with some names go along these first. -/
theorem Path.exists_split_of_prefix {names : List (Option Text)} {steps : List Segment}
    (h : names <+: steps.map Segment.memberName?) :
    ∃ qs rest, steps = qs ++ rest ∧ qs.map Segment.memberName? = names := by
  obtain ⟨more, hmore⟩ := h
  obtain ⟨qs, rest, hsteps, hqs, -⟩ := List.map_eq_append_iff.1 hmore.symm
  exact ⟨qs, rest, hsteps, hqs⟩

end TreePatch
