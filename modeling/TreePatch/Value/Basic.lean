import TreePatch.Label
import TreePatch.Members
import TreePatch.Number.Basic

set_option autoImplicit false

/-!
# Values: document trees

A document is a tree whose leaves are null, truth values, numbers and texts and
whose inner nodes are arrays and objects. The members of an object keep the order
in which they were inserted, and equality of values as data (`=`) sees that order
and the representation of every number; comparison as documents, which sees
neither, is `Value.equals`.

This module provides:

* `Value` and `Value.Kind`, the six kinds of node;
* the accessors, each `none` on a node of another kind; and
* `Value.induction`, induction over a tree by its children, and decidable `=`.
-/

namespace TreePatch

/-- A document tree. -/
inductive Value where
  /-- The null value. -/
  | null
  /-- A truth value. -/
  | bool (b : Bool)
  /-- A number in one of its representations. -/
  | number (n : Number)
  /-- A text. -/
  | string (t : Text)
  /-- Elements in order. -/
  | array (elements : List Value)
  /-- Members in order of insertion. -/
  | object (members : List (Text × Value))

namespace Value

/-! ## Kinds -/

/-- The kind of a node. -/
inductive Kind where
  /-- The null value. -/
  | null
  /-- A truth value. -/
  | boolean
  /-- A number, whatever its representation. -/
  | number
  /-- A text. -/
  | string
  /-- An array. -/
  | array
  /-- An object. -/
  | object
deriving DecidableEq, Repr

/-- The name of a kind, as messages cite it. -/
def Kind.name : Kind → Text
  | .null => utf8 "null"
  | .boolean => utf8 "boolean"
  | .number => utf8 "number"
  | .string => utf8 "string"
  | .array => utf8 "array"
  | .object => utf8 "object"

instance : Labelled Kind where
  members := [.null, .boolean, .number, .string, .array, .object]
  label := Kind.name
  complete := by intro k; cases k <;> decide

/-- The kind of a value. -/
def kind : Value → Kind
  | .null => .null
  | .bool _ => .boolean
  | .number _ => .number
  | .string _ => .string
  | .array _ => .array
  | .object _ => .object

/-- Can a node of this kind have children? -/
def Kind.isContainer : Kind → Bool
  | .array | .object => true
  | _ => false

/-! ## Accessors -/

/-- The truth value. -/
def bool? : Value → Option Bool
  | .bool b => some b
  | _ => none

/-- The number. -/
def number? : Value → Option Number
  | .number n => some n
  | _ => none

/-- The text. -/
def text? : Value → Option Text
  | .string t => some t
  | _ => none

/-- The elements of an array. -/
def elements? : Value → Option (List Value)
  | .array xs => some xs
  | _ => none

/-- The members of an object. -/
def members? : Value → Option (Members Value)
  | .object ms => some ms
  | _ => none

/-- The number converted to floating-point. -/
def binary64? (v : Value) : Option Binary64 := v.number?.map Number.toBinary64

/-- The number as a signed 64-bit integer, if it denotes one. -/
def int64? (v : Value) : Option Int64 := v.number?.bind Number.toInt64?

/-- The member of a name, if this is an object that has it. -/
def member? (v : Value) (key : Text) : Option Value := v.members?.bind (·.get? key)

/-- The element at a position, if this is an array that reaches it. -/
def element? (v : Value) (i : Nat) : Option Value := v.elements?.bind (·[i]?)

/-- Overwrite the member of a name, if this is an object that has it. -/
def updateMember (v : Value) (key : Text) (new : Value) : Value :=
  match v with
  | .object ms => .object (Members.update ms key new)
  | v => v

/-- Overwrite the element at a position, if this is an array that reaches it. -/
def updateElement (v : Value) (i : Nat) (new : Value) : Value :=
  match v with
  | .array xs => .array (xs.set i new)
  | v => v

/-- The number of children. -/
def size : Value → Nat
  | .array xs => xs.length
  | .object ms => ms.length
  | _ => 0

/-! ## Induction -/

/-- Induction over a value by its children. -/
@[elab_as_elim, induction_eliminator]
theorem induction {motive : Value → Prop} (null : motive .null)
    (bool : ∀ b, motive (.bool b)) (number : ∀ n, motive (.number n))
    (string : ∀ t, motive (.string t))
    (array : ∀ xs : List Value, (∀ x ∈ xs, motive x) → motive (.array xs))
    (object : ∀ ms : Members Value, (∀ m ∈ ms, motive m.2) → motive (.object ms))
    (v : Value) : motive v :=
  @Value.rec motive (fun xs => ∀ x ∈ xs, motive x) (fun ms => ∀ m ∈ ms, motive m.2)
    (fun m => motive m.2) null bool number string array object
    (by simp) (fun _ _ hx hxs => List.forall_mem_cons.2 ⟨hx, hxs⟩)
    (by simp) (fun _ _ hm hms => List.forall_mem_cons.2 ⟨hm, hms⟩)
    (fun _ _ hv => hv) v

/-! ## Equality as data is decidable -/

mutual

/-- Are two values the same data, order of members and representation included? -/
def identical : Value → Value → Bool
  | .null, .null => true
  | .bool a, .bool b => a == b
  | .number m, .number n => decide (m = n)
  | .string s, .string t => s == t
  | .array xs, .array ys => identicalElements xs ys
  | .object ms, .object ns => identicalMembers ms ns
  | _, _ => false

/-- Are two lists of elements the same data? -/
def identicalElements : List Value → List Value → Bool
  | [], [] => true
  | x :: xs, y :: ys => identical x y && identicalElements xs ys
  | _, _ => false

/-- Are two lists of members the same data? -/
def identicalMembers : List (Text × Value) → List (Text × Value) → Bool
  | [], [] => true
  | (k, v) :: ms, (l, w) :: ns => k == l && identical v w && identicalMembers ms ns
  | _, _ => false

end

theorem identical_iff {v w : Value} : identical v w = true ↔ v = w := by
  induction v generalizing w with
  | null => cases w <;> simp [identical]
  | bool b => cases w <;> simp [identical]
  | number n => cases w <;> simp [identical]
  | string t => cases w <;> simp [identical]
  | array xs ih =>
      cases w with
      | array ys =>
          have key : ∀ (xs ys : List Value),
              (∀ x ∈ xs, ∀ {w : Value}, identical x w = true ↔ x = w) →
              (identicalElements xs ys = true ↔ xs = ys) := by
            intro xs
            induction xs with
            | nil => intro ys _; cases ys <;> simp [identicalElements]
            | cons x xs ihx =>
                intro ys h
                obtain ⟨hx, hxs⟩ := List.forall_mem_cons.1 h
                cases ys with
                | nil => simp [identicalElements]
                | cons y ys => simp [identicalElements, hx, ihx ys hxs]
          simp [identical, key xs ys ih]
      | _ => simp [identical]
  | object ms ih =>
      cases w with
      | object ns =>
          have key : ∀ (ms ns : Members Value),
              (∀ m ∈ ms, ∀ {w : Value}, identical m.2 w = true ↔ m.2 = w) →
              (identicalMembers ms ns = true ↔ ms = ns) := by
            intro ms
            induction ms with
            | nil => intro ns _; cases ns <;> simp [identicalMembers]
            | cons m ms ihm =>
                intro ns h
                obtain ⟨hm, hms⟩ := List.forall_mem_cons.1 h
                obtain ⟨k, v⟩ := m
                cases ns with
                | nil => simp [identicalMembers]
                | cons n ns =>
                    obtain ⟨l, w⟩ := n
                    simp [identicalMembers, hm, ihm ns hms]
          simp [identical, key ms ns ih]
      | _ => simp [identical]

instance : DecidableEq Value := fun _ _ => decidable_of_iff _ identical_iff

end Value

end TreePatch
