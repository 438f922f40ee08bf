import TreePatch.Value.Basic

set_option autoImplicit false

/-!
# Deep equality

Two documents are equal when they are built alike from equal leaves. Arrays
compare element by element in order. Objects compare member by member whatever
the order: they have equally many members, and each member of the one has an
equal entry under its name in the other. Numbers compare by `Number.equals`, so a
document that holds a NaN anywhere is not equal to itself.

`equals_array` and `equals_object` state the two recursive rules without the
auxiliary functions that the recursion is written with.
-/

namespace TreePatch.Value

mutual

/-- Equality of documents. -/
def equals : Value → Value → Bool
  | .null, .null => true
  | .bool a, .bool b => a == b
  | .number m, .number n => m.equals n
  | .string s, .string t => s == t
  | .array xs, .array ys => equalElements xs ys
  | .object ms, .object ns => ms.length == ns.length && matchedMembers ms ns
  | _, _ => false

/-- Equality of elements, one by one in order. -/
def equalElements : List Value → List Value → Bool
  | [], [] => true
  | x :: xs, y :: ys => equals x y && equalElements xs ys
  | _, _ => false

/-- Does every member of the first list find an equal entry in the second? -/
def matchedMembers : List (Text × Value) → List (Text × Value) → Bool
  | [], _ => true
  | (k, v) :: ms, ns =>
      (match Members.get? ns k with
        | some w => equals v w
        | none => false) && matchedMembers ms ns

end

/-- Lists of elements are equal when they are so position by position. -/
theorem equalElements_iff {xs ys : List Value} :
    equalElements xs ys = true ↔
      xs.length = ys.length ∧ ∀ p ∈ xs.zip ys, equals p.1 p.2 = true := by
  induction xs generalizing ys with
  | nil => cases ys <;> simp [equalElements]
  | cons x xs ih =>
      cases ys with
      | nil => simp [equalElements]
      | cons y ys =>
          simp only [equalElements, Bool.and_eq_true, ih, List.length_cons,
            Nat.add_right_cancel_iff, List.zip_cons_cons, List.forall_mem_cons]
          exact and_left_comm

/-- Members are matched when each name leads to an equal entry. -/
theorem matchedMembers_iff {ms ns : Members Value} :
    matchedMembers ms ns = true ↔
      ∀ m ∈ ms, ∃ w, ns.get? m.1 = some w ∧ equals m.2 w = true := by
  induction ms with
  | nil => simp [matchedMembers]
  | cons m ms ih =>
      obtain ⟨k, v⟩ := m
      simp only [matchedMembers, Bool.and_eq_true, ih, List.forall_mem_cons]
      cases Members.get? ns k <;> simp

/-- Arrays are equal when they are so element by element. -/
theorem equals_array {xs ys : List Value} :
    equals (.array xs) (.array ys) = true ↔
      xs.length = ys.length ∧ ∀ p ∈ xs.zip ys, equals p.1 p.2 = true := by
  rw [equals, equalElements_iff]

/-- Objects are equal when they have equally many members and each member of the
one finds an equal entry under its name in the other. -/
theorem equals_object {ms ns : Members Value} :
    equals (.object ms) (.object ns) = true ↔
      ms.length = ns.length ∧ ∀ m ∈ ms, ∃ w, ns.get? m.1 = some w ∧ equals m.2 w = true := by
  rw [equals, Bool.and_eq_true, beq_iff_eq, matchedMembers_iff]

/-- Equal values have one kind. -/
theorem kind_eq_of_equals {v w : Value} (h : equals v w = true) : v.kind = w.kind := by
  cases v <;> cases w <;> simp_all [equals, kind]

end TreePatch.Value
