import TreePatch.Value.Equality
import TreePatch.Value.WellFormed

set_option autoImplicit false

/-!
# Values that hold a NaN

A NaN is not equal to itself, and neither is a value that holds one at any depth. All other
well-formed values are (`equals_self_iff`). Distinct names matter: a member whose name comes
a second time is compared with the first of that name.
-/

namespace TreePatch

/-- Is the number a floating-point pattern that denotes none? -/
def Number.isNaN : Number → Bool
  | .binary x => x.isNaN
  | _ => false

/-- A number is equal to itself unless it is a NaN. -/
theorem Number.equals_self (n : Number) : n.equals n = !n.isNaN := by
  cases n with
  | signed n => simp [equals, equalIntegers?, isNaN]
  | unsigned n => simp [equals, equalIntegers?, isNaN]
  | binary x => simp [equals, equalIntegers?, toBinary64, Binary64.equals, isNaN]

namespace Value

mutual

/-- Is there a NaN in the value? -/
def holdsNaN : Value → Bool
  | .number n => n.isNaN
  | .array xs => elementsHoldNaN xs
  | .object ms => membersHoldNaN ms
  | _ => false

/-- Is there a NaN in one of the elements? -/
def elementsHoldNaN : List Value → Bool
  | [] => false
  | x :: xs => holdsNaN x || elementsHoldNaN xs

/-- Is there a NaN in one of the entries? -/
def membersHoldNaN : List (Text × Value) → Bool
  | [] => false
  | (_, v) :: ms => holdsNaN v || membersHoldNaN ms

end

theorem elementsHoldNaN_eq_false_iff {xs : List Value} :
    elementsHoldNaN xs = false ↔ ∀ x ∈ xs, x.holdsNaN = false := by
  induction xs with
  | nil => simp [elementsHoldNaN]
  | cons x xs ih => simp [elementsHoldNaN, ih]

theorem membersHoldNaN_eq_false_iff {ms : Members Value} :
    membersHoldNaN ms = false ↔ ∀ m ∈ ms, m.2.holdsNaN = false := by
  induction ms with
  | nil => simp [membersHoldNaN]
  | cons m ms ih =>
      obtain ⟨k, v⟩ := m
      simp only [membersHoldNaN, Bool.or_eq_false_iff, ih, List.forall_mem_cons]

/-- A well-formed value is equal to itself exactly if it holds no NaN. -/
theorem equals_self_iff {v : Value} (hv : v.WellFormed) :
    v.equals v = true ↔ v.holdsNaN = false := by
  induction v with
  | null => simp [equals, holdsNaN]
  | bool b => simp [equals, holdsNaN]
  | number n => simp [equals, holdsNaN, Number.equals_self]
  | string t => simp [equals, holdsNaN]
  | array xs ih =>
      have helements := wellFormed_array.1 hv
      have hzip : xs.zip xs = xs.map fun x => (x, x) := by
        rw [← List.zip_map', List.map_id']
      rw [equals_array, holdsNaN, elementsHoldNaN_eq_false_iff, hzip, List.forall_mem_map]
      exact (and_iff_right rfl).trans (forall₂_congr fun x hx => ih x hx (helements x hx))
  | object ms ih =>
      obtain ⟨hms, hentries⟩ := wellFormed_object.1 hv
      rw [equals_object, holdsNaN, membersHoldNaN_eq_false_iff]
      refine (and_iff_right rfl).trans (forall₂_congr fun m hm => ?_)
      -- The name of a member looks up the member itself.
      rw [Members.get?_of_mem hms hm, ← ih m hm (hentries m hm)]
      simp

end Value

end TreePatch
