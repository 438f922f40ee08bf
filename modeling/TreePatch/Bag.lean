set_option autoImplicit false

/-!
# Lists as bags

Set-like operations on lists whose elements are compared by a predicate of the
caller's, which need neither order nor hash. The predicate is always asked about an
element of the first list and one of the second, in this order; it need not be
symmetric, and the two lists need not hold elements of one type.
-/

namespace TreePatch.Bag

variable {α β : Type}

/-- The elements of a list that match none of another. -/
def subtract (eq : α → β → Bool) (xs : List α) (ys : List β) : List α :=
  xs.filter fun x => !ys.any (eq x)

/-- The elements of a list that match one of another. -/
def intersect (eq : α → β → Bool) (xs : List α) (ys : List β) : List α :=
  xs.filter fun x => ys.any (eq x)

/-- Do two lists match element for element in some order? Each element of the first
list in turn claims the first element of the second that it matches and that is not
claimed yet, and no element may be left over on either side. -/
def equalsUnordered (eq : α → β → Bool) : List α → List β → Bool
  | [], ys => ys.isEmpty
  | x :: xs, ys => ys.any (eq x) && equalsUnordered eq xs (ys.eraseP (eq x))

/-! ## Elementary laws -/

/-- An element is either subtracted or kept. -/
theorem mem_intersect {eq : α → β → Bool} {xs : List α} {ys : List β} {x : α} :
    x ∈ intersect eq xs ys ↔ x ∈ xs ∧ ∃ y ∈ ys, eq x y = true := by
  simp [intersect]

theorem mem_subtract {eq : α → β → Bool} {xs : List α} {ys : List β} {x : α} :
    x ∈ subtract eq xs ys ↔ x ∈ xs ∧ ∀ y ∈ ys, eq x y = false := by
  simp [subtract]

end TreePatch.Bag
