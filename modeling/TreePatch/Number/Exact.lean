import TreePatch.Number.Basic

set_option autoImplicit false

/-!
# The exact value of a number

Every number but NaN and the infinities denotes a rational number. This is the
value itself, without any format: two numbers may have different representations
and one value, and `Number.equals` may still call numbers with different values
equal, because it rounds integers when it compares them with floating-point
numbers.
-/

namespace TreePatch

/-- The rational number that a finite floating-point number denotes. -/
def Binary64.toRat? (x : Binary64) : Option Rat :=
  if x.isFinite then some (mkRat (x.withSign (x.significand <<< x.exponent)) (1 <<< 1075))
  else none

/-- The rational number that a number denotes. -/
def Number.exactValue? : Number → Option Rat
  | .signed n => some n.toInt
  | .unsigned n => some n.toNat
  | .binary x => x.toRat?

/-- An integer representation denotes its integer. -/
theorem Number.exactValue?_of_integer? {n : Number} {i : Int} (h : n.integer? = some i) :
    n.exactValue? = some (i : Rat) := by
  cases n with
  | signed m => cases h; rfl
  | unsigned m => cases h; rfl
  | binary x => simp [Number.integer?] at h

end TreePatch
