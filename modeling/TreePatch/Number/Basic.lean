import TreePatch.Number.Binary64

set_option autoImplicit false

/-!
# Numbers in three representations

A document keeps the representation that a number came in: a signed or an
unsigned 64-bit integer, or a binary floating-point number. Comparison looks
through the representation. Two integers compare exactly, whatever their
signedness; as soon as one side is floating-point, both sides are converted and
compared in that format, so integers beyond 2^53 may then equal a neighbour.
-/

namespace TreePatch

/-- A number and how it is represented. -/
inductive Number where
  /-- A signed 64-bit integer. -/
  | signed (n : Int64)
  /-- An unsigned 64-bit integer. -/
  | unsigned (n : UInt64)
  /-- A floating-point number. -/
  | binary (x : Binary64)
deriving DecidableEq, Repr

namespace Number

/-- The value of a number in one of the integer representations. -/
def integer? : Number → Option Int
  | .signed n => some n.toInt
  | .unsigned n => some n.toNat
  | .binary _ => none

/-- The number in floating-point, the nearest one if it is an integer. -/
def toBinary64 : Number → Binary64
  | .signed n => .ofInt n.toInt
  | .unsigned n => .ofInt n.toNat
  | .binary x => x

/-- Equality of two integers, if both numbers are in an integer representation. A
signed and an unsigned one are compared as unsigned integers, which a negative one
has no part in. -/
def equalIntegers? : Number → Number → Option Bool
  | .signed m, .signed n => some (m == n)
  | .signed m, .unsigned n => some (decide (0 ≤ m) && m.toUInt64 == n)
  | .unsigned m, .unsigned n => some (m == n)
  | .unsigned m, .signed n => some (decide (0 ≤ n) && n.toUInt64 == m)
  | _, _ => none

/-- Equality of numbers: exact between integers, otherwise in floating-point. -/
def equals (a b : Number) : Bool :=
  match a.equalIntegers? b with
  | some answer => answer
  | none => a.toBinary64.equals b.toBinary64

/-- The integer that a number denotes, if it denotes one. -/
def whole? : Number → Option Int
  | .signed n => some n.toInt
  | .unsigned n => some n.toNat
  | .binary x => x.toInt?

/-- The number as a signed 64-bit integer, if it denotes an integer of that range.
A floating-point number has to be its own integral part, which a NaN is not, and
lie between two bounds of which only the lower one is included. -/
def toInt64? : Number → Option Int64
  | .signed n => some n
  | .unsigned n => if Int64.maxValue.toUInt64 < n then none else some n.toInt64
  | .binary x =>
      if !x.trunc.equals x then none
      else if x.lt .int64Lower || Binary64.int64Upper.le x then none
      else some x.toInt64

/-! ## Comparison as integers -/

/-- A signed and an unsigned integer that are the same 64 bits are one integer exactly
if the signed one is not negative. -/
theorem toUInt64_eq_iff {m : Int64} {n : UInt64} :
    0 ≤ m ∧ m.toUInt64 = n ↔ m.toInt = n.toNat := by
  have hlow : 0 ≤ m ↔ 0 ≤ m.toInt := Int64.le_iff_toInt_le
  have hbits : m.toInt = if 2 * m.toUInt64.toNat < 2 ^ 64 then (m.toUInt64.toNat : Int)
      else m.toUInt64.toNat - (2 ^ 64 : Nat) := BitVec.toInt_eq_toNat_cond _
  have hm := m.toUInt64.toNat_lt
  have hn := n.toNat_lt
  rw [hlow, ← UInt64.toNat_inj]
  split at hbits <;> omega

/-- Integers compare by what they denote, whatever their representations. -/
theorem equalIntegers?_eq (m n : Number) :
    m.equalIntegers? n = m.integer?.bind fun i => n.integer?.map fun j => i == j := by
  have hsigned (k l : Int64) : (k == l) = (k.toInt == l.toInt) := by
    rw [Bool.eq_iff_iff, beq_iff_eq, beq_iff_eq, Int64.toInt_inj]
  have hunsigned (k l : UInt64) : (k == l) = ((k.toNat : Int) == l.toNat) := by
    rw [Bool.eq_iff_iff, beq_iff_eq, beq_iff_eq, Int.natCast_inj, UInt64.toNat_inj]
  have hmixed (k : Int64) (l : UInt64) :
      (decide (0 ≤ k) && k.toUInt64 == l) = (k.toInt == l.toNat) := by
    rw [Bool.eq_iff_iff, Bool.and_eq_true, decide_eq_true_eq, beq_iff_eq, beq_iff_eq,
      toUInt64_eq_iff]
  cases m with
  | signed k =>
      cases n with
      | signed l => exact congrArg some (hsigned k l)
      | unsigned l => exact congrArg some (hmixed k l)
      | binary y => rfl
  | unsigned k =>
      cases n with
      | signed l => exact congrArg some ((hmixed l k).trans Bool.beq_comm)
      | unsigned l => exact congrArg some (hunsigned k l)
      | binary y => rfl
  | binary x => cases n <;> rfl

end Number

end TreePatch
