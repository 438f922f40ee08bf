set_option autoImplicit false

/-!
# Binary64: floating-point numbers as bit patterns

A number of the IEEE 754 format with 64 bits is kept as its bits: one sign bit,
eleven bits of biased exponent and 52 bits of fraction. Keeping the bits, rather
than a machine operation's answer, makes every question about such a number a
question about natural numbers.

* `Binary64.equals`, `Binary64.lt` and `Binary64.le` are the comparisons of the
  format: a NaN compares with nothing, not even itself, and the two zeros are
  equal.
* `Binary64.ofInt` is the conversion of an integer: the nearest representable
  number, and of two equally near ones the one with the even significand.
* `Binary64.toInt?` is the exact integer that a number denotes, if it is one.
* `Binary64.trunc` cuts off what stands behind the binary point, and
  `Binary64.toInt64` converts what stands before it.
-/

namespace TreePatch

/-- A floating-point number by its 64 bits, the sign bit first. -/
structure Binary64 where
  bits : UInt64
deriving DecidableEq, Repr

namespace Binary64

/-! ## The three fields -/

/-- The weight of the sign bit. -/
def signWeight : Nat := 0x8000000000000000

/-- The weight of the last exponent bit, which is also that of the leading bit that
normal numbers imply. -/
def leadingWeight : Nat := 0x10000000000000

/-- The magnitude of infinity: all exponent bits and no fraction. -/
def infinity : Nat := 0x7ff0000000000000

/-- Is the sign bit set? -/
def isNegative (x : Binary64) : Bool := signWeight ≤ x.bits.toNat

/-- The bits below the sign. They order the numbers by their absolute values. -/
def magnitude (x : Binary64) : Nat := x.bits.toNat % signWeight

/-- The exponent as stored. -/
def biasedExponent (x : Binary64) : Nat := x.magnitude / leadingWeight

/-- The fraction as stored. -/
def fraction (x : Binary64) : Nat := x.magnitude % leadingWeight

/-- Is the pattern none of a number? -/
def isNaN (x : Binary64) : Bool := infinity < x.magnitude

/-- Is the pattern that of a number other than the infinities? -/
def isFinite (x : Binary64) : Bool := x.magnitude < infinity

/-! ## Comparison -/

/-- Equality of numbers. Away from NaN two numbers are equal when their bits are,
and the two zeros besides. -/
def equals (x y : Binary64) : Bool :=
  !x.isNaN && !y.isNaN && (x.bits == y.bits || (x.magnitude == 0 && y.magnitude == 0))

/-- An absolute value with the sign of `x`. -/
def withSign (x : Binary64) (n : Nat) : Int := if x.isNegative then -n else n

/-- Where a number stands in the order of values. Below zero the greater magnitude
comes first, and the two zeros stand at one place. -/
def rank (x : Binary64) : Int := x.withSign x.magnitude

/-- Is one number less than another? -/
def lt (x y : Binary64) : Bool := !x.isNaN && !y.isNaN && decide (x.rank < y.rank)

/-- Is one number at most another? -/
def le (x y : Binary64) : Bool := !x.isNaN && !y.isNaN && decide (x.rank ≤ y.rank)

/-! ## The exact value -/

/-- The significand with its leading bit: a finite number has the absolute value
`significand * 2 ^ (exponent - 1075)`. -/
def significand (x : Binary64) : Nat :=
  if x.biasedExponent = 0 then x.fraction else leadingWeight + x.fraction

/-- The exponent that goes with `significand`. Subnormal numbers share the least
exponent of the normal ones. -/
def exponent (x : Binary64) : Nat := max x.biasedExponent 1

/-- The integer that a finite number denotes, if it denotes one: a significand that
has to be shifted down is an integer when only zeros are shifted out. -/
def toInt? (x : Binary64) : Option Int :=
  if !x.isFinite then none
  else if 1075 ≤ x.exponent then some (x.withSign (x.significand <<< (x.exponent - 1075)))
  else
    let whole := x.significand >>> (1075 - x.exponent)
    if whole <<< (1075 - x.exponent) = x.significand then some (x.withSign whole) else none

/-! ## The integral part -/

/-- The number without what stands behind the binary point. Below one that leaves a
zero with the sign of the number. From 2^52 on nothing stands there, and the
patterns of NaN and the infinities are in that range, too. -/
def trunc (x : Binary64) : Binary64 :=
  if x.biasedExponent < 1023 then ⟨UInt64.ofNat (if x.isNegative then signWeight else 0)⟩
  else if x.biasedExponent < 1075 then
    let behind := 1075 - x.biasedExponent
    ⟨UInt64.ofNat (x.bits.toNat >>> behind <<< behind)⟩
  else x

/-- What stands before the binary point, as a signed 64-bit integer. It wraps around
where that is out of range; no caller may rely on what comes out there. -/
def toInt64 (x : Binary64) : Int64 :=
  .ofInt (x.withSign (x.significand <<< x.exponent >>> 1075))

/-! ## Conversion of integers -/

/-- The quotient of two numbers rounded to the nearest integer, a half to the even
neighbour. -/
def roundQuotient (n d : Nat) : Nat :=
  let q := n / d
  if 2 * (n % d) < d then q
  else if d < 2 * (n % d) then q + 1
  else q + q % 2

/-- The magnitude nearest to `n`. The significand is rounded to 53 bits; should it
round up to the next power of two, the carry runs into the exponent as it must. -/
def nearest (n : Nat) : Nat :=
  if n = 0 then 0
  else
    min infinity
      ((n.log2 + 1022) * leadingWeight + roundQuotient (n * leadingWeight) (1 <<< n.log2))

/-- The number nearest to an integer. -/
def ofInt (i : Int) : Binary64 :=
  ⟨UInt64.ofNat ((if i < 0 then signWeight else 0) + nearest i.natAbs)⟩

/-- Where the signed 64-bit integers start. The digits are not those of -2^63, but it
is the number nearest to them. -/
def int64Lower : Binary64 := ofInt (-9223372036854775800)

/-- Where the signed 64-bit integers have ended: the number nearest to these digits
is 2^63. -/
def int64Upper : Binary64 := ofInt 9223372036854775800

end Binary64

end TreePatch
