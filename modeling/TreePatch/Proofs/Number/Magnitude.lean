import Mathlib.Algebra.Order.Ring.Rat
import Mathlib.Order.Monotone.Basic
import TreePatch.Number.Exact

set_option autoImplicit false

/-!
# Floating-point numbers in a common unit

Every finite number of the format is a multiple of 2^-1075, and its magnitude, the bits below
the sign, says of which: `scaledMagnitude`. The magnitudes of one exponent are equally spaced,
and where the exponent steps up the next spacing begins (`scaledMagnitude_of_binade` holds at both
ends), so a greater magnitude is a greater value (`strictMono_scaledMagnitude`). Comparison, which
looks at bits, is therefore comparison of exact values (`equals_iff_scaled`).
-/

namespace TreePatch.Binary64

variable {x y : Binary64}

/-! ## Magnitudes -/

/-- The absolute value that a magnitude stands for, in units of 2^-1075. -/
def scaledMagnitude (m : Nat) : Nat :=
  (if m / leadingWeight = 0 then m % leadingWeight else leadingWeight + m % leadingWeight) <<<
    max (m / leadingWeight) 1

theorem significand_shift_exponent (x : Binary64) :
    x.significand <<< x.exponent = scaledMagnitude x.magnitude := rfl

/-- Below the least exponent of the normal numbers the spacing is that of the least exponent. -/
theorem scaledMagnitude_of_subnormal {f : Nat} (hf : f ≤ leadingWeight) :
    scaledMagnitude f = f * 2 := by
  rw [scaledMagnitude, Nat.shiftLeft_eq]
  unfold leadingWeight at hf ⊢
  rcases Nat.lt_or_eq_of_le hf with hlt | rfl
  · rw [Nat.div_eq_of_lt hlt, Nat.mod_eq_of_lt hlt]
    rfl
  · rfl

/-- Within one exponent the values are equally spaced, the first of the next one included. -/
theorem scaledMagnitude_of_binade {e f : Nat} (he : 1 ≤ e) (hf : f ≤ leadingWeight) :
    scaledMagnitude (e * leadingWeight + f) = (leadingWeight + f) * 2 ^ e := by
  rw [scaledMagnitude, Nat.shiftLeft_eq]
  rcases Nat.lt_or_eq_of_le hf with hlt | rfl
  · have hdiv : (e * leadingWeight + f) / leadingWeight = e := by
      unfold leadingWeight at hlt ⊢
      omega
    have hmod : (e * leadingWeight + f) % leadingWeight = f := by
      unfold leadingWeight at hlt ⊢
      omega
    rw [hdiv, hmod, if_neg (by omega), Nat.max_eq_left he]
  · have hdiv : (e * leadingWeight + leadingWeight) / leadingWeight = e + 1 := by
      unfold leadingWeight
      omega
    have hmod : (e * leadingWeight + leadingWeight) % leadingWeight = 0 := by
      unfold leadingWeight
      omega
    rw [hdiv, hmod, if_neg (by omega), Nat.max_eq_left (by omega), Nat.add_zero,
      ← Nat.two_mul leadingWeight, Nat.pow_succ, Nat.mul_comm (2 ^ e), ← Nat.mul_assoc,
      Nat.mul_comm 2]

/-- A greater magnitude stands for a greater value. -/
theorem strictMono_scaledMagnitude : StrictMono scaledMagnitude := by
  refine strictMono_nat_of_lt_succ fun m => ?_
  have hsplit : m = m / leadingWeight * leadingWeight + m % leadingWeight :=
    (Nat.div_add_mod' m leadingWeight).symm
  have hf : m % leadingWeight < leadingWeight := Nat.mod_lt m (by decide)
  generalize m / leadingWeight = e, m % leadingWeight = f at hsplit hf
  subst hsplit
  cases e with
  | zero =>
      rw [Nat.zero_mul, Nat.zero_add, scaledMagnitude_of_subnormal (Nat.le_of_lt hf),
        scaledMagnitude_of_subnormal hf]
      omega
  | succ e =>
      rw [scaledMagnitude_of_binade (Nat.succ_pos e) (Nat.le_of_lt hf), Nat.add_assoc,
        scaledMagnitude_of_binade (Nat.succ_pos e) hf]
      exact Nat.mul_lt_mul_of_pos_right (Nat.lt_succ_self _) (Nat.two_pow_pos _)

theorem scaledMagnitude_zero : scaledMagnitude 0 = 0 :=
  scaledMagnitude_of_subnormal (Nat.zero_le _)

/-- The significand is even exactly if the magnitude is. -/
theorem significand_mod_two (x : Binary64) : x.significand % 2 = x.magnitude % 2 := by
  rw [significand, biasedExponent, fraction]
  unfold leadingWeight
  split <;> omega

/-! ## Signs -/

/-- The value of a finite number in units of 2^-1075. -/
def scaled (x : Binary64) : Int := x.withSign (scaledMagnitude x.magnitude)

theorem natAbs_scaled (x : Binary64) : x.scaled.natAbs = scaledMagnitude x.magnitude := by
  rw [scaled, withSign]
  split <;> omega

/-- The bits of a number are its sign and its magnitude. -/
theorem toNat_bits (x : Binary64) :
    x.bits.toNat = (if x.isNegative then signWeight else 0) + x.magnitude := by
  have hlt := x.bits.toNat_lt
  simp only [isNegative, decide_eq_true_eq, magnitude]
  unfold signWeight
  split <;> omega

/-- The fields of a pattern that was put together from a sign and a magnitude. -/
theorem fields_ofNat (negative : Bool) {m : Nat} (hm : m < signWeight) :
    (mk (.ofNat ((if negative then signWeight else 0) + m))).isNegative = negative ∧
      (mk (.ofNat ((if negative then signWeight else 0) + m))).magnitude = m := by
  have hbits : (UInt64.ofNat ((if negative then signWeight else 0) + m)).toNat =
      (if negative then signWeight else 0) + m := by
    refine UInt64.toNat_ofNat_of_lt' ?_
    unfold signWeight at hm ⊢
    rw [UInt64.size]
    split <;> omega
  rw [isNegative, magnitude, hbits]
  unfold signWeight at hm ⊢
  cases negative <;> simp <;> omega

theorem eq_of_magnitude_eq (hsign : x.isNegative = y.isNegative)
    (hmagnitude : x.magnitude = y.magnitude) : x = y := by
  obtain ⟨a⟩ := x
  obtain ⟨b⟩ := y
  have hbits : a.toNat = b.toNat := by
    have ha := toNat_bits ⟨a⟩
    have hb := toNat_bits ⟨b⟩
    rw [hsign, hmagnitude] at ha
    exact ha.trans hb.symm
  rw [UInt64.toNat_inj.1 hbits]

theorem isNaN_of_isFinite (hx : x.isFinite = true) : x.isNaN = false := by
  simp only [isFinite, decide_eq_true_eq] at hx
  simp only [isNaN, decide_eq_false_iff_not]
  omega

theorem scaled_eq_zero_iff : x.scaled = 0 ↔ x.magnitude = 0 := by
  rw [← Int.natAbs_eq_zero, natAbs_scaled]
  exact ⟨fun h => strictMono_scaledMagnitude.injective (h.trans scaledMagnitude_zero.symm),
    fun h => h ▸ scaledMagnitude_zero⟩

theorem magnitude_eq_of_scaled_eq (h : x.scaled = y.scaled) : x.magnitude = y.magnitude := by
  apply strictMono_scaledMagnitude.injective
  rw [← natAbs_scaled, ← natAbs_scaled, h]

/-- Only the two zeros share a value. -/
theorem scaled_eq_iff : x.scaled = y.scaled ↔ x = y ∨ x.magnitude = 0 ∧ y.magnitude = 0 := by
  refine ⟨fun h => ?_, ?_⟩
  · have hmagnitude := magnitude_eq_of_scaled_eq h
    by_cases hsign : x.isNegative = y.isNegative
    · exact .inl (eq_of_magnitude_eq hsign hmagnitude)
    · -- Each is the negative of the other, so both are zero.
      have hzero : x.scaled = 0 := by
        have hneg : x.scaled = -y.scaled := by
          rw [scaled, scaled, hmagnitude, withSign, withSign]
          cases hx : x.isNegative <;> cases hy : y.isNegative <;> simp_all
        omega
      have hx := scaled_eq_zero_iff.1 hzero
      exact .inr ⟨hx, hmagnitude.symm.trans hx⟩
  · rintro (rfl | ⟨hx, hy⟩)
    · rfl
    · rw [scaled_eq_zero_iff.2 hx, scaled_eq_zero_iff.2 hy]

/-! ## Comparison -/

/-- Numbers that are no NaN compare equal if their bits are the same or both are zeros. -/
theorem equals_iff (hx : x.isNaN = false) (hy : y.isNaN = false) :
    x.equals y = true ↔ x = y ∨ x.magnitude = 0 ∧ y.magnitude = 0 := by
  have hbits : x.bits = y.bits ↔ x = y := by
    cases x
    cases y
    simp
  simp [equals, hx, hy, hbits]

/-- Finite numbers compare equal exactly if they have one value. -/
theorem equals_iff_scaled (hx : x.isFinite = true) (hy : y.isFinite = true) :
    x.equals y = true ↔ x.scaled = y.scaled := by
  rw [equals_iff (isNaN_of_isFinite hx) (isNaN_of_isFinite hy), scaled_eq_iff]

/-- A NaN compares equal to nothing. -/
theorem isNaN_of_equals (h : x.equals y = true) : x.isNaN = false ∧ y.isNaN = false := by
  simp only [equals, Bool.and_eq_true, Bool.not_eq_true'] at h
  exact h.1

theorem isFinite_of_equals (h : x.equals y = true) (hx : x.isFinite = true) :
    y.isFinite = true := by
  obtain ⟨hnan, hnan'⟩ := isNaN_of_equals h
  rcases (equals_iff hnan hnan').1 h with rfl | ⟨-, hzero⟩
  · exact hx
  · rw [isFinite, hzero]
    rfl

/-! ## Rational values -/

/-- How many of the unit make one. -/
@[irreducible] def unitsPerOne : Nat := 1 <<< 1075

theorem unitsPerOne_eq : unitsPerOne = 1 <<< 1075 := by
  rw [unitsPerOne]

theorem unitsPerOne_pos : 0 < unitsPerOne := by
  rw [unitsPerOne_eq, Nat.one_shiftLeft]
  exact Nat.two_pow_pos 1075

/-- The rational number that a finite number denotes is as many of the unit as it has. -/
theorem toRat?_eq_some_iff {q : Rat} :
    x.toRat? = some q ↔ x.isFinite = true ∧ (x.scaled : Rat) = q * unitsPerOne := by
  have hunit : (unitsPerOne : Rat) ≠ 0 := Nat.cast_ne_zero.2 (Nat.ne_of_gt unitsPerOne_pos)
  have hvalue : x.toRat? = if x.isFinite then some (mkRat x.scaled unitsPerOne) else none := by
    rw [toRat?, significand_shift_exponent, unitsPerOne_eq, scaled]
  rw [hvalue]
  split
  · rename_i hx
    rw [Option.some.injEq, Rat.mkRat_eq_div, div_eq_iff hunit]
    exact (and_iff_right hx).symm
  · rename_i hx
    simp [hx]

end TreePatch.Binary64
