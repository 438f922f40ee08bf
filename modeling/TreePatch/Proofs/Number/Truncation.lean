import TreePatch.Proofs.Number.Nearest

set_option autoImplicit false

/-!
# Order and integral parts of floating-point numbers

Comparison of two numbers looks at the places of their bits in the order (`rank`), and these are
ordered as the exact values are (`rank_le_rank_iff`). Cutting off what stands behind the binary
point clears bits, of which the exponent says how many; in units of 2^-1075 it leaves the greatest
multiple of one that is not beyond the number (`scaledMagnitude_trunc`). So a finite number is its
own integral part exactly if it is a multiple of one (`trunc_equals_iff`).
-/

namespace TreePatch.Binary64

variable {x y : Binary64}

/-! ## Order -/

/-- The places of two numbers are ordered as their values are. -/
theorem rank_le_rank_iff : x.rank ≤ y.rank ↔ x.scaled ≤ y.scaled := by
  have hmono {a b : Nat} : scaledMagnitude a ≤ scaledMagnitude b ↔ a ≤ b :=
    strictMono_scaledMagnitude.le_iff_le
  have hxy := @hmono x.magnitude y.magnitude
  have hyx := @hmono y.magnitude x.magnitude
  -- A negative number is at most one that is not, and at least only if both are zero.
  have hx := @hmono x.magnitude 0
  have hy := @hmono y.magnitude 0
  rw [scaledMagnitude_zero] at hx hy
  rw [rank, rank, scaled, scaled, withSign, withSign, withSign, withSign]
  cases x.isNegative <;> cases y.isNegative <;>
    simp only [Bool.false_eq_true, if_true, if_false] <;> omega

theorem rank_lt_rank_iff : x.rank < y.rank ↔ x.scaled < y.scaled := by
  rw [← Int.not_le, ← Int.not_le, rank_le_rank_iff]

theorem lt_eq_false_iff (hx : x.isNaN = false) (hy : y.isNaN = false) :
    x.lt y = false ↔ y.scaled ≤ x.scaled := by
  simp [lt, hx, hy, rank_le_rank_iff]

theorem le_eq_false_iff (hx : x.isNaN = false) (hy : y.isNaN = false) :
    x.le y = false ↔ y.scaled < x.scaled := by
  simp [le, hx, hy, rank_lt_rank_iff]

/-! ## Bits -/

/-- Clearing low bits leaves alone what is a multiple of their weight. -/
theorem clear_add {w : Nat} (n : Nat) {b : Nat} (h : 2 ^ b ∣ w) :
    (w + n) >>> b <<< b = w + n >>> b <<< b := by
  obtain ⟨q, rfl⟩ := h
  simp only [Nat.shiftLeft_eq, Nat.shiftRight_eq_div_pow]
  rw [Nat.mul_add_div (Nat.two_pow_pos b), Nat.add_mul, Nat.mul_comm q]

/-! ## The integral part -/

/-- Below one nothing but the sign is left. -/
theorem fields_trunc_of_lt (h : x.biasedExponent < 1023) :
    x.trunc.isNegative = x.isNegative ∧ x.trunc.magnitude = 0 := by
  rw [trunc, if_pos h]
  exact fields_ofNat (m := 0) x.isNegative (by decide)

/-- Where the binary point is inside the significand, the bits behind it are cleared. -/
theorem fields_trunc_of_lt_of_le (h : 1023 ≤ x.biasedExponent) (h' : x.biasedExponent < 1075) :
    x.trunc.isNegative = x.isNegative ∧ x.trunc.magnitude =
      x.magnitude >>> (1075 - x.biasedExponent) <<< (1075 - x.biasedExponent) := by
  have hbehind : 1075 - x.biasedExponent ≤ 52 := by omega
  rw [trunc, if_neg (by omega), if_pos h']
  generalize 1075 - x.biasedExponent = b at hbehind
  have hsign : 2 ^ b ∣ if x.isNegative then signWeight else 0 := by
    split
    · exact Nat.pow_dvd_pow 2 (by omega : b ≤ 63)
    · exact Nat.dvd_zero _
  have hle : x.magnitude >>> b <<< b ≤ x.magnitude := by
    rw [Nat.shiftLeft_eq, Nat.shiftRight_eq_div_pow]
    exact Nat.div_mul_le_self _ _
  have hlt : x.magnitude < signWeight := Nat.mod_lt _ (by decide)
  dsimp only
  rw [toNat_bits, clear_add _ hsign]
  exact fields_ofNat x.isNegative (Nat.lt_of_le_of_lt hle hlt)

theorem trunc_of_le (h : 1075 ≤ x.biasedExponent) : x.trunc = x := by
  rw [trunc, if_neg (by omega), if_neg (by omega)]

theorem isNegative_trunc (x : Binary64) : x.trunc.isNegative = x.isNegative := by
  rcases Nat.lt_or_ge x.biasedExponent 1023 with h | h
  · exact (fields_trunc_of_lt h).1
  · rcases Nat.lt_or_ge x.biasedExponent 1075 with h' | h'
    · exact (fields_trunc_of_lt_of_le h h').1
    · rw [trunc_of_le h']

/-! ## The integral part in units of 2^-1075 -/

theorem magnitude_eq (x : Binary64) :
    x.magnitude = x.biasedExponent * leadingWeight + x.fraction :=
  (Nat.div_add_mod' x.magnitude leadingWeight).symm

theorem fraction_lt (x : Binary64) : x.fraction < leadingWeight := Nat.mod_lt _ (by decide)

/-- From one on a number is as many of the spacing at its exponent as its significand says. -/
theorem scaledMagnitude_of_biasedExponent {k : Nat} (h : x.biasedExponent = k + bias) :
    scaledMagnitude x.magnitude = (leadingWeight + x.fraction) * spacing k := by
  rw [magnitude_eq, h, scaledMagnitude_binade k (Nat.le_of_lt (fraction_lt x))]

theorem scaledMagnitude_lt_of_lt (h : x.biasedExponent < 1023) :
    scaledMagnitude x.magnitude < unitsPerOne := by
  -- One is the first number of its exponent.
  have hone : scaledMagnitude ((0 + bias) * leadingWeight + 0) = unitsPerOne := by
    rw [scaledMagnitude_binade 0 (Nat.zero_le leadingWeight), Nat.add_zero, unitsPerOne_eq_mul]
  have hlt : x.magnitude < (0 + bias) * leadingWeight + 0 := by
    have hfraction := fraction_lt x
    rw [magnitude_eq, bias_eq]
    unfold leadingWeight at hfraction ⊢
    omega
  exact hone ▸ strictMono_scaledMagnitude hlt

/-- From 2^52 on all numbers are multiples of one. -/
theorem unitsPerOne_dvd_of_le (h : 1075 ≤ x.biasedExponent) :
    unitsPerOne ∣ scaledMagnitude x.magnitude := by
  obtain ⟨k, hk⟩ : ∃ k, x.biasedExponent = (k + 52) + bias :=
    ⟨x.biasedExponent - 1075, by rw [bias_eq]; omega⟩
  have hspacing : spacing (k + 52) = 2 ^ k * unitsPerOne := by
    rw [spacing_eq_mul, Nat.pow_add, Nat.mul_assoc, unitsPerOne_eq_mul]
    rfl
  rw [scaledMagnitude_of_biasedExponent hk, hspacing]
  exact Nat.dvd_mul_left_of_dvd (Nat.dvd_mul_left _ _) _

/-- Between these the exponent says how many of the bits of the significand stand behind the
binary point, and those before it count the ones. -/
theorem scaledMagnitude_trunc_of_lt_of_le (h : 1023 ≤ x.biasedExponent)
    (h' : x.biasedExponent < 1075) : scaledMagnitude x.trunc.magnitude =
      scaledMagnitude x.magnitude / unitsPerOne * unitsPerOne := by
  obtain ⟨k, hk⟩ : ∃ k, x.biasedExponent = k + bias :=
    ⟨x.biasedExponent - bias, by rw [bias_eq]; omega⟩
  obtain ⟨b, hb⟩ : ∃ b, 1075 - x.biasedExponent = b := ⟨_, rfl⟩
  have hweight : leadingWeight = 2 ^ b * 2 ^ k := by
    rw [← Nat.pow_add, show b + k = 52 by rw [bias_eq] at hk; omega]
    rfl
  have hunit : unitsPerOne = 2 ^ b * spacing k := by
    rw [unitsPerOne_eq_mul, hweight, spacing_eq_mul k, Nat.mul_assoc]
  have hdvd : 2 ^ b ∣ leadingWeight := hweight ▸ Nat.dvd_mul_right _ _
  have hcleared : x.fraction >>> b <<< b ≤ leadingWeight := by
    rw [Nat.shiftLeft_eq, Nat.shiftRight_eq_div_pow]
    exact Nat.le_trans (Nat.div_mul_le_self _ _) (Nat.le_of_lt (fraction_lt x))
  calc scaledMagnitude x.trunc.magnitude
      _ = scaledMagnitude ((k + bias) * leadingWeight + x.fraction >>> b <<< b) := by
        rw [(fields_trunc_of_lt_of_le h h').2, hb, magnitude_eq, hk,
          clear_add _ (Nat.dvd_mul_left_of_dvd hdvd _)]
      _ = (leadingWeight + x.fraction) >>> b <<< b * spacing k := by
        rw [scaledMagnitude_binade k hcleared, clear_add _ hdvd]
      _ = (leadingWeight + x.fraction) / 2 ^ b * unitsPerOne := by
        rw [Nat.shiftLeft_eq, Nat.shiftRight_eq_div_pow, Nat.mul_assoc, hunit]
      _ = scaledMagnitude x.magnitude / unitsPerOne * unitsPerOne := by
        rw [scaledMagnitude_of_biasedExponent hk, hunit, Nat.mul_div_mul_right _ _ (spacing_pos k)]

/-- The absolute value of the integral part is the greatest multiple of one up to that of the
number. -/
theorem scaledMagnitude_trunc (x : Binary64) : scaledMagnitude x.trunc.magnitude =
    scaledMagnitude x.magnitude / unitsPerOne * unitsPerOne := by
  rcases Nat.lt_or_ge x.biasedExponent 1023 with h | h
  · rw [(fields_trunc_of_lt h).2, scaledMagnitude_zero,
      Nat.div_eq_of_lt (scaledMagnitude_lt_of_lt h), Nat.zero_mul]
  · rcases Nat.lt_or_ge x.biasedExponent 1075 with h' | h'
    · exact scaledMagnitude_trunc_of_lt_of_le h h'
    · rw [trunc_of_le h', Nat.div_mul_cancel (unitsPerOne_dvd_of_le h')]

theorem magnitude_trunc_le (x : Binary64) : x.trunc.magnitude ≤ x.magnitude := by
  rw [← strictMono_scaledMagnitude.le_iff_le, scaledMagnitude_trunc]
  exact Nat.div_mul_le_self _ _

/-- A finite number is its own integral part exactly if it is a multiple of one. -/
theorem trunc_equals_iff (hx : x.isFinite = true) :
    x.trunc.equals x = true ↔ unitsPerOne ∣ scaledMagnitude x.magnitude := by
  have htrunc : x.trunc.isFinite = true := by
    rw [isFinite, decide_eq_true_eq] at hx ⊢
    exact Nat.lt_of_le_of_lt (magnitude_trunc_le x) hx
  have hscaled : x.trunc.scaled = x.scaled ↔
      scaledMagnitude x.trunc.magnitude = scaledMagnitude x.magnitude := by
    rw [scaled, scaled, withSign, withSign, isNegative_trunc]
    split <;> omega
  rw [equals_iff_scaled htrunc hx, hscaled, scaledMagnitude_trunc, Nat.dvd_iff_div_mul_eq]

end TreePatch.Binary64
