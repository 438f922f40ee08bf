import Mathlib.Algebra.Order.Ring.Abs
import Mathlib.Algebra.Order.Ring.Cast
import Mathlib.Data.Int.Cast.Lemmas
import Mathlib.Data.Nat.Dist
import TreePatch.Proofs.Number.Magnitude

set_option autoImplicit false

/-!
# The conversion of integers rounds to nearest, ties to even

`IsNearest` says what the number nearest to an integer is, by exact values and without a word on
how it is found. `Binary64.ofInt` finds it (`isNearest_ofInt`), and there is no other but for the
sign of a zero (`isNearest_iff`).

The argument is about magnitudes. In the binade of the integer the values are the multiples of one
spacing, and rounding the quotient picks the best multiple (`roundQuotient_nearest`). A value
outside the binade is no nearer than the end of the binade on its side, which is such a multiple
(`exists_multiple`). Two equally near magnitudes have no third between them, so they are neighbours
and only one of them is even (`eq_nearest_of_even`).
-/

namespace TreePatch.Binary64

variable {x y : Binary64} {i : Int} {n m : Nat}

/-- A number is nearest to an integer if no other value is nearer, and if another one is equally
near, the significand is even. -/
def IsNearest (x : Binary64) (i : Int) : Prop :=
  ∃ q, x.toRat? = some q ∧ ∀ (y : Binary64) (r : Rat), y.toRat? = some r →
    |q - i| ≤ |r - i| ∧ (|r - i| = |q - i| → r = q ∨ x.significand % 2 = 0)

/-! ## Distances on the line -/

section Line

variable {a b s t : Nat}

/-- What lies on the way to a point is nearer to it. -/
theorem dist_of_between (h : a ≤ s ∧ s ≤ t ∨ t ≤ s ∧ s ≤ a) :
    Nat.dist s t ≤ Nat.dist a t ∧ (Nat.dist a t = Nat.dist s t → a = s) := by
  simp only [Nat.dist]
  omega

/-- Between two equally distant points there are nearer ones only. -/
theorem dist_lt_of_between (has : a < s) (hsb : s < b) (h : Nat.dist a t = Nat.dist b t) :
    Nat.dist s t < Nat.dist a t := by
  simp only [Nat.dist] at h ⊢
  omega

end Line

/-! ## Rounding a quotient -/

/-- No multiple is nearer than the one of the rounded quotient. If another is equally near, the
quotient is rounded to an even number. -/
theorem roundQuotient_nearest (n j : Nat) {d : Nat} (hd : 0 < d) :
    Nat.dist (roundQuotient n d * d) n ≤ Nat.dist (j * d) n ∧
      (Nat.dist (j * d) n = Nat.dist (roundQuotient n d * d) n →
        j = roundQuotient n d ∨ roundQuotient n d % 2 = 0) := by
  have hsplit : n / d * d + n % d = n := Nat.div_add_mod' n d
  have hr : n % d < d := Nat.mod_lt n hd
  -- The two multiples around the number, and the others beyond them.
  have hj : j * d + d ≤ n / d * d ∨ j = n / d ∨ j = n / d + 1 ∨
      n / d * d + 2 * d ≤ j * d := by
    rcases Nat.lt_trichotomy j (n / d) with h | h | h
    · have hmul := Nat.mul_le_mul_right d h
      rw [Nat.succ_mul] at hmul
      exact .inl hmul
    · exact .inr (.inl h)
    · rcases Nat.eq_or_lt_of_le h with h | h
      · exact .inr (.inr (.inl h.symm))
      · have hmul : (n / d + 2) * d ≤ j * d := Nat.mul_le_mul_right d h
        rw [Nat.add_mul] at hmul
        exact .inr (.inr (.inr hmul))
  have hnext : (n / d + 1) * d = n / d * d + d := Nat.succ_mul _ _
  have hround : roundQuotient n d = n / d ∧ 2 * (n % d) < d ∨
      roundQuotient n d = n / d + 1 ∧ d < 2 * (n % d) ∨
      roundQuotient n d = n / d ∧ 2 * (n % d) = d ∧ n / d % 2 = 0 ∨
      roundQuotient n d = n / d + 1 ∧ 2 * (n % d) = d ∧ n / d % 2 = 1 := by
    rw [roundQuotient]
    split
    · omega
    · split <;> omega
  simp only [Nat.dist]
  rcases hround with ⟨hq, h⟩ | ⟨hq, h⟩ | ⟨hq, h, hpar⟩ | ⟨hq, h, hpar⟩ <;>
    rcases hj with hj | rfl | rfl | hj <;> rw [hq] <;> omega

/-! ## The binade of an integer -/

/-- The exponent that is stored with one. -/
def bias : Nat := 1023

theorem bias_eq : bias = 1023 := rfl

/-- The distance between two values at an integer with `k + 1` binary digits, in units of
2^-1075. -/
def spacing (k : Nat) : Nat := 2 ^ (k + bias)

theorem spacing_eq (k : Nat) : spacing k = 2 ^ (k + bias) := rfl

-- Such powers of two are never to be computed.
attribute [irreducible] bias spacing

theorem spacing_eq_mul (k : Nat) : spacing k = 2 ^ k * spacing 0 := by
  rw [spacing_eq, spacing_eq, Nat.pow_add, Nat.zero_add]

theorem unitsPerOne_eq_mul : unitsPerOne = leadingWeight * spacing 0 := by
  have hexponent : 1075 = 52 + bias := by rw [bias_eq]
  rw [unitsPerOne_eq, hexponent, spacing_eq, Nat.zero_add, Nat.one_shiftLeft, Nat.pow_add]
  rfl

theorem spacing_pos (k : Nat) : 0 < spacing k := by
  rw [spacing_eq]
  exact Nat.two_pow_pos _

theorem scaledMagnitude_binade (k : Nat) {f : Nat} (hf : f ≤ leadingWeight) :
    scaledMagnitude ((k + bias) * leadingWeight + f) = (leadingWeight + f) * spacing k := by
  rw [scaledMagnitude_of_binade (by rw [bias_eq]; omega) hf, spacing_eq]

/-- A significand is even exactly if the magnitude that stores it is. -/
theorem even_significand_iff (k : Nat) {f : Nat} :
    (leadingWeight + f) % 2 = 0 ↔ ((k + bias) * leadingWeight + f) % 2 = 0 := by
  unfold leadingWeight
  omega

/-- A positive integer lies in its binade. -/
theorem spacing_bounds (hn : n ≠ 0) :
    leadingWeight * spacing n.log2 ≤ n * unitsPerOne ∧
      n * unitsPerOne ≤ (leadingWeight + leadingWeight) * spacing n.log2 := by
  have hlow : 2 ^ n.log2 ≤ n := Nat.log2_self_le hn
  have hhigh : n ≤ 2 ^ n.log2 + 2 ^ n.log2 := by
    rw [← Nat.two_mul, ← Nat.pow_succ']
    exact Nat.le_of_lt Nat.lt_log2_self
  have hunits : n * unitsPerOne = leadingWeight * spacing 0 * n := by
    rw [unitsPerOne_eq_mul, Nat.mul_comm]
  have hspacing : leadingWeight * spacing n.log2 = leadingWeight * spacing 0 * 2 ^ n.log2 := by
    rw [spacing_eq_mul, Nat.mul_comm (2 ^ n.log2), Nat.mul_assoc]
  rw [Nat.add_mul, hspacing, hunits, ← Nat.mul_add]
  exact ⟨Nat.mul_le_mul_left _ hlow, Nat.mul_le_mul_left _ hhigh⟩

/-- Whatever the magnitude, some multiple of the spacing at a positive integer is as near to the
integer, and nearer unless it is the value of the magnitude. -/
theorem exists_multiple (hn : n ≠ 0) (m : Nat) :
    ∃ j, Nat.dist (j * spacing n.log2) (n * unitsPerOne) ≤
        Nat.dist (scaledMagnitude m) (n * unitsPerOne) ∧
      (Nat.dist (scaledMagnitude m) (n * unitsPerOne) =
          Nat.dist (j * spacing n.log2) (n * unitsPerOne) →
        scaledMagnitude m = j * spacing n.log2) := by
  obtain ⟨hlow, hhigh⟩ := spacing_bounds hn
  have hmono := strictMono_scaledMagnitude.monotone
  rcases Nat.le_total m ((n.log2 + bias) * leadingWeight + 0) with hm | hm
  · -- Below the binade: its lower end is nearer.
    have hend := hmono hm
    rw [scaledMagnitude_binade n.log2 (Nat.zero_le _)] at hend
    exact ⟨leadingWeight, dist_of_between (.inl ⟨hend, hlow⟩)⟩
  rcases Nat.le_total ((n.log2 + bias) * leadingWeight + leadingWeight) m with hm' | hm'
  · -- Above the binade: its upper end is nearer.
    have hend := hmono hm'
    rw [scaledMagnitude_binade n.log2 (Nat.le_refl _)] at hend
    exact ⟨leadingWeight + leadingWeight, dist_of_between (.inr ⟨hhigh, hend⟩)⟩
  · -- In the binade every value is a multiple.
    obtain ⟨f, rfl⟩ := Nat.exists_eq_add_of_le hm
    rw [Nat.add_zero] at hm' ⊢
    rw [scaledMagnitude_binade n.log2 (Nat.le_of_add_le_add_left hm')]
    exact ⟨leadingWeight + f, Nat.le_refl _, fun _ => rfl⟩

/-! ## The nearest magnitude -/

/-- The rounded significand of a positive integer has 53 bits, or is the next power of two. -/
theorem roundQuotient_bounds (hn : n ≠ 0) :
    leadingWeight ≤ roundQuotient (n * leadingWeight) (2 ^ n.log2) ∧
      roundQuotient (n * leadingWeight) (2 ^ n.log2) ≤ leadingWeight + leadingWeight := by
  have hd : 0 < 2 ^ n.log2 := Nat.two_pow_pos _
  have hlow : leadingWeight ≤ n * leadingWeight / 2 ^ n.log2 := by
    rw [Nat.le_div_iff_mul_le hd, Nat.mul_comm]
    exact Nat.mul_le_mul_right _ (Nat.log2_self_le hn)
  have hhigh : n * leadingWeight / 2 ^ n.log2 < leadingWeight + leadingWeight := by
    rw [Nat.div_lt_iff_lt_mul hd, ← Nat.two_mul, Nat.mul_right_comm, ← Nat.pow_succ']
    exact Nat.mul_lt_mul_of_pos_right Nat.lt_log2_self (by decide)
  rw [roundQuotient]
  split
  · omega
  · split <;> omega

/-- The magnitude nearest to a positive integer lies in the binade of the integer, at the rounded
significand. -/
theorem exists_nearest_eq (hn : n ≠ 0) (hlog : n.log2 ≤ 1022) :
    ∃ f ≤ leadingWeight,
      roundQuotient (n * leadingWeight) (2 ^ n.log2) = leadingWeight + f ∧
      nearest n = (n.log2 + bias) * leadingWeight + f := by
  obtain ⟨hlow, hhigh⟩ := roundQuotient_bounds hn
  refine ⟨_, Nat.sub_le_iff_le_add'.2 hhigh, (Nat.add_sub_of_le hlow).symm, ?_⟩
  rw [nearest, if_neg hn, Nat.one_shiftLeft]
  generalize roundQuotient (n * leadingWeight) (2 ^ n.log2) = r at hlow hhigh
  rw [bias_eq]
  unfold infinity
  unfold leadingWeight at hlow hhigh ⊢
  omega

theorem nearest_lt_infinity (hlog : n.log2 ≤ 1022) : nearest n < infinity := by
  by_cases hn : n = 0
  · subst hn
    decide
  · obtain ⟨f, hf, -, hnearest⟩ := exists_nearest_eq hn hlog
    rw [hnearest, bias_eq]
    unfold infinity
    unfold leadingWeight at hf ⊢
    omega

/-- The value of the nearest magnitude is the rounded significand in units of the spacing. -/
theorem scaledMagnitude_nearest (hn : n ≠ 0) (hlog : n.log2 ≤ 1022) :
    scaledMagnitude (nearest n) =
      roundQuotient (n * leadingWeight) (2 ^ n.log2) * spacing n.log2 := by
  obtain ⟨f, hf, hround, hnearest⟩ := exists_nearest_eq hn hlog
  rw [hnearest, scaledMagnitude_binade n.log2 hf, hround]

/-- Distances to multiples of the spacing are those of the quotient that is rounded, in a unit. -/
theorem dist_multiple (n j : Nat) : Nat.dist (j * spacing n.log2) (n * unitsPerOne) =
    Nat.dist (j * 2 ^ n.log2) (n * leadingWeight) * spacing 0 := by
  rw [← Nat.dist_mul_right, unitsPerOne_eq_mul, spacing_eq_mul, Nat.mul_assoc, Nat.mul_assoc]

/-- No magnitude has a value nearer to an integer than the one chosen. If another one is equally
near, the one chosen is even. -/
theorem nearest_le (hlog : n.log2 ≤ 1022) (m : Nat) :
    Nat.dist (scaledMagnitude (nearest n)) (n * unitsPerOne) ≤
        Nat.dist (scaledMagnitude m) (n * unitsPerOne) ∧
      (Nat.dist (scaledMagnitude m) (n * unitsPerOne) =
          Nat.dist (scaledMagnitude (nearest n)) (n * unitsPerOne) →
        m = nearest n ∨ nearest n % 2 = 0) := by
  by_cases hn : n = 0
  · subst hn
    have hnearest : nearest 0 = 0 := rfl
    rw [hnearest, scaledMagnitude_zero, Nat.zero_mul, Nat.dist_self]
    exact ⟨Nat.zero_le _, fun _ => .inr rfl⟩
  have hvalue := scaledMagnitude_nearest hn hlog
  obtain ⟨j, hle, heq⟩ := exists_multiple hn m
  obtain ⟨hle', heq'⟩ := roundQuotient_nearest (n * leadingWeight) j (Nat.two_pow_pos n.log2)
  have hbest : Nat.dist (scaledMagnitude (nearest n)) (n * unitsPerOne) ≤
      Nat.dist (j * spacing n.log2) (n * unitsPerOne) := by
    rw [hvalue, dist_multiple, dist_multiple]
    exact Nat.mul_le_mul_right _ hle'
  refine ⟨Nat.le_trans hbest hle, fun h => ?_⟩
  have hj : Nat.dist (j * spacing n.log2) (n * unitsPerOne) =
      Nat.dist (scaledMagnitude (nearest n)) (n * unitsPerOne) :=
    Nat.le_antisymm (Nat.le_trans hle (Nat.le_of_eq h)) hbest
  have hm := heq (h.trans hj.symm)
  rw [hvalue, dist_multiple, dist_multiple] at hj
  rcases heq' (Nat.eq_of_mul_eq_mul_right (spacing_pos 0) hj) with rfl | heven
  · exact .inl (strictMono_scaledMagnitude.injective (hm.trans hvalue.symm))
  · obtain ⟨f, -, hround, hnearest⟩ := exists_nearest_eq hn hlog
    rw [hround, even_significand_iff n.log2] at heven
    exact .inr (hnearest ▸ heven)

/-- A positive integer whose binary digits after the 53rd are zeros is a value of the format. -/
theorem scaledMagnitude_nearest_of_dvd (hn : n ≠ 0) (hlog : n.log2 ≤ 1022)
    (hdvd : 2 ^ n.log2 ∣ n * leadingWeight) : scaledMagnitude (nearest n) = n * unitsPerOne := by
  have hround : roundQuotient (n * leadingWeight) (2 ^ n.log2) =
      n * leadingWeight / 2 ^ n.log2 := by
    rw [roundQuotient, Nat.mod_eq_zero_of_dvd hdvd, Nat.mul_zero]
    exact if_pos (Nat.two_pow_pos _)
  rw [scaledMagnitude_nearest hn hlog, hround, spacing_eq_mul, ← Nat.mul_assoc,
    Nat.div_mul_cancel hdvd, unitsPerOne_eq_mul, Nat.mul_assoc]

/-- Two even magnitudes are not equally near, for one between them would be nearer. -/
theorem eq_nearest_of_even (hlog : n.log2 ≤ 1022)
    (h : Nat.dist (scaledMagnitude m) (n * unitsPerOne) =
      Nat.dist (scaledMagnitude (nearest n)) (n * unitsPerOne))
    (hm : m % 2 = 0) (hnearest : nearest n % 2 = 0) : m = nearest n := by
  have hbest := fun k => (nearest_le hlog k).1
  have hmono := @strictMono_scaledMagnitude
  rcases Nat.lt_trichotomy m (nearest n) with hlt | heq | hlt
  · have hnear := dist_lt_of_between (hmono (Nat.lt_succ_self m))
      (hmono (show m + 1 < nearest n by omega)) h
    exact absurd (hbest (m + 1)) (Nat.not_le_of_lt (h ▸ hnear))
  · exact heq
  · have hnear := dist_lt_of_between (hmono (Nat.lt_succ_self (nearest n)))
      (hmono (show nearest n + 1 < m by omega)) h.symm
    exact absurd (hbest (nearest n + 1)) (Nat.not_le_of_lt hnear)

/-! ## The conversion -/

theorem nearest_le_infinity (n : Nat) : nearest n ≤ infinity := by
  rw [nearest]
  split
  · exact Nat.zero_le _
  · exact Nat.min_le_left _ _

theorem fields_ofInt (i : Int) :
    (ofInt i).isNegative = decide (i < 0) ∧ (ofInt i).magnitude = nearest i.natAbs := by
  have hlt : nearest i.natAbs < signWeight :=
    Nat.lt_of_le_of_lt (nearest_le_infinity i.natAbs) (by decide)
  have hfields := fields_ofNat (decide (i < 0)) hlt
  simp only [decide_eq_true_eq] at hfields
  exact hfields

theorem magnitude_ofInt (i : Int) : (ofInt i).magnitude = nearest i.natAbs := (fields_ofInt i).2

theorem isNegative_ofInt (i : Int) : (ofInt i).isNegative = decide (i < 0) := (fields_ofInt i).1

theorem isFinite_ofInt (hlog : i.natAbs.log2 ≤ 1022) : (ofInt i).isFinite = true := by
  rw [isFinite, magnitude_ofInt, decide_eq_true_eq]
  exact nearest_lt_infinity hlog

/-! ## Signs -/

/-- How far a number is from an integer, in units of 2^-1075. -/
def gap (x : Binary64) (i : Int) : Nat := (x.scaled - i * unitsPerOne).natAbs

theorem natAbs_mul_unitsPerOne (i : Int) : (i * unitsPerOne).natAbs = i.natAbs * unitsPerOne := by
  rw [Int.natAbs_mul, Int.natAbs_natCast]

/-- Magnitudes are at least as near as the numbers. -/
theorem dist_le_gap (x : Binary64) (i : Int) :
    Nat.dist (scaledMagnitude x.magnitude) (i.natAbs * unitsPerOne) ≤ x.gap i := by
  rw [← natAbs_scaled, ← natAbs_mul_unitsPerOne, gap]
  generalize i * unitsPerOne = t
  simp only [Nat.dist]
  omega

/-- The converted integer has the sign of the integer. -/
theorem scaled_ofInt (i : Int) :
    0 ≤ (ofInt i).scaled ∧ 0 ≤ i * unitsPerOne ∨ (ofInt i).scaled ≤ 0 ∧ i * unitsPerOne < 0 := by
  rw [scaled, withSign, isNegative_ofInt]
  have hunit : (0 : Int) < unitsPerOne := Int.natCast_pos.2 unitsPerOne_pos
  by_cases hi : i < 0
  · have ht : i * unitsPerOne < 0 := Int.mul_neg_of_neg_of_pos hi hunit
    rw [decide_eq_true hi, if_pos rfl]
    exact .inr ⟨by omega, ht⟩
  · have ht : 0 ≤ i * unitsPerOne := Int.mul_nonneg (by omega) (Int.le_of_lt hunit)
    rw [decide_eq_false hi, if_neg Bool.false_ne_true]
    exact .inl ⟨by omega, ht⟩

theorem gap_ofInt (i : Int) : (ofInt i).gap i =
    Nat.dist (scaledMagnitude (nearest i.natAbs)) (i.natAbs * unitsPerOne) := by
  have hsign := scaled_ofInt i
  rw [← magnitude_ofInt, ← natAbs_scaled, ← natAbs_mul_unitsPerOne, gap]
  generalize (ofInt i).scaled = a, i * unitsPerOne = t at hsign
  simp only [Nat.dist]
  omega

/-- A number of the same magnitude and as near as the converted integer has its value. -/
theorem scaled_eq_of_gap_eq (hmagnitude : y.magnitude = (ofInt i).magnitude)
    (hgap : y.gap i = (ofInt i).gap i) : y.scaled = (ofInt i).scaled := by
  by_cases hi : i = 0
  · subst hi
    have hzero : (ofInt 0).magnitude = 0 := magnitude_ofInt 0
    rw [scaled_eq_zero_iff.2 hzero, scaled_eq_zero_iff.2 (hmagnitude.trans hzero)]
  · have ht : i * unitsPerOne ≠ 0 :=
      Int.mul_ne_zero hi (Int.natCast_ne_zero.2 (Nat.ne_of_gt unitsPerOne_pos))
    have hsign := scaled_ofInt i
    have habs : y.scaled.natAbs = (ofInt i).scaled.natAbs := by
      rw [natAbs_scaled, natAbs_scaled, hmagnitude]
    rw [gap, gap] at hgap
    generalize y.scaled = a, (ofInt i).scaled = b, i * unitsPerOne = t at *
    omega

/-- No number is nearer to an integer than the converted integer. If another one is equally near,
the converted integer is even. -/
theorem gap_ofInt_le (hlog : i.natAbs.log2 ≤ 1022) (y : Binary64) :
    (ofInt i).gap i ≤ y.gap i ∧ (y.gap i = (ofInt i).gap i →
      y.scaled = (ofInt i).scaled ∨ (ofInt i).magnitude % 2 = 0) := by
  obtain ⟨hle, heven⟩ := nearest_le hlog y.magnitude
  have hdist := dist_le_gap y i
  rw [← gap_ofInt] at hle heven
  refine ⟨Nat.le_trans hle hdist, fun h => ?_⟩
  rw [magnitude_ofInt]
  refine (heven (Nat.le_antisymm (h ▸ hdist) hle)).imp_left fun hmagnitude => ?_
  exact scaled_eq_of_gap_eq (hmagnitude.trans (magnitude_ofInt i).symm) h

/-! ## Rational distances -/

theorem abs_sub_mul_unitsPerOne {q : Rat} (hq : (x.scaled : Rat) = q * unitsPerOne) :
    |q - i| * unitsPerOne = x.gap i := by
  have hunit : (0 : Rat) < unitsPerOne := Nat.cast_pos.2 unitsPerOne_pos
  rw [gap, Nat.cast_natAbs, Int.cast_abs, Int.cast_sub, Int.cast_mul, Int.cast_natCast, hq,
    ← sub_mul, abs_mul, abs_of_pos hunit]

theorem exists_toRat? (hx : x.isFinite = true) : ∃ q, x.toRat? = some q := by
  have hunit : (unitsPerOne : Rat) ≠ 0 := Nat.cast_ne_zero.2 (Nat.ne_of_gt unitsPerOne_pos)
  exact ⟨x.scaled / unitsPerOne, toRat?_eq_some_iff.2 ⟨hx, (div_mul_cancel₀ _ hunit).symm⟩⟩

theorem isNearest_iff_gap : x.IsNearest i ↔ x.isFinite = true ∧ ∀ y : Binary64,
    y.isFinite = true → x.gap i ≤ y.gap i ∧
      (y.gap i = x.gap i → y.scaled = x.scaled ∨ x.magnitude % 2 = 0) := by
  have hunit : (0 : Rat) < unitsPerOne := Nat.cast_pos.2 unitsPerOne_pos
  -- Distances and values of two numbers compare as their multiples do.
  have hcompare : ∀ {q r : Rat} {y : Binary64}, (x.scaled : Rat) = q * unitsPerOne →
      (y.scaled : Rat) = r * unitsPerOne → (|q - i| ≤ |r - i| ↔ x.gap i ≤ y.gap i) ∧
        (|r - i| = |q - i| ↔ y.gap i = x.gap i) ∧ (r = q ↔ y.scaled = x.scaled) := by
    intro q r y hq hr
    refine ⟨?_, ?_, ?_⟩
    · rw [← mul_le_mul_iff_left₀ hunit, abs_sub_mul_unitsPerOne hq, abs_sub_mul_unitsPerOne hr,
        Nat.cast_le]
    · rw [← mul_left_inj' hunit.ne', abs_sub_mul_unitsPerOne hq, abs_sub_mul_unitsPerOne hr,
        Nat.cast_inj]
    · rw [← mul_left_inj' hunit.ne', ← hq, ← hr, Int.cast_inj]
  constructor
  · rintro ⟨q, hq, h⟩
    obtain ⟨hx, hq⟩ := toRat?_eq_some_iff.1 hq
    refine ⟨hx, fun y hy => ?_⟩
    obtain ⟨r, hr⟩ := exists_toRat? hy
    obtain ⟨hle, heq, hval⟩ := hcompare hq (toRat?_eq_some_iff.1 hr).2
    have hy := h y r hr
    rwa [hle, heq, hval, significand_mod_two] at hy
  · rintro ⟨hx, h⟩
    obtain ⟨q, hq⟩ := exists_toRat? hx
    refine ⟨q, hq, fun y r hr => ?_⟩
    obtain ⟨hy, hr⟩ := toRat?_eq_some_iff.1 hr
    obtain ⟨hle, heq, hval⟩ := hcompare (toRat?_eq_some_iff.1 hq).2 hr
    rw [hle, heq, hval, significand_mod_two]
    exact h y hy

/-! ## The nearest number -/

/-- The conversion gives the nearest number. -/
theorem isNearest_ofInt (hlog : i.natAbs.log2 ≤ 1022) : (ofInt i).IsNearest i :=
  isNearest_iff_gap.2 ⟨isFinite_ofInt hlog, fun y _ => gap_ofInt_le hlog y⟩

/-- Integers up to 2^53 in absolute value are values of the format. -/
theorem toRat?_ofInt (hi : i.natAbs ≤ 2 ^ 53) : (ofInt i).toRat? = some (i : Rat) := by
  have hlog : i.natAbs.log2 ≤ 53 := by
    by_cases hn : i.natAbs = 0
    · rw [hn]
      decide
    · exact Nat.lt_succ_iff.1 ((Nat.log2_lt hn).2 (Nat.lt_of_le_of_lt hi (by decide)))
  have hvalue : scaledMagnitude (nearest i.natAbs) = i.natAbs * unitsPerOne := by
    by_cases hn : i.natAbs = 0
    · rw [hn, Nat.zero_mul]
      exact scaledMagnitude_zero
    refine scaledMagnitude_nearest_of_dvd hn (by omega) ?_
    rcases Nat.eq_or_lt_of_le hi with heq | hlt
    · rw [heq, Nat.log2_two_pow]
      exact Nat.dvd_mul_right _ _
    · have hlog' : i.natAbs.log2 ≤ 52 := Nat.lt_succ_iff.1 ((Nat.log2_lt hn).2 hlt)
      exact Nat.dvd_mul_left_of_dvd (Nat.pow_dvd_pow 2 hlog') _
  have hgap : (ofInt i).gap i = 0 := by rw [gap_ofInt, hvalue, Nat.dist_self]
  have hscaled : (ofInt i).scaled = i * unitsPerOne :=
    Int.sub_eq_zero.1 (Int.natAbs_eq_zero.1 hgap)
  refine toRat?_eq_some_iff.2 ⟨isFinite_ofInt (by omega), ?_⟩
  rw [hscaled, Int.cast_mul, Int.cast_natCast]

/-- A number that denotes the integer is nearest to it. -/
theorem isNearest_of_toRat? (h : x.toRat? = some (i : Rat)) : x.IsNearest i := by
  refine ⟨i, h, fun y r _ => ?_⟩
  rw [sub_self, abs_zero]
  exact ⟨abs_nonneg _, fun hr => .inl (sub_eq_zero.1 (abs_eq_zero.1 hr))⟩

/-- If some number denotes the integer, the nearest one does. -/
theorem IsNearest.toRat? (h : x.IsNearest i) (hy : y.toRat? = some (i : Rat)) :
    x.toRat? = some (i : Rat) := by
  obtain ⟨q, hq, hbest⟩ := h
  have hle := (hbest y i hy).1
  rw [sub_self, abs_zero] at hle
  rw [hq, sub_eq_zero.1 (abs_nonpos_iff.1 hle)]

/-- Being nearest is a matter of the value. -/
theorem IsNearest.congr (h : x.IsNearest i) (hy : y.isFinite = true)
    (hscaled : y.scaled = x.scaled) : y.IsNearest i := by
  rw [isNearest_iff_gap] at h ⊢
  rw [gap, hscaled, magnitude_eq_of_scaled_eq hscaled]
  exact ⟨hy, h.2⟩

/-- Numbers nearest to one integer have one value: of two equally near ones, only one is even. -/
theorem IsNearest.scaled_eq (hlog : i.natAbs.log2 ≤ 1022) (h : x.IsNearest i) :
    x.scaled = (ofInt i).scaled := by
  obtain ⟨hx, hbest⟩ := isNearest_iff_gap.1 h
  obtain ⟨hle, heven⟩ := hbest (ofInt i) (isFinite_ofInt hlog)
  obtain ⟨hle', heven'⟩ := gap_ofInt_le hlog x
  have hgap := Nat.le_antisymm hle hle'
  rcases heven hgap.symm with heq | hparity
  · exact heq.symm
  rcases heven' hgap with heq | hparity'
  · exact heq
  refine scaled_eq_of_gap_eq ?_ hgap
  rw [magnitude_ofInt] at hparity' ⊢
  have hdist := dist_le_gap x i
  rw [hgap, gap_ofInt] at hdist
  exact eq_nearest_of_even hlog (Nat.le_antisymm hdist (nearest_le hlog _).1) hparity hparity'

/-- A number is nearest to an integer exactly if it compares equal to the converted integer. -/
theorem isNearest_iff (hlog : i.natAbs.log2 ≤ 1022) :
    x.IsNearest i ↔ (ofInt i).equals x = true := by
  have hfinite := isFinite_ofInt hlog
  constructor
  · intro h
    rw [equals_iff_scaled hfinite (isNearest_iff_gap.1 h).1, h.scaled_eq hlog]
  · intro h
    have hx := isFinite_of_equals h hfinite
    exact (isNearest_ofInt hlog).congr hx ((equals_iff_scaled hfinite hx).1 h).symm

end TreePatch.Binary64
