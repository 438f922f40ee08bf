import TreePatch.Proofs.Number.Equality
import TreePatch.Proofs.Number.Truncation

set_option autoImplicit false

/-!
# Numbers that denote an integer

The conversion to a signed integer of 64 bits neither rounds nor wraps around: it answers with the
exact value of the number where that is an integer of the range, and with nothing otherwise
(`Value.int64?_exact`).

Each representation has its own way to that answer. A floating-point number is compared with its
integral part and with two bounds, and then cast: the checks let through exactly the integers of
the range (`Binary64.passes_checks_iff`), on which the cast is exact (`Binary64.toInt64_of_toInt?`).
All ways come to one condition on the integer that the number denotes (`Number.toInt64?_eq_bind`).

Which integer a floating-point number denotes is a question about bits. Its significand is shifted
by its exponent, and the value is an integer exactly if what comes out is a multiple of the unit
(`Binary64.scaled_eq_mul_iff`). The factor is found by shifting back, or down where only zeros are
shifted out (`Binary64.toInt?_eq_some_iff_shift`).
-/

namespace TreePatch

/-! ## Floating-point numbers -/

namespace Binary64

variable {x : Binary64} {i : Int}

theorem withSign_mul (x : Binary64) (n k : Nat) : x.withSign (n * k) = x.withSign n * k := by
  rw [withSign, withSign]
  split
  · rw [Int.natCast_mul, Int.neg_mul]
  · exact Int.natCast_mul n k

/-- What is shifted by at least as much as the unit is a multiple of it. -/
theorem shiftLeft_eq_mul_iff_of_le {s e k n : Nat} (h : k ≤ e) :
    s <<< e = n * 1 <<< k ↔ s <<< (e - k) = n := by
  have hsplit : s <<< e = s <<< (e - k) * 2 ^ k := by
    rw [← Nat.shiftLeft_eq, ← Nat.shiftLeft_add, Nat.sub_add_cancel h]
  rw [hsplit, Nat.one_shiftLeft]
  exact Nat.mul_left_inj (Nat.ne_of_gt (Nat.two_pow_pos k))

/-- What is shifted by less is one if it has the missing zeros at its end. -/
theorem shiftLeft_eq_mul_iff_of_ge {s e k n : Nat} (h : e ≤ k) :
    s <<< e = n * 1 <<< k ↔ s = n <<< (k - e) := by
  have hsplit : n * 2 ^ k = n <<< (k - e) * 2 ^ e := by
    rw [← Nat.shiftLeft_eq, ← Nat.shiftLeft_eq, ← Nat.shiftLeft_add, Nat.sub_add_cancel h]
  rw [Nat.one_shiftLeft, hsplit, Nat.shiftLeft_eq]
  exact Nat.mul_left_inj (Nat.ne_of_gt (Nat.two_pow_pos e))

/-- A finite number denotes an integer if it has that many times the units of one. -/
theorem toRat?_eq_intCast_iff :
    x.toRat? = some (i : Rat) ↔ x.isFinite = true ∧ x.scaled = i * unitsPerOne := by
  rw [toRat?_eq_some_iff, ← Int.cast_natCast unitsPerOne, ← Int.cast_mul, Int.cast_inj]

/-- The shifted significand is the multiple, the sign aside. -/
theorem scaled_eq_mul_iff : x.scaled = i * unitsPerOne ↔
    ∃ n, x.significand <<< x.exponent = n * unitsPerOne ∧ x.withSign n = i := by
  have hunit : (unitsPerOne : Int) ≠ 0 := Int.natCast_ne_zero.2 (Nat.ne_of_gt unitsPerOne_pos)
  constructor
  · intro h
    have hshift : x.significand <<< x.exponent = i.natAbs * unitsPerOne := by
      rw [significand_shift_exponent, ← natAbs_scaled, h, natAbs_mul_unitsPerOne]
    refine ⟨i.natAbs, hshift, Int.eq_of_mul_eq_mul_right hunit ?_⟩
    rw [← withSign_mul, ← hshift, significand_shift_exponent, ← h]
    rfl
  · intro h
    obtain ⟨n, hn, rfl⟩ := h
    rw [scaled, ← significand_shift_exponent, hn, withSign_mul]

/-- The conversion answers with the factor of the unit in the shifted significand. -/
theorem toInt?_eq_some_iff_shift : x.toInt? = some i ↔ x.isFinite = true ∧
    ∃ n, x.significand <<< x.exponent = n * unitsPerOne ∧ x.withSign n = i := by
  rw [toInt?, unitsPerOne_eq]
  -- The unit is too long a number to be computed with.
  generalize 1075 = k
  cases hfinite : x.isFinite with
  | false => simp
  | true =>
      simp only [Bool.not_true, Bool.false_eq_true, if_false, true_and]
      split
      · rename_i hexponent
        simp only [shiftLeft_eq_mul_iff_of_le hexponent, exists_eq_left', Option.some.injEq]
      · rename_i hexponent
        simp only [shiftLeft_eq_mul_iff_of_ge (Nat.le_of_not_le hexponent)]
        constructor
        · intro h
          split at h
          · rename_i hwhole
            exact ⟨_, hwhole.symm, Option.some.inj h⟩
          · cases h
        · intro h
          obtain ⟨n, hn, rfl⟩ := h
          rw [hn, Nat.shiftLeft_shiftRight, if_pos rfl]

theorem toInt?_eq_some_iff_scaled :
    x.toInt? = some i ↔ x.isFinite = true ∧ x.scaled = i * unitsPerOne := by
  rw [toInt?_eq_some_iff_shift, scaled_eq_mul_iff]

/-- The conversion answers with the exact value where that is an integer. -/
theorem toInt?_eq_some_iff : x.toInt? = some i ↔ x.toRat? = some (i : Rat) := by
  rw [toInt?_eq_some_iff_scaled, toRat?_eq_intCast_iff]

/-- A number without a value is a NaN or one of the infinities. -/
theorem toRat?_eq_none_iff : x.toRat? = none ↔ x.isNaN = true ∨ x.isInfinite = true := by
  have hfinite : x.toRat? = none ↔ x.isFinite = false := by
    rw [toRat?]
    cases x.isFinite <;> simp
  simp only [hfinite, isFinite, isNaN, isInfinite, decide_eq_false_iff_not, decide_eq_true_eq,
    beq_iff_eq]
  omega

/-! ## The cast and what is let through to it -/

/-- What stands before the binary point of an integer is the integer. -/
theorem toInt64_of_toInt? (h : x.toInt? = some i) : x.toInt64 = .ofInt i := by
  obtain ⟨-, n, hn, rfl⟩ := toInt?_eq_some_iff_shift.1 h
  rw [toInt64, hn, unitsPerOne_eq]
  generalize 1075 = k
  rw [Nat.one_shiftLeft, ← Nat.shiftLeft_eq, Nat.shiftLeft_shiftRight]

/-- A finite number denotes an integer exactly if it is its own integral part. -/
theorem trunc_equals_iff_exists_toInt? (hx : x.isFinite = true) :
    x.trunc.equals x = true ↔ ∃ i, x.toInt? = some i := by
  rw [trunc_equals_iff hx]
  simp only [toInt?_eq_some_iff_shift, hx, true_and, significand_shift_exponent]
  constructor
  · intro h
    obtain ⟨n, hn⟩ := h
    exact ⟨x.withSign n, n, hn.trans (Nat.mul_comm _ _), rfl⟩
  · intro h
    obtain ⟨i, n, hn, -⟩ := h
    exact ⟨n, hn.trans (Nat.mul_comm _ _)⟩

theorem isFinite_int64Lower : int64Lower.isFinite = true := by decide +kernel

theorem isFinite_int64Upper : int64Upper.isFinite = true := by decide +kernel

/-- The upper bound is 2^63, although it is written with other digits. -/
theorem scaledMagnitude_int64Upper :
    scaledMagnitude int64Upper.magnitude = 2 ^ 63 * unitsPerOne := by
  have hmagnitude : int64Upper.magnitude = (63 + bias) * leadingWeight + 0 := by decide +kernel
  rw [hmagnitude, scaledMagnitude_binade 63 (Nat.zero_le leadingWeight), Nat.add_zero,
    spacing_eq_mul, Nat.mul_left_comm, ← unitsPerOne_eq_mul]

theorem scaled_int64Upper : int64Upper.scaled = 2 ^ 63 * unitsPerOne := by
  have hsign : int64Upper.isNegative = false := isNegative_ofInt _
  rw [scaled, withSign, hsign, scaledMagnitude_int64Upper, Int.natCast_mul, Int.natCast_pow]
  rfl

/-- The lower bound is the negative of the upper one. -/
theorem scaled_int64Lower : int64Lower.scaled = -2 ^ 63 * unitsPerOne := by
  have hsign : int64Lower.isNegative = true := isNegative_ofInt _
  have hmagnitude : int64Lower.magnitude = int64Upper.magnitude := by decide +kernel
  rw [scaled, withSign, hsign, hmagnitude, scaledMagnitude_int64Upper, Int.natCast_mul,
    Int.natCast_pow, Int.neg_mul]
  rfl

/-- What lies between the bounds is finite. -/
theorem isFinite_of_scaled_le (h : x.scaled.natAbs ≤ 2 ^ 63 * unitsPerOne) : x.isFinite = true := by
  rw [natAbs_scaled, ← scaledMagnitude_int64Upper, strictMono_scaledMagnitude.le_iff_le] at h
  have hupper := isFinite_int64Upper
  rw [isFinite, decide_eq_true_eq] at hupper ⊢
  exact Nat.lt_of_le_of_lt h hupper

/-- A number that is no NaN passes the comparisons with the bounds if it lies between them, the
lower one included. -/
theorem within_bounds_iff (hx : x.isNaN = false) :
    x.lt int64Lower = false ∧ int64Upper.le x = false ↔
      -2 ^ 63 * unitsPerOne ≤ x.scaled ∧ x.scaled < 2 ^ 63 * unitsPerOne := by
  rw [lt_eq_false_iff hx (isNaN_of_isFinite isFinite_int64Lower), scaled_int64Lower,
    le_eq_false_iff (isNaN_of_isFinite isFinite_int64Upper) hx, scaled_int64Upper]

/-- The checks let exactly the integers of the range through to the cast. -/
theorem passes_checks_iff :
    x.trunc.equals x = true ∧ x.lt int64Lower = false ∧ int64Upper.le x = false ↔
      ∃ i, x.toInt? = some i ∧ -2 ^ 63 ≤ i ∧ i < 2 ^ 63 := by
  have hunit : 0 < (unitsPerOne : Int) := Int.natCast_pos.2 unitsPerOne_pos
  have hrange (hx : x.isNaN = false) {i : Int} (hi : x.scaled = i * unitsPerOne) :
      x.lt int64Lower = false ∧ int64Upper.le x = false ↔ -2 ^ 63 ≤ i ∧ i < 2 ^ 63 := by
    rw [within_bounds_iff hx, hi, Int.mul_le_mul_iff_of_pos_right hunit,
      Int.mul_lt_mul_right hunit]
  constructor
  · intro h
    obtain ⟨htrunc, hchecks⟩ := h
    obtain ⟨-, hx⟩ := isNaN_of_equals htrunc
    have hfinite : x.isFinite = true := by
      have hwithin := (within_bounds_iff hx).1 hchecks
      exact isFinite_of_scaled_le (by omega)
    obtain ⟨i, hi⟩ := (trunc_equals_iff_exists_toInt? hfinite).1 htrunc
    exact ⟨i, hi, (hrange hx (toInt?_eq_some_iff_scaled.1 hi).2).1 hchecks⟩
  · intro h
    obtain ⟨i, hi, hi'⟩ := h
    obtain ⟨hfinite, hscaled⟩ := toInt?_eq_some_iff_scaled.1 hi
    exact ⟨(trunc_equals_iff_exists_toInt? hfinite).2 ⟨i, hi⟩,
      (hrange (isNaN_of_isFinite hfinite) hscaled).2 hi'⟩

end Binary64

/-! ## Numbers -/

namespace Number

variable {n : Number} {k : Int64}

theorem whole?_eq_some_iff {i : Int} : n.whole? = some i ↔ n.exactValue? = some (i : Rat) := by
  cases n with
  | signed m =>
      show some m.toInt = some i ↔ some (m.toInt : Rat) = some (i : Rat)
      rw [Option.some.injEq, Option.some.injEq, Int.cast_inj]
  | unsigned m =>
      show some (m.toNat : Int) = some i ↔ some (m.toNat : Rat) = some (i : Rat)
      rw [Option.some.injEq, Option.some.injEq, ← @Int.cast_natCast Rat, Int.cast_inj]
  | binary x => exact Binary64.toInt?_eq_some_iff

/-- The signed integers of 64 bits are those from -2^63 to below 2^63. -/
theorem exists_toInt_eq_iff {i : Int} : (∃ k : Int64, k.toInt = i) ↔ -2 ^ 63 ≤ i ∧ i < 2 ^ 63 := by
  constructor
  · intro h
    obtain ⟨k, rfl⟩ := h
    exact ⟨k.le_toInt, k.toInt_lt⟩
  · intro h
    exact ⟨.ofInt i, Int64.toInt_ofInt_of_le h.1 h.2⟩

/-- An unsigned integer is cast where it is not above the greatest signed one. -/
theorem toInt64?_unsigned (m : UInt64) : toInt64? (.unsigned m) =
    if -2 ^ 63 ≤ (m.toNat : Int) ∧ (m.toNat : Int) < 2 ^ 63 then some (.ofInt m.toNat)
    else none := by
  have hcast : m.toInt64 = .ofInt m.toNat := by
    rw [Int64.ofInt_eq_ofNat, ← UInt64.toInt64_ofNat', UInt64.ofNat_toNat]
  have hgreatest : Int64.maxValue.toUInt64.toNat = 2 ^ 63 - 1 := by decide
  have hlimit : Int64.maxValue.toUInt64 < m ↔
      ¬ (-2 ^ 63 ≤ (m.toNat : Int) ∧ (m.toNat : Int) < 2 ^ 63) := by
    rw [UInt64.lt_iff_toNat_lt, hgreatest]
    omega
  rw [toInt64?, hcast]
  simp only [hlimit, ite_not]

/-- A floating-point number is cast where it passes all checks. -/
theorem toInt64?_binary (x : Binary64) : toInt64? (.binary x) =
    if x.trunc.equals x = true ∧ x.lt .int64Lower = false ∧ Binary64.int64Upper.le x = false then
      some x.toInt64
    else none := by
  rw [toInt64?]
  cases x.trunc.equals x <;> cases x.lt .int64Lower <;> cases Binary64.int64Upper.le x <;> rfl

/-- The checks and casts of each representation come to one condition, on the integer that the
number denotes. -/
theorem toInt64?_eq_bind (n : Number) : n.toInt64? = n.whole?.bind fun i =>
    if -2 ^ 63 ≤ i ∧ i < 2 ^ 63 then some (.ofInt i) else none := by
  cases n with
  | signed m =>
      rw [whole?, Option.bind_some, if_pos ⟨m.le_toInt, m.toInt_lt⟩, Int64.ofInt_toInt, toInt64?]
  | unsigned m => rw [toInt64?_unsigned, whole?, Option.bind_some]
  | binary x =>
      rw [toInt64?_binary, whole?]
      simp only [Binary64.passes_checks_iff]
      cases hi : x.toInt? with
      | none => simp
      | some i => simp [Binary64.toInt64_of_toInt? hi]

/-- A number converts to the signed integer that is its exact value. -/
theorem toInt64?_eq_some_iff : n.toInt64? = some k ↔ n.exactValue? = some (k.toInt : Rat) := by
  rw [toInt64?_eq_bind, ← whole?_eq_some_iff, Option.bind_eq_some_iff]
  constructor
  · intro h
    obtain ⟨i, hi, h⟩ := h
    split at h
    · rename_i hrange
      cases h
      rw [hi, Int64.toInt_ofInt_of_le hrange.1 hrange.2]
    · cases h
  · intro h
    exact ⟨_, h, by rw [if_pos ⟨k.le_toInt, k.toInt_lt⟩, Int64.ofInt_toInt]⟩

/-- The numbers without a value are the floating-point numbers without one. -/
theorem no_value_iff : n.exactValue? = none ↔
    ∃ x, n = .binary x ∧ (x.isNaN = true ∨ x.isInfinite = true) := by
  rcases binary_or_integer? (n := n) with ⟨-, x, rfl⟩ | ⟨i, hi⟩
  · show x.toRat? = none ↔ _
    simp [Binary64.toRat?_eq_none_iff]
  · rw [exactValue?_of_integer? hi]
    constructor
    · intro h
      cases h
    · intro h
      obtain ⟨x, rfl, -⟩ := h
      cases hi

/-- A number does not convert if it has no value, or one that is no integer or out of range. -/
theorem toInt64?_eq_none_iff : n.toInt64? = none ↔
    (∃ x, n = .binary x ∧ (x.isNaN = true ∨ x.isInfinite = true)) ∨
    ∃ q, n.exactValue? = some q ∧ ((∀ i : Int, q ≠ i) ∨ q < -2 ^ 63 ∨ 2 ^ 63 ≤ q) := by
  have hnone : n.toInt64? = none ↔ ∀ k : Int64, n.exactValue? ≠ some (k.toInt : Rat) := by
    simp only [Option.eq_none_iff_forall_ne_some, ne_eq, toInt64?_eq_some_iff]
  rw [hnone, ← no_value_iff]
  cases hvalue : n.exactValue? with
  | none => simp
  | some q =>
      simp only [reduceCtorEq, false_or, Option.some.injEq, exists_eq_left', ne_eq]
      by_cases hint : ∃ i : Int, q = i
      · obtain ⟨i, rfl⟩ := hint
        have hrange : (∀ k : Int64, (i : Rat) ≠ k.toInt) ↔ i < -2 ^ 63 ∨ 2 ^ 63 ≤ i := by
          have hexists := @exists_toInt_eq_iff i
          simp only [ne_eq, Int.cast_inj, eq_comm (a := i), ← not_exists, hexists]
          omega
        have hself : ¬ ∀ j : Int, ¬ (i : Rat) = j := fun h => h i rfl
        have hlow : (i : Rat) < -2 ^ 63 ↔ i < -2 ^ 63 := by
          rw [← @Int.cast_lt Rat, Int.cast_neg, Int.cast_pow, Int.cast_ofNat]
        have hhigh : (2 : Rat) ^ 63 ≤ i ↔ 2 ^ 63 ≤ i := by
          rw [← @Int.cast_le Rat, Int.cast_pow, Int.cast_ofNat]
        rw [hlow, hhigh, ← hrange]
        exact ⟨.inr, fun h => h.resolve_left hself⟩
      · exact ⟨fun _ => .inl (not_exists.1 hint), fun _ k hk => hint ⟨k.toInt, hk⟩⟩

/-- A number compares equal to the signed integer that is its exact value. -/
theorem equals_signed_of_value (h : n.exactValue? = some (k.toInt : Rat)) :
    n.equals (.signed k) = true :=
  equals_iff_value.2 (.inl (.inl ⟨k.toInt, h, rfl⟩))

end Number

/-! ## Values -/

namespace Value

variable {v : Value} {k : Int64}

theorem int64?_eq_some_iff : v.int64? = some k ↔
    ∃ n, v = .number n ∧ n.exactValue? = some (k.toInt : Rat) := by
  cases v with
  | number n => simp [int64?, number?, Number.toInt64?_eq_some_iff]
  | _ => simp [int64?, number?]

theorem int64?_eq_none_iff : v.int64? = none ↔ ∀ n, v = .number n → n.toInt64? = none := by
  cases v with
  | number n => simp [int64?, number?]
  | _ => simp [int64?, number?]

/-- A value converts to an integer exactly if it is a number with this exact value and the integer
is in the range of 64 bits with a sign. It converts to none exactly if it is no number, a NaN, an
infinity, a fraction or out of range. It is equal to the integer that it converts to, whichever of
the two stands first. -/
theorem int64?_exact (v : Value) :
    (∀ i : Int, (∃ k, v.int64? = some k ∧ k.toInt = i) ↔
      -2 ^ 63 ≤ i ∧ i < 2 ^ 63 ∧ ∃ n, v = .number n ∧ n.exactValue? = some (i : Rat)) ∧
    (v.int64? = none ↔ ∀ n, v = .number n →
      (∃ x, n = .binary x ∧ (x.isNaN = true ∨ x.isInfinite = true)) ∨
      ∃ q, n.exactValue? = some q ∧ ((∀ i : Int, q ≠ i) ∨ q < -2 ^ 63 ∨ 2 ^ 63 ≤ q)) ∧
    ∀ k, v.int64? = some k →
      equals v (.number (.signed k)) = true ∧ equals (.number (.signed k)) v = true := by
  refine ⟨fun i => ?_, ?_, fun k hk => ?_⟩
  · simp only [int64?_eq_some_iff, ← and_assoc, ← Number.exists_toInt_eq_iff]
    constructor
    · intro h
      obtain ⟨k, hvalue, rfl⟩ := h
      exact ⟨⟨k, rfl⟩, hvalue⟩
    · intro h
      obtain ⟨⟨k, rfl⟩, hvalue⟩ := h
      exact ⟨k, hvalue, rfl⟩
  · simp only [int64?_eq_none_iff, Number.toInt64?_eq_none_iff]
  · obtain ⟨n, rfl, hn⟩ := int64?_eq_some_iff.1 hk
    have hequal := Number.equals_signed_of_value hn
    exact ⟨hequal, (Number.equals_comm _ _).trans hequal⟩

/-- The lower end of the range is included, as a floating-point number like any other. The upper
end, which is one, too, is not. -/
theorem int64?_exact_ends :
    let low : Value := .number (.binary ⟨0xC3E0000000000000⟩)
    let high : Number := .binary ⟨0x43E0000000000000⟩
    low.int64? = some Int64.minValue ∧ equals low (.number (.signed Int64.minValue)) = true ∧
      (Value.number high).int64? = none ∧ high.exactValue? = some (2 ^ 63) := by
  intro low high
  have hlow : low.int64? = some Int64.minValue := by decide +kernel
  have hhigh : high.exactValue? = some (2 ^ 63) := by decide +kernel
  obtain ⟨-, -, hequal⟩ := int64?_exact low
  obtain ⟨-, hnone, -⟩ := int64?_exact (.number high)
  refine ⟨hlow, (hequal _ hlow).1, hnone.2 fun n hn => ?_, hhigh⟩
  cases hn
  exact .inr ⟨2 ^ 63, hhigh, .inr (.inr (le_refl _))⟩

end Value

end TreePatch
