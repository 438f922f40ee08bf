import TreePatch.Proofs.Number.Nearest
import TreePatch.Proofs.Value.Comparison

set_option autoImplicit false

/-!
# What it means that two numbers compare equal

Two numbers compare equal if they have one exact value, and besides if one of them is an integer
that the format cannot hold and the other is the floating-point number nearest to it
(`equals_iff_value`). So comparison is exact among integers and among floating-point numbers, and
between the two as long as the integer is one that the format holds.

Two integers may have one nearest number, so comparison is not transitive. It fails in no other way
(`equals_trans_or`).
-/

namespace TreePatch

/-! ## Exact values -/

namespace Binary64

variable {x y z : Binary64}

/-- Is the number one of the two infinities? -/
def isInfinite (x : Binary64) : Bool := x.magnitude == infinity

/-- Floating-point numbers compare equal if they denote one rational number or are one infinity. -/
theorem equals_iff_value : x.equals y = true ↔
    (∃ q, x.toRat? = some q ∧ y.toRat? = some q) ∨ x.isInfinite = true ∧ x = y := by
  constructor
  · intro h
    obtain ⟨hx, hy⟩ := isNaN_of_equals h
    have hcases := (equals_iff hx hy).1 h
    by_cases hfinite : x.isFinite = true
    · have hfinite' := isFinite_of_equals h hfinite
      obtain ⟨q, hq⟩ := exists_toRat? hfinite
      refine .inl ⟨q, hq, toRat?_eq_some_iff.2 ⟨hfinite', ?_⟩⟩
      rw [← (equals_iff_scaled hfinite hfinite').1 h, (toRat?_eq_some_iff.1 hq).2]
    · -- What is neither finite nor a NaN is an infinity.
      have hmagnitude : x.magnitude = infinity := by
        simp only [isFinite, decide_eq_true_eq] at hfinite
        simp only [isNaN, decide_eq_false_iff_not] at hx
        omega
      refine .inr ⟨beq_iff_eq.2 hmagnitude, hcases.resolve_right fun hzero => ?_⟩
      rw [hmagnitude] at hzero
      exact absurd hzero.1 (by decide)
  · rintro (⟨q, hx, hy⟩ | ⟨hinfinite, rfl⟩)
    · obtain ⟨hx, hxq⟩ := toRat?_eq_some_iff.1 hx
      obtain ⟨hy, hyq⟩ := toRat?_eq_some_iff.1 hy
      exact (equals_iff_scaled hx hy).2 (Int.cast_injective (hxq.trans hyq.symm))
    · have hx : x.isNaN = false := by
        rw [isNaN, beq_iff_eq.1 hinfinite]
        decide
      exact (equals_iff hx hx).2 (.inl rfl)

theorem equals_trans (h : x.equals y = true) (h' : y.equals z = true) : x.equals z = true := by
  obtain ⟨hx, hy⟩ := isNaN_of_equals h
  have hz := (isNaN_of_equals h').2
  rw [equals_iff hx hy] at h
  rw [equals_iff hy hz] at h'
  rw [equals_iff hx hz]
  rcases h with rfl | ⟨hx, hy⟩
  · exact h'
  · rcases h' with rfl | ⟨-, hz⟩
    · exact .inr ⟨hx, hy⟩
    · exact .inr ⟨hx, hz⟩

end Binary64

namespace Number

variable {l m n : Number} {i j : Int}

/-- The numbers have one exact value: they denote one rational number, or are one infinity. -/
def SameValue (m n : Number) : Prop :=
  (∃ q, m.exactValue? = some q ∧ n.exactValue? = some q) ∨
    ∃ x : Binary64, x.isInfinite = true ∧ m = .binary x ∧ n = .binary x

/-- The first number is an integer, and the second the floating-point number nearest to it, which
does not denote the integer. -/
def RoundsTo (m n : Number) : Prop :=
  ∃ (i : Int) (x : Binary64), m.integer? = some i ∧ n = .binary x ∧ x.IsNearest i ∧
    x.toRat? ≠ some (i : Rat)

theorem SameValue.symm (h : m.SameValue n) : n.SameValue m := by
  rcases h with ⟨q, hm, hn⟩ | ⟨x, hx, hm, hn⟩
  · exact .inl ⟨q, hn, hm⟩
  · exact .inr ⟨x, hx, hn, hm⟩

/-! ## Integers -/

/-- Integers of 64 bits are far below what overflows the format. -/
theorem log2_natAbs_of_integer? (h : n.integer? = some i) : i.natAbs.log2 ≤ 1022 := by
  have hlt : i.natAbs < 2 ^ 65 := by
    cases n with
    | signed k =>
        cases h
        have hlow := k.le_toInt
        have hhigh := k.toInt_lt
        omega
    | unsigned k =>
        cases h
        have hhigh := k.toNat_lt
        omega
    | binary x => cases h
  by_cases hi : i.natAbs = 0
  · rw [hi]
    decide
  · have hlog := (Nat.log2_lt hi).2 hlt
    omega

theorem toBinary64_of_integer? (h : n.integer? = some i) : n.toBinary64 = .ofInt i := by
  cases n with
  | signed k | unsigned k =>
      cases h
      rfl
  | binary x => cases h

theorem equals_of_integers (hm : m.integer? = some i) (hn : n.integer? = some j) :
    m.equals n = (i == j) := by
  simp only [equals, equalIntegers?_eq, hm, hn, Option.bind_some, Option.map_some]

/-- With a floating-point number on a side, comparison is in floating-point. -/
theorem equals_eq_toBinary64 (h : m.integer? = none ∨ n.integer? = none) :
    m.equals n = m.toBinary64.equals n.toBinary64 := by
  have hnone : m.equalIntegers? n = none := by
    rw [equalIntegers?_eq]
    rcases h with h | h <;> simp [h]
  simp only [equals, hnone]

theorem binary_or_integer? : n.integer? = none ∧ (∃ x, n = .binary x) ∨
    ∃ i, n.integer? = some i := by
  cases n with
  | signed k => exact .inr ⟨_, rfl⟩
  | unsigned k => exact .inr ⟨_, rfl⟩
  | binary x => exact .inl ⟨rfl, x, rfl⟩

/-- An integer compares equal to the floating-point number nearest to it. -/
theorem equals_binary_iff {x : Binary64} (h : m.integer? = some i) :
    m.equals (.binary x) = true ↔ x.IsNearest i := by
  rw [equals_eq_toBinary64 (.inr rfl), toBinary64_of_integer? h,
    Binary64.isNearest_iff (log2_natAbs_of_integer? h)]
  rfl

/-! ## Comparison in terms of values -/

theorem equals_integer_iff (h : m.integer? = some i) :
    m.equals n = true ↔ m.SameValue n ∨ m.RoundsTo n ∨ n.RoundsTo m := by
  have hm := exactValue?_of_integer? h
  have hbinary : ∀ x, m ≠ .binary x := by
    rintro x rfl
    cases h
  rcases binary_or_integer? (n := n) with ⟨-, x, rfl⟩ | ⟨j, hj⟩
  · rw [equals_binary_iff h]
    constructor
    · intro hnearest
      by_cases hx : x.toRat? = some (i : Rat)
      · exact .inl (.inl ⟨i, hm, hx⟩)
      · exact .inr (.inl ⟨i, x, h, rfl, hnearest, hx⟩)
    · rintro ((⟨q, hq, hx⟩ | ⟨y, -, hy, -⟩) | ⟨k, y, hk, hy, hnearest, -⟩ | ⟨k, y, -, hy, -⟩)
      · obtain rfl : (i : Rat) = q := Option.some.inj (hm.symm.trans hq)
        exact Binary64.isNearest_of_toRat? hx
      · exact absurd hy (hbinary y)
      · cases hy
        obtain rfl : i = k := Option.some.inj (h.symm.trans hk)
        exact hnearest
      · exact absurd hy (hbinary y)
  · have hn := exactValue?_of_integer? hj
    rw [equals_of_integers h hj, beq_iff_eq]
    constructor
    · rintro rfl
      exact .inl (.inl ⟨i, hm, hn⟩)
    · rintro ((⟨q, hq, hq'⟩ | ⟨y, -, hy, -⟩) | ⟨k, y, -, rfl, -⟩ | ⟨k, y, -, hy, -⟩)
      · exact Int.cast_injective
          (Option.some.inj ((hm.symm.trans hq).trans (hq'.symm.trans hn)))
      · exact absurd hy (hbinary y)
      · cases hj
      · exact absurd hy (hbinary y)

/-- Two numbers compare equal exactly if they have one exact value, or one of them is an integer
and the other a number of another value that is nearest to it. -/
theorem equals_iff_value : m.equals n = true ↔ m.SameValue n ∨ m.RoundsTo n ∨ n.RoundsTo m := by
  rcases binary_or_integer? (n := m) with ⟨-, x, rfl⟩ | ⟨i, hi⟩
  · rcases binary_or_integer? (n := n) with ⟨-, y, rfl⟩ | ⟨j, hj⟩
    · rw [equals_eq_toBinary64 (.inl rfl)]
      refine Binary64.equals_iff_value.trans ⟨?_, ?_⟩
      · rintro (hq | ⟨hx, rfl⟩)
        · exact .inl (.inl hq)
        · exact .inl (.inr ⟨x, hx, rfl, rfl⟩)
      · rintro ((hq | ⟨z, hz, hx, hy⟩) | ⟨i, z, hi, -⟩ | ⟨i, z, hi, -⟩)
        · exact .inl hq
        · cases hx
          cases hy
          exact .inr ⟨hz, rfl⟩
        · cases hi
        · cases hi
    · rw [equals_comm, equals_integer_iff hj, or_comm (a := RoundsTo _ _)]
      exact or_congr_left ⟨.symm, .symm⟩
  · exact equals_integer_iff hi

/-- An integer has another value than the number it is rounded to. -/
theorem RoundsTo.not_sameValue (h : m.RoundsTo n) : ¬ m.SameValue n := by
  obtain ⟨i, x, hi, rfl, -, hx⟩ := h
  rintro (⟨q, hq, hxq⟩ | ⟨y, -, rfl, -⟩)
  · obtain rfl : (i : Rat) = q := Option.some.inj ((exactValue?_of_integer? hi).symm.trans hq)
    exact hx hxq
  · cases hi

/-- Comparison goes by exact values except where one number is rounded to the other. -/
theorem equals_iff_sameValue_iff : (m.equals n = true ↔ m.SameValue n) ↔
    ¬ m.RoundsTo n ∧ ¬ n.RoundsTo m := by
  constructor
  · intro hexact
    exact ⟨fun h => h.not_sameValue (hexact.1 (equals_iff_value.2 (.inr (.inl h)))),
      fun h => h.not_sameValue (hexact.1 (equals_iff_value.2 (.inr (.inr h)))).symm⟩
  · rintro ⟨h, h'⟩
    rw [equals_iff_value]
    exact ⟨fun hvalue => hvalue.resolve_right (not_or.2 ⟨h, h'⟩), .inl⟩

/-- Integers up to 2^53 in absolute value are compared with floating-point numbers exactly. -/
theorem not_roundsTo_of_natAbs_le (h : m.integer? = some i) (hi : i.natAbs ≤ 2 ^ 53) :
    ¬ m.RoundsTo n := by
  rintro ⟨k, x, hk, -, hnearest, hx⟩
  obtain rfl : i = k := Option.some.inj (h.symm.trans hk)
  exact hx (hnearest.toRat? (Binary64.toRat?_ofInt hi))

/-! ## Transitivity -/

/-- Numbers that compare equal do so in floating-point. -/
theorem equals_toBinary64 (h : m.equals n = true) :
    m.toBinary64.equals n.toBinary64 = true := by
  by_cases hnone : m.integer? = none ∨ n.integer? = none
  · rwa [← equals_eq_toBinary64 hnone]
  · obtain ⟨hm, hn⟩ := not_or.1 hnone
    obtain ⟨i, hi⟩ := Option.ne_none_iff_exists'.1 hm
    obtain ⟨j, hj⟩ := Option.ne_none_iff_exists'.1 hn
    rw [equals_of_integers hi hj, beq_iff_eq] at h
    subst h
    rw [toBinary64_of_integer? hi, toBinary64_of_integer? hj,
      ← Binary64.isNearest_iff (log2_natAbs_of_integer? hi)]
    exact Binary64.isNearest_ofInt (log2_natAbs_of_integer? hi)

/-- If two numbers compare equal to a third but not to each other, they are different integers and
the third is the floating-point number nearest to both. -/
theorem equals_trans_or (h : l.equals m = true) (h' : m.equals n = true) :
    l.equals n = true ∨ ∃ i j x, l.integer? = some i ∧ n.integer? = some j ∧ i ≠ j ∧
      m = .binary x ∧ x.IsNearest i ∧ x.IsNearest j := by
  by_cases hnone : l.integer? = none ∨ n.integer? = none
  · rw [equals_eq_toBinary64 hnone]
    exact .inl (Binary64.equals_trans (equals_toBinary64 h) (equals_toBinary64 h'))
  obtain ⟨hl, hn⟩ := not_or.1 hnone
  obtain ⟨i, hi⟩ := Option.ne_none_iff_exists'.1 hl
  obtain ⟨j, hj⟩ := Option.ne_none_iff_exists'.1 hn
  by_cases hij : i = j
  · exact .inl (by rw [equals_of_integers hi hj, beq_iff_eq, hij])
  rcases binary_or_integer? (n := m) with ⟨-, x, rfl⟩ | ⟨k, hk⟩
  · rw [equals_comm] at h'
    exact .inr ⟨i, j, x, hi, hj, hij, rfl, (equals_binary_iff hi).1 h, (equals_binary_iff hj).1 h'⟩
  · rw [equals_of_integers hi hk, beq_iff_eq] at h
    rw [equals_of_integers hk hj, beq_iff_eq] at h'
    exact absurd (h.trans h') hij

end Number

end TreePatch
