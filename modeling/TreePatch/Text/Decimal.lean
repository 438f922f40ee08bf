import TreePatch.Text.Basic

set_option autoImplicit false

/-!
# Decimal numerals

Array positions are written in base ten without sign or leading zeros, and read
from any run of digits, leading zeros included. `value_ofNat` says that reading
undoes writing, so a number is determined by its numeral.
-/

namespace TreePatch.Decimal

/-- The shortest numeral of `n`. -/
def ofNat (n : Nat) : Text := (Nat.toDigits 10 n).map Char.toUInt8

/-- Is the byte one of the ten digits? -/
def isDigit (b : UInt8) : Bool := 0x30 ≤ b && b ≤ 0x39

/-- Does the text consist of one or more digits? -/
def isNumeral (t : Text) : Bool := !t.isEmpty && t.all isDigit

/-- The number that a run of digits denotes. -/
def value (t : Text) : Nat := t.foldl (fun n b => 10 * n + (b.toNat - 0x30)) 0

/-! ## Reading undoes writing -/

/-- A digit character keeps its number as a byte, and is a digit byte. -/
theorem toUInt8_of_isDigit {c : Char} (h : c.isDigit = true) :
    c.toUInt8.toNat = c.toNat ∧ isDigit c.toUInt8 = true := by
  have hc : 48 ≤ c.toNat ∧ c.toNat ≤ 57 := by
    simp only [Char.isDigit, Bool.and_eq_true, decide_eq_true_eq, ge_iff_le,
      UInt32.le_iff_toNat_le] at h
    exact h
  have hb : c.toUInt8.toNat = c.toNat := by
    have : c.toUInt8.toNat = c.toNat % 2 ^ 8 := rfl
    omega
  refine ⟨hb, ?_⟩
  simp only [isDigit, Bool.and_eq_true, decide_eq_true_eq, UInt8.le_iff_toNat_le, hb]
  exact hc

/-- Every byte of a numeral is a digit. -/
theorem isDigit_of_mem_ofNat {n : Nat} {b : UInt8} (h : b ∈ ofNat n) : isDigit b = true := by
  obtain ⟨c, hc, rfl⟩ := List.mem_map.1 h
  exact (toUInt8_of_isDigit (Nat.isDigit_of_mem_toDigits (by decide) (by decide) hc)).2

/-- A number has at least one digit. -/
theorem ofNat_ne_nil (n : Nat) : ofNat n ≠ [] := by
  simp [ofNat, Nat.toDigits_ne_nil]

/-- What is written for a number is a numeral. -/
theorem isNumeral_ofNat (n : Nat) : isNumeral (ofNat n) = true := by
  simp only [isNumeral, Bool.and_eq_true, Bool.not_eq_true', List.isEmpty_eq_false_iff,
    List.all_eq_true]
  exact ⟨ofNat_ne_nil n, fun b hb => isDigit_of_mem_ofNat hb⟩

/-- Reading the numeral of `n` gives `n` back. -/
theorem value_ofNat (n : Nat) : value (ofNat n) = n := by
  have key : ∀ (cs : List Char) (acc : Nat), (∀ c ∈ cs, c.isDigit = true) →
      (cs.map Char.toUInt8).foldl (fun n b => 10 * n + (b.toNat - 0x30)) acc =
        Nat.ofDigitChars 10 cs acc := by
    intro cs
    induction cs with
    | nil => intro acc _; rfl
    | cons c cs ih =>
        intro acc h
        have hc := (toUInt8_of_isDigit (h c (by simp))).1
        simp only [List.map_cons, List.foldl_cons, Nat.ofDigitChars, hc]
        exact ih _ fun d hd => h d (by simp [hd])
  rw [value, ofNat, key _ 0 fun c hc =>
    Nat.isDigit_of_mem_toDigits (by decide) (by decide) hc]
  exact Nat.ofDigitChars_toDigits (by decide) (by decide)

/-- Two numbers with one numeral are the same number. -/
theorem ofNat_injective {m n : Nat} (h : ofNat m = ofNat n) : m = n := by
  rw [← value_ofNat m, h, value_ofNat]

end TreePatch.Decimal
