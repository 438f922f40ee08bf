import TreePatch.Text.Basic

set_option autoImplicit false

/-!
# Escapes in path segments

A segment is written with three bytes escaped: `~` as `~0`, `/` as `~1` and `%`
as `%25`. Reading is more generous and has two stages. `undoTildes` first undoes
`~0` and `~1` and refuses any other use of `~`; `undoPercents` then replaces each
`%` and two hexadecimal digits of either case by the byte they spell, so a
percent escape may produce any byte at all.

The stages do not commute: a `~` that a percent escape produces is an ordinary
byte. `undoTildes_escape` and `undoPercents_escapePercents` say that, stage by
stage, reading undoes writing.
-/

namespace TreePatch.Text

/-! ## Writing -/

/-- The written form of one byte of a segment. -/
def escapeByte (b : UInt8) : Text :=
  if b = tilde then utf8 "~0"
  else if b = slash then utf8 "~1"
  else if b = percent then utf8 "%25"
  else [b]

/-- The written form of a segment. -/
def escape (t : Text) : Text := t.flatMap escapeByte

/-! ## Reading -/

/-- Undo `~1` and `~0`. A `~` before anything else has no meaning. -/
def undoTildes : Text → Option Text
  | [] => some []
  | b :: rest =>
      if b = tilde then
        match rest with
        | [] => none
        | c :: rest =>
            if c = one then (undoTildes rest).map (slash :: ·)
            else if c = zero then (undoTildes rest).map (tilde :: ·)
            else none
      else (undoTildes rest).map (b :: ·)

/-- The number that a hexadecimal digit stands for, letters in either case. -/
def hexDigit? (b : UInt8) : Option UInt8 :=
  if 0x30 ≤ b ∧ b ≤ 0x39 then some (b - 0x30)
  else if 0x61 ≤ b ∧ b ≤ 0x66 then some (b - 0x61 + 10)
  else if 0x41 ≤ b ∧ b ≤ 0x46 then some (b - 0x41 + 10)
  else none

/-- What can be wrong with a percent escape. -/
inductive PercentFlaw where
  /-- Fewer than two bytes follow the `%`. -/
  | truncated
  /-- One of the two bytes after the `%` is no hexadecimal digit. -/
  | notHexadecimal
deriving DecidableEq, Repr

/-- Replace every percent escape by the byte it spells. The first escape that is
broken decides the flaw. -/
def undoPercents : Text → Except PercentFlaw Text
  | [] => .ok []
  | b :: rest =>
      if b = percent then
        match rest with
        | high :: low :: rest =>
            match hexDigit? high, hexDigit? low with
            | some h, some l => (undoPercents rest).map ((16 * h + l) :: ·)
            | _, _ => .error .notHexadecimal
        | _ => .error .truncated
      else (undoPercents rest).map (b :: ·)

/-! ## The steps of reading -/

@[simp] theorem undoTildes_nil : undoTildes [] = some [] := rfl

@[simp] theorem undoTildes_zero (rest : Text) :
    undoTildes (tilde :: zero :: rest) = (undoTildes rest).map (tilde :: ·) := rfl

@[simp] theorem undoTildes_one (rest : Text) :
    undoTildes (tilde :: one :: rest) = (undoTildes rest).map (slash :: ·) := rfl

theorem undoTildes_cons_of_ne {b : UInt8} (h : b ≠ tilde) (rest : Text) :
    undoTildes (b :: rest) = (undoTildes rest).map (b :: ·) := by
  rw [undoTildes.eq_def]
  simp [h]

@[simp] theorem undoPercents_nil : undoPercents [] = .ok [] := rfl

theorem undoPercents_percent {high low h l : UInt8} (hh : hexDigit? high = some h)
    (hl : hexDigit? low = some l) (rest : Text) :
    undoPercents (percent :: high :: low :: rest) =
      (undoPercents rest).map ((16 * h + l) :: ·) := by
  rw [undoPercents.eq_def]
  simp [hh, hl]

theorem undoPercents_cons_of_ne {b : UInt8} (h : b ≠ percent) (rest : Text) :
    undoPercents (b :: rest) = (undoPercents rest).map (b :: ·) := by
  rw [undoPercents.eq_def]
  simp [h]

/-! ## Reading undoes writing -/

/-- The written form with only its tildes undone: percent signs stay escaped. -/
def escapePercents (t : Text) : Text :=
  t.flatMap fun b => if b = percent then utf8 "%25" else [b]

@[simp] theorem escapeByte_tilde : escapeByte tilde = [tilde, zero] := by decide

@[simp] theorem escapeByte_slash : escapeByte slash = [tilde, one] := by decide

@[simp] theorem escapeByte_percent : escapeByte percent = [percent, 0x32, 0x35] := by decide

theorem escapeByte_of_ne {b : UInt8} (ht : b ≠ tilde) (hs : b ≠ slash) (hp : b ≠ percent) :
    escapeByte b = [b] := by
  simp [escapeByte, ht, hs, hp]

/-- Undoing the tildes of a written segment leaves the escaped percent signs. -/
theorem undoTildes_escape (t : Text) : undoTildes (escape t) = some (escapePercents t) := by
  induction t with
  | nil => rfl
  | cons b t ih =>
      rw [escape, List.flatMap_cons, ← escape, escapePercents, List.flatMap_cons,
        ← escapePercents]
      by_cases ht : b = tilde
      · subst ht
        simp [ih, show tilde ≠ percent by decide]
      by_cases hs : b = slash
      · subst hs
        simp [ih, show slash ≠ percent by decide]
      by_cases hp : b = percent
      · subst hp
        have h2 : (0x32 : UInt8) ≠ tilde := by decide
        have h5 : (0x35 : UInt8) ≠ tilde := by decide
        simp [undoTildes_cons_of_ne ht, undoTildes_cons_of_ne h2, undoTildes_cons_of_ne h5,
          ih, show utf8 "%25" = [percent, 0x32, 0x35] by decide]
      · simp [escapeByte_of_ne ht hs hp, undoTildes_cons_of_ne ht, ih, hp]

/-- Undoing the percent escapes then gives the segment. -/
theorem undoPercents_escapePercents (t : Text) : undoPercents (escapePercents t) = .ok t := by
  induction t with
  | nil => rfl
  | cons b t ih =>
      rw [escapePercents, List.flatMap_cons, ← escapePercents]
      by_cases hp : b = percent
      · subst hp
        have step := undoPercents_percent (show hexDigit? 0x32 = some 2 by decide)
          (show hexDigit? 0x35 = some 5 by decide) (escapePercents t)
        rw [if_pos rfl, show utf8 "%25" = [percent, 0x32, 0x35] by decide]
        simp only [List.cons_append, List.nil_append]
        rw [step, ih]
        rfl
      · rw [if_neg hp, List.singleton_append, undoPercents_cons_of_ne hp, ih]
        rfl

/-- A written segment holds no slash. -/
theorem slash_not_mem_escape (t : Text) : slash ∉ escape t := by
  intro h
  obtain ⟨b, -, hb⟩ := List.mem_flatMap.1 h
  by_cases ht : b = tilde
  · subst ht
    revert hb; decide
  by_cases hs : b = slash
  · subst hs
    revert hb; decide
  by_cases hp : b = percent
  · subst hp
    revert hb; decide
  · rw [escapeByte_of_ne ht hs hp, List.mem_singleton] at hb
    exact hs hb.symm

end TreePatch.Text
