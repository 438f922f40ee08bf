import TreePatch.Value.Equality

set_option autoImplicit false

/-!
# Comparison by accessors that trust their callers

Two values of different kinds are not equal. Two of one kind are compared by the accessor of that
kind, which is then asked on both sides without another look: it answers `none` on a value of
another kind, and so does the comparison that asks it there.

Of two numbers that are not both integers each is converted to floating-point, which only a number
can be (`numbersEqual_eq_some_iff`). The comparison of documents reaches the conversion with numbers
alone, and uses the other accessors on values of their kinds: it always has an answer, that of
`Value.equals` (`equals_eq`).
-/

namespace TreePatch.Unchecked

/-! ## Numbers -/

/-- Are two numbers equal? Integers compare exactly, and other values by what they are converted
to. -/
def numbersEqual (v w : Value) : Option Bool :=
  match v.number?.bind fun m => w.number?.bind fun n => m.equalIntegers? n with
  | some answer => some answer
  | none => v.binary64?.bind fun x => w.binary64?.map fun y => x.equals y

theorem numbersEqual_eq (m n : Number) :
    numbersEqual (.number m) (.number n) = some (m.equals n) := by
  cases h : m.equalIntegers? n <;>
    simp [numbersEqual, Value.number?, Value.binary64?, Number.equals, h]

/-- Two values are compared as numbers exactly if both are. -/
theorem numbersEqual_eq_some_iff {v w : Value} {answer : Bool} :
    numbersEqual v w = some answer ↔
      ∃ m n, v = .number m ∧ w = .number n ∧ m.equals n = answer := by
  cases v with
  | number m =>
      cases w with
      | number n => simp [numbersEqual_eq]
      | _ => simp [numbersEqual, Value.number?, Value.binary64?]
  | _ => simp [numbersEqual, Value.number?, Value.binary64?]

/-! ## Documents -/

theorem sizeOf_lt_of_elements? {v : Value} {xs : List Value} (h : v.elements? = some xs) :
    sizeOf xs < sizeOf v := by
  cases v with
  | array ys =>
      cases h
      simp
  | _ => cases h

theorem sizeOf_lt_of_members? {v : Value} {ms : Members Value} (h : v.members? = some ms) :
    sizeOf ms < sizeOf v := by
  cases v with
  | object ns =>
      cases h
      simp
  | _ => cases h

mutual

/-- Are two documents equal? -/
def equals (v w : Value) : Option Bool :=
  if v.kind ≠ w.kind then some false
  else
    match v.kind with
    | .null => some true
    | .boolean => v.bool?.bind fun a => w.bool?.map fun b => a == b
    | .number => numbersEqual v w
    | .string => v.text?.bind fun s => w.text?.map fun t => s == t
    | .array =>
        match hv : v.elements?, w.elements? with
        | some xs, some ys =>
            have := sizeOf_lt_of_elements? hv
            if xs.length ≠ ys.length then some false else equalElements xs ys
        | _, _ => none
    | .object =>
        match hv : v.members?, w.members? with
        | some ms, some ns =>
            have := sizeOf_lt_of_members? hv
            if ms.length ≠ ns.length then some false else matchedMembers ms ns
        | _, _ => none
  termination_by sizeOf v

/-- Are the elements of two lists equal, as far as both go? -/
def equalElements (xs ys : List Value) : Option Bool :=
  match xs, ys with
  | x :: xs, y :: ys =>
      (equals x y).bind fun same => if same then equalElements xs ys else some false
  | _, _ => some true
  termination_by sizeOf xs

/-- Does every member of the first list find an equal entry in the second? -/
def matchedMembers (ms ns : List (Text × Value)) : Option Bool :=
  match ms with
  | [] => some true
  | (k, v) :: ms =>
      match Members.get? ns k with
      | none => some false
      | some w => (equals v w).bind fun same => if same then matchedMembers ms ns else some false
  termination_by sizeOf ms

end

/-- Elements that are compared are so one by one. -/
theorem equalElements_eq {xs ys : List Value}
    (h : ∀ x ∈ xs, ∀ y, equals x y = some (x.equals y)) (hlength : xs.length = ys.length) :
    equalElements xs ys = some (Value.equalElements xs ys) := by
  induction xs generalizing ys with
  | nil =>
      obtain rfl : ys = [] := List.eq_nil_of_length_eq_zero hlength.symm
      rw [equalElements, Value.equalElements]
      simp
  | cons x xs ih =>
      obtain ⟨hx, hxs⟩ := List.forall_mem_cons.1 h
      cases ys with
      | nil => cases hlength
      | cons y ys =>
          rw [equalElements, hx y, Value.equalElements]
          cases x.equals y with
          | false => rfl
          | true => exact ih hxs (Nat.succ.inj hlength)

theorem matchedMembers_eq {ms : Members Value} (ns : Members Value)
    (h : ∀ m ∈ ms, ∀ w, equals m.2 w = some (m.2.equals w)) :
    matchedMembers ms ns = some (Value.matchedMembers ms ns) := by
  induction ms with
  | nil => rw [matchedMembers, Value.matchedMembers]
  | cons m ms ih =>
      obtain ⟨k, v⟩ := m
      obtain ⟨hv, hms⟩ := List.forall_mem_cons.1 h
      rw [matchedMembers, Value.matchedMembers]
      cases Members.get? ns k with
      | none => rfl
      | some w =>
          simp only [hv w]
          cases v.equals w with
          | false => rfl
          | true => exact ih hms

/-- Values of different kinds are compared by their kinds alone. -/
theorem equals_of_kind_ne {v w : Value} (h : v.kind ≠ w.kind) :
    equals v w = some (v.equals w) := by
  have hfalse : v.equals w = false := by
    rw [← Bool.not_eq_true]
    exact mt Value.kind_eq_of_equals h
  rw [equals, if_pos h, hfalse]

theorem equals_eq (v w : Value) : equals v w = some (v.equals w) := by
  induction v generalizing w with
  | null =>
      cases w with
      | null => simp [equals, Value.kind, Value.equals]
      | _ => exact equals_of_kind_ne (by simp [Value.kind])
  | bool a =>
      cases w with
      | bool b => simp [equals, Value.kind, Value.bool?, Value.equals]
      | _ => exact equals_of_kind_ne (by simp [Value.kind])
  | number m =>
      cases w with
      | number n => simp [equals, Value.kind, numbersEqual_eq, Value.equals]
      | _ => exact equals_of_kind_ne (by simp [Value.kind])
  | string s =>
      cases w with
      | string t => simp [equals, Value.kind, Value.text?, Value.equals]
      | _ => exact equals_of_kind_ne (by simp [Value.kind])
  | array xs ih =>
      cases w with
      | array ys =>
          by_cases hlength : xs.length = ys.length
          · simp [equals, Value.kind, Value.elements?, Value.equals, hlength,
              equalElements_eq ih hlength]
          · have hfalse : Value.equals (.array xs) (.array ys) = false := by
              rw [← Bool.not_eq_true, Value.equals_array]
              exact fun h => hlength h.1
            simp [equals, Value.kind, Value.elements?, hlength, hfalse]
      | _ => exact equals_of_kind_ne (by simp [Value.kind])
  | object ms ih =>
      cases w with
      | object ns =>
          by_cases hlength : ms.length = ns.length
          · simp [equals, Value.kind, Value.members?, Value.equals, hlength,
              matchedMembers_eq ns ih]
          · simp [equals, Value.kind, Value.members?, Value.equals, hlength]
      | _ => exact equals_of_kind_ne (by simp [Value.kind])

end TreePatch.Unchecked
