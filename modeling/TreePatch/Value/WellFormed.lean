import TreePatch.Value.Access

set_option autoImplicit false

/-!
# Well-formed values

A value is well formed when no object in it, at any depth, has two members of one
name. Documents built by writing members are; the type alone does not promise it.
`wellFormed_object` and `wellFormed_array` unfold the notion by one level, and
`WellFormed.child` carries it down a step.
-/

namespace TreePatch.Value

mutual

/-- Does every object of the value have distinct names? -/
def wellFormed : Value → Bool
  | .array xs => wellFormedElements xs
  | .object ms => decide (Members.Distinct ms) && wellFormedMembers ms
  | _ => true

/-- Does every object of the elements have distinct names? -/
def wellFormedElements : List Value → Bool
  | [] => true
  | x :: xs => wellFormed x && wellFormedElements xs

/-- Does every object of the entries have distinct names? -/
def wellFormedMembers : List (Text × Value) → Bool
  | [] => true
  | (_, v) :: ms => wellFormed v && wellFormedMembers ms

end

/-- Every object of the value has distinct names. -/
def WellFormed (v : Value) : Prop := v.wellFormed = true

instance (v : Value) : Decidable v.WellFormed := inferInstanceAs (Decidable (_ = true))

/-! ## One level at a time -/

theorem wellFormed_array {xs : List Value} :
    WellFormed (.array xs) ↔ ∀ x ∈ xs, x.WellFormed := by
  rw [WellFormed, wellFormed]
  induction xs with
  | nil => simp [wellFormedElements]
  | cons x xs ih => simp [wellFormedElements, ih, WellFormed]

theorem wellFormed_object {ms : Members Value} :
    WellFormed (.object ms) ↔ Members.Distinct ms ∧ ∀ m ∈ ms, m.2.WellFormed := by
  have key : ∀ ms : Members Value,
      wellFormedMembers ms = true ↔ ∀ m ∈ ms, m.2.WellFormed := by
    intro ms
    induction ms with
    | nil => simp [wellFormedMembers]
    | cons m ms ih =>
        obtain ⟨k, v⟩ := m
        simp only [wellFormedMembers, Bool.and_eq_true, ih, List.forall_mem_cons, WellFormed]
  rw [WellFormed, wellFormed, Bool.and_eq_true, decide_eq_true_eq, key]

/-- A child of a well-formed value is well formed. -/
theorem WellFormed.child {v c : Value} {s : Segment} (hv : v.WellFormed)
    (h : v.child s = .ok c) : c.WellFormed := by
  cases v with
  | array xs =>
      cases s with
      | index n =>
          simp only [Value.child, childOfElements] at h
          split at h
          · simp at h
          · rename_i x hx
            cases h
            exact wellFormed_array.1 hv _ (List.mem_of_getElem? hx)
      | _ => simp [Value.child, childOfElements] at h
  | object ms =>
      simp only [Value.child, childOfMembers] at h
      split at h
      · simp at h
      · split at h
        · simp at h
        · rename_i x hx
          cases h
          exact (wellFormed_object.1 hv).2 _ (Members.mem_of_get? hx)
  | _ => simp [Value.child] at h

end TreePatch.Value
