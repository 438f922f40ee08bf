import TreePatch.Value.Access

set_option autoImplicit false

/-!
# Locations: where in the tree a path leads

A location is the list of child positions that are visited from the root. Unlike a
path it has no spellings: two paths lead to one node exactly when they have one
location. `childPosition` gives the position that a step leads to, and
`childPosition_isSome_iff` says that it does so exactly when the step can be taken.
`nodeAt` goes to a location without looking at names, and `nodeAt_location` says that it
comes to the node that the path leads to.
-/

namespace TreePatch.Value

/-- The position, among the children, of the child that a segment leads to. -/
def childPosition (v : Value) (s : Segment) : Option Nat :=
  match v with
  | .object ms => s.memberName?.bind fun name => (Members.keys ms).idxOf? name
  | .array xs =>
      match s with
      | .index n => if n < xs.length then some n else none
      | _ => none
  | _ => none

/-- The child positions visited along a list of steps. -/
def location : Value → List Segment → Option (List Nat)
  | _, [] => some []
  | v, s :: rest =>
      match v.child s, v.childPosition s with
      | .ok c, some i => (location c rest).map (i :: ·)
      | _, _ => none

/-- The node at a location. -/
def nodeAt : Value → List Nat → Option Value
  | v, [] => some v
  | v, i :: rest =>
      match v.children[i]? with
      | none => none
      | some branch => nodeAt branch.2 rest

/-- A step has a position exactly when it leads to a child. -/
theorem childPosition_isSome_iff {v : Value} {s : Segment} :
    (v.childPosition s).isSome = true ↔ ∃ c, v.child s = .ok c := by
  cases v with
  | array xs =>
      cases s with
      | index n =>
          simp only [childPosition, child, childOfElements]
          by_cases h : n < xs.length
          · rw [if_pos h, List.getElem?_eq_getElem h]
            exact ⟨fun _ => ⟨xs[n], rfl⟩, fun _ => rfl⟩
          · rw [if_neg h, List.getElem?_eq_none (Nat.le_of_not_lt h)]
            simp
      | _ => simp [childPosition, child, childOfElements]
  | object ms =>
      simp only [childPosition, child, childOfMembers]
      cases hs : s.memberName? with
      | none => simp
      | some name =>
          simp only [Option.bind_some, List.isSome_idxOf?, ← Members.isSome_get?_iff]
          cases Members.get? ms name <;> simp
  | _ => simp [childPosition, child]

/-- A list of steps has a location exactly when it leads somewhere. -/
theorem location_isSome_iff {v : Value} {steps : List Segment} :
    (v.location steps).isSome = true ↔ ∃ c, v.follow steps = .ok c := by
  induction steps generalizing v with
  | nil => simp [location, follow]
  | cons s rest ih =>
      rw [location, follow]
      cases hc : v.child s with
      | error m => simp
      | ok c =>
          have hp : (v.childPosition s).isSome = true := childPosition_isSome_iff.2 ⟨c, hc⟩
          obtain ⟨i, hi⟩ := Option.isSome_iff_exists.1 hp
          simp [hi, ih]

/-- The child that a step leads to is listed at the position of the step. -/
theorem getElem?_children_of_childPosition {v c : Value} {s : Segment} {i : Nat}
    (hi : v.childPosition s = some i) (hc : v.child s = .ok c) :
    (v.children[i]?).map Prod.snd = some c := by
  cases v with
  | array xs =>
      cases s with
      | index n =>
          simp only [childPosition] at hi
          split at hi
          · rename_i hn
            cases hi
            simp only [child, childOfElements, List.getElem?_eq_getElem hn] at hc
            cases hc
            simp [children, hn]
          · cases hi
      | _ => cases hi
  | object ms =>
      simp only [childPosition, Option.bind_eq_some_iff] at hi
      obtain ⟨name, hname, hi⟩ := hi
      simp only [child, childOfMembers, hname, ← Members.getElem?_idxOf? hi] at hc
      cases hm : ms[i]? with
      | none => simp [hm] at hc
      | some m => simpa [children, hm] using hc
  | _ => cases hi

/-- The location along some steps is the position of the first before the location along
the others. -/
theorem location_cons_eq_some {v : Value} {s : Segment} {rest : List Segment} {l : List Nat}
    (h : v.location (s :: rest) = some l) :
    ∃ c i l', v.child s = .ok c ∧ v.childPosition s = some i ∧ c.location rest = some l' ∧
      l = i :: l' := by
  rw [location] at h
  cases hc : v.child s with
  | error m => simp [hc] at h
  | ok c =>
      cases hi : v.childPosition s with
      | none => simp [hc, hi] at h
      | some i =>
          simp only [hc, hi, Option.map_eq_some_iff] at h
          obtain ⟨l', hl', rfl⟩ := h
          exact ⟨c, i, l', rfl, rfl, hl', rfl⟩

/-- Where a list of steps leads, its location leads too. -/
theorem nodeAt_location {v x : Value} {steps : List Segment} {l : List Nat}
    (hl : v.location steps = some l) (hx : v.follow steps = .ok x) : v.nodeAt l = some x := by
  induction steps generalizing v l with
  | nil =>
      cases hl
      cases hx
      rfl
  | cons s rest ih =>
      obtain ⟨c, i, l', hc, hi, hl', rfl⟩ := location_cons_eq_some hl
      rw [follow, hc] at hx
      obtain ⟨branch, hb, rfl⟩ :=
        Option.map_eq_some_iff.1 (getElem?_children_of_childPosition hi hc)
      rw [nodeAt, hb]
      exact ih hl' hx

end TreePatch.Value
