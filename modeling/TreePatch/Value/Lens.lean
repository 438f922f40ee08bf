import TreePatch.Value.Access

set_option autoImplicit false

/-!
# Lens laws: reading and writing one place

`child` and `setChild` read and write at one step, `follow` and `overwrite` along
many. At either scale what was written is read, writing back what was read changes
nothing, of two writes the second counts, and a write succeeds exactly where a read
does and fails with the same misstep. A write at one step leaves what every step of
another name reads (`child_setChild_of_ne`).
-/

namespace TreePatch.Value

/-! ## One step -/

/-- A step leads to an element by its position, or to a member by its name. -/
theorem child_eq_ok_cases {v c : Value} {s : Segment} (h : v.child s = .ok c) :
    (∃ xs n, v = .array xs ∧ s = .index n ∧ xs[n]? = some c) ∨
    (∃ ms name, v = .object ms ∧ s.memberName? = some name ∧ Members.get? ms name = some c) := by
  cases v with
  | array xs =>
      cases s with
      | index n =>
          simp only [child, childOfElements] at h
          split at h
          · cases h
          · rename_i x hx
            cases h
            exact .inl ⟨xs, n, rfl, rfl, hx⟩
      | _ => simp [child, childOfElements] at h
  | object ms =>
      simp only [child, childOfMembers] at h
      split at h
      · cases h
      · rename_i name hname
        split at h
        · cases h
        · rename_i x hx
          cases h
          exact .inr ⟨ms, name, rfl, hname, hx⟩
  | _ => simp [child] at h

/-- What was written at a step is read there. -/
theorem child_setChild {v c : Value} {s : Segment} (h : v.child s = .ok c) (new : Value) :
    (v.setChild s new).child s = .ok new := by
  rcases child_eq_ok_cases h with ⟨xs, n, rfl, rfl, hn⟩ | ⟨ms, name, rfl, hs, hget⟩
  · simp [setChild, updateElement, child, childOfElements, (List.getElem?_eq_some_iff.1 hn).1]
  · have hname : name ∈ Members.keys ms := Members.mem_keys_iff.2 ⟨c, hget⟩
    simp [setChild, updateMember, child, childOfMembers, hs, Members.get?_update, hname]

/-- Writing back what was read at a step changes nothing. -/
theorem setChild_of_child {v c : Value} {s : Segment} (h : v.child s = .ok c) :
    v.setChild s c = v := by
  rcases child_eq_ok_cases h with ⟨xs, n, rfl, rfl, hn⟩ | ⟨ms, name, rfl, hs, hget⟩
  · obtain ⟨hlt, rfl⟩ := List.getElem?_eq_some_iff.1 hn
    simp [setChild, updateElement]
  · simp only [setChild, updateMember, hs, Members.update_of_get? hget]

/-- Of two writes at one step the second counts. -/
theorem setChild_setChild (v : Value) (s : Segment) (a b : Value) :
    (v.setChild s a).setChild s b = v.setChild s b := by
  cases v with
  | object ms =>
      cases hs : s.memberName? <;> simp [setChild, hs, updateMember, Members.update_update]
  | _ => cases s <;> simp [setChild, updateElement]

/-- A write at one step leaves what every step of another name reads. -/
theorem child_setChild_of_ne {v : Value} {s t : Segment} (h : s.memberName? ≠ t.memberName?)
    (new : Value) : (v.setChild s new).child t = v.child t := by
  cases v with
  | array xs =>
      cases s with
      | index m =>
          cases t with
          | index n =>
              have hmn : m ≠ n := fun e => h (by rw [e])
              simp [setChild, updateElement, child, childOfElements, hmn]
          | _ => simp [setChild, updateElement, child, childOfElements]
      | _ => simp [setChild, child]
  | object ms =>
      cases hs : s.memberName? with
      | none => simp [setChild, hs]
      | some name =>
          cases ht : t.memberName? with
          | none => simp [setChild, hs, updateMember, child, childOfMembers, ht]
          | some other =>
              have hne : name ≠ other := fun e => h (by rw [hs, ht, e])
              simp [setChild, hs, updateMember, child, childOfMembers, ht,
                Members.get?_update, hne]
  | _ => cases s <;> simp [setChild, updateElement]

/-- Writes at two steps of different names can be swapped. -/
theorem setChild_comm {s t : Segment} (h : s.memberName? ≠ t.memberName?) (v a b : Value) :
    (v.setChild s a).setChild t b = (v.setChild t b).setChild s a := by
  cases v with
  | array xs =>
      cases s with
      | index m =>
          cases t with
          | index n =>
              have hmn : m ≠ n := fun e => h (by rw [e])
              simp [setChild, updateElement, List.set_comm _ _ hmn]
          | _ => simp [setChild, updateElement]
      | _ => cases t <;> simp [setChild, updateElement]
  | object ms =>
      cases hs : s.memberName? with
      | none => cases ht : t.memberName? <;> simp [setChild, hs, ht, updateMember]
      | some name =>
          cases ht : t.memberName? with
          | none => simp [setChild, hs, ht, updateMember]
          | some other =>
              have hne : name ≠ other := fun e => h (by rw [hs, ht, e])
              simp [setChild, hs, ht, updateMember, Members.update_comm hne]
  | _ => cases s <;> cases t <;> simp [setChild, updateElement]

/-! ## Many steps -/

@[simp] theorem follow_nil (v : Value) : v.follow [] = .ok v := rfl

theorem follow_cons_of_child {v c : Value} {s : Segment} (h : v.child s = .ok c)
    (rest : List Segment) : v.follow (s :: rest) = c.follow rest := by
  rw [follow, h]

theorem follow_cons_of_error {v : Value} {s : Segment} {m : Misstep} (h : v.child s = .error m)
    (rest : List Segment) : v.follow (s :: rest) = .error m := by
  rw [follow, h]

theorem follow_cons_eq_ok_iff {v x : Value} {s : Segment} {rest : List Segment} :
    v.follow (s :: rest) = .ok x ↔ ∃ c, v.child s = .ok c ∧ c.follow rest = .ok x := by
  rw [follow]
  cases v.child s <;> simp

theorem follow_singleton (v : Value) (s : Segment) : v.follow [s] = v.child s := by
  rw [follow]
  cases v.child s <;> rfl

/-- Following two lists of steps is following the one and then the other. -/
theorem follow_append (v : Value) (steps rest : List Segment) :
    v.follow (steps ++ rest) = (v.follow steps).bind fun c => c.follow rest := by
  induction steps generalizing v with
  | nil => rfl
  | cons s steps ih =>
      rw [List.cons_append]
      cases hc : v.child s with
      | error m =>
          rw [follow_cons_of_error hc, follow_cons_of_error hc]
          rfl
      | ok c => rw [follow_cons_of_child hc, follow_cons_of_child hc, ih]

/-- Following some steps is following all but the last and taking the last. -/
theorem follow_eq_bind_child (v : Value) (s : Segment) (rest : List Segment) :
    v.follow (s :: rest) = (v.follow (s :: rest).dropLast).bind fun parent =>
      parent.child ((s :: rest).getLast (List.cons_ne_nil s rest)) := by
  simp only [← follow_singleton, ← follow_append, List.dropLast_concat_getLast]

/-- A write fails exactly where a read does, with the same misstep. -/
theorem overwrite_eq_error_iff {v new : Value} {steps : List Segment} {m : Misstep} :
    v.overwrite steps new = .error m ↔ v.follow steps = .error m := by
  induction steps generalizing v with
  | nil => simp [overwrite]
  | cons s steps ih =>
      cases hc : v.child s with
      | error m' => simp [overwrite, follow, hc]
      | ok c =>
          rw [follow_cons_of_child hc, ← ih]
          cases hw : c.overwrite steps new <;> simp [overwrite, hc, hw]

/-- A write succeeds exactly where there is something to read. -/
theorem exists_overwrite_iff {v new : Value} {steps : List Segment} :
    (∃ v', v.overwrite steps new = .ok v') ↔ ∃ x, v.follow steps = .ok x := by
  cases hw : v.overwrite steps new with
  | error m => simp [overwrite_eq_error_iff.1 hw]
  | ok v' =>
      cases hx : v.follow steps with
      | error m => simp [overwrite_eq_error_iff.2 hx] at hw
      | ok x => simp

/-- A successful write along some steps takes the first, writes into the child and puts
the child back. -/
theorem overwrite_cons_eq_ok_iff {v v' new : Value} {s : Segment} {steps : List Segment} :
    v.overwrite (s :: steps) new = .ok v' ↔
      ∃ c c', v.child s = .ok c ∧ c.overwrite steps new = .ok c' ∧ v' = v.setChild s c' := by
  rw [overwrite]
  cases v.child s with
  | error m => simp
  | ok c =>
      cases hw : c.overwrite steps new with
      | error m => simp [hw]
      | ok c' => simp [hw, eq_comm]

/-- What was written along a list of steps is read there. -/
theorem follow_overwrite {v v' new : Value} {steps : List Segment}
    (h : v.overwrite steps new = .ok v') : v'.follow steps = .ok new := by
  induction steps generalizing v v' with
  | nil =>
      cases h
      rfl
  | cons s steps ih =>
      obtain ⟨c, c', hc, hw, rfl⟩ := overwrite_cons_eq_ok_iff.1 h
      rw [follow_cons_of_child (child_setChild hc c'), ih hw]

/-- Writing back what was read along a list of steps changes nothing. -/
theorem overwrite_of_follow {v x : Value} {steps : List Segment}
    (h : v.follow steps = .ok x) : v.overwrite steps x = .ok v := by
  induction steps generalizing v with
  | nil =>
      cases h
      rfl
  | cons s steps ih =>
      rw [follow] at h
      cases hc : v.child s with
      | error m => simp [hc] at h
      | ok c =>
          simp only [hc] at h
          simp [overwrite, hc, ih h, setChild_of_child hc]

/-- Of two writes along one list of steps the second counts. -/
theorem overwrite_overwrite {v v' a : Value} {steps : List Segment}
    (h : v.overwrite steps a = .ok v') (b : Value) :
    v'.overwrite steps b = v.overwrite steps b := by
  induction steps generalizing v v' with
  | nil => rfl
  | cons s steps ih =>
      obtain ⟨c, c', hc, hw, rfl⟩ := overwrite_cons_eq_ok_iff.1 h
      rw [overwrite, overwrite, child_setChild hc c', hc]
      simp only [ih hw]
      cases c.overwrite steps b <;> simp [setChild_setChild]

end TreePatch.Value
