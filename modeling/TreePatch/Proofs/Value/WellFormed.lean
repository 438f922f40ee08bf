import TreePatch.Proofs.Value.Children
import TreePatch.Proofs.Value.Edit

set_option autoImplicit false

/-!
# Edits keep names distinct

An edit changes one node and writes the changed nodes back along the way it came. If it
turns well-formed nodes into well-formed ones, so does the edit as a whole
(`WellFormed.editParent`, `WellFormed.editAt`), and inserting, overwriting and taking out a
child do. What is said of an object here goes through its look-ups
(`wellFormed_object_iff_get?`), so no proof walks a list of members again.
-/

namespace TreePatch.Value

variable {ε : Type} {lift : Misstep → ε} {edit : Value → Segment → Except ε Value}
variable {v v' x new : Value} {s : Segment} {rest steps : List Segment} {p : Path}

/-- An object is well formed if its names are distinct and all that they look up is. -/
theorem wellFormed_object_iff_get? {ms : Members Value} : WellFormed (.object ms) ↔
    ms.Distinct ∧ ∀ name x, ms.get? name = some x → x.WellFormed := by
  rw [wellFormed_object]
  refine and_congr_right fun hms => ⟨fun h name x hx => ?_, fun h m hm => ?_⟩
  · exact h _ (Members.mem_of_get? hx)
  · exact h m.1 m.2 (Members.get?_of_mem hms hm)

/-! ## At one node -/

theorem WellFormed.setChild (hv : v.WellFormed) (hnew : new.WellFormed) (s : Segment) :
    (v.setChild s new).WellFormed := by
  cases v with
  | array xs =>
      cases s with
      | index n =>
          simp only [Value.setChild, updateElement, wellFormed_array]
          intro x hx
          rcases List.mem_or_eq_of_mem_set hx with hx | rfl
          · exact wellFormed_array.1 hv x hx
          · exact hnew
      | _ => exact hv
  | object ms =>
      cases hs : s.memberName? with
      | none => simpa [Value.setChild, hs] using hv
      | some name =>
          obtain ⟨hms, hentries⟩ := wellFormed_object_iff_get?.1 hv
          simp only [Value.setChild, hs, updateMember, wellFormed_object_iff_get?,
            Members.get?_update]
          refine ⟨hms.update name new, fun other x hx => ?_⟩
          split at hx
          · exact Option.some.inj hx ▸ hnew
          · exact hentries other x hx
  | _ => cases s <;> exact hv

theorem WellFormed.insertChild (hv : v.WellFormed) (hnew : new.WellFormed)
    (h : v.insertChild s new = .ok v') : v'.WellFormed := by
  rcases insertChild_eq_ok h with ⟨xs, rfl, -, rfl⟩ | ⟨xs, n, rfl, -, hn, rfl⟩ |
    ⟨ms, name, rfl, -, rfl⟩
  · rw [wellFormed_array, List.forall_mem_append]
    exact ⟨wellFormed_array.1 hv, by simpa using hnew⟩
  · rw [wellFormed_array]
    intro x hx
    rcases (List.mem_insertIdx hn).1 hx with rfl | hx
    · exact hnew
    · exact wellFormed_array.1 hv x hx
  · obtain ⟨hms, hentries⟩ := wellFormed_object_iff_get?.1 hv
    simp only [wellFormed_object_iff_get?, Members.get?_insert]
    refine ⟨hms.insert name new, fun other x hx => ?_⟩
    split at hx
    · exact Option.some.inj hx ▸ hnew
    · exact hentries other x hx

theorem WellFormed.dropChild (hv : v.WellFormed) (s : Segment) : (v.dropChild s).WellFormed := by
  cases v with
  | array xs =>
      cases s with
      | index n =>
          rw [Value.dropChild, wellFormed_array]
          exact fun x hx => wellFormed_array.1 hv x (List.mem_of_mem_eraseIdx hx)
      | _ => exact hv
  | object ms =>
      cases hs : s.memberName? with
      | none => simpa [Value.dropChild, hs] using hv
      | some name =>
          obtain ⟨hms, hentries⟩ := wellFormed_object_iff_get?.1 hv
          simp only [Value.dropChild, hs, wellFormed_object_iff_get?, Members.get?_erase hms]
          refine ⟨hms.erase name, fun other x hx => ?_⟩
          split at hx
          · cases hx
          · exact hentries other x hx
  | _ => exact hv

theorem WellFormed.eraseChild (hv : v.WellFormed) (h : v.eraseChild s = .ok v') :
    v'.WellFormed := by
  obtain ⟨-, rfl⟩ := eraseChild_eq_ok_iff.1 h
  exact hv.dropChild s

theorem WellFormed.writeChild (hv : v.WellFormed) (hnew : new.WellFormed)
    (h : v.writeChild s new = .ok v') : v'.WellFormed := by
  obtain ⟨-, rfl⟩ := writeChild_eq_ok_iff.1 h
  exact hv.setChild hnew s

/-! ## Along a path -/

/-- An edit below a node that keeps the node it changes well formed keeps every node above
well formed. -/
theorem WellFormed.editParent
    (hedit : ∀ w t w', w.WellFormed → edit w t = .ok w' → w'.WellFormed) (hv : v.WellFormed)
    (h : editParent lift edit v s rest = .ok v') : v'.WellFormed := by
  induction rest generalizing v v' s with
  | nil => exact hedit v s v' hv h
  | cons t rest ih =>
      obtain ⟨c, c', hc, hc', rfl⟩ := editParent_cons_eq_ok_iff.1 h
      exact hv.setChild (ih (hv.child hc) hc') s

theorem WellFormed.editAt {root : Value → Except Fault Value} {report : ε → Cause}
    (hroot : ∀ w', root v = .ok w' → w'.WellFormed)
    (hedit : ∀ w t w', w.WellFormed → edit w t = .ok w' → w'.WellFormed) (hv : v.WellFormed)
    (h : editAt root lift edit report v p = .ok v') : v'.WellFormed := by
  rcases editAt_eq_ok h with ⟨-, h⟩ | ⟨s, rest, -, h⟩
  · exact hroot v' h
  · exact hv.editParent hedit h

theorem WellFormed.overwrite (hv : v.WellFormed) (hnew : new.WellFormed)
    (h : v.overwrite steps new = .ok v') : v'.WellFormed := by
  cases steps with
  | nil =>
      cases h
      exact hnew
  | cons s rest =>
      rw [overwrite_cons_eq_editParent] at h
      exact hv.editParent (fun _ _ _ hw => hw.writeChild hnew) h

/-! ## At a path -/

theorem WellFormed.add (hv : v.WellFormed) (hnew : new.WellFormed) (h : v.add p new = .ok v') :
    v'.WellFormed := by
  rw [add_eq_editAt] at h
  refine hv.editAt (fun w' hw => ?_) (fun _ _ _ hw => hw.insertChild hnew) h
  exact Except.ok.inj hw ▸ hnew

theorem WellFormed.remove (hv : v.WellFormed) (h : v.remove p = .ok v') : v'.WellFormed := by
  rw [remove_eq_editAt] at h
  refine hv.editAt (fun w' hw => ?_) (fun _ _ _ hw => hw.eraseChild) h
  cases hw

theorem WellFormed.replace (hv : v.WellFormed) (hnew : new.WellFormed)
    (h : v.replace p new = .ok v') : v'.WellFormed := by
  unfold Value.replace at h
  split at h
  · exact hv.overwrite hnew (Result.mapError_eq_ok_iff.1 h)
  · cases h

theorem WellFormed.assign (hv : v.WellFormed) (hnew : new.WellFormed)
    (h : v.assign p new = .ok v') : v'.WellFormed :=
  hv.overwrite hnew (Result.mapError_eq_ok_iff.1 h)

theorem WellFormed.get (hv : v.WellFormed) (h : v.get p = .ok x) : x.WellFormed :=
  hv.follow (Result.mapError_eq_ok_iff.1 h)

theorem WellFormed.getPointer (hv : v.WellFormed) {pointer : Text}
    (h : v.getPointer pointer = .ok x) : x.WellFormed := by
  obtain ⟨p, -, hx⟩ := Result.bind_eq_ok_iff.1 h
  exact hv.get hx

end TreePatch.Value
