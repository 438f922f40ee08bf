import TreePatch.Proofs.Value.Comparison
import TreePatch.Proofs.Value.Undo

set_option autoImplicit false

/-!
# Values that are put back

A value that has been taken out and is inserted again at its place leaves an equivalent document
(`exists_add_back_equivalent`): an element comes back to its position, and a member comes to stand
last, which is another order of members. So does a value that is inserted over an equivalent
member (`exists_add_equivalent`). Either way one node is overwritten by an equivalent one
(`equivalent_of_overwrite`).
-/

namespace TreePatch

namespace Value

variable {c c' d d' x y : Value} {a p : Path} {ms after : Members Value}

/-- Equivalent documents have equivalent values at every place. -/
theorem Equivalent.of_get (h : d.Equivalent d') (hx : d.get p = .ok x) (hy : d'.get p = .ok y) :
    x.Equivalent y := by
  have hagree := h.follow p.segments
  rw [get_eq_ok_iff.1 hx, get_eq_ok_iff.1 hy] at hagree
  cases hagree with
  | ok h => exact h

/-- Overwriting a node by an equivalent one gives an equivalent document. -/
theorem equivalent_of_overwrite (hd : d.WellFormed) (hc : d.get a = .ok c)
    (h : c.Equivalent c') (hw : d.overwrite a.segments c' = .ok d') : d.Equivalent d' := by
  have hself := replace_eq_ok_iff.2 (overwrite_of_follow (get_eq_ok_iff.1 hc))
  have hagree := hd.equivalent.replace h a
  rw [hself, replace_eq_ok_iff.2 hw] at hagree
  cases hagree with
  | ok h => exact h

/-- Moving a member to the last position gives an equivalent document. -/
theorem MovedLast.equivalent (hd : d.WellFormed) (h : d.MovedLast p x after d') :
    d.Equivalent d' := by
  obtain ⟨before, s, name, hparent, -, -, hmoved⟩ := h
  refine equivalent_of_overwrite hd hparent ?_ (replace_eq_ok_iff.1 hmoved)
  refine equivalent_of_perm (hd.get hparent) ?_
  exact List.perm_middle.trans (List.perm_append_singleton _ _).symm

/-- A value that has been taken out is put back up to the order of members. -/
theorem exists_add_back_equivalent (hd : d.WellFormed) (hroot : p.isRoot = false)
    (hx : d.get p = .ok x) :
    ∃ w d', d.remove p = .ok w ∧ w.add p x = .ok d' ∧ d.Equivalent d' := by
  obtain ⟨w, d', hw, hadd, ⟨-, rfl⟩ | ⟨after, hmoved, -⟩⟩ := exists_add_back_of_get hd hroot hx
  · exact ⟨w, d', hw, hadd, hd.equivalent⟩
  · exact ⟨w, d', hw, hadd, hmoved.equivalent hd⟩

/-- Inserting a value over an equivalent member gives an equivalent document. -/
theorem exists_add_equivalent (hd : d.WellFormed) (hroot : p.isRoot = false)
    (hms : d.get p.parent = .ok (.object ms)) (hy : d.get p = .ok y) (hyx : y.Equivalent x) :
    ∃ d', d.add p x = .ok d' ∧ d.Equivalent d' := by
  obtain ⟨a, s, rfl⟩ := Path.exists_push hroot
  rw [Path.parent_push] at hms
  rcases child_eq_ok_cases ((get_push_iff hms).1 hy) with ⟨_, _, e, -⟩ | ⟨_, name, e, hs, hget⟩
  · cases e
  · cases e
    obtain ⟨d', hw⟩ := exists_overwrite_of_get hms (.object (ms.insert name x))
    refine ⟨d', (add_push_iff hms).2 ⟨_, insertChild_object_iff.2 ⟨name, hs, rfl⟩, hw⟩, ?_⟩
    obtain ⟨hdistinct, -, hentries⟩ := equivalent_object_iff.1 (hd.get hms).equivalent
    refine equivalent_of_overwrite hd hms ?_ hw
    refine equivalent_object_iff.2 ⟨hdistinct, hdistinct.insert name x, fun k => ?_⟩
    rw [Members.get?_insert]
    split
    · rename_i hk
      rw [← hk, hget]
      exact .some hyx
    · exact hentries k

end Value

end TreePatch
