import TreePatch.Proofs.Value.Overwrite

set_option autoImplicit false

/-!
# Where reads and edits succeed

Every edit at a path looks up the parent of its place and then edits one node. It succeeds
exactly if the parent is there and the last step can be edited at it
(`exists_editParent_iff`), as a read succeeds exactly if the parent is there and has the
child (`follow_eq_bind_child`).

* `exists_remove_iff`, `exists_replace_iff`: what can be taken out or overwritten is what
  can be read, the root aside.
* `exists_parent_of_get`, `exists_parent_of_add`: what is read or inserted has a parent.
-/

namespace TreePatch.Value

variable {ε : Type} {lift : Misstep → ε} {edit : Value → Segment → Except ε Value}
variable {v d d' x new : Value} {s : Segment} {rest steps : List Segment} {p : Path}

theorem get_eq_ok_iff : d.get p = .ok x ↔ d.follow p.segments = .ok x :=
  Result.mapError_eq_ok_iff

/-! ## Along a list of steps -/

/-- Where some steps lead, all but the last lead somewhere, too. -/
theorem exists_follow_dropLast (h : v.follow steps = .ok x) :
    ∃ parent, v.follow steps.dropLast = .ok parent := by
  cases steps with
  | nil => exact ⟨v, rfl⟩
  | cons s rest =>
      rw [follow_eq_bind_child, Result.bind_eq_ok_iff] at h
      obtain ⟨parent, hparent, -⟩ := h
      exact ⟨parent, hparent⟩

/-- An edit at a parent succeeds exactly if the parent is there and the last step can be
edited at it. -/
theorem exists_editParent_iff : (∃ v', editParent lift edit v s rest = .ok v') ↔
    ∃ parent, v.follow (s :: rest).dropLast = .ok parent ∧
      ∃ w, edit parent ((s :: rest).getLast (List.cons_ne_nil s rest)) = .ok w := by
  induction rest generalizing v s with
  | nil => simp [editParent]
  | cons t rest ih =>
      rw [editParent, List.dropLast_cons_cons, List.getLast_cons_cons]
      cases hc : v.child s with
      | error m => simp [follow_cons_of_error hc]
      | ok c =>
          rw [follow_cons_of_child hc, ← ih]
          cases hw : editParent lift edit c t rest <;> simp [hw]

/-! ## At a path -/

/-- What is read at a path is read below its parent. -/
theorem exists_parent_of_get (h : d.get p = .ok x) : ∃ parent, d.get p.parent = .ok parent := by
  obtain ⟨parent, hparent⟩ := exists_follow_dropLast (get_eq_ok_iff.1 h)
  exact ⟨parent, get_eq_ok_iff.2 hparent⟩

/-- What is inserted at a path is inserted below its parent. -/
theorem exists_parent_of_add (h : d.add p new = .ok d') :
    ∃ parent, d.get p.parent = .ok parent := by
  simp only [get_eq_ok_iff, Path.parent]
  rw [add_eq_editAt] at h
  rcases editAt_eq_ok h with ⟨hnil, -⟩ | ⟨s, rest, hcons, he⟩
  · rw [hnil]
    exact ⟨d, rfl⟩
  · obtain ⟨parent, hparent, -⟩ := exists_editParent_iff.1 ⟨_, he⟩
    rw [hcons]
    exact ⟨parent, hparent⟩

/-- A path that leads somewhere has no wildcard. -/
theorem isConcrete_of_get (h : d.get p = .ok x) : p.isConcrete = true :=
  Path.isConcrete_iff.2 (wildcard_not_mem_of_follow (get_eq_ok_iff.1 h))

/-- Replacing the value at a path is overwriting at the end of its steps. -/
theorem replace_eq_ok_iff : d.replace p new = .ok d' ↔ d.overwrite p.segments new = .ok d' := by
  rw [replace]
  split
  · exact Result.mapError_eq_ok_iff
  · rename_i hconcrete
    constructor
    · intro h
      cases h
    · intro h
      obtain ⟨x, hx⟩ := exists_overwrite_iff.1 ⟨d', h⟩
      exact absurd (isConcrete_of_get (get_eq_ok_iff.2 hx)) hconcrete

/-- A value can be overwritten exactly if there is one. -/
theorem exists_replace_iff : (∃ d', d.replace p new = .ok d') ↔ ∃ x, d.get p = .ok x := by
  simp only [replace_eq_ok_iff, get_eq_ok_iff, exists_overwrite_iff]

/-- The root is not taken out. -/
theorem remove_root (hroot : p.isRoot = true) :
    d.remove p = .error { cause := .rootRemoval } := by
  have hnil : p.segments = [] := List.isEmpty_iff.1 hroot
  rw [remove, if_pos (Path.isConcrete_iff.2 (by simp [hnil])), hnil]

/-- A value can be taken out exactly if there is one and it is not the root. -/
theorem exists_remove_iff : (∃ d', d.remove p = .ok d') ↔
    p.isRoot = false ∧ ∃ x, d.get p = .ok x := by
  have herase : ∀ s rest, (∃ v', editParent id eraseChild d s rest = .ok v') ↔
      ∃ x, d.follow (s :: rest) = .ok x := by
    intro s rest
    simp only [exists_editParent_iff, follow_eq_bind_child, Result.bind_eq_ok_iff,
      eraseChild_eq_ok_iff]
    refine ⟨fun h => ?_, fun h => ?_⟩
    · obtain ⟨parent, hparent, w, ⟨c, hc⟩, -⟩ := h
      exact ⟨c, parent, hparent, hc⟩
    · obtain ⟨c, parent, hparent, hc⟩ := h
      exact ⟨parent, hparent, _, ⟨c, hc⟩, rfl⟩
  simp only [get_eq_ok_iff]
  refine ⟨fun h => ?_, fun h => ?_⟩
  · obtain ⟨d', hd'⟩ := h
    rw [remove_eq_editAt] at hd'
    rcases editAt_eq_ok hd' with ⟨-, hroot⟩ | ⟨s, rest, hcons, he⟩
    · cases hroot
    · rw [Path.isRoot, hcons]
      exact ⟨rfl, (herase s rest).1 ⟨d', he⟩⟩
  · obtain ⟨hroot, x, hx⟩ := h
    have hconcrete : p.isConcrete = true := isConcrete_of_get (get_eq_ok_iff.2 hx)
    obtain ⟨s, rest, hcons⟩ := List.exists_cons_of_ne_nil (List.isEmpty_eq_false_iff.1 hroot)
    rw [hcons] at hx
    obtain ⟨d', hd'⟩ := (herase s rest).2 ⟨x, hx⟩
    refine ⟨d', ?_⟩
    rw [remove, if_pos hconcrete, hcons]
    exact Result.mapError_eq_ok_iff.2 hd'

end TreePatch.Value
