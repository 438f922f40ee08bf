import TreePatch.Result
import TreePatch.Value.Edit
import TreePatch.Value.Lens

set_option autoImplicit false

/-!
# What every edit at a parent has in common

`add`, `remove`, `replace` and `assign` walk to the node above their place and change
that node by the last step. The walk is `editParent`, and overwriting along a list of
steps is one of its instances (`overwrite_cons_eq_editParent`), so a fact about
`editParent` that asks little of the last step is a fact about all four.

`editParent_cons_eq_ok_iff` says what a successful walk does at its first step. An edit fails
on the way to the parent or in its last step (`editParent_eq_error_iff`), and for the causes of
these (`cause_of_add`, `cause_of_remove`, `cause_of_replace`).
-/

namespace TreePatch.Value

variable {ε : Type} {lift : Misstep → ε} {edit : Value → Segment → Except ε Value}
variable {v v' : Value} {s : Segment}

/-! ## The kind of an edited node -/

@[simp] theorem kind_setChild (v : Value) (s : Segment) (new : Value) :
    (v.setChild s new).kind = v.kind := by
  cases v with
  | object ms =>
      unfold setChild
      cases s.memberName? <;> rfl
  | array xs => cases s <;> rfl
  | _ => cases s <;> rfl

@[simp] theorem kind_dropChild (v : Value) (s : Segment) : (v.dropChild s).kind = v.kind := by
  cases v with
  | object ms =>
      unfold dropChild
      cases s.memberName? <;> rfl
  | array xs => cases s <;> rfl
  | _ => rfl

/-- Where an insertion succeeds: at the end of an array, at a position up to its size, or
under a name of an object. -/
theorem insertChild_eq_ok {new : Value} (h : v.insertChild s new = .ok v') :
    (∃ xs, v = .array xs ∧ s = .append ∧ v' = .array (xs ++ [new])) ∨
    (∃ xs n, v = .array xs ∧ s = .index n ∧ n ≤ xs.length ∧
      v' = .array (xs.insertIdx n new)) ∨
    (∃ ms name, v = .object ms ∧ s.memberName? = some name ∧
      v' = .object (Members.insert ms name new)) := by
  cases v with
  | array xs =>
      cases s with
      | append =>
          cases h
          exact .inl ⟨xs, rfl, rfl, rfl⟩
      | index n =>
          simp only [insertChild] at h
          split at h
          · rename_i hn
            cases h
            exact .inr (.inl ⟨xs, n, rfl, rfl, hn, rfl⟩)
          · cases h
      | _ => cases h
  | object ms =>
      simp only [insertChild] at h
      cases hs : s.memberName? with
      | none => simp [hs] at h
      | some name =>
          simp only [hs, Except.ok.injEq] at h
          exact .inr (.inr ⟨ms, name, rfl, rfl, h.symm⟩)
  | _ => cases h

theorem kind_of_insertChild {new : Value} (h : v.insertChild s new = .ok v') :
    v'.kind = v.kind := by
  rcases insertChild_eq_ok h with ⟨xs, rfl, -, rfl⟩ | ⟨xs, n, rfl, -, -, rfl⟩ |
    ⟨ms, name, rfl, -, rfl⟩ <;> rfl

theorem eraseChild_eq_ok_iff : v.eraseChild s = .ok v' ↔
    (∃ c, v.child s = .ok c) ∧ v' = v.dropChild s := by
  rw [eraseChild]
  cases hc : v.child s with
  | error m => simp
  | ok c =>
      simp only [Except.ok.injEq, exists_eq', true_and]
      exact eq_comm

theorem kind_of_eraseChild (h : v.eraseChild s = .ok v') : v'.kind = v.kind := by
  obtain ⟨-, rfl⟩ := eraseChild_eq_ok_iff.1 h
  exact kind_dropChild v s

/-! ## The walk to the parent -/

/-- A successful walk with more than one step takes the first, edits the child and
writes it back. -/
theorem editParent_cons_eq_ok_iff {t : Segment} {rest : List Segment} :
    editParent lift edit v s (t :: rest) = .ok v' ↔
      ∃ c c', v.child s = .ok c ∧ editParent lift edit c t rest = .ok c' ∧
        v' = v.setChild s c' := by
  rw [editParent]
  cases v.child s with
  | error m => simp
  | ok c =>
      cases hw : editParent lift edit c t rest with
      | error e => simp [hw]
      | ok c' => simp [hw, eq_comm]

/-- A successful walk along the steps of two lists follows the first, walks along the second
from there and writes back what comes out. -/
theorem editParent_append_eq_ok_iff {a : Segment} {as rest : List Segment} :
    editParent lift edit v a (as ++ s :: rest) = .ok v' ↔
      ∃ c c', v.follow (a :: as) = .ok c ∧ editParent lift edit c s rest = .ok c' ∧
        v.overwrite (a :: as) c' = .ok v' := by
  induction as generalizing v v' a with
  | nil =>
      rw [List.nil_append, editParent_cons_eq_ok_iff]
      constructor
      · rintro ⟨c, c', hc, he, rfl⟩
        exact ⟨c, c', (follow_singleton v a).trans hc, he,
          overwrite_cons_eq_ok_iff.2 ⟨c, c', hc, rfl, rfl⟩⟩
      · rintro ⟨c, c', hc, he, hw⟩
        obtain ⟨_, _, _, hc', rfl⟩ := overwrite_cons_eq_ok_iff.1 hw
        cases hc'
        exact ⟨c, c', (follow_singleton v a).symm.trans hc, he, rfl⟩
  | cons b as ih =>
      rw [List.cons_append, editParent_cons_eq_ok_iff]
      constructor
      · rintro ⟨d, d', hd, he, rfl⟩
        obtain ⟨c, c', hc, hedit, hw⟩ := ih.1 he
        refine ⟨c, c', by rw [follow_cons_of_child hd, hc], hedit, ?_⟩
        exact overwrite_cons_eq_ok_iff.2 ⟨d, d', hd, hw, rfl⟩
      · rintro ⟨c, c', hc, hedit, hw⟩
        obtain ⟨d, d', hd, hd', rfl⟩ := overwrite_cons_eq_ok_iff.1 hw
        rw [follow_cons_of_child hd] at hc
        exact ⟨d, d', hd, ih.2 ⟨c, c', hc, hedit, hd'⟩, rfl⟩

/-- The last step of an overwriting. -/
def writeChild (v : Value) (s : Segment) (new : Value) : Except Misstep Value :=
  (v.child s).map fun _ => v.setChild s new

theorem writeChild_eq_ok_iff {new : Value} : v.writeChild s new = .ok v' ↔
    (∃ c, v.child s = .ok c) ∧ v' = v.setChild s new := by
  rw [writeChild, Result.map_eq_ok_iff]
  refine ⟨fun h => ?_, fun h => ?_⟩
  · obtain ⟨c, hc, rfl⟩ := h
    exact ⟨⟨c, hc⟩, rfl⟩
  · obtain ⟨⟨c, hc⟩, rfl⟩ := h
    exact ⟨c, hc, rfl⟩

theorem kind_of_writeChild {new : Value} (h : v.writeChild s new = .ok v') :
    v'.kind = v.kind := by
  obtain ⟨-, rfl⟩ := writeChild_eq_ok_iff.1 h
  exact kind_setChild v s new

/-- Overwriting along at least one step is a walk to the parent that writes a child. -/
theorem overwrite_cons_eq_editParent (v : Value) (s : Segment) (rest : List Segment)
    (new : Value) :
    v.overwrite (s :: rest) new = editParent id (fun w t => w.writeChild t new) v s rest := by
  induction rest generalizing v s with
  | nil =>
      rw [overwrite, editParent, writeChild]
      cases v.child s <;> rfl
  | cons t rest ih =>
      rw [overwrite, editParent]
      cases v.child s with
      | error m => rfl
      | ok c =>
          simp only [ih]
          cases editParent id (fun w t => w.writeChild t new) c t rest <;> rfl

/-! ## Edits at a path -/

/-- An edit of the node above a path's place by the last step, with what happens at the
root and what is reported where the edit fails. A path with a wildcard is refused. -/
def editAt (root : Value → Except Fault Value) (lift : Misstep → ε)
    (edit : Value → Segment → Except ε Value) (report : ε → Cause) (v : Value) (p : Path) :
    Except Fault Value :=
  if p.isConcrete then
    match p.segments with
    | [] => root v
    | s :: rest => (editParent lift edit v s rest).mapError fun e => p.fault (report e)
  else .error (p.fault (.misstep .wildcard))

theorem add_eq_editAt (v : Value) (p : Path) (new : Value) :
    v.add p new = editAt (fun _ => .ok new) .misstep (fun w s => w.insertChild s new) id v p :=
  rfl

theorem remove_eq_editAt (v : Value) (p : Path) :
    v.remove p = editAt (fun _ => .error { cause := .rootRemoval }) id eraseChild
      (.nothing .remove) v p :=
  rfl

theorem replace_eq_editAt (v : Value) (p : Path) (new : Value) :
    v.replace p new = editAt (fun _ => .ok new) id (fun w s => w.writeChild s new)
      (.nothing .replace) v p := by
  rw [replace, editAt]
  cases p.segments with
  | nil => rfl
  | cons s rest => rw [overwrite_cons_eq_editParent]

/-- A successful edit is one of the root, or one at a parent below it. -/
theorem editAt_eq_ok {root : Value → Except Fault Value} {report : ε → Cause} {p : Path}
    (h : editAt root lift edit report v p = .ok v') :
    (p.segments = [] ∧ root v = .ok v') ∨
    (∃ s rest, p.segments = s :: rest ∧ editParent lift edit v s rest = .ok v') := by
  unfold editAt at h
  split at h
  · split at h
    · exact .inl ⟨‹_›, h⟩
    · exact .inr ⟨_, _, ‹_›, Result.mapError_eq_ok_iff.1 h⟩
  · cases h

/-- An edit at a path succeeds exactly if it does from some node on the way, and then that
node is overwritten. -/
theorem editAt_eq_ok_iff {root : Value → Except Fault Value} {report : ε → Cause} {p : Path}
    {steps rest : List Segment} (hconcrete : p.isConcrete = true)
    (hp : p.segments = steps ++ s :: rest) :
    editAt root lift edit report v p = .ok v' ↔
      ∃ c c', v.follow steps = .ok c ∧ editParent lift edit c s rest = .ok c' ∧
        v.overwrite steps c' = .ok v' := by
  rw [editAt, if_pos hconcrete, hp]
  cases steps with
  | nil => simp [Result.mapError_eq_ok_iff, overwrite]
  | cons a as => exact Result.mapError_eq_ok_iff.trans editParent_append_eq_ok_iff

/-! ## Where an edit fails -/

/-- An edit at a parent fails where the parent is not found, or as the edit of it does. -/
theorem editParent_eq_error_iff {rest : List Segment} {e : ε} :
    editParent lift edit v s rest = .error e ↔
    (∃ m, v.follow (s :: rest).dropLast = .error m ∧ e = lift m) ∨
    ∃ parent, v.follow (s :: rest).dropLast = .ok parent ∧
      edit parent ((s :: rest).getLast (List.cons_ne_nil s rest)) = .error e := by
  induction rest generalizing v s with
  | nil => simp [editParent]
  | cons t rest ih =>
      rw [editParent, List.dropLast_cons_cons, List.getLast_cons_cons]
      cases hc : v.child s with
      | error m => simp [follow_cons_of_error hc, eq_comm]
      | ok c =>
          rw [follow_cons_of_child hc, ← ih]
          cases hw : editParent lift edit c t rest <;> simp [hw]

/-- An edit fails at a wildcard, at the root, or on the walk to the parent. -/
theorem editAt_eq_error {root : Value → Except Fault Value} {report : ε → Cause} {p : Path}
    {f : Fault} (h : editAt root lift edit report v p = .error f) :
    f = p.fault (.misstep .wildcard) ∨ root v = .error f ∨
      ∃ e, f = p.fault (report e) ∧ ((∃ m, e = lift m) ∨ ∃ w t, edit w t = .error e) := by
  unfold editAt at h
  split at h
  · split at h
    · exact .inr (.inl h)
    · obtain ⟨e, he, rfl⟩ := Result.mapError_eq_error_iff.1 h
      refine .inr (.inr ⟨e, rfl, ?_⟩)
      rcases editParent_eq_error_iff.1 he with ⟨m, -, rfl⟩ | ⟨parent, -, hedit⟩
      · exact .inl ⟨m, rfl⟩
      · exact .inr ⟨parent, _, hedit⟩
  · exact .inl (Except.error.inj h).symm

/-- Nothing is taken out where nothing is read, and for the same reason. -/
theorem editParent_eraseChild_of_error {rest : List Segment} {m : Misstep}
    (h : v.follow (s :: rest) = .error m) : editParent id eraseChild v s rest = .error m := by
  rw [follow_eq_bind_child] at h
  refine editParent_eq_error_iff.2 ?_
  cases hparent : v.follow (s :: rest).dropLast with
  | error m' =>
      rw [hparent] at h
      exact .inl ⟨m', rfl, (Except.error.inj h).symm⟩
  | ok parent =>
      rw [hparent] at h
      change parent.child _ = .error m at h
      exact .inr ⟨parent, rfl, by rw [eraseChild, h]⟩

/-- A removal below the root reports why nothing is read at its path. -/
theorem remove_of_follow_error {p : Path} {m : Misstep} (hp : p.isConcrete = true)
    (hroot : p.isRoot = false) (h : v.follow p.segments = .error m) :
    v.remove p = .error (p.fault (.nothing .remove m)) := by
  rw [remove, if_pos hp]
  split
  · rename_i hnil
    rw [Path.isRoot, hnil] at hroot
    cases hroot
  · rename_i s rest hcons
    rw [hcons] at h
    rw [editParent_eraseChild_of_error h]
    rfl

/-- Why an insertion at a node fails. -/
theorem insertChild_eq_error {new : Value} {cause : Cause}
    (h : v.insertChild s new = .error cause) :
    cause = .misstep .wildcard ∨ (∃ n size, cause = .outOfBounds n size) ∨
      (∃ name, cause = .notAnIndex name) ∨ ∃ found, cause = .notAContainer found := by
  cases v with
  | array xs =>
      cases s with
      | append => cases h
      | index n =>
          simp only [insertChild] at h
          split at h
          · cases h
          · cases h
            exact .inr (.inl ⟨_, _, rfl⟩)
      | key name =>
          cases h
          exact .inr (.inr (.inl ⟨_, rfl⟩))
      | wildcard =>
          cases h
          exact .inl rfl
  | object ms =>
      simp only [insertChild] at h
      split at h
      · cases h
      · cases h
        exact .inl rfl
  | _ =>
      cases h
      exact .inr (.inr (.inr ⟨_, rfl⟩))

/-- Why an insertion at a path fails. -/
theorem cause_of_add {p : Path} {new : Value} {f : Fault} (h : v.add p new = .error f) :
    (∃ m, f.cause = .misstep m) ∨ (∃ n size, f.cause = .outOfBounds n size) ∨
      (∃ name, f.cause = .notAnIndex name) ∨ ∃ found, f.cause = .notAContainer found := by
  rw [add_eq_editAt] at h
  rcases editAt_eq_error h with rfl | hroot | ⟨e, rfl, ⟨m, rfl⟩ | ⟨w, t, he⟩⟩
  · exact .inl ⟨_, rfl⟩
  · cases hroot
  · exact .inl ⟨m, rfl⟩
  · exact (insertChild_eq_error he).imp_left fun hm => ⟨_, hm⟩

/-- Why a removal fails. -/
theorem cause_of_remove {p : Path} {f : Fault} (h : v.remove p = .error f) :
    f.cause = .misstep .wildcard ∨ f.cause = .rootRemoval ∨
      ∃ m, f.cause = .nothing .remove m := by
  rw [remove_eq_editAt] at h
  rcases editAt_eq_error h with rfl | hroot | ⟨m, rfl, -⟩
  · exact .inl rfl
  · cases hroot
    exact .inr (.inl rfl)
  · exact .inr (.inr ⟨m, rfl⟩)

/-- Why an overwriting fails. -/
theorem cause_of_replace {p : Path} {new : Value} {f : Fault} (h : v.replace p new = .error f) :
    f.cause = .misstep .wildcard ∨ ∃ m, f.cause = .nothing .replace m := by
  rw [replace_eq_editAt] at h
  rcases editAt_eq_error h with rfl | hroot | ⟨m, rfl, -⟩
  · exact .inl rfl
  · cases hroot
  · exact .inr ⟨m, rfl⟩

end TreePatch.Value
