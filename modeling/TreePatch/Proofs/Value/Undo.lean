import Mathlib.Data.List.InsertIdx
import Mathlib.Data.List.Nodup
import TreePatch.Proofs.Value.Children
import TreePatch.Proofs.Value.LastStep

set_option autoImplicit false

/-!
# Insertions and removals undo each other

At one node, taking out a child that was just inserted gives the old node back, unless the
insertion has overwritten a member (`dropChild_insertChild`). Putting back a child that was just
taken out gives the old array back, while a member comes to stand last
(`insertChild_dropChild_array`, `insertChild_dropChild_object`). An edit at a path writes back
what it makes of one node, and of two writes the second counts, so the same holds of whole
documents (`add_remove_undo`).
-/

namespace TreePatch

namespace Value

variable {d d' c c' x new : Value} {p : Path} {s : Segment} {xs : List Value} {n : Nat}
variable {before after : Members Value} {name : Text}

/-! ## At one node -/

/-- What was inserted into a node is its child. -/
theorem child_insertChild (h : c.insertChild s new = .ok c') :
    c'.child (c.landingStep s) = .ok new := by
  cases c with
  | array xs =>
      obtain ⟨i, hi, hle, rfl⟩ := insertChild_array_iff.1 h
      rw [hi, child_index_iff, List.getElem?_insertIdx_self, if_pos hle]
  | object ms =>
      obtain ⟨name, hs, rfl⟩ := insertChild_object_iff.1 h
      rw [landingStep_object, child_object_iff hs, Members.get?_insert, if_pos rfl]
  | _ => cases h

/-- Taking out a child undoes its insertion, if there was no member of its name. -/
theorem dropChild_insertChild (h : c.insertChild s new = .ok c')
    (hfresh : (∃ xs, c = .array xs) ∨ ∀ x, c.child s ≠ .ok x) :
    c'.dropChild (c.landingStep s) = c := by
  cases c with
  | array xs =>
      obtain ⟨i, hi, -, rfl⟩ := insertChild_array_iff.1 h
      rw [hi, dropChild, List.eraseIdx_insertIdx_self]
  | object ms =>
      obtain ⟨name, hs, rfl⟩ := insertChild_object_iff.1 h
      have hnew : name ∉ Members.keys ms := by
        have habsent := hfresh.resolve_left (by simp)
        simp only [ne_eq, child_object_iff hs] at habsent
        rw [← Members.get?_eq_none_iff]
        exact Option.eq_none_iff_forall_ne_some.2 habsent
      simp only [landingStep_object, dropChild, hs, Members.erase_insert_of_not_mem hnew]
  | _ => cases h

/-- Inserting an element undoes taking it out. -/
theorem insertChild_dropChild_array (h : xs[n]? = some x) :
    ((array xs).dropChild (.index n)).insertChild (.index n) x = .ok (.array xs) := by
  obtain ⟨hn, rfl⟩ := List.getElem?_eq_some_iff.1 h
  have hle : n ≤ (xs.eraseIdx n).length := by
    rw [List.length_eraseIdx_of_lt hn]
    omega
  simp only [dropChild, insertChild, if_pos hle, List.insertIdx_eraseIdx_getElem hn]

/-- Inserting a member that was taken out appends it. -/
theorem insertChild_dropChild_object (hs : s.memberName? = some name)
    (hnew : name ∉ Members.keys (before ++ after)) (x : Value) :
    ((object (before ++ (name, x) :: after)).dropChild s).insertChild s x =
      .ok (.object (before ++ after ++ [(name, x)])) := by
  have hbefore : name ∉ Members.keys before := by
    intro hmem
    refine hnew ?_
    rw [Members.keys, List.map_append]
    exact List.mem_append_left _ hmem
  simp only [dropChild, insertChild, hs, Members.erase_split hbefore,
    Members.insert_of_not_mem hnew]

/-- A name of distinct members is that of one member only. -/
theorem not_mem_keys_of_distinct (h : Members.Distinct (before ++ (name, x) :: after)) :
    name ∉ Members.keys (before ++ after) := by
  have hkeys : Members.keys (before ++ (name, x) :: after) =
      Members.keys before ++ name :: Members.keys after := by
    simp [Members.keys]
  rw [Members.Distinct, hkeys, List.nodup_middle] at h
  simpa [Members.keys] using (List.nodup_cons.1 h).1

/-! ## In a document -/

/-- A value that was inserted stands where it has landed, and taking it out from there gives the
old document back. -/
theorem remove_of_add {a : Path} (hc : d.get a = .ok c)
    (hfresh : (∃ xs, c = .array xs) ∨ ∀ x, c.child s ≠ .ok x)
    (hadd : d.add (a.push s) new = .ok d') :
    d'.get (a.push (c.landingStep s)) = .ok new ∧
      d'.remove (a.push (c.landingStep s)) = .ok d := by
  obtain ⟨c', hc', hw⟩ := (add_push_iff hc).1 hadd
  have hnew := child_insertChild hc'
  refine ⟨(get_push_iff (get_of_overwrite hw)).2 hnew,
    (remove_push_iff (get_of_overwrite hw)).2 ⟨⟨new, hnew⟩, ?_⟩⟩
  rw [dropChild_insertChild hc' hfresh, overwrite_overwrite hw,
    overwrite_of_follow (get_eq_ok_iff.1 hc)]

/-- A value that was taken out can be inserted again, at the node that the removal has left. -/
theorem exists_add_of_remove {a : Path} (hc : d.get a = .ok c) (hx : c.child s = .ok x)
    (hback : (c.dropChild s).insertChild s x = .ok c')
    (hw : d.overwrite a.segments c' = .ok d') :
    ∃ d₁, d.remove (a.push s) = .ok d₁ ∧ d₁.add (a.push s) x = .ok d' := by
  obtain ⟨d₁, hd₁⟩ := exists_overwrite_of_get hc (c.dropChild s)
  refine ⟨d₁, (remove_push_iff hc).2 ⟨⟨x, hx⟩, hd₁⟩,
    (add_push_iff (get_of_overwrite hd₁)).2 ⟨c', hback, ?_⟩⟩
  rw [overwrite_overwrite hd₁, hw]

/-- One document is another in which the member at a path, with a value, has been moved to the
last position of its object, behind the members that stood after it. -/
def MovedLast (d : Value) (p : Path) (x : Value) (after : Members Value) (d' : Value) : Prop :=
  ∃ before s name, d.get p.parent = .ok (.object (before ++ (name, x) :: after)) ∧
    p.last? = some s ∧ s.memberName? = some name ∧
    d.replace p.parent (.object (before ++ after ++ [(name, x)])) = .ok d'

/-- A member that is moved to the last position changes the document unless it stood there. -/
theorem MovedLast.eq_iff (hd : d.WellFormed) (h : d.MovedLast p x after d') :
    d' = d ↔ after = [] := by
  obtain ⟨before, s, name, hparent, -, -, hmoved⟩ := h
  have hms := (wellFormed_object.1 (hd.follow (get_eq_ok_iff.1 hparent))).1
  have hw := replace_eq_ok_iff.1 hmoved
  constructor
  · rintro rfl
    have hsame := (get_of_overwrite hw).symm.trans hparent
    simp only [Except.ok.injEq, object.injEq, List.append_assoc, List.append_cancel_left_eq]
      at hsame
    cases after with
    | nil => rfl
    | cons m after =>
        -- The member would stand among the ones after it, too.
        obtain ⟨rfl, -⟩ := List.cons.inj hsame
        exact absurd (by simp [Members.keys]) (not_mem_keys_of_distinct hms)
  · rintro rfl
    rw [List.append_nil] at hw
    exact Except.ok.inj (hw.symm.trans (overwrite_of_follow (get_eq_ok_iff.1 hparent)))

/-- A value that has been inserted stands where it has landed, and is taken out from there. -/
theorem remove_landing_of_add (hroot : p.isRoot = false) (hadd : d.add p new = .ok d')
    (hfresh : (∃ xs, d.get p.parent = .ok (.array xs)) ∨ d.has p = false) :
    d'.get (d.landing p) = .ok new ∧ d'.remove (d.landing p) = .ok d := by
  obtain ⟨a, s, rfl⟩ := Path.exists_push hroot
  obtain ⟨c, hc⟩ := exists_parent_of_add hadd
  rw [Path.parent_push] at hc hfresh
  rw [landing_push hc]
  refine remove_of_add hc (hfresh.imp (fun h => ?_) fun h x hx => ?_) hadd
  · obtain ⟨xs, hxs⟩ := h
    exact ⟨xs, Except.ok.inj (hc.symm.trans hxs)⟩
  · rw [has, (get_push_iff hc).2 hx] at h
    cases h

/-- A value that has been taken out is put back: an element at its position, a member as the last
of its object. -/
theorem exists_add_back_of_get (hd : d.WellFormed) (hroot : p.isRoot = false)
    (hx : d.get p = .ok x) : ∃ d₁ d₂, d.remove p = .ok d₁ ∧ d₁.add p x = .ok d₂ ∧
      ((∃ xs, d.get p.parent = .ok (.array xs)) ∧ d₂ = d ∨
        ∃ after, d.MovedLast p x after d₂ ∧ (d₂ = d ↔ after = [])) := by
  obtain ⟨a, s, rfl⟩ := Path.exists_push hroot
  obtain ⟨c, hc⟩ := exists_parent_of_get hx
  rw [Path.parent_push] at hc
  have hchild : c.child s = .ok x := (get_push_iff hc).1 hx
  rw [Path.parent_push]
  rcases child_eq_ok_cases hchild with ⟨xs, n, rfl, rfl, hn⟩ | ⟨ms, name, rfl, hs, hget⟩
  · obtain ⟨d₁, hremove, hadd⟩ := exists_add_of_remove hc hchild
      (insertChild_dropChild_array hn) (overwrite_of_follow (get_eq_ok_iff.1 hc))
    exact ⟨d₁, d, hremove, hadd, .inl ⟨⟨xs, hc⟩, rfl⟩⟩
  · obtain ⟨before, after, rfl, -⟩ := Members.exists_split_of_get? hget
    have hms := (wellFormed_object.1 (hd.follow (get_eq_ok_iff.1 hc))).1
    have hnew := not_mem_keys_of_distinct hms
    obtain ⟨d₂, hd₂⟩ := exists_overwrite_of_get hc (.object (before ++ after ++ [(name, x)]))
    obtain ⟨d₁, hremove, hadd⟩ := exists_add_of_remove hc hchild
      (insertChild_dropChild_object hs hnew x) hd₂
    have hmoved : d.MovedLast (a.push s) x after d₂ := by
      refine ⟨before, s, name, ?_, Path.last?_push a s, hs, ?_⟩
      · rw [Path.parent_push, hc]
      · rw [Path.parent_push, replace_eq_ok_iff, hd₂]
    exact ⟨d₁, d₂, hremove, hadd, .inr ⟨after, hmoved, hmoved.eq_iff hd⟩⟩

/-- A value that has been inserted, in an array or as a new member, is found where it has come to
stand, and taking it out from there gives the old document back. A value that has been taken out
can be inserted again. That gives the old document back if the value was an element of an array,
and moves a member to the last position. -/
theorem add_remove_undo (hd : d.WellFormed) (hroot : p.isRoot = false) :
    (∀ new d', d.add p new = .ok d' →
      (∃ xs, d.get p.parent = .ok (.array xs)) ∨ d.has p = false →
      d'.get (d.landing p) = .ok new ∧ d'.remove (d.landing p) = .ok d) ∧
    ∀ x, d.get p = .ok x → ∃ d₁ d₂, d.remove p = .ok d₁ ∧ d₁.add p x = .ok d₂ ∧
      ((∃ xs, d.get p.parent = .ok (.array xs)) ∧ d₂ = d ∨
        ∃ after, d.MovedLast p x after d₂ ∧ (d₂ = d ↔ after = [])) :=
  ⟨fun _ _ hadd hfresh => remove_landing_of_add hroot hadd hfresh,
    fun _ hx => exists_add_back_of_get hd hroot hx⟩

/-- A value that is added behind the last element of an array stands at a position, at which it
can be taken out again. The position 0 names a member of an object, which comes to stand behind
another when it is taken out and added again. -/
theorem add_remove_undo_last :
    let d : Value := .object [(utf8 "a", .array [.null]),
      (utf8 "m", .object [(utf8 "0", .null), (utf8 "k", .bool true)])]
    let last : Value := .object [(utf8 "a", .array [.null]),
      (utf8 "m", .object [(utf8 "k", .bool true), (utf8 "0", .null)])]
    let p : Path := .ofSegments [.key (utf8 "a"), .append]
    let q : Path := .ofSegments [.key (utf8 "m"), .index 0]
    d.WellFormed ∧ p.isRoot = false ∧ q.isRoot = false ∧ d.get q = .ok .null ∧
      (∃ d', d.add p (.bool false) = .ok d' ∧
        d'.get (.ofSegments [.key (utf8 "a"), .index 1]) = .ok (.bool false) ∧
        d'.remove (.ofSegments [.key (utf8 "a"), .index 1]) = .ok d) ∧
      ∃ d₁ after, d.remove q = .ok d₁ ∧ d₁.add q .null = .ok last ∧
        d.MovedLast q .null after last ∧ after ≠ [] := by
  intro d last p q
  have hd : d.WellFormed := by decide
  have hq : d.get q = .ok .null := rfl
  refine ⟨hd, rfl, rfl, hq, ?_, ?_⟩
  · obtain ⟨hadd, -⟩ := add_remove_undo (p := p) hd rfl
    obtain ⟨hnew, hremove⟩ := hadd (.bool false) _ rfl (.inl ⟨_, rfl⟩)
    exact ⟨_, rfl, hnew, hremove⟩
  · obtain ⟨-, hback⟩ := add_remove_undo (p := q) hd rfl
    obtain ⟨d₁, d₂, hremove, hadd, ⟨⟨xs, hxs⟩, -⟩ | ⟨after, hmoved, hiff⟩⟩ := hback .null hq
    · cases hxs
    · have hremoved : d.remove q = .ok _ := rfl
      obtain rfl := Except.ok.inj (hremoved.symm.trans hremove)
      obtain rfl : last = d₂ := Except.ok.inj hadd
      refine ⟨_, after, hremove, hadd, hmoved, ?_⟩
      rw [ne_eq, ← hiff]
      decide

end Value

end TreePatch
