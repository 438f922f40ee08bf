import TreePatch.Proofs.Patch.RemoveAll
import TreePatch.Proofs.Value.Undo

set_option autoImplicit false

/-!
# Edits at places of one depth

An expression has places of one depth. The parents of two of them are one node or lie apart, so an
edit at one place changes the parent of the other as it changes its own, or leaves it
(`Value.exists_node_of_add`, `Value.exists_node_of_remove`). What an edit of one node keeps, an
edit of the document therefore keeps at all places:

* `Value.exists_get_of_add`: an insertion leaves a value where there was one. It may be another.
* `Value.HasRoomAt`: a value can be inserted at a place and stands there then. This holds where a
  value was before a removal, and no insertion ends it.
* `Value.HasLength`: an array grows by one with each insertion at one of its places and shrinks by
  one with each removal.
* `Value.get_add_of_apart`, `Value.get_remove_of_apart`: the members of objects do not move.
-/

namespace TreePatch

/-! ## Depth -/

namespace Path

variable {a b p : Path} {s t : Segment} {n : Nat}

@[simp] theorem size_push (a : Path) (s : Segment) : (a.push s).size = a.size + 1 := by
  simp [size]

theorem isRoot_of_size (h : p.size = n + 1) : p.isRoot = false :=
  List.isEmpty_eq_false_iff.2 (List.ne_nil_of_length_eq_add_one h)

theorem size_parent (h : p.size = n + 1) : p.parent.size = n := by
  rw [size] at h
  simp [size, parent, h]

/-- A path below the root goes to its parent, which is one step less deep. -/
theorem exists_push_of_size (h : p.size = n + 1) : ∃ (a : Path) (s : Segment),
    p = a.push s ∧ a.size = n := by
  obtain ⟨a, s, rfl⟩ := exists_push (isRoot_of_size h)
  exact ⟨a, s, rfl, by simpa using h⟩

/-- Steps from one node lie apart only if their names differ. -/
theorem memberName?_ne_of_apart_push (hsame : a.same b = true) (h : (a.push s).Apart (b.push t)) :
    s.memberName? ≠ t.memberName? := by
  intro hname
  have hpush : (a.push s).names = (b.push t).names := by
    rw [names_push, names_push, same_iff.1 hsame, hname]
  exact (apart_iff.1 h).1 (hpush ▸ List.prefix_refl _)

end Path

namespace Value

variable {c c' d d' e new x : Value} {a b p q : Path} {s t : Segment} {ms : Members Value}
variable {n size : Nat}

/-! ## At one node -/

/-- A value can be inserted into a node at a step and stands there then: the step is a position up
to the size of an array, or a name in an object. -/
def HasRoom (c : Value) (s : Segment) : Prop :=
  (∃ xs i, c = .array xs ∧ s = .index i ∧ i ≤ xs.length) ∨
    ∃ ms name, c = .object ms ∧ s.memberName? = some name

theorem hasRoom_of_child (hx : c.child s = .ok x) : c.HasRoom s := by
  rcases child_eq_ok_cases hx with ⟨xs, i, rfl, rfl, hi⟩ | ⟨ms, name, rfl, hs, -⟩
  · exact .inl ⟨xs, i, rfl, rfl, Nat.le_of_lt (List.getElem?_eq_some_iff.1 hi).1⟩
  · exact .inr ⟨ms, name, rfl, hs⟩

theorem HasRoom.exists_insertChild (h : c.HasRoom s) (new : Value) :
    ∃ c', c.insertChild s new = .ok c' ∧ c'.child s = .ok new := by
  rcases h with ⟨xs, i, rfl, rfl, hi⟩ | ⟨ms, name, rfl, hs⟩
  · have hinsert : (array xs).insertChild (.index i) new = .ok _ :=
      insertChild_array_iff.2 ⟨i, rfl, hi, rfl⟩
    exact ⟨_, hinsert, child_insertChild hinsert⟩
  · have hinsert : (object ms).insertChild s new = .ok _ :=
      insertChild_object_iff.2 ⟨name, hs, rfl⟩
    exact ⟨_, hinsert, landingStep_object ms s ▸ child_insertChild hinsert⟩

/-- An insertion leaves the room that a node has. -/
theorem HasRoom.insertChild (h : c.HasRoom t) (hc' : c.insertChild s new = .ok c') :
    c'.HasRoom t := by
  rcases h with ⟨xs, i, rfl, rfl, hi⟩ | ⟨ms, name, rfl, ht⟩
  · obtain ⟨j, -, hj, rfl⟩ := insertChild_array_iff.1 hc'
    refine .inl ⟨_, i, rfl, rfl, ?_⟩
    rw [List.length_insertIdx_of_le_length hj]
    omega
  · obtain ⟨other, -, rfl⟩ := insertChild_object_iff.1 hc'
    exact .inr ⟨_, name, rfl, ht⟩

/-- An insertion leaves a child at every step that led to one. -/
theorem exists_child_insertChild (hx : c.child t = .ok x) (hc' : c.insertChild s new = .ok c') :
    ∃ y, c'.child t = .ok y := by
  rcases child_eq_ok_cases hx with ⟨xs, i, rfl, rfl, hi⟩ | ⟨ms, name, rfl, ht, hget⟩
  · obtain ⟨j, -, hj, rfl⟩ := insertChild_array_iff.1 hc'
    have hlt : i < (xs.insertIdx j new).length := by
      rw [List.length_insertIdx_of_le_length hj]
      exact Nat.lt_succ_of_lt (List.getElem?_eq_some_iff.1 hi).1
    exact ⟨_, child_index_iff.2 (List.getElem?_eq_getElem hlt)⟩
  · obtain ⟨other, -, rfl⟩ := insertChild_object_iff.1 hc'
    by_cases hname : other = name
    · exact ⟨new, (child_object_iff ht).2 (by rw [Members.get?_insert, if_pos hname])⟩
    · exact ⟨x, (child_object_iff ht).2 (by rw [Members.get?_insert, if_neg hname, hget])⟩

/-- Where a child was there is room after a child has been taken out. -/
theorem hasRoom_dropChild (hx : c.child t = .ok x) (s : Segment) : (c.dropChild s).HasRoom t := by
  rcases child_eq_ok_cases hx with ⟨xs, i, rfl, rfl, hi⟩ | ⟨ms, name, rfl, ht, hget⟩
  · have hlt := (List.getElem?_eq_some_iff.1 hi).1
    cases s with
    | index j =>
        refine .inl ⟨_, i, rfl, rfl, ?_⟩
        rw [List.length_eraseIdx]
        split <;> omega
    | _ => exact .inl ⟨xs, i, rfl, rfl, Nat.le_of_lt hlt⟩
  · cases hs : s.memberName? with
    | none => exact .inr ⟨ms, name, by simp [dropChild, hs], ht⟩
    | some other => exact .inr ⟨Members.erase ms other, name, by simp [dropChild, hs], ht⟩

/-- Under another name an object is as before an insertion. -/
theorem child_insertChild_of_ne (hc' : (object ms).insertChild s new = .ok c')
    (hne : s.memberName? ≠ t.memberName?) : c'.child t = (object ms).child t := by
  obtain ⟨name, hs, rfl⟩ := insertChild_object_iff.1 hc'
  simp only [child, childOfMembers]
  cases ht : t.memberName? with
  | none => rfl
  | some other =>
      have hname : name ≠ other := fun e => hne (by rw [hs, ht, e])
      simp only [Members.get?_insert, if_neg hname]

/-! ## At another place -/

variable {P Q : Value → Prop}

/-- Where a node is overwritten, another of its depth is the same and overwritten, too, or as it
was. -/
theorem exists_node_of_overwrite (hc : d.get a = .ok c) (hw : d.overwrite a.segments c' = .ok d')
    (hsize : a.size = b.size) (hb : ∃ e, d.get b = .ok e ∧ Q e)
    (hsame : a.same b = true → Q c → P c') (hbeside : ∀ e, a.same b = false → Q e → P e) :
    ∃ e, d'.get b = .ok e ∧ P e := by
  obtain ⟨e, he, hQ⟩ := hb
  cases h : a.same b with
  | true =>
      have hnames := Path.same_iff.1 h
      have he' := get_eq_ok_iff.1 he
      obtain rfl := eq_of_follow_of_names (get_eq_ok_iff.1 hc) hnames he'
      refine ⟨c', get_eq_ok_iff.2 ?_, hsame h hQ⟩
      rw [follow_overwrite_congr hw hnames, he']
      rfl
  | false =>
      refine ⟨e, ?_, hbeside e h hQ⟩
      rw [get_overwrite_of_apart hw (Path.apart_of_size_eq hsize h), he]

/-- What insertions into a node keep of it, an insertion keeps at every node of its depth. -/
theorem exists_node_of_add (hadd : d.add (a.push s) new = .ok d') (hsize : a.size = b.size)
    (hb : ∃ e, d.get b = .ok e ∧ Q e)
    (hsame : ∀ c c', d.get a = .ok c → a.same b = true → c.insertChild s new = .ok c' → Q c → P c')
    (hbeside : ∀ e, a.same b = false → Q e → P e) : ∃ e, d'.get b = .ok e ∧ P e := by
  obtain ⟨c, hc⟩ := exists_parent_of_add hadd
  rw [Path.parent_push] at hc
  obtain ⟨c', hc', hw⟩ := (add_push_iff hc).1 hadd
  exact exists_node_of_overwrite hc hw hsize hb (fun h => hsame c c' hc h hc') hbeside

/-- What removals from a node keep of it, a removal keeps at every node of its depth. -/
theorem exists_node_of_remove (hremove : d.remove (a.push s) = .ok d') (hsize : a.size = b.size)
    (hb : ∃ e, d.get b = .ok e ∧ Q e)
    (hsame : ∀ c x, d.get a = .ok c → a.same b = true → c.child s = .ok x → Q c →
      P (c.dropChild s))
    (hbeside : ∀ e, a.same b = false → Q e → P e) : ∃ e, d'.get b = .ok e ∧ P e := by
  obtain ⟨-, y, hy⟩ := exists_remove_iff.1 ⟨d', hremove⟩
  obtain ⟨c, hc⟩ := exists_parent_of_get hy
  rw [Path.parent_push] at hc
  obtain ⟨⟨x, hx⟩, hw⟩ := (remove_push_iff hc).1 hremove
  exact exists_node_of_overwrite hc hw hsize hb (fun h => hsame c x hc h hx) hbeside

section OneDepth

variable (hp : p.size = n + 1) (hq : q.size = n + 1) (hb : b.size = n)

/-! ## Room at a place -/

/-- A value can be inserted at a place and stands there then. -/
def HasRoomAt (d : Value) (q : Path) : Prop :=
  ∃ b t c, q = b.push t ∧ d.get b = .ok c ∧ c.HasRoom t

theorem HasRoomAt.exists_add (h : d.HasRoomAt q) (new : Value) :
    ∃ d', d.add q new = .ok d' ∧ d'.get q = .ok new := by
  obtain ⟨b, t, c, rfl, hc, hroom⟩ := h
  obtain ⟨c', hc', hchild⟩ := hroom.exists_insertChild new
  obtain ⟨d', hd'⟩ := exists_overwrite_of_get hc c'
  exact ⟨d', (add_push_iff hc).2 ⟨c', hc', hd'⟩, (get_push_iff (get_of_overwrite hd')).2 hchild⟩

include hp hq in
/-- An insertion leaves the room at all places of its depth. -/
theorem HasRoomAt.add (h : d.HasRoomAt q) (hadd : d.add p new = .ok d') : d'.HasRoomAt q := by
  obtain ⟨a, s, rfl, ha⟩ := Path.exists_push_of_size hp
  obtain ⟨b, t, c, rfl, hc, hroom⟩ := h
  obtain ⟨e, he, hroom'⟩ := exists_node_of_add (Q := (HasRoom · t)) hadd
    (by simpa [ha] using hq.symm) ⟨c, hc, hroom⟩ (fun _ _ _ _ hc' h => h.insertChild hc')
    fun _ _ h => h
  exact ⟨b, t, e, rfl, he, hroom'⟩

include hp hq in
/-- An insertion leaves values at all places of its depth. -/
theorem exists_get_of_add (hadd : d.add p new = .ok d') (hx : d.get q = .ok x) :
    ∃ y, d'.get q = .ok y := by
  obtain ⟨a, s, rfl, ha⟩ := Path.exists_push_of_size hp
  obtain ⟨b, t, rfl, hb⟩ := Path.exists_push_of_size hq
  obtain ⟨c, hc⟩ := exists_parent_of_get hx
  rw [Path.parent_push] at hc
  obtain ⟨e, he, y, hy⟩ := exists_node_of_add (Q := fun c => ∃ y, c.child t = .ok y) hadd
    (ha.trans hb.symm) ⟨c, hc, x, (get_push_iff hc).1 hx⟩
    (fun _ _ _ _ hc' hy => hy.elim fun _ hy => exists_child_insertChild hy hc') fun _ _ h => h
  exact ⟨y, (get_push_iff he).2 hy⟩

include hp hq in
/-- A removal leaves room where there was a value. -/
theorem hasRoomAt_of_remove (hremove : d.remove p = .ok d') (hx : d.get q = .ok x) :
    d'.HasRoomAt q := by
  obtain ⟨a, s, rfl, ha⟩ := Path.exists_push_of_size hp
  obtain ⟨b, t, rfl, hb⟩ := Path.exists_push_of_size hq
  obtain ⟨c, hc⟩ := exists_parent_of_get hx
  rw [Path.parent_push] at hc
  obtain ⟨e, he, hroom⟩ := exists_node_of_remove (Q := fun c => c.child t = .ok x)
    (P := (HasRoom · t)) hremove (ha.trans hb.symm) ⟨c, hc, (get_push_iff hc).1 hx⟩
    (fun _ _ _ _ _ h => hasRoom_dropChild h s) fun _ _ h => hasRoom_of_child h
  exact ⟨b, t, e, rfl, he, hroom⟩

/-! ## Sizes of arrays -/

/-- A value is an array with a number of elements. -/
def HasLength (c : Value) (size : Nat) : Prop := ∃ xs, c = .array xs ∧ xs.length = size

include hp hb in
/-- An array grows by one if the insertion is one into it. -/
theorem hasLength_of_add (hadd : d.add p new = .ok d')
    (h : ∃ e, d.get b = .ok e ∧ e.HasLength size) :
    ∃ e, d'.get b = .ok e ∧ e.HasLength (size + if p.parent.same b then 1 else 0) := by
  obtain ⟨a, s, rfl, ha⟩ := Path.exists_push_of_size hp
  rw [Path.parent_push]
  refine exists_node_of_add hadd (ha.trans hb.symm) h (fun c c' _ hsame hc' hn => ?_)
    fun e hbeside hn => ?_
  · obtain ⟨xs, rfl, rfl⟩ := hn
    obtain ⟨i, -, hi, rfl⟩ := insertChild_array_iff.1 hc'
    rw [if_pos hsame]
    exact ⟨_, rfl, List.length_insertIdx_of_le_length hi new⟩
  · rw [hbeside]
    exact hn

include hp hb in
/-- An array shrinks by one if the removal is one from it. -/
theorem hasLength_of_remove (hremove : d.remove p = .ok d')
    (h : ∃ e, d.get b = .ok e ∧ e.HasLength size) :
    ∃ e, d'.get b = .ok e ∧
      ∃ left, e.HasLength left ∧ size = left + if p.parent.same b then 1 else 0 := by
  obtain ⟨a, s, rfl, ha⟩ := Path.exists_push_of_size hp
  rw [Path.parent_push]
  refine exists_node_of_remove hremove (ha.trans hb.symm) h (fun c x _ hsame hx hn => ?_)
    fun e hbeside hn => ?_
  · obtain ⟨xs, rfl, rfl⟩ := hn
    rcases child_eq_ok_cases hx with ⟨_, i, e, rfl, hi⟩ | ⟨_, _, e, -⟩
    · cases e
      have hlt := (List.getElem?_eq_some_iff.1 hi).1
      rw [if_pos hsame]
      refine ⟨_, ⟨_, rfl, rfl⟩, ?_⟩
      rw [List.length_eraseIdx_of_lt hlt]
      omega
    · cases e
  · rw [hbeside]
    exact ⟨size, hn, rfl⟩

/-! ## Members of objects -/

include hp hb in
/-- An insertion leaves the objects of the depth of its parent. -/
theorem exists_object_of_add (hadd : d.add p new = .ok d')
    (h : ∃ ms, d.get b = .ok (.object ms)) : ∃ ms, d'.get b = .ok (.object ms) := by
  obtain ⟨a, s, rfl, ha⟩ := Path.exists_push_of_size hp
  obtain ⟨ms, hms⟩ := h
  have hkept : ∀ c c', c.insertChild s new = .ok c' → (∃ ns, c = object ns) →
      ∃ ns, c' = object ns := by
    rintro c c' hc' ⟨ns, rfl⟩
    obtain ⟨name, -, rfl⟩ := insertChild_object_iff.1 hc'
    exact ⟨_, rfl⟩
  obtain ⟨_, he, ns, rfl⟩ := exists_node_of_add hadd (ha.trans hb.symm) ⟨_, hms, ms, rfl⟩
    (fun c c' _ _ => hkept c c') fun _ _ h => h
  exact ⟨ns, he⟩

include hp hb in
/-- A removal leaves the objects of the depth of its parent. -/
theorem exists_object_of_remove (hremove : d.remove p = .ok d')
    (h : ∃ ms, d.get b = .ok (.object ms)) : ∃ ms, d'.get b = .ok (.object ms) := by
  obtain ⟨a, s, rfl, ha⟩ := Path.exists_push_of_size hp
  obtain ⟨ms, hms⟩ := h
  have hkept : ∀ c, (∃ ns, c = object ns) → ∃ ns, c.dropChild s = object ns := by
    rintro c ⟨ns, rfl⟩
    cases hs : s.memberName? <;> simp [dropChild, hs]
  obtain ⟨_, he, ns, rfl⟩ := exists_node_of_remove hremove (ha.trans hb.symm) ⟨_, hms, ms, rfl⟩
    (fun c _ _ _ _ => hkept c) fun _ _ h => h
  exact ⟨ns, he⟩

section Member

variable (hms : d.get p.parent = .ok (.object ms))
include hp hms

theorem get_of_add_member (hadd : d.add p new = .ok d') : d'.get p = .ok new := by
  obtain ⟨a, s, rfl, -⟩ := Path.exists_push_of_size hp
  rw [Path.parent_push] at hms
  obtain ⟨c', hc', hw⟩ := (add_push_iff hms).1 hadd
  have hchild := child_insertChild hc'
  rw [landingStep_object] at hchild
  exact (get_push_iff (get_of_overwrite hw)).2 hchild

include hq in
/-- The insertion of a member leaves what is read apart from it. -/
theorem get_add_of_apart (hadd : d.add p new = .ok d') (hpq : p.Apart q) (hx : d.get q = .ok x) :
    d'.get q = .ok x := by
  obtain ⟨a, s, rfl, ha⟩ := Path.exists_push_of_size hp
  obtain ⟨b, t, rfl, hb⟩ := Path.exists_push_of_size hq
  obtain ⟨c, hc⟩ := exists_parent_of_get hx
  rw [Path.parent_push] at hc hms
  obtain ⟨e, he, hx'⟩ := exists_node_of_add (Q := fun c => c.child t = .ok x) hadd
    (ha.trans hb.symm) ⟨c, hc, (get_push_iff hc).1 hx⟩
    (fun c c' hc hsame hc' h => by
      obtain rfl : object ms = c := Except.ok.inj (hms.symm.trans hc)
      rw [child_insertChild_of_ne hc' (Path.memberName?_ne_of_apart_push hsame hpq), h])
    fun _ _ h => h
  exact (get_push_iff he).2 hx'

/-- The removal of a member leaves what is read apart from it. -/
theorem get_remove_of_apart (hd : d.WellFormed) (hremove : d.remove p = .ok d')
    (hpq : p.Apart q) : d'.get q = d.get q := by
  obtain ⟨-, y, hy⟩ := exists_remove_iff.1 ⟨d', hremove⟩
  obtain ⟨steps, name, ns, w, hnames, hfollow, hw, hwrite⟩ :=
    (isMember_of_get (Path.isRoot_of_size hp) hy hms).exists_remove
  obtain rfl : d' = w := Except.ok.inj (hremove.symm.trans hw)
  have hns := (wellFormed_object.1 (hd.follow hfollow)).1
  exact (erased_of_overwrite hwrite hfollow hns hnames).get_of_apart hd (hd.remove hremove)
    (List.forall_mem_singleton.2 hpq)

end Member

end OneDepth

end Value

end TreePatch
