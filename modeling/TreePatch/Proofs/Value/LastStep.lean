import TreePatch.Proofs.Value.Domain
import TreePatch.Proofs.Value.Entry

set_option autoImplicit false

/-!
# The last step of an edit

An edit at a path changes one node, the one above its place, and writes it back. So where the
node above is known, an edit is what `insertChild` or `dropChild` makes of it
(`add_push_iff`, `remove_push_iff`), and what is read through the node afterwards is read in
the new one (`get_push_append`). A removal of what is not there reports why
(`remove_push_of_error`).

An insertion at the end of an array is one at a position, the size of the array.
`landingStep` is the step to the value once it is inserted, and `add_array_iff` treats both
spellings alike.
-/

namespace TreePatch.Value

variable {d d' c c' x new : Value} {a p : Path} {s : Segment} {xs : List Value}
variable {ms : Members Value} {name : Text} {i : Nat}

/-! ## Reading through a node -/

theorem follow_push_append (h : d.get a = .ok c) (s : Segment) (r : Path) :
    d.follow (a.push s ++ r).segments = c.follow (s :: r.segments) := by
  rw [Path.segments_append, Path.segments_push, List.append_assoc, follow_append,
    get_eq_ok_iff.1 h]
  rfl

/-- What is read through a node is read from it. -/
theorem get_push_append (h : d.get a = .ok c) (s : Segment) (r : Path) :
    d.get (a.push s ++ r) =
      (c.follow (s :: r.segments)).mapError fun m => (a.push s ++ r).fault (.misstep m) := by
  rw [get, follow_push_append h]

theorem follow_push (h : d.get a = .ok c) (s : Segment) :
    d.follow (a.push s).segments = c.child s := by
  rw [Path.segments_push, follow_append, get_eq_ok_iff.1 h, ← follow_singleton c s]
  rfl

/-- What stands below a node is its child. -/
theorem get_push_iff (h : d.get a = .ok c) : d.get (a.push s) = .ok x ↔ c.child s = .ok x := by
  rw [get_eq_ok_iff, follow_push h]

/-- What is read below the root stands in an array or an object. -/
theorem exists_container_of_get (hroot : p.isRoot = false) (hx : d.get p = .ok x) :
    (∃ xs, d.get p.parent = .ok (.array xs)) ∨ ∃ ms, d.get p.parent = .ok (.object ms) := by
  obtain ⟨a, s, rfl⟩ := Path.exists_push hroot
  obtain ⟨c, hc⟩ := exists_parent_of_get hx
  rw [Path.parent_push] at hc ⊢
  rcases child_eq_ok_cases ((get_push_iff hc).1 hx) with ⟨xs, _, rfl, -⟩ | ⟨ms, _, rfl, -⟩
  · exact .inl ⟨xs, hc⟩
  · exact .inr ⟨ms, hc⟩

/-- A path below a node has no wildcard if its last step is none. -/
theorem isConcrete_push (h : d.get a = .ok c) (hs : s ≠ .wildcard) :
    (a.push s).isConcrete = true := by
  have hstep : s.isWildcard = false := by
    rw [← Bool.not_eq_true, Segment.isWildcard_iff]
    exact hs
  rw [Path.isConcrete_push, isConcrete_of_get h, hstep]
  rfl

/-! ## Editing at a node -/

/-- An insertion below a node is one into it. -/
theorem add_push_iff (h : d.get a = .ok c) : d.add (a.push s) new = .ok d' ↔
    ∃ c', c.insertChild s new = .ok c' ∧ d.overwrite a.segments c' = .ok d' := by
  have hfollow := get_eq_ok_iff.1 h
  by_cases hs : s = .wildcard
  · -- Neither side succeeds at a wildcard.
    have hrefused : (a.push s).isConcrete = false := by simp [hs, Segment.isWildcard]
    rw [add, hrefused]
    constructor
    · intro hadd
      cases hadd
    · rintro ⟨c', hc', -⟩
      rcases insertChild_eq_ok hc' with ⟨_, _, e, _⟩ | ⟨_, _, _, e, _⟩ | ⟨_, _, _, e, _⟩ <;>
        simp [hs, Segment.memberName?] at e
  · rw [add_eq_editAt, editAt_eq_ok_iff (isConcrete_push h hs) (Path.segments_push a s), hfollow]
    simp [editParent]

/-- An insertion fails where there is no node above its place, or as the one into that node. -/
theorem add_push_eq_error_iff {f : Fault} (hconcrete : (a.push s).isConcrete = true) :
    d.add (a.push s) new = .error f ↔
      (∃ m, d.follow a.segments = .error m ∧ f = (a.push s).fault (.misstep m)) ∨
      ∃ c cause, d.follow a.segments = .ok c ∧ c.insertChild s new = .error cause ∧
        f = (a.push s).fault cause := by
  obtain ⟨t, rest, hsteps⟩ : ∃ t rest, a.segments ++ [s] = t :: rest :=
    List.exists_cons_of_ne_nil (by simp)
  have hdrop : (t :: rest).dropLast = a.segments := by rw [← hsteps, List.dropLast_concat]
  have hlast : (t :: rest).getLast (List.cons_ne_nil t rest) = s := by simp [← hsteps]
  rw [add, if_pos hconcrete, Path.segments_push, hsteps]
  simp only [Result.mapError_eq_error_iff, editParent_eq_error_iff, hdrop, hlast]
  constructor
  · intro h
    obtain ⟨cause, ⟨m, hm, rfl⟩ | ⟨c, hc, hcause⟩, rfl⟩ := h
    · exact .inl ⟨m, hm, rfl⟩
    · exact .inr ⟨c, cause, hc, hcause, rfl⟩
  · intro h
    rcases h with ⟨m, hm, rfl⟩ | ⟨c, cause, hc, hcause, rfl⟩
    · exact ⟨_, .inl ⟨m, hm, rfl⟩, rfl⟩
    · exact ⟨cause, .inr ⟨c, hc, hcause⟩, rfl⟩

/-- A removal below a node is one from it. -/
theorem remove_push_iff (h : d.get a = .ok c) : d.remove (a.push s) = .ok d' ↔
    (∃ x, c.child s = .ok x) ∧ d.overwrite a.segments (c.dropChild s) = .ok d' := by
  have hfollow := get_eq_ok_iff.1 h
  constructor
  · intro hremove
    obtain ⟨-, x, hx⟩ := exists_remove_iff.1 ⟨d', hremove⟩
    rw [remove_eq_editAt, editAt_eq_ok_iff (isConcrete_of_get hx) (Path.segments_push a s),
      hfollow] at hremove
    obtain ⟨_, c', he, hc', hw⟩ := hremove
    cases he
    obtain ⟨hchild, rfl⟩ := eraseChild_eq_ok_iff.1 hc'
    exact ⟨hchild, hw⟩
  · rintro ⟨⟨x, hx⟩, hw⟩
    have hget : d.get (a.push s) = .ok x := (get_push_iff h).2 hx
    rw [remove_eq_editAt, editAt_eq_ok_iff (isConcrete_of_get hget) (Path.segments_push a s)]
    exact ⟨c, _, hfollow, eraseChild_eq_ok_iff.2 ⟨⟨x, hx⟩, rfl⟩, hw⟩

/-- A removal where a node has no child reports why. -/
theorem remove_push_of_error {m : Misstep} (h : d.get a = .ok c) (hs : s ≠ .wildcard)
    (hm : c.child s = .error m) :
    d.remove (a.push s) = .error ((a.push s).fault (.nothing .remove m)) :=
  remove_of_follow_error (isConcrete_push h hs) (Path.isRoot_push a s)
    ((follow_push h s).trans hm)

/-- What was written at the end of some steps is what a path along them reads. -/
theorem get_of_overwrite (h : d.overwrite a.segments c = .ok d') : d'.get a = .ok c :=
  get_eq_ok_iff.2 (follow_overwrite h)

/-- A node that is read can be overwritten. -/
theorem exists_overwrite_of_get (h : d.get a = .ok c) (c' : Value) :
    ∃ d', d.overwrite a.segments c' = .ok d' :=
  exists_overwrite_iff.2 ⟨c, get_eq_ok_iff.1 h⟩

/-- An edit that overwrites a node under a condition succeeds exactly under this condition. -/
theorem exists_and_overwrite_iff {P : Prop} (h : d.get a = .ok c) (c' : Value) :
    (∃ d', P ∧ d.overwrite a.segments c' = .ok d') ↔ P := by
  obtain ⟨d', hd'⟩ := exists_overwrite_of_get h c'
  constructor
  · intro hex
    obtain ⟨_, hP, -⟩ := hex
    exact hP
  · intro hP
    exact ⟨d', hP, hd'⟩

/-! ## Where an inserted value comes to stand -/

/-- The step to a value that is inserted into a node at a step: the end of an array is a
position. -/
def landingStep (c : Value) (s : Segment) : Segment :=
  match c, s with
  | .array xs, .append => .index xs.length
  | _, s => s

/-- The path to a value that is inserted at a path. -/
def landing (d : Value) (p : Path) : Path :=
  match d.get p.parent, p.last? with
  | .ok c, some s => p.parent.push (c.landingStep s)
  | _, _ => p

theorem landing_push (h : d.get a = .ok c) (s : Segment) :
    d.landing (a.push s) = a.push (c.landingStep s) := by
  simp [landing, h]

theorem landingStep_object (ms : Members Value) (s : Segment) :
    (object ms).landingStep s = s := by
  cases s <;> rfl

/-- A value is inserted into an array at a position up to its size. -/
theorem insertChild_array_iff : (array xs).insertChild s new = .ok c' ↔
    ∃ i, (array xs).landingStep s = .index i ∧ i ≤ xs.length ∧
      c' = .array (xs.insertIdx i new) := by
  cases s with
  | append => simp [insertChild, landingStep, eq_comm]
  | index n =>
      by_cases hn : n ≤ xs.length <;> simp [insertChild, landingStep, hn, eq_comm]
  | _ => simp [insertChild, landingStep]

/-- A value is inserted into an object under every name. -/
theorem insertChild_object_iff : (object ms).insertChild s new = .ok c' ↔
    ∃ name, s.memberName? = some name ∧ c' = .object (Members.insert ms name new) := by
  cases hs : s.memberName? <;> simp [insertChild, hs, eq_comm]

theorem child_index_iff {n : Nat} : (array xs).child (.index n) = .ok x ↔ xs[n]? = some x := by
  simp only [child, childOfElements]
  cases xs[n]? <;> simp

theorem child_index_of_length_le (hi : xs.length ≤ i) :
    (array xs).child (.index i) = .error (.pastTheEnd i xs.length) := by
  rw [child, childOfElements, List.getElem?_eq_none hi]

/-! ## Editing an array -/

/-- A value is inserted into an array at the positions up to its size. -/
theorem add_array_iff (hget : d.get a = .ok (.array xs)) :
    d.add (a.push s) new = .ok d' ↔ ∃ i, (array xs).landingStep s = .index i ∧ i ≤ xs.length ∧
      d.overwrite a.segments (.array (xs.insertIdx i new)) = .ok d' := by
  rw [add_push_iff hget]
  constructor
  · intro h
    obtain ⟨c', hc', hw⟩ := h
    obtain ⟨i, hland, hi, rfl⟩ := insertChild_array_iff.1 hc'
    exact ⟨i, hland, hi, hw⟩
  · intro h
    obtain ⟨i, hland, hi, hw⟩ := h
    exact ⟨_, insertChild_array_iff.2 ⟨i, hland, hi, rfl⟩, hw⟩

/-- An element can be taken out of an array at the positions below its size. -/
theorem remove_array_iff (hget : d.get a = .ok (.array xs)) :
    d.remove (a.push (.index i)) = .ok d' ↔
      i < xs.length ∧ d.overwrite a.segments (.array (xs.eraseIdx i)) = .ok d' := by
  rw [remove_push_iff hget]
  refine and_congr ?_ Iff.rfl
  simp only [child_index_iff]
  by_cases hi : i < xs.length <;> simp [hi]

end TreePatch.Value
