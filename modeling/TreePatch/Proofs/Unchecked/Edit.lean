import TreePatch.Proofs.Value.LastStep

set_option autoImplicit false

/-!
# Edits by accessors that trust their callers

An accessor that trusts its caller does not look whether what it is asked for is there. Inside its
domain it answers, and outside of it anything may happen. Here such an accessor answers `none`
outside its domain, and what is built from it then has no answer either. So an edit that is written
with these accessors and always has an answer never uses one of them where it must not.

The edits of this module check a path first and go along it afterwards. A removal even goes twice:
once to see that its target is there, and a second time to the parent, which it then takes for an
array or an object that has the target.

* `walk_eq`: the steps that are taken are steps of the path.
* `exists_removable`: the parent of a target is found by the second walk, and the last step can be
  taken out of it.
* `add_eq`, `replace_eq`, `remove_eq`: these edits always have an answer, that of `Value.add`,
  `Value.replace` and `Value.remove`.
-/

namespace TreePatch.Unchecked

/-! ## Accessors -/

/-- The position that a segment is. -/
def position : Segment → Option Nat
  | .index n => some n
  | _ => none

/-- Insert an element at a position of the array, or behind its last one. -/
def insertAt (xs : List Value) (i : Nat) (new : Value) : Option (List Value) :=
  if i ≤ xs.length then some (xs.insertIdx i new) else none

/-- Take out the element at a position of the array. -/
def eraseAt (xs : List Value) (i : Nat) : Option (List Value) :=
  if i < xs.length then some (xs.eraseIdx i) else none

/-- Overwrite the node at the end of some steps that have led to one. -/
def write (d : Value) (steps : List Segment) (new : Value) : Option Value :=
  (d.overwrite steps new).toOption

/-! ## Walks -/

/-- The child that a segment leads to. On an object every segment with a name is one, and an element
is read once its position is known to be below the size. -/
def step (v : Value) (s : Segment) : Option (Except Misstep Value) :=
  match v.members?, s.memberName? with
  | some ms, some name =>
      some (match ms.get? name with
        | none => .error (.noMember name)
        | some c => .ok c)
  | _, _ =>
      match s with
      | .key name => some (.error (.notAnObject name v.kind))
      | .index n =>
          match v.elements? with
          | none => some (.error (.notAnArray n v.kind))
          | some xs =>
              if xs.length ≤ n then some (.error (.pastTheEnd n xs.length))
              else xs[n]?.map .ok
      | .append =>
          if v.elements?.isNone then some (.error (.noEnd v.kind)) else some (.error .atTheEnd)
      | .wildcard => some (.error .wildcard)

/-- Take the first steps of a path, so many as are asked for. -/
def walk (d : Value) (p : Path) : Nat → Option (Except Misstep Value)
  | 0 => some (.ok d)
  | n + 1 =>
      (walk d p n).bind fun
        | .error m => some (.error m)
        | .ok v => p.segments[n]?.bind (step v)

/-! ## Edits -/

/-- Insert a child where a segment says. -/
def insertChild (v : Value) (s : Segment) (new : Value) : Option (Except Cause Value) :=
  match v.elements?, v.members? with
  | some xs, _ =>
      match s with
      | .append => some (.ok (.array (xs ++ [new])))
      | .index n =>
          if xs.length < n then some (.error (.outOfBounds n xs.length))
          else (insertAt xs n new).map fun ys => .ok (.array ys)
      | .key name => some (.error (.notAnIndex name))
      | .wildcard => some (.error (.misstep .wildcard))
  | none, some ms =>
      match s.memberName? with
      | none => some (.error (.misstep .wildcard))
      | some name => some (.ok (.object (ms.insert name new)))
  | none, none => some (.error (.notAContainer v.kind))

/-- Take out the child that a segment leads to. The segment has to be a position of an array or a
name on an object, since nothing else has a child. -/
def eraseChild (v : Value) (s : Segment) : Option Value :=
  match v.elements?, v.members? with
  | some xs, _ => (position s).bind fun n => (eraseAt xs n).map .array
  | none, some ms => s.memberName?.map fun name => .object (ms.erase name)
  | none, none => none

/-- Insert a value at a path. -/
def add (d : Value) (p : Path) (new : Value) : Option (Except Fault Value) :=
  if !p.isConcrete then some (.error (p.fault (.misstep .wildcard)))
  else if p.isRoot then some (.ok new)
  else
    (walk d p (p.size - 1)).bind fun
      | .error m => some (.error (p.fault (.misstep m)))
      | .ok parent =>
          p.last?.bind fun last => (insertChild parent last new).bind fun
            | .error cause => some (.error (p.fault cause))
            | .ok parent' => (write d p.parent.segments parent').map .ok

/-- Overwrite the value at a path. -/
def replace (d : Value) (p : Path) (new : Value) : Option (Except Fault Value) :=
  if !p.isConcrete then some (.error (p.fault (.misstep .wildcard)))
  else
    (walk d p p.size).bind fun
      | .error m => some (.error (p.fault (.nothing .replace m)))
      | .ok _ => (write d p.segments new).map .ok

/-- Take out the value at a path: see that it is there, go to its parent, and take out of that what
the last step stands for. -/
def remove (d : Value) (p : Path) : Option (Except Fault Value) :=
  if !p.isConcrete then some (.error (p.fault (.misstep .wildcard)))
  else if p.isRoot then some (.error { cause := .rootRemoval })
  else
    (walk d p p.size).bind fun
      | .error m => some (.error (p.fault (.nothing .remove m)))
      | .ok _ =>
          (walk d p (p.size - 1)).bind fun
            | .error m => some (.error (p.fault (.misstep m)))
            | .ok parent =>
                p.last?.bind fun last => (eraseChild parent last).bind fun parent' =>
                  (write d p.parent.segments parent').map .ok

/-! ## The accessors are used inside their domains -/

variable {d v c x new : Value} {a p : Path} {s : Segment} {steps : List Segment}

theorem step_eq (v : Value) (s : Segment) : step v s = some (v.child s) := by
  cases v with
  | object ms => cases s <;> rfl
  | array xs =>
      cases s with
      | index n =>
          -- The size is compared first, so the element that is read is there.
          by_cases hn : n < xs.length <;>
            simp [step, Value.members?, Value.elements?, Value.child, Value.childOfElements, hn]
      | _ => rfl
  | _ => cases s <;> rfl

/-- A walk of no more steps than the path has takes these steps. -/
theorem walk_eq (d : Value) {n : Nat} (h : n ≤ p.size) :
    walk d p n = some (d.follow (p.segments.take n)) := by
  induction n with
  | zero => rfl
  | succ n ih =>
      have hn : n < p.segments.length := h
      have htake : p.segments.take (n + 1) = p.segments.take n ++ [p.segments[n]] :=
        List.take_succ_eq_append_getElem hn
      rw [walk, ih (Nat.le_of_lt h), htake, Value.follow_append]
      cases d.follow (p.segments.take n) with
      | error m => rfl
      | ok v =>
          rw [List.getElem?_eq_getElem hn]
          exact (step_eq v _).trans (congrArg some (Value.follow_singleton v _).symm)

theorem walk_size (d : Value) (p : Path) : walk d p p.size = some (d.follow p.segments) := by
  rw [walk_eq d (Nat.le_refl _), Path.size, List.take_length]

theorem walk_parent (d : Value) (p : Path) :
    walk d p (p.size - 1) = some (d.follow p.parent.segments) := by
  rw [walk_eq d (Nat.sub_le _ _), Path.size, ← List.dropLast_eq_take]
  rfl

theorem insertChild_eq (v : Value) (s : Segment) (new : Value) :
    insertChild v s new = some (v.insertChild s new) := by
  cases v with
  | array xs =>
      cases s with
      | index n =>
          by_cases hn : n ≤ xs.length
          · simp [insertChild, Value.elements?, insertAt, Value.insertChild, hn]
          · have hlt : xs.length < n := Nat.lt_of_not_le hn
            simp [insertChild, Value.elements?, Value.insertChild, hn, hlt]
      | _ => rfl
  | object ms => cases s <;> rfl
  | _ => rfl

/-- A child is taken out exactly by a position of an array or a name on an object. -/
theorem eraseChild_eq_some_iff {w : Value} : eraseChild v s = some w ↔
    (∃ xs n, v = .array xs ∧ s = .index n ∧ n < xs.length ∧ w = .array (xs.eraseIdx n)) ∨
    ∃ ms name, v = .object ms ∧ s.memberName? = some name ∧
      w = .object (Members.erase ms name) := by
  cases v with
  | array xs =>
      cases s with
      | index n =>
          by_cases hn : n < xs.length <;>
            simp [eraseChild, Value.elements?, position, eraseAt, hn, eq_comm]
      | _ => simp [eraseChild, Value.elements?, position]
  | object ms =>
      cases hs : s.memberName? <;>
        simp [eraseChild, Value.elements?, Value.members?, hs, eq_comm]
  | _ => simp [eraseChild, Value.elements?, Value.members?]

/-- A child that is there can be taken out. -/
theorem eraseChild_of_child (h : v.child s = .ok c) : eraseChild v s = some (v.dropChild s) := by
  rw [eraseChild_eq_some_iff]
  rcases Value.child_eq_ok_cases h with ⟨xs, n, rfl, rfl, hn⟩ | ⟨ms, name, rfl, hs, -⟩
  · have hlt : n < xs.length := (List.getElem?_eq_some_iff.1 hn).1
    exact .inl ⟨xs, n, rfl, rfl, hlt, rfl⟩
  · exact .inr ⟨ms, name, rfl, hs, by simp [Value.dropChild, hs]⟩

/-- A node that a walk has led to can be overwritten. -/
theorem exists_write (h : d.follow steps = .ok x) (new : Value) :
    ∃ d', d.overwrite steps new = .ok d' ∧ write d steps new = some d' := by
  obtain ⟨d', hd'⟩ := Value.exists_overwrite_iff.2 ⟨x, h⟩
  exact ⟨d', hd', by rw [write, hd']; rfl⟩

/-- Where a path below the root leads to a value, the second walk leads to a parent of which the
last step can be taken out: an array that has the position, or an object. -/
theorem exists_removable (hroot : p.isRoot = false) (hx : d.get p = .ok x) :
    ∃ parent last, walk d p (p.size - 1) = some (.ok parent) ∧ p.last? = some last ∧
      ((∃ xs n, parent = .array xs ∧ last = .index n ∧ n < xs.length) ∨
        ∃ ms name, parent = .object ms ∧ last.memberName? = some name) := by
  obtain ⟨a, s, rfl⟩ := Path.exists_push hroot
  obtain ⟨parent, hparent⟩ := Value.exists_parent_of_get hx
  have hwalk := walk_parent d (a.push s)
  rw [Value.get_eq_ok_iff.1 hparent] at hwalk
  rw [Path.parent_push] at hparent
  refine ⟨parent, s, hwalk, Path.last?_push a s, ?_⟩
  have herase := eraseChild_of_child ((Value.get_push_iff hparent).1 hx)
  rcases eraseChild_eq_some_iff.1 herase with ⟨xs, n, hxs, hn, hlt, -⟩ | ⟨ms, name, hms, hname, -⟩
  · exact .inl ⟨xs, n, hxs, hn, hlt⟩
  · exact .inr ⟨ms, name, hms, hname⟩

/-! ## The edits have an answer -/

theorem add_eq (d : Value) (p : Path) (new : Value) : add d p new = some (d.add p new) := by
  rw [add]
  cases hconcrete : p.isConcrete with
  | false => simp [Value.add, hconcrete]
  | true =>
      cases hroot : p.isRoot with
      | true => simp [Value.add, hconcrete, List.isEmpty_iff.1 hroot]
      | false =>
          obtain ⟨a, s, rfl⟩ := Path.exists_push hroot
          rw [walk_parent, Path.parent_push, Path.last?_push]
          cases hparent : d.follow a.segments with
          | error m =>
              have hadd : d.add (a.push s) new = .error ((a.push s).fault (.misstep m)) :=
                (Value.add_push_eq_error_iff hconcrete).2 (.inl ⟨m, hparent, rfl⟩)
              simp [hadd]
          | ok parent =>
              cases hinsert : parent.insertChild s new with
              | error cause =>
                  have hadd := (Value.add_push_eq_error_iff hconcrete).2
                    (.inr ⟨parent, cause, hparent, hinsert, rfl⟩)
                  simp [insertChild_eq, hinsert, hadd]
              | ok parent' =>
                  obtain ⟨d', hover, hwrite⟩ := exists_write hparent parent'
                  have hadd := (Value.add_push_iff (Value.get_eq_ok_iff.2 hparent)).2
                    ⟨parent', hinsert, hover⟩
                  simp [insertChild_eq, hinsert, hwrite, hadd]

theorem replace_eq (d : Value) (p : Path) (new : Value) :
    replace d p new = some (d.replace p new) := by
  rw [replace, Value.replace, walk_size]
  cases p.isConcrete with
  | false => rfl
  | true =>
      cases hx : d.follow p.segments with
      | error m =>
          rw [Value.overwrite_eq_error_iff.2 hx]
          rfl
      | ok x =>
          obtain ⟨d', hover, hwrite⟩ := exists_write hx new
          simp only [hover, hwrite]
          rfl

theorem remove_eq (d : Value) (p : Path) : remove d p = some (d.remove p) := by
  rw [remove]
  cases hconcrete : p.isConcrete with
  | false => simp [Value.remove, hconcrete]
  | true =>
      cases hroot : p.isRoot with
      | true => simp [Value.remove_root hroot]
      | false =>
          rw [walk_size]
          cases hx : d.follow p.segments with
          | error m => simp [Value.remove_of_follow_error hconcrete hroot hx]
          | ok x =>
              have hget : d.get p = .ok x := Value.get_eq_ok_iff.2 hx
              obtain ⟨a, s, rfl⟩ := Path.exists_push hroot
              obtain ⟨parent, hparent⟩ := Value.exists_parent_of_get hget
              rw [Path.parent_push] at hparent
              have hchild := (Value.get_push_iff hparent).1 hget
              obtain ⟨d', hover, hwrite⟩ :=
                exists_write (Value.get_eq_ok_iff.1 hparent) (parent.dropChild s)
              have hremove := (Value.remove_push_iff hparent).2 ⟨⟨x, hchild⟩, hover⟩
              simp [walk_parent, Value.get_eq_ok_iff.1 hparent, eraseChild_of_child hchild, hwrite,
                hremove]

end TreePatch.Unchecked
