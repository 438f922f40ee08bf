import TreePatch.Proofs.Value.Undo

set_option autoImplicit false

/-!
# What an insertion and a removal shift, and what they leave alone

An insertion into an array moves the elements from its position on by one and leaves all else
(`Inserted`). A removal is the mirror image: the document before it is the one after it with the
element inserted. In an object nothing is shifted. A member is written where it stands, or last
if it is new (`Members.Written`), and a removal takes one member out.

Either edit overwrites the container at one path, so beside this path everything is read as before
(`Overwritten`), and within the container it is enough to say how the new children lie to the old.
`shift_of_add_remove` has all of it.
-/

namespace TreePatch

/-! ## Members -/

/-- The members after an entry was written under a name. -/
inductive Members.Written {α : Type} (name : Text) (entry : α) : Members α → Members α → Prop where
  /-- A name that was there keeps its position. -/
  | inPlace (before after : Members α) (old : α) (first : name ∉ keys before) :
      Written name entry (before ++ (name, old) :: after) (before ++ (name, entry) :: after)
  /-- A new name comes last. -/
  | last (ms : Members α) (fresh : name ∉ keys ms) : Written name entry ms (ms ++ [(name, entry)])

theorem Members.written_insert {α : Type} (ms : Members α) (name : Text) (entry : α) :
    Written name entry ms (insert ms name entry) := by
  cases hget : get? ms name with
  | none =>
      have hfresh := get?_eq_none_iff.1 hget
      rw [insert_of_not_mem hfresh]
      exact .last ms hfresh
  | some old =>
      obtain ⟨before, after, rfl, hbefore⟩ := exists_split_of_get? hget
      rw [insert_split hbefore]
      exact .inPlace before after old hbefore

namespace Value

variable {d d' x new : Value} {a : Path} {s : Segment} {xs ys : List Value} {i j k : Nat}
variable {ms : Members Value} {name : Text}

/-! ## Arrays -/

/-- Behind steps to the same element two arrays are read alike. -/
theorem follow_index_congr (hx : xs[j]? = some x) (hy : ys[k]? = some x) (rest : List Segment) :
    (array xs).follow (.index j :: rest) = (array ys).follow (.index k :: rest) := by
  rw [follow_cons_of_child (child_index_iff.2 hx), follow_cons_of_child (child_index_iff.2 hy)]

/-- What a read answers, apart from the path that a fault cites. -/
theorem mapError_cause_get (d : Value) (p : Path) :
    (d.get p).mapError Fault.cause = (d.follow p.segments).mapError .misstep := by
  rw [get]
  cases d.follow p.segments <;> rfl

/-- One document is another with one more element at a position of the array at a path. -/
structure Inserted (d : Value) (a : Path) (size i : Nat) (new d' : Value) : Prop where
  /-- The path leads to an array that reaches up to the position. -/
  array : ∃ xs, d.get a = .ok (.array xs) ∧ xs.length = size ∧ i ≤ size
  /-- The array has one element more. -/
  grown : ∃ ys, d'.get a = .ok (.array ys) ∧ ys.length = size + 1
  /-- The new element stands at the position. -/
  here : d'.get (a.push (.index i)) = .ok new
  /-- Elements before the position are read as before. -/
  before : ∀ j < i, ∀ r, d'.get (a.push (.index j) ++ r) = d.get (a.push (.index j) ++ r)
  /-- The other elements are read one position further on, with the same values and, where
  nothing is found in them, for the same causes. -/
  behind : ∀ j, i ≤ j → j < size → ∀ r,
    (d'.get (a.push (.index (j + 1)) ++ r)).mapError Fault.cause =
      (d.get (a.push (.index j) ++ r)).mapError Fault.cause
  /-- Beside the array everything is read as before. -/
  beside : ∀ q : Path, q.startsWith a = false → a.startsWith q = false → d'.get q = d.get q

/-- Overwriting an array by itself with one more element inserts the element. -/
theorem Inserted.of_overwrite (hget : d.get a = .ok (.array xs)) (hi : i ≤ xs.length)
    (hw : d.overwrite a.segments (.array (xs.insertIdx i new)) = .ok d') :
    Inserted d a xs.length i new d' where
  array := ⟨xs, hget, rfl, hi⟩
  grown := ⟨_, get_of_overwrite hw, List.length_insertIdx_of_le_length hi new⟩
  here := by
    rw [get_push_iff (get_of_overwrite hw), child_index_iff, List.getElem?_insertIdx_self,
      if_pos hi]
  before := by
    intro j hj r
    have hx : xs[j]? = some xs[j] := List.getElem?_eq_getElem (Nat.lt_of_lt_of_le hj hi)
    have hx' : (xs.insertIdx i new)[j]? = some xs[j] := by
      rw [List.getElem?_insertIdx_of_lt hj, hx]
    rw [get_push_append hget, get_push_append (get_of_overwrite hw), follow_index_congr hx' hx]
  behind := by
    intro j hj hlt r
    have hx : xs[j]? = some xs[j] := List.getElem?_eq_getElem hlt
    have hx' : (xs.insertIdx i new)[j + 1]? = some xs[j] := by
      rw [List.getElem?_insertIdx_of_gt (Nat.lt_succ_of_le hj)]
      exact hx
    rw [mapError_cause_get, mapError_cause_get, follow_push_append hget,
      follow_push_append (get_of_overwrite hw), follow_index_congr hx' hx]
  beside := (Overwritten.of_overwrite hw).beside

/-- The document before a removal is the one after it with the element inserted. -/
theorem Inserted.of_remove (hget : d.get a = .ok (.array xs))
    (h : d.remove (a.push (.index i)) = .ok d') :
    ∃ x, Inserted d' a (xs.length - 1) i x d := by
  obtain ⟨hi, hw⟩ := (remove_array_iff hget).1 h
  have hlength := List.length_eraseIdx_of_lt hi
  have hback : d'.overwrite a.segments (.array ((xs.eraseIdx i).insertIdx i xs[i])) = .ok d := by
    rw [overwrite_overwrite hw, List.insertIdx_eraseIdx_getElem hi,
      overwrite_of_follow (get_eq_ok_iff.1 hget)]
  have hinserted := Inserted.of_overwrite (get_of_overwrite hw) (by omega) hback
  rw [hlength] at hinserted
  exact ⟨xs[i], hinserted⟩

/-! ## Objects -/

/-- A value is inserted into an object under every name. -/
theorem exists_add_object (hget : d.get a = .ok (.object ms)) (hs : s.memberName? = some name)
    (new : Value) : ∃ d' ns, d.add (a.push s) new = .ok d' ∧ d'.get a = .ok (.object ns) ∧
      Members.Written name new ms ns ∧ Overwritten d a (.object ns) d' := by
  obtain ⟨d', hw⟩ := exists_overwrite_of_get hget (.object (Members.insert ms name new))
  exact ⟨d', _, (add_push_iff hget).2 ⟨_, insertChild_object_iff.2 ⟨name, hs, rfl⟩, hw⟩,
    get_of_overwrite hw, Members.written_insert ms name new, .of_overwrite hw⟩

/-- A member that is taken out of an object is the first of its name. -/
theorem exists_split_of_remove (hget : d.get a = .ok (.object ms))
    (hs : s.memberName? = some name) (h : d.remove (a.push s) = .ok d') :
    ∃ before x after, ms = before ++ (name, x) :: after ∧ name ∉ Members.keys before ∧
      d'.get a = .ok (.object (before ++ after)) ∧
      Overwritten d a (.object (before ++ after)) d' := by
  obtain ⟨⟨x, hx⟩, hw⟩ := (remove_push_iff hget).1 h
  obtain ⟨before, after, rfl, hbefore⟩ :=
    Members.exists_split_of_get? ((child_object_iff hs).1 hx)
  simp only [dropChild, hs, Members.erase_split hbefore] at hw
  exact ⟨before, x, after, rfl, hbefore, get_of_overwrite hw, .of_overwrite hw⟩

/-! ## Insertions and removals in a document -/

/-- In an array an insertion succeeds at the positions up to the size, of which the last is also
spelled as the end, and shifts the elements from there on. A removal succeeds at the positions
below the size and does the reverse. In an object an insertion writes one member, in place or
last, and a removal takes one out. Either leaves everything beside the container. -/
theorem shift_of_add_remove (d : Value) (a : Path) :
    (∀ xs, d.get a = .ok (.array xs) →
      (∀ s i new, s = .index i ∨ s = .append ∧ i = xs.length →
        ((∃ d', d.add (a.push s) new = .ok d') ↔ i ≤ xs.length) ∧
        ∀ d', d.add (a.push s) new = .ok d' → Inserted d a xs.length i new d') ∧
      ∀ i, ((∃ d', d.remove (a.push (.index i)) = .ok d') ↔ i < xs.length) ∧
        ∀ d', d.remove (a.push (.index i)) = .ok d' →
          ∃ x, Inserted d' a (xs.length - 1) i x d) ∧
    ∀ ms, d.get a = .ok (.object ms) → ∀ s name, s.memberName? = some name →
      (∀ new, ∃ d' ns, d.add (a.push s) new = .ok d' ∧ d'.get a = .ok (.object ns) ∧
        Members.Written name new ms ns ∧ Overwritten d a (.object ns) d') ∧
      ((∃ d', d.remove (a.push s) = .ok d') ↔ name ∈ Members.keys ms) ∧
      ∀ d', d.remove (a.push s) = .ok d' → ∃ before x after, ms = before ++ (name, x) :: after ∧
        name ∉ Members.keys before ∧ d'.get a = .ok (.object (before ++ after)) ∧
        Overwritten d a (.object (before ++ after)) d' := by
  refine ⟨fun xs hget => ⟨fun s i new hs => ?_, fun i => ⟨?_, fun d' => Inserted.of_remove hget⟩⟩,
    fun ms hget s name hs => ⟨exists_add_object hget hs, ?_,
      fun d' => exists_split_of_remove hget hs⟩⟩
  · have hland : ∀ k, (array xs).landingStep s = .index k ↔ i = k := by
      intro k
      rcases hs with rfl | ⟨rfl, rfl⟩ <;> simp [landingStep]
    simp only [add_array_iff hget, hland, exists_eq_left']
    exact ⟨exists_and_overwrite_iff hget _, fun d' h => .of_overwrite hget h.1 h.2⟩
  · simp only [remove_array_iff hget]
    exact exists_and_overwrite_iff hget _
  · simp only [remove_push_iff hget, child_object_iff hs, ← Option.isSome_iff_exists,
      Members.isSome_get?_iff]
    exact exists_and_overwrite_iff hget _

/-- A text is inserted before an array, whose first element is then read one position further on,
and the array is taken out from the same position. The position 0 names a member of an object,
which is overwritten and taken out. -/
theorem shift_of_add_remove_nested :
    let xs : List Value := [.array [.null], .bool true]
    let ms : Members Value := [(utf8 "k", .array []), (utf8 "0", .null)]
    let d : Value := .object [(utf8 "l", .array xs), (utf8 "m", .object ms)]
    let l : Path := .ofSegments [.key (utf8 "l")]
    let m : Path := .ofSegments [.key (utf8 "m")]
    d.get l = .ok (.array xs) ∧ d.get m = .ok (.object ms) ∧
      (∃ d', d.add (l.push (.index 0)) (.string []) = .ok d' ∧
        d'.get (l.push (.index 1) ++ .ofSegments [.index 0]) = .ok .null ∧ d'.get m = d.get m) ∧
      (∃ d' x, d.remove (l.push (.index 0)) = .ok d' ∧ Inserted d' l 1 0 x d) ∧
      (∃ d' ns, d.add (m.push (.index 0)) (.bool false) = .ok d' ∧
        d'.get m = .ok (.object ns) ∧ Members.Written (utf8 "0") (.bool false) ms ns) ∧
      ∃ d' before x after, d.remove (m.push (.index 0)) = .ok d' ∧
        ms = before ++ (utf8 "0", x) :: after ∧ d'.get m = .ok (.object (before ++ after)) := by
  intro xs ms d l m
  have hl : d.get l = .ok (.array xs) := rfl
  have hm : d.get m = .ok (.object ms) := rfl
  obtain ⟨hadd, hremove⟩ := (shift_of_add_remove d l).1 xs hl
  obtain ⟨hwrite, hdomain, herase⟩ := (shift_of_add_remove d m).2 ms hm (.index 0) (utf8 "0") rfl
  refine ⟨hl, hm, ?_, ?_, ?_, ?_⟩
  · obtain ⟨hsuccess, hinserted⟩ := hadd (.index 0) 0 (.string []) (.inl rfl)
    obtain ⟨d', hd'⟩ := hsuccess.2 (by decide)
    have hshift := (hinserted d' hd').behind 0 (by decide) (by decide) (.ofSegments [.index 0])
    exact ⟨d', hd', Result.mapError_eq_ok_iff.1 (hshift.trans rfl),
      (hinserted d' hd').beside m (by decide) (by decide)⟩
  · obtain ⟨hsuccess, hmirror⟩ := hremove 0
    obtain ⟨d', hd'⟩ := hsuccess.2 (by decide)
    obtain ⟨x, hx⟩ := hmirror d' hd'
    exact ⟨d', x, hd', hx⟩
  · obtain ⟨d', ns, hd', hget, hwritten, -⟩ := hwrite (.bool false)
    exact ⟨d', ns, hd', hget, hwritten⟩
  · obtain ⟨d', hd'⟩ := hdomain.2 (by decide)
    obtain ⟨before, x, after, hms, -, hget, -⟩ := herase d' hd'
    exact ⟨d', before, x, after, hd', hms, hget⟩

end Value

end TreePatch
