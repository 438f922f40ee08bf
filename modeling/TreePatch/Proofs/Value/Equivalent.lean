import TreePatch.Proofs.Value.Children
import TreePatch.Proofs.Value.Edit
import TreePatch.Value.Equality
import TreePatch.Value.Reordered

set_option autoImplicit false

/-!
# Equivalent values: the same documents in another order of members

Two values are `Equivalent` if they are well-formed reorderings of each other. What an
array or an object holds can then be compared by look-up: equivalent arrays have
equivalent elements at each position (`equivalent_array_iff`), and equivalent objects
have equivalent entries under each name (`equivalent_object_iff`). Reads and writes are
specified by look-up, so each of them answers alike on equivalent values.

* `Equivalent.child` … `Equivalent.remove`: reads and edits of equivalent values agree.
* `Equivalent.equals_eq`: comparison as documents does not see the difference.
-/

namespace TreePatch

/-! ## Look-ups that correspond -/

section Rel

variable {α β : Type} {R : α → β → Prop}

theorem exists_left_of_rel {a? : Option α} {b : β} (h : Option.Rel R a? (some b)) :
    ∃ a, a? = some a ∧ R a b := by
  cases h with
  | some h => exact ⟨_, rfl, h⟩

theorem exists_right_of_rel {a : α} {b? : Option β} (h : Option.Rel R (some a) b?) :
    ∃ b, b? = some b ∧ R a b := by
  cases h with
  | some h => exact ⟨_, rfl, h⟩

/-- Lists that correspond position by position have one length. -/
theorem length_eq_of_rel {xs : List α} {ys : List β}
    (h : ∀ i : Nat, Option.Rel R xs[i]? ys[i]?) : xs.length = ys.length := by
  have hend : ∀ i : Nat, xs[i]? = none ↔ ys[i]? = none := by
    intro i
    have hi := h i
    generalize xs[i]? = a at hi ⊢
    generalize ys[i]? = b at hi ⊢
    cases hi <;> simp
  simp only [List.getElem?_eq_none_iff] at hend
  exact Nat.le_antisymm ((hend ys.length).2 (Nat.le_refl _)) ((hend xs.length).1 (Nat.le_refl _))

end Rel

namespace Value

/-- Well-formed values that are the same up to the order of members. -/
structure Equivalent (v w : Value) : Prop where
  reordered : Reordered v w
  left : v.WellFormed
  right : w.WellFormed

variable {u v v' w w' : Value} {xs ys : List Value} {ms ns : Members Value}

/-! ## One level at a time -/

theorem equivalent_array_iff : Equivalent (.array xs) (.array ys) ↔
    ∀ i : Nat, Option.Rel Equivalent xs[i]? ys[i]? := by
  refine ⟨fun h i => ?_, fun h => ?_⟩
  · obtain ⟨hr, hx, hy⟩ := h
    cases hr with
    | array hlen helements =>
        by_cases hi : i < xs.length
        · have hi' : i < ys.length := hlen ▸ hi
          rw [List.getElem?_eq_getElem hi, List.getElem?_eq_getElem hi']
          exact .some ⟨helements i _ _ (List.getElem?_eq_getElem hi)
              (List.getElem?_eq_getElem hi'),
            wellFormed_array.1 hx _ (List.getElem_mem hi),
            wellFormed_array.1 hy _ (List.getElem_mem hi')⟩
        · rw [List.getElem?_eq_none (Nat.le_of_not_lt hi),
            List.getElem?_eq_none (hlen ▸ Nat.le_of_not_lt hi)]
          exact .none
  · refine ⟨.array (length_eq_of_rel h) fun i x y hx hy => ?_, wellFormed_array.2 fun x hx => ?_,
      wellFormed_array.2 fun y hy => ?_⟩
    · have hi := h i
      rw [hx, hy, Option.rel_some_some] at hi
      exact hi.reordered
    · obtain ⟨i, hi⟩ := List.mem_iff_getElem?.1 hx
      have hrel := h i
      rw [hi] at hrel
      obtain ⟨y, -, hxy⟩ := exists_right_of_rel hrel
      exact hxy.left
    · obtain ⟨i, hi⟩ := List.mem_iff_getElem?.1 hy
      have hrel := h i
      rw [hi] at hrel
      obtain ⟨x, -, hxy⟩ := exists_left_of_rel hrel
      exact hxy.right

/-- Members of equivalent objects have the same names. -/
theorem keys_perm_of_rel {R : Value → Value → Prop} (hms : ms.Distinct) (hns : ns.Distinct)
    (h : ∀ k, Option.Rel R (ms.get? k) (ns.get? k)) : ms.keys.Perm ns.keys := by
  refine (List.perm_ext_iff_of_nodup hms hns).2 fun k => ?_
  rw [← Members.isSome_get?_iff, ← Members.isSome_get?_iff]
  have hk := h k
  generalize ms.get? k = a at hk
  generalize ns.get? k = b at hk
  cases hk <;> simp

theorem length_eq_of_get?_rel {R : Value → Value → Prop} (hms : ms.Distinct)
    (hns : ns.Distinct) (h : ∀ k, Option.Rel R (ms.get? k) (ns.get? k)) :
    ms.length = ns.length := by
  have hlen := (keys_perm_of_rel hms hns h).length_eq
  rwa [Members.keys, Members.keys, List.length_map, List.length_map] at hlen

theorem equivalent_object_iff : Equivalent (.object ms) (.object ns) ↔
    ms.Distinct ∧ ns.Distinct ∧ ∀ k, Option.Rel Equivalent (ms.get? k) (ns.get? k) := by
  refine ⟨fun h => ?_, fun h => ?_⟩
  · obtain ⟨hr, hm, hn⟩ := h
    obtain ⟨hms, hwm⟩ := wellFormed_object.1 hm
    obtain ⟨hns, hwn⟩ := wellFormed_object.1 hn
    refine ⟨hms, hns, fun k => ?_⟩
    cases hr with
    | object hkeys hentries =>
        -- A name is listed on both sides or on neither.
        have hsome : (ms.get? k).isSome = true ↔ (ns.get? k).isSome = true := by
          rw [Members.isSome_get?_iff, Members.isSome_get?_iff, hkeys.mem_iff]
        cases ha : ms.get? k with
        | none =>
            cases hb : ns.get? k with
            | none => exact .none
            | some b => simp [ha, hb] at hsome
        | some a =>
            cases hb : ns.get? k with
            | none => simp [ha, hb] at hsome
            | some b =>
                exact .some ⟨hentries k a b ha hb, hwm _ (Members.mem_of_get? ha),
                  hwn _ (Members.mem_of_get? hb)⟩
  · obtain ⟨hms, hns, h⟩ := h
    refine ⟨.object (keys_perm_of_rel hms hns h) fun k a b ha hb => ?_,
      wellFormed_object.2 ⟨hms, fun m hm => ?_⟩, wellFormed_object.2 ⟨hns, fun n hn => ?_⟩⟩
    · have hk := h k
      rw [ha, hb, Option.rel_some_some] at hk
      exact hk.reordered
    · have hk := h m.1
      rw [Members.get?_of_mem hms hm] at hk
      obtain ⟨b, -, hab⟩ := exists_right_of_rel hk
      exact hab.left
    · have hk := h n.1
      rw [Members.get?_of_mem hns hn] at hk
      obtain ⟨a, -, hab⟩ := exists_left_of_rel hk
      exact hab.right

/-- Equivalent values are one leaf, two arrays or two objects. -/
theorem Equivalent.cases (h : v.Equivalent w) :
    (v.kind.isContainer = false ∧ v = w) ∨
    (∃ xs ys, v = .array xs ∧ w = .array ys ∧ ∀ i : Nat, Option.Rel Equivalent xs[i]? ys[i]?) ∨
    (∃ ms ns, v = .object ms ∧ w = .object ns ∧ Members.Distinct ms ∧ Members.Distinct ns ∧
      ∀ k, Option.Rel Equivalent (Members.get? ms k) (Members.get? ns k)) := by
  cases h.reordered with
  | array => exact .inr (.inl ⟨_, _, rfl, rfl, equivalent_array_iff.1 h⟩)
  | object => exact .inr (.inr ⟨_, _, rfl, rfl, equivalent_object_iff.1 h⟩)
  | _ => exact .inl ⟨rfl, rfl⟩

theorem Equivalent.symm (h : v.Equivalent w) : w.Equivalent v :=
  ⟨h.reordered.symm, h.right, h.left⟩

theorem Equivalent.trans (h : u.Equivalent v) (h' : v.Equivalent w) : u.Equivalent w :=
  ⟨h.reordered.trans h'.reordered, h.left, h'.right⟩

theorem WellFormed.equivalent (hv : v.WellFormed) : v.Equivalent v :=
  ⟨.refl v, hv, hv⟩

/-- Permuting the members of an object gives an equivalent one. -/
theorem equivalent_of_perm (hv : (object ms).WellFormed) (h : ms.Perm ns) :
    (object ms).Equivalent (object ns) := by
  obtain ⟨hms, hentries⟩ := wellFormed_object.1 hv
  have hns : ns.Distinct := (h.map Prod.fst).nodup_iff.1 hms
  refine equivalent_object_iff.2 ⟨hms, hns, fun k => ?_⟩
  cases ha : ms.get? k with
  | some a =>
      have hm := Members.mem_of_get? ha
      rw [Members.get?_of_mem hns (h.mem_iff.1 hm)]
      exact .some (hentries _ hm).equivalent
  | none =>
      have hkeys : ns.get? k = none := by
        rw [Members.get?_eq_none_iff] at ha ⊢
        exact fun hk => ha ((h.map Prod.fst).mem_iff.2 hk)
      rw [hkeys]
      exact .none

/-! ## Reads -/

theorem Equivalent.child (h : v.Equivalent w) (s : Segment) :
    Result.Agree Equivalent (v.child s) (w.child s) := by
  rcases h.cases with ⟨hleaf, rfl⟩ | ⟨xs, ys, rfl, rfl, hxs⟩ | ⟨ms, ns, rfl, rfl, -, -, hms⟩
  · cases v with
    | array xs => cases hleaf
    | object ms => cases hleaf
    | _ => exact .error _
  · cases s with
    | index n =>
        have hn := hxs n
        simp only [Value.child, childOfElements, length_eq_of_rel hxs]
        generalize xs[n]? = a at hn ⊢
        generalize ys[n]? = b at hn ⊢
        cases hn with
        | some h => exact .ok h
        | none => exact .error _
    | _ => exact .error _
  · simp only [Value.child, childOfMembers]
    cases s.memberName? with
    | none => exact .error _
    | some name =>
        have hname := hms name
        dsimp only
        generalize Members.get? ms name = a at hname ⊢
        generalize Members.get? ns name = b at hname ⊢
        cases hname with
        | some h => exact .ok h
        | none => exact .error _

theorem Equivalent.follow (h : v.Equivalent w) (steps : List Segment) :
    Result.Agree Equivalent (v.follow steps) (w.follow steps) := by
  induction steps generalizing v w with
  | nil => exact .ok h
  | cons s rest ih =>
      rw [Value.follow, Value.follow]
      rcases (h.child s).cases with ⟨c, d, hc, hd, hcd⟩ | ⟨m, hc, hd⟩
      · rw [hc, hd]
        exact ih hcd
      · rw [hc, hd]
        exact .error m

/-! ## Edits of one node -/

theorem Equivalent.setChild (h : v.Equivalent w) (hnew : v'.Equivalent w') (s : Segment) :
    (v.setChild s v').Equivalent (w.setChild s w') := by
  rcases h.cases with ⟨hleaf, rfl⟩ | ⟨xs, ys, rfl, rfl, hxs⟩ | ⟨ms, ns, rfl, rfl, hm, hn, hms⟩
  · -- A leaf has no child to overwrite.
    have hsame : ∀ new, v.setChild s new = v := by
      intro new
      cases v with
      | array xs => cases hleaf
      | object ms => cases hleaf
      | _ => cases s <;> rfl
    rw [hsame, hsame]
    exact h
  · cases s with
    | index n =>
        refine equivalent_array_iff.2 fun i => ?_
        rw [List.getElem?_set, List.getElem?_set, length_eq_of_rel hxs]
        split
        · split
          · exact .some hnew
          · exact .none
        · exact hxs i
    | _ => exact h
  · simp only [Value.setChild]
    cases s.memberName? with
    | none => exact h
    | some name =>
        refine equivalent_object_iff.2 ⟨hm.update name v', hn.update name w', fun k => ?_⟩
        have hkeys := (keys_perm_of_rel hm hn hms).mem_iff (a := name)
        simp only [Members.get?_update, hkeys]
        split
        · exact .some hnew
        · exact hms k

theorem Equivalent.dropChild (h : v.Equivalent w) (s : Segment) :
    (v.dropChild s).Equivalent (w.dropChild s) := by
  rcases h.cases with ⟨hleaf, rfl⟩ | ⟨xs, ys, rfl, rfl, hxs⟩ | ⟨ms, ns, rfl, rfl, hm, hn, hms⟩
  · cases v with
    | array xs => cases hleaf
    | object ms => cases hleaf
    | _ => exact h
  · cases s with
    | index n =>
        refine equivalent_array_iff.2 fun i => ?_
        rw [List.getElem?_eraseIdx, List.getElem?_eraseIdx]
        split
        · exact hxs i
        · exact hxs (i + 1)
    | _ => exact h
  · simp only [Value.dropChild]
    cases s.memberName? with
    | none => exact h
    | some name =>
        refine equivalent_object_iff.2 ⟨hm.erase name, hn.erase name, fun k => ?_⟩
        -- Names have to be distinct: erasing takes out the first of a name only.
        rw [Members.get?_erase hm, Members.get?_erase hn]
        split
        · exact .none
        · exact hms k

theorem Equivalent.insertChild (h : v.Equivalent w) (hnew : v'.Equivalent w') (s : Segment) :
    Result.Agree Equivalent (v.insertChild s v') (w.insertChild s w') := by
  rcases h.cases with ⟨hleaf, rfl⟩ | ⟨xs, ys, rfl, rfl, hxs⟩ | ⟨ms, ns, rfl, rfl, hm, hn, hms⟩
  · cases v with
    | array xs => cases hleaf
    | object ms => cases hleaf
    | _ => exact .error _
  · have hlen := length_eq_of_rel hxs
    cases s with
    | append =>
        refine .ok (equivalent_array_iff.2 fun i => ?_)
        rw [List.getElem?_append, List.getElem?_append, hlen]
        split
        · exact hxs i
        · cases i - ys.length with
          | zero => exact .some hnew
          | succ j => exact .none
    | index n =>
        simp only [Value.insertChild, hlen]
        split
        · refine .ok (equivalent_array_iff.2 fun i => ?_)
          rw [List.getElem?_insertIdx, List.getElem?_insertIdx, hlen]
          split
          · exact hxs i
          · split
            · split
              · exact .some hnew
              · exact .none
            · exact hxs (i - 1)
        · exact .error _
    | _ => exact .error _
  · simp only [Value.insertChild]
    cases s.memberName? with
    | none => exact .error _
    | some name =>
        refine .ok (equivalent_object_iff.2 ⟨hm.insert name v', hn.insert name w', fun k => ?_⟩)
        rw [Members.get?_insert, Members.get?_insert]
        split
        · exact .some hnew
        · exact hms k

theorem Equivalent.eraseChild (h : v.Equivalent w) (s : Segment) :
    Result.Agree Equivalent (v.eraseChild s) (w.eraseChild s) := by
  rw [Value.eraseChild, Value.eraseChild]
  rcases (h.child s).cases with ⟨c, d, hc, hd, -⟩ | ⟨m, hc, hd⟩
  · rw [hc, hd]
    exact .ok (h.dropChild s)
  · rw [hc, hd]
    exact .error m

theorem Equivalent.writeChild (h : v.Equivalent w) (hnew : v'.Equivalent w') (s : Segment) :
    Result.Agree Equivalent (v.writeChild s v') (w.writeChild s w') :=
  (h.child s).map fun _ _ _ => h.setChild hnew s

/-! ## Edits at a path -/

section EditAt

variable {ε : Type} {lift : Misstep → ε} {edit edit' : Value → Segment → Except ε Value}

/-- Walks to the parent agree if the edits there do. -/
theorem Equivalent.editParent (h : v.Equivalent w)
    (hedit : ∀ {a b : Value}, a.Equivalent b → ∀ s,
      Result.Agree Equivalent (edit a s) (edit' b s)) (s : Segment) (rest : List Segment) :
    Result.Agree Equivalent (editParent lift edit v s rest) (editParent lift edit' w s rest) := by
  induction rest generalizing v w s with
  | nil => exact hedit h s
  | cons t rest ih =>
      rw [Value.editParent, Value.editParent]
      rcases (h.child s).cases with ⟨c, d, hc, hd, hcd⟩ | ⟨m, hc, hd⟩
      · rw [hc, hd]
        dsimp only
        rcases (ih hcd t).cases with ⟨c', d', hc', hd', hcd'⟩ | ⟨e, hc', hd'⟩
        · rw [hc', hd']
          exact .ok (h.setChild hcd' s)
        · rw [hc', hd']
          exact .error e
      · rw [hc, hd]
        exact .error _

theorem Equivalent.editAt {root root' : Value → Except Fault Value} {report : ε → Cause}
    (h : v.Equivalent w) (hroot : Result.Agree Equivalent (root v) (root' w))
    (hedit : ∀ {a b : Value}, a.Equivalent b → ∀ s,
      Result.Agree Equivalent (edit a s) (edit' b s)) (p : Path) :
    Result.Agree Equivalent (editAt root lift edit report v p)
      (editAt root' lift edit' report w p) := by
  unfold Value.editAt
  split
  · cases p.segments with
    | nil => exact hroot
    | cons s rest => exact (h.editParent hedit s rest).mapError _
  · exact .error _

end EditAt

theorem Equivalent.add (h : v.Equivalent w) (hnew : v'.Equivalent w') (p : Path) :
    Result.Agree Equivalent (v.add p v') (w.add p w') := by
  rw [add_eq_editAt, add_eq_editAt]
  refine h.editAt ?_ (fun hab s => hab.insertChild hnew s) p
  exact .ok hnew

theorem Equivalent.remove (h : v.Equivalent w) (p : Path) :
    Result.Agree Equivalent (v.remove p) (w.remove p) := by
  rw [remove_eq_editAt, remove_eq_editAt]
  exact h.editAt (.error _) (fun hab s => hab.eraseChild s) p

theorem Equivalent.replace (h : v.Equivalent w) (hnew : v'.Equivalent w') (p : Path) :
    Result.Agree Equivalent (v.replace p v') (w.replace p w') := by
  rw [replace_eq_editAt, replace_eq_editAt]
  refine h.editAt ?_ (fun hab s => hab.writeChild hnew s) p
  exact .ok hnew

/-! ## Comparison -/

theorem equals_array_iff_getElem? : equals (.array xs) (.array ys) = true ↔
    xs.length = ys.length ∧
      ∀ (i : Nat) (x y : Value), xs[i]? = some x → ys[i]? = some y → equals x y = true := by
  rw [equals_array]
  refine and_congr_right fun hlen => ⟨fun h i x y hx hy => ?_, fun h p hp => ?_⟩
  · refine h (x, y) (List.mem_iff_getElem?.2 ⟨i, ?_⟩)
    rw [List.getElem?_zip_eq_some]
    exact ⟨hx, hy⟩
  · obtain ⟨i, hi⟩ := List.mem_iff_getElem?.1 hp
    rw [List.getElem?_zip_eq_some] at hi
    exact h i p.1 p.2 hi.1 hi.2

theorem equals_object_iff_get? (hms : ms.Distinct) :
    equals (.object ms) (.object ns) = true ↔
      ms.length = ns.length ∧
        ∀ k v, ms.get? k = some v → ∃ w, ns.get? k = some w ∧ equals v w = true := by
  rw [equals_object]
  refine and_congr_right fun _ => ⟨fun h k v hv => h (k, v) (Members.mem_of_get? hv), ?_⟩
  intro h m hm
  exact h m.1 m.2 (Members.get?_of_mem hms hm)

theorem Equivalent.eq_of_leaf (h : v.Equivalent w) (hleaf : v.kind.isContainer = false) :
    v = w := by
  rcases h.cases with ⟨-, rfl⟩ | ⟨xs, ys, rfl, -, -⟩ | ⟨ms, ns, rfl, -, -, -, -⟩
  · rfl
  · cases hleaf
  · cases hleaf

theorem equals_of_leaf (hv : v.Equivalent v') (hw : w.Equivalent w')
    (hleaf : v.kind.isContainer = false) (h : v.equals w = true) : v'.equals w' = true := by
  have hleaf' : w.kind.isContainer = false := kind_eq_of_equals h ▸ hleaf
  rw [← hv.eq_of_leaf hleaf, ← hw.eq_of_leaf hleaf']
  exact h

theorem Equivalent.exists_of_array (h : (array xs).Equivalent w) :
    ∃ ys, w = .array ys ∧ ∀ i : Nat, Option.Rel Equivalent xs[i]? ys[i]? := by
  rcases h.cases with ⟨hleaf, -⟩ | ⟨xs, ys, hxs, rfl, hx⟩ | ⟨ms, ns, hms, -⟩
  · cases hleaf
  · cases hxs
    exact ⟨ys, rfl, hx⟩
  · cases hms

theorem Equivalent.exists_of_object (h : (object ms).Equivalent w) :
    ∃ ns, w = .object ns ∧ ms.Distinct ∧ Members.Distinct ns ∧
      ∀ k, Option.Rel Equivalent (ms.get? k) (Members.get? ns k) := by
  rcases h.cases with ⟨hleaf, -⟩ | ⟨xs, ys, hxs, -⟩ | ⟨ms, ns, hms, rfl, hm, hn, hmn⟩
  · cases hleaf
  · cases hxs
  · cases hms
    exact ⟨ns, rfl, hm, hn, hmn⟩

/-- Equal documents stay equal when members are reordered on both sides. -/
theorem equals_of_equivalent (hv : v.Equivalent v') (hw : w.Equivalent w')
    (h : v.equals w = true) : v'.equals w' = true := by
  induction v generalizing v' w w' with
  | null => exact equals_of_leaf hv hw rfl h
  | bool b => exact equals_of_leaf hv hw rfl h
  | number n => exact equals_of_leaf hv hw rfl h
  | string t => exact equals_of_leaf hv hw rfl h
  | array xs ih =>
      obtain ⟨xs', rfl, hx⟩ := hv.exists_of_array
      cases w with
      | array ys =>
          obtain ⟨ys', rfl, hy⟩ := hw.exists_of_array
          rw [equals_array_iff_getElem?] at h ⊢
          refine ⟨(length_eq_of_rel hx).symm.trans (h.1.trans (length_eq_of_rel hy)), ?_⟩
          intro i x' y' hx' hy'
          obtain ⟨x, hxget, hxx'⟩ := exists_left_of_rel (hx' ▸ hx i)
          obtain ⟨y, hyget, hyy'⟩ := exists_left_of_rel (hy' ▸ hy i)
          exact ih x (List.mem_of_getElem? hxget) hxx' hyy' (h.2 i x y hxget hyget)
      | _ => cases kind_eq_of_equals h
  | object ms ih =>
      obtain ⟨ms', rfl, hms, hms', hm⟩ := hv.exists_of_object
      cases w with
      | object ns =>
          -- From the right-hand member back to the left, across, and to the right again.
          obtain ⟨ns', rfl, hns, hns', hn⟩ := hw.exists_of_object
          rw [equals_object_iff_get? hms] at h
          rw [equals_object_iff_get? hms']
          refine ⟨(length_eq_of_get?_rel hms hms' hm).symm.trans
            (h.1.trans (length_eq_of_get?_rel hns hns' hn)), ?_⟩
          intro k a' ha'
          obtain ⟨a, ha, haa'⟩ := exists_left_of_rel (ha' ▸ hm k)
          obtain ⟨b, hb, hab⟩ := h.2 k a ha
          obtain ⟨b', hb', hbb'⟩ := exists_right_of_rel (hb ▸ hn k)
          exact ⟨b', hb', ih (k, a) (Members.mem_of_get? ha) haa' hbb' hab⟩
      | _ => cases kind_eq_of_equals h

theorem Equivalent.equals_eq (hv : v.Equivalent v') (hw : w.Equivalent w') :
    v.equals w = v'.equals w' := by
  rw [Bool.eq_iff_iff]
  exact ⟨equals_of_equivalent hv hw, equals_of_equivalent hv.symm hw.symm⟩

end Value

end TreePatch
