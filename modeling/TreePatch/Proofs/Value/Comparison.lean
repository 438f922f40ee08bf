import Mathlib.Data.List.Perm.Subperm
import TreePatch.Proofs.Value.Equivalent
import TreePatch.Proofs.Value.WellFormed
import TreePatch.Value.NaN

set_option autoImplicit false

/-!
# Laws of comparison as documents

Comparison asks whether each member of the left object finds its equal in the right one, and
whether there are equally many. Where names are distinct that is the same from either side: as
many distinct names that are all listed on the right are all the names of the right
(`perm_keys_of_equals`). So comparison is symmetric (`equals_comm_of_wellFormed`).

It does not see the order of members (`Equivalent.equals_eq`, `Reordered.equivalent`), and it
fails between a value and itself only for a NaN somewhere in it, to which then some steps lead
(`holdsNaN_iff_follow`).
-/

namespace TreePatch

/-! ## Numbers -/

theorem Binary64.equals_comm (x y : Binary64) : x.equals y = y.equals x := by
  rw [Bool.eq_iff_iff]
  simp only [equals, Bool.and_eq_true, Bool.or_eq_true, beq_iff_eq]
  exact and_congr and_comm (or_congr eq_comm and_comm)

/-- Each pair of representations compares alike from either side. -/
theorem Number.equals_comm (m n : Number) : m.equals n = n.equals m := by
  cases m <;> cases n <;> simp [equals, equalIntegers?, Binary64.equals_comm, Bool.beq_comm]

namespace Value

variable {v w c : Value} {ms ns : Members Value} {xs : List Value} {s : Segment}

/-! ## Symmetry -/

theorem equals_comm_of_leaf (hleaf : v.kind.isContainer = false) : v.equals w = w.equals v := by
  cases v with
  | array xs => cases hleaf
  | object ms => cases hleaf
  | _ => cases w <;> simp [equals, Bool.beq_comm, Number.equals_comm]

/-- Objects that compare equal have the same names. -/
theorem perm_keys_of_equals (hms : ms.Distinct) (h : equals (.object ms) (.object ns) = true) :
    ms.keys.Perm ns.keys := by
  obtain ⟨hlength, hfound⟩ := equals_object.1 h
  have hsubset : ms.keys ⊆ ns.keys := by
    intro k hk
    obtain ⟨m, hm, rfl⟩ := List.mem_map.1 hk
    obtain ⟨w, hw, -⟩ := hfound m hm
    exact Members.mem_keys_iff.2 ⟨w, hw⟩
  refine (hms.subperm hsubset).perm_of_length_le (Nat.le_of_eq ?_)
  rw [Members.keys, Members.keys, List.length_map, List.length_map, hlength]

theorem equals_symm (hv : v.WellFormed) (hw : w.WellFormed) (h : v.equals w = true) :
    w.equals v = true := by
  induction v generalizing w with
  | null => exact (equals_comm_of_leaf rfl).symm.trans h
  | bool b => exact (equals_comm_of_leaf rfl).symm.trans h
  | number n => exact (equals_comm_of_leaf rfl).symm.trans h
  | string t => exact (equals_comm_of_leaf rfl).symm.trans h
  | array xs ih =>
      cases w with
      | array ys =>
          rw [equals_array_iff_getElem?] at h ⊢
          refine ⟨h.1.symm, fun i y x hy hx => ?_⟩
          have hxs := List.mem_of_getElem? hx
          exact ih x hxs (wellFormed_array.1 hv x hxs)
            (wellFormed_array.1 hw y (List.mem_of_getElem? hy)) (h.2 i x y hx hy)
      | _ => cases kind_eq_of_equals h
  | object ms ih =>
      cases w with
      | object ns =>
          obtain ⟨hms, hentries⟩ := wellFormed_object_iff_get?.1 hv
          obtain ⟨hns, hentries'⟩ := wellFormed_object_iff_get?.1 hw
          have hkeys := perm_keys_of_equals hms h
          rw [equals_object_iff_get? hms] at h
          rw [equals_object_iff_get? hns]
          refine ⟨h.1.symm, fun k b hb => ?_⟩
          -- A name of the right is one of the left, and leads from there to the same entry.
          obtain ⟨a, ha⟩ := Members.mem_keys_iff.1 (hkeys.mem_iff.2 (Members.mem_keys_iff.2 ⟨b, hb⟩))
          obtain ⟨b', hb', hab⟩ := h.2 k a ha
          obtain rfl := Option.some.inj (hb.symm.trans hb')
          exact ⟨a, ha, ih (k, a) (Members.mem_of_get? ha) (hentries k a ha)
            (hentries' k b hb) hab⟩
      | _ => cases kind_eq_of_equals h

/-- Well-formed values compare alike from either side. -/
theorem equals_comm_of_wellFormed (hv : v.WellFormed) (hw : w.WellFormed) :
    v.equals w = w.equals v := by
  rw [Bool.eq_iff_iff]
  exact ⟨equals_symm hv hw, equals_symm hw hv⟩

/-! ## Reordering -/

/-- Names stay distinct when members are reordered. -/
theorem Reordered.wellFormed (h : Reordered v w) (hv : v.WellFormed) : w.WellFormed := by
  induction h with
  | null | bool b | number n | string t => rfl
  | array length_eq _ ih =>
      refine wellFormed_array.2 fun y hy => ?_
      obtain ⟨i, hi⟩ := List.mem_iff_getElem?.1 hy
      have hx := List.getElem?_eq_getElem (length_eq ▸ (List.getElem?_eq_some_iff.1 hi).1)
      exact ih i _ y hx hi (wellFormed_array.1 hv _ (List.mem_of_getElem? hx))
  | object keys_perm _ ih =>
      rw [wellFormed_object_iff_get?] at hv ⊢
      refine ⟨keys_perm.nodup_iff.1 hv.1, fun k b hb => ?_⟩
      obtain ⟨a, ha⟩ := Members.mem_keys_iff.1
        (keys_perm.mem_iff.2 (Members.mem_keys_iff.2 ⟨b, hb⟩))
      exact ih k a b ha hb (hv.2 k a ha)

/-- A reordering of a well-formed value is equivalent to it. -/
theorem Reordered.equivalent (h : Reordered v w) (hv : v.WellFormed) : v.Equivalent w :=
  ⟨h, hv, h.wellFormed hv⟩

/-! ## NaN -/

theorem elementsHoldNaN_iff : elementsHoldNaN xs = true ↔ ∃ x ∈ xs, x.holdsNaN = true := by
  rw [← Bool.not_eq_false, elementsHoldNaN_eq_false_iff]
  simp

theorem membersHoldNaN_iff : membersHoldNaN ms = true ↔ ∃ m ∈ ms, m.2.holdsNaN = true := by
  rw [← Bool.not_eq_false, membersHoldNaN_eq_false_iff]
  simp

/-- A value holds what its children hold. -/
theorem holdsNaN_of_child (h : v.child s = .ok c) (hc : c.holdsNaN = true) :
    v.holdsNaN = true := by
  rcases child_eq_ok_cases h with ⟨xs, i, rfl, rfl, hi⟩ | ⟨ms, name, rfl, -, hget⟩
  · exact elementsHoldNaN_iff.2 ⟨c, List.mem_of_getElem? hi, hc⟩
  · exact membersHoldNaN_iff.2 ⟨_, Members.mem_of_get? hget, hc⟩

/-- A well-formed value holds a NaN exactly if some steps lead to one. -/
theorem holdsNaN_iff_follow (hv : v.WellFormed) : v.holdsNaN = true ↔
    ∃ steps x, v.follow steps = .ok (.number (.binary x)) ∧ x.isNaN = true := by
  refine ⟨fun h => ?_, fun h => ?_⟩
  · induction v with
    | number n =>
        cases n with
        | binary x => exact ⟨[], x, rfl, h⟩
        | _ => cases h
    | array xs ih =>
        obtain ⟨x, hx, hnan⟩ := elementsHoldNaN_iff.1 h
        obtain ⟨i, hi⟩ := List.mem_iff_getElem?.1 hx
        obtain ⟨steps, y, hy, hynan⟩ := ih x hx (wellFormed_array.1 hv x hx) hnan
        have hchild := child_of_mem_children hv (mem_children_array.2 ⟨i, rfl, hi⟩)
        exact ⟨_ :: steps, y, (follow_cons_of_child hchild steps).trans hy, hynan⟩
    | object ms ih =>
        obtain ⟨m, hm, hnan⟩ := membersHoldNaN_iff.1 h
        obtain ⟨steps, y, hy, hynan⟩ := ih m hm ((wellFormed_object.1 hv).2 m hm) hnan
        have hchild := child_of_mem_children hv (mem_children_object.2 ⟨m.1, rfl, hm⟩)
        exact ⟨_ :: steps, y, (follow_cons_of_child hchild steps).trans hy, hynan⟩
    | _ => cases h
  · obtain ⟨steps, x, hx, hnan⟩ := h
    induction steps generalizing v with
    | nil =>
        cases hx
        exact hnan
    | cons s steps ih =>
        obtain ⟨c, hc, hx⟩ := follow_cons_eq_ok_iff.1 hx
        exact holdsNaN_of_child hc (ih (hv.child hc) hx)

/-! ## All laws -/

/-- Comparison of well-formed documents is symmetric. A document differs from itself exactly if
some steps in it lead to a NaN. Reordering members, in objects at any depth and on either side,
changes no answer. -/
theorem equals_laws {a b : Value} (ha : a.WellFormed) (hb : b.WellFormed) :
    a.equals b = b.equals a ∧
      (a.equals a = false ↔
        ∃ steps x, a.follow steps = .ok (.number (.binary x)) ∧ x.isNaN = true) ∧
      ∀ a' b', Reordered a a' → Reordered b b' → a'.equals b' = a.equals b := by
  refine ⟨equals_comm_of_wellFormed ha hb, ?_, fun a' b' haa' hbb' => ?_⟩
  · rw [← holdsNaN_iff_follow ha, ← Bool.not_eq_true, equals_self_iff ha, Bool.not_eq_false]
  · exact ((haa'.equivalent ha).equals_eq (hbb'.equivalent hb)).symm

/-- Two objects hold a number each in two representations, and in the other order. They are equal
from either side. With a NaN in it an object differs from itself, in either order. -/
theorem equals_laws_representations :
    let signed : Value := .number (.signed 1)
    let unsigned : Value := .number (.unsigned 1)
    let binary : Value := .number (.binary ⟨0x3ff0000000000000⟩)
    let nan : Value := .number (.binary ⟨0x7ff8000000000000⟩)
    let a : Value := .object [(utf8 "x", signed), (utf8 "y", .array [binary])]
    let b : Value := .object [(utf8 "x", unsigned), (utf8 "y", .array [signed])]
    let b' : Value := .object [(utf8 "y", .array [signed]), (utf8 "x", unsigned)]
    let c : Value := .object [(utf8 "x", .null), (utf8 "y", .array [nan])]
    a.WellFormed ∧ b.WellFormed ∧ c.WellFormed ∧ Reordered b b' ∧
      a.equals b' = true ∧ b.equals a = true ∧ c.equals c = false := by
  intro signed unsigned binary nan a b b' c
  have ha : a.WellFormed := by decide
  have hb : b.WellFormed := by decide
  have hc : c.WellFormed := by decide
  have hperm : Reordered b b' := (equivalent_of_perm hb (.swap _ _ _)).reordered
  have hab : a.equals b = true := by decide
  obtain ⟨hsymm, -, hreordered⟩ := equals_laws ha hb
  obtain ⟨-, hself, -⟩ := equals_laws hc hc
  refine ⟨ha, hb, hc, hperm, ?_, hsymm.symm.trans hab, ?_⟩
  · rw [hreordered a b' (.refl a) hperm, hab]
  · exact hself.2 ⟨[.key (utf8 "y"), .index 0], ⟨0x7ff8000000000000⟩, rfl, by decide⟩

end Value

end TreePatch
