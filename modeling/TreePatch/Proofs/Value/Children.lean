import TreePatch.Value.Lens
import TreePatch.Value.WellFormed

set_option autoImplicit false

/-!
# Listed children and the steps that lead to them

`Value.children` lists a node's children with a step for each, and `Value.child`
takes a step. In a well-formed value the two agree: the step listed with a child
leads to that child (`child_of_mem_children`), and no two listed steps have one name
(`pairwise_children`). Objects with a name twice would break both, since a step always
leads to the first member of its name.
-/

namespace TreePatch.Value

variable {v c : Value} {s : Segment}

/-! ## One listed child -/

theorem mem_children_array {xs : List Value} :
    (s, c) ∈ (array xs).children ↔ ∃ i, s = .index i ∧ xs[i]? = some c := by
  simp only [children, List.mem_mapIdx, Prod.mk.injEq]
  refine ⟨fun h => ?_, fun h => ?_⟩
  · obtain ⟨i, hi, rfl, rfl⟩ := h
    exact ⟨i, rfl, List.getElem?_eq_getElem hi⟩
  · obtain ⟨i, rfl, hc⟩ := h
    obtain ⟨hi, rfl⟩ := List.getElem?_eq_some_iff.1 hc
    exact ⟨i, hi, rfl, rfl⟩

theorem mem_children_object {ms : Members Value} :
    (s, c) ∈ (object ms).children ↔ ∃ k, s = .key k ∧ (k, c) ∈ ms := by
  simp only [children, List.mem_map, Prod.mk.injEq]
  refine ⟨fun h => ?_, fun h => ?_⟩
  · obtain ⟨⟨k, a⟩, hm, rfl, rfl⟩ := h
    exact ⟨k, rfl, hm⟩
  · obtain ⟨k, rfl, hm⟩ := h
    exact ⟨(k, c), hm, rfl, rfl⟩

/-- A listed step is a name or a position. -/
theorem ne_wildcard_of_mem_children (h : (s, c) ∈ v.children) : s ≠ .wildcard := by
  cases v with
  | array xs =>
      obtain ⟨i, rfl, -⟩ := mem_children_array.1 h
      simp
  | object ms =>
      obtain ⟨k, rfl, -⟩ := mem_children_object.1 h
      simp
  | _ => simp [children] at h

/-- The step listed with a child leads to it. -/
theorem child_of_mem_children (hv : v.WellFormed) (h : (s, c) ∈ v.children) :
    v.child s = .ok c := by
  cases v with
  | array xs =>
      obtain ⟨i, rfl, hc⟩ := mem_children_array.1 h
      simp [child, childOfElements, hc]
  | object ms =>
      obtain ⟨k, rfl, hm⟩ := mem_children_object.1 h
      have hget := Members.get?_of_mem (wellFormed_object.1 hv).1 hm
      simp [child, childOfMembers, Segment.memberName?, hget]
  | _ => simp [children] at h

theorem WellFormed.of_mem_children (hv : v.WellFormed) (h : (s, c) ∈ v.children) :
    c.WellFormed :=
  hv.child (child_of_mem_children hv h)

/-- What is reached in a well-formed value is well formed. -/
theorem WellFormed.follow (hv : v.WellFormed) {steps : List Segment}
    (h : v.follow steps = .ok c) : c.WellFormed := by
  induction steps generalizing v with
  | nil =>
      cases h
      exact hv
  | cons s steps ih =>
      obtain ⟨d, hs, hd⟩ := follow_cons_eq_ok_iff.1 h
      exact ih (hv.child hs) hd

/-! ## All listed children -/

/-- No two listed steps have one name. -/
theorem pairwise_children (hv : v.WellFormed) :
    v.children.Pairwise fun a b => a.1.memberName? ≠ b.1.memberName? := by
  cases v with
  | array xs =>
      rw [List.pairwise_iff_getElem]
      intro i j hi hj hij
      simp only [children, List.getElem_mapIdx, Segment.memberName?, ne_eq, Option.some.injEq]
      intro e
      exact absurd (Decimal.ofNat_injective e) (Nat.ne_of_lt hij)
  | object ms =>
      have hkeys : ms.Pairwise fun a b => a.1 ≠ b.1 :=
        List.pairwise_map.1 (wellFormed_object.1 hv).1
      rw [children, List.pairwise_map]
      exact hkeys.imp fun hne e => hne (Option.some.inj e)
  | _ => exact List.Pairwise.nil

/-- Steps listed at two positions have two names. -/
theorem memberName?_ne_of_getElem?_children (hv : v.WellFormed) {j k : Nat} (hjk : j < k)
    {s t : Segment} (hs : v.children[j]?.map Prod.fst = some s)
    (ht : v.children[k]?.map Prod.fst = some t) : s.memberName? ≠ t.memberName? := by
  obtain ⟨a, ha, rfl⟩ := Option.map_eq_some_iff.1 hs
  obtain ⟨b, hb, rfl⟩ := Option.map_eq_some_iff.1 ht
  obtain ⟨hj, rfl⟩ := List.getElem?_eq_some_iff.1 ha
  obtain ⟨hk, rfl⟩ := List.getElem?_eq_some_iff.1 hb
  exact List.pairwise_iff_getElem.1 (pairwise_children hv) j k hj hk hjk

end TreePatch.Value
