import TreePatch.Proofs.Query.Concrete
import TreePatch.Value.Surface

set_option autoImplicit false

/-!
# Queries for the children of one node

A plain pointer between a dollar sign and a last star is a query for the children of the node to
which the pointer leads (`expandPath_children`). At an array these are its elements by position
(`expandPath_elements`). A pointer and a last `-` is a pointer to the end of the array at hand
(`parsePointer_end`).
-/

namespace TreePatch

open Text (slash dollar)

/-- Steps to a node and a wildcard address the children of the node. -/
theorem expand_children {steps : List Segment} {v c : Value} (h : v.follow steps = .ok c) :
    expand (steps ++ [.wildcard]) v = .ok (c.surface.steps.map fun s => steps ++ [s]) := by
  induction steps generalizing v with
  | nil =>
      cases h
      rw [← Value.map_fst_children, List.nil_append, expand, if_pos (Segment.isWildcard_iff.2 rfl),
        Result.gather_eq_ok_iff]
      refine ⟨c.children.map fun b => [[b.1]], by simp [expand], ?_⟩
      rw [← List.flatMap_def, List.map_map]
      exact List.map_eq_flatMap.symm
  | cons s steps ih =>
      obtain ⟨child, hchild, hc⟩ := Value.follow_cons_eq_ok_iff.1 h
      have hs : s ≠ .wildcard := by
        rintro rfl
        exact Value.wildcard_not_mem_of_follow h List.mem_cons_self
      have hmore : (steps ++ [Segment.wildcard]).isEmpty = false := by simp
      rw [List.cons_append, expand_cons, if_neg (mt Segment.isWildcard_iff.1 hs), hmore, hchild]
      simp [ih hc]

namespace Path

variable {d c : Value} {t u : Text} {p q : Path} {xs : List Value}

/-- A last star of a query is its last step. -/
theorem parseQuery_star (ht : IsPlainPointer t) (hp : parsePointer t = .ok p) :
    parseQuery (dollar :: (t ++ utf8 "/*")) = .ok ⟨.query, p.segments ++ [.wildcard]⟩ := by
  have hread := ht.readsAs_query_iff.2 (parsePointer_eq_ok_iff_readsAs.1 hp).2
  refine parseQuery_eq_ok_iff_readsAs.2 ⟨rfl, _, rfl, ?_⟩
  exact hread.concat (by decide) (by decide)

/-- A last `-` of a pointer leads to the end of an array. -/
theorem parsePointer_end (hq : parsePointer u = .ok q) :
    parsePointer (u ++ utf8 "/-") = .ok (q.push .append) := by
  obtain ⟨hform, hread⟩ := parsePointer_eq_ok_iff_readsAs.1 hq
  exact parsePointer_eq_ok_iff_readsAs.2 ⟨hform, hread.concat (by decide) (by decide)⟩

/-- A last star addresses the children of the node to which a pointer leads. -/
theorem expandPath_children (ht : IsPlainPointer t) (hp : parsePointer t = .ok p)
    (hc : d.get p = .ok c) :
    expandPath d (dollar :: (t ++ utf8 "/*")) = .ok (c.surface.steps.map p.push) := by
  have hquery : isQueryText (dollar :: (t ++ utf8 "/*")) = true := rfl
  have hform : p.form = .pointer := (parsePointer_eq_ok_iff_readsAs.1 hp).1
  rw [expandPath, if_pos hquery, parseQuery_star ht hp]
  change queryPaths _ d = _
  rw [queryPaths, expand_children (Value.get_eq_ok_iff.1 hc)]
  simp [push, ofSegments, hform]

/-- At an array a last star addresses the elements in order. -/
theorem expandPath_elements (ht : IsPlainPointer t) (hp : parsePointer t = .ok p)
    (hx : d.get p = .ok (.array xs)) : expandPath d (dollar :: (t ++ utf8 "/*")) =
      .ok ((List.range xs.length).map fun i => p.push (.index i)) := by
  rw [expandPath_children ht hp hx, Value.surface, Value.Surface.steps, List.map_map]
  rfl

end Path

end TreePatch
