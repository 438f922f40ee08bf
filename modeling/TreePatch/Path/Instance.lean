import TreePatch.Path.Basic
import TreePatch.Value.Access

set_option autoImplicit false

/-!
# Instances of a query

What it means for a place to be addressed by a query, said without walking the
document: the place agrees with the query wherever the query has no wildcard, names
an existing child wherever it has one, and has a parent that exists.
`Instantiates` is this notion and `Precedes` the order in which a document lists
its places.
-/

namespace TreePatch

/-- A list of steps is a place that the segments of a query address. -/
structure Instantiates (v : Value) (query place : List Segment) : Prop where
  /-- A step for every segment. -/
  length_eq : place.length = query.length
  /-- Segments other than the wildcard are taken over. -/
  fixed : ∀ (i : Nat) (s : Segment), query[i]? = some s →
    s ≠ .wildcard → place[i]? = some s
  /-- A wildcard becomes the step to a child that exists. -/
  branch : ∀ i : Nat, query[i]? = some .wildcard →
    ∃ node s c, v.follow (place.take i) = .ok node ∧ place[i]? = some s ∧
      (s, c) ∈ node.children
  /-- All steps but the last can be taken. -/
  parent : ∃ node, v.follow place.dropLast = .ok node

/-- The first place at which two lists of steps part is a node at which the one
takes an earlier child than the other. -/
def Precedes (v : Value) (p q : List Segment) : Prop :=
  ∃ (i : Nat) (node : Value) (j k : Nat),
    p.take i = q.take i ∧ v.follow (p.take i) = .ok node ∧ j < k ∧
    (∃ c, p[i]? = some c ∧ (node.children[j]?).map Prod.fst = some c) ∧
    (∃ c, q[i]? = some c ∧ (node.children[k]?).map Prod.fst = some c)

/-- The root is the only instance of a query without segments. -/
theorem instantiates_nil_iff {v : Value} {place : List Segment} :
    Instantiates v [] place ↔ place = [] := by
  constructor
  · intro h
    exact List.eq_nil_of_length_eq_zero h.length_eq
  · rintro rfl
    exact ⟨rfl, by simp, by simp, v, rfl⟩

end TreePatch
