import TreePatch.Proofs.Path.Alike
import TreePatch.Value.Location

set_option autoImplicit false

/-!
# Spellings and locations

Paths are compared by the names of their steps, while a document is walked by its nodes.
For paths that lead somewhere the two views agree: the names of one path are the names
of another, or begin with them, exactly when the same is true of the locations
(`location_prefix_iff`, `location_eq_iff`). Steps of one node with one position have one
name whatever their sorts, and the other way round (`childPosition_eq_iff`).
-/

namespace TreePatch

namespace Value

variable {v : Value} {s t : Segment} {ps qs : List Segment} {l l' : List Nat}

/-- Steps from one node have the same position exactly when they have the same name. -/
theorem childPosition_eq_iff {i j : Nat} (hi : v.childPosition s = some i)
    (hj : v.childPosition t = some j) : i = j ↔ s.memberName? = t.memberName? := by
  cases v with
  | array xs =>
      cases s with
      | index m =>
          cases t with
          | index n =>
              simp only [childPosition, Option.ite_none_right_eq_some, Option.some.injEq] at hi hj
              obtain ⟨-, rfl⟩ := hi
              obtain ⟨-, rfl⟩ := hj
              refine ⟨fun h => by rw [h], fun h => ?_⟩
              exact Decimal.ofNat_injective (Option.some.inj h)
          | _ => cases hj
      | _ => cases hi
  | object ms =>
      simp only [childPosition, Option.bind_eq_some_iff] at hi hj
      obtain ⟨m, hm, hi⟩ := hi
      obtain ⟨n, hn, hj⟩ := hj
      rw [hm, hn, Option.some.injEq]
      refine ⟨fun h => ?_, fun h => ?_⟩
      · subst h
        obtain ⟨hlt, hmi, -⟩ := List.idxOf?_eq_some_iff.1 hi
        obtain ⟨_, hni, -⟩ := List.idxOf?_eq_some_iff.1 hj
        exact hmi.symm.trans hni
      · subst h
        exact Option.some.inj (hi.symm.trans hj)
  | _ => cases hi

/-- One way leads at or below the end of another exactly when it begins with the names of
the other. -/
theorem location_prefix_iff (hp : v.location ps = some l) (hq : v.location qs = some l') :
    l <+: l' ↔ ps.map Segment.memberName? <+: qs.map Segment.memberName? := by
  induction ps generalizing v qs l l' with
  | nil =>
      cases hp
      simp
  | cons s ps ih =>
      obtain ⟨c, i, k, hc, hi, hk, rfl⟩ := location_cons_eq_some hp
      cases qs with
      | nil =>
          cases hq
          simp
      | cons t qs =>
          obtain ⟨d, j, k', hd, hj, hk', rfl⟩ := location_cons_eq_some hq
          rw [List.map_cons, List.map_cons, List.cons_prefix_cons, List.cons_prefix_cons,
            childPosition_eq_iff hi hj]
          refine and_congr_right fun hname => ?_
          -- Steps of one name that both lead somewhere lead to one child.
          have hsame := (alikeStep_of_child hc hd hname).child
          obtain rfl : c = d := Except.ok.inj (hc.symm.trans (hsame.trans hd))
          exact ih hk hk'

/-- Two ways lead to one node exactly when they have the same names. -/
theorem location_eq_iff (hp : v.location ps = some l) (hq : v.location qs = some l') :
    l = l' ↔ ps.map Segment.memberName? = qs.map Segment.memberName? := by
  have antisymm : ∀ {α : Type} {xs ys : List α}, xs = ys ↔ xs <+: ys ∧ ys <+: xs := by
    intro α xs ys
    refine ⟨fun h => h ▸ ⟨List.prefix_refl _, List.prefix_refl _⟩, fun h => ?_⟩
    exact h.1.eq_of_length (Nat.le_antisymm h.1.length_le h.2.length_le)
  rw [antisymm, location_prefix_iff hp hq, location_prefix_iff hq hp, ← antisymm]

/-- A path that leads somewhere has a location, at which stands what it leads to. -/
theorem exists_location_of_get {d x : Value} {p : Path} (h : d.get p = .ok x) :
    ∃ l, d.location p.segments = some l ∧ d.nodeAt l = some x := by
  have hfollow : d.follow p.segments = .ok x := Result.mapError_eq_ok_iff.1 h
  obtain ⟨l, hl⟩ := Option.isSome_iff_exists.1 (location_isSome_iff.2 ⟨x, hfollow⟩)
  exact ⟨l, hl, nodeAt_location hl hfollow⟩

end Value

end TreePatch
