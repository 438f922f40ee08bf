import TreePatch.Path.Expansion
import TreePatch.Path.Instance
import TreePatch.Proofs.Value.Children

set_option autoImplicit false

/-!
# The places of a query are its instances, in document order

`expand` walks a document along a query, and `Instantiates` says without a walk which
places a query addresses. For well-formed documents the two agree whenever the walk
succeeds (`mem_expand_iff`). Both sides are taken apart at the first segment alike: an
expansion by `expand_cons_cases`, an instance by `instantiates_wildcard_cons_iff`,
`instantiates_singleton_iff` and `instantiates_step_cons_iff`.

The places come in the order of the document (`pairwise_precedes_expand`), and places
in that order differ in the name of a step (`Precedes.map_memberName?_ne`), so no two
of them are the same path.
-/

namespace TreePatch

/-! ## Expanding -/

/-- Places below a step are the places of an expansion that succeeded there. -/
theorem exists_tails_of_prefixed {s : Segment} {r : Except DeadEnd (List (List Segment))}
    {places : List (List Segment)}
    (h : (match r with
      | .error e => .error (e.after s)
      | .ok tails => .ok (tails.map (s :: ·))) = Except.ok places) :
    ∃ tails, r = .ok tails ∧ places = tails.map (s :: ·) := by
  cases r with
  | error e => cases h
  | ok tails =>
      cases h
      exact ⟨tails, rfl, rfl⟩

/-- What a successful expansion does at the first segment: fan out, stop at a last
segment, or take a step. -/
theorem expand_cons_cases {s : Segment} {rest : List Segment} {v : Value}
    {places : List (List Segment)} (h : expand (s :: rest) v = .ok places) :
    (s = .wildcard ∧ ∃ g : Segment × Value → List (List Segment),
      (∀ b ∈ v.children, ∃ tails, expand rest b.2 = .ok tails ∧ g b = tails.map (b.1 :: ·)) ∧
      places = v.children.flatMap g) ∨
    (s ≠ .wildcard ∧ rest = [] ∧ places = [[s]]) ∨
    (s ≠ .wildcard ∧ rest ≠ [] ∧ ∃ c tails, v.child s = .ok c ∧ expand rest c = .ok tails ∧
      places = tails.map (s :: ·)) := by
  rw [expand_cons] at h
  split at h
  · rename_i hs
    obtain ⟨g, hg, rfl⟩ := Result.exists_answers_of_gather h
    exact .inl ⟨Segment.isWildcard_iff.1 hs, g, fun b hb => exists_tails_of_prefixed (hg b hb), rfl⟩
  · rename_i hs
    have hs : s ≠ .wildcard := fun e => hs (Segment.isWildcard_iff.2 e)
    split at h
    · -- A last segment is not followed.
      rename_i hrest
      cases h
      exact .inr (.inl ⟨hs, List.isEmpty_iff.1 hrest, rfl⟩)
    · rename_i hrest
      cases hc : v.child s with
      | error m =>
          rw [hc] at h
          cases h
      | ok c =>
          rw [hc] at h
          obtain ⟨tails, htails, rfl⟩ := exists_tails_of_prefixed h
          exact .inr (.inr ⟨hs, fun e => hrest (by simp [e]), c, tails, rfl, htails, rfl⟩)

/-! ## Instances, one step at a time -/

namespace Instantiates

variable {v c : Value} {s t : Segment} {query place rest tail : List Segment}

/-- An instance of a query with a first segment takes a first step. -/
theorem exists_cons (h : Instantiates v (s :: rest) place) : ∃ t tail, place = t :: tail := by
  cases place with
  | nil => exact absurd h.length_eq (by simp)
  | cons t tail => exact ⟨t, tail, rfl⟩

/-- A step of an instance is never the wildcard. -/
theorem wildcard_not_mem (h : Instantiates v query place) : Segment.wildcard ∉ place := by
  intro hw
  obtain ⟨i, hi, hget⟩ := List.mem_iff_getElem.1 hw
  have hplace : place[i]? = some .wildcard := by
    rw [List.getElem?_eq_getElem hi, hget]
  obtain ⟨s, hs⟩ : ∃ s, query[i]? = some s :=
    ⟨_, List.getElem?_eq_getElem (h.length_eq ▸ hi)⟩
  -- Neither a step to a child nor a segment taken over is the wildcard.
  by_cases hwild : s = .wildcard
  · obtain ⟨node, t, c, -, ht, hmem⟩ := h.branch i (hwild ▸ hs)
    rw [hplace] at ht
    cases ht
    exact Value.ne_wildcard_of_mem_children hmem rfl
  · have hfixed := h.fixed i s hs hwild
    rw [hplace] at hfixed
    cases hfixed
    exact hwild rfl

end Instantiates

/-- Below a step that can be taken, being an instance is agreeing with the first segment
and being an instance of the rest from there. -/
theorem instantiates_cons_of_child {v c : Value} {s t : Segment} {rest tail : List Segment}
    (hc : v.child t = .ok c) :
    Instantiates v (s :: rest) (t :: tail) ↔
      (s ≠ .wildcard → t = s) ∧ (s = .wildcard → ∃ d, (t, d) ∈ v.children) ∧
        Instantiates c rest tail := by
  refine ⟨fun h => ?_, fun h => ?_⟩
  · refine ⟨fun hs => ?_, fun hs => ?_, ?_, ?_, ?_, ?_⟩
    · have h0 := h.fixed 0 s rfl hs
      simpa using h0
    · obtain ⟨node, t', d, hnode, ht, hd⟩ := h.branch 0 (by simp [hs])
      cases hnode
      cases ht
      exact ⟨d, hd⟩
    · simpa using h.length_eq
    · intro i s' hs' hne
      exact h.fixed (i + 1) s' hs' hne
    · intro i hi
      obtain ⟨node, t', d, hnode, ht, hd⟩ := h.branch (i + 1) hi
      rw [List.take_succ_cons, Value.follow_cons_of_child hc] at hnode
      exact ⟨node, t', d, hnode, ht, hd⟩
    · obtain ⟨node, hnode⟩ := h.parent
      cases tail with
      | nil => exact ⟨c, rfl⟩
      | cons t' tail =>
          rw [List.dropLast_cons_cons, Value.follow_cons_of_child hc] at hnode
          exact ⟨node, hnode⟩
  · obtain ⟨hfixed, hbranch, h⟩ := h
    refine ⟨by simp [h.length_eq], ?_, ?_, ?_⟩
    · intro i s' hs' hne
      cases i with
      | zero =>
          cases hs'
          simp [hfixed hne]
      | succ i => exact h.fixed i s' hs' hne
    · intro i hi
      cases i with
      | zero =>
          obtain ⟨d, hd⟩ := hbranch (by simpa using hi)
          exact ⟨v, t, d, rfl, rfl, hd⟩
      | succ i =>
          obtain ⟨node, t', d, hnode, ht, hd⟩ := h.branch i hi
          exact ⟨node, t', d, by rw [List.take_succ_cons, Value.follow_cons_of_child hc, hnode],
            ht, hd⟩
    · obtain ⟨node, hnode⟩ := h.parent
      cases tail with
      | nil => exact ⟨v, rfl⟩
      | cons t' tail =>
          exact ⟨node, by rw [List.dropLast_cons_cons, Value.follow_cons_of_child hc, hnode]⟩

/-- An instance of a query that starts with the wildcard goes through a child. -/
theorem instantiates_wildcard_cons_iff {v : Value} (hv : v.WellFormed)
    {rest place : List Segment} :
    Instantiates v (.wildcard :: rest) place ↔
      ∃ t c tail, (t, c) ∈ v.children ∧ Instantiates c rest tail ∧ place = t :: tail := by
  refine ⟨fun h => ?_, fun h => ?_⟩
  · obtain ⟨t, tail, rfl⟩ := h.exists_cons
    obtain ⟨node, t', c, hnode, ht, hb⟩ := h.branch 0 rfl
    cases hnode
    cases ht
    have hc := Value.child_of_mem_children hv hb
    exact ⟨t, c, tail, hb, ((instantiates_cons_of_child hc).1 h).2.2, rfl⟩
  · obtain ⟨t, c, tail, hb, hsub, rfl⟩ := h
    have hc := Value.child_of_mem_children hv hb
    exact (instantiates_cons_of_child hc).2 ⟨fun hne => absurd rfl hne, fun _ => ⟨c, hb⟩, hsub⟩

/-- A last segment that is not the wildcard has itself as its only instance. -/
theorem instantiates_singleton_iff {v : Value} {s : Segment} (hs : s ≠ .wildcard)
    {place : List Segment} : Instantiates v [s] place ↔ place = [s] := by
  refine ⟨fun h => ?_, fun h => ?_⟩
  · obtain ⟨t, tail, rfl⟩ := h.exists_cons
    have htail : tail = [] := List.eq_nil_of_length_eq_zero (by simpa using h.length_eq)
    have h0 := h.fixed 0 s rfl hs
    simp only [List.getElem?_cons_zero, Option.some.injEq] at h0
    rw [h0, htail]
  · subst h
    refine ⟨rfl, fun i s' hs' _ => hs', fun i hi => ?_, v, rfl⟩
    cases i with
    | zero => exact absurd (by simpa using hi) hs
    | succ i => simp at hi

/-- Where the first step of a query can be taken, its instances take it. -/
theorem instantiates_step_cons_iff {v c : Value} {s : Segment} (hs : s ≠ .wildcard)
    {rest place : List Segment} (hc : v.child s = .ok c) :
    Instantiates v (s :: rest) place ↔ ∃ tail, Instantiates c rest tail ∧ place = s :: tail := by
  refine ⟨fun h => ?_, fun h => ?_⟩
  · obtain ⟨t, tail, rfl⟩ := h.exists_cons
    obtain rfl : t = s := by simpa using h.fixed 0 s rfl hs
    exact ⟨tail, ((instantiates_cons_of_child hc).1 h).2.2, rfl⟩
  · obtain ⟨tail, hsub, rfl⟩ := h
    exact (instantiates_cons_of_child hc).2 ⟨fun _ => rfl, fun e => absurd e hs, hsub⟩

/-! ## Places are instances -/

/-- A place is listed exactly when it is an instance of the query. -/
theorem mem_expand_iff {query : List Segment} {v : Value} (hv : v.WellFormed)
    {places : List (List Segment)} (h : expand query v = .ok places) {place : List Segment} :
    place ∈ places ↔ Instantiates v query place := by
  induction query generalizing v places place with
  | nil =>
      cases h
      rw [List.mem_singleton, instantiates_nil_iff]
  | cons s rest ih =>
      rcases expand_cons_cases h with ⟨rfl, g, hg, rfl⟩ | ⟨hs, rfl, rfl⟩ |
        ⟨hs, -, c, tails, hc, htails, rfl⟩
      · rw [List.mem_flatMap, instantiates_wildcard_cons_iff hv]
        refine ⟨fun h => ?_, fun h => ?_⟩
        · obtain ⟨⟨t, c⟩, hb, hplace⟩ := h
          obtain ⟨tails, htails, hgb⟩ := hg _ hb
          rw [hgb, List.mem_map] at hplace
          obtain ⟨tail, htail, rfl⟩ := hplace
          exact ⟨t, c, tail, hb, (ih (hv.of_mem_children hb) htails).1 htail, rfl⟩
        · obtain ⟨t, c, tail, hb, hsub, rfl⟩ := h
          obtain ⟨tails, htails, hgb⟩ := hg _ hb
          refine ⟨(t, c), hb, ?_⟩
          rw [hgb]
          exact List.mem_map_of_mem ((ih (hv.of_mem_children hb) htails).2 hsub)
      · rw [List.mem_singleton, instantiates_singleton_iff hs]
      · rw [List.mem_map, instantiates_step_cons_iff hs hc]
        refine ⟨fun h => ?_, fun h => ?_⟩
        · obtain ⟨tail, htail, rfl⟩ := h
          exact ⟨tail, (ih (hv.child hc) htails).1 htail, rfl⟩
        · obtain ⟨tail, hsub, rfl⟩ := h
          exact ⟨tail, (ih (hv.child hc) htails).2 hsub, rfl⟩

/-- Where the last segment is the wildcard, an instance leads to a value. -/
theorem Instantiates.exists_follow {v : Value} (hv : v.WellFormed)
    {query place : List Segment} (h : Instantiates v query place)
    (hlast : query = [] ∨ query.getLast? = some .wildcard) : ∃ x, v.follow place = .ok x := by
  rcases hlast with rfl | hlast
  · rw [instantiates_nil_iff.1 h]
    exact ⟨v, rfl⟩
  · rw [List.getLast?_eq_getElem?] at hlast
    obtain ⟨node, s, c, hnode, hs, hc⟩ := h.branch _ hlast
    rw [← h.length_eq] at hnode hs
    obtain ⟨hlt, rfl⟩ := List.getElem?_eq_some_iff.1 hs
    have hsplit : place.take (place.length - 1) ++ [place[place.length - 1]] = place := by
      rw [List.take_append_getElem hlt, Nat.sub_add_cancel (by omega), List.take_length]
    refine ⟨c, ?_⟩
    rw [← hsplit, Value.follow_append, hnode]
    exact Value.follow_cons_of_child (Value.child_of_mem_children (hv.follow hnode) hc) []

/-! ## Document order -/

/-- Order below a step is order from before it. -/
theorem Precedes.cons {v c : Value} {s : Segment} (hc : v.child s = .ok c)
    {p q : List Segment} (h : Precedes c p q) : Precedes v (s :: p) (s :: q) := by
  obtain ⟨i, node, j, k, htake, hnode, hjk, hp, hq⟩ := h
  refine ⟨i + 1, node, j, k, ?_, ?_, hjk, hp, hq⟩
  · rw [List.take_succ_cons, List.take_succ_cons, htake]
  · rw [List.take_succ_cons, Value.follow_cons_of_child hc, hnode]

/-- Places through an earlier child precede those through a later one. -/
theorem precedes_of_children {v : Value} {j k : Nat} (hjk : j < k) (hk : k < v.children.length)
    (p q : List Segment) :
    Precedes v (v.children[j].1 :: p) (v.children[k].1 :: q) := by
  refine ⟨0, v, j, k, rfl, rfl, hjk, ⟨_, rfl, ?_⟩, ⟨_, rfl, ?_⟩⟩
  · rw [List.getElem?_eq_getElem (Nat.lt_trans hjk hk)]
    rfl
  · rw [List.getElem?_eq_getElem hk]
    rfl

/-- The places are listed in document order. -/
theorem pairwise_precedes_expand {query : List Segment} {v : Value} (hv : v.WellFormed)
    {places : List (List Segment)} (h : expand query v = .ok places) :
    places.Pairwise (Precedes v) := by
  induction query generalizing v places with
  | nil =>
      cases h
      exact List.pairwise_singleton _ _
  | cons s rest ih =>
      rcases expand_cons_cases h with ⟨rfl, g, hg, rfl⟩ | ⟨-, rfl, rfl⟩ |
        ⟨-, -, c, tails, hc, htails, rfl⟩
      · rw [List.pairwise_flatMap]
        refine ⟨fun b hb => ?_, ?_⟩
        · obtain ⟨t, c⟩ := b
          obtain ⟨tails, htails, hgb⟩ := hg _ hb
          have hc := Value.child_of_mem_children hv hb
          rw [hgb, List.pairwise_map]
          exact (ih (hv.child hc) htails).imp fun hpq => hpq.cons hc
        · -- Places through different children are in the order of the children.
          rw [List.pairwise_iff_getElem]
          intro j k hj hk hjk p hp q hq
          obtain ⟨ps, -, hgj⟩ := hg _ (List.getElem_mem hj)
          obtain ⟨qs, -, hgk⟩ := hg _ (List.getElem_mem hk)
          rw [hgj] at hp
          rw [hgk] at hq
          obtain ⟨p, -, rfl⟩ := List.mem_map.1 hp
          obtain ⟨q, -, rfl⟩ := List.mem_map.1 hq
          exact precedes_of_children hjk hk p q
      · exact List.pairwise_singleton _ _
      · rw [List.pairwise_map]
        exact (ih (hv.child hc) htails).imp fun hpq => hpq.cons hc

/-- Of two places in order, some step has another name. -/
theorem Precedes.map_memberName?_ne {v : Value} (hv : v.WellFormed) {p q : List Segment}
    (h : Precedes v p q) : p.map Segment.memberName? ≠ q.map Segment.memberName? := by
  obtain ⟨i, node, j, k, -, hnode, hjk, ⟨s, hs, hsj⟩, ⟨t, ht, htk⟩⟩ := h
  intro hmap
  have hi : (p.map Segment.memberName?)[i]? = (q.map Segment.memberName?)[i]? := by rw [hmap]
  rw [List.getElem?_map, List.getElem?_map, hs, ht] at hi
  exact Value.memberName?_ne_of_getElem?_children (hv.follow hnode) hjk hsj htk
    (Option.some.inj hi)

/-! ## The places of a path -/

namespace Path

variable {d : Value} {q : Path} {places : List Path}

theorem exists_expand_of_queryPaths (h : q.queryPaths d = .ok places) :
    ∃ lists, expand q.segments d = .ok lists ∧ places = lists.map ofSegments := by
  rw [queryPaths] at h
  cases hx : expand q.segments d with
  | error e =>
      rw [hx] at h
      cases h
  | ok lists =>
      rw [hx] at h
      cases h
      exact ⟨lists, rfl, rfl⟩

theorem mem_queryPaths_iff (hd : d.WellFormed) (h : q.queryPaths d = .ok places) {p : Path} :
    p ∈ places ↔ p.form = .pointer ∧ Instantiates d q.segments p.segments := by
  obtain ⟨lists, hlists, rfl⟩ := exists_expand_of_queryPaths h
  rw [List.mem_map]
  refine ⟨fun h => ?_, fun h => ?_⟩
  · obtain ⟨place, hplace, rfl⟩ := h
    exact ⟨rfl, (mem_expand_iff hd hlists).1 hplace⟩
  · obtain ⟨hform, hinst⟩ := h
    refine ⟨p.segments, (mem_expand_iff hd hlists).2 hinst, ?_⟩
    rw [ofSegments, ← hform]

/-- A query lists its instances, each once and in document order, as pointers without
wildcards. Where the query is the root or ends in the wildcard, they all lead to values. -/
theorem queryPaths_lists_instances (hd : d.WellFormed) (h : q.queryPaths d = .ok places) :
    (∀ p : Path, p ∈ places ↔
      p.form = .pointer ∧ p.isConcrete = true ∧ Instantiates d q.segments p.segments) ∧
    places.Pairwise (fun p r => Precedes d p.segments r.segments) ∧
    places.Pairwise (fun p r => p.same r = false) ∧
    (q.isRoot = true ∨ q.last? = some .wildcard → ∀ p ∈ places, ∃ x, d.get p = .ok x) := by
  have hmem := fun p => mem_queryPaths_iff hd h (p := p)
  have hsorted : places.Pairwise fun p r => Precedes d p.segments r.segments := by
    obtain ⟨lists, hlists, rfl⟩ := exists_expand_of_queryPaths h
    rw [List.pairwise_map]
    exact pairwise_precedes_expand hd hlists
  refine ⟨fun p => ?_, hsorted, hsorted.imp fun hpr => ?_, fun hlast p hp => ?_⟩
  · rw [hmem p]
    refine ⟨fun h => ?_, fun h => ⟨h.1, h.2.2⟩⟩
    exact ⟨h.1, isConcrete_iff.2 h.2.wildcard_not_mem, h.2⟩
  · rw [← Bool.not_eq_true, same_iff]
    exact hpr.map_memberName?_ne hd
  · have hinst := ((hmem p).1 hp).2
    have hlast' : q.segments = [] ∨ q.segments.getLast? = some .wildcard :=
      hlast.imp_left List.isEmpty_iff.1
    obtain ⟨x, hx⟩ := hinst.exists_follow hd hlast'
    exact ⟨x, by rw [Value.get, hx]; rfl⟩

/-- Two wildcards go through members and elements, and past a leaf, which has no children.
The names `0` and `-` are listed as names. -/
theorem queryPaths_lists_instances_nested :
    let d : Value := .object [(utf8 "a", .object [(utf8 "0", .null), (utf8 "-", .bool true)]),
      (utf8 "b", .null), (utf8 "c", .array [.bool false])]
    let places := [ofSegments [.key (utf8 "a"), .key (utf8 "0")],
      ofSegments [.key (utf8 "a"), .key (utf8 "-")], ofSegments [.key (utf8 "c"), .index 0]]
    d.WellFormed ∧ queryPaths ⟨.query, [.wildcard, .wildcard]⟩ d = .ok places ∧
      (∀ p : Path, p ∈ places ↔ p.form = .pointer ∧ p.isConcrete = true ∧
        Instantiates d [.wildcard, .wildcard] p.segments) ∧
      (∀ p ∈ places, ∃ x, d.get p = .ok x) := by
  intro d places
  have hd : d.WellFormed := by decide
  have h : queryPaths ⟨.query, [.wildcard, .wildcard]⟩ d = .ok places := rfl
  obtain ⟨hmem, -, -, hvalues⟩ := queryPaths_lists_instances hd h
  exact ⟨hd, h, hmem, hvalues (.inr rfl)⟩

end Path

end TreePatch
