import TreePatch.Proofs.Query.Concrete

set_option autoImplicit false

/-!
# Where a query fails

A query fails at a dead end: a place that one of the query's own segments names before the
query is at its end, whose parent is there and which is not there itself. `IsDeadEnd` says
this without walking the document, with `Instantiates` for the part of the query that was
walked.

* `not_isDeadEnd_of_expand`: where an expansion succeeds there is no dead end.
* `isDeadEnd_of_expand`: where it fails, it reports a dead end that precedes all others in
  the document.
* `Path.queryPaths_fails_at_first_deadEnd`: a query fails exactly if it has a dead end, and
  as a look-up of the first one does.
-/

namespace TreePatch

/-- The steps are a dead end of a query: they instantiate a part of it that is followed by
more, the last is the query's own segment, and it cannot be taken. -/
structure IsDeadEnd (v : Value) (query trail : List Segment) : Prop where
  /-- The query goes on. -/
  length_lt : trail.length < query.length
  /-- The steps agree with the query as far as they go, and all but the last can be taken. -/
  instantiates : Instantiates v (query.take trail.length) trail
  /-- The last step is not one that a wildcard stands for. -/
  fixed : ∃ s, query[trail.length - 1]? = some s ∧ s ≠ .wildcard
  /-- The last step cannot be taken. -/
  fails : ∃ m, v.follow trail = .error m

/-! ## Dead ends, one step at a time -/

section Steps

variable {v c : Value} {s t : Segment} {query rest tail trail : List Segment}

/-- A dead end takes a step. -/
theorem IsDeadEnd.exists_cons (h : IsDeadEnd v query trail) : ∃ t tail, trail = t :: tail := by
  cases trail with
  | nil =>
      obtain ⟨m, hm⟩ := h.fails
      cases hm
  | cons t tail => exact ⟨t, tail, rfl⟩

/-- Below a step that can be taken, being a dead end is agreeing with the first segment and
being a dead end of the rest from there. -/
theorem isDeadEnd_cons_of_child (hc : v.child t = .ok c) :
    IsDeadEnd v (s :: rest) (t :: tail) ↔
      (s ≠ .wildcard → t = s) ∧ (s = .wildcard → ∃ d, (t, d) ∈ v.children) ∧
        IsDeadEnd c rest tail := by
  refine ⟨fun h => ?_, fun h => ?_⟩
  · obtain ⟨hlen, hinst, ⟨u, hu, hwild⟩, ⟨m, hm⟩⟩ := h
    obtain ⟨hfixed, hbranch, hsub⟩ := (instantiates_cons_of_child hc).1 hinst
    rw [Value.follow_cons_of_child hc] at hm
    refine ⟨hfixed, hbranch, by simpa using hlen, hsub, ⟨u, ?_, hwild⟩, m, hm⟩
    cases tail with
    | nil => cases hm
    | cons t' tail => exact hu
  · obtain ⟨hfixed, hbranch, h⟩ := h
    obtain ⟨t', tail, rfl⟩ := h.exists_cons
    obtain ⟨hlen, hinst, hlast, ⟨m, hm⟩⟩ := h
    refine ⟨by simpa using hlen, ?_, hlast, m, ?_⟩
    · exact (instantiates_cons_of_child hc).2 ⟨hfixed, hbranch, hinst⟩
    · rw [Value.follow_cons_of_child hc, hm]

/-- A dead end of a query that starts with the wildcard lies below a child. -/
theorem isDeadEnd_wildcard_cons_iff (hv : v.WellFormed) :
    IsDeadEnd v (.wildcard :: rest) trail ↔
      ∃ t c tail, (t, c) ∈ v.children ∧ IsDeadEnd c rest tail ∧ trail = t :: tail := by
  refine ⟨fun h => ?_, fun h => ?_⟩
  · obtain ⟨t, tail, rfl⟩ := h.exists_cons
    obtain ⟨node, t', c, hnode, ht, hb⟩ := h.instantiates.branch 0 rfl
    cases hnode
    cases ht
    have hc := Value.child_of_mem_children hv hb
    exact ⟨t, c, tail, hb, ((isDeadEnd_cons_of_child hc).1 h).2.2, rfl⟩
  · obtain ⟨t, c, tail, hb, hsub, rfl⟩ := h
    have hc := Value.child_of_mem_children hv hb
    exact (isDeadEnd_cons_of_child hc).2 ⟨fun hne => absurd rfl hne, fun _ => ⟨c, hb⟩, hsub⟩

/-- A dead end of a query with a first segment of its own takes it. -/
theorem IsDeadEnd.head_eq (hs : s ≠ .wildcard) (h : IsDeadEnd v (s :: rest) trail) :
    ∃ tail, trail = s :: tail := by
  obtain ⟨t, tail, rfl⟩ := h.exists_cons
  obtain rfl : t = s := by simpa using h.instantiates.fixed 0 s rfl hs
  exact ⟨tail, rfl⟩

/-- A query of one segment has no dead end, since its last segment is not followed. -/
theorem not_isDeadEnd_singleton : ¬IsDeadEnd v [s] trail := by
  intro h
  obtain ⟨t, tail, rfl⟩ := h.exists_cons
  exact absurd h.length_lt (by simp)

/-- Where the first segment can be taken, the dead ends lie below it. -/
theorem isDeadEnd_step_cons_iff (hs : s ≠ .wildcard) (hc : v.child s = .ok c) :
    IsDeadEnd v (s :: rest) trail ↔ ∃ tail, IsDeadEnd c rest tail ∧ trail = s :: tail := by
  refine ⟨fun h => ?_, fun h => ?_⟩
  · obtain ⟨tail, rfl⟩ := h.head_eq hs
    exact ⟨tail, ((isDeadEnd_cons_of_child hc).1 h).2.2, rfl⟩
  · obtain ⟨tail, hsub, rfl⟩ := h
    exact (isDeadEnd_cons_of_child hc).2 ⟨fun _ => rfl, fun e => absurd e hs, hsub⟩

/-- Where the first of several segments cannot be taken, it is the dead end. -/
theorem isDeadEnd_error_cons_iff (hs : s ≠ .wildcard) (hrest : rest ≠ []) {m : Misstep}
    (hm : v.child s = .error m) : IsDeadEnd v (s :: rest) trail ↔ trail = [s] := by
  refine ⟨fun h => ?_, fun h => ?_⟩
  · obtain ⟨tail, rfl⟩ := h.head_eq hs
    cases tail with
    | nil => rfl
    | cons t tail =>
        -- The parent of a longer one would be reached through the step.
        obtain ⟨node, hnode⟩ := h.instantiates.parent
        rw [List.dropLast_cons_cons, Value.follow_cons_of_error hm] at hnode
        cases hnode
  · subst h
    refine ⟨?_, (instantiates_singleton_iff hs).2 rfl, ⟨s, rfl, hs⟩, m,
      Value.follow_cons_of_error hm []⟩
    simpa using List.length_pos_iff.2 hrest

end Steps

/-! ## Expansions that succeed and expansions that fail -/

variable {v : Value} {query : List Segment} {e : DeadEnd}

/-- A query that is expanded has no dead end. -/
theorem not_isDeadEnd_of_expand (hv : v.WellFormed) {places : List (List Segment)}
    (h : expand query v = .ok places) (trail : List Segment) : ¬IsDeadEnd v query trail := by
  induction query generalizing v places trail with
  | nil => exact fun hdead => absurd hdead.length_lt (Nat.not_lt_zero _)
  | cons s rest ih =>
      rcases expand_cons_cases h with ⟨rfl, g, hg, -⟩ | ⟨-, rfl, -⟩ |
        ⟨hs, -, c, tails, hc, htails, -⟩
      · rw [isDeadEnd_wildcard_cons_iff hv]
        rintro ⟨t, c, tail, hb, hsub, -⟩
        obtain ⟨tails, htails, -⟩ := hg _ hb
        exact ih (hv.of_mem_children hb) htails tail hsub
      · exact not_isDeadEnd_singleton
      · rw [isDeadEnd_step_cons_iff hs hc]
        rintro ⟨tail, hsub, -⟩
        exact ih (hv.child hc) htails tail hsub

theorem exists_of_after {s : Segment} {r : Except DeadEnd (List (List Segment))}
    (h : (match r with
      | .error e' => .error (e'.after s)
      | .ok tails => .ok (tails.map (s :: ·))) = Except.error e) :
    ∃ e', r = .error e' ∧ e = e'.after s := by
  cases r with
  | error e' =>
      cases h
      exact ⟨e', rfl, rfl⟩
  | ok tails => cases h

/-- What an expansion does at the first segment if it fails: it fails below the first child
below which it does, or at a step, or below a step. -/
theorem expand_cons_error_cases {s : Segment} {rest : List Segment}
    (h : expand (s :: rest) v = .error e) :
    (s = .wildcard ∧ ∃ before b after e', v.children = before ++ b :: after ∧
      (∀ a ∈ before, ∃ places, expand rest a.2 = .ok places) ∧
      expand rest b.2 = .error e' ∧ e = e'.after b.1) ∨
    (s ≠ .wildcard ∧ rest ≠ [] ∧ ∃ m, v.child s = .error m ∧ e = ⟨[s], m⟩) ∨
    (s ≠ .wildcard ∧ rest ≠ [] ∧ ∃ c e', v.child s = .ok c ∧ expand rest c = .error e' ∧
      e = e'.after s) := by
  rw [expand_cons] at h
  split at h
  · rename_i hs
    obtain ⟨before, b, after, hchildren, hbefore, hb⟩ := Result.gather_eq_error_iff.1 h
    obtain ⟨e', he', rfl⟩ := exists_of_after hb
    refine .inl ⟨Segment.isWildcard_iff.1 hs, before, b, after, e', hchildren, ?_, he', rfl⟩
    intro a ha
    obtain ⟨places, hplaces⟩ := hbefore a ha
    obtain ⟨tails, htails, -⟩ := exists_tails_of_prefixed hplaces
    exact ⟨tails, htails⟩
  · rename_i hs
    have hs : s ≠ .wildcard := fun e => hs (Segment.isWildcard_iff.2 e)
    split at h
    · cases h
    · rename_i hrest
      have hrest : rest ≠ [] := fun e => hrest (by simp [e])
      cases hc : v.child s with
      | error m =>
          rw [hc] at h
          cases h
          exact .inr (.inl ⟨hs, hrest, m, rfl, rfl⟩)
      | ok c =>
          rw [hc] at h
          obtain ⟨e', he', rfl⟩ := exists_of_after h
          exact .inr (.inr ⟨hs, hrest, c, e', rfl, he', rfl⟩)

/-- An expansion that fails reports a dead end, with the misstep there, and every other dead
end comes later in the document. -/
theorem isDeadEnd_of_expand (hv : v.WellFormed) (h : expand query v = .error e) :
    IsDeadEnd v query e.trail ∧ v.follow e.trail = .error e.misstep ∧
      ∀ trail, IsDeadEnd v query trail → trail = e.trail ∨ Precedes v e.trail trail := by
  induction query generalizing v e with
  | nil => cases h
  | cons s rest ih =>
      rcases expand_cons_error_cases h with
        ⟨rfl, before, b, after, e', hchildren, hbefore, he', rfl⟩ | ⟨hs, hrest, m, hm, rfl⟩ |
        ⟨hs, -, c, e', hc, he', rfl⟩
      · have hb : (b.1, b.2) ∈ v.children := by
          rw [hchildren]
          exact List.mem_append_right _ List.mem_cons_self
        have hc := Value.child_of_mem_children hv hb
        obtain ⟨hdead, hfollow, hfirst⟩ := ih (hv.child hc) he'
        refine ⟨(isDeadEnd_wildcard_cons_iff hv).2 ⟨b.1, b.2, e'.trail, hb, hdead, rfl⟩, ?_, ?_⟩
        · exact (Value.follow_cons_of_child hc _).trans hfollow
        · intro trail htrail
          obtain ⟨t, d, tail, hd, hsub, rfl⟩ := (isDeadEnd_wildcard_cons_iff hv).1 htrail
          rw [hchildren, List.mem_append, List.mem_cons] at hd
          rcases hd with hd | hd | hd
          · -- Below the earlier children the expansion succeeds.
            obtain ⟨places, hplaces⟩ := hbefore _ hd
            have hmem : (t, d) ∈ v.children := by
              rw [hchildren]
              exact List.mem_append_left _ hd
            exact absurd hsub (not_isDeadEnd_of_expand (hv.of_mem_children hmem) hplaces tail)
          · obtain rfl := hd
            rcases hfirst tail hsub with rfl | hprecedes
            · exact .inl rfl
            · exact .inr (hprecedes.cons hc)
          · obtain ⟨k, hk, hkd⟩ := List.mem_iff_getElem.1 hd
            have hlater := precedes_of_children (v := v) (j := before.length)
              (k := before.length + (k + 1)) (by omega) (by simp [hchildren]; omega) e'.trail tail
            simp only [hchildren, List.getElem_append_right (Nat.le_refl _), Nat.sub_self,
              List.getElem_cons_zero, List.getElem_append_right (Nat.le_add_right _ _),
              Nat.add_sub_cancel_left, List.getElem_cons_succ, hkd] at hlater
            exact .inr hlater
      · have hdead : ∀ trail, IsDeadEnd v (s :: rest) trail ↔ trail = [s] :=
          fun _ => isDeadEnd_error_cons_iff hs hrest hm
        exact ⟨(hdead [s]).2 rfl, Value.follow_cons_of_error hm [],
          fun trail htrail => .inl ((hdead trail).1 htrail)⟩
      · obtain ⟨hdead, hfollow, hfirst⟩ := ih (hv.child hc) he'
        refine ⟨(isDeadEnd_step_cons_iff hs hc).2 ⟨e'.trail, hdead, rfl⟩, ?_, ?_⟩
        · exact (Value.follow_cons_of_child hc _).trans hfollow
        · intro trail htrail
          obtain ⟨tail, hsub, rfl⟩ := (isDeadEnd_step_cons_iff hs hc).1 htrail
          rcases hfirst tail hsub with rfl | hprecedes
          · exact .inl rfl
          · exact .inr (hprecedes.cons hc)

/-- Without wildcards an expansion fails as following all segments but the last does. -/
theorem follow_dropLast_of_expand (hw : Segment.wildcard ∉ query)
    (h : expand query v = .error e) : v.follow query.dropLast = .error e.misstep := by
  induction query generalizing v e with
  | nil => cases h
  | cons s rest ih =>
      obtain ⟨hs, hrest⟩ := List.ne_and_not_mem_of_not_mem_cons hw
      rcases expand_cons_error_cases h with ⟨rfl, -⟩ | ⟨-, hne, m, hm, rfl⟩ |
        ⟨-, hne, c, e', hc, he', rfl⟩
      · exact absurd rfl hs
      · rw [List.dropLast_cons_of_ne_nil hne, Value.follow_cons_of_error hm]
      · rw [List.dropLast_cons_of_ne_nil hne, Value.follow_cons_of_child hc]
        exact (ih hrest he').trans rfl

/-! ## Queries -/

namespace Path

variable {d : Value} {q : Path} {fault : Fault}

theorem exists_expand_of_queryPaths_eq_error (h : q.queryPaths d = .error fault) :
    ∃ e, expand q.segments d = .error e ∧ fault = e.fault := by
  rw [queryPaths] at h
  cases hx : expand q.segments d with
  | error e =>
      rw [hx] at h
      cases h
      exact ⟨e, rfl, rfl⟩
  | ok places =>
      rw [hx] at h
      cases h

/-- The fault of a dead end has the kind of a look-up that makes the same misstep. -/
theorem exists_fault_of_follow {p : Path} (h : d.follow p.segments = .error e.misstep) :
    ∃ f, d.get p = .error f ∧ e.fault.kind = f.kind := by
  refine ⟨p.fault (.misstep e.misstep), ?_, rfl⟩
  rw [Value.get, h]
  rfl

/-- In a document whose objects have distinct names, a query fails exactly if it has a dead
end. Its fault cites the first dead end of the document as a pointer and has the kind that
looking up this pointer has. A path without wildcards, whatever the document, addresses itself
if its parent is there, and otherwise fails with the kind that looking up the parent has. -/
theorem queryPaths_fails_at_first_deadEnd (d : Value) (q : Path) :
    (d.WellFormed →
      ((∃ fault, q.queryPaths d = .error fault) ↔ ∃ trail, IsDeadEnd d q.segments trail) ∧
      ∀ fault, q.queryPaths d = .error fault → ∃ trail, IsDeadEnd d q.segments trail ∧
        (∀ other, IsDeadEnd d q.segments other → other = trail ∨ Precedes d trail other) ∧
        (ofSegments trail).canonical = .ok fault.path ∧
        ∃ f, d.get (ofSegments trail) = .error f ∧ fault.kind = f.kind) ∧
    (q.isConcrete = true →
      (∀ places, q.queryPaths d = .ok places ↔
        places = [q.asPointer] ∧ ∃ x, d.get q.parent = .ok x) ∧
      ∀ fault, q.queryPaths d = .error fault →
        ∃ f, d.get q.parent = .error f ∧ fault.kind = f.kind) := by
  refine ⟨fun hd => ⟨⟨fun h => ?_, fun h => ?_⟩, fun fault h => ?_⟩, fun hconcrete => ?_⟩
  · obtain ⟨fault, hfault⟩ := h
    obtain ⟨e, he, -⟩ := exists_expand_of_queryPaths_eq_error hfault
    exact ⟨e.trail, (isDeadEnd_of_expand hd he).1⟩
  · obtain ⟨trail, hdead⟩ := h
    cases hx : expand q.segments d with
    | ok places => exact absurd hdead (not_isDeadEnd_of_expand hd hx trail)
    | error e => exact ⟨e.fault, by rw [queryPaths, hx]⟩
  · obtain ⟨e, he, rfl⟩ := exists_expand_of_queryPaths_eq_error h
    obtain ⟨hdead, hfollow, hfirst⟩ := isDeadEnd_of_expand hd he
    refine ⟨e.trail, hdead, hfirst, ?_, exists_fault_of_follow hfollow⟩
    exact canonical_of_concrete hdead.instantiates.wildcard_not_mem
  · have hw := isConcrete_iff.1 hconcrete
    refine ⟨fun places => queryPaths_eq_ok_iff_of_concrete hw, fun fault h => ?_⟩
    obtain ⟨e, he, rfl⟩ := exists_expand_of_queryPaths_eq_error h
    exact exists_fault_of_follow (p := q.parent) (follow_dropLast_of_expand hw he)

/-- Two of the three items are dead ends, in two ways. The first of them is reported. A query
without wildcards that goes on from it fails in the same way. -/
theorem queryPaths_fails_at_first_deadEnd_items :
    let d : Value := .object [(utf8 "items", .array [
      .object [(utf8 "price", .object [(utf8 "net", .null)])], .bool true, .object []])]
    let q : Path := ⟨.query, [.key (utf8 "items"), .wildcard, .key (utf8 "price"),
      .key (utf8 "net")]⟩
    let q' : Path := ⟨.query, [.key (utf8 "items"), .index 1, .key (utf8 "price"), .append]⟩
    let p := ofSegments [.key (utf8 "items"), .index 1, .key (utf8 "price")]
    let fault := p.fault (.deadEnd (.notAnObject (utf8 "price") .boolean))
    d.WellFormed ∧ q.queryPaths d = .error fault ∧
      (∃ trail, IsDeadEnd d q.segments trail ∧
        (∀ other, IsDeadEnd d q.segments other → other = trail ∨ Precedes d trail other) ∧
        (ofSegments trail).canonical = .ok (utf8 "/items/1/price") ∧
        ∃ f, d.get (ofSegments trail) = .error f ∧ f.kind = .invalidPathSegment) ∧
      q'.isConcrete = true ∧ q'.queryPaths d = .error fault ∧
      ∃ f, d.get q'.parent = .error f ∧ f.kind = .invalidPathSegment := by
  intro d q q' p fault
  have hd : d.WellFormed := by decide
  have h : q.queryPaths d = .error fault := rfl
  have hconcrete : q'.isConcrete = true := by decide
  have h' : q'.queryPaths d = .error fault := rfl
  obtain ⟨trail, hdead, hfirst, htext, f, hf, hkind⟩ :=
    ((queryPaths_fails_at_first_deadEnd d q).1 hd).2 fault h
  obtain ⟨f', hf', hkind'⟩ := ((queryPaths_fails_at_first_deadEnd d q').2 hconcrete).2 fault h'
  have hfault : fault.path = utf8 "/items/1/price" := by decide
  exact ⟨hd, h, ⟨trail, hdead, hfirst, hfault ▸ htext, f, hf, hkind.symm⟩, hconcrete, h', f',
    hf', hkind'.symm⟩

end Path

end TreePatch
