import TreePatch.Proofs.Path.Acceptance
import TreePatch.Proofs.Query.Places
import TreePatch.Proofs.Value.Domain

set_option autoImplicit false

/-!
# Queries without wildcards

A dollar sign in front of a pointer makes it a query. As long as no piece between its
slashes is the bare star, the query is read as the same steps as the pointer
(`parseQuery_dollar_iff`), and it addresses the one place of the pointer. What it adds is a
look at the document: the parent of the place has to be there (`expandPath_dollar_iff`),
while the pointer is taken as it stands (`expandPath_eq_ok_iff_of_pointer`).
-/

namespace TreePatch

open Text (slash dollar)

/-! ## Reading -/

namespace Path

/-- A text that is empty or starts with a slash, and of which no piece between slashes is the
bare star. -/
def IsPlainPointer (t : Text) : Prop :=
  t = [] ∨ ∃ rest, t = slash :: rest ∧ utf8 "*" ∉ rest.splitOn slash

variable {t raw : Text} {pieces : List Text} {segments : List Segment} {p q : Path}

theorem IsPlainPointer.isQueryText (h : IsPlainPointer t) : isQueryText t = false := by
  rcases h with rfl | ⟨rest, rfl, -⟩ <;> rfl

/-- Queries read all pieces but the bare star as pointers do. -/
theorem readSegment_query (h : raw ≠ utf8 "*") :
    readSegment .query raw = readSegment .pointer raw := by
  simp [readSegment, h]

theorem readSegments_query (h : utf8 "*" ∉ pieces) :
    readSegments .query pieces = readSegments .pointer pieces := by
  induction pieces with
  | nil => rfl
  | cons raw pieces ih =>
      obtain ⟨hraw, hpieces⟩ := List.ne_and_not_mem_of_not_mem_cons h
      rw [readSegments, readSegments, readSegment_query hraw.symm, ih hpieces]

theorem IsPlainPointer.readsAs_query_iff (h : IsPlainPointer t) :
    ReadsAs .query t segments ↔ ReadsAs .pointer t segments := by
  rcases h with rfl | ⟨rest, rfl, hstar⟩
  · rw [readsAs_nil, readsAs_nil]
  · rw [readsAs_slash, readsAs_slash, readSegments_query hstar]

/-- A plain pointer behind a dollar sign is read as the same steps, in the form of a query. -/
theorem parseQuery_dollar_iff (h : IsPlainPointer t) :
    parseQuery (dollar :: t) = .ok q ↔ q.form = .query ∧ parsePointer t = .ok q.asPointer := by
  rw [parseQuery_eq_ok_iff_readsAs, parsePointer_eq_ok_iff_readsAs]
  refine and_congr_right fun _ => ?_
  simp only [List.cons.injEq, true_and, exists_eq_left', h.readsAs_query_iff, asPointer]

/-- The wildcard is read in queries only. -/
theorem wildcard_not_mem_of_parsePointer (h : parsePointer t = .ok p) :
    Segment.wildcard ∉ p.segments := by
  intro hw
  obtain ⟨pieces, hpieces⟩ := exists_pieces_of_parse (parse_eq_ok_of_parsePointer h)
  obtain ⟨raw, -, hraw⟩ := exists_piece_of_readSegments hpieces hw
  rw [(parsePointer_eq_ok_iff_readsAs.1 h).1, readSegment_iff] at hraw
  cases hraw

/-- Every step of a pointer that was read is one that can be read. -/
theorem legible_of_parsePointer (h : parsePointer t = .ok p) {s : Segment}
    (hs : s ∈ p.segments) : s.Legible := by
  rcases legible_of_parse (parse_eq_ok_of_parsePointer h) hs with rfl | hlegible
  · exact absurd hs (wildcard_not_mem_of_parsePointer h)
  · exact hlegible

end Path

/-! ## Expanding -/

/-- An expansion of steps without a wildcard that succeeds has taken all of them but the last. -/
theorem eq_singleton_of_expand {steps : List Segment} (h : Segment.wildcard ∉ steps) {v : Value}
    {places : List (List Segment)} (hx : expand steps v = .ok places) :
    places = [steps] ∧ ∃ parent, v.follow steps.dropLast = .ok parent := by
  induction steps generalizing v places with
  | nil =>
      cases hx
      exact ⟨rfl, v, rfl⟩
  | cons s rest ih =>
      obtain ⟨hs, hrest⟩ := List.ne_and_not_mem_of_not_mem_cons h
      rcases expand_cons_cases hx with ⟨rfl, -⟩ | ⟨-, rfl, rfl⟩ |
        ⟨-, hne, c, tails, hc, htails, rfl⟩
      · exact absurd rfl hs
      · exact ⟨rfl, v, rfl⟩
      · obtain ⟨rfl, hparent⟩ := ih hrest htails
        rw [List.dropLast_cons_of_ne_nil hne, Value.follow_cons_of_child hc]
        exact ⟨rfl, hparent⟩

/-- Steps without a wildcard of which all but the last can be taken address one place. -/
theorem expand_of_follow_dropLast {steps : List Segment} (h : Segment.wildcard ∉ steps)
    {v parent : Value} (hp : v.follow steps.dropLast = .ok parent) :
    expand steps v = .ok [steps] := by
  induction steps generalizing v with
  | nil => rfl
  | cons s rest ih =>
      obtain ⟨hs, hrest⟩ := List.ne_and_not_mem_of_not_mem_cons h
      rw [expand_cons, if_neg fun e => hs (Segment.isWildcard_iff.1 e).symm]
      cases rest with
      | nil => rfl
      | cons t rest =>
          rw [List.dropLast_cons_cons] at hp
          cases hc : v.child s with
          | error m => simp [Value.follow_cons_of_error hc] at hp
          | ok c =>
              rw [Value.follow_cons_of_child hc] at hp
              simp [ih hrest hp]

namespace Path

variable {d : Value} {t : Text} {q : Path} {places : List Path}

/-- A path without wildcards addresses itself, as a pointer, if its parent is there. -/
theorem queryPaths_eq_ok_iff_of_concrete (h : Segment.wildcard ∉ q.segments) :
    q.queryPaths d = .ok places ↔
      places = [q.asPointer] ∧ ∃ parent, d.get q.parent = .ok parent := by
  refine ⟨fun h' => ?_, fun h' => ?_⟩
  · obtain ⟨lists, hlists, rfl⟩ := exists_expand_of_queryPaths h'
    obtain ⟨rfl, parent, hparent⟩ := eq_singleton_of_expand h hlists
    exact ⟨rfl, parent, Value.get_eq_ok_iff.2 hparent⟩
  · obtain ⟨rfl, parent, hparent⟩ := h'
    rw [queryPaths, expand_of_follow_dropLast h (Value.get_eq_ok_iff.1 hparent)]
    rfl

/-- A pointer is expanded to its one place, wherever it leads. -/
theorem expandPath_eq_ok_iff_of_pointer (h : isQueryText t = false) :
    expandPath d t = .ok places ↔ ∃ p, parsePointer t = .ok p ∧ places = [p] := by
  rw [expandPath, if_neg (by simp [h]), Result.map_eq_ok_iff]
  simp only [eq_comm]

/-- Behind a dollar sign a plain pointer is expanded to its one place if its parent is there. -/
theorem expandPath_dollar_iff (h : IsPlainPointer t) : expandPath d (dollar :: t) = .ok places ↔
    ∃ p, parsePointer t = .ok p ∧ places = [p] ∧ ∃ parent, d.get p.parent = .ok parent := by
  have hquery : isQueryText (dollar :: t) = true := rfl
  rw [expandPath, if_pos hquery, Result.bind_eq_ok_iff]
  refine ⟨fun h' => ?_, fun h' => ?_⟩
  · obtain ⟨q, hq, hplaces⟩ := h'
    obtain ⟨-, hp⟩ := (parseQuery_dollar_iff h).1 hq
    have hconcrete : Segment.wildcard ∉ q.asPointer.segments := wildcard_not_mem_of_parsePointer hp
    obtain ⟨rfl, parent, hparent⟩ := (queryPaths_eq_ok_iff_of_concrete hconcrete).1 hplaces
    exact ⟨q.asPointer, hp, rfl, parent, Value.get_eq_ok_iff.2 (Value.get_eq_ok_iff.1 hparent)⟩
  · obtain ⟨p, hp, rfl, parent, hparent⟩ := h'
    obtain ⟨form, segments⟩ := p
    obtain rfl : form = .pointer := (parsePointer_eq_ok_iff_readsAs.1 hp).1
    have hq : parseQuery (dollar :: t) = .ok ⟨.query, segments⟩ :=
      (parseQuery_dollar_iff h).2 ⟨rfl, hp⟩
    have hconcrete : Segment.wildcard ∉ segments := wildcard_not_mem_of_parsePointer hp
    have hfollow : d.follow segments.dropLast = .ok parent := Value.get_eq_ok_iff.1 hparent
    refine ⟨_, hq, (queryPaths_eq_ok_iff_of_concrete hconcrete).2 ⟨rfl, parent, ?_⟩⟩
    exact Value.get_eq_ok_iff.2 hfollow

/-- The place of a query is that of its pointer. -/
theorem expandPath_of_dollar (h : IsPlainPointer t)
    (hplaces : expandPath d (dollar :: t) = .ok places) : expandPath d t = .ok places := by
  obtain ⟨p, hp, rfl, -⟩ := (expandPath_dollar_iff h).1 hplaces
  exact (expandPath_eq_ok_iff_of_pointer h.isQueryText).2 ⟨p, hp, rfl⟩

end Path

end TreePatch
