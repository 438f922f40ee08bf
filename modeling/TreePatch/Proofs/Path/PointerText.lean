import TreePatch.Proofs.Path.ReadBack

set_option autoImplicit false

/-!
# The pointer text says which steps a path takes

The written form of a path puts a slash in front of every name and escapes the slashes within
the names. So the steps can be told from the text: two paths without wildcards take the same
steps exactly if their pointer texts are the same bytes, and one begins with the steps of the
other exactly if its text goes on from the text of the other as a path does, with nothing or with
a slash (`Path.exists_joined_eq_append_iff`, `Path.joined_eq_iff`). This holds for every name,
also for those that reading a pointer never gives.

A wildcard is written like the name `*`, which is why it has no pointer text. The laws of
equality and of beginning with each other hold for all paths (`Path.same_startsWith_canonical`).
-/

namespace TreePatch

open Text (slash)

/-! ## Where a name ends -/

namespace Text

/-- A text with which a path goes on from a name: nothing, or a slash and what follows it. -/
def IsContinuation (t : Text) : Prop := t = [] ∨ ∃ rest, t = slash :: rest

variable {a b x y : Text}

theorem escape_injective : Function.Injective escape := by
  intro a b h
  have hread := congrArg Path.unescape h
  rw [Path.unescape_escape, Path.unescape_escape] at hread
  exact Except.ok.inj hread

/-- A continuation does not start with another byte than a slash. -/
theorem IsContinuation.head_eq {c : UInt8} {rest : Text} (h : IsContinuation (c :: rest)) :
    c = slash := by
  rcases h with hnil | ⟨rest, hrest⟩
  · cases hnil
  · exact (List.cons.inj hrest).1

/-- Names without slashes are told from what a path goes on with. -/
theorem append_eq_append_iff_of_isContinuation (ha : slash ∉ a) (hb : slash ∉ b)
    (hx : x.IsContinuation) (hy : y.IsContinuation) : a ++ x = b ++ y ↔ a = b ∧ x = y := by
  induction a generalizing b with
  | nil =>
      cases b with
      | nil => simp
      | cons c b =>
          have hc := (List.ne_and_not_mem_of_not_mem_cons hb).1
          refine ⟨fun h => ?_, fun h => by cases h.1⟩
          rw [List.nil_append, List.cons_append] at h
          exact absurd (h ▸ hx).head_eq.symm hc
  | cons c a ih =>
      obtain ⟨hc, ha⟩ := List.ne_and_not_mem_of_not_mem_cons ha
      cases b with
      | nil =>
          refine ⟨fun h => ?_, fun h => by cases h.1⟩
          rw [List.nil_append, List.cons_append] at h
          exact absurd (h.symm ▸ hy).head_eq.symm hc
      | cons d b =>
          obtain ⟨-, hb⟩ := List.ne_and_not_mem_of_not_mem_cons hb
          rw [List.cons_append, List.cons_append, List.cons.injEq, ih ha hb, List.cons.injEq,
            and_assoc]

end Text

/-! ## The text of a segment -/

namespace Segment

variable {s t : Segment}

/-- Segments other than the wildcard are written alike exactly if they have one name. -/
theorem toText_eq_iff (hs : s ≠ .wildcard) (ht : t ≠ .wildcard) :
    s.toText = t.toText ↔ s.memberName? = t.memberName? := by
  obtain ⟨a, ha⟩ := exists_memberName?_of_ne hs
  obtain ⟨b, hb⟩ := exists_memberName?_of_ne ht
  rw [toText_eq_escape, toText_eq_escape, ha, hb, Option.getD_some, Option.getD_some,
    Text.escape_injective.eq_iff, Option.some.injEq]

end Segment

/-! ## The text of a path -/

namespace Path

variable {ss ts : List Segment}

theorem isContinuation_joined (ss : List Segment) : (joined ss).IsContinuation := by
  cases ss with
  | nil => exact .inl rfl
  | cons s ss => exact .inr ⟨_, joined_cons s ss⟩

/-- One path goes on from another exactly if its text goes on from the text of the other. -/
theorem exists_joined_eq_append_iff (hs : Segment.wildcard ∉ ss) (ht : Segment.wildcard ∉ ts) :
    (∃ rest, joined ss = joined ts ++ rest ∧ rest.IsContinuation) ↔
      ts.map Segment.memberName? <+: ss.map Segment.memberName? := by
  induction ts generalizing ss with
  | nil =>
      exact ⟨fun _ => List.nil_prefix, fun _ => ⟨joined ss, rfl, isContinuation_joined ss⟩⟩
  | cons t ts ih =>
      obtain ⟨ht, hts⟩ := List.ne_and_not_mem_of_not_mem_cons ht
      cases ss with
      | nil => simp [joined]
      | cons s ss =>
          obtain ⟨hs, hss⟩ := List.ne_and_not_mem_of_not_mem_cons hs
          -- The texts of the first segments end at the same slash.
          have hfirst : ∀ rest, rest.IsContinuation →
              (joined (s :: ss) = joined (t :: ts) ++ rest ↔
                s.toText = t.toText ∧ joined ss = joined ts ++ rest) := by
            intro rest hrest
            have hcontinues : (joined ts ++ rest).IsContinuation := by
              cases ts with
              | nil => exact hrest
              | cons u ts => exact .inr ⟨_, rfl⟩
            rw [joined_cons, joined_cons, List.cons_append, List.cons.injEq, and_iff_right rfl,
              List.append_assoc]
            exact Text.append_eq_append_iff_of_isContinuation s.slash_not_mem_toText
              t.slash_not_mem_toText (isContinuation_joined ss) hcontinues
          rw [List.map_cons, List.map_cons, List.cons_prefix_cons, ← ih hss hts,
            ← Segment.toText_eq_iff ht.symm hs.symm]
          constructor
          · rintro ⟨rest, htext, hrest⟩
            obtain ⟨hname, htext⟩ := (hfirst rest hrest).1 htext
            exact ⟨hname.symm, rest, htext, hrest⟩
          · rintro ⟨hname, rest, htext, hrest⟩
            exact ⟨rest, (hfirst rest hrest).2 ⟨hname.symm, htext⟩, hrest⟩

/-- Two paths have one text exactly if they take the same steps. -/
theorem joined_eq_iff (hs : Segment.wildcard ∉ ss) (ht : Segment.wildcard ∉ ts) :
    joined ss = joined ts ↔ ss.map Segment.memberName? = ts.map Segment.memberName? := by
  refine ⟨fun h => ?_, joined_congr⟩
  have hts := (exists_joined_eq_append_iff hs ht).1 ⟨[], by rw [h, List.append_nil], .inl rfl⟩
  have hss := (exists_joined_eq_append_iff ht hs).1 ⟨[], by rw [h, List.append_nil], .inl rfl⟩
  exact hss.eq_of_length_le hts.length_le

/-! ## Laws of comparison -/

variable {p p' q q' r : Path}

theorem equivalence_same : Equivalence fun p q : Path => p.same q = true where
  refl _ := same_iff.2 rfl
  symm h := same_iff.2 (same_iff.1 h).symm
  trans h h' := same_iff.2 ((same_iff.1 h).trans (same_iff.1 h'))

theorem startsWith_refl (p : Path) : p.startsWith p = true :=
  startsWith_iff.2 (List.prefix_refl _)

theorem startsWith_trans (h : p.startsWith q = true) (h' : q.startsWith r = true) :
    p.startsWith r = true :=
  startsWith_iff.2 ((startsWith_iff.1 h').trans (startsWith_iff.1 h))

/-- Paths that begin with each other take the same steps. -/
theorem startsWith_antisymm_iff :
    p.startsWith q = true ∧ q.startsWith p = true ↔ p.same q = true := by
  rw [startsWith_iff, startsWith_iff, same_iff]
  refine ⟨fun h => h.2.eq_of_length_le h.1.length_le, fun h => ?_⟩
  rw [h]
  exact ⟨List.prefix_refl _, List.prefix_refl _⟩

/-- A path begins with another in whatever spelling the two are. -/
theorem startsWith_congr (hp : p.same p' = true) (hq : q.same q' = true) :
    p.startsWith q = p'.startsWith q' := by
  rw [Bool.eq_iff_iff, startsWith_iff, startsWith_iff, same_iff.1 hp, same_iff.1 hq]

/-- Paths without wildcards have pointer texts, which are the same bytes exactly if the paths take
the same steps. One path begins with the steps of another exactly if its text is that of the other
and a continuation, which is empty or starts with a slash. So to take the same steps is an
equivalence of paths, and to begin with each other a preorder that belongs to it: it holds both
ways exactly between equivalent paths, and does not tell these apart. -/
theorem same_startsWith_canonical :
    (∀ p q : Path, Segment.wildcard ∉ p.segments → Segment.wildcard ∉ q.segments →
      ∃ s t, p.canonical = .ok s ∧ q.canonical = .ok t ∧ (p.same q = true ↔ s = t) ∧
        (p.startsWith q = true ↔ ∃ rest, s = t ++ rest ∧ rest.IsContinuation)) ∧
    (Equivalence fun p q : Path => p.same q = true) ∧
    (∀ p : Path, p.startsWith p = true) ∧
    (∀ p q r : Path, p.startsWith q = true → q.startsWith r = true → p.startsWith r = true) ∧
    (∀ p q : Path, p.startsWith q = true ∧ q.startsWith p = true ↔ p.same q = true) ∧
    ∀ p p' q q' : Path, p.same p' = true → q.same q' = true →
      p.startsWith q = p'.startsWith q' := by
  refine ⟨fun p q hp hq => ?_, equivalence_same, startsWith_refl, fun _ _ _ => startsWith_trans,
    fun _ _ => startsWith_antisymm_iff, fun _ _ _ _ => startsWith_congr⟩
  refine ⟨_, _, canonical_of_concrete hp, canonical_of_concrete hq, ?_, ?_⟩
  · rw [same_iff, joined_eq_iff hp hq, names, names]
  · rw [startsWith_iff, exists_joined_eq_append_iff hp hq, names, names]

/-- A name with a slash, an empty name and a position are written so that the name and the two
empty names of the other path cannot be mistaken for them. The name `0` is written like the
position 0, and both go on from the path above. -/
theorem same_startsWith_canonical_names :
    let p : Path := .ofSegments [.key (utf8 "a/b"), .key [], .index 0]
    let q : Path := ⟨.query, [.key (utf8 "a/b"), .key [], .key (utf8 "0")]⟩
    let above : Path := .ofSegments [.key (utf8 "a/b"), .key []]
    let other : Path := .ofSegments [.key (utf8 "a"), .key (utf8 "b"), .key [], .key (utf8 "0")]
    p.canonical = q.canonical ∧ p.same q = true ∧ p.startsWith above = true ∧
      q.startsWith above = true ∧ p.canonical ≠ other.canonical ∧ p.same other = false := by
  intro p q above other
  obtain ⟨htexts, -, -, -, -, hcongr⟩ := same_startsWith_canonical
  have hp : Segment.wildcard ∉ p.segments := by decide
  have hq : Segment.wildcard ∉ q.segments := by decide
  obtain ⟨s, t, hs, ht, hsame, -⟩ := htexts p q hp hq
  obtain ⟨s', u, hs', hu, -, hstarts⟩ := htexts p above hp (by decide)
  obtain ⟨s'', w, hs'', hw, hother, -⟩ := htexts p other hp (by decide)
  obtain rfl := Except.ok.inj (hs.symm.trans hs')
  obtain rfl := Except.ok.inj (hs.symm.trans hs'')
  have hpq : p.same q = true := by decide
  have habove : p.startsWith above = true :=
    hstarts.2 ⟨utf8 "/0", by cases hs; cases hu; decide, .inr ⟨utf8 "0", by decide⟩⟩
  have hne : s ≠ w := by
    cases hs
    cases hw
    decide
  refine ⟨by rw [hs, ht, hsame.1 hpq], hpq, habove, ?_, ?_, ?_⟩
  · rw [← hcongr p q above above hpq (same_iff.2 rfl), habove]
  · rw [hs, hw]
    exact fun h => hne (Except.ok.inj h)
  · rw [← Bool.not_eq_true, hother]
    exact hne

end Path

end TreePatch
