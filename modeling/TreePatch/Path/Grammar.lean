import TreePatch.Path.Reader
import TreePatch.Result

set_option autoImplicit false

/-!
# The grammar of path expressions

The rules of the written form as relations between a text and what it spells, next
to the functions of `TreePatch.Path.Reader` that decide them. `undoTildes_iff` and
`undoPercents_iff` say that the two stages of unescaping decide their relation, so
each escaped text spells at most one text and is refused only if it spells none.
-/

namespace TreePatch

namespace Text

/-- A text with `~0` and `~1` for tildes and slashes spells another. -/
inductive TildeSpelling : Text → Text → Prop where
  /-- Nothing spells nothing. -/
  | nil : TildeSpelling [] []
  /-- The spelling of a slash. -/
  | slash {raw t : Text} : TildeSpelling raw t → TildeSpelling (tilde :: one :: raw) (slash :: t)
  /-- The spelling of a tilde. -/
  | tilde {raw t : Text} : TildeSpelling raw t → TildeSpelling (tilde :: zero :: raw) (tilde :: t)
  /-- Any byte but the tilde spells itself. -/
  | plain {b : UInt8} {raw t : Text} :
      b ≠ Text.tilde → TildeSpelling raw t → TildeSpelling (b :: raw) (b :: t)

/-- A text with percent escapes spells another. -/
inductive PercentSpelling : Text → Text → Prop where
  /-- Nothing spells nothing. -/
  | nil : PercentSpelling [] []
  /-- The spelling of a byte by its two hexadecimal digits. -/
  | escape {high low h l : UInt8} {raw t : Text} :
      hexDigit? high = some h → hexDigit? low = some l → PercentSpelling raw t →
        PercentSpelling (percent :: high :: low :: raw) ((16 * h + l) :: t)
  /-- Any byte but the percent sign spells itself. -/
  | plain {b : UInt8} {raw t : Text} :
      b ≠ percent → PercentSpelling raw t → PercentSpelling (b :: raw) (b :: t)

/-- Undoing tildes decides what a text spells by them. -/
theorem undoTildes_iff {raw t : Text} : undoTildes raw = some t ↔ TildeSpelling raw t := by
  constructor
  · intro h
    fun_induction undoTildes raw generalizing t with
    | case1 =>
        cases h
        exact .nil
    | case2 => simp at h
    | case3 rest ih =>
        obtain ⟨u, hu, rfl⟩ := Option.map_eq_some_iff.1 h
        exact .slash (ih hu)
    | case4 rest _ ih =>
        obtain ⟨u, hu, rfl⟩ := Option.map_eq_some_iff.1 h
        exact .tilde (ih hu)
    | case5 => simp at h
    | case6 b rest hb ih =>
        obtain ⟨u, hu, rfl⟩ := Option.map_eq_some_iff.1 h
        exact .plain hb (ih hu)
  · intro h
    induction h with
    | nil => rfl
    | slash _ ih => simp [ih]
    | tilde _ ih => simp [ih]
    | plain hb _ ih => simp [undoTildes_cons_of_ne hb, ih]

/-- Undoing percent escapes decides what a text spells by them. -/
theorem undoPercents_iff {raw t : Text} :
    undoPercents raw = .ok t ↔ PercentSpelling raw t := by
  constructor
  · intro h
    fun_induction undoPercents raw generalizing t with
    | case1 =>
        cases h
        exact .nil
    | case2 high low rest x y hy hx ih =>
        obtain ⟨u, hu, rfl⟩ := Result.map_eq_ok_iff.1 h
        exact .escape hx hy (ih hu)
    | case3 => simp at h
    | case4 => simp at h
    | case5 b rest hb ih =>
        obtain ⟨u, hu, rfl⟩ := Result.map_eq_ok_iff.1 h
        exact .plain hb (ih hu)
  · intro h
    induction h with
    | nil => rfl
    | escape hx hy _ ih =>
        rw [undoPercents_percent hx hy, ih]
        rfl
    | plain hb _ ih =>
        rw [undoPercents_cons_of_ne hb, ih]
        rfl

end Text

/-! ## Segments and expressions -/

namespace Path

/-- A text between slashes spells a segment. The wildcard is spelt only in a query
and only by the bare star; the sort of any other segment shows in the text that is
left when its escapes are undone. -/
inductive SegmentSpelling : Form → Text → Segment → Prop where
  /-- The wildcard of a query. -/
  | wildcard : SegmentSpelling .query (utf8 "*") .wildcard
  /-- The end of an array. -/
  | append {form : Form} {raw t : Text} :
      ¬(form = .query ∧ raw = utf8 "*") → Text.TildeSpelling raw t →
        Text.PercentSpelling t (utf8 "-") → SegmentSpelling form raw .append
  /-- A position that fits 64 bits. -/
  | index {form : Form} {raw t digits : Text} :
      ¬(form = .query ∧ raw = utf8 "*") → Text.TildeSpelling raw t →
        Text.PercentSpelling t digits → Decimal.isNumeral digits = true →
          Decimal.value digits < UInt64.size →
            SegmentSpelling form raw (.index (Decimal.value digits))
  /-- A name, which is neither the dash nor digits. -/
  | key {form : Form} {raw t name : Text} :
      raw ≠ [] → ¬(form = .query ∧ raw = utf8 "*") → Text.TildeSpelling raw t →
        Text.PercentSpelling t name → name ≠ utf8 "-" → Decimal.isNumeral name = false →
          SegmentSpelling form raw (.key name)

/-- A text unescapes to what its two stages of unescaping spell. -/
theorem unescape_iff {raw decoded : Text} :
    unescape raw = .ok decoded ↔
      ∃ t, Text.TildeSpelling raw t ∧ Text.PercentSpelling t decoded := by
  constructor
  · intro h
    rw [unescape] at h
    split at h
    · simp at h
    · rename_i t ht
      refine ⟨t, Text.undoTildes_iff.1 ht, Text.undoPercents_iff.1 ?_⟩
      split at h <;> simp_all
  · rintro ⟨t, ht, hd⟩
    rw [unescape, Text.undoTildes_iff.2 ht]
    simp only [Text.undoPercents_iff.2 hd]

/-- Reading one piece decides which segment it spells. -/
theorem readSegment_iff {form : Form} {raw : Text} {s : Segment} :
    readSegment form raw = .ok s ↔ SegmentSpelling form raw s := by
  constructor
  · intro h
    rw [readSegment] at h
    split at h
    · simp at h
    rename_i hempty
    split at h
    · rename_i hstar
      cases h
      rw [hstar.1, hstar.2]
      exact .wildcard
    rename_i hstar
    cases hu : unescape raw with
    | error flaw =>
        rw [hu] at h
        cases h
    | ok decoded =>
        rw [hu] at h
        obtain ⟨t, ht, hd⟩ := unescape_iff.1 hu
        change classify decoded = .ok s at h
        rw [classify] at h
        split at h
        · rename_i hdash
          cases h
          exact .append hstar ht (hdash ▸ hd)
        rename_i hdash
        split at h
        · rename_i hnum
          split at h
          · rename_i hfits
            cases h
            exact .index hstar ht hd hnum hfits
          · cases h
        · rename_i hnum
          cases h
          exact .key (by simpa using hempty) hstar ht hd hdash (by simpa using hnum)
  · intro h
    have nonempty : ∀ {raw t d : Text}, Text.TildeSpelling raw t → Text.PercentSpelling t d →
        d ≠ [] → raw.isEmpty = false := by
      intro raw t d ht hd hne
      cases ht with
      | nil =>
          cases hd
          exact absurd rfl hne
      | _ => rfl
    have dash : Decimal.isNumeral (utf8 "-") = false := by decide
    cases h with
    | wildcard => rfl
    | append hstar ht hd =>
        rw [readSegment, if_neg (by simp [nonempty ht hd (by decide)]), if_neg hstar,
          unescape_iff.2 ⟨_, ht, hd⟩]
        rfl
    | index hstar ht hd hnum hfits =>
        have hne : ∀ {d : Text}, Decimal.isNumeral d = true → d ≠ [] ∧ d ≠ utf8 "-" := by
          intro d hd
          constructor
          · rintro rfl
            simp [Decimal.isNumeral] at hd
          · rintro rfl
            simp [dash] at hd
        rw [readSegment, if_neg (by simp [nonempty ht hd (hne hnum).1]), if_neg hstar,
          unescape_iff.2 ⟨_, ht, hd⟩]
        change classify _ = _
        rw [classify, if_neg (hne hnum).2, if_pos hnum, if_pos hfits]
    | key hraw hstar ht hd hdash hnum =>
        rw [readSegment, if_neg (by simpa using hraw), if_neg hstar, unescape_iff.2 ⟨_, ht, hd⟩]
        change classify _ = _
        rw [classify, if_neg hdash, if_neg (by simp [hnum])]

/-- An expression spells a path: its pieces, each behind a slash and without one,
spell the segments in order, and a query has a dollar sign in front. -/
inductive Spelling : Text → Path → Prop where
  /-- The written form of a pointer. -/
  | pointer {pieces : List Text} {segments : List Segment}
      (spelt : pieces.length = segments.length ∧
        ∀ p ∈ pieces.zip segments, Text.slash ∉ p.1 ∧ SegmentSpelling .pointer p.1 p.2) :
      Spelling (pieces.flatMap (Text.slash :: ·)) ⟨.pointer, segments⟩
  /-- The written form of a query. -/
  | query {pieces : List Text} {segments : List Segment}
      (spelt : pieces.length = segments.length ∧
        ∀ p ∈ pieces.zip segments, Text.slash ∉ p.1 ∧ SegmentSpelling .query p.1 p.2) :
      Spelling (Text.dollar :: pieces.flatMap (Text.slash :: ·)) ⟨.query, segments⟩

end Path

end TreePatch
