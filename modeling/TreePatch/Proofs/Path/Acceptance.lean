import TreePatch.Proofs.Path.ReadBack

set_option autoImplicit false

/-!
# Which texts are read

A text is read as a path exactly if it is split at its slashes into pieces that can each be
read, and a piece can be read exactly if its escapes are complete and what they spell is
no position beyond 64 bits (`Readable`). Complete means that the byte that opens an escape
is directly followed by what makes it one, wherever it stands; that the stages of
unescaping find every escape from the left and skip what they have read changes nothing.

* `exists_tildeSpelling_iff`, `exists_percentSpelling_iff`: a stage of unescaping succeeds
  exactly where the escapes are complete.
* `exists_readSegment_iff`: a piece is read exactly if it is readable or the wildcard.
* `parse_iff_grammar`: the same for whole expressions, with what they are read as and with
  the fault for all others.
-/

namespace TreePatch

open Text (slash tilde percent dollar)

/-! ## Complete escapes -/

namespace Text

/-- Wherever a byte stands in a text, what follows it is allowed. -/
def EachFollowed (b : UInt8) (allowed : Text → Prop) (t : Text) : Prop :=
  ∀ before after, t = before ++ b :: after → allowed after

/-- Every tilde is directly followed by `0` or `1`. -/
def TildesComplete : Text → Prop :=
  EachFollowed tilde fun after => after.head? = some zero ∨ after.head? = some one

/-- Is the byte a hexadecimal digit, with letters in either case? -/
def IsHexDigit (b : UInt8) : Prop :=
  (0x30 ≤ b ∧ b ≤ 0x39) ∨ (0x61 ≤ b ∧ b ≤ 0x66) ∨ (0x41 ≤ b ∧ b ≤ 0x46)

/-- Every percent sign is directly followed by two hexadecimal digits. -/
def PercentsComplete : Text → Prop :=
  EachFollowed percent fun after =>
    ∃ high low rest, after = high :: low :: rest ∧ IsHexDigit high ∧ IsHexDigit low

theorem eachFollowed_nil {b : UInt8} {allowed : Text → Prop} : EachFollowed b allowed [] := by
  intro before after h
  cases before <;> cases h

theorem eachFollowed_cons {b c : UInt8} {allowed : Text → Prop} {t : Text} :
    EachFollowed b allowed (c :: t) ↔ (c = b → allowed t) ∧ EachFollowed b allowed t := by
  refine ⟨fun h => ⟨fun hc => h [] t (hc ▸ rfl), fun before after e => ?_⟩, fun h => ?_⟩
  · exact h (c :: before) after (e ▸ rfl)
  · intro before after e
    cases before with
    | nil =>
        cases e
        exact h.1 rfl
    | cons d before =>
        cases e
        exact h.2 before after rfl

/-- Skipping a byte that opens no escape skips none. -/
theorem eachFollowed_cons_of_ne {b c : UInt8} {allowed : Text → Prop} {t : Text} (h : c ≠ b) :
    EachFollowed b allowed (c :: t) ↔ EachFollowed b allowed t := by
  rw [eachFollowed_cons, and_iff_right fun e => absurd e h]

/-- The tildes of a text can be undone exactly if they are complete. -/
theorem exists_tildeSpelling_iff {raw : Text} :
    (∃ t, TildeSpelling raw t) ↔ TildesComplete raw := by
  unfold TildesComplete
  refine ⟨fun h => ?_, fun h => ?_⟩
  · obtain ⟨t, h⟩ := h
    induction h with
    | nil => exact eachFollowed_nil
    | slash _ ih =>
        rw [eachFollowed_cons, eachFollowed_cons_of_ne (by decide)]
        exact ⟨fun _ => .inr rfl, ih⟩
    | tilde _ ih =>
        rw [eachFollowed_cons, eachFollowed_cons_of_ne (by decide)]
        exact ⟨fun _ => .inl rfl, ih⟩
    | plain hb _ ih => exact (eachFollowed_cons_of_ne hb).2 ih
  · fun_induction undoTildes raw with
    | case1 => exact ⟨[], .nil⟩
    | case2 =>
        have := (eachFollowed_cons.1 h).1 rfl
        simp at this
    | case3 rest ih =>
        obtain ⟨t, ht⟩ := ih ((eachFollowed_cons_of_ne (by decide)).1 (eachFollowed_cons.1 h).2)
        exact ⟨_, .slash ht⟩
    | case4 rest _ ih =>
        obtain ⟨t, ht⟩ := ih ((eachFollowed_cons_of_ne (by decide)).1 (eachFollowed_cons.1 h).2)
        exact ⟨_, .tilde ht⟩
    | case5 c rest hone hzero =>
        have := (eachFollowed_cons.1 h).1 rfl
        simp [hone, hzero] at this
    | case6 b rest hb ih =>
        obtain ⟨t, ht⟩ := ih ((eachFollowed_cons_of_ne hb).1 h)
        exact ⟨_, .plain hb ht⟩

/-- A byte has a hexadecimal value exactly if it is a hexadecimal digit. -/
theorem exists_hexDigit?_iff {b : UInt8} : (∃ h, hexDigit? b = some h) ↔ IsHexDigit b := by
  unfold hexDigit? IsHexDigit
  split
  · simp_all
  split
  · simp_all
  split
  · simp_all
  · simp_all

theorem IsHexDigit.ne_percent {b : UInt8} (h : IsHexDigit b) : b ≠ percent := by
  rintro rfl
  revert h
  unfold IsHexDigit
  decide

/-- The percent escapes of a text can be undone exactly if they are complete. -/
theorem exists_percentSpelling_iff {t : Text} :
    (∃ decoded, PercentSpelling t decoded) ↔ PercentsComplete t := by
  unfold PercentsComplete
  refine ⟨fun h => ?_, fun h => ?_⟩
  · obtain ⟨decoded, h⟩ := h
    induction h with
    | nil => exact eachFollowed_nil
    | escape hh hl _ ih =>
        have hhigh := exists_hexDigit?_iff.1 ⟨_, hh⟩
        have hlow := exists_hexDigit?_iff.1 ⟨_, hl⟩
        rw [eachFollowed_cons, eachFollowed_cons_of_ne hhigh.ne_percent,
          eachFollowed_cons_of_ne hlow.ne_percent]
        exact ⟨fun _ => ⟨_, _, _, rfl, hhigh, hlow⟩, ih⟩
    | plain hb _ ih => exact (eachFollowed_cons_of_ne hb).2 ih
  · fun_induction undoPercents t with
    | case1 => exact ⟨[], .nil⟩
    | case2 high low rest x y hy hx ih =>
        have hhigh := exists_hexDigit?_iff.1 ⟨_, hx⟩
        have hlow := exists_hexDigit?_iff.1 ⟨_, hy⟩
        obtain ⟨decoded, hd⟩ := ih ((eachFollowed_cons_of_ne hlow.ne_percent).1
          ((eachFollowed_cons_of_ne hhigh.ne_percent).1 (eachFollowed_cons.1 h).2))
        exact ⟨_, .escape hx hy hd⟩
    | case3 high low rest hnone =>
        obtain ⟨_, _, _, e, hhigh, hlow⟩ := (eachFollowed_cons.1 h).1 rfl
        cases e
        obtain ⟨x, hx⟩ := exists_hexDigit?_iff.2 hhigh
        obtain ⟨y, hy⟩ := exists_hexDigit?_iff.2 hlow
        exact absurd hy (hnone x y hx)
    | case4 rest hshort =>
        obtain ⟨high, low, rest', e, -, -⟩ := (eachFollowed_cons.1 h).1 rfl
        exact absurd e (hshort high low rest')
    | case5 b rest hb ih =>
        obtain ⟨t, ht⟩ := ih ((eachFollowed_cons_of_ne hb).1 h)
        exact ⟨_, .plain hb ht⟩

/-! ## Pieces between separators -/

section Pieces

variable {b : UInt8}

/-- No piece holds the separator. -/
theorem not_mem_of_mem_splitOn {t piece : Text} (h : piece ∈ t.splitOn b) : b ∉ piece := by
  induction t generalizing piece with
  | nil =>
      obtain rfl : piece = [] := by simpa using h
      simp
  | cons c t ih =>
      rw [List.splitOn_cons_eq_if_modifyHead] at h
      split at h
      · rcases List.mem_cons.1 h with rfl | h
        · simp
        · exact ih h
      · rename_i hc
        cases hsplit : t.splitOn b with
        | nil => exact absurd hsplit (List.splitOn_ne_nil b t)
        | cons first more =>
            rw [hsplit] at h ih
            rcases List.mem_cons.1 h with rfl | h
            · have hfirst := ih List.mem_cons_self
              rw [List.mem_cons, not_or]
              exact ⟨fun e => hc (beq_iff_eq.2 e.symm), hfirst⟩
            · exact ih (List.mem_cons_of_mem _ h)

/-- The pieces, each behind a separator, are the text behind a separator. -/
theorem flatMap_splitOn (b : UInt8) (t : Text) : (t.splitOn b).flatMap (b :: ·) = b :: t := by
  induction t with
  | nil => rfl
  | cons c t ih =>
      rw [List.splitOn_cons_eq_if_modifyHead]
      split
      · rename_i hc
        rw [List.flatMap_cons, ih, beq_iff_eq.1 hc]
        rfl
      · cases hsplit : t.splitOn b with
        | nil => exact absurd hsplit (List.splitOn_ne_nil b t)
        | cons first more =>
            rw [hsplit, List.flatMap_cons] at ih
            have hjoin : first ++ more.flatMap (b :: ·) = t := (List.cons.inj ih).2
            rw [List.modifyHead_cons, List.flatMap_cons, List.cons_append, List.cons_append,
              hjoin]

end Pieces

end Text

namespace Path

/-! ## Pieces that are read -/

/-- A piece that can be read as something other than the wildcard. -/
structure Readable (raw : Text) : Prop where
  /-- It is not empty. -/
  nonempty : raw ≠ []
  /-- Every tilde opens an escape. -/
  tildes : Text.TildesComplete raw
  /-- When the tildes are undone, every percent sign opens an escape. -/
  percents : ∀ t, Text.TildeSpelling raw t → Text.PercentsComplete t
  /-- When both are undone, digits are a number that fits 64 bits. -/
  fits : ∀ t decoded, Text.TildeSpelling raw t → Text.PercentSpelling t decoded →
    Decimal.isNumeral decoded = true → Decimal.value decoded < UInt64.size

theorem classify_isOk_iff {decoded : Text} : (∃ s, classify decoded = .ok s) ↔
    (Decimal.isNumeral decoded = true → Decimal.value decoded < UInt64.size) := by
  unfold classify
  split
  · rename_i hdash
    subst hdash
    exact ⟨fun _ h => absurd h (by decide), fun _ => ⟨_, rfl⟩⟩
  split
  · rename_i hnum
    split
    · rename_i hfits
      exact ⟨fun _ _ => hfits, fun _ => ⟨_, rfl⟩⟩
    · rename_i hfits
      refine ⟨fun h => ?_, fun h => absurd (h hnum) hfits⟩
      obtain ⟨s, hs⟩ := h
      cases hs
  · rename_i hnum
    exact ⟨fun _ h => absurd h hnum, fun _ => ⟨_, rfl⟩⟩

/-- A piece is readable if it can be unescaped to something that has a sort. -/
theorem readable_iff {raw : Text} : Readable raw ↔
    raw ≠ [] ∧ ∃ decoded, unescape raw = .ok decoded ∧ ∃ s, classify decoded = .ok s := by
  simp only [unescape_iff, classify_isOk_iff]
  refine ⟨fun h => ⟨h.nonempty, ?_⟩, fun h => ?_⟩
  · obtain ⟨t, ht⟩ := Text.exists_tildeSpelling_iff.2 h.tildes
    obtain ⟨decoded, hd⟩ := Text.exists_percentSpelling_iff.2 (h.percents t ht)
    exact ⟨decoded, ⟨t, ht, hd⟩, h.fits t decoded ht hd⟩
  · obtain ⟨hne, decoded, ⟨t, ht, hd⟩, hfits⟩ := h
    -- Each stage of unescaping has one result.
    have unique : ∀ {t'}, Text.TildeSpelling raw t' → t' = t := fun ht' =>
      Option.some.inj ((Text.undoTildes_iff.2 ht').symm.trans (Text.undoTildes_iff.2 ht))
    refine ⟨hne, Text.exists_tildeSpelling_iff.1 ⟨t, ht⟩, fun t' ht' => ?_,
      fun t' decoded' ht' hd' => ?_⟩
    · rw [unique ht']
      exact Text.exists_percentSpelling_iff.1 ⟨decoded, hd⟩
    · rw [unique ht'] at hd'
      obtain rfl : decoded' = decoded :=
        Except.ok.inj ((Text.undoPercents_iff.2 hd').symm.trans (Text.undoPercents_iff.2 hd))
      exact hfits

/-- A piece is read exactly if it is the wildcard of a query or readable. -/
theorem exists_readSegment_iff {form : Form} {raw : Text} :
    (∃ s, readSegment form raw = .ok s) ↔ form = .query ∧ raw = utf8 "*" ∨ Readable raw := by
  rw [readable_iff]
  unfold readSegment
  split
  · rename_i hempty
    obtain rfl := List.isEmpty_iff.1 hempty
    simp [show utf8 "*" ≠ [] by decide]
  rename_i hempty
  have hne : raw ≠ [] := fun e => hempty (e ▸ rfl)
  split
  · rename_i hstar
    exact ⟨fun _ => .inl hstar, fun _ => ⟨_, rfl⟩⟩
  · rename_i hstar
    simp only [Result.bind_eq_ok_iff, hstar, hne, ne_eq, not_false_eq_true, true_and, false_or]
    refine ⟨fun h => ?_, fun h => ?_⟩
    · obtain ⟨s, decoded, hd, hs⟩ := h
      exact ⟨decoded, hd, s, hs⟩
    · obtain ⟨decoded, hd, s, hs⟩ := h
      exact ⟨s, decoded, hd, hs⟩

/-- Pieces are read exactly if each of them is. -/
theorem exists_readSegments_iff {form : Form} {pieces : List Text} :
    (∃ segments, readSegments form pieces = .ok segments) ↔
      ∀ raw ∈ pieces, ∃ s, readSegment form raw = .ok s := by
  induction pieces with
  | nil => exact ⟨fun _ raw h => absurd h List.not_mem_nil, fun _ => ⟨[], rfl⟩⟩
  | cons raw pieces ih =>
      rw [readSegments, List.forall_mem_cons, ← ih]
      cases hraw : readSegment form raw with
      | error flaw => simp
      | ok s =>
          refine ⟨fun h => ?_, fun h => ?_⟩
          · obtain ⟨_, h⟩ := h
            obtain ⟨segments, hrest, -⟩ := Result.map_eq_ok_iff.1 h
            exact ⟨⟨s, rfl⟩, segments, hrest⟩
          · obtain ⟨-, segments, hrest⟩ := h
            exact ⟨_, Result.map_eq_ok_iff.2 ⟨segments, hrest, rfl⟩⟩

/-- The pieces that are read as segments are those that spell them. -/
theorem readSegments_eq_ok_iff_spelling {form : Form} {pieces : List Text}
    {segments : List Segment} : readSegments form pieces = .ok segments ↔
      pieces.length = segments.length ∧
        ∀ p ∈ pieces.zip segments, SegmentSpelling form p.1 p.2 := by
  rw [readSegments_eq_ok_iff]
  induction pieces generalizing segments with
  | nil => cases segments <;> simp
  | cons raw pieces ih =>
      cases segments with
      | nil => simp
      | cons s segments =>
          rw [List.map_cons, List.map_cons, List.cons.injEq, ih, readSegment_iff]
          simp only [List.length_cons, Nat.add_right_cancel_iff, List.zip_cons_cons,
            List.forall_mem_cons]
          exact and_left_comm

/-! ## Expressions that are read -/

/-- What stands in an expression from the first slash on is read as segments. -/
def ReadsAs (form : Form) (t : Text) (segments : List Segment) : Prop :=
  t = [] ∧ segments = [] ∨
    ∃ rest, t = slash :: rest ∧ readSegments form (rest.splitOn slash) = .ok segments

section ReadsAs

variable {form : Form} {t rest : Text} {segments : List Segment} {p : Path}

theorem readsAs_nil : ReadsAs form [] segments ↔ segments = [] := by
  simp [ReadsAs]

theorem readsAs_slash : ReadsAs form (slash :: rest) segments ↔
    readSegments form (rest.splitOn slash) = .ok segments := by
  simp [ReadsAs]

theorem readsAs_cons_of_ne {b : UInt8} (h : b ≠ slash) : ¬ReadsAs form (b :: rest) segments := by
  simp [ReadsAs, h]

/-- The root is read where nothing is left to read. -/
theorem ok_root_eq_iff : (.ok ⟨form, []⟩ : Except PathFlaw Path) = .ok p ↔
    p.form = form ∧ ReadsAs form [] p.segments := by
  obtain ⟨form', segments⟩ := p
  rw [readsAs_nil, Except.ok.injEq, Path.mk.injEq, eq_comm, @eq_comm _ segments]

theorem readPieces_eq_ok_iff : readPieces form rest = .ok p ↔
    p.form = form ∧ ReadsAs form (slash :: rest) p.segments := by
  rw [readPieces_eq, Result.map_eq_ok_iff, readsAs_slash]
  refine ⟨fun h => ?_, fun h => ⟨p.segments, h.2, by rw [← h.1]⟩⟩
  obtain ⟨segments, hread, rfl⟩ := h
  exact ⟨rfl, hread⟩

theorem parsePointer_eq_ok_iff_readsAs :
    parsePointer t = .ok p ↔ p.form = .pointer ∧ ReadsAs .pointer t p.segments := by
  rw [parsePointer_eq_ok_iff]
  unfold pointerOf
  split
  · exact ok_root_eq_iff
  split
  · rename_i hb
    rw [hb]
    exact readPieces_eq_ok_iff
  · rename_i hb
    exact ⟨fun h => (nomatch h), fun h => absurd h.2 (readsAs_cons_of_ne hb)⟩

theorem parseQuery_eq_ok_iff_readsAs : parseQuery t = .ok p ↔
    p.form = .query ∧ ∃ u, t = dollar :: u ∧ ReadsAs .query u p.segments := by
  rw [parseQuery_eq_ok_iff]
  unfold queryOf
  split
  · simp
  rename_i b rest
  by_cases hb : b = dollar
  · subst hb
    have hu : (∃ u, dollar :: rest = dollar :: u ∧ ReadsAs .query u p.segments) ↔
        ReadsAs .query rest p.segments := by simp
    rw [if_pos rfl, hu]
    split
    · exact ok_root_eq_iff
    split
    · rename_i hc
      rw [hc]
      exact readPieces_eq_ok_iff
    · rename_i hc
      exact ⟨fun h => (nomatch h), fun h => absurd h.2 (readsAs_cons_of_ne hc)⟩
  · simp [hb]

/-- What is read as some segments is made of pieces that spell them. -/
theorem readsAs_iff_spelling : ReadsAs form t segments ↔
    ∃ pieces : List Text, t = pieces.flatMap (slash :: ·) ∧
      pieces.length = segments.length ∧
        ∀ p ∈ pieces.zip segments, slash ∉ p.1 ∧ SegmentSpelling form p.1 p.2 := by
  refine ⟨fun h => ?_, fun h => ?_⟩
  · rcases h with ⟨rfl, rfl⟩ | ⟨rest, rfl, h⟩
    · exact ⟨[], rfl, rfl, by simp⟩
    · obtain ⟨hlength, hspelt⟩ := readSegments_eq_ok_iff_spelling.1 h
      refine ⟨rest.splitOn slash, (Text.flatMap_splitOn slash rest).symm, hlength, ?_⟩
      exact fun p hp => ⟨Text.not_mem_of_mem_splitOn (List.of_mem_zip hp).1, hspelt p hp⟩
  · obtain ⟨pieces, rfl, hlength, hspelt⟩ := h
    have hread : readSegments form pieces = .ok segments :=
      readSegments_eq_ok_iff_spelling.2 ⟨hlength, fun p hp => (hspelt p hp).2⟩
    have hslash : ∀ raw ∈ pieces, slash ∉ raw := by
      intro raw hraw
      rw [← List.map_fst_zip (Nat.le_of_eq hlength)] at hraw
      obtain ⟨p, hp, rfl⟩ := List.mem_map.1 hraw
      exact (hspelt p hp).1
    cases pieces with
    | nil => exact readsAs_nil.2 (List.eq_nil_of_length_eq_zero hlength.symm)
    | cons first more =>
        obtain ⟨hfirst, hmore⟩ := List.forall_mem_cons.1 hslash
        rw [List.flatMap_cons, List.cons_append, readsAs_slash,
          Text.splitOn_append_flatMap hfirst hmore]
        exact hread

/-- One more piece is read as one more segment. -/
theorem ReadsAs.concat {raw : Text} {s : Segment} (h : ReadsAs form t segments)
    (hslash : slash ∉ raw) (hs : readSegment form raw = .ok s) :
    ReadsAs form (t ++ slash :: raw) (segments ++ [s]) := by
  obtain ⟨pieces, rfl, hlength, hspelt⟩ := readsAs_iff_spelling.1 h
  refine readsAs_iff_spelling.2 ⟨pieces ++ [raw], by simp, by simp [hlength], ?_⟩
  rw [List.zip_append hlength, List.forall_mem_append]
  exact ⟨hspelt, List.forall_mem_singleton.2 ⟨hslash, readSegment_iff.1 hs⟩⟩

/-- There is something to read exactly if every piece is the wildcard of a query or
readable. -/
theorem exists_readsAs_iff : (∃ segments, ReadsAs form t segments) ↔
    t = [] ∨ ∃ rest, t = slash :: rest ∧
      ∀ raw ∈ rest.splitOn slash, form = .query ∧ raw = utf8 "*" ∨ Readable raw := by
  simp only [← exists_readSegment_iff, ← exists_readSegments_iff]
  refine ⟨fun h => ?_, fun h => ?_⟩
  · obtain ⟨segments, ⟨rfl, -⟩ | ⟨rest, rfl, h⟩⟩ := h
    · exact .inl rfl
    · exact .inr ⟨rest, rfl, segments, h⟩
  · rcases h with rfl | ⟨rest, rfl, segments, h⟩
    · exact ⟨[], readsAs_nil.2 rfl⟩
    · exact ⟨segments, readsAs_slash.2 h⟩

end ReadsAs

/-- A pointer is read as what it spells. -/
theorem parsePointer_eq_ok_iff_spelling {t : Text} {p : Path} :
    parsePointer t = .ok p ↔ p.form = .pointer ∧ Spelling t p := by
  rw [parsePointer_eq_ok_iff_readsAs, readsAs_iff_spelling]
  refine and_congr_right fun hform => ⟨fun h => ?_, fun h => ?_⟩
  · obtain ⟨form, segments⟩ := p
    obtain rfl : form = .pointer := hform
    obtain ⟨pieces, rfl, hspelt⟩ := h
    exact .pointer hspelt
  · cases h with
    | pointer hspelt => exact ⟨_, rfl, hspelt⟩
    | query => cases hform

/-- A query is read as what it spells. -/
theorem parseQuery_eq_ok_iff_spelling {t : Text} {p : Path} :
    parseQuery t = .ok p ↔ p.form = .query ∧ Spelling t p := by
  rw [parseQuery_eq_ok_iff_readsAs]
  simp only [readsAs_iff_spelling]
  refine and_congr_right fun hform => ⟨fun h => ?_, fun h => ?_⟩
  · obtain ⟨form, segments⟩ := p
    obtain rfl : form = .query := hform
    obtain ⟨_, rfl, pieces, rfl, hspelt⟩ := h
    exact .query hspelt
  · cases h with
    | pointer => cases hform
    | query hspelt => exact ⟨_, rfl, _, rfl, hspelt⟩

theorem exists_parsePointer_iff {t : Text} : (∃ p, parsePointer t = .ok p) ↔
    t = [] ∨ ∃ rest, t = slash :: rest ∧ ∀ raw ∈ rest.splitOn slash, Readable raw := by
  have hsegments : (∃ p, parsePointer t = .ok p) ↔ ∃ segments, ReadsAs .pointer t segments := by
    simp only [parsePointer_eq_ok_iff_readsAs]
    exact ⟨fun ⟨p, hp⟩ => ⟨p.segments, hp.2⟩, fun ⟨ss, h⟩ => ⟨⟨.pointer, ss⟩, rfl, h⟩⟩
  rw [hsegments, exists_readsAs_iff]
  simp only [reduceCtorEq, false_and, false_or]

theorem exists_parseQuery_iff {t : Text} : (∃ p, parseQuery t = .ok p) ↔
    t = [dollar] ∨ ∃ rest, t = dollar :: slash :: rest ∧
      ∀ raw ∈ rest.splitOn slash, raw = utf8 "*" ∨ Readable raw := by
  have hsegments : (∃ p, parseQuery t = .ok p) ↔
      ∃ u, t = dollar :: u ∧ ∃ segments, ReadsAs .query u segments := by
    simp only [parseQuery_eq_ok_iff_readsAs]
    refine ⟨fun ⟨p, _, u, ht, hu⟩ => ⟨u, ht, p.segments, hu⟩, fun ⟨u, ht, ss, hu⟩ => ?_⟩
    exact ⟨⟨.query, ss⟩, rfl, u, ht, hu⟩
  rw [hsegments]
  simp only [exists_readsAs_iff, true_and]
  refine ⟨fun h => ?_, fun h => ?_⟩
  · obtain ⟨u, rfl, rfl | ⟨rest, rfl, h⟩⟩ := h
    · exact .inl rfl
    · exact .inr ⟨rest, rfl, h⟩
  · rcases h with rfl | ⟨rest, rfl, h⟩
    · exact ⟨_, rfl, .inl rfl⟩
    · exact ⟨_, rfl, .inr ⟨rest, rfl, h⟩⟩

/-- The fault of an expression that is not read. -/
theorem kind_and_path_of_mapError_unreadable {r : Except PathFlaw Path} {t : Text} {f : Fault}
    (h : r.mapError (unreadable t) = .error f) : f.kind = .invalidPath ∧ f.path = t := by
  obtain ⟨flaw, -, rfl⟩ := Result.mapError_eq_error_iff.1 h
  exact ⟨rfl, rfl⟩

/-- Reading decides the grammar. A pointer is empty or a slash before readable pieces, a query
is a dollar sign alone or before a slash and pieces each of which is a bare star or readable,
and both are read as exactly the path that they spell. An expression is a query if it starts
with a dollar sign. What is not read fails with the kind for paths and cites the text. -/
theorem parse_iff_grammar (t : Text) :
    ((∃ p, parsePointer t = .ok p) ↔
      t = [] ∨ ∃ rest, t = slash :: rest ∧ ∀ raw ∈ rest.splitOn slash, Readable raw) ∧
    (∀ p, parsePointer t = .ok p ↔ p.form = .pointer ∧ Spelling t p) ∧
    ((∃ p, parseQuery t = .ok p) ↔
      t = [dollar] ∨ ∃ rest, t = dollar :: slash :: rest ∧
        ∀ raw ∈ rest.splitOn slash, raw = utf8 "*" ∨ Readable raw) ∧
    (∀ p, parseQuery t = .ok p ↔ p.form = .query ∧ Spelling t p) ∧
    (t.head? = some dollar → parse t = parseQuery t) ∧
    (t.head? ≠ some dollar → parse t = parsePointer t) ∧
    ∀ f, parsePointer t = .error f ∨ parseQuery t = .error f ∨ parse t = .error f →
      f.kind = .invalidPath ∧ f.path = t := by
  have hquery : t.head? = some dollar → parse t = parseQuery t := fun h => by
    rw [parse, isQueryText, if_pos (beq_iff_eq.2 h)]
  have hpointer : t.head? ≠ some dollar → parse t = parsePointer t := fun h => by
    rw [parse, isQueryText, if_neg (by simpa using h)]
  refine ⟨exists_parsePointer_iff, fun p => parsePointer_eq_ok_iff_spelling,
    exists_parseQuery_iff, fun p => parseQuery_eq_ok_iff_spelling, hquery, hpointer, fun f h => ?_⟩
  rcases h with h | h | h
  · exact kind_and_path_of_mapError_unreadable h
  · exact kind_and_path_of_mapError_unreadable h
  · by_cases hdollar : t.head? = some dollar
    · exact kind_and_path_of_mapError_unreadable (hquery hdollar ▸ h)
    · exact kind_and_path_of_mapError_unreadable (hpointer hdollar ▸ h)

/-- A query whose digits and dash are escaped, with a tilde that is one only after the first
stage of unescaping, and a pointer that ends inside an escape. -/
theorem parse_iff_grammar_escapes :
    (parse (utf8 "$/00%37/%2D/~01/*") =
        .ok ⟨.query, [.index 7, .append, .key (utf8 "~1"), .wildcard]⟩ ∧
      Spelling (utf8 "$/00%37/%2D/~01/*")
        ⟨.query, [.index 7, .append, .key (utf8 "~1"), .wildcard]⟩) ∧
      parse (utf8 "/a/%4") =
        .error (unreadable (utf8 "/a/%4") (.truncatedPercent (utf8 "%4"))) ∧
      ¬∀ raw ∈ [utf8 "a", utf8 "%4"], Readable raw := by
  have hread : parseQuery (utf8 "$/00%37/%2D/~01/*") =
      .ok ⟨.query, [.index 7, .append, .key (utf8 "~1"), .wildcard]⟩ := by decide +kernel
  have hcut : parsePointer (utf8 "/a/%4") =
      .error (unreadable (utf8 "/a/%4") (.truncatedPercent (utf8 "%4"))) := by decide +kernel
  have hdollar : (utf8 "$/00%37/%2D/~01/*").head? = some dollar := by decide
  have hslash : (utf8 "/a/%4").head? ≠ some dollar := by decide
  have hpieces : (utf8 "a/%4").splitOn slash = [utf8 "a", utf8 "%4"] := by decide
  have htext : utf8 "/a/%4" = slash :: utf8 "a/%4" := by decide
  obtain ⟨-, -, -, hspelt, hquery, -, -⟩ := parse_iff_grammar (utf8 "$/00%37/%2D/~01/*")
  obtain ⟨haccepted, -, -, -, -, hpointer, -⟩ := parse_iff_grammar (utf8 "/a/%4")
  refine ⟨⟨?_, ((hspelt _).1 hread).2⟩, ?_, fun h => ?_⟩
  · rw [hquery hdollar, hread]
  · rw [hpointer hslash, hcut]
  · obtain ⟨q, hq⟩ := haccepted.2 (.inr ⟨_, htext, hpieces ▸ h⟩)
    rw [hcut] at hq
    cases hq

end Path

end TreePatch
