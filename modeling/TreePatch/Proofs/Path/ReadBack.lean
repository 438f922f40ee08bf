import Mathlib.Control.Monad.Basic
import TreePatch.Path.Grammar

set_option autoImplicit false

/-!
# Reading back the pointer text of a path

The written form of a path joins the escaped names of its steps. Reading it splits
at the same slashes and unescapes the same names, so all that can change is the sort
of a segment, which reading decides anew (`pointerOf_joined`, `readSegment_escape`).
The segments whose sort survives are the `Legible` ones, and reading makes no other
segment but the wildcard (`legible_of_parse`). A path that was read therefore comes
back from its pointer text segment by segment.
-/

namespace TreePatch

open Text (slash tilde percent)

/-! ## Unescaping what was escaped -/

namespace Text

/-- A text without the three special bytes is its own written form. -/
theorem escape_eq_self {t : Text} (h : ∀ b ∈ t, b ≠ tilde ∧ b ≠ slash ∧ b ≠ percent) :
    escape t = t := by
  induction t with
  | nil => rfl
  | cons b t ih =>
      obtain ⟨ht, hs, hp⟩ := h b List.mem_cons_self
      have hrest := ih fun c hc => h c (List.mem_cons_of_mem _ hc)
      rw [escape, List.flatMap_cons, ← escape, escapeByte_of_ne ht hs hp, hrest]
      rfl

theorem escapeByte_ne_nil (b : UInt8) : escapeByte b ≠ [] := by
  unfold escapeByte
  split
  · decide
  split
  · decide
  split
  · decide
  · simp

@[simp] theorem escape_eq_nil_iff {t : Text} : escape t = [] ↔ t = [] := by
  cases t with
  | nil => simp [escape]
  | cons b t => simp [escape, escapeByte_ne_nil]

/-- Pieces that are joined by a byte that none of them holds are split at that byte. -/
theorem splitOn_append_flatMap {b : UInt8} {first : Text} {more : List Text}
    (hfirst : b ∉ first) (hmore : ∀ piece ∈ more, b ∉ piece) :
    (first ++ more.flatMap (b :: ·)).splitOn b = first :: more := by
  induction more generalizing first with
  | nil =>
      rw [List.flatMap_nil, List.append_nil]
      exact List.splitOn_eq_singleton hfirst
  | cons piece more ih =>
      obtain ⟨hpiece, hmore⟩ := List.forall_mem_cons.1 hmore
      rw [List.flatMap_cons, List.cons_append,
        List.splitOn_append_cons_self_of_not_mem hfirst, ih hpiece hmore]

/-- A text is split where the byte is first found, and then behind that place. -/
theorem splitOn_of_idxOf? {b : UInt8} {t : Text} {next : Nat} (h : t.idxOf? b = some next) :
    t.splitOn b = t.take next :: (t.drop (next + 1)).splitOn b := by
  obtain ⟨hlt, hb, hbefore⟩ := List.idxOf?_eq_some_iff.1 h
  have hcut : t = t.take next ++ b :: t.drop (next + 1) := by
    rw [← hb, List.getElem_cons_drop, List.take_append_drop]
  have hfirst : b ∉ t.take next := by
    intro hmem
    obtain ⟨i, hi, hbi⟩ := List.getElem_of_mem hmem
    rw [List.getElem_take] at hbi
    rw [List.length_take] at hi
    exact hbefore i (by omega) hbi
  calc t.splitOn b
      _ = (t.take next ++ b :: t.drop (next + 1)).splitOn b := congrArg (List.splitOn b) hcut
      _ = t.take next :: (t.drop (next + 1)).splitOn b :=
        List.splitOn_append_cons_self_of_not_mem hfirst _

/-- Undoing tildes makes nothing out of nothing only. -/
theorem TildeSpelling.eq_nil {raw : Text} (h : TildeSpelling raw []) : raw = [] := by
  cases h
  rfl

theorem PercentSpelling.eq_nil {raw : Text} (h : PercentSpelling raw []) : raw = [] := by
  cases h
  rfl

end Text

namespace Decimal

/-- A digit is none of the bytes that are escaped. -/
theorem ne_special_of_isDigit {b : UInt8} (h : isDigit b = true) :
    b ≠ tilde ∧ b ≠ slash ∧ b ≠ percent := by
  refine ⟨?_, ?_, ?_⟩ <;>
    · intro e
      subst e
      revert h
      decide

theorem escape_ofNat (n : Nat) : (ofNat n).escape = ofNat n :=
  Text.escape_eq_self fun _ hb => ne_special_of_isDigit (isDigit_of_mem_ofNat hb)

end Decimal

namespace Path

theorem unescape_escape (t : Text) : unescape t.escape = .ok t := by
  rw [unescape, Text.undoTildes_escape]
  simp only [Text.undoPercents_escapePercents]

/-- Reading a written name decides its sort anew. Only the empty name is refused. -/
theorem readSegment_escape {name : Text} (h : name ≠ []) :
    readSegment .pointer name.escape = classify name := by
  rw [readSegment, if_neg (by simpa using h), if_neg (by simp), unescape_escape]
  rfl

end Path

/-! ## The written form of a segment -/

namespace Segment

/-- Every segment is written as the escaped name of its step. -/
theorem toText_eq_escape (s : Segment) : s.toText = (s.memberName?.getD (utf8 "*")).escape := by
  cases s with
  | key name => rfl
  | index n => exact (Decimal.escape_ofNat n).symm
  | append => decide
  | wildcard => decide

theorem slash_not_mem_toText (s : Segment) : slash ∉ s.toText := by
  rw [toText_eq_escape]
  exact Text.slash_not_mem_escape _

/-- The text of a position reads back as the position if it fits 64 bits, and is not read
otherwise. -/
theorem readSegment_index (n : Nat) :
    Path.readSegment .pointer (Segment.index n).toText =
      if n < UInt64.size then .ok (.index n) else .error (.hugeIndex (Decimal.ofNat n)) := by
  rw [toText_eq_escape]
  change Path.readSegment .pointer (Decimal.ofNat n).escape = _
  rw [Path.readSegment_escape (Decimal.ofNat_ne_nil n), Path.classify,
    if_neg (Decimal.ofNat_ne_dash n), if_pos (Decimal.isNumeral_ofNat n), Decimal.value_ofNat]

/-- A segment that its own text spells: a name that is neither empty nor of another
sort, or a position that fits 64 bits, or the end. -/
def Legible : Segment → Prop
  | .key name => name ≠ [] ∧ name ≠ utf8 "-" ∧ Decimal.isNumeral name = false
  | .index n => n < UInt64.size
  | .append => True
  | .wildcard => False

/-- The text of a legible segment reads back as the segment. -/
theorem Legible.readSegment_toText {s : Segment} (h : s.Legible) :
    Path.readSegment .pointer s.toText = .ok s := by
  cases s with
  | key name =>
      obtain ⟨hne, hdash, hnum⟩ := h
      change Path.readSegment .pointer name.escape = _
      rw [Path.readSegment_escape hne, Path.classify, if_neg hdash, if_neg (by simp [hnum])]
  | index n => rw [readSegment_index, if_pos (show n < UInt64.size from h)]
  | append => rfl
  | wildcard => exact absurd h id

end Segment

/-! ## The written form of a path -/

namespace Path

theorem joined_cons (s : Segment) (rest : List Segment) :
    joined (s :: rest) = slash :: (s.toText ++ joined rest) := rfl

/-- Steps with the same names are written alike. -/
theorem joined_congr {ss ts : List Segment}
    (h : ss.map Segment.memberName? = ts.map Segment.memberName?) : joined ss = joined ts := by
  have key : ∀ segments, joined segments = (segments.map Segment.memberName?).flatMap
      fun name => slash :: (name.getD (utf8 "*")).escape := by
    intro segments
    rw [joined, List.flatMap_map]
    simp only [Segment.toText_eq_escape]
  rw [key, key, h]

/-- Splitting what follows the first slash gives the texts of the segments. -/
theorem splitOn_joined (s : Segment) (rest : List Segment) :
    (s.toText ++ joined rest).splitOn slash = s.toText :: rest.map Segment.toText := by
  have hjoined : joined rest = (rest.map Segment.toText).flatMap (slash :: ·) := by
    rw [joined, List.flatMap_map]
  rw [hjoined]
  refine Text.splitOn_append_flatMap s.slash_not_mem_toText fun piece hpiece => ?_
  obtain ⟨t, -, rfl⟩ := List.mem_map.1 hpiece
  exact t.slash_not_mem_toText

/-- Looking for one slash after another reads the pieces of the text between its slashes. -/
theorem readFrom_eq (p : Path) (t : Text) : readFrom p t =
    (readSegments p.form (t.splitOn slash)).map fun ss => ⟨p.form, p.segments ++ ss⟩ := by
  fun_induction readFrom p t with
  | case1 p t hnext =>
      rw [List.splitOn_eq_singleton (List.idxOf?_eq_none_iff.1 hnext), readSegments]
      cases readSegment p.form t <;> rfl
  | case2 p t next hnext flaw hflaw =>
      rw [Text.splitOn_of_idxOf? hnext, readSegments, hflaw]
      rfl
  | case3 p t next hnext s hs _ ih =>
      rw [Text.splitOn_of_idxOf? hnext, readSegments, hs, ih]
      -- The segment that was read stands at the end of the path, and before the others.
      show (readSegments p.form _).map _ = ((readSegments p.form _).map (s :: ·)).map _
      cases readSegments p.form ((t.drop (next + 1)).splitOn slash) with
      | error flaw => rfl
      | ok ss =>
          exact congrArg (fun segments => Except.ok (Path.mk p.form segments))
            (List.append_assoc p.segments [s] ss)

theorem readPieces_eq (form : Form) (t : Text) : readPieces form t =
    (readSegments form (t.splitOn slash)).map fun segments => ⟨form, segments⟩ :=
  readFrom_eq ⟨form, []⟩ t

/-- Reading the joined segments reads the text of each. -/
theorem pointerOf_joined (segments : List Segment) :
    pointerOf (joined segments) =
      (readSegments .pointer (segments.map Segment.toText)).map fun ss => ⟨.pointer, ss⟩ := by
  cases segments with
  | nil => rfl
  | cons s rest =>
      rw [joined_cons, pointerOf, if_pos rfl, readPieces_eq, splitOn_joined]
      rfl

/-- Pieces are read one by one. -/
theorem readSegments_eq_ok_iff {form : Form} {pieces : List Text} {segments : List Segment} :
    readSegments form pieces = .ok segments ↔
      pieces.map (readSegment form) = segments.map .ok := by
  induction pieces generalizing segments with
  | nil => cases segments <;> simp [readSegments]
  | cons raw pieces ih =>
      -- Both sides fail at the first piece that cannot be read.
      rw [readSegments, List.map_cons]
      cases hraw : readSegment form raw with
      | error flaw => cases segments <;> simp
      | ok s =>
          simp only [Result.map_eq_ok_iff, ih]
          cases segments with
          | nil => simp
          | cons t segments =>
              simp only [List.map_cons, List.cons.injEq, Except.ok.injEq]
              refine ⟨fun h => ?_, fun h => ?_⟩
              · obtain ⟨_, hmap, rfl, rfl⟩ := h
                exact ⟨rfl, hmap⟩
              · obtain ⟨rfl, hmap⟩ := h
                exact ⟨segments, hmap, rfl, rfl⟩

/-- Every segment that is read is spelt by one of the pieces. -/
theorem exists_piece_of_readSegments {form : Form} {pieces : List Text}
    {segments : List Segment} (h : readSegments form pieces = .ok segments) {s : Segment}
    (hs : s ∈ segments) : ∃ raw ∈ pieces, readSegment form raw = .ok s := by
  have hmem : Except.ok s ∈ pieces.map (readSegment form) := by
    rw [readSegments_eq_ok_iff.1 h]
    exact List.mem_map_of_mem hs
  exact List.mem_map.1 hmem

theorem parsePointer_eq_ok_iff {t : Text} {p : Path} :
    parsePointer t = .ok p ↔ pointerOf t = .ok p := Result.mapError_eq_ok_iff

theorem parseQuery_eq_ok_iff {t : Text} {p : Path} :
    parseQuery t = .ok p ↔ queryOf t = .ok p := Result.mapError_eq_ok_iff

/-- What is read as a pointer does not start like a query. -/
theorem isQueryText_of_parsePointer {t : Text} {p : Path} (h : parsePointer t = .ok p) :
    isQueryText t = false := by
  rw [parsePointer_eq_ok_iff] at h
  unfold pointerOf at h
  split at h
  · rfl
  split at h
  · rename_i hb
    rw [hb]
    rfl
  · cases h

theorem isQueryText_of_parseQuery {t : Text} {q : Path} (h : parseQuery t = .ok q) :
    isQueryText t = true := by
  rw [parseQuery_eq_ok_iff] at h
  unfold queryOf at h
  split at h
  · cases h
  split at h
  · rename_i hb
    simp [isQueryText, hb]
  · cases h

/-- What is read as a pointer is read as that path. -/
theorem parse_eq_ok_of_parsePointer {t : Text} {p : Path} (h : parsePointer t = .ok p) :
    parse t = .ok p := by
  rw [parse, isQueryText_of_parsePointer h, if_neg Bool.false_ne_true, h]

theorem parse_eq_ok_of_parseQuery {t : Text} {q : Path} (h : parseQuery t = .ok q) :
    parse t = .ok q := by
  rw [parse, if_pos (isQueryText_of_parseQuery h), h]

/-- The pointer text of legible segments reads back as these segments. -/
theorem parsePointer_joined {segments : List Segment} (h : ∀ s ∈ segments, s.Legible) :
    parsePointer (joined segments) = .ok ⟨.pointer, segments⟩ := by
  have hread : readSegments .pointer (segments.map Segment.toText) = .ok segments := by
    rw [readSegments_eq_ok_iff, List.map_map]
    exact List.map_congr_left fun s hs => (h s hs).readSegment_toText
  rw [parsePointer_eq_ok_iff, pointerOf_joined, hread]
  rfl

theorem canonical_of_concrete {p : Path} (h : Segment.wildcard ∉ p.segments) :
    p.canonical = .ok (joined p.segments) := by
  rw [canonical, if_pos (isConcrete_iff.2 h)]
  rfl

theorem canonical_isOk_iff {p : Path} :
    (∃ c, p.canonical = .ok c) ↔ Segment.wildcard ∉ p.segments := by
  refine ⟨fun h => ?_, fun h => ⟨_, canonical_of_concrete h⟩⟩
  obtain ⟨c, hc⟩ := h
  unfold canonical at hc
  split at hc
  · rename_i hp
    exact isConcrete_iff.1 hp
  · cases hc

/-! ## What reading makes -/

/-- A piece spells a legible segment or the wildcard. -/
theorem SegmentSpelling.legible {form : Form} {raw : Text} {s : Segment}
    (h : SegmentSpelling form raw s) : s = .wildcard ∨ s.Legible := by
  cases h with
  | wildcard => exact .inl rfl
  | append => exact .inr trivial
  | index _ _ _ _ hfits => exact .inr hfits
  | key hraw _ ht hname hdash hnum =>
      refine .inr ⟨?_, hdash, hnum⟩
      intro e
      subst e
      -- Neither stage of unescaping makes a text empty.
      rw [hname.eq_nil] at ht
      exact hraw ht.eq_nil

/-- The pieces of a text that was read. -/
theorem exists_pieces_of_parse {t : Text} {p : Path} (h : parse t = .ok p) :
    ∃ pieces, readSegments p.form pieces = .ok p.segments := by
  have pieces_of_readPieces : ∀ {form : Form} {rest : Text},
      readPieces form rest = .ok p → ∃ pieces, readSegments p.form pieces = .ok p.segments := by
    intro form rest hp
    rw [readPieces_eq] at hp
    obtain ⟨segments, hsegments, rfl⟩ := Result.map_eq_ok_iff.1 hp
    exact ⟨_, hsegments⟩
  rw [parse] at h
  split at h
  · rw [parseQuery_eq_ok_iff] at h
    unfold queryOf at h
    split at h
    · cases h
    split at h
    · split at h
      · cases h
        exact ⟨[], rfl⟩
      split at h
      · exact pieces_of_readPieces h
      · cases h
    · cases h
  · rw [parsePointer_eq_ok_iff] at h
    unfold pointerOf at h
    split at h
    · cases h
      exact ⟨[], rfl⟩
    split at h
    · exact pieces_of_readPieces h
    · cases h

/-- Every segment of a path that was read is legible or the wildcard. -/
theorem legible_of_parse {t : Text} {p : Path} (h : parse t = .ok p) {s : Segment}
    (hs : s ∈ p.segments) : s = .wildcard ∨ s.Legible := by
  obtain ⟨pieces, hpieces⟩ := exists_pieces_of_parse h
  obtain ⟨raw, -, hraw⟩ := exists_piece_of_readSegments hpieces hs
  exact (readSegment_iff.1 hraw).legible

/-- A path that was read has a pointer text exactly when it has no wildcard, and the
text reads back as a pointer with the same segments and the same text. -/
theorem parse_canonical_roundTrip {t : Text} {p : Path} (h : parse t = .ok p) :
    ((∃ c, p.canonical = .ok c) ↔ Segment.wildcard ∉ p.segments) ∧
      (Segment.wildcard ∉ p.segments →
        ∃ c q, p.canonical = .ok c ∧ parsePointer c = .ok q ∧ q.form = .pointer ∧
          q.segments = p.segments ∧ q.canonical = .ok c) := by
  refine ⟨canonical_isOk_iff, fun hw => ?_⟩
  -- Without wildcards all segments are legible, so each reads back as itself.
  have legible : ∀ s ∈ p.segments, s.Legible := by
    intro s hs
    rcases legible_of_parse h hs with rfl | hs'
    · exact absurd hs hw
    · exact hs'
  exact ⟨_, ⟨.pointer, p.segments⟩, canonical_of_concrete hw, parsePointer_joined legible, rfl,
    rfl, canonical_of_concrete hw⟩

/-- A query with every kind of escape: a slash, a star, a position with leading zeros
whose first digit is escaped, a percent sign and the end. -/
theorem parse_canonical_roundTrip_escapes :
    parse (utf8 "$/a~1b/%2a/%307/%25/-") =
        .ok ⟨.query, [.key (utf8 "a/b"), .key (utf8 "*"), .index 7, .key (utf8 "%"), .append]⟩ ∧
      ∃ q, parsePointer (utf8 "/a~1b/*/7/%25/-") = .ok q ∧ q.form = .pointer ∧
        q.segments =
          [.key (utf8 "a/b"), .key (utf8 "*"), .index 7, .key (utf8 "%"), .append] := by
  have hread : parse (utf8 "$/a~1b/%2a/%307/%25/-") =
      .ok ⟨.query, [.key (utf8 "a/b"), .key (utf8 "*"), .index 7, .key (utf8 "%"), .append]⟩ := by
    decide +kernel
  obtain ⟨c, q, hc, hq, hform, hsegments, -⟩ :=
    (parse_canonical_roundTrip hread).2 (by decide)
  have htext : c = utf8 "/a~1b/*/7/%25/-" := by
    have := hc.symm.trans (canonical_of_concrete (by decide))
    cases this
    decide
  exact ⟨hread, q, htext ▸ hq, hform, hsegments⟩

end Path

end TreePatch
