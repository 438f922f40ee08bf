import TreePatch.Proofs.Path.ReadBack

set_option autoImplicit false

/-!
# Which paths read back from their pointer text

Writing a path keeps the name of every step and nothing else, and reading decides the sort
of a step by its name alone. A path without wildcards therefore reads back as a path with
the same steps exactly if each of its names is one that reading can give to a step
(`Text.IsSpellable`), which neither the empty name is nor every run of digits.

* `Segment.Legible.isSpellable`, `Segment.exists_legible_of_isSpellable`: the names of
  the segments that can be read are the spellable ones.
* `Path.isSpellable_of_parse`: so every path that was read has spellable names.
* `Path.canonical_readsBack_iff`: the pointer text reads back exactly if all names are
  spellable, and if it does not, no other expression stands for the path either.
-/

namespace TreePatch

/-! ## Spellable names -/

/-- A name that reading can give to a step: it is not empty, and if it is made of digits it is
the numeral of a position that fits 64 bits. -/
def Text.IsSpellable (name : Text) : Prop :=
  name ≠ [] ∧ (Decimal.isNumeral name = true →
    Decimal.value name < UInt64.size ∧ Decimal.ofNat (Decimal.value name) = name)

instance : DecidablePred Text.IsSpellable := fun _ => inferInstanceAs (Decidable (_ ∧ _))

namespace Text

variable {name : Text}

theorem isSpellable_of_not_isNumeral (hne : name ≠ []) (h : Decimal.isNumeral name = false) :
    name.IsSpellable := ⟨hne, fun hnum => by simp [h] at hnum⟩

/-- The numerals of the positions that fit are spellable. -/
theorem isSpellable_ofNat_iff {n : Nat} : (Decimal.ofNat n).IsSpellable ↔ n < UInt64.size := by
  rw [IsSpellable, Decimal.value_ofNat, Decimal.isNumeral_ofNat]
  simp [Decimal.ofNat_ne_nil]

end Text

namespace Segment

variable {s : Segment} {name : Text}

/-- A segment that reads back as itself has a spellable name. -/
theorem Legible.isSpellable (h : s.Legible) (hname : s.memberName? = some name) :
    name.IsSpellable := by
  cases s with
  | key _ =>
      cases hname
      exact Text.isSpellable_of_not_isNumeral h.1 h.2.2
  | index n =>
      cases hname
      exact Text.isSpellable_ofNat_iff.2 h
  | append =>
      cases hname
      decide
  | wildcard => exact absurd h id

/-- Every spellable name is that of a segment that reads back as itself. -/
theorem exists_legible_of_isSpellable (h : name.IsSpellable) :
    ∃ s : Segment, s.Legible ∧ s.memberName? = some name := by
  by_cases hdash : name = utf8 "-"
  · exact ⟨.append, trivial, congrArg some hdash.symm⟩
  cases hnum : Decimal.isNumeral name with
  | false => exact ⟨.key name, ⟨h.1, hdash, hnum⟩, rfl⟩
  | true =>
      obtain ⟨hfits, hname⟩ := h.2 hnum
      exact ⟨.index (Decimal.value name), hfits, congrArg some hname⟩

end Segment

/-! ## Reading written names -/

namespace Path

/-- Every name of a path that was read is spellable. -/
theorem isSpellable_of_parse {t : Text} {q : Path} (h : parse t = .ok q) {name : Text}
    (hname : some name ∈ q.names) : name.IsSpellable := by
  obtain ⟨s, hs, hsname⟩ := List.mem_map.1 hname
  rcases legible_of_parse h hs with rfl | hlegible
  · cases hsname
  · exact hlegible.isSpellable hsname

/-- Spellable names are those of segments that read back as themselves. -/
theorem exists_legible_names {ss : List Segment} (hconcrete : Segment.wildcard ∉ ss)
    (h : ∀ name, some name ∈ ss.map Segment.memberName? → name.IsSpellable) :
    ∃ ts : List Segment, (∀ t ∈ ts, t.Legible) ∧
      ts.map Segment.memberName? = ss.map Segment.memberName? := by
  induction ss with
  | nil => exact ⟨[], by simp, rfl⟩
  | cons s ss ih =>
      obtain ⟨hs, hss⟩ := List.ne_and_not_mem_of_not_mem_cons hconcrete
      obtain ⟨ts, hts, hnames⟩ := ih hss fun name hname => h name (List.mem_cons_of_mem _ hname)
      obtain ⟨name, hname⟩ := Segment.exists_memberName?_of_ne (Ne.symm hs)
      have hmem : some name ∈ (s :: ss).map Segment.memberName? := by
        rw [List.map_cons, hname]
        exact List.mem_cons_self
      obtain ⟨t, ht, htname⟩ := Segment.exists_legible_of_isSpellable (h name hmem)
      refine ⟨t :: ts, List.forall_mem_cons.2 ⟨ht, hts⟩, ?_⟩
      rw [List.map_cons, List.map_cons, hnames, htname, hname]

/-- Spellable names survive in the pointer text. -/
theorem exists_parsePointer_joined {p : Path} (hconcrete : Segment.wildcard ∉ p.segments)
    (h : ∀ name, some name ∈ p.names → name.IsSpellable) :
    ∃ q, parsePointer (joined p.segments) = .ok q ∧ q.same p = true := by
  obtain ⟨ts, hlegible, hnames⟩ := exists_legible_names hconcrete h
  refine ⟨⟨.pointer, ts⟩, ?_, same_iff.2 hnames⟩
  rw [← joined_congr hnames]
  exact parsePointer_joined hlegible

/-- A path without wildcards has a pointer text. It reads back as a path with the same steps
exactly if every name is spellable, and also exactly if any expression is read as such a
path. -/
theorem canonical_readsBack_iff {p : Path} (hconcrete : Segment.wildcard ∉ p.segments) :
    ∃ c, p.canonical = .ok c ∧
      ((∃ q, parsePointer c = .ok q ∧ q.same p = true) ↔
        ∀ name, some name ∈ p.names → name.IsSpellable) ∧
      ((∃ t q, parse t = .ok q ∧ q.same p = true) ↔
        ∀ name, some name ∈ p.names → name.IsSpellable) := by
  have hspellable : ∀ t q, parse t = .ok q → q.same p = true →
      ∀ name, some name ∈ p.names → name.IsSpellable := by
    intro t q hq hsame name hname
    rw [← same_iff.1 hsame] at hname
    exact isSpellable_of_parse hq hname
  refine ⟨_, canonical_of_concrete hconcrete, ⟨fun h => ?_, fun h => ?_⟩, fun h => ?_, fun h => ?_⟩
  · obtain ⟨q, hq, hsame⟩ := h
    exact hspellable _ q (parse_eq_ok_of_parsePointer hq) hsame
  · exact exists_parsePointer_joined hconcrete h
  · obtain ⟨t, q, hq, hsame⟩ := h
    exact hspellable t q hq hsame
  · obtain ⟨q, hq, hsame⟩ := exists_parsePointer_joined hconcrete h
    exact ⟨_, q, parse_eq_ok_of_parsePointer hq, hsame⟩

/-- Names that are escaped, or look like a position or like the end, read back. For a numeral
with leading zeros there is no expression at all. -/
theorem canonical_readsBack_iff_names :
    (∃ c, (⟨.query, [.key (utf8 "~/%"), .key (utf8 "404"), .append]⟩ : Path).canonical = .ok c ∧
      ∃ q, parsePointer c = .ok q ∧
        q.same ⟨.query, [.key (utf8 "~/%"), .key (utf8 "404"), .append]⟩ = true) ∧
    ¬∃ t q, parse t = .ok q ∧ q.same ⟨.pointer, [.key (utf8 "007")]⟩ = true := by
  obtain ⟨c, hc, hback, -⟩ := canonical_readsBack_iff
    (p := ⟨.query, [.key (utf8 "~/%"), .key (utf8 "404"), .append]⟩) (by decide)
  obtain ⟨-, -, -, hany⟩ := canonical_readsBack_iff
    (p := ⟨.pointer, [.key (utf8 "007")]⟩) (by decide)
  refine ⟨⟨c, hc, hback.2 fun name hname => ?_⟩, fun h => ?_⟩
  · simp only [names, Segment.memberName?, List.map_cons, List.map_nil, List.mem_cons,
      Option.some.injEq, List.not_mem_nil, or_false] at hname
    rcases hname with rfl | rfl | rfl <;> decide
  · exact absurd (hany.1 h (utf8 "007") (by decide)) (by decide)

/-- Not every path without wildcards and without positions beyond 64 bits reads back from its
pointer text: the name `007` is read as the position 7, whose name is `7`. -/
theorem not_forall_canonical_readsBack :
    ¬∀ p : Path, Segment.wildcard ∉ p.segments →
      (∀ n, Segment.index n ∈ p.segments → n < UInt64.size) →
        ∃ c q, p.canonical = .ok c ∧ parsePointer c = .ok q ∧ q.same p = true := by
  intro h
  have hread : parsePointer (utf8 "/007") = .ok ⟨.pointer, [.index 7]⟩ := by decide +kernel
  have htext : joined [.key (utf8 "007")] = utf8 "/007" := by decide
  obtain ⟨c, q, hc, hq, hsame⟩ :=
    h ⟨.pointer, [.key (utf8 "007")]⟩ (by decide) (by simp)
  obtain rfl : joined [.key (utf8 "007")] = c :=
    Except.ok.inj ((canonical_of_concrete (by decide)).symm.trans hc)
  rw [htext, hread] at hq
  cases hq
  exact absurd hsame (by decide)

end Path

end TreePatch
