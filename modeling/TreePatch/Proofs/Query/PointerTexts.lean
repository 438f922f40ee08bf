import Mathlib.Data.List.Forall2
import TreePatch.Proofs.Patch.Fanout
import TreePatch.Proofs.Path.Canonical
import TreePatch.Proofs.Path.Location
import TreePatch.Proofs.Value.Domain

set_option autoImplicit false

/-!
# Where the pointer texts of a query lead

A query walks the document by its names, while the pointer texts it hands out are read
again, and reading gives each step a sort of its own. A text finds its way back to the
node it was written for exactly if all names on the way are spellable
(`leadsTo_canonical_iff`). For a query that ends in the wildcard there is a node at every
place, so this settles which of its texts can be relied upon
(`queryPointers_lead_iff`): those through the empty name, or through a numeral that has
leading zeros or does not fit 64 bits, are refused or lead elsewhere.
-/

namespace TreePatch

/-- A pointer text leads to a location. -/
def Value.LeadsTo (d : Value) (pointer : Text) (l : List Nat) : Prop :=
  ∃ r, Path.parsePointer pointer = .ok r ∧ d.location r.segments = some l

namespace Path

/-- Every name of the path is one that reading can give to a step. -/
def IsSpellable (p : Path) : Prop := ∀ name, some name ∈ p.names → name.IsSpellable

/-! ## One place -/

section Place

variable {d x : Value} {text s : Text} {q p : Path} {places : List Path} {l : List Nat}

/-- The pointer text of a place with spellable names is read as another way to the place. -/
theorem exists_way_of_isSpellable (hd : d.WellFormed) (hq : parseQuery text = .ok q)
    (hplaces : q.queryPaths d = .ok places) (hp : p ∈ places) (hs : p.canonical = .ok s)
    (hspell : p.IsSpellable) :
    ∃ r, parsePointer s = .ok r ∧ r.names = p.names ∧
      d.follow r.segments = d.follow p.segments := by
  have hconcrete : Segment.wildcard ∉ p.segments :=
    ((mem_queryPaths_iff hd hplaces).1 hp).2.wildcard_not_mem
  have htext : joined p.segments = s :=
    Except.ok.inj ((canonical_of_concrete hconcrete).symm.trans hs)
  obtain ⟨back, hback, hsame⟩ := exists_parsePointer_joined hconcrete hspell
  rw [htext] at hback
  have hreads : p.readsBack? = some true := by
    simp only [readsBack?, hs, hback, hsame]
  obtain ⟨-, hcanonical, r, hr, -, halike⟩ := exists_alike_of_readsBack hd hq hplaces hp hreads
  rw [hs, Except.ok.injEq] at hcanonical
  exact ⟨r, hcanonical ▸ hr, halike.map_memberName?.symm, halike.follow.symm⟩

/-- Where there is a node at a place, the pointer text of the place leads to that node exactly
if every name of the place is spellable. -/
theorem leadsTo_canonical_iff (hd : d.WellFormed) (hq : parseQuery text = .ok q)
    (hplaces : q.queryPaths d = .ok places) (hp : p ∈ places) (hs : p.canonical = .ok s)
    (hx : d.get p = .ok x) (hl : d.location p.segments = some l) :
    d.LeadsTo s l ↔ p.IsSpellable := by
  refine ⟨fun h => ?_, fun h => ?_⟩
  · -- Two ways to one node have the same names, and names that were read are spellable.
    obtain ⟨r, hr, hlr⟩ := h
    have hnames : r.names = p.names := (Value.location_eq_iff hlr hl).1 rfl
    intro name hname
    rw [← hnames] at hname
    exact isSpellable_of_parse (parse_eq_ok_of_parsePointer hr) hname
  · obtain ⟨r, hr, hnames, hway⟩ := exists_way_of_isSpellable hd hq hplaces hp hs h
    have hxr : d.get r = .ok x := by
      rw [Value.get_eq_ok_iff, hway]
      exact Value.get_eq_ok_iff.1 hx
    obtain ⟨l', hl', -⟩ := Value.exists_location_of_get hxr
    obtain rfl : l' = l := (Value.location_eq_iff hl' hl).2 hnames
    exact ⟨r, hr, hl'⟩

/-- Looking up the pointer text of a place with spellable names finds the value there. -/
theorem getPointer_canonical (hd : d.WellFormed) (hq : parseQuery text = .ok q)
    (hplaces : q.queryPaths d = .ok places) (hp : p ∈ places) (hs : p.canonical = .ok s)
    (hx : d.get p = .ok x) (hspell : p.IsSpellable) : d.getPointer s = .ok x := by
  obtain ⟨r, hr, -, hway⟩ := exists_way_of_isSpellable hd hq hplaces hp hs hspell
  refine Result.bind_eq_ok_iff.2 ⟨r, hr, ?_⟩
  rw [Value.get_eq_ok_iff, hway]
  exact Value.get_eq_ok_iff.1 hx

end Place

/-! ## All places of a query -/

/-- A query that ends in the wildcard hands out one text for each of its places, and at each
place stands a value. The text leads to the place exactly if every name on the way is
spellable, and then looking it up finds the value. -/
theorem queryPointers_lead_iff {d : Value} (hd : d.WellFormed) {text : Text} {q : Path}
    (hq : parseQuery text = .ok q) (hlast : q.last? = some .wildcard) {texts : List Text}
    (htexts : queryPointers d text = .ok texts) :
    ∃ places, q.queryPaths d = .ok places ∧
      List.Forall₂ (fun p s => ∃ x l, d.get p = .ok x ∧ d.location p.segments = some l ∧
        (d.LeadsTo s l ↔ p.IsSpellable) ∧ (p.IsSpellable → d.getPointer s = .ok x))
        places texts := by
  obtain ⟨q', places, hq', hplaces, hcanonical⟩ := exists_places_of_queryPointers htexts
  obtain rfl : q' = q := Except.ok.inj (hq'.symm.trans hq)
  refine ⟨places, hplaces, List.forall₂_iff_get.2 ⟨?_, fun i hi hi' => ?_⟩⟩
  · simpa using congrArg List.length hcanonical
  have hp : places[i] ∈ places := List.getElem_mem hi
  have hs : places[i].canonical = .ok texts[i] := by
    have hget := congrArg (fun answers => answers[i]?) hcanonical
    simpa [hi, hi'] using hget
  have hinst := ((mem_queryPaths_iff hd hplaces).1 hp).2
  obtain ⟨x, hfollow⟩ := hinst.exists_follow hd (.inr hlast)
  have hx : d.get places[i] = .ok x := Value.get_eq_ok_iff.2 hfollow
  obtain ⟨l, hl, -⟩ := Value.exists_location_of_get hx
  exact ⟨x, l, hx, hl, leadsTo_canonical_iff hd hq hplaces hp hs hx hl,
    getPointer_canonical hd hq hplaces hp hs hx⟩

/-- Names with escapes lead back to their members. The name `007` does not, and its text finds
another member. -/
theorem queryPointers_lead_iff_names :
    let d : Value := .object [(utf8 "~/%", .bool true), (utf8 "007", .null),
      (utf8 "7", .bool false)]
    let texts := [utf8 "/~0~1%25", utf8 "/007", utf8 "/7"]
    queryPointers d (utf8 "$/*") = .ok texts ∧
      d.getPointer (utf8 "/~0~1%25") = .ok (.bool true) ∧
      ¬d.LeadsTo (utf8 "/007") [1] ∧ d.getPointer (utf8 "/007") = .ok (.bool false) := by
  intro d texts
  have hq : parseQuery (utf8 "$/*") = .ok ⟨.query, [.wildcard]⟩ := by decide +kernel
  have htexts : queryPointers d (utf8 "$/*") = .ok texts := by decide +kernel
  obtain ⟨places, hplaces, hlead⟩ := queryPointers_lead_iff (d := d) (by decide) hq rfl htexts
  cases hplaces
  obtain ⟨⟨x, l, hx, -, -, hget⟩, hlead⟩ := List.forall₂_cons.1 hlead
  obtain ⟨⟨y, l', -, hl', hleads, -⟩, -⟩ := List.forall₂_cons.1 hlead
  obtain rfl : .bool true = x := Except.ok.inj hx
  obtain rfl : [1] = l' := Option.some.inj hl'
  refine ⟨htexts, hget fun name hname => ?_, fun h => ?_, by decide +kernel⟩
  · obtain rfl : name = utf8 "~/%" := Option.some.inj (List.mem_singleton.1 hname)
    decide
  · exact absurd (hleads.1 h (utf8 "007") (by decide)) (by decide)

/-- Not every text that a query ending in the wildcard hands out finds the value of its place:
the text of the name `007` finds the member `7`. -/
theorem not_forall_getPointer_of_queryPointers :
    ¬∀ (d : Value) (text : Text) (q : Path) (texts : List Text), d.WellFormed →
      parseQuery text = .ok q → q.last? = some .wildcard → queryPointers d text = .ok texts →
        ∃ places, q.queryPaths d = .ok places ∧
          List.Forall₂ (fun p s => ∃ x, d.get p = .ok x ∧ d.getPointer s = .ok x)
            places texts := by
  intro h
  have hq : parseQuery (utf8 "$/*") = .ok ⟨.query, [.wildcard]⟩ := by decide +kernel
  have htexts : queryPointers (.object [(utf8 "007", .bool true), (utf8 "7", .bool false)])
      (utf8 "$/*") = .ok [utf8 "/007", utf8 "/7"] := by decide +kernel
  obtain ⟨places, hplaces, hfinds⟩ := h _ _ _ _ (by decide) hq rfl htexts
  cases hplaces
  obtain ⟨⟨x, hx, hfound⟩, -⟩ := List.forall₂_cons.1 hfinds
  obtain rfl : .bool true = x := Except.ok.inj hx
  exact absurd hfound (by decide +kernel)

end Path

end TreePatch
