import TreePatch.Proofs.Patch.Stages
import TreePatch.Proofs.Patch.WellFormed
import TreePatch.Proofs.Query.Apart
import TreePatch.Proofs.Value.Surface
import TreePatch.Value.NaN

set_option autoImplicit false

/-!
# Overwriting all places of an expression

The places are overwritten one after another, each in the document that the ones before it have
left. Since they lie apart, what comes out is the document with all of them overwritten at once
(`Replaced`), which does not mention an order. Such a document is unique (`Replaced.unique`).

* `Replaced.cons`: what one more write does to a document in which the others are to come.
* `Command.exists_replaceAll_iff`, `Command.replaced_of_replaceAll`: when the loop succeeds, and
  what it leaves.
* `Operation.apply_replace_everywhere`: an operation on an expression. Expanding it again in the
  new document gives the same places, at which a test then succeeds.
-/

namespace TreePatch

namespace Value

/-- One document is another but for some places, at all of which one value stands. -/
structure Replaced (d : Value) (places : List Path) (value d' : Value) : Prop where
  /-- What led to a place, in whatever spelling, leads to the value and goes on in it. -/
  written : ∀ p ∈ places, ∀ qs, qs.map Segment.memberName? = p.names → ∀ rest,
    d'.surfaceAt (qs ++ rest) = (d.follow qs).bind fun _ => value.surfaceAt rest
  /-- Wherever no place is passed, the document looks as before. -/
  elsewhere : ∀ steps, (∀ p ∈ places, ¬p.names <+: steps.map Segment.memberName?) →
    d'.surfaceAt steps = d.surfaceAt steps

variable {d d₁ d' d'' x value : Value} {p q : Path} {places order : List Path}

namespace Replaced

theorem nil (d value : Value) : Replaced d [] value d where
  written := by simp
  elsewhere := fun _ _ => rfl

/-- Overwriting a place first adds it to the places overwritten later, if these lie apart from
it. -/
theorem cons (hp : d.overwrite p.segments value = .ok d₁) (hapart : ∀ q ∈ places, p.Apart q)
    (h : Replaced d₁ places value d') : Replaced d (p :: places) value d' where
  written := by
    intro q hq qs hqs rest
    rcases List.mem_cons.1 hq with rfl | hq
    · -- The later writes do not pass the first place.
      rw [h.elsewhere, surfaceAt_overwrite_below hp hqs.symm]
      intro r hr
      refine (hapart r hr).not_prefix_of ?_
      rw [List.map_append, hqs]
      exact List.prefix_append _ _
    · -- The first write does not change what leads to a later place.
      obtain ⟨hpq, hqp⟩ := Path.apart_iff.1 (hapart q hq)
      rw [← hqs] at hpq hqp
      rw [h.written q hq qs hqs, follow_overwrite_of_not_prefix hp hpq hqp]
  elsewhere := by
    intro steps hsteps
    obtain ⟨hp', hrest⟩ := List.forall_mem_cons.1 hsteps
    rw [h.elsewhere steps hrest, surfaceAt_overwrite hp hp']

/-- The order of the places does not matter. -/
theorem of_perm (h : Replaced d places value d') (horder : order.Perm places) :
    Replaced d order value d' where
  written := fun p hp => h.written p (horder.mem_iff.1 hp)
  elsewhere := fun steps hsteps =>
    h.elsewhere steps fun p hp => hsteps p (horder.mem_iff.2 hp)

/-- There is only one well-formed document of this description. -/
theorem unique (hd' : d'.WellFormed) (hd'' : d''.WellFormed) (h : Replaced d places value d')
    (h' : Replaced d places value d'') : d' = d'' := by
  refine eq_of_surfaceAt hd' hd'' fun steps x hx => ?_
  have hsame : d''.surfaceAt steps = d'.surfaceAt steps := by
    by_cases hpass : ∃ p ∈ places, p.names <+: steps.map Segment.memberName?
    · obtain ⟨p, hp, hbegin⟩ := hpass
      obtain ⟨qs, rest, rfl, hqs⟩ := Path.exists_split_of_prefix hbegin
      rw [h.written p hp qs hqs, h'.written p hp qs hqs]
    · have hpass' : ∀ p ∈ places, ¬p.names <+: steps.map Segment.memberName? := by
        intro p hp hbegin
        exact hpass ⟨p, hp, hbegin⟩
      rw [h.elsewhere steps hpass', h'.elsewhere steps hpass']
  rw [hsame, surfaceAt, hx]
  rfl

/-- The value is read at every place at which one was. -/
theorem get_of_mem (hd' : d'.WellFormed) (hvalue : value.WellFormed)
    (h : Replaced d places value d') (hp : p ∈ places) (hx : d.get p = .ok x) :
    d'.get p = .ok value := by
  rw [get_eq_ok_iff] at hx ⊢
  show d'.follow p.segments = value.follow []
  refine follow_eq_of_surfaceAt hd' hvalue fun rest => ?_
  rw [h.written p hp p.segments rfl, hx]
  rfl

/-- Apart from all places the document is read as before. -/
theorem get_of_apart (hd : d.WellFormed) (hd' : d'.WellFormed) (h : Replaced d places value d')
    (hq : ∀ p ∈ places, p.Apart q) : d'.get q = d.get q :=
  get_eq_of_surfaceAt hd' hd fun _ hsteps => h.elsewhere _ fun p hp =>
    (hq p hp).symm.not_prefix_of hsteps

end Replaced

end Value

/-! ## The loop -/

namespace Command

variable {d d' value : Value} {p : Path} {places order : List Path}

theorem replaceAll_cons_iff : replaceAll value (p :: places) d = ⟨d', none⟩ ↔
    ∃ d₁, d.overwrite p.segments value = .ok d₁ ∧ replaceAll value places d₁ = ⟨d', none⟩ := by
  simp only [replaceAll, Outcome.forEach_ofExcept_cons_iff, Value.replace_eq_ok_iff]

/-- Places that lie apart can be overwritten one after another exactly if there is a value at
each of them. -/
theorem exists_replaceAll_iff (value : Value) (hapart : places.Pairwise Path.Apart) :
    (∃ d', replaceAll value places d = ⟨d', none⟩) ↔ ∀ p ∈ places, ∃ x, d.get p = .ok x := by
  induction places generalizing d with
  | nil => exact ⟨fun _ => by simp, fun _ => ⟨d, rfl⟩⟩
  | cons p places ih =>
      obtain ⟨hp, hplaces⟩ := List.pairwise_cons.1 hapart
      -- After the first write the same values are there at the other places.
      have hkeep : ∀ {d₁}, d.overwrite p.segments value = .ok d₁ →
          ((∃ d', replaceAll value places d₁ = ⟨d', none⟩) ↔
            ∀ q ∈ places, ∃ x, d.get q = .ok x) := by
        intro d₁ hd₁
        rw [ih hplaces]
        refine forall₂_congr fun q hq => ?_
        rw [Value.get_overwrite_of_apart hd₁ (hp q hq)]
      simp only [replaceAll_cons_iff, List.forall_mem_cons]
      constructor
      · rintro ⟨d', d₁, hd₁, hrest⟩
        refine ⟨?_, (hkeep hd₁).1 ⟨d', hrest⟩⟩
        simp only [Value.get_eq_ok_iff]
        exact Value.exists_overwrite_iff.1 ⟨d₁, hd₁⟩
      · rintro ⟨⟨x, hx⟩, hrest⟩
        obtain ⟨d₁, hd₁⟩ := Value.exists_overwrite_iff.2 ⟨x, Value.get_eq_ok_iff.1 hx⟩
        obtain ⟨d', hd'⟩ := (hkeep hd₁).2 hrest
        exact ⟨d', d₁, hd₁, hd'⟩

/-- Overwriting places that lie apart one after another overwrites them all. -/
theorem replaced_of_replaceAll (hapart : places.Pairwise Path.Apart)
    (h : replaceAll value places d = ⟨d', none⟩) : d.Replaced places value d' := by
  induction places generalizing d with
  | nil =>
      cases h
      exact .nil _ _
  | cons p places ih =>
      obtain ⟨hp, hplaces⟩ := List.pairwise_cons.1 hapart
      obtain ⟨d₁, hd₁, hrest⟩ := replaceAll_cons_iff.1 h
      exact .cons hd₁ hp (ih hplaces hrest)

theorem wellFormed_of_replaceAll (hd : d.WellFormed) (hvalue : value.WellFormed)
    (h : replaceAll value places d = ⟨d', none⟩) : d'.WellFormed := by
  have hdoc : (replaceAll value places d).document.WellFormed := wellFormed_replaceAll hd hvalue
  rwa [h] at hdoc

/-- Places that lie apart can be overwritten in any order. -/
theorem replaceAll_of_perm (hd : d.WellFormed) (hvalue : value.WellFormed)
    (hapart : places.Pairwise Path.Apart) (h : replaceAll value places d = ⟨d', none⟩)
    (horder : order.Perm places) : replaceAll value order d = ⟨d', none⟩ := by
  have hapart' : order.Pairwise Path.Apart := hapart.perm horder.symm fun h => h.symm
  have hvalues := (exists_replaceAll_iff value hapart).1 ⟨d', h⟩
  obtain ⟨d'', hd''⟩ := (exists_replaceAll_iff value hapart').2
    fun p hp => hvalues p (horder.mem_iff.1 hp)
  have hreplaced := (replaced_of_replaceAll hapart h).of_perm horder
  rw [hd'', (replaced_of_replaceAll hapart' hd'').unique (wellFormed_of_replaceAll hd hvalue hd'')
    (wellFormed_of_replaceAll hd hvalue h) hreplaced]

/-- A test succeeds where its value is read at every place and is equal to itself. -/
theorem checkAll_of_get (hvalue : value.equals value = true)
    (h : ∀ p ∈ places, d.get p = .ok value) : checkAll value places d = ⟨d, none⟩ := by
  refine Outcome.forEach_of_unchanged fun p hp => ?_
  rw [check, Value.get_eq_ok_iff.1 (h p hp)]
  simp only [hvalue]
  rfl

end Command

/-! ## Operations -/

namespace Operation

variable {d value : Value} {o : Operation} {places : List Path} {text : Text}

/-- Replacing at an expression succeeds exactly if there is a value at each of its places. The
new document has the given value at all of them, is otherwise the old one, and does not depend on
the order in which the places are worked through. Unless the value holds a NaN, a test for it at
the same expression succeeds then. -/
theorem apply_replace_everywhere (hd : d.WellFormed) (hvalue : value.WellFormed)
    (hplaces : Path.expandPath d text = .ok places)
    (ho : o.command = .ok (.replace text value)) :
    ((∃ d', o.apply d = ⟨d', none⟩) ↔ ∀ p ∈ places, ∃ x, d.get p = .ok x) ∧
    ∀ d', o.apply d = ⟨d', none⟩ →
      d.Replaced places value d' ∧
      (∀ p ∈ places, d'.get p = .ok value) ∧
      (∀ q : Path, (∀ p ∈ places, p.Apart q) → d'.get q = d.get q) ∧
      (∀ order : List Path, order.Perm places →
        Command.replaceAll value order d = ⟨d', none⟩) ∧
      (value.holdsNaN = false → ∀ t : Operation, t.command = .ok (.test text value) →
        t.apply d' = ⟨d', none⟩) := by
  have hrun : ∀ d', o.apply d = ⟨d', none⟩ ↔ Command.replaceAll value places d = ⟨d', none⟩ := by
    intro d'
    rw [apply_iff_of_command ho, Command.run, Command.withPlaces_of_ok hplaces]
  have hapart := Path.pairwise_apart_of_expandPath hd hplaces
  have hdomain := Command.exists_replaceAll_iff (d := d) value hapart
  simp only [hrun]
  refine ⟨hdomain, fun d' h => ?_⟩
  have hd' := Command.wellFormed_of_replaceAll hd hvalue h
  have hreplaced := Command.replaced_of_replaceAll hapart h
  have hwritten : ∀ p ∈ places, d'.get p = .ok value := by
    intro p hp
    obtain ⟨x, hx⟩ := hdomain.1 ⟨d', h⟩ p hp
    exact hreplaced.get_of_mem hd' hvalue hp hx
  refine ⟨hreplaced, hwritten, fun q hq => hreplaced.get_of_apart hd hd' hq,
    fun order horder => Command.replaceAll_of_perm hd hvalue hapart h horder, ?_⟩
  intro hNaN t ht
  -- Above the places nothing has changed, so the expression has the same ones.
  have hplaces' : Path.expandPath d' text = .ok places := by
    refine Path.expandPath_congr hd hd' hplaces fun steps hsteps => ?_
    refine hreplaced.elsewhere steps fun p hp hbegin => ?_
    have hlength := hbegin.length_le
    have hshort := hsteps p hp
    simp only [Path.names, Path.size, List.length_map] at hlength hshort
    omega
  rw [apply_iff_of_command ht, Command.run, Command.withPlaces_of_ok hplaces']
  exact Command.checkAll_of_get ((Value.equals_self_iff hvalue).2 hNaN) hwritten

/-- Two prices, one of them an object, are overwritten by an array. The name beside the first is
read as before, whichever price is overwritten first. -/
theorem apply_replace_everywhere_prices :
    let d : Value := .object [(utf8 "items", .array [
      .object [(utf8 "name", .string (utf8 "pen")), (utf8 "price", .null)],
      .object [(utf8 "price", .object [(utf8 "net", .null)])]])]
    let value : Value := .array [.bool true]
    let text := utf8 "$/items/*/price"
    let p := fun i => Path.ofSegments [.key (utf8 "items"), .index i, .key (utf8 "price")]
    let q := Path.ofSegments [.key (utf8 "items"), .index 0, .key (utf8 "name")]
    d.WellFormed ∧ value.WellFormed ∧ Path.expandPath d text = .ok [p 0, p 1] ∧
      (replace text value).command = .ok (.replace text value) ∧
      ∃ d', (replace text value).apply d = ⟨d', none⟩ ∧
        d'.get (p 0) = .ok value ∧ d'.get (p 1) = .ok value ∧
        d'.get q = .ok (.string (utf8 "pen")) ∧
        Command.replaceAll value [p 1, p 0] d = ⟨d', none⟩ ∧
        (test text value).apply d' = ⟨d', none⟩ := by
  intro d value text p q
  have hd : d.WellFormed := by decide
  have hvalue : value.WellFormed := by decide
  have hplaces : Path.expandPath d text = .ok [p 0, p 1] := by decide +kernel
  have ho : (replace text value).command = .ok (.replace text value) := by decide +kernel
  have ht : (test text value).command = .ok (.test text value) := by decide +kernel
  obtain ⟨hdomain, hnew⟩ := apply_replace_everywhere hd hvalue hplaces ho
  have hvalues : ∀ r ∈ [p 0, p 1], ∃ x, d.get r = .ok x :=
    List.forall_mem_cons.2 ⟨⟨_, rfl⟩, List.forall_mem_singleton.2 ⟨_, rfl⟩⟩
  have hq : ∀ r ∈ [p 0, p 1], r.Apart q :=
    List.forall_mem_cons.2 ⟨⟨by decide, by decide⟩,
      List.forall_mem_singleton.2 ⟨by decide, by decide⟩⟩
  obtain ⟨d', hd'⟩ := hdomain.2 hvalues
  obtain ⟨-, hwritten, hapart, horder, htest⟩ := hnew d' hd'
  refine ⟨hd, hvalue, hplaces, ho, d', hd', hwritten _ (by simp), hwritten _ (by simp), ?_,
    horder _ (List.Perm.swap _ _ _), htest (by decide) _ ht⟩
  rw [hapart q hq]
  rfl

end Operation

end TreePatch
