import TreePatch.Proofs.Patch.Move
import TreePatch.Proofs.Query.Concrete
import TreePatch.Proofs.Value.Undo

set_option autoImplicit false

/-!
# Moving there and back

A move takes a value out and inserts it elsewhere, and the move back takes it out from where it
has landed and inserts it where it was. Of these four edits the two in the middle undo each other
(`Value.remove_landing_of_add`), wherever the two places lie, so what is left is one removal and
one insertion at the same place (`Value.exists_add_back_of_get`). The move back is refused,
though, if the value came from inside an element and was moved to the position of this element.

Where a value lands has a pointer text, as the target had, unless it lands behind so many elements
that their number does not fit 64 bits (`Value.exists_text_of_landing`).
-/

namespace TreePatch

/-! ## The text of the place where a value lands -/

namespace Value

variable {c d d' new : Value} {s : Segment} {q : Path} {target : Text}

/-- The step to an inserted value can be read if the step of the insertion can. -/
theorem legible_landingStep (hs : s.Legible)
    (hfits : ∀ xs, c = .array xs → xs.length < UInt64.size) : (c.landingStep s).Legible := by
  cases c with
  | array xs =>
      cases s with
      | append => exact hfits xs rfl
      | _ => exact hs
  | _ => cases s <;> exact hs

/-- Where a value lands that is inserted at a pointer has a pointer text, too. -/
theorem exists_text_of_landing (hq : Path.parsePointer target = .ok q) (hroot : q.isRoot = false)
    (hadd : d.add q new = .ok d')
    (hfits : ∀ xs, d.get q.parent = .ok (.array xs) → xs.length < UInt64.size) :
    ∃ t, (d.landing q).canonical = .ok t ∧ Path.parsePointer t = .ok (d.landing q) := by
  obtain ⟨a, s, rfl⟩ := Path.exists_push hroot
  obtain ⟨c, hc⟩ := exists_parent_of_add hadd
  rw [Path.parent_push] at hc hfits
  have hsteps : ∀ u ∈ (a.push s).segments, u.Legible := fun u => Path.legible_of_parsePointer hq
  rw [Path.segments_push, List.forall_mem_append, List.forall_mem_singleton] at hsteps
  obtain ⟨ha, hs⟩ := hsteps
  have hland : ∀ u ∈ (a.push (c.landingStep s)).segments, u.Legible := by
    rw [Path.segments_push, List.forall_mem_append, List.forall_mem_singleton]
    exact ⟨ha, legible_landingStep hs fun xs hxs => hfits xs (hxs ▸ hc)⟩
  have hform : a.form = .pointer := (Path.parsePointer_eq_ok_iff_readsAs.1 hq).1
  rw [landing_push hc]
  refine ⟨_, Path.canonical_of_concrete fun hw => hland _ hw, ?_⟩
  rw [Path.parsePointer_joined hland, Path.push, hform]

end Value

/-! ## Two moves -/

namespace Operation

variable {d d₂ : Value} {o : Operation} {source target : Text} {p q : Path}

/-- A move to a place where nothing stood, once the source was taken out, is undone by the move
from where the value has landed, unless the source lies below that place. An element comes back to
its position and so restores the document. A member comes back as the last of its object. -/
theorem applied_move_back (hd : d.WellFormed) (hverb : o.verb? = some .move)
    (hsource : o.source = some source) (htarget : o.path = some target)
    (hp : Path.parsePointer source = .ok p) (hq : Path.parsePointer target = .ok q)
    (hroot : q.isRoot = false) (hmove : o.applied d = .ok d₂) :
    ∃ d₁ x, d.get p = .ok x ∧ d.remove p = .ok d₁ ∧
      ((∃ xs, d₁.get q.parent = .ok (.array xs)) ∨ d₁.has q = false →
        Command.isBelow (d₁.landing q) p = false →
        ((∀ xs, d₁.get q.parent = .ok (.array xs) → xs.length < UInt64.size) →
          ∃ t, (d₁.landing q).canonical = .ok t ∧ Path.parsePointer t = .ok (d₁.landing q)) ∧
        ∀ (back : Operation) (t : Text), back.verb? = some .move → back.source = some t →
          Path.parsePointer t = .ok (d₁.landing q) → back.path = some source →
          ∃ d₃, back.applied d₂ = .ok d₃ ∧
            ((∃ xs, d.get p.parent = .ok (.array xs)) ∧ d₃ = d ∨
              ∃ after, d.MovedLast p x after d₃ ∧ (d₃ = d ↔ after = []))) := by
  obtain ⟨x, d₁, hx, -, hremove, hadd⟩ :=
    (applied_move_iff hverb hsource htarget hp hq).1 hmove
  refine ⟨d₁, x, hx, hremove, fun hfresh hback => ⟨?_, fun back t hverb' hsource' ht htarget' => ?_⟩⟩
  · exact Value.exists_text_of_landing hq hroot hadd
  · -- The removal undoes the insertion, so the move back starts where the first removal ended.
    obtain ⟨hlanded, hundo⟩ := Value.remove_landing_of_add hroot hadd hfresh
    have hproot : p.isRoot = false := (Value.exists_remove_iff.1 ⟨d₁, hremove⟩).1
    obtain ⟨w, d₃, hw, hput, hrestored⟩ := Value.exists_add_back_of_get hd hproot hx
    obtain rfl : d₁ = w := Except.ok.inj (hremove.symm.trans hw)
    exact ⟨d₃, (applied_move_iff hverb' hsource' htarget' ht hp).2
      ⟨x, d₁, hlanded, hback, hundo, hput⟩, hrestored⟩

/-- A member that is moved behind the last element of an array lands at the position 2, and comes
back behind the member that was the last. An element that is moved to the end of its own array
comes back to its position. -/
theorem applied_move_back_from_the_end :
    let d : Value := .object [(utf8 "a", .array [.null, .bool true]),
      (utf8 "m", .object [(utf8 "k", .string []), (utf8 "l", .null)])]
    let moved : Value := .object [(utf8 "a", .array [.null, .bool true, .string []]),
      (utf8 "m", .object [(utf8 "l", .null)])]
    let last : Value := .object [(utf8 "a", .array [.null, .bool true]),
      (utf8 "m", .object [(utf8 "l", .null), (utf8 "k", .string [])])]
    let turned : Value := .object [(utf8 "a", .array [.bool true, .null]),
      (utf8 "m", .object [(utf8 "k", .string []), (utf8 "l", .null)])]
    ((move (utf8 "/m/k") (utf8 "/a/-")).applied d = .ok moved ∧
      (move (utf8 "/a/2") (utf8 "/m/k")).applied moved = .ok last ∧
      ∃ after, d.MovedLast (.ofSegments [.key (utf8 "m"), .key (utf8 "k")]) (.string []) after
        last) ∧
    (move (utf8 "/a/0") (utf8 "/a/-")).applied d = .ok turned ∧
      (move (utf8 "/a/1") (utf8 "/a/0")).applied turned = .ok d := by
  intro d moved last turned
  have hd : d.WellFormed := by decide
  have hverb : ∀ source target, (move source target).verb? = some .move := fun _ _ =>
    (by decide : Verb.ofText? Verb.move.name = some .move)
  have hend : Path.parsePointer (utf8 "/a/-") =
      .ok (.ofSegments [.key (utf8 "a"), .append]) := by decide +kernel
  constructor
  · have hk : Path.parsePointer (utf8 "/m/k") =
        .ok (.ofSegments [.key (utf8 "m"), .key (utf8 "k")]) := by decide +kernel
    have h2 : Path.parsePointer (utf8 "/a/2") =
        .ok (.ofSegments [.key (utf8 "a"), .index 2]) := by decide +kernel
    have hmove : (move (utf8 "/m/k") (utf8 "/a/-")).applied d = .ok moved :=
      (applied_move_iff (hverb _ _) rfl rfl hk hend).2 ⟨_, _, rfl, rfl, rfl, rfl⟩
    have hlast : (move (utf8 "/a/2") (utf8 "/m/k")).applied moved = .ok last :=
      (applied_move_iff (hverb _ _) rfl rfl h2 hk).2 ⟨_, _, rfl, rfl, rfl, rfl⟩
    obtain ⟨d₁, x, hx, hremove, hback⟩ :=
      applied_move_back hd (hverb _ _) rfl rfl hk hend rfl hmove
    obtain rfl := Except.ok.inj hx
    obtain rfl := Except.ok.inj hremove
    obtain ⟨d₃, hd₃, ⟨⟨xs, hxs⟩, -⟩ | ⟨after, hmoved, -⟩⟩ :=
      (hback (.inl ⟨_, rfl⟩) rfl).2 _ _ (hverb _ _) rfl h2 rfl
    · cases hxs
    · obtain rfl : last = d₃ := Except.ok.inj (hlast.symm.trans hd₃)
      exact ⟨hmove, hd₃, after, hmoved⟩
  · have h0 : Path.parsePointer (utf8 "/a/0") =
        .ok (.ofSegments [.key (utf8 "a"), .index 0]) := by decide +kernel
    have h1 : Path.parsePointer (utf8 "/a/1") =
        .ok (.ofSegments [.key (utf8 "a"), .index 1]) := by decide +kernel
    have hmove : (move (utf8 "/a/0") (utf8 "/a/-")).applied d = .ok turned :=
      (applied_move_iff (hverb _ _) rfl rfl h0 hend).2 ⟨_, _, rfl, rfl, rfl, rfl⟩
    obtain ⟨d₁, x, hx, hremove, hback⟩ :=
      applied_move_back hd (hverb _ _) rfl rfl h0 hend rfl hmove
    obtain rfl := Except.ok.inj hremove
    obtain ⟨d₃, hd₃, ⟨-, rfl⟩ | ⟨after, ⟨_, _, _, hparent, -⟩, -⟩⟩ :=
      (hback (.inl ⟨_, rfl⟩) rfl).2 _ _ (hverb _ _) rfl h1 rfl
    · exact ⟨hmove, hd₃⟩
    · cases hparent

end Operation

end TreePatch
