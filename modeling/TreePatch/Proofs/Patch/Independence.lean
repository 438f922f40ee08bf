import TreePatch.Proofs.Patch.Fanout
import TreePatch.Proofs.Patch.Stages
import TreePatch.Proofs.Value.Entry

set_option autoImplicit false

/-!
# Independent operations commute

Two operations at pointers that part below an object work on two members of this object. Each
acts on the entry of one name there (`Operation.exists_actsOnEntry_applied`), whatever its verb
and however far below the member its own place lies, so the two can be swapped
(`Patch.applied_swap`). What they leave is the same up to the order of the members of that one
object, since two members that are both new are appended in the order in which they come.
-/

namespace TreePatch

/-! ## Pointers that part -/

namespace Path

variable {p q : Path} {t t' : Text}

/-- Two paths take the same first `i` steps and part at the next. -/
structure PartAt (p q : Path) (i : Nat) : Prop where
  /-- The first steps have the same names. -/
  agree : p.names.take i = q.names.take i
  /-- The next ones do not. -/
  part : ∃ s t, p.segments[i]? = some s ∧ q.segments[i]? = some t ∧ s.sameStep t = false

/-- Steps that can be read are determined by their names. -/
theorem eq_of_legible {ss ts : List Segment} (hss : ∀ s ∈ ss, s.Legible)
    (hts : ∀ s ∈ ts, s.Legible)
    (h : ss.map Segment.memberName? = ts.map Segment.memberName?) : ss = ts := by
  have hread := parsePointer_joined hss
  rw [joined_congr h, parsePointer_joined hts] at hread
  cases hread
  rfl

/-- Every step of a pointer that was read has a name. -/
theorem exists_name_of_parsePointer (h : parsePointer t = .ok p) {s : Segment}
    (hs : s ∈ p.segments) : ∃ name, s.memberName? = some name :=
  Segment.exists_memberName?_of_ne fun hw => wildcard_not_mem_of_parsePointer h (hw ▸ hs)

/-- Two pointers that were read and part go through the same steps, not only steps of the same
names, and then on with two names. -/
theorem PartAt.exists_split {i : Nat} (h : p.PartAt q i) (hp : parsePointer t = .ok p)
    (hq : parsePointer t' = .ok q) : ∃ s u rest rest' k l,
      p.segments = p.segments.take i ++ s :: rest ∧ s.memberName? = some k ∧
      q.segments = p.segments.take i ++ u :: rest' ∧ u.memberName? = some l ∧ k ≠ l := by
  obtain ⟨s, u, hs, hu, hsu⟩ := h.part
  have hsplit : ∀ {l : List Segment} {s}, l[i]? = some s → l = l.take i ++ s :: l.drop (i + 1) := by
    intro l s hs
    obtain ⟨hi, rfl⟩ := List.getElem?_eq_some_iff.1 hs
    rw [← List.drop_eq_getElem_cons hi, List.take_append_drop]
  have htake : p.segments.take i = q.segments.take i := by
    refine eq_of_legible (fun s hs => ?_) (fun s hs => ?_) ?_
    · exact legible_of_parsePointer hp (List.mem_of_mem_take hs)
    · exact legible_of_parsePointer hq (List.mem_of_mem_take hs)
    · simpa [names, List.map_take] using h.agree
  obtain ⟨k, hk⟩ := exists_name_of_parsePointer hp (List.mem_of_getElem? hs)
  obtain ⟨l, hl⟩ := exists_name_of_parsePointer hq (List.mem_of_getElem? hu)
  refine ⟨s, u, _, _, k, l, hsplit hs, hk, htake ▸ hsplit hu, hl, ?_⟩
  rintro rfl
  rw [Segment.sameStep_iff.2 (hk.trans hl.symm)] at hsu
  cases hsu

end Path

/-! ## Operations -/

namespace Command

variable {d : Value} {p : Path} {s : Segment} {name text : Text} {steps rest : List Segment}

/-- A comparison reads the entry through which it goes and leaves it as it is. -/
theorem exists_actsOnEntry_check (hp : p.segments = steps ++ s :: rest)
    (hs : s.memberName? = some name) (expected : Value) :
    ∃ f, Value.ActsOnEntry f (fun d => (check expected d p).map fun _ => d) steps name := by
  refine ⟨fun entry => entry.bind fun c =>
    ((c.follow rest).toOption.filter (·.equals expected)).map fun _ => some c, ?_⟩
  intro d ms hd d'
  have hread : ∀ x, d.get p = .ok x ↔
      ∃ c, Members.get? ms name = some c ∧ c.follow rest = .ok x := by
    intro x
    rw [Value.get_eq_ok_iff, hp, Value.follow_append, hd]
    simp only [← Value.child_object_iff hs]
    exact Value.follow_cons_eq_ok_iff
  rw [Result.map_eq_ok_iff]
  constructor
  · rintro ⟨⟨⟩, hcheck, rfl⟩
    obtain ⟨x, hx, hequal⟩ := check_eq_ok_iff.1 hcheck
    obtain ⟨c, hc, hfollow⟩ := (hread x).1 hx
    refine ⟨some c, by simp [hc, hfollow, Except.toOption, hequal], ?_⟩
    rw [Members.put_of_get? hc, Value.overwrite_of_follow hd]
  · rintro ⟨entry, hentry, hw⟩
    obtain ⟨c, hc, hentry⟩ := Option.bind_eq_some_iff.1 hentry
    cases hfollow : c.follow rest with
    | error m => simp [hfollow, Except.toOption] at hentry
    | ok x =>
        obtain ⟨hequal, rfl⟩ : x.equals expected = true ∧ some c = entry := by
          simpa [hfollow, Except.toOption, Option.filter_some] using hentry
        rw [Members.put_of_get? hc, Value.overwrite_of_follow hd] at hw
        cases hw
        exact ⟨(), check_eq_ok_iff.2 ⟨x, (hread x).2 ⟨c, hc, hfollow⟩, hequal⟩, rfl⟩

/-- At a place below an object a command that takes no value from elsewhere acts on one entry of
the object. -/
theorem exists_actsOnEntry_answerAt {c : Command} (hc : c.source? = none)
    (hconcrete : p.isConcrete = true) (hp : p.segments = steps ++ s :: rest)
    (hs : s.memberName? = some name) :
    ∃ f, Value.ActsOnEntry f (fun d => c.answerAt d p p) steps name := by
  cases c with
  | add path value => exact Value.exists_actsOnEntry_add hconcrete hp hs value
  | remove path => exact Value.exists_actsOnEntry_remove hconcrete hp hs
  | replace path value => exact Value.exists_actsOnEntry_replace hconcrete hp hs value
  | test path expected => exact exists_actsOnEntry_check hp hs expected
  | move source path | copy source path => cases hc

end Command

namespace Operation

variable {o : Operation} {p : Path} {s : Segment} {name text : Text} {steps rest : List Segment}

/-- An operation that adds, removes, replaces or tests stands for a command with its path. -/
theorem WorksOnPlaces.exists_command (h : o.WorksOnPlaces) (hpath : o.path = some text) :
    ∃ c, o.command = .ok c ∧ c.path = text ∧ c.source? = none := by
  rcases h with hverb | ⟨hverb, hvalue⟩
  · exact ⟨.remove text, command_eq_ok_iff.2 ⟨hverb, hpath, by simp [Command.source?],
      by simp [Command.value?]⟩, rfl, rfl⟩
  · obtain ⟨value, hvalue⟩ := Option.isSome_iff_exists.1 hvalue
    rcases hverb with hverb | hverb | hverb
    · exact ⟨.add text value, command_eq_ok_iff.2 ⟨hverb, hpath, by simp [Command.source?],
        by simp [Command.value?, hvalue]⟩, rfl, rfl⟩
    · exact ⟨.replace text value, command_eq_ok_iff.2 ⟨hverb, hpath, by simp [Command.source?],
        by simp [Command.value?, hvalue]⟩, rfl, rfl⟩
    · exact ⟨.test text value, command_eq_ok_iff.2 ⟨hverb, hpath, by simp [Command.source?],
        by simp [Command.value?, hvalue]⟩, rfl, rfl⟩

/-- An operation at a pointer through an object acts on the entry of the pointer's next name. -/
theorem exists_actsOnEntry_applied (ho : o.WorksOnPlaces) (hpath : o.path = some text)
    (hparse : Path.parsePointer text = .ok p) (hp : p.segments = steps ++ s :: rest)
    (hs : s.memberName? = some name) : ∃ f, Value.ActsOnEntry f o.applied steps name := by
  obtain ⟨c, hc, rfl, hsource⟩ := ho.exists_command hpath
  have hconcrete := Path.isConcrete_iff.2 (Path.wildcard_not_mem_of_parsePointer hparse)
  have happlied : ∀ d d', o.applied d = .ok d' ↔ c.answerAt d p p = .ok d' := by
    intro d d'
    have hplaces := Path.expandPath_pointer hparse d
    have hrun : c.run d = .ofExcept d (c.answerAt d p p) := by
      rw [Command.run_of_expandPath (Command.origin_of_source?_eq_none hsource ▸ hplaces) hplaces]
      exact Command.runAt_singleton (Command.verb_ne_move_of_source?_eq_none hsource)
    rw [applied_eq_ok_iff]
    simp only [hc, Except.ok.injEq, exists_eq_left', hrun]
    cases c.answerAt d p p <;> simp [Outcome.ofExcept]
  obtain ⟨f, hf⟩ := Command.exists_actsOnEntry_answerAt hsource hconcrete hp hs
  exact ⟨f, fun d ms hd d' => (happlied d d').trans (hf d ms hd d')⟩

end Operation

/-! ## Patches -/

namespace Patch

variable {d : Value} {o o' : Operation} {ms : Members Value} {p q : Path} {text text' : Text}
variable {i : Nat}

theorem applied_cons (d : Value) (o : Operation) (os : List Operation) :
    applied d (o :: os) = (o.applied d).bind fun d' => applied d' os :=
  Outcome.result_andThen _ _

theorem applied_pair (d : Value) (o o' : Operation) :
    applied d [o, o'] = (o.applied d).bind o'.applied := by
  rw [applied_cons]
  cases o.applied d with
  | error fault => rfl
  | ok d₁ =>
      change applied d₁ [o'] = o'.applied d₁
      rw [applied_cons]
      cases o'.applied d₁ <;> rfl

/-- Two operations at pointers that part below an object succeed in either order or in none, and
what they leave differs at most in the order of the members of this object. -/
theorem applied_swap (ho : o.WorksOnPlaces) (ho' : o'.WorksOnPlaces) (hpath : o.path = some text)
    (hpath' : o'.path = some text') (hp : Path.parsePointer text = .ok p)
    (hq : Path.parsePointer text' = .ok q) (hpart : p.PartAt q i)
    (hd : d.get (.ofSegments (p.segments.take i)) = .ok (.object ms)) :
    ((∃ r, applied d [o, o'] = .ok r) ↔ ∃ r, applied d [o', o] = .ok r) ∧
      ∀ r r', applied d [o, o'] = .ok r → applied d [o', o] = .ok r' →
        Value.PermutedAt (p.segments.take i) r r' := by
  obtain ⟨s, t, rest, rest', k, l, hps, hk, hqt, hl, hkl⟩ := hpart.exists_split hp hq
  have hobject : d.follow (p.segments.take i) = .ok (.object ms) := Value.get_eq_ok_iff.1 hd
  obtain ⟨f, hf⟩ := Operation.exists_actsOnEntry_applied ho hpath hp hps hk
  obtain ⟨g, hg⟩ := Operation.exists_actsOnEntry_applied ho' hpath' hq hqt hl
  simp only [applied_pair]
  refine ⟨⟨hf.exists_bind_comm hg hkl hobject, hg.exists_bind_comm hf hkl.symm hobject⟩, ?_⟩
  intro r r' hr hr'
  exact hf.permutedAt_of_bind hg hkl hobject hr hr'

/-- Two new members of an object in an array. They stand in the order in which they were
added. -/
theorem applied_swap_additions :
    let d : Value := .object [(utf8 "a", .array [.null, .object [(utf8 "x", .null)]])]
    let o : Operation := .add (utf8 "/a/1/m") .null
    let o' : Operation := .add (utf8 "/a/1/n") (.bool true)
    let steps : List Segment := [.key (utf8 "a"), .index 1]
    let p : Path := .ofSegments (steps ++ [.key (utf8 "m")])
    let q : Path := .ofSegments (steps ++ [.key (utf8 "n")])
    o.WorksOnPlaces ∧ o'.WorksOnPlaces ∧ Path.parsePointer (utf8 "/a/1/m") = .ok p ∧
      Path.parsePointer (utf8 "/a/1/n") = .ok q ∧ p.PartAt q 2 ∧
      d.get (.ofSegments steps) = .ok (.object [(utf8 "x", .null)]) ∧
      ∃ r r', applied d [o, o'] = .ok r ∧ applied d [o', o] = .ok r' ∧ r ≠ r' ∧
        Value.PermutedAt steps r r' := by
  intro d o o' steps p q
  have ho : o.WorksOnPlaces := .inr ⟨.inl (by decide), rfl⟩
  have ho' : o'.WorksOnPlaces := .inr ⟨.inl (by decide), rfl⟩
  have hp : Path.parsePointer (utf8 "/a/1/m") = .ok p := by decide +kernel
  have hq : Path.parsePointer (utf8 "/a/1/n") = .ok q := by decide +kernel
  have hpart : p.PartAt q 2 := ⟨rfl, _, _, rfl, rfl, by decide⟩
  have hd : d.get (.ofSegments (p.segments.take 2)) = .ok (.object [(utf8 "x", .null)]) := rfl
  obtain ⟨hiff, hsame⟩ := applied_swap ho ho' rfl rfl hp hq hpart hd
  let r : Value := .object [(utf8 "a", .array [.null,
    .object [(utf8 "x", .null), (utf8 "m", .null), (utf8 "n", .bool true)]])]
  have hr : applied d [o, o'] = .ok r := by decide +kernel
  obtain ⟨r', hr'⟩ := hiff.1 ⟨r, hr⟩
  refine ⟨ho, ho', hp, hq, hpart, hd, r, r', hr, hr', ?_, hsame r r' hr hr'⟩
  rintro rfl
  exact absurd hr' (by decide +kernel)

end Patch

end TreePatch
