import TreePatch.Proofs.Path.Alike

set_option autoImplicit false

/-!
# Overwriting one place

A write at a path where a value stands succeeds, and the document it leaves is the old
one but for that place (`Overwritten`): at and below the path it answers as the new
value does, and beside the path as the old document does. Paths part where the names of
their steps do, so the laws hold in every spelling, and a path that leads nowhere fails
as it did before.

* `child_setChild_cases`, `follow_overwrite_of_not_prefix`: what a write leaves alone, at one
  step and along many.
* `overwriteLaws_of_get`: `replace` and `assign` overwrite in this sense. Writing back
  what was there changes nothing, and of two writes the second counts.
-/

namespace TreePatch.Value

/-! ## What a write leaves alone -/

section Steps

variable {v v' c new : Value} {s t : Segment}

/-- A step that leads nowhere does so after a write at another step, too, and for the
same reason. -/
theorem child_setChild_of_error {m : Misstep} (hs : v.child s = .ok c)
    (ht : v.child t = .error m) (new : Value) : (v.setChild s new).child t = .error m := by
  by_cases hname : s.memberName? = t.memberName?
  · -- Of two steps of one name only an array takes the one and not the other.
    cases v with
    | object ms =>
        have hsame : AlikeStep (.object ms) s t := .inr ⟨rfl, hname⟩
        rw [hsame.child, ht] at hs
        cases hs
    | array xs =>
        cases t with
        | index n =>
            cases s with
            | index k =>
                obtain rfl : k = n := Decimal.ofNat_injective (Option.some.inj hname)
                rw [hs] at ht
                cases ht
            | _ => cases hs
        | _ => cases s <;> exact ht
    | _ => cases hs
  · rw [child_setChild_of_ne hname, ht]

/-- Where a step leads once a child has been written: nowhere, as before; to the written
child, if it has the name of the step that was written; to another child, as before. -/
theorem child_setChild_cases (hc : v.child s = .ok c) (new : Value) (t : Segment) :
    (∃ m, v.child t = .error m ∧ (v.setChild s new).child t = .error m) ∨
    (s.memberName? = t.memberName? ∧ v.child t = .ok c ∧
      (v.setChild s new).child t = .ok new) ∨
    (s.memberName? ≠ t.memberName? ∧ ∃ d, v.child t = .ok d ∧
      (v.setChild s new).child t = .ok d) := by
  cases ht : v.child t with
  | error m => exact .inl ⟨m, rfl, child_setChild_of_error hc ht new⟩
  | ok d =>
      by_cases hname : s.memberName? = t.memberName?
      · have hsame := alikeStep_of_child hc ht hname
        have hsame' := hsame.of_kind_eq (kind_setChild v s new)
        exact .inr (.inl ⟨hname, ht.symm.trans (hsame.child.symm.trans hc),
          hsame'.child.symm.trans (child_setChild hc new)⟩)
      · exact .inr (.inr ⟨hname, d, rfl, (child_setChild_of_ne hname new).trans ht⟩)

/-- A write along one way leaves what is read along another, if neither way begins with
the names of the other. -/
theorem follow_overwrite_of_not_prefix {ps qs : List Segment}
    (h : v.overwrite ps new = .ok v')
    (hpq : ¬ps.map Segment.memberName? <+: qs.map Segment.memberName?)
    (hqp : ¬qs.map Segment.memberName? <+: ps.map Segment.memberName?) :
    v'.follow qs = v.follow qs := by
  induction ps generalizing v v' qs with
  | nil => exact absurd List.nil_prefix hpq
  | cons s ps ih =>
      cases qs with
      | nil => exact absurd List.nil_prefix hqp
      | cons t qs =>
          obtain ⟨c, c', hc, hw, rfl⟩ := overwrite_cons_eq_ok_iff.1 h
          rw [List.map_cons, List.map_cons, List.cons_prefix_cons, not_and] at hpq hqp
          rcases child_setChild_cases hc c' t with ⟨m, ht, ht'⟩ | ⟨hname, ht, ht'⟩ |
            ⟨-, d, ht, ht'⟩
          · rw [follow_cons_of_error ht, follow_cons_of_error ht']
          · -- Both ways go into the child that was written, and part below it.
            rw [follow_cons_of_child ht, follow_cons_of_child ht',
              ih hw (hpq hname) (hqp hname.symm)]
          · rw [follow_cons_of_child ht, follow_cons_of_child ht']

/-- Writes along two ways can be swapped, if neither way begins with the names of the other. -/
theorem overwrite_comm {ps qs : List Segment} {a b u w : Value} (hp : v.overwrite ps a = .ok u)
    (hq : v.overwrite qs b = .ok w)
    (hpq : ¬ps.map Segment.memberName? <+: qs.map Segment.memberName?)
    (hqp : ¬qs.map Segment.memberName? <+: ps.map Segment.memberName?) :
    u.overwrite qs b = w.overwrite ps a := by
  induction ps generalizing v u w qs with
  | nil => exact absurd List.nil_prefix hpq
  | cons s ps ih =>
      cases qs with
      | nil => exact absurd List.nil_prefix hqp
      | cons t qs =>
          obtain ⟨c, c', hc, hc', rfl⟩ := overwrite_cons_eq_ok_iff.1 hp
          obtain ⟨e, e', he, he', rfl⟩ := overwrite_cons_eq_ok_iff.1 hq
          rw [List.map_cons, List.map_cons, List.cons_prefix_cons, not_and] at hpq hqp
          by_cases hname : s.memberName? = t.memberName?
          · -- Both ways go into one child, and part below it.
            have hsame := alikeStep_of_child hc he hname
            obtain rfl : c = e := Except.ok.inj (hc.symm.trans (hsame.child.trans he))
            have hswap := ih hc' he' (hpq hname) (hqp hname.symm)
            have hset : ∀ x, (v.setChild s c').setChild t x = (v.setChild t e').setChild s x := by
              intro x
              rw [hsame.setChild c', setChild_setChild, ← hsame.setChild e', setChild_setChild,
                hsame.setChild x]
            have hchild : (v.setChild s c').child t = .ok c' := by
              rw [hsame.setChild, child_setChild he]
            have hchild' : (v.setChild t e').child s = .ok e' := by
              rw [← hsame.setChild, child_setChild hc]
            rw [overwrite, overwrite, hchild, hchild']
            simp only [hswap, hset]
          · have hchild : (v.setChild s c').child t = .ok e :=
              (child_setChild_of_ne hname c').trans he
            have hchild' : (v.setChild t e').child s = .ok c :=
              (child_setChild_of_ne (Ne.symm hname) e').trans hc
            rw [overwrite, overwrite, hchild, hchild']
            simp only [hc', he', setChild_comm hname]

/-- No step to a child is the wildcard. -/
theorem wildcard_not_mem_of_follow {x : Value} {steps : List Segment}
    (h : v.follow steps = .ok x) : Segment.wildcard ∉ steps := by
  induction steps generalizing v with
  | nil => simp
  | cons s steps ih =>
      obtain ⟨c, hc, hx⟩ := follow_cons_eq_ok_iff.1 h
      rw [List.mem_cons, not_or]
      refine ⟨?_, ih hx⟩
      rintro rfl
      cases v <;> cases hc

end Steps

/-! ## Writing at a path -/

/-- One document is another but for the value at a path. -/
structure Overwritten (d : Value) (p : Path) (new d' : Value) : Prop where
  /-- At the path and below it the document answers as the new value does: with the same
  value, or with a failure of the same cause and hence of the same kind. -/
  below : ∀ r : Path, (d'.get (p ++ r)).mapError Fault.cause = (new.get r).mapError Fault.cause
  /-- Beside the path it answers as the old document does. -/
  beside : ∀ q : Path, q.startsWith p = false → p.startsWith q = false → d'.get q = d.get q

/-- A way of writing overwrites the value that stands at a path of a document. -/
structure OverwriteLaws (write : Value → Path → Value → Except Fault Value) (d : Value)
    (p : Path) (old : Value) : Prop where
  /-- Every value can be written, and of two writes the second counts. -/
  put : ∀ new, ∃ d', write d p new = .ok d' ∧ Overwritten d p new d' ∧
    ∀ again, write d' p again = write d p again
  /-- Writing back the old value changes nothing. -/
  put_old : write d p old = .ok d

variable {d d' x new : Value} {p : Path}

theorem Overwritten.of_overwrite (h : d.overwrite p.segments new = .ok d') :
    Overwritten d p new d' where
  below r := by
    rw [get, get, Path.segments_append, follow_append, follow_overwrite h]
    change ((new.follow r.segments).mapError _).mapError _ = _
    cases new.follow r.segments <;> rfl
  beside q hqp hpq := by
    rw [← Bool.not_eq_true, Path.startsWith_iff] at hqp hpq
    rw [get, get, follow_overwrite_of_not_prefix h hqp hpq]

/-- Ways of writing that differ only in what they report obey the same laws. -/
theorem OverwriteLaws.of_follow {write : Value → Path → Value → Except Fault Value}
    (report : Misstep → Fault)
    (hwrite : ∀ d new, write d p new = (d.overwrite p.segments new).mapError report)
    (h : d.follow p.segments = .ok x) : OverwriteLaws write d p x where
  put new := by
    obtain ⟨d', hd'⟩ := exists_overwrite_iff.2 ⟨x, h⟩
    refine ⟨d', ?_, .of_overwrite hd', fun again => ?_⟩
    · rw [hwrite, hd']
      rfl
    · rw [hwrite, hwrite, overwrite_overwrite hd']
  put_old := by
    rw [hwrite, overwrite_of_follow h]
    rfl

/-- Where a value is read, both ways of writing overwrite it and nothing else. -/
theorem overwriteLaws_of_get (h : d.get p = .ok x) :
    OverwriteLaws replace d p x ∧ OverwriteLaws assign d p x := by
  have hfollow : d.follow p.segments = .ok x := Result.mapError_eq_ok_iff.1 h
  have hconcrete : p.isConcrete = true :=
    Path.isConcrete_iff.2 (wildcard_not_mem_of_follow hfollow)
  refine ⟨.of_follow (fun m => p.fault (.nothing .replace m)) (fun d new => ?_) hfollow,
    .of_follow (fun m => p.fault (.misstep m)) (fun d new => rfl) hfollow⟩
  rw [replace, if_pos hconcrete]

/-- A position names a member and then an element that is overwritten. The element of the
other member is read as before, and so is the end of the written array, in which nothing
stands. -/
theorem overwriteLaws_of_get_spellings :
    let d : Value := .object [(utf8 "0", .array [.null]), (utf8 "1", .array [.bool true])]
    let p : Path := .ofSegments [.index 0, .index 0]
    let q : Path := .ofSegments [.key (utf8 "0"), .append]
    d.get p = .ok .null ∧ OverwriteLaws replace d p .null ∧
      ∃ d', d.assign p (.string []) = .ok d' ∧
        d'.get (.ofSegments [.key (utf8 "1"), .index 0]) = .ok (.bool true) ∧
        d'.get q = .error (q.fault (.misstep .atTheEnd)) := by
  intro d p q
  have h : d.get p = .ok .null := rfl
  obtain ⟨hreplace, hassign⟩ := overwriteLaws_of_get h
  obtain ⟨d', hd', hwritten, -⟩ := hassign.put (.string [])
  refine ⟨h, hreplace, d', hd', ?_, ?_⟩
  · rw [hwritten.beside _ (by decide) (by decide)]
    rfl
  · rw [hwritten.beside q (by decide) (by decide)]
    rfl

end TreePatch.Value
