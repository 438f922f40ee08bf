import TreePatch.Patch.Run
import TreePatch.Proofs.Path.Location
import TreePatch.Proofs.Path.ReadBack

set_option autoImplicit false

/-!
# Moving below oneself

A move refuses a target that lies strictly below its source, and it decides this by the
names of the two paths. The node that would be taken out together with the target is
decided by the document. `spellings_agree_with_locations` says that the two coincide:
wherever the source and the parent of the target exist, the move is refused exactly when
that parent is the source or lies below it.

* `isBelow_iff_startsWith_parent`: strictly below a path is below it with one's parent.
* `moveTo_of_isBelow`, `cause_ne_intoItself_of_moveTo`: a move to one place fails with
  `intoItself` if the place is below the source, and for other reasons only if it is not.
-/

namespace TreePatch

namespace Path

/-- The expansion of a pointer is its one place. -/
theorem expandPath_pointer {t : Text} {p : Path} (h : parsePointer t = .ok p) (d : Value) :
    expandPath d t = .ok [p] := by
  rw [expandPath, isQueryText_of_parsePointer h, h]
  rfl

end Path

namespace Command

variable {d x : Value} {p q : Path}

/-! ## Below a path -/

/-- A path is strictly below another if its parent is the other or below it. -/
theorem isBelow_iff_startsWith_parent (hq : q.isRoot = false) :
    isBelow p q = true ↔ q.parent.startsWith p = true := by
  have hsize : 0 < q.size := List.length_pos_iff.2 (List.isEmpty_eq_false_iff.1 hq)
  have hparent : q.parent.names = q.names.take (q.size - 1) := by
    rw [Path.names, Path.parent, List.dropLast_eq_take, List.map_take]
    rfl
  have hnames : p.names.length = p.size := List.length_map _
  rw [isBelow, Bool.and_eq_true, decide_eq_true_eq, Path.startsWith_iff, Path.startsWith_iff,
    hparent, List.prefix_take_iff, hnames, and_comm]
  exact and_congr_right fun _ => by omega

/-! ## A move from one place to another -/

theorem fetch_eq_ok_iff : fetch d p = .ok x ↔ d.get p = .ok x :=
  Result.mapError_eq_ok_iff.trans Result.mapError_eq_ok_iff.symm

/-- A move to a place below its source is refused and leaves the document. -/
theorem moveTo_of_isBelow (hx : d.get p = .ok x) (h : isBelow p q = true) :
    moveTo [q] d p = .failed d (q.fault .intoItself) := by
  rw [moveTo, fetch_eq_ok_iff.2 hx, List.find?_singleton, if_pos h]

/-- A move whose source can be taken out and of whose targets none is below it is left with the
insertions. -/
theorem moveTo_eq_addAll {places : List Path} {w : Value} (hx : d.get p = .ok x)
    (hbelow : ∀ q ∈ places, isBelow p q = false) (hw : d.remove p = .ok w) :
    moveTo places d p = addAll x places w := by
  have hfind : places.find? (isBelow p) = none :=
    List.find?_eq_none.2 fun q hq => by simp [hbelow q hq]
  rw [moveTo, fetch_eq_ok_iff.2 hx]
  simp only [hfind, hw, Outcome.ofExcept, Outcome.andThen_none]

/-- A move to one place is left with one insertion. -/
theorem moveTo_of_remove {w : Value} (hx : d.get p = .ok x) (hbelow : isBelow p q = false)
    (hw : d.remove p = .ok w) : moveTo [q] d p = .ofExcept w (w.add q x) := by
  rw [moveTo_eq_addAll hx (List.forall_mem_singleton.2 hbelow) hw]
  exact Outcome.forEach_singleton _ _ _

/-- A move from where nothing stands fails and leaves the document. -/
theorem moveTo_of_follow_error {places : List Path} {m : Misstep}
    (h : d.follow p.segments = .error m) :
    moveTo places d p = .failed d (p.fault (.nothing .source m)) := by
  rw [moveTo, fetch, h]
  rfl

/-- A move to a place that is not below its source fails for other reasons, if at all. -/
theorem cause_ne_intoItself_of_moveTo {f : Fault} (h : isBelow p q = false)
    (hf : (moveTo [q] d p).fault = some f) : f.cause ≠ .intoItself := by
  rw [moveTo] at hf
  cases hvalue : fetch d p with
  | error f' =>
      obtain ⟨m, -, rfl⟩ := Result.mapError_eq_error_iff.1 hvalue
      simp only [hvalue, Outcome.failed, Option.some.injEq] at hf
      simp [← hf, Path.fault]
  | ok value =>
      simp only [hvalue, List.find?_singleton, h, Bool.false_eq_true, if_false] at hf
      cases hremove : d.remove p with
      | error f' =>
          obtain rfl : f' = f := by simpa [hremove, Outcome.ofExcept] using hf
          rcases Value.cause_of_remove hremove with hc | hc | ⟨m, hc⟩ <;> simp [hc]
      | ok after =>
          have hadd : (Outcome.ofExcept after (after.add q value)).fault = some f := by
            simpa [hremove, Outcome.ofExcept, addAll, Outcome.forEach_singleton] using hf
          rcases Value.cause_of_add (Outcome.fault_ofExcept.1 hadd) with
            ⟨m, hc⟩ | ⟨n, size, hc⟩ | ⟨name, hc⟩ | ⟨found, hc⟩ <;> simp [hc]

/-- A move that succeeds has found its source, with no target below it, has taken it out and has
inserted it at every place. -/
theorem moveTo_eq_none_iff {places : List Path} {d' : Value} :
    moveTo places d p = ⟨d', none⟩ ↔ ∃ x w, d.get p = .ok x ∧
      (∀ q ∈ places, isBelow p q = false) ∧ d.remove p = .ok w ∧
      addAll x places w = ⟨d', none⟩ := by
  constructor
  · intro h
    rw [moveTo] at h
    cases hfetch : fetch d p with
    | error f => simp [hfetch, Outcome.failed] at h
    | ok x =>
        rw [hfetch] at h
        cases hfind : places.find? (isBelow p) with
        | some q => simp [hfind, Outcome.failed] at h
        | none =>
            cases hremove : d.remove p with
            | error f => simp [hfind, hremove, Outcome.ofExcept] at h
            | ok w =>
                simp only [hfind, hremove, Outcome.ofExcept, Outcome.andThen_none] at h
                refine ⟨x, w, fetch_eq_ok_iff.1 hfetch, fun q hq => ?_, rfl, h⟩
                simpa using List.find?_eq_none.1 hfind q hq
  · rintro ⟨x, w, hx, hbelow, hremove, hadd⟩
    rw [moveTo_eq_addAll hx hbelow hremove, hadd]

/-- A move to one place succeeds exactly if its source is there and can be taken out, the place is
not below the source, and the value can be inserted there then. -/
theorem moveTo_eq_ok_iff {d' : Value} : (moveTo [q] d p).result = .ok d' ↔
    ∃ x w, d.get p = .ok x ∧ isBelow p q = false ∧ d.remove p = .ok w ∧ w.add q x = .ok d' := by
  rw [Outcome.result_eq_ok_iff, moveTo_eq_none_iff]
  simp only [List.forall_mem_singleton, addAll, Outcome.forEach_singleton, Outcome.ofExcept_eq_iff]

end Command

/-! ## Moves as operations -/

namespace Operation

variable {d : Value} {o : Operation} {source target : Text} {p q : Path}

/-- A move between pointers is a move from one place to another. -/
theorem apply_move (hverb : o.verb? = some .move) (hsource : o.source = some source)
    (htarget : o.path = some target) (hp : Path.parsePointer source = .ok p)
    (hq : Path.parsePointer target = .ok q) :
    o.apply d = (Command.moveTo [q] d p).under o.op := by
  have hcommand : o.command = .ok (.move source target) := by
    rw [command, hverb, htarget, hsource]
    rfl
  rw [apply, hcommand]
  simp only [Command.run, Command.withPlaces, Path.expandPath_pointer hp,
    Path.expandPath_pointer hq, Outcome.forEach_singleton]

/-- A move between pointers succeeds exactly if its source can be taken out, the target is not
below it, and the value can be inserted there then. -/
theorem applied_move_iff {d' : Value} (hverb : o.verb? = some .move)
    (hsource : o.source = some source) (htarget : o.path = some target)
    (hp : Path.parsePointer source = .ok p) (hq : Path.parsePointer target = .ok q) :
    o.applied d = .ok d' ↔ ∃ x w, d.get p = .ok x ∧ Command.isBelow p q = false ∧
      d.remove p = .ok w ∧ w.add q x = .ok d' := by
  rw [applied, apply_move hverb hsource htarget hp hq, Outcome.result_under_eq_ok_iff,
    Command.moveTo_eq_ok_iff]

/-- Where its source exists, a move between pointers is refused exactly if the target is
strictly below the source. A refusal cites the target and leaves the document. -/
theorem refused_move_iff {x : Value} (hverb : o.verb? = some .move)
    (hsource : o.source = some source) (htarget : o.path = some target)
    (hp : Path.parsePointer source = .ok p) (hq : Path.parsePointer target = .ok q)
    (hx : d.get p = .ok x) :
    (o.apply d = .failed d { cause := .intoItself, path := q.toText, op := o.op } ↔
      Command.isBelow p q = true) ∧
    ((∃ fault, (o.apply d).fault = some fault ∧ fault.cause = .intoItself) ↔
      Command.isBelow p q = true) := by
  rw [apply_move hverb hsource htarget hp hq]
  have hrefused : Command.isBelow p q = true → (Command.moveTo [q] d p).under o.op =
      .failed d { cause := .intoItself, path := q.toText, op := o.op } := fun h => by
    rw [Command.moveTo_of_isBelow hx h]
    rfl
  have hbelow : (∃ fault, ((Command.moveTo [q] d p).under o.op).fault = some fault ∧
      fault.cause = .intoItself) → Command.isBelow p q = true := by
    rintro ⟨fault, hfault, hcause⟩
    obtain ⟨f, hf, rfl⟩ := Option.map_eq_some_iff.1 hfault
    have hcause' : f.cause = .intoItself := hcause
    cases h : Command.isBelow p q with
    | true => rfl
    | false => exact absurd hcause' (Command.cause_ne_intoItself_of_moveTo h hf)
  exact ⟨⟨fun h => hbelow ⟨_, congrArg Outcome.fault h, rfl⟩, hrefused⟩,
    hbelow, fun h => ⟨_, congrArg Outcome.fault (hrefused h), rfl⟩⟩

end Operation

/-! ## Names and nodes -/

/-- The names of paths say how the nodes lie to which they lead. Paths that lead somewhere
are the same exactly if their locations are, and one begins with the other exactly if its
node is the other's or lies below it. So a move between pointers, whose source and whose
target's parent exist, is refused exactly if that parent is the source or lies below it. -/
theorem spellings_agree_with_locations (d : Value) :
    (∀ (p q : Path) (x y : Value), d.get p = .ok x → d.get q = .ok y →
      ∃ l l', d.location p.segments = some l ∧ d.nodeAt l = some x ∧
        d.location q.segments = some l' ∧ d.nodeAt l' = some y ∧
        (p.same q = true ↔ l = l') ∧ (q.startsWith p = true ↔ l <+: l')) ∧
    ∀ (o : Operation) (source target : Text) (p q : Path) (x parent : Value),
      o.verb? = some .move → o.source = some source → o.path = some target →
      Path.parsePointer source = .ok p → Path.parsePointer target = .ok q →
      d.get p = .ok x → q.isRoot = false → d.get q.parent = .ok parent →
      ∃ l l', d.location p.segments = some l ∧ d.nodeAt l = some x ∧
        d.location q.parent.segments = some l' ∧ d.nodeAt l' = some parent ∧
        (Command.isBelow p q = true ↔ l <+: l') ∧
        (o.apply d = .failed d { cause := .intoItself, path := q.toText, op := o.op } ↔
          l <+: l') ∧
        ((∃ fault, (o.apply d).fault = some fault ∧ fault.cause = .intoItself) ↔ l <+: l') := by
  have hbegins : ∀ {p q : Path} {l l' : List Nat}, d.location p.segments = some l →
      d.location q.segments = some l' → (q.startsWith p = true ↔ l <+: l') :=
    fun hl hl' => Path.startsWith_iff.trans (Value.location_prefix_iff hl hl').symm
  refine ⟨fun p q x y hx hy => ?_, fun o source target p q x parent hverb hsource htarget hp hq
    hx hroot hparent => ?_⟩
  · obtain ⟨l, hl, hnode⟩ := Value.exists_location_of_get hx
    obtain ⟨l', hl', hnode'⟩ := Value.exists_location_of_get hy
    exact ⟨l, l', hl, hnode, hl', hnode',
      Path.same_iff.trans (Value.location_eq_iff hl hl').symm, hbegins hl hl'⟩
  · obtain ⟨l, hl, hnode⟩ := Value.exists_location_of_get hx
    obtain ⟨l', hl', hnode'⟩ := Value.exists_location_of_get hparent
    have hbelow : Command.isBelow p q = true ↔ l <+: l' :=
      (Command.isBelow_iff_startsWith_parent hroot).trans (hbegins hl hl')
    obtain ⟨hrefused, hcause⟩ :=
      Operation.refused_move_iff hverb hsource htarget hp hq hx
    exact ⟨l, l', hl, hnode, hl', hnode', hbelow, hrefused.trans hbelow, hcause.trans hbelow⟩

/-- The name `0` and the position 0 lead to one member. The object around it cannot be moved
behind its last element, and a value from beside it can. -/
theorem spellings_agree_with_locations_numeric_member :
    let d : Value := .object [(utf8 "m", .object [(utf8 "0", .array [])]), (utf8 "n", .null)]
    let p : Path := .ofSegments [.key (utf8 "m"), .index 0]
    let q : Path := .ofSegments [.key (utf8 "m"), .key (utf8 "0")]
    let inward : Operation := .move (utf8 "/m") (utf8 "/m/0/-")
    let beside : Operation := .move (utf8 "/n") (utf8 "/m/0/-")
    d.get p = .ok (.array []) ∧ d.get q = .ok (.array []) ∧
      d.location p.segments = some [0, 0] ∧ d.location q.segments = some [0, 0] ∧
      p.same q = true ∧
      inward.apply d =
        .failed d { cause := .intoItself, path := utf8 "/m/0/-", op := utf8 "move" } ∧
      ¬∃ fault, (beside.apply d).fault = some fault ∧ fault.cause = .intoItself := by
  intro d p q inward beside
  have hp : d.get p = .ok (.array []) := rfl
  have hq : d.get q = .ok (.array []) := rfl
  have hlp : d.location p.segments = some [0, 0] := rfl
  have hlq : d.location q.segments = some [0, 0] := rfl
  have htarget : Path.parsePointer (utf8 "/m/0/-") =
      .ok (.ofSegments [.key (utf8 "m"), .index 0, .append]) := by decide +kernel
  have hm : Path.parsePointer (utf8 "/m") = .ok (.ofSegments [.key (utf8 "m")]) := by decide +kernel
  have hn : Path.parsePointer (utf8 "/n") = .ok (.ofSegments [.key (utf8 "n")]) := by decide +kernel
  obtain ⟨hpaths, hmoves⟩ := spellings_agree_with_locations d
  obtain ⟨l, l', hl, -, hl', -, hsame, -⟩ := hpaths p q _ _ hp hq
  obtain rfl : [0, 0] = l := Option.some.inj (hlp.symm.trans hl)
  obtain rfl : [0, 0] = l' := Option.some.inj (hlq.symm.trans hl')
  obtain ⟨k, k', hk, -, hk', -, -, hrefused, -⟩ :=
    hmoves inward _ _ _ _ _ _ (by decide) rfl rfl hm htarget rfl rfl hp
  obtain rfl : [0] = k := Option.some.inj hk
  obtain rfl : [0, 0] = k' := Option.some.inj hk'
  obtain ⟨i, i', hi, -, hi', -, -, -, hother⟩ :=
    hmoves beside _ _ _ _ _ _ (by decide) rfl rfl hn htarget rfl rfl hp
  obtain rfl : [1] = i := Option.some.inj hi
  obtain rfl : [0, 0] = i' := Option.some.inj hi'
  refine ⟨hp, hq, hlp, hlq, hsame.2 rfl, (hrefused.2 (by decide)).trans rfl, fun h => ?_⟩
  exact absurd (hother.1 h) (by decide)

end TreePatch
