import TreePatch.Proofs.Patch.Stages

set_option autoImplicit false

/-!
# What a failed operation leaves

An operation on pointers works at one place, and everything it does there but a move is one
step, which either succeeds or changes nothing (`Command.isAtomic_run`). A move takes two.
It has made the first when the second fails, so it leaves the document without its source:
`Operation.apply_failed` says which failures those are and that nothing else is touched.

* `Command.isAtomic_moveTo`: the failures of a move before it takes its source out.
* `TakesSource.apply`: what is left to do then.
-/

namespace TreePatch

/-! ## All or nothing -/

namespace Outcome

variable {d : Value} {o : Outcome}

/-- A run that leaves the document as it was if it fails. -/
def IsAtomic (d : Value) (o : Outcome) : Prop := o.fault = none ∨ o.document = d

theorem isAtomic_failed (d : Value) (fault : Fault) : (failed d fault).IsAtomic d := .inr rfl

theorem isAtomic_ofExcept (d : Value) (r : Except Fault Value) : (ofExcept d r).IsAtomic d := by
  cases r with
  | error fault => exact .inr rfl
  | ok after => exact .inl rfl

theorem IsAtomic.under (h : o.IsAtomic d) (op : Text) : (o.under op).IsAtomic d :=
  h.imp_left fun hnone => by rw [Outcome.under, hnone]; rfl

theorem IsAtomic.document_of_fault {f : Fault} (h : o.IsAtomic d) (hf : o.fault = some f) :
    o.document = d := by
  rcases h with hnone | hd
  · cases hnone.symm.trans hf
  · exact hd

end Outcome

namespace Command

variable {d x : Value} {p q : Path}

/-- A pointer leads to one place. What is atomic there is atomic. -/
theorem isAtomic_withPlaces {text : Text} (hpointer : Path.isQueryText text = false)
    {next : List Path → Outcome}
    (hnext : ∀ p, Path.parsePointer text = .ok p → (next [p]).IsAtomic d) :
    (withPlaces d text next).IsAtomic d := by
  cases hplaces : Path.expandPath d text with
  | error fault =>
      rw [withPlaces, hplaces]
      exact Outcome.isAtomic_failed d fault
  | ok places =>
      obtain ⟨p, hp, rfl⟩ := (Path.expandPath_eq_ok_iff_of_pointer hpointer).1 hplaces
      rw [withPlaces_of_ok hplaces]
      exact hnext p hp

/-! ## The two steps of a move -/

/-- A path is strictly below another if it goes on from it. -/
theorem isBelow_iff_exists : isBelow p q = true ↔
    ∃ name rest, q.names = p.names ++ name :: rest := by
  have hp : p.names.length = p.size := List.length_map _
  have hq : q.names.length = q.size := List.length_map _
  rw [isBelow, Bool.and_eq_true, decide_eq_true_eq, Path.startsWith_iff, ← hp, ← hq]
  refine ⟨fun h => ?_, fun h => ?_⟩
  · obtain ⟨hlt, tail, htail⟩ := h
    cases tail with
    | nil => simp [← htail] at hlt
    | cons name rest => exact ⟨name, rest, htail.symm⟩
  · obtain ⟨name, rest, hnames⟩ := h
    exact ⟨by simp [hnames], by simp [hnames]⟩

theorem isBelow_eq_false_iff : isBelow p q = false ↔
    ∀ name rest, q.names ≠ p.names ++ name :: rest := by
  rw [← Bool.not_eq_true, isBelow_iff_exists, not_exists]
  exact forall_congr' fun _ => not_exists

/-- A move is atomic if its source is not there, is the root, or has the target below it. -/
theorem isAtomic_moveTo
    (h : (∃ x, d.get p = .ok x) → p.isRoot = false → isBelow p q = true) :
    (moveTo [q] d p).IsAtomic d := by
  rw [moveTo]
  cases fetch d p with
  | error fault => exact Outcome.isAtomic_failed d fault
  | ok x =>
      rw [List.find?_singleton]
      cases hbelow : isBelow p q with
      | true => exact Outcome.isAtomic_failed d _
      | false =>
          cases hremove : d.remove p with
          | error fault => exact Outcome.isAtomic_failed d fault
          | ok w =>
              -- What can be taken out is there and is not the root.
              obtain ⟨hroot, hget⟩ := Value.exists_remove_iff.1 ⟨w, hremove⟩
              cases hbelow.symm.trans (h hget hroot)

/-! ## Commands -/

/-- A command on pointers is atomic unless it is a move that comes to take its source out. -/
theorem isAtomic_run {c : Command} (horigin : Path.isQueryText c.origin = false)
    (hpath : Path.isQueryText c.path = false)
    (hmove : c.verb = .move → ∀ p q, Path.parsePointer c.origin = .ok p →
      Path.parsePointer c.path = .ok q → (∃ x, d.get p = .ok x) → p.isRoot = false →
        isBelow p q = true) : (c.run d).IsAtomic d := by
  rw [run_eq_withPlaces]
  refine isAtomic_withPlaces horigin fun p hp => isAtomic_withPlaces hpath fun q hq => ?_
  by_cases hverb : c.verb = .move
  · cases c with
    | move source path =>
        rw [runAt, Outcome.forEach_singleton]
        exact isAtomic_moveTo (hmove rfl p q hp hq)
    | _ => cases hverb
  · rw [runAt_singleton hverb]
    exact Outcome.isAtomic_ofExcept d _

end Command

/-! ## Operations -/

namespace Operation

variable {d : Value} {o : Operation}

/-- An operation is a move from one place to another that takes its source out: the source is
there, it is not the root, and the target does not go on from it. -/
structure TakesSource (o : Operation) (d : Value) (p q : Path) : Prop where
  verb : o.verb? = some .move
  source : ∃ text, o.source = some text ∧ Path.parsePointer text = .ok p
  target : ∃ text, o.path = some text ∧ Path.parsePointer text = .ok q
  found : ∃ x, d.get p = .ok x
  notRoot : p.isRoot = false
  outside : ∀ name rest, q.names ≠ p.names ++ name :: rest

/-- An operation on pointers is atomic if it does not take its source out. -/
theorem isAtomic_apply (hpath : ∀ text ∈ o.path, Path.isQueryText text = false)
    (hsource : o.verb? = some .move ∨ o.verb? = some .copy →
      ∀ text ∈ o.source, Path.isQueryText text = false)
    (hnone : ¬∃ p q, o.TakesSource d p q) : (o.apply d).IsAtomic d := by
  rw [apply]
  cases hc : o.command with
  | error fault => exact (Outcome.isAtomic_failed d fault).under o.op
  | ok c =>
      obtain ⟨hverb, hcpath, -, -⟩ := command_eq_ok_iff.1 hc
      have horigin := origin_of_command hc
      refine Outcome.IsAtomic.under (Command.isAtomic_run ?_ (hpath _ hcpath) ?_) o.op
      · rcases horigin with ⟨htakes, hcsource⟩ | ⟨-, hnone⟩
        · exact hsource htakes _ hcsource
        · exact Command.origin_of_source?_eq_none hnone ▸ hpath _ hcpath
      · intro hmove p q hp hq hfound hroot
        rw [hmove] at hverb
        obtain ⟨-, hcsource⟩ := horigin.resolve_right fun h => h.1 (.inl hverb)
        by_contra hbelow
        rw [Bool.not_eq_true, Command.isBelow_eq_false_iff] at hbelow
        exact hnone ⟨p, q, hverb, ⟨_, hcsource, hp⟩, ⟨_, hcpath, hq⟩, hfound, hroot, hbelow⟩

/-- A move that takes its source out is left with inserting the value. -/
theorem TakesSource.apply {p q : Path} (h : o.TakesSource d p q) : ∃ x w, d.get p = .ok x ∧
    d.remove p = .ok w ∧ o.apply d = (Outcome.ofExcept w (w.add q x)).under o.op := by
  obtain ⟨source, hsource, hp⟩ := h.source
  obtain ⟨target, htarget, hq⟩ := h.target
  obtain ⟨x, hx⟩ := h.found
  obtain ⟨w, hw⟩ := Value.exists_remove_iff.2 ⟨h.notRoot, x, hx⟩
  refine ⟨x, w, hx, hw, ?_⟩
  rw [apply_move h.verb hsource htarget hp hq,
    Command.moveTo_of_remove hx (Command.isBelow_eq_false_iff.2 h.outside) hw]

/-- An operation on pointers that fails leaves the document as it was. The one exception is a
move that takes its source out: it leaves the document without the source, and its fault is
that of inserting the value there. So an operation without a verb or a member that it needs,
or with a text that is not a pointer, changes nothing, and neither does a move whose source is
missing, is the root or has the target below it. -/
theorem apply_failed (hpath : ∀ text ∈ o.path, Path.isQueryText text = false)
    (hsource : o.verb? = some .move ∨ o.verb? = some .copy →
      ∀ text ∈ o.source, Path.isQueryText text = false)
    {f : Fault} (hf : (o.apply d).fault = some f) :
    ((¬∃ p q, o.TakesSource d p q) → (o.apply d).document = d) ∧
    ∀ p q, o.TakesSource d p q → d.remove p = .ok (o.apply d).document ∧
      ∃ x e, d.get p = .ok x ∧ (o.apply d).document.add q x = .error e ∧ f = e.under o.op := by
  refine ⟨fun hnone => ?_, fun p q htakes => ?_⟩
  · exact (isAtomic_apply hpath hsource hnone).document_of_fault hf
  · obtain ⟨x, w, hx, hw, hrun⟩ := htakes.apply
    rw [hrun] at hf ⊢
    obtain ⟨e, he, rfl⟩ := Option.map_eq_some_iff.1 hf
    have hadd : w.add q x = .error e := Outcome.fault_ofExcept.1 he
    rw [hadd]
    exact ⟨hw, x, e, hx, hadd, rfl⟩

/-- Moving the first of two elements behind the second takes it out first, and then the
position is beyond the end of what is left. -/
theorem apply_failed_move :
    let d : Value := .array [.bool true, .bool false]
    let o : Operation := .move (utf8 "/0") (utf8 "/2")
    let fault : Fault := { cause := .outOfBounds 2 1, path := utf8 "/2", op := utf8 "move" }
    (o.apply d).fault = some fault ∧
      o.TakesSource d (.ofSegments [.index 0]) (.ofSegments [.index 2]) ∧
      (o.apply d).document = .array [.bool false] := by
  intro d o fault
  have hf : (o.apply d).fault = some fault := by decide +kernel
  have htakes : o.TakesSource d (.ofSegments [.index 0]) (.ofSegments [.index 2]) := by
    refine ⟨by decide, ⟨_, rfl, by decide +kernel⟩, ⟨_, rfl, by decide +kernel⟩, ⟨_, rfl⟩, rfl, ?_⟩
    exact Command.isBelow_eq_false_iff.1 (by decide)
  obtain ⟨-, htaken⟩ := apply_failed (by decide) (by decide) hf
  obtain ⟨hremove, -⟩ := htaken _ _ htakes
  exact ⟨hf, htakes, Except.ok.inj (hremove.symm.trans rfl)⟩

end Operation

end TreePatch
