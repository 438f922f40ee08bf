import TreePatch.Proofs.Patch.Stages

set_option autoImplicit false

/-!
# Tests are guards

A test either passes and changes nothing or ends the patch with a fault that cites it. What a patch
does where no test ends it is therefore up to its other operations: its tests may be left out or
made again without a difference.

* `Operation.apply_test_cases`: what a test does.
* `Patch.TestsRepeated`: two patches that differ in how often they make their tests.
* `Patch.apply_of_testsRepeated`: such patches run alike unless a test ends the first.
-/

namespace TreePatch

/-! ## One test -/

/-- Comparing changes nothing, passed or failed. -/
theorem Command.document_checkAll (expected : Value) (places : List Path) (d : Value) :
    (checkAll expected places d).document = d := by
  refine Outcome.document_forEach (P := (· = d)) (fun w hw p _ => ?_) rfl
  refine Outcome.document_ofExcept (P := (· = d)) hw fun u hu => ?_
  obtain ⟨⟨⟩, -, rfl⟩ := Result.map_eq_ok_iff.1 hu
  exact hw

namespace Operation

variable {d : Value} {o : Operation}

/-- A test leaves the document. -/
theorem document_apply_test (ho : o.verb? = some .test) : (o.apply d).document = d := by
  rw [apply]
  cases hc : o.command with
  | error fault => rfl
  | ok c =>
      have hverb : c.verb = .test := by
        rw [(command_eq_ok_iff.1 hc).1] at ho
        exact Option.some.inj ho
      cases c with
      | test path expected =>
          show (Command.withPlaces d path _).document = d
          rw [Command.withPlaces]
          cases Path.expandPath d path with
          | error fault => rfl
          | ok places => exact Command.document_checkAll expected places d
      | _ => cases hverb

/-- A test passes and changes nothing, or it fails and the fault cites it. -/
theorem apply_test_cases (ho : o.verb? = some .test) (d : Value) :
    o.apply d = ⟨d, none⟩ ∨ ∃ f, (o.apply d).fault = some f ∧ f.op = Verb.test.name := by
  have hdocument := document_apply_test (d := d) ho
  cases hfault : (o.apply d).fault with
  | none =>
      left
      calc o.apply d = ⟨(o.apply d).document, (o.apply d).fault⟩ := rfl
        _ = ⟨d, none⟩ := by rw [hdocument, hfault]
  | some f =>
      right
      exact ⟨f, rfl, (op_of_apply hfault).trans (Verb.ofText?_eq_some_iff.1 ho)⟩

end Operation

/-! ## All tests of a patch -/

namespace Patch

/-- The second list is the first with its tests made any number of times in their places: once as
before, again, or not at all. Which tests these are and how often each is made is free. -/
inductive TestsRepeated : List Operation → List Operation → Prop
  /-- There is nothing to repeat. -/
  | nil : TestsRepeated [] []
  /-- An operation stays where it is. -/
  | keep (o : Operation) {ops ops' : List Operation} (h : TestsRepeated ops ops') :
      TestsRepeated (o :: ops) (o :: ops')
  /-- A test is made so many times. -/
  | test {o : Operation} (ho : o.verb? = some .test) (times : Nat) {ops ops' : List Operation}
      (h : TestsRepeated ops ops') : TestsRepeated (o :: ops) (List.replicate times o ++ ops')

variable {d : Value} {o : Operation} {ops ops' : List Operation}

/-- An operation that changes nothing may be run any number of times first. -/
theorem apply_replicate_append (h : o.apply d = ⟨d, none⟩) (times : Nat) (ops : List Operation) :
    apply d (List.replicate times o ++ ops) = apply d ops := by
  have hsame : Outcome.forEach (fun d o => Operation.apply d o) d (List.replicate times o) =
      ⟨d, none⟩ := Outcome.forEach_of_unchanged fun a ha => List.eq_of_mem_replicate ha ▸ h
  rw [apply, Outcome.forEach_append, hsame, Outcome.andThen_none, apply]

/-- A patch that no test ends leaves the same and fails alike, however often its tests are made. -/
theorem apply_of_testsRepeated (h : TestsRepeated ops ops')
    (hfault : ∀ f, (apply d ops).fault = some f → f.op ≠ Verb.test.name) :
    apply d ops' = apply d ops := by
  induction h generalizing d with
  | nil => rfl
  | @keep o ops ops' h ih =>
      have hcons : ∀ rest, apply d (o :: rest) = (o.apply d).andThen fun w => apply w rest :=
        fun rest => rfl
      rw [hcons, hcons]
      rw [hcons] at hfault
      cases hstep : o.apply d with
      | mk w fault =>
          cases fault with
          | none =>
              rw [hstep, Outcome.andThen_none] at hfault
              rw [Outcome.andThen_none, Outcome.andThen_none, ih hfault]
          | some f => rfl
  | @test o ho times ops ops' h ih =>
      -- A test that failed would be what ends the patch.
      rcases Operation.apply_test_cases ho d with hpass | ⟨f, hf, hop⟩
      · have hcons : apply d (o :: ops) = apply d ops := apply_replicate_append hpass 1 ops
        rw [apply_replicate_append hpass, hcons]
        rw [hcons] at hfault
        exact ih hfault
      · have hends : (apply d (o :: ops)).fault = some f := by
          show ((o.apply d).andThen fun w => apply w ops).fault = some f
          rw [Outcome.andThen, hf]
          exact hf
        exact absurd hop (hfault f hends)

/-- Leaving out tests of a patch that succeeds, or making them again, leaves the same document. One
that fails, but not in a test, fails in the same way. -/
theorem applied_of_testsRepeated (d : Value) (h : TestsRepeated ops ops') :
    (∀ r, applied d ops = .ok r → applied d ops' = .ok r) ∧
    ∀ f, applied d ops = .error f → f.op ≠ Verb.test.name → applied d ops' = .error f := by
  refine ⟨fun r hr => ?_, fun f hf hop => ?_⟩
  · have hnone : (apply d ops).fault = none := by rw [Outcome.result_eq_ok_iff.1 hr]
    rw [applied, apply_of_testsRepeated h (by simp [hnone])]
    exact hr
  · have hsome : (apply d ops).fault = some f := Outcome.result_eq_error_iff.1 hf
    rw [applied, apply_of_testsRepeated h (by simpa [hsome] using hop)]
    exact hf

/-- A test of all members is left out before the removal of one of them and made three times after
it, where it compares one value less. A test before a removal that fails is left out, too. -/
theorem applied_of_testsRepeated_removals :
    let d : Value := .object [(utf8 "a", .bool true), (utf8 "b", .bool true)]
    let guard : Operation := .test (utf8 "$/*") (.bool true)
    let succeeds : List Operation := [guard, .remove (utf8 "/b"), guard]
    let fails : List Operation := [guard, .remove (utf8 "/c")]
    let left : Value := .object [(utf8 "a", .bool true)]
    let fault : Fault :=
      { cause := .nothing .remove (.noMember (utf8 "c")), path := utf8 "/c", op := utf8 "remove" }
    TestsRepeated succeeds [.remove (utf8 "/b"), guard, guard, guard] ∧
      applied d succeeds = .ok left ∧
      applied d [.remove (utf8 "/b"), guard, guard, guard] = .ok left ∧
      TestsRepeated fails [.remove (utf8 "/c")] ∧
      applied d fails = .error fault ∧ applied d [.remove (utf8 "/c")] = .error fault := by
  intro d guard succeeds fails left fault
  have hguard : guard.verb? = some .test := by decide
  have hrepeated : TestsRepeated succeeds [.remove (utf8 "/b"), guard, guard, guard] :=
    .test hguard 0 (.keep _ (.test hguard 3 .nil))
  have homitted : TestsRepeated fails [.remove (utf8 "/c")] :=
    .test hguard 0 (.keep _ .nil)
  have hok : applied d succeeds = .ok left := by decide +kernel
  have herror : applied d fails = .error fault := by decide +kernel
  have hop : fault.op ≠ Verb.test.name := by decide
  exact ⟨hrepeated, hok, (applied_of_testsRepeated d hrepeated).1 left hok, homitted, herror,
    (applied_of_testsRepeated d homitted).2 fault herror hop⟩

end Patch

end TreePatch
