import TreePatch.Operation.Encoding
import TreePatch.Patch.Run
import TreePatch.Proofs.Operation.Command
import TreePatch.Proofs.Value.WellFormed

set_option autoImplicit false

/-!
# Documents keep their names distinct

No edit and no operation brings two members of one name into a document, whether it
succeeds or fails on the way, as long as the values that it inserts have distinct names
themselves. The values that are moved and copied come from the document, so they do.

* `Command.WellFormed.run`: one command, with each of its places one after another.
* `Change.WellFormed.run`, `Change.WellFormed.history`: one change of a document and then
  a list of them, which goes on after failures.
* `wellFormed_of_changes`: all that can be got out of a well-formed document.
-/

namespace TreePatch

/-! ## Commands -/

namespace Command

/-- The value that a command inserts or compares with has distinct names. -/
def WellFormed (c : Command) : Prop := ∀ value ∈ c.value?, value.WellFormed

variable {d value : Value} {places : List Path}

/-- What works through places by edits that keep values well formed does so. -/
theorem wellFormed_forEach {act : Value → Path → Except Fault Value}
    (hact : ∀ v p w, v.WellFormed → act v p = .ok w → w.WellFormed) (hd : d.WellFormed) :
    (Outcome.forEach (fun v p => .ofExcept v (act v p)) d places).document.WellFormed :=
  Outcome.document_forEach
    (fun v hv p _ => Outcome.document_ofExcept hv fun w hw => hact v p w hv hw) hd

theorem wellFormed_addAll (hd : d.WellFormed) (hvalue : value.WellFormed) :
    (addAll value places d).document.WellFormed :=
  wellFormed_forEach (fun _ _ _ hv => hv.add hvalue) hd

theorem wellFormed_removeAll (hd : d.WellFormed) : (removeAll places d).document.WellFormed :=
  wellFormed_forEach (fun _ _ _ hv => hv.remove) hd

theorem wellFormed_replaceAll (hd : d.WellFormed) (hvalue : value.WellFormed) :
    (replaceAll value places d).document.WellFormed :=
  wellFormed_forEach (fun _ _ _ hv => hv.replace hvalue) hd

theorem wellFormed_checkAll (hd : d.WellFormed) :
    (checkAll value places d).document.WellFormed := by
  refine wellFormed_forEach (fun v p w hv hw => ?_) hd
  obtain ⟨-, -, rfl⟩ := Result.map_eq_ok_iff.1 hw
  exact hv

/-- A value that is fetched to be moved or copied is a part of the document. -/
theorem wellFormed_of_fetch {source : Path} (hd : d.WellFormed)
    (h : fetch d source = .ok value) : value.WellFormed :=
  hd.follow (Result.mapError_eq_ok_iff.1 h)

theorem wellFormed_copyTo (hd : d.WellFormed) (source : Path) :
    (copyTo places d source).document.WellFormed := by
  rw [copyTo]
  cases hvalue : fetch d source with
  | error fault => exact hd
  | ok value => exact wellFormed_addAll hd (wellFormed_of_fetch hd hvalue)

theorem wellFormed_moveTo (hd : d.WellFormed) (source : Path) :
    (moveTo places d source).document.WellFormed := by
  rw [moveTo]
  cases hvalue : fetch d source with
  | error fault => exact hd
  | ok value =>
      have hw := wellFormed_of_fetch hd hvalue
      cases places.find? (isBelow source) with
      | some target => exact hd
      | none =>
          refine Outcome.document_andThen ?_ fun v hv => wellFormed_addAll hv hw
          exact Outcome.document_ofExcept hd fun v hv => hd.remove hv

theorem wellFormed_withPlaces {text : Text} {next : List Path → Outcome} (hd : d.WellFormed)
    (hnext : ∀ places, (next places).document.WellFormed) :
    (withPlaces d text next).document.WellFormed := by
  rw [withPlaces]
  cases Path.expandPath d text with
  | error fault => exact hd
  | ok places => exact hnext places

/-- A command keeps a document well formed, failed or not. -/
theorem WellFormed.run {c : Command} (hc : c.WellFormed) (hd : d.WellFormed) :
    (c.run d).document.WellFormed := by
  cases c with
  | add path value => exact wellFormed_withPlaces hd fun _ => wellFormed_addAll hd (hc value rfl)
  | remove path => exact wellFormed_withPlaces hd fun _ => wellFormed_removeAll hd
  | replace path value =>
      exact wellFormed_withPlaces hd fun _ => wellFormed_replaceAll hd (hc value rfl)
  | move source path =>
      refine wellFormed_withPlaces hd fun _ => wellFormed_withPlaces hd fun _ => ?_
      exact Outcome.document_forEach (fun v hv p _ => wellFormed_moveTo hv p) hd
  | copy source path =>
      refine wellFormed_withPlaces hd fun _ => wellFormed_withPlaces hd fun _ => ?_
      exact Outcome.document_forEach (fun v hv p _ => wellFormed_copyTo hv p) hd
  | test path value => exact wellFormed_withPlaces hd fun _ => wellFormed_checkAll hd

end Command

/-! ## Operations and patches -/

namespace Operation

variable {d : Value} {o : Operation}

/-- The value that an operation holds, if it holds one, has distinct names. -/
def WellFormed (o : Operation) : Prop := ∀ value ∈ o.value, value.WellFormed

instance (o : Operation) : Decidable o.WellFormed :=
  inferInstanceAs (Decidable (∀ value ∈ o.value, value.WellFormed))

theorem WellFormed.command {c : Command} (ho : o.WellFormed) (hc : o.command = .ok c) :
    c.WellFormed := by
  obtain ⟨-, -, -, hvalue⟩ := command_eq_ok_iff.1 hc
  exact fun value h => ho value (hvalue value h)

theorem WellFormed.apply (ho : o.WellFormed) (hd : d.WellFormed) :
    (o.apply d).document.WellFormed := by
  rw [Operation.apply]
  cases hc : o.command with
  | error fault => exact hd
  | ok c => exact (ho.command hc).run hd

/-- An operation that was read holds a part of the value that it was read from. -/
theorem wellFormed_of_ofValue (hd : d.WellFormed) (h : ofValue d = .ok o) : o.WellFormed := by
  obtain ⟨ms, rfl, hread⟩ := ofValue_eq_ok_iff.1 h
  obtain ⟨-, -, -, hvalue⟩ := ofMembers_eq_ok_iff.1 hread
  intro value hmem
  rw [← hvalue] at hmem
  exact (Value.wellFormed_object_iff_get?.1 hd).2 _ value hmem

end Operation

theorem Patch.wellFormed_apply {d : Value} {os : List Operation} (hos : ∀ o ∈ os, o.WellFormed)
    (hd : d.WellFormed) : (Patch.apply d os).document.WellFormed :=
  Outcome.document_forEach (fun _ hv o ho => (hos o ho).apply hv) hd

/-! ## Changes one after another -/

/-- A change of a document: an edit at a path, or an operation. -/
inductive Change where
  /-- Insert a value at a path. -/
  | add (p : Path) (value : Value)
  /-- Overwrite the value at a path. -/
  | replace (p : Path) (value : Value)
  /-- Take out the value at a path. -/
  | remove (p : Path)
  /-- Look up the value at a path and assign to it. -/
  | assign (p : Path) (value : Value)
  /-- Run an operation. -/
  | apply (o : Operation)

namespace Change

variable {d : Value} {c : Change} {cs : List Change}

/-- Make a change. -/
def run (d : Value) : Change → Outcome
  | .add p value => .ofExcept d (d.add p value)
  | .replace p value => .ofExcept d (d.replace p value)
  | .remove p => .ofExcept d (d.remove p)
  | .assign p value => .ofExcept d (d.assign p value)
  | .apply o => o.apply d

/-- The value that a change brings has distinct names. -/
def WellFormed : Change → Prop
  | .add _ value | .replace _ value | .assign _ value => value.WellFormed
  | .remove _ => True
  | .apply o => o.WellFormed

instance : (c : Change) → Decidable c.WellFormed
  | .add _ value | .replace _ value | .assign _ value =>
      inferInstanceAs (Decidable value.WellFormed)
  | .remove _ => inferInstanceAs (Decidable True)
  | .apply o => inferInstanceAs (Decidable o.WellFormed)

/-- The documents that changes leave one after another. A change that fails is followed by
the next. -/
def history (d : Value) : List Change → List Value
  | [] => []
  | c :: rest => (c.run d).document :: history (c.run d).document rest

theorem WellFormed.run (hc : c.WellFormed) (hd : d.WellFormed) :
    (c.run d).document.WellFormed := by
  cases c with
  | add p value => exact Outcome.document_ofExcept hd fun _ h => hd.add hc h
  | replace p value => exact Outcome.document_ofExcept hd fun _ h => hd.replace hc h
  | remove p => exact Outcome.document_ofExcept hd fun _ h => hd.remove h
  | assign p value => exact Outcome.document_ofExcept hd fun _ h => hd.assign hc h
  | apply o => exact Operation.WellFormed.apply hc hd

theorem WellFormed.history (hcs : ∀ c ∈ cs, c.WellFormed) (hd : d.WellFormed) :
    ∀ v ∈ history d cs, v.WellFormed := by
  induction cs generalizing d with
  | nil => simp [Change.history]
  | cons c cs ih =>
      obtain ⟨hc, hcs⟩ := List.forall_mem_cons.1 hcs
      exact List.forall_mem_cons.2 ⟨hc.run hd, ih hcs (hc.run hd)⟩

end Change

/-! ## Everything that is got out of a document -/

/-- A well-formed document is well formed after every one of a list of well-formed changes,
those that failed included. What operations and patches answer is well formed, and so is what
is looked up at a pointer or held by an operation that was read from a well-formed value. -/
theorem wellFormed_of_changes {d : Value} (hd : d.WellFormed) :
    (∀ cs : List Change, (∀ c ∈ cs, c.WellFormed) → ∀ v ∈ Change.history d cs, v.WellFormed) ∧
    (∀ (o : Operation) (v : Value), o.WellFormed → o.applied d = .ok v → v.WellFormed) ∧
    (∀ (os : List Operation) (v : Value), (∀ o ∈ os, o.WellFormed) →
      Patch.applied d os = .ok v → v.WellFormed) ∧
    (∀ (pointer : Text) (x : Value), d.getPointer pointer = .ok x → x.WellFormed) ∧
    ∀ o : Operation, Operation.ofValue d = .ok o → o.WellFormed := by
  refine ⟨fun cs hcs => Change.WellFormed.history hcs hd, fun o v ho h => ?_,
    fun os v hos h => ?_, fun pointer x => hd.getPointer,
    fun o => Operation.wellFormed_of_ofValue hd⟩
  · have hkept := ho.apply hd
    rwa [Outcome.result_eq_ok_iff.1 h] at hkept
  · have hkept := Patch.wellFormed_apply hos hd
    rwa [Outcome.result_eq_ok_iff.1 h] at hkept

/-- A member is added to the first of two places before the second fails, moved over a member
of the root, and assigned to. A removal then fails. -/
theorem wellFormed_of_changes_partial :
    let d : Value := .object [(utf8 "a", .object []), (utf8 "b", .null)]
    let cs : List Change := [
      .apply (.add (utf8 "$/*/k") (.object [(utf8 "n", .null)])),
      .apply (.move (utf8 "/a/k") (utf8 "/b")),
      .assign (.ofSegments [.key (utf8 "b"), .key (utf8 "n")]) (.array []),
      .remove (.ofSegments [.key (utf8 "a"), .key (utf8 "k")])]
    let last : Value :=
      .object [(utf8 "a", .object []), (utf8 "b", .object [(utf8 "n", .array [])])]
    Change.history d cs = [
      .object [(utf8 "a", .object [(utf8 "k", .object [(utf8 "n", .null)])]), (utf8 "b", .null)],
      .object [(utf8 "a", .object []), (utf8 "b", .object [(utf8 "n", .null)])], last, last] ∧
      (∀ c ∈ cs, c.WellFormed) ∧ ∀ v ∈ Change.history d cs, v.WellFormed := by
  intro d cs last
  have hcs : ∀ c ∈ cs, c.WellFormed := by decide
  exact ⟨by decide +kernel, hcs, (wellFormed_of_changes (by decide)).1 cs hcs⟩

end TreePatch
