import TreePatch.Proofs.Operation.Command
import TreePatch.Proofs.Patch.Move
import TreePatch.Proofs.Query.Concrete
import TreePatch.Proofs.Value.Domain

set_option autoImplicit false

/-!
# The two stages of a command

Every command expands its expressions in the document as it is and then works on the places
they gave (`Command.run_eq_withPlaces`). The second stage does not look at the expressions
any more, so what is proved of it holds however the places were spelled.

* `Command.exists_places_of_run`, `Command.run_of_expandPath`: a run is the work on the places
  that the expressions gave.
* `Command.runAt_singleton`: at one place every command but a move is one step, and
  `Command.exists_parents_of_answerAt` says what it needs for it.
* `Operation.fault_apply_eq_some_iff`: an operation fails with the fault of its refusal or of its
  command, under its word.
-/

namespace TreePatch

namespace Command

variable {d x : Value} {c : Command} {p q : Path} {text : Text} {next : List Path → Outcome}

/-! ## The stages -/

/-- The expression for the places from which a command takes values. One that takes none takes
its own place for it. -/
def origin (c : Command) : Text := c.source?.getD c.path

theorem origin_of_source?_eq_none (h : c.source? = none) : c.origin = c.path := by
  rw [origin, h]
  rfl

theorem verb_ne_move_of_source?_eq_none (h : c.source? = none) : c.verb ≠ .move := by
  cases c with
  | move source path => cases h
  | _ => simp [verb]

/-- What a command does at places. -/
def runAt (d : Value) (sources places : List Path) : Command → Outcome
  | .add _ value => addAll value places d
  | .remove _ => removeAll places d
  | .replace _ value => replaceAll value places d
  | .move _ _ => Outcome.forEach (moveTo places) d sources
  | .copy _ _ => Outcome.forEach (copyTo places) d sources
  | .test _ value => checkAll value places d

theorem withPlaces_of_ok {places : List Path} (h : Path.expandPath d text = .ok places) :
    withPlaces d text next = next places := by
  rw [withPlaces, h]

/-- Expanding an expression a second time gives the same places. -/
theorem withPlaces_withPlaces : (withPlaces d text fun _ => withPlaces d text next) =
    withPlaces d text next := by
  unfold withPlaces
  cases Path.expandPath d text <;> rfl

/-- A command expands its expressions and then works on the places. -/
theorem run_eq_withPlaces (d : Value) (c : Command) : c.run d =
    withPlaces d c.origin fun sources =>
      withPlaces d c.path fun places => c.runAt d sources places := by
  cases c with
  | move source path | copy source path => rfl
  | _ => exact withPlaces_withPlaces.symm

theorem exists_places_of_withPlaces (h : (withPlaces d text next).fault = none) :
    ∃ places, Path.expandPath d text = .ok places ∧ withPlaces d text next = next places := by
  cases hplaces : Path.expandPath d text with
  | error fault => simp [withPlaces, hplaces, Outcome.failed] at h
  | ok places => exact ⟨places, rfl, withPlaces_of_ok hplaces⟩

/-- A command that succeeds has found its places. -/
theorem exists_places_of_run (h : (c.run d).fault = none) :
    ∃ sources places, Path.expandPath d c.origin = .ok sources ∧
      Path.expandPath d c.path = .ok places ∧ c.run d = c.runAt d sources places := by
  rw [run_eq_withPlaces] at h ⊢
  obtain ⟨sources, hsources, hrun⟩ := exists_places_of_withPlaces h
  rw [hrun] at h ⊢
  obtain ⟨places, hplaces, hrun⟩ := exists_places_of_withPlaces h
  exact ⟨sources, places, hsources, hplaces, hrun⟩

theorem run_of_expandPath {sources places : List Path}
    (hsources : Path.expandPath d c.origin = .ok sources)
    (hplaces : Path.expandPath d c.path = .ok places) : c.run d = c.runAt d sources places := by
  rw [run_eq_withPlaces, withPlaces_of_ok hsources, withPlaces_of_ok hplaces]

/-! ## Work at one place -/

/-- A comparison succeeds exactly if the value is there and equal to the expected one. -/
theorem check_eq_ok_iff {expected : Value} : check expected d p = .ok () ↔
    ∃ actual, d.get p = .ok actual ∧ actual.equals expected = true := by
  simp only [check, Value.get_eq_ok_iff]
  cases d.follow p.segments with
  | error m => simp
  | ok actual => by_cases h : actual.equals expected = true <;> simp [h]

theorem copyTo_singleton :
    copyTo [q] d p = .ofExcept d ((fetch d p).bind fun x => d.add q x) := by
  rw [copyTo]
  cases fetch d p with
  | error fault => rfl
  | ok x => exact Outcome.forEach_singleton _ _ _

/-- The answer of a command at one place. -/
def answerAt (d : Value) (p q : Path) : Command → Except Fault Value
  | .add _ value => d.add q value
  | .remove _ => d.remove q
  | .replace _ value => d.replace q value
  | .move _ _ => (moveTo [q] d p).result
  | .copy _ _ => (fetch d p).bind fun value => d.add q value
  | .test _ expected => (check expected d q).map fun _ => d

/-- At one place every command but a move succeeds or changes nothing. -/
theorem runAt_singleton (hverb : c.verb ≠ .move) :
    c.runAt d [p] [q] = .ofExcept d (c.answerAt d p q) := by
  cases c with
  | move source path => exact absurd rfl hverb
  | copy source path => exact (Outcome.forEach_singleton _ _ _).trans copyTo_singleton
  | _ => exact Outcome.forEach_singleton _ _ _

/-- A command other than a move finds the parent of the place at which it succeeds, and that of
the place from which it takes a value. -/
theorem exists_parents_of_answerAt {w : Value} (hverb : c.verb ≠ .move)
    (h : c.answerAt d p q = .ok w) : (∃ parent, d.get q.parent = .ok parent) ∧
      (c.source?.isSome = true → ∃ parent, d.get p.parent = .ok parent) := by
  cases c with
  | add path value => exact ⟨Value.exists_parent_of_add h, by simp [source?]⟩
  | remove path =>
      obtain ⟨-, x, hx⟩ := Value.exists_remove_iff.1 ⟨w, h⟩
      exact ⟨Value.exists_parent_of_get hx, by simp [source?]⟩
  | replace path value =>
      obtain ⟨x, hx⟩ := Value.exists_replace_iff.1 ⟨w, h⟩
      exact ⟨Value.exists_parent_of_get hx, by simp [source?]⟩
  | move source path => exact absurd rfl hverb
  | copy source path =>
      obtain ⟨x, hx, hadd⟩ := Result.bind_eq_ok_iff.1 h
      refine ⟨Value.exists_parent_of_add hadd, fun _ => ?_⟩
      exact Value.exists_parent_of_get (fetch_eq_ok_iff.1 hx)
  | test path expected =>
      obtain ⟨⟨⟩, hcheck, -⟩ := Result.map_eq_ok_iff.1 h
      obtain ⟨x, hx, -⟩ := check_eq_ok_iff.1 hcheck
      exact ⟨Value.exists_parent_of_get hx, by simp [source?]⟩

end Command

/-- The origin of a move or a copy is the operation's source. All other commands have no source. -/
theorem Operation.origin_of_command {o : Operation} {c : Command} (hc : o.command = .ok c) :
    (o.verb? = some .move ∨ o.verb? = some .copy) ∧ o.source = some c.origin ∨
      ¬(o.verb? = some .move ∨ o.verb? = some .copy) ∧ c.source? = none := by
  obtain ⟨hverb, -, hsource, -⟩ := command_eq_ok_iff.1 hc
  rw [hverb]
  cases c with
  | move source path => exact .inl ⟨.inl rfl, hsource source rfl⟩
  | copy source path => exact .inl ⟨.inr rfl, hsource source rfl⟩
  | _ => exact .inr ⟨by simp [Command.verb], rfl⟩

/-- An operation fails if it stands for no command or for one that fails. The fault cites its
word. -/
theorem Operation.fault_apply_eq_some_iff {o : Operation} {d : Value} {f : Fault} :
    (o.apply d).fault = some f ↔ ∃ e, f = e.under o.op ∧
      (o.command = .error e ∨ ∃ c, o.command = .ok c ∧ (c.run d).fault = some e) := by
  rw [apply]
  cases o.command with
  | error e => simp [Outcome.failed, Outcome.under, eq_comm]
  | ok c => simp [Outcome.under, and_comm, eq_comm (a := f)]

theorem Operation.op_of_apply {o : Operation} {d : Value} {f : Fault}
    (h : (o.apply d).fault = some f) : f.op = o.op := by
  obtain ⟨e, rfl, -⟩ := fault_apply_eq_some_iff.1 h
  rfl

/-- An operation succeeds if it stands for a command that does. -/
theorem Operation.applied_eq_ok_iff {o : Operation} {d d' : Value} :
    o.applied d = .ok d' ↔ ∃ c, o.command = .ok c ∧ c.run d = ⟨d', none⟩ := by
  rw [applied, Outcome.result_eq_ok_iff, apply]
  cases o.command with
  | error fault => simp [Outcome.failed, Outcome.under]
  | ok c =>
      rcases hrun : c.run d with ⟨w, _ | fault⟩ <;> simp [Outcome.under, hrun]

/-- An operation runs to the end as its command does. -/
theorem Operation.apply_iff_of_command {o : Operation} {c : Command} {d d' : Value}
    (ho : o.command = .ok c) : o.apply d = ⟨d', none⟩ ↔ c.run d = ⟨d', none⟩ := by
  rw [← Outcome.result_eq_ok_iff]
  exact applied_eq_ok_iff.trans (by simp [ho])

end TreePatch
