import TreePatch.Operation.Command
import TreePatch.Result

set_option autoImplicit false

/-!
# Which command an operation stands for

A command is taken apart into its verb, its expressions and its value, and
`command_eq_ok_iff` says that an operation stands for it exactly if the operation has
that verb and these members. What is proved of a command from its parts therefore holds
of every operation that can be run. An operation that cannot be run names no verb or lacks a
member that its verb needs (`cause_of_command`, `exists_command_iff`).
-/

namespace TreePatch

namespace Command

/-! ## The parts of a command -/

/-- The verb of a command. -/
def verb : Command → Verb
  | .add _ _ => .add
  | .remove _ => .remove
  | .replace _ _ => .replace
  | .move _ _ => .move
  | .copy _ _ => .copy
  | .test _ _ => .test

/-- The expression for the places at which a command acts. -/
def path : Command → Text
  | .add path _ | .remove path | .replace path _ => path
  | .move _ path | .copy _ path | .test path _ => path

/-- The expression for the places from which a command takes values. -/
def source? : Command → Option Text
  | .move source _ | .copy source _ => some source
  | _ => none

/-- The value that a command inserts or compares with. -/
def value? : Command → Option Value
  | .add _ value | .replace _ value | .test _ value => some value
  | _ => none

end Command

namespace Operation

variable {o : Operation} {c : Command}

theorem require_eq_ok_iff {α : Type} {field : Field} {member : Option α} {a : α} :
    o.require field member = .ok a ↔ member = some a := by
  cases member with
  | none => simp [require, refuse]
  | some b => simp [require]

theorem require_eq_error_iff {α : Type} {field : Field} {member : Option α} {f : Fault} :
    o.require field member = .error f ↔
      member = none ∧ f = { cause := .missingField o.op field, path := o.path.getD [] } := by
  cases member with
  | none => simp [require, refuse, eq_comm]
  | some b => simp [require]

/-- An operation stands for the command that has its verb and, of its members, those that
the verb needs. -/
theorem command_eq_ok_iff : o.command = .ok c ↔
    o.verb? = some c.verb ∧ o.path = some c.path ∧
      (∀ source ∈ c.source?, o.source = some source) ∧
      ∀ value ∈ c.value?, o.value = some value := by
  rw [command]
  cases hverb : o.verb? with
  | none => simp [refuse]
  | some verb =>
      simp only [Result.bind_eq_ok_iff, require_eq_ok_iff, Option.some.injEq]
      refine ⟨fun h => ?_, fun h => ?_⟩
      · obtain ⟨path, hpath, h⟩ := h
        cases verb
        all_goals simp only [Result.map_eq_ok_iff, require_eq_ok_iff, Except.ok.injEq] at h
        case remove =>
          subst h
          exact ⟨rfl, hpath, by simp [Command.source?], by simp [Command.value?]⟩
        case move | copy =>
          obtain ⟨source, hsource, rfl⟩ := h
          exact ⟨rfl, hpath, by simpa [Command.source?] using hsource, by simp [Command.value?]⟩
        all_goals
          obtain ⟨value, hvalue, rfl⟩ := h
          exact ⟨rfl, hpath, by simp [Command.source?], by simpa [Command.value?] using hvalue⟩
      · obtain ⟨rfl, hpath, hsource, hvalue⟩ := h
        refine ⟨c.path, hpath, ?_⟩
        cases c with
        | remove path => rfl
        | move source path | copy source path =>
            exact Result.map_eq_ok_iff.2 ⟨_, require_eq_ok_iff.2 (hsource _ rfl), rfl⟩
        | add path value | replace path value | test path value =>
            exact Result.map_eq_ok_iff.2 ⟨_, require_eq_ok_iff.2 (hvalue _ rfl), rfl⟩

/-! ## Operations that cannot be run -/

/-- The operation lacks a member that the verb needs. -/
def Lacks (o : Operation) (v : Verb) : Field → Prop
  | .op => False
  | .path => o.path = none
  | .source => (v = .move ∨ v = .copy) ∧ o.source = none
  | .value => (v = .add ∨ v = .replace ∨ v = .test) ∧ o.value = none

/-- What an operation is refused for: its word names no verb, or it lacks a member, which the
refusal names. -/
theorem cause_of_command {f : Fault} (h : o.command = .error f) :
    (o.verb? = none ∧ f.cause = .unknownVerb o.op) ∨
      ∃ v field, o.verb? = some v ∧ o.Lacks v field ∧ f.cause = .missingField o.op field := by
  rw [command] at h
  cases hverb : o.verb? with
  | none =>
      rw [hverb] at h
      cases h
      exact .inl ⟨rfl, rfl⟩
  | some v =>
      rw [hverb] at h
      right
      cases hpath : o.path with
      | none =>
          rw [hpath] at h
          cases h
          exact ⟨v, .path, rfl, hpath, rfl⟩
      | some path =>
          rw [hpath] at h
          cases v with
          | remove => cases h
          | add | replace | test =>
              obtain ⟨hvalue, hcause⟩ := require_eq_error_iff.1 (Result.map_eq_error_iff.1 h)
              exact ⟨_, .value, rfl, ⟨by simp, hvalue⟩, by rw [hcause]⟩
          | move | copy =>
              obtain ⟨hsource, hcause⟩ := require_eq_error_iff.1 (Result.map_eq_error_iff.1 h)
              exact ⟨_, .source, rfl, ⟨by simp, hsource⟩, by rw [hcause]⟩

/-- An operation stands for a command if its word names a verb and it lacks nothing. -/
theorem exists_command_iff :
    (∃ c, o.command = .ok c) ↔ ∃ v, o.verb? = some v ∧ ∀ field, ¬ o.Lacks v field := by
  constructor
  · intro h
    obtain ⟨c, hc⟩ := h
    obtain ⟨hverb, hpath, hsource, hvalue⟩ := command_eq_ok_iff.1 hc
    refine ⟨c.verb, hverb, fun field hlacks => ?_⟩
    cases field with
    | op => exact hlacks
    | path => cases hlacks.symm.trans hpath
    | source =>
        obtain ⟨hverb, hnone⟩ := hlacks
        cases c with
        | move source path | copy source path => cases hnone.symm.trans (hsource source rfl)
        | _ => simp [Command.verb] at hverb
    | value =>
        obtain ⟨hverb, hnone⟩ := hlacks
        cases c with
        | add path value | replace path value | test path value =>
            cases hnone.symm.trans (hvalue value rfl)
        | _ => simp [Command.verb] at hverb
  · intro h
    obtain ⟨v, hv, hlacks⟩ := h
    cases hc : o.command with
    | ok c => exact ⟨c, rfl⟩
    | error f =>
        rcases cause_of_command hc with ⟨hnone, -⟩ | ⟨w, field, hw, hfield, -⟩
        · cases hv.symm.trans hnone
        · cases hv.symm.trans hw
          exact absurd hfield (hlacks field)

end Operation

end TreePatch
