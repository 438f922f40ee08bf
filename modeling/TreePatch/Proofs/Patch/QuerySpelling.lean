import TreePatch.Proofs.Patch.Stages

set_option autoImplicit false

/-!
# Pointers spelled as queries

An operation whose pointers are written behind a dollar sign means what it means without
the sign, as long as no piece of them is the bare star. The two forms find the same places
and work on them alike. They differ in one thing: a query looks up the parents of its places
before anything is changed. So the pointer form succeeds wherever the query form does, and
the other way round for all verbs but move, which find these parents anyway
(`Operation.applied_of_spelledAsQuery`). A move may take out an element that stands before the
parent of its target, and finds the parent at its new position only afterwards.
-/

namespace TreePatch

open Text (dollar)
open TreePatch.Path (IsPlainPointer)

/-! ## Commands -/

namespace Command

/-- The same command on other expressions. -/
def respell (source path : Text) : Command → Command
  | .add _ value => .add path value
  | .remove _ => .remove path
  | .replace _ value => .replace path value
  | .move _ _ => .move source path
  | .copy _ _ => .copy source path
  | .test _ value => .test path value

/-- The same command with its pointers written as queries. -/
def asQuery (c : Command) : Command := c.respell (dollar :: c.origin) (dollar :: c.path)

section Respell

variable (source path : Text) (c : Command)

@[simp] theorem verb_respell : (c.respell source path).verb = c.verb := by cases c <;> rfl

@[simp] theorem path_respell : (c.respell source path).path = path := by cases c <;> rfl

@[simp] theorem value?_respell : (c.respell source path).value? = c.value? := by cases c <;> rfl

@[simp] theorem source?_respell :
    (c.respell source path).source? = c.source?.map fun _ => source := by
  cases c <;> rfl

/-- What is done at places does not depend on how they are written. -/
@[simp] theorem runAt_respell (d : Value) (sources places : List Path) :
    (c.respell source path).runAt d sources places = c.runAt d sources places := by
  cases c <;> rfl

theorem origin_asQuery : c.asQuery.origin = dollar :: c.origin := by cases c <;> rfl

theorem path_asQuery : c.asQuery.path = dollar :: c.path := path_respell _ _ c

end Respell

variable {d : Value} {c : Command}

/-- What succeeds on queries without wildcards does the same on pointers. -/
theorem run_of_asQuery (horigin : IsPlainPointer c.origin) (hpath : IsPlainPointer c.path)
    (h : (c.asQuery.run d).fault = none) : c.run d = c.asQuery.run d := by
  obtain ⟨sources, places, hsources, hplaces, hrun⟩ := exists_places_of_run h
  rw [origin_asQuery] at hsources
  rw [path_asQuery] at hplaces
  rw [hrun, asQuery, runAt_respell]
  exact run_of_expandPath (Path.expandPath_of_dollar horigin hsources)
    (Path.expandPath_of_dollar hpath hplaces)

/-- What succeeds on pointers and is not a move does the same on queries without wildcards. -/
theorem asQuery_run (horigin : IsPlainPointer c.origin) (hpath : IsPlainPointer c.path)
    (hverb : c.verb ≠ .move) (h : (c.run d).fault = none) : c.asQuery.run d = c.run d := by
  obtain ⟨sources, places, hsources, hplaces, hrun⟩ := exists_places_of_run h
  obtain ⟨p, hp, rfl⟩ := (Path.expandPath_eq_ok_iff_of_pointer horigin.isQueryText).1 hsources
  obtain ⟨q, hq, rfl⟩ := (Path.expandPath_eq_ok_iff_of_pointer hpath.isQueryText).1 hplaces
  rw [hrun, runAt_singleton hverb] at h
  obtain ⟨w, hw⟩ := Outcome.fault_ofExcept_eq_none.1 h
  obtain ⟨hqparent, hpparent⟩ := exists_parents_of_answerAt hverb hw
  have hplaces' : Path.expandPath d c.asQuery.path = .ok [q] := by
    rw [path_asQuery]
    exact (Path.expandPath_dollar_iff hpath).2 ⟨q, hq, rfl, hqparent⟩
  have hsources' : Path.expandPath d c.asQuery.origin = .ok [p] := by
    rw [origin_asQuery]
    refine (Path.expandPath_dollar_iff horigin).2 ⟨p, hp, rfl, ?_⟩
    cases hsource : c.source? with
    | some source => exact hpparent (by simp [hsource])
    | none =>
        -- The origin is the path, whose parent was found.
        rw [origin_of_source?_eq_none hsource] at hp
        obtain rfl : q = p := Except.ok.inj (hq.symm.trans hp)
        exact hqparent
  rw [hrun, run_of_expandPath hsources' hplaces', asQuery, runAt_respell]

end Command

/-! ## Operations -/

namespace Operation

variable {o o' : Operation} {c c' : Command}

/-- The other operation is the one with its pointers written as queries, and these have no
wildcards. The source is one of the pointers where the verb uses it. -/
structure SpelledAsQuery (o o' : Operation) : Prop where
  op : o'.op = o.op
  value : o'.value = o.value
  path : ∃ t, IsPlainPointer t ∧ o.path = some t ∧ o'.path = some (dollar :: t)
  source : o.verb? = some .move ∨ o.verb? = some .copy →
    ∃ f, IsPlainPointer f ∧ o.source = some f ∧ o'.source = some (dollar :: f)

/-- An operation with the verb and the value of another stands for the same command on its own
expressions. -/
theorem command_respell {source path : Text} (hop : o'.op = o.op) (hvalue : o'.value = o.value)
    (hpath : o'.path = some path)
    (hsource : o.verb? = some .move ∨ o.verb? = some .copy → o'.source = some source)
    (hc : o.command = .ok c) : o'.command = .ok (c.respell source path) := by
  obtain ⟨hverb, -, -, hcvalue⟩ := command_eq_ok_iff.1 hc
  have hverb' : o'.verb? = o.verb? := by rw [verb?, verb?, hop]
  refine command_eq_ok_iff.2 ⟨?_, ?_, ?_, ?_⟩
  · rw [Command.verb_respell, hverb', hverb]
  · rw [Command.path_respell, hpath]
  · rw [Command.source?_respell]
    rcases origin_of_command hc with ⟨htakes, -⟩ | ⟨-, hnone⟩
    · intro s hs
      obtain ⟨-, -, rfl⟩ := Option.map_eq_some_iff.1 hs
      exact hsource htakes
    · simp [hnone]
  · rw [Command.value?_respell, hvalue]
    exact hcvalue

namespace SpelledAsQuery

variable (h : o.SpelledAsQuery o')
include h

/-- The path of the command has no wildcard, and the query form has it as a query. -/
theorem plain_path (hc : o.command = .ok c) :
    IsPlainPointer c.path ∧ o'.path = some (dollar :: c.path) := by
  obtain ⟨-, hcpath, -, -⟩ := command_eq_ok_iff.1 hc
  obtain ⟨t, ht, hpath, hpath'⟩ := h.path
  obtain rfl : t = c.path := Option.some.inj (hpath.symm.trans hcpath)
  exact ⟨ht, hpath'⟩

/-- So it is with the origin, where the verb has a source. -/
theorem plain_origin (hc : o.command = .ok c) : IsPlainPointer c.origin ∧
    (o.verb? = some .move ∨ o.verb? = some .copy → o'.source = some (dollar :: c.origin)) := by
  rcases origin_of_command hc with ⟨htakes, hcsource⟩ | ⟨htakes, hnone⟩
  · obtain ⟨f, hf, hsource, hsource'⟩ := h.source htakes
    obtain rfl : f = c.origin := Option.some.inj (hsource.symm.trans hcsource)
    exact ⟨hf, fun _ => hsource'⟩
  · rw [Command.origin_of_source?_eq_none hnone]
    exact ⟨(h.plain_path hc).1, fun h => absurd h htakes⟩

theorem command (hc : o.command = .ok c) : o'.command = .ok c.asQuery :=
  command_respell h.op h.value (h.plain_path hc).2 (h.plain_origin hc).2 hc

/-- If the query form stands for a command, so does the pointer form. -/
theorem exists_command (hc : o'.command = .ok c') : ∃ c, o.command = .ok c ∧ c' = c.asQuery := by
  obtain ⟨t, -, hpath, -⟩ := h.path
  obtain ⟨f, hf⟩ : ∃ f, o.verb? = some .move ∨ o.verb? = some .copy → o.source = some f := by
    by_cases htakes : o.verb? = some .move ∨ o.verb? = some .copy
    · obtain ⟨f, -, hsource, -⟩ := h.source htakes
      exact ⟨f, fun _ => hsource⟩
    · exact ⟨[], fun h => absurd h htakes⟩
  have hverb : o'.verb? = o.verb? := by rw [verb?, verb?, h.op]
  have hcommand : o.command = .ok (c'.respell f t) :=
    command_respell h.op.symm h.value.symm hpath (hverb ▸ hf) hc
  exact ⟨_, hcommand, Except.ok.inj (hc.symm.trans (h.command hcommand))⟩

end SpelledAsQuery

/-- Where the query form of an operation on pointers succeeds, the pointer form succeeds with
the same document. Unless the operation is a move, the converse holds, too. -/
theorem applied_of_spelledAsQuery (h : o.SpelledAsQuery o') (d d' : Value) :
    (o'.applied d = .ok d' → o.applied d = .ok d') ∧
      (o.verb? ≠ some .move → o.applied d = .ok d' → o'.applied d = .ok d') := by
  simp only [applied_eq_ok_iff]
  refine ⟨fun hquery => ?_, fun hverb hpointer => ?_⟩
  · obtain ⟨c', hc', hrun⟩ := hquery
    obtain ⟨c, hc, rfl⟩ := h.exists_command hc'
    have hsame := Command.run_of_asQuery (h.plain_origin hc).1 (h.plain_path hc).1 (by rw [hrun])
    exact ⟨c, hc, hsame.trans hrun⟩
  · obtain ⟨c, hc, hrun⟩ := hpointer
    have hmove : c.verb ≠ .move := by
      intro hmove
      exact hverb (hmove ▸ (command_eq_ok_iff.1 hc).1)
    have hsame :=
      Command.asQuery_run (h.plain_origin hc).1 (h.plain_path hc).1 hmove (by rw [hrun])
    exact ⟨_, h.command hc, hsame.trans hrun⟩

/-- The names `0` and `-` of an object, as the source and the target of a copy. -/
theorem applied_of_spelledAsQuery_copy :
    let d : Value := .object [(utf8 "a", .object [(utf8 "0", .null)])]
    let d' : Value := .object [(utf8 "a", .object [(utf8 "0", .null), (utf8 "-", .null)])]
    let o : Operation := .copy (utf8 "/a/0") (utf8 "/a/-")
    let o' : Operation := .copy (utf8 "$/a/0") (utf8 "$/a/-")
    o.SpelledAsQuery o' ∧ o.applied d = .ok d' ∧ o'.applied d = .ok d' := by
  intro d d' o o'
  have hplain : ∀ rest, utf8 "*" ∉ rest.splitOn Text.slash → IsPlainPointer (Text.slash :: rest) :=
    fun rest h => .inr ⟨rest, rfl, h⟩
  have h : o.SpelledAsQuery o' := by
    refine ⟨rfl, rfl, ⟨_, hplain _ ?_, rfl, rfl⟩, fun _ => ⟨_, hplain _ ?_, rfl, rfl⟩⟩
    · decide
    · decide
  have hquery : o'.applied d = .ok d' := by decide +kernel
  have hpointer : o.applied d = .ok d' := (applied_of_spelledAsQuery h d d').1 hquery
  exact ⟨h, hpointer, (applied_of_spelledAsQuery h d d').2 (by decide) hpointer⟩

/-- Taking out the first element brings the object to the position 1, where the pointer form
inserts. The query form looks for the object there before, and finds a truth value. -/
example :
    let d : Value := .array [.null, .bool true, .object [(utf8 "k", .object [])]]
    ((move (utf8 "/0") (utf8 "/1/k/x")).apply d).fault = none ∧
      ((move (utf8 "$/0") (utf8 "$/1/k/x")).apply d).fault ≠ none := by
  decide +kernel

end Operation

end TreePatch
