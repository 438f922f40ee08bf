import TreePatch.Proofs.Patch.Stages

set_option autoImplicit false

/-!
# Which fault an operation ends in

An operation is checked before it is run, its expressions are expanded before anything is done, and
each of these stages has its own kinds of fault. `Operation.fault_apply_order` says which stage
decides, and which kinds are possible for which verb.

* `Path.kind_of_expandPath`: the kinds of an expansion, of which a pointer has but one.
* `Command.kind_of_runAt`: the kinds of the work at the places of a command, by its verb.
* `Command.FailsWith`: the first stage of a command that fails, with its fault. A run ends in a
  fault exactly if one does (`Command.fault_run_eq_some_iff`).
* `Operation.kind_of_command`, `Operation.fault_apply_iff_of_command`: an operation is refused for
  what it lacks, or fails as its command does.
-/

namespace TreePatch

/-! ## The kinds of each stage -/

/-- The kinds of fault in which the expansion of an expression can end. -/
def expansionKinds : List Fault.Kind := [.invalidPath, .targetNotFound, .invalidPathSegment]

/-- The kinds of fault in which the work at the places of a command can end. Only an insertion goes
by positions, and only it passes on why its parent is not there. -/
def Verb.faultKinds : Verb → List Fault.Kind
  | .remove | .replace => [.invalidPath, .targetNotFound]
  | .test => [.targetNotFound, .testFailed]
  | .add | .move | .copy => expansionKinds ++ [.indexOutOfBounds, .invalidIndex]

theorem Misstep.kind_mem (m : Misstep) : m.kind ∈ expansionKinds := by
  cases m <;> simp [kind, expansionKinds]

namespace Path

variable {d : Value} {t : Text} {f : Fault}

/-- A pointer is not expanded only if it cannot be read. -/
theorem kind_of_expandPath_pointer (hpointer : isQueryText t = false)
    (h : expandPath d t = .error f) : f.kind = .invalidPath := by
  rw [expandPath, if_neg (by simp [hpointer]), Result.map_eq_error_iff] at h
  exact (kind_and_path_of_mapError_unreadable h).1

/-- A query is not expanded if it cannot be read or has a dead end. -/
theorem kind_of_expandPath (h : expandPath d t = .error f) : f.kind ∈ expansionKinds := by
  cases hquery : isQueryText t with
  | false =>
      rw [kind_of_expandPath_pointer hquery h]
      decide
  | true =>
      rw [expandPath, if_pos hquery] at h
      cases hq : parseQuery t with
      | error e =>
          rw [hq] at h
          cases h
          rw [(kind_and_path_of_mapError_unreadable hq).1]
          decide
      | ok q =>
          rw [hq] at h
          change q.queryPaths d = .error f at h
          rw [queryPaths] at h
          cases hx : expand q.segments d with
          | error e =>
              rw [hx] at h
              cases h
              exact e.misstep.kind_mem
          | ok places =>
              rw [hx] at h
              cases h

end Path

namespace Command

variable {d value : Value} {p : Path} {places sources : List Path} {c : Command} {f : Fault}

theorem kind_of_add (h : d.add p value = .error f) : f.kind ∈ Verb.add.faultKinds := by
  rw [Fault.kind]
  rcases Value.cause_of_add h with ⟨m, hc⟩ | ⟨n, size, hc⟩ | ⟨name, hc⟩ | ⟨found, hc⟩
  · rw [hc]
    exact List.mem_append_left _ m.kind_mem
  · rw [hc]
    show Fault.Kind.indexOutOfBounds ∈ _
    decide
  · rw [hc]
    show Fault.Kind.invalidIndex ∈ _
    decide
  · rw [hc]
    show Fault.Kind.targetNotFound ∈ _
    decide

theorem kind_of_remove (h : d.remove p = .error f) : f.kind ∈ Verb.remove.faultKinds := by
  rw [Fault.kind]
  rcases Value.cause_of_remove h with hc | hc | ⟨m, hc⟩
  · rw [hc]
    decide
  · rw [hc]
    decide
  · rw [hc]
    show Fault.Kind.targetNotFound ∈ _
    decide

theorem kind_of_replace (h : d.replace p value = .error f) :
    f.kind ∈ Verb.replace.faultKinds := by
  rw [Fault.kind]
  rcases Value.cause_of_replace h with hc | ⟨m, hc⟩
  · rw [hc]
    decide
  · rw [hc]
    show Fault.Kind.targetNotFound ∈ _
    decide

theorem kind_of_check (h : check value d p = .error f) : f.kind ∈ Verb.test.faultKinds := by
  rw [check] at h
  cases hactual : d.follow p.segments with
  | error m =>
      rw [hactual] at h
      cases h
      show Fault.Kind.targetNotFound ∈ _
      decide
  | ok actual =>
      simp only [hactual] at h
      split at h
      · cases h
      · cases h
        show Fault.Kind.testFailed ∈ _
        decide

theorem kind_of_fetch (h : fetch d p = .error f) : f.kind = .targetNotFound := by
  obtain ⟨m, -, rfl⟩ := Result.mapError_eq_error_iff.1 h
  rfl

theorem kind_of_addAll (h : (addAll value places d).fault = some f) :
    f.kind ∈ Verb.add.faultKinds := by
  obtain ⟨w, q, -, hq⟩ := Outcome.exists_of_fault_forEach h
  exact kind_of_add (Outcome.fault_ofExcept.1 hq)

theorem kind_of_copyTo (h : (copyTo places d p).fault = some f) :
    f.kind ∈ Verb.copy.faultKinds := by
  rw [copyTo] at h
  cases hfetch : fetch d p with
  | error e =>
      rw [hfetch] at h
      cases h
      rw [kind_of_fetch hfetch]
      decide
  | ok x =>
      rw [hfetch] at h
      exact kind_of_addAll h

theorem kind_of_moveTo (h : (moveTo places d p).fault = some f) :
    f.kind ∈ Verb.move.faultKinds := by
  rw [moveTo] at h
  cases hfetch : fetch d p with
  | error e =>
      rw [hfetch] at h
      cases h
      rw [kind_of_fetch hfetch]
      decide
  | ok x =>
      rw [hfetch] at h
      cases hbelow : places.find? (isBelow p) with
      | some q =>
          simp only [hbelow] at h
          cases h
          exact List.mem_cons_self
      | none =>
          simp only [hbelow] at h
          cases hremove : d.remove p with
          | error e =>
              rw [hremove] at h
              cases h
              -- A removal has fewer kinds than an insertion.
              have hsub : Verb.remove.faultKinds ⊆ Verb.move.faultKinds := by decide
              exact hsub (kind_of_remove hremove)
          | ok w =>
              rw [hremove] at h
              exact kind_of_addAll h

/-- The work at the places of a command ends in a fault of its verb, if in any. -/
theorem kind_of_runAt (h : (c.runAt d sources places).fault = some f) :
    f.kind ∈ c.verb.faultKinds := by
  cases c with
  | add path value => exact kind_of_addAll h
  | remove path =>
      obtain ⟨w, q, -, hq⟩ := Outcome.exists_of_fault_forEach h
      exact kind_of_remove (Outcome.fault_ofExcept.1 hq)
  | replace path value =>
      obtain ⟨w, q, -, hq⟩ := Outcome.exists_of_fault_forEach h
      exact kind_of_replace (Outcome.fault_ofExcept.1 hq)
  | move source path =>
      obtain ⟨w, q, -, hq⟩ := Outcome.exists_of_fault_forEach h
      exact kind_of_moveTo hq
  | copy source path =>
      obtain ⟨w, q, -, hq⟩ := Outcome.exists_of_fault_forEach h
      exact kind_of_copyTo hq
  | test path expected =>
      obtain ⟨w, q, -, hq⟩ := Outcome.exists_of_fault_forEach h
      exact kind_of_check (Result.map_eq_error_iff.1 (Outcome.fault_ofExcept.1 hq))

/-! ## The order of the stages -/

/-- The fault in which a command ends: that of the expansion of its source, if it has one that
cannot be expanded, else that of the expansion of its path, else that of the work at the places. -/
inductive FailsWith (c : Command) (d : Value) (f : Fault) : Prop
  /-- The source cannot be expanded. -/
  | source {text : Text} (hsource : c.source? = some text) (h : Path.expandPath d text = .error f)
  /-- The path cannot be expanded, but the source can. -/
  | path (hsource : ∀ text ∈ c.source?, ∃ sources, Path.expandPath d text = .ok sources)
      (h : Path.expandPath d c.path = .error f)
  /-- Both can be expanded, and the work at the places fails. -/
  | work {sources places : List Path} (hsources : Path.expandPath d c.origin = .ok sources)
      (hplaces : Path.expandPath d c.path = .ok places)
      (h : (c.runAt d sources places).fault = some f)

theorem fault_withPlaces_of_error {text : Text} {next : List Path → Outcome} {e : Fault}
    (h : Path.expandPath d text = .error e) : (withPlaces d text next).fault = some e := by
  rw [withPlaces, h]
  rfl

theorem fault_run_eq_some_iff : (c.run d).fault = some f ↔ c.FailsWith d f := by
  rw [run_eq_withPlaces]
  constructor
  · intro h
    cases horigin : Path.expandPath d c.origin with
    | error e =>
        obtain rfl : e = f := by
          rw [fault_withPlaces_of_error horigin] at h
          exact Option.some.inj h
        cases hsource : c.source? with
        | some text =>
            refine .source hsource ?_
            rw [origin, hsource] at horigin
            exact horigin
        | none =>
            rw [origin_of_source?_eq_none hsource] at horigin
            exact .path (by simp [hsource]) horigin
    | ok sources =>
        rw [withPlaces_of_ok horigin] at h
        cases hplaces : Path.expandPath d c.path with
        | error e =>
            obtain rfl : e = f := by
              rw [fault_withPlaces_of_error hplaces] at h
              exact Option.some.inj h
            refine .path (fun text htext => ⟨sources, ?_⟩) hplaces
            rw [origin, htext] at horigin
            exact horigin
        | ok places =>
            rw [withPlaces_of_ok hplaces] at h
            exact .work horigin hplaces h
  · intro h
    cases h with
    | @source text hsource h =>
        have horigin : c.origin = text := by rw [origin, hsource, Option.getD_some]
        exact fault_withPlaces_of_error (horigin ▸ h)
    | path hsources h =>
        cases hsource : c.source? with
        | none =>
            exact fault_withPlaces_of_error (origin_of_source?_eq_none hsource ▸ h)
        | some text =>
            obtain ⟨sources, htext⟩ := hsources text hsource
            have horigin : c.origin = text := by rw [origin, hsource, Option.getD_some]
            rw [withPlaces_of_ok (horigin ▸ htext)]
            exact fault_withPlaces_of_error h
    | work hsources hplaces h =>
        rw [withPlaces_of_ok hsources, withPlaces_of_ok hplaces]
        exact h

/-- The kind of the fault of a command is one of an expansion or one of its verb. -/
theorem FailsWith.kind_mem (h : c.FailsWith d f) :
    f.kind ∈ expansionKinds ++ c.verb.faultKinds := by
  cases h with
  | source _ h => exact List.mem_append_left _ (Path.kind_of_expandPath h)
  | path _ h => exact List.mem_append_left _ (Path.kind_of_expandPath h)
  | work _ _ h => exact List.mem_append_right _ (kind_of_runAt h)

/-- A command on a pointer that takes no value from elsewhere fails in reading the pointer or in a
fault of its verb. -/
theorem FailsWith.kind_of_pointer (h : c.FailsWith d f) (hsource : c.source? = none)
    (hpath : Path.isQueryText c.path = false) :
    f.kind = .invalidPath ∨ f.kind ∈ c.verb.faultKinds := by
  cases h with
  | source htext _ => cases hsource.symm.trans htext
  | path _ h => exact .inl (Path.kind_of_expandPath_pointer hpath h)
  | work _ _ h => exact .inr (kind_of_runAt h)

end Command

/-! ## Operations -/

namespace Operation

variable {d : Value} {o : Operation} {c : Command} {f : Fault}

/-- An operation has no verb exactly if its word names none. -/
theorem verb?_eq_none_iff : o.verb? = none ↔ ∀ v : Verb, o.op ≠ v.name := by
  simp only [Option.eq_none_iff_forall_ne_some, ne_eq, verb?, Verb.ofText?_eq_some_iff]

/-- An operation that cannot be run is refused. -/
theorem fault_apply_of_command_error {e : Fault} (h : o.command = .error e) :
    (o.apply d).fault = some (e.under o.op) :=
  fault_apply_eq_some_iff.2 ⟨e, rfl, .inl h⟩

/-- An operation that can be run fails as its command does. -/
theorem fault_apply_iff_of_command (h : o.command = .ok c) :
    (o.apply d).fault = some f ↔ ∃ e, c.FailsWith d e ∧ f = e.under o.op := by
  rw [fault_apply_eq_some_iff]
  simp only [h, reduceCtorEq, false_or, Except.ok.injEq, exists_eq_left',
    Command.fault_run_eq_some_iff, and_comm]

/-- The kind of a refusal tells what was refused. -/
theorem kind_of_command (h : o.command = .error f) :
    (o.verb? = none ∧ f.kind = .unsupportedOperation) ∨
      ∃ v field, o.verb? = some v ∧ o.Lacks v field ∧ f.kind = .missingRequiredField := by
  rw [Fault.kind]
  rcases cause_of_command h with ⟨hnone, hcause⟩ | ⟨v, field, hv, hlacks, hcause⟩
  · exact .inl ⟨hnone, by rw [hcause]; rfl⟩
  · exact .inr ⟨v, field, hv, hlacks, by rw [hcause]; rfl⟩

/-- The kind of a fault tells whether the operation could be run. -/
theorem kind_of_apply (h : (o.apply d).fault = some f) :
    (o.verb? = none ∧ f.kind = .unsupportedOperation) ∨
    (∃ v field, o.verb? = some v ∧ o.Lacks v field ∧ f.kind = .missingRequiredField) ∨
    ∃ c, o.command = .ok c ∧ f.kind ∈ expansionKinds ++ c.verb.faultKinds := by
  obtain ⟨e, rfl, he | ⟨c, hc, he⟩⟩ := fault_apply_eq_some_iff.1 h
  · show (_ ∧ e.kind = _) ∨ (∃ v field, _ ∧ _ ∧ e.kind = _) ∨ _
    rcases kind_of_command he with hunsupported | hmissing
    · exact .inl hunsupported
    · exact .inr (.inl hmissing)
  · exact .inr (.inr ⟨c, hc, (Command.fault_run_eq_some_iff.1 he).kind_mem⟩)

/-- The run of a command has none of the kinds of the checks before it, and some of its kinds only
for some verbs. -/
theorem kind_ne_of_mem {v : Verb} {k : Fault.Kind} (h : k ∈ expansionKinds ++ v.faultKinds) :
    k ≠ .unsupportedOperation ∧ k ≠ .missingRequiredField ∧ k ≠ .invalidPatch ∧
      (k = .testFailed → v = .test) ∧
      (k = .indexOutOfBounds ∨ k = .invalidIndex → v = .add ∨ v = .move ∨ v = .copy) := by
  cases v <;> cases k <;> revert h <;> decide

/-- An operation is unsupported exactly if its word is no verb. -/
theorem fault_unsupported_iff :
    (∃ f, (o.apply d).fault = some f ∧ f.kind = .unsupportedOperation) ↔
      ∀ v : Verb, o.op ≠ v.name := by
  rw [← verb?_eq_none_iff]
  constructor
  · intro h
    obtain ⟨f, hf, hkind⟩ := h
    rcases kind_of_apply hf with ⟨hnone, -⟩ | ⟨v, field, -, -, hmissing⟩ | ⟨c, -, hmem⟩
    · exact hnone
    · cases hkind.symm.trans hmissing
    · exact absurd hkind (kind_ne_of_mem hmem).1
  · intro hnone
    cases hc : o.command with
    | ok c => cases hnone.symm.trans (command_eq_ok_iff.1 hc).1
    | error e =>
        rcases kind_of_command hc with ⟨-, hkind⟩ | ⟨v, field, hv, -, -⟩
        · exact ⟨_, fault_apply_of_command_error hc, hkind⟩
        · cases hnone.symm.trans hv

/-- A member is missing exactly if the word is a verb that needs one the operation lacks. -/
theorem fault_missing_iff :
    (∃ f, (o.apply d).fault = some f ∧ f.kind = .missingRequiredField) ↔
      ∃ v field, o.op = Verb.name v ∧ o.Lacks v field := by
  simp only [← Verb.ofText?_eq_some_iff]
  constructor
  · intro h
    obtain ⟨f, hf, hkind⟩ := h
    rcases kind_of_apply hf with ⟨-, hunsupported⟩ | ⟨v, field, hv, hlacks, -⟩ | ⟨c, -, hmem⟩
    · cases hkind.symm.trans hunsupported
    · exact ⟨v, field, hv, hlacks⟩
    · exact absurd hkind (kind_ne_of_mem hmem).2.1
  · intro h
    obtain ⟨v, field, hv, hlacks⟩ := h
    cases hc : o.command with
    | ok c =>
        obtain ⟨w, hw, hall⟩ := exists_command_iff.1 ⟨c, hc⟩
        cases hv.symm.trans hw
        exact absurd hlacks (hall field)
    | error e =>
        rcases kind_of_command hc with ⟨hnone, -⟩ | ⟨w, missing, -, -, hkind⟩
        · cases hnone.symm.trans hv
        · exact ⟨_, fault_apply_of_command_error hc, hkind⟩

/-- The kind of a fault tells which verb it may have come from. -/
theorem word_of_fault (h : (o.apply d).fault = some f) :
    f.kind ≠ .invalidPatch ∧ (f.kind = .testFailed → o.op = Verb.test.name) ∧
      (f.kind = .indexOutOfBounds ∨ f.kind = .invalidIndex →
        o.op = Verb.add.name ∨ o.op = Verb.move.name ∨ o.op = Verb.copy.name) := by
  rcases kind_of_apply h with ⟨-, hk⟩ | ⟨v, field, -, -, hk⟩ | ⟨c, hc, hmem⟩
  · simp [hk]
  · simp [hk]
  · obtain ⟨-, -, hpatch, htest, hindex⟩ := kind_ne_of_mem hmem
    have hword : o.op = c.verb.name := Verb.ofText?_eq_some_iff.1 (command_eq_ok_iff.1 hc).1
    refine ⟨hpatch, fun hk => ?_, fun hk => ?_⟩
    · rw [hword, htest hk]
    · rcases hindex hk with hv | hv | hv
      · exact .inl (by rw [hword, hv])
      · exact .inr (.inl (by rw [hword, hv]))
      · exact .inr (.inr (by rw [hword, hv]))

/-- The kinds in which a removal, an overwriting or a comparison at a pointer can fail. -/
theorem kind_of_pointer (h : (o.apply d).fault = some f) (hc : o.command = .ok c)
    (hpath : Path.isQueryText c.path = false) :
    (c.verb = .remove ∨ c.verb = .replace → f.kind = .invalidPath ∨ f.kind = .targetNotFound) ∧
    (c.verb = .test →
      f.kind = .invalidPath ∨ f.kind = .targetNotFound ∨ f.kind = .testFailed) := by
  obtain ⟨e, he, rfl⟩ := (fault_apply_iff_of_command hc).1 h
  have hkind : c.source? = none → e.kind = .invalidPath ∨ e.kind ∈ c.verb.faultKinds :=
    fun hsource => he.kind_of_pointer hsource hpath
  show (_ → e.kind = _ ∨ e.kind = _) ∧ (_ → e.kind = _ ∨ e.kind = _ ∨ e.kind = _)
  cases c with
  | remove path | replace path value | test path expected =>
      simpa [Command.verb, Command.source?, Verb.faultKinds] using hkind
  | add path value => simp [Command.verb]
  | move source path | copy source path => simp [Command.verb]

/-- An operation that fails is refused for its word, then for a member that it lacks. Otherwise its
command fails in the expansion of its source, then of its path, then at the places. The fault is
told under the operation's word, and its kind tells which verb it may have come from. -/
theorem fault_apply_order (d : Value) (o : Operation) :
    ((∃ f, (o.apply d).fault = some f ∧ f.kind = .unsupportedOperation) ↔
      ∀ v : Verb, o.op ≠ v.name) ∧
    ((∃ f, (o.apply d).fault = some f ∧ f.kind = .missingRequiredField) ↔
      ∃ v field, o.op = Verb.name v ∧ o.Lacks v field) ∧
    (∀ v : Verb, o.op = v.name → (∀ field, ¬ o.Lacks v field) →
      ∃ c, o.command = .ok c ∧ c.verb = v ∧
        ∀ f, (o.apply d).fault = some f ↔ ∃ e, c.FailsWith d e ∧ f = e.under o.op) ∧
    ∀ f, (o.apply d).fault = some f →
      f.op = o.op ∧ f.kind ≠ .invalidPatch ∧
      (f.kind = .testFailed → o.op = Verb.test.name) ∧
      (f.kind = .indexOutOfBounds ∨ f.kind = .invalidIndex →
        o.op = Verb.add.name ∨ o.op = Verb.move.name ∨ o.op = Verb.copy.name) ∧
      ∀ c, o.command = .ok c → Path.isQueryText c.path = false →
        (c.verb = .remove ∨ c.verb = .replace →
          f.kind = .invalidPath ∨ f.kind = .targetNotFound) ∧
        (c.verb = .test →
          f.kind = .invalidPath ∨ f.kind = .targetNotFound ∨ f.kind = .testFailed) := by
  refine ⟨fault_unsupported_iff, fault_missing_iff, fun v hv hlacks => ?_, fun f hf => ?_⟩
  · have hverb : o.verb? = some v := Verb.ofText?_eq_some_iff.2 hv
    obtain ⟨c, hc⟩ := exists_command_iff.2 ⟨v, hverb, hlacks⟩
    refine ⟨c, hc, ?_, fun f => fault_apply_iff_of_command hc⟩
    exact Option.some.inj ((command_eq_ok_iff.1 hc).1.symm.trans hverb)
  · obtain ⟨hpatch, htest, hindex⟩ := word_of_fault hf
    exact ⟨op_of_apply hf, hpatch, htest, hindex, fun c hc hpath => kind_of_pointer hf hc hpath⟩

/-- A move whose source has a dead end and whose path cannot be read fails in its source. A removal
at a pointer that leads nowhere finds nothing, and a word that is no verb is refused before anything
else that the operation lacks. -/
theorem fault_apply_order_stages :
    let d : Value := .object [(utf8 "a", .bool true)]
    let moved : Operation := .move (utf8 "$/a/b/c") (utf8 "bad")
    let removed : Operation := .remove (utf8 "/a/b")
    let merged : Operation := { op := utf8 "merge" }
    let deadEnd : Cause := .deadEnd (.notAnObject (utf8 "b") .boolean)
    (∃ c e, moved.command = .ok c ∧ c.verb = .move ∧ c.FailsWith d e ∧ e.cause = deadEnd) ∧
      (∃ f, (removed.apply d).fault = some f ∧ f.op = Verb.remove.name ∧
        (f.kind = .invalidPath ∨ f.kind = .targetNotFound)) ∧
      ∃ f, (merged.apply d).fault = some f ∧ f.kind = .unsupportedOperation := by
  intro d moved removed merged deadEnd
  refine ⟨?_, ?_, ?_⟩
  · have hlacks : ∀ field, ¬ moved.Lacks .move field := by
      intro field
      cases field <;> simp [Lacks, moved, move]
    obtain ⟨c, hc, hverb, hfault⟩ := (fault_apply_order d moved).2.2.1 .move rfl hlacks
    have hrun : (moved.apply d).fault = some ⟨deadEnd, utf8 "/a/b", moved.op⟩ := by
      decide +kernel
    obtain ⟨e, he, hunder⟩ := (hfault _).1 hrun
    exact ⟨c, e, hc, hverb, he, (congrArg Fault.cause hunder).symm⟩
  · have hrun : (removed.apply d).fault.isSome = true := by decide +kernel
    obtain ⟨f, hf⟩ := Option.isSome_iff_exists.1 hrun
    obtain ⟨hop, -, -, -, hkinds⟩ := (fault_apply_order d removed).2.2.2 f hf
    have hpointer : Path.isQueryText (utf8 "/a/b") = false := by decide
    exact ⟨f, hf, hop, (hkinds (.remove (utf8 "/a/b")) (by decide) hpointer).1 (.inl rfl)⟩
  · have hword : ∀ v : Verb, merged.op ≠ v.name := by
      intro v
      cases v <;> decide
    exact (fault_apply_order d merged).1.2 hword

end Operation

end TreePatch
