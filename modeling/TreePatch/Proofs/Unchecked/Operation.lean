import TreePatch.Proofs.Patch.Stages
import TreePatch.Proofs.Unchecked.Comparison
import TreePatch.Proofs.Unchecked.Edit

set_option autoImplicit false

/-!
# Operations by accessors that trust their callers

An operation need not have the members that its verb asks for. It is looked through once, and what
runs it afterwards takes each member without another look: an absent one is `none`, and so is the
run that takes it. Nothing is made into a command first, so the members that are looked for and
those that are taken are two lists that have to fit.

* `work_eq`: the members that a verb works with are those of the command.
* `dispatch_eq`, `apply_eq`, `applyAll_eq`: operations and patches always have an outcome, that of
  `Operation.apply` and `Patch.apply`.
* `staysInDomain`: no accessor is used outside its domain, whatever is done to a document.
-/

namespace TreePatch.Unchecked

/-! ## Loops -/

/-- Run a step for every item in order, up to the first that fails. -/
def forEach {α : Type} (step : Value → α → Option Outcome) : Value → List α → Option Outcome
  | d, [] => some ⟨d, none⟩
  | d, a :: rest =>
      (step d a).bind fun o =>
        match o.fault with
        | none => forEach step o.document rest
        | some _ => some o

/-- A loop has an outcome if each of its steps has one. -/
theorem forEach_eq {α : Type} {trusting : Value → α → Option Outcome} {step : Value → α → Outcome}
    (h : ∀ d a, trusting d a = some (step d a)) (d : Value) (as : List α) :
    forEach trusting d as = some (Outcome.forEach step d as) := by
  induction as generalizing d with
  | nil => rfl
  | cons a as ih =>
      rw [forEach, h, Outcome.forEach]
      rcases step d a with ⟨w, _ | fault⟩
      · exact ih w
      · rfl

/-! ## The work at places -/

/-- Edit every place. -/
def editAll (edit : Value → Path → Option (Except Fault Value)) (places : List Path) (d : Value) :
    Option Outcome :=
  forEach (fun d p => (edit d p).map (.ofExcept d)) d places

/-- Insert a value at every place. -/
def addAll (value : Value) : List Path → Value → Option Outcome :=
  editAll fun d p => add d p value

/-- Compare the value at a place with the expected one. The document stays as it is. -/
def check (expected : Value) (d : Value) (p : Path) : Option (Except Fault Value) :=
  (walk d p p.size).bind fun
    | .error m => some (.error (p.fault (.nothing .test m)))
    | .ok actual =>
        (equals actual expected).map fun same =>
          if same then .ok d else .error (p.fault .differs)

/-- Insert the value of a source at every place, after taking it out if that is asked for. -/
def transfer (takesOut : Bool) (places : List Path) (d : Value) (source : Path) : Option Outcome :=
  (walk d source source.size).bind fun
    | .error m => some (.failed d (source.fault (.nothing .source m)))
    | .ok value =>
        if takesOut then
          match places.find? (Command.isBelow source) with
          | some target => some (.failed d (target.fault .intoItself))
          | none =>
              (remove d source).bind fun
                | .error fault => some (.failed d fault)
                | .ok d' => addAll value places d'
        else addAll value places d

theorem editAll_eq {trusting : Value → Path → Option (Except Fault Value)}
    {edit : Value → Path → Except Fault Value} (h : ∀ d p, trusting d p = some (edit d p))
    (places : List Path) (d : Value) : editAll trusting places d =
      some (Outcome.forEach (fun d p => .ofExcept d (edit d p)) d places) :=
  forEach_eq (fun d p => by rw [h, Option.map_some]) d places

theorem addAll_eq (value : Value) (places : List Path) (d : Value) :
    addAll value places d = some (Command.addAll value places d) :=
  editAll_eq (fun d p => add_eq d p value) places d

theorem check_eq (expected d : Value) (p : Path) :
    check expected d p = some ((Command.check expected d p).map fun _ => d) := by
  rw [check, walk_size, Command.check]
  cases d.follow p.segments with
  | error m => rfl
  | ok actual =>
      simp only [Option.bind_some, equals_eq, Option.map_some]
      cases actual.equals expected <;> rfl

theorem transfer_copy_eq (places : List Path) (d : Value) (source : Path) :
    transfer false places d source = some (Command.copyTo places d source) := by
  rw [transfer, walk_size, Command.copyTo, Command.fetch]
  cases d.follow source.segments with
  | error m => rfl
  | ok value => exact addAll_eq value places d

theorem transfer_move_eq (places : List Path) (d : Value) (source : Path) :
    transfer true places d source = some (Command.moveTo places d source) := by
  rw [transfer, walk_size, Command.moveTo]
  cases hvalue : d.follow source.segments with
  | error m =>
      rw [Command.fetch, hvalue]
      rfl
  | ok value =>
      have hfetch : Command.fetch d source = .ok value :=
        Command.fetch_eq_ok_iff.2 (Value.get_eq_ok_iff.2 hvalue)
      simp only [Option.bind_some, if_true, hfetch]
      cases places.find? (Command.isBelow source) with
      | some target => rfl
      | none =>
          simp only [remove_eq]
          cases d.remove source with
          | error fault => rfl
          | ok d' => exact addAll_eq value places d'

/-! ## Operations -/

/-- Does the verb work with a value? -/
def needsValue : Verb → Bool
  | .add | .replace | .test => true
  | _ => false

/-- Does the verb work with a source? -/
def needsSource : Verb → Bool
  | .move | .copy => true
  | _ => false

/-- The first member that the verb needs and the operation lacks. -/
def missing? (o : Operation) (verb : Verb) : Option Field :=
  if o.path.isNone then some .path
  else if needsValue verb && o.value.isNone then some .value
  else if needsSource verb && o.source.isNone then some .source
  else none

/-- The places from which the verb takes values, none if it takes none. -/
def sources (d : Value) (o : Operation) (verb : Verb) : Option (Except Fault (List Path)) :=
  if needsSource verb then o.source.map (Path.expandPath d) else some (.ok [])

/-- Work at places with the members that the verb asks for. -/
def work (d : Value) (o : Operation) (sources places : List Path) : Verb → Option Outcome
  | .add => o.value.bind fun value => addAll value places d
  | .remove => editAll remove places d
  | .replace => o.value.bind fun value => editAll (fun d p => replace d p value) places d
  | .move => forEach (transfer true places) d sources
  | .copy => forEach (transfer false places) d sources
  | .test => o.value.bind fun value => editAll (check value) places d

/-- Look an operation through and run it if nothing is missing. -/
def dispatch (d : Value) (o : Operation) : Option Outcome :=
  match o.verb? with
  | none => some (.failed d { cause := .unknownVerb o.op, path := o.path.getD [] })
  | some verb =>
      match missing? o verb with
      | some field =>
          some (.failed d { cause := .missingField o.op field, path := o.path.getD [] })
      | none =>
          (sources d o verb).bind fun
            | .error fault => some (.failed d fault)
            | .ok sources =>
                o.path.bind fun path =>
                  match Path.expandPath d path with
                  | .error fault => some (.failed d fault)
                  | .ok places => work d o sources places verb

/-- Run an operation. Its word is cited where it fails. -/
def apply (d : Value) (o : Operation) : Option Outcome := (dispatch d o).map (Outcome.under o.op)

/-- Run a list of operations. -/
def applyAll (d : Value) (operations : List Operation) : Option Outcome :=
  forEach apply d operations

/-! ## Members are taken where they are present -/

variable {d : Value} {o : Operation} {c : Command} {verb : Verb} {field : Field}

/-- An operation that lacks a member stands for no command. -/
theorem command_of_missing (hverb : o.verb? = some verb) (h : missing? o verb = some field) :
    o.command = o.refuse (.missingField o.op field) := by
  rw [Operation.command, hverb]
  cases hpath : o.path with
  | none =>
      simp only [missing?, hpath, Option.isNone_none, if_true, Option.some.injEq] at h
      rw [← h]
      rfl
  | some path =>
      cases verb with
      | remove => simp [missing?, hpath, needsValue, needsSource] at h
      | add | replace | test =>
          cases hvalue : o.value with
          | some value => simp [missing?, hpath, hvalue, needsValue, needsSource] at h
          | none =>
              simp only [missing?, hpath, hvalue, needsValue] at h
              cases h
              rfl
      | move | copy =>
          cases hsource : o.source with
          | some source => simp [missing?, hpath, hsource, needsValue, needsSource] at h
          | none =>
              simp only [missing?, hpath, hsource, needsValue, needsSource] at h
              cases h
              rfl

/-- Nothing is missing if the path is present, and with it what the verb works with. -/
theorem missing?_eq_none_iff : missing? o verb = none ↔ (∃ path, o.path = some path) ∧
    (needsValue verb = true → ∃ value, o.value = some value) ∧
    (needsSource verb = true → ∃ source, o.source = some source) := by
  rw [missing?]
  cases o.path with
  | none => simp
  | some path =>
      cases needsValue verb <;> cases o.value <;> cases needsSource verb <;> cases o.source <;>
        simp

/-- An operation that lacks none stands for a command of its verb. -/
theorem exists_command_of_present (hverb : o.verb? = some verb) (h : missing? o verb = none) :
    ∃ c, o.command = .ok c ∧ c.verb = verb := by
  obtain ⟨⟨path, hpath⟩, hvalue, hsource⟩ := missing?_eq_none_iff.1 h
  have hcommand : ∃ c, o.command = .ok c := by
    refine Operation.exists_command_iff.2 ⟨verb, hverb, fun field hlacks => ?_⟩
    cases field with
    | op => exact hlacks
    | path => cases hlacks.symm.trans hpath
    | value =>
        obtain ⟨hverb, hnone⟩ := hlacks
        obtain ⟨value, hsome⟩ := hvalue (by rcases hverb with rfl | rfl | rfl <;> rfl)
        cases hnone.symm.trans hsome
    | source =>
        obtain ⟨hverb, hnone⟩ := hlacks
        obtain ⟨source, hsome⟩ := hsource (by rcases hverb with rfl | rfl <;> rfl)
        cases hnone.symm.trans hsome
  obtain ⟨c, hc⟩ := hcommand
  exact ⟨c, hc, Option.some.inj ((Operation.command_eq_ok_iff.1 hc).1.symm.trans hverb)⟩

/-- The members that a verb works with are those of the command. -/
theorem work_eq (hc : o.command = .ok c) (sources places : List Path) :
    work d o sources places c.verb = some (c.runAt d sources places) := by
  obtain ⟨-, -, -, hvalue⟩ := Operation.command_eq_ok_iff.1 hc
  cases c with
  | add path value =>
      rw [Command.verb, work, hvalue value rfl]
      exact addAll_eq value places d
  | remove path => exact editAll_eq remove_eq places d
  | replace path value =>
      rw [Command.verb, work, hvalue value rfl]
      exact editAll_eq (fun d p => replace_eq d p value) places d
  | move source path => exact forEach_eq (transfer_move_eq places) d sources
  | copy source path => exact forEach_eq (transfer_copy_eq places) d sources
  | test path value =>
      rw [Command.verb, work, hvalue value rfl]
      exact editAll_eq (check_eq value) places d

/-- An operation that lacks no member has those that are taken from it. -/
theorem exists_members_of_present (hverb : o.verb? = some verb) (h : missing? o verb = none) :
    (∃ path, o.path = some path) ∧ (∃ found, sources d o verb = some found) ∧
      ∀ sources places, ∃ outcome, work d o sources places verb = some outcome := by
  obtain ⟨hpath, -, hsource⟩ := missing?_eq_none_iff.1 h
  obtain ⟨c, hc, rfl⟩ := exists_command_of_present hverb h
  refine ⟨hpath, ?_, fun sources places => ⟨_, work_eq hc sources places⟩⟩
  rw [sources]
  cases hneeds : needsSource c.verb with
  | false => exact ⟨_, rfl⟩
  | true =>
      obtain ⟨source, hsome⟩ := hsource hneeds
      exact ⟨_, by rw [hsome]; rfl⟩

/-- The second stage of an operation is that of its command. -/
theorem work_places_eq (hc : o.command = .ok c) (sources : List Path) :
    (match Path.expandPath d c.path with
      | .error fault => some (.failed d fault)
      | .ok places => work d o sources places c.verb) =
    some (Command.withPlaces d c.path fun places => c.runAt d sources places) := by
  rw [Command.withPlaces]
  cases Path.expandPath d c.path with
  | error fault => rfl
  | ok places => exact work_eq hc sources places

/-- An operation that stands for a command has the outcome of the command. -/
theorem dispatch_of_command (hc : o.command = .ok c) (h : missing? o c.verb = none) :
    dispatch d o = some (c.run d) := by
  obtain ⟨hverb, hpath, hsource, -⟩ := Operation.command_eq_ok_iff.1 hc
  simp only [dispatch, hverb, h, hpath, Option.bind_some, work_places_eq hc]
  cases c with
  | move source path | copy source path =>
      simp only [sources, Command.verb, needsSource, if_true, hsource source rfl, Option.map_some,
        Option.bind_some, Command.run, Command.withPlaces]
      cases Path.expandPath d source <;> rfl
  | _ => rfl

theorem dispatch_eq (d : Value) (o : Operation) : dispatch d o =
    some (match o.command with
      | .error fault => .failed d fault
      | .ok c => c.run d) := by
  cases hverb : o.verb? with
  | none =>
      have hcommand : o.command = o.refuse (.unknownVerb o.op) := by
        rw [Operation.command, hverb]
      rw [dispatch, hverb, hcommand]
      rfl
  | some verb =>
      cases hmissing : missing? o verb with
      | some field =>
          simp only [dispatch, hverb, hmissing, command_of_missing hverb hmissing]
          rfl
      | none =>
          obtain ⟨c, hc, rfl⟩ := exists_command_of_present hverb hmissing
          rw [hc]
          exact dispatch_of_command hc hmissing

theorem apply_eq (d : Value) (o : Operation) : apply d o = some (o.apply d) := by
  rw [apply, dispatch_eq, Operation.apply, Option.map_some]
  cases o.command <;> rfl

/-- A run of a patch always has an outcome. -/
theorem applyAll_eq (d : Value) (operations : List Operation) :
    applyAll d operations = some (Patch.apply d operations) :=
  forEach_eq apply_eq d operations

/-! ## Documents -/

/-- What is done to a document never takes an accessor outside its domain: there is always an
answer, and it is that of the function which looks at every step. -/
structure StaysInDomain (d : Value) : Prop where
  /-- A reading takes steps of its path. -/
  read : ∀ p : Path, walk d p p.size = some (d.follow p.segments)
  /-- Where a path below the root leads to a value, the second walk of a removal succeeds. Its last
  step is a position below the size if it ends at an array, and it ends at an object otherwise, for
  which the last step has a name. -/
  removable : ∀ (p : Path) (x : Value), p.isRoot = false → d.get p = .ok x →
    ∃ parent last, walk d p (p.size - 1) = some (.ok parent) ∧ p.last? = some last ∧
      ((∃ xs n, parent = .array xs ∧ last = .index n ∧ n < xs.length) ∨
        ∃ ms name, parent = .object ms ∧ last.memberName? = some name)
  /-- A removal has an answer at every path. -/
  removed : ∀ p : Path, remove d p = some (d.remove p)
  /-- An insertion has an answer at every path. -/
  added : ∀ (p : Path) (new : Value), add d p new = some (d.add p new)
  /-- A value is inserted into an array at a position up to the size. -/
  insertedAt : ∀ (p : Path) (new d' : Value) (xs : List Value), p.isRoot = false →
    d.get p.parent = .ok (.array xs) → d.add p new = .ok d' →
    ∃ i, i ≤ xs.length ∧ d'.get p.parent = .ok (.array (xs.insertIdx i new))
  /-- An overwriting has an answer at every path. -/
  replaced : ∀ (p : Path) (new : Value), replace d p new = some (d.replace p new)
  /-- A comparison of numbers has an answer between numbers only. -/
  numbers : ∀ (e : Value) (answer : Bool), numbersEqual d e = some answer ↔
    ∃ m n, d = .number m ∧ e = .number n ∧ m.equals n = answer
  /-- A comparison with any document has an answer nevertheless. -/
  compared : ∀ e : Value, equals d e = some (d.equals e)
  /-- Once no member is found missing, the path is present, and so are the source that is expanded
  and the value that is worked with, where the verb asks for them. -/
  present : ∀ (o : Operation) (verb : Verb), o.verb? = some verb → missing? o verb = none →
    (∃ path, o.path = some path) ∧ (∃ found, sources d o verb = some found) ∧
      ∀ sources places, ∃ outcome, work d o sources places verb = some outcome
  /-- An operation has an outcome, whatever its word is and whichever members it has. -/
  applied : ∀ o : Operation, apply d o = some (o.apply d)
  /-- A patch has an outcome, too. -/
  patched : ∀ operations : List Operation,
    applyAll d operations = some (Patch.apply d operations)

/-- An insertion into an array is one at a position up to its size. -/
theorem exists_position_of_add {p : Path} {new d' : Value} {xs : List Value}
    (hroot : p.isRoot = false) (hparent : d.get p.parent = .ok (.array xs))
    (h : d.add p new = .ok d') :
    ∃ i, i ≤ xs.length ∧ d'.get p.parent = .ok (.array (xs.insertIdx i new)) := by
  obtain ⟨a, s, rfl⟩ := Path.exists_push hroot
  rw [Path.parent_push] at hparent ⊢
  obtain ⟨i, -, hi, hover⟩ := (Value.add_array_iff hparent).1 h
  exact ⟨i, hi, Value.get_of_overwrite hover⟩

/-- No accessor is used outside its domain, whatever the document, the path and the operation. -/
theorem staysInDomain (d : Value) : StaysInDomain d where
  read := walk_size d
  removable _ _ := exists_removable
  removed := remove_eq d
  added := add_eq d
  insertedAt _ _ _ _ := exists_position_of_add
  replaced := replace_eq d
  numbers _ _ := numbersEqual_eq_some_iff
  compared := equals_eq d
  present _ _ := exists_members_of_present
  applied := apply_eq d
  patched := applyAll_eq d

/-- Steps that stand for members by a numeral, a position and the end, a name where a position is
needed, a wildcard and the root; an element behind the last one; a copy, and an insertion of
nothing. -/
theorem staysInDomain_hand_built :
    let one : Value := .number (.signed 1)
    let list : Value := .array [.null, one]
    let d : Value := .object [(utf8 "0", list), (utf8 "-", one)]
    let element : Path := ⟨.query, [.key (utf8 "0"), .index 1]⟩
    let member : Path := ⟨.pointer, [.append]⟩
    let numeral : Path := ⟨.pointer, [.index 0, .key (utf8 "1")]⟩
    let everything : Path := ⟨.pointer, [.wildcard]⟩
    let behind : Path := ⟨.pointer, [.index 0, .index 2]⟩
    let longer : Value := .object [(utf8 "0", .array [.null, one, one]), (utf8 "-", one)]
    let copy : Operation := .copy (utf8 "/0/1") (utf8 "/0/-")
    let valueless : Operation := { op := utf8 "add", path := some [] }
    let fault : Fault := { cause := .missingField (utf8 "add") .value, op := utf8 "add" }
    (element.isRoot = false ∧ d.get element = .ok one ∧
      ∃ parent last, walk d element 1 = some (.ok parent) ∧ element.last? = some last ∧
        ((∃ xs n, parent = .array xs ∧ last = .index n ∧ n < xs.length) ∨
          ∃ ms name, parent = .object ms ∧ last.memberName? = some name)) ∧
    remove d element = some (.ok (.object [(utf8 "0", .array [.null]), (utf8 "-", one)])) ∧
    remove d member = some (.ok (.object [(utf8 "0", list)])) ∧
    remove d numeral =
      some (.error (numeral.fault (.nothing .remove (.notAnObject (utf8 "1") .array)))) ∧
    remove d everything = some (.error (everything.fault (.misstep .wildcard))) ∧
    remove d .root = some (.error { cause := .rootRemoval }) ∧
    (behind.isRoot = false ∧ d.get behind.parent = .ok list ∧ d.add behind one = .ok longer ∧
      ∃ i, i ≤ 2 ∧ longer.get behind.parent = .ok (.array ([.null, one].insertIdx i one))) ∧
    equals d longer = some false ∧ numbersEqual d one = none ∧
    (copy.verb? = some .copy ∧ missing? copy .copy = none ∧
      ∃ found, sources d copy .copy = some found) ∧
    apply d copy = some ⟨longer, none⟩ ∧ apply d valueless = some ⟨d, some fault⟩ := by
  intro one list d element member numeral everything behind longer copy valueless fault
  have hd := staysInDomain d
  have helement : d.get element = .ok one := by decide +kernel
  have hparent : d.get behind.parent = .ok list := by decide +kernel
  have hlonger : d.add behind one = .ok longer := by decide +kernel
  have hverb : copy.verb? = some .copy := by decide
  have hmissing : missing? copy .copy = none := by decide
  refine ⟨⟨rfl, helement, hd.removable element one rfl helement⟩,
    (hd.removed element).trans (by decide +kernel), (hd.removed member).trans (by decide +kernel),
    (hd.removed numeral).trans (by decide +kernel),
    (hd.removed everything).trans (by decide +kernel), (hd.removed .root).trans (by decide +kernel),
    ⟨rfl, hparent, hlonger, hd.insertedAt behind one longer [.null, one] rfl hparent hlonger⟩,
    (hd.compared longer).trans (by decide +kernel), ?_,
    ⟨hverb, hmissing, (hd.present copy .copy hverb hmissing).2.1⟩,
    (hd.applied copy).trans (by decide +kernel),
    (hd.applied valueless).trans (by decide +kernel)⟩
  rw [Option.eq_none_iff_forall_ne_some]
  intro answer hanswer
  obtain ⟨m, n, hm, -⟩ := (hd.numbers one answer).1 hanswer
  cases (show Value.object _ = .number m from hm)

end TreePatch.Unchecked
