import Mathlib.Data.List.Forall2
import TreePatch.Patch.Run
import TreePatch.Proofs.Operation.Command
import TreePatch.Proofs.Value.Equivalent

set_option autoImplicit false

/-!
# Patches of pointers do not see the order of members

The order of members decides what a query lists first, and nothing else. A patch whose
expressions are all pointers, run on two equivalent documents with equivalent values,
leaves equivalent documents and ends with the same fault or none (`apply_equivalent`).

The proof is a simulation: `Outcome.Equivalent` relates two runs that have gone the same
way so far, each action at a place carries it over (`Value.Equivalent.add` and the
others), a loop carries it over if its step does (`Outcome.forEach_equivalent`), and so
do commands, operations and patches in turn.
-/

namespace TreePatch

/-! ## Runs that go the same way -/

/-- Two runs left equivalent documents, and both succeeded or failed with one fault. -/
structure Outcome.Equivalent (o o' : Outcome) : Prop where
  document : o.document.Equivalent o'.document
  fault : o.fault = o'.fault

namespace Outcome

variable {α β : Type} {o o' : Outcome} {d d' : Value}

theorem equivalent_failed (h : d.Equivalent d') (fault : Fault) :
    (failed d fault).Equivalent (failed d' fault) :=
  ⟨h, rfl⟩

theorem equivalent_ofExcept (h : d.Equivalent d') {r r' : Except Fault Value}
    (hr : Result.Agree Value.Equivalent r r') :
    (ofExcept d r).Equivalent (ofExcept d' r') := by
  cases hr with
  | ok hr => exact ⟨hr, rfl⟩
  | error fault => exact ⟨h, rfl⟩

namespace Equivalent

theorem under (h : o.Equivalent o') (op : Text) : (o.under op).Equivalent (o'.under op) :=
  ⟨h.document, congrArg (Option.map (Fault.under op)) h.fault⟩

theorem andThen {next next' : Value → Outcome} (h : o.Equivalent o')
    (hnext : ∀ {v w : Value}, v.Equivalent w → (next v).Equivalent (next' w)) :
    (o.andThen next).Equivalent (o'.andThen next') := by
  obtain ⟨d, fault⟩ := o
  obtain ⟨d', fault'⟩ := o'
  obtain ⟨hd, rfl⟩ := h
  cases fault with
  | none => exact hnext hd
  | some fault => exact ⟨hd, rfl⟩

theorem result (h : o.Equivalent o') : Result.Agree Value.Equivalent o.result o'.result := by
  obtain ⟨d, fault⟩ := o
  obtain ⟨d', fault'⟩ := o'
  obtain ⟨hd, rfl⟩ := h
  cases fault with
  | none => exact .ok hd
  | some fault => exact .error fault

/-- A run that goes the same way as one that succeeds does so, too. -/
theorem exists_of_none (h : (Outcome.mk d none).Equivalent o) :
    ∃ d', o = ⟨d', none⟩ ∧ d.Equivalent d' := by
  obtain ⟨d', fault⟩ := o
  obtain ⟨hd, rfl⟩ := h
  exact ⟨d', rfl, hd⟩

end Equivalent

/-- Loops over corresponding items go the same way if their steps do. -/
theorem forEach_equivalent {R : α → β → Prop} {step : Value → α → Outcome}
    {step' : Value → β → Outcome} {as : List α} {bs : List β} (hab : List.Forall₂ R as bs)
    (hstep : ∀ a ∈ as, ∀ b, R a b → ∀ {v w : Value}, v.Equivalent w →
      (step v a).Equivalent (step' w b)) (h : d.Equivalent d') :
    (forEach step d as).Equivalent (forEach step' d' bs) := by
  induction hab generalizing d d' with
  | nil => exact ⟨h, rfl⟩
  | cons hr _ ih =>
      obtain ⟨hfirst, hrest⟩ := List.forall_mem_cons.1 hstep
      exact (hfirst _ hr h).andThen fun hvw => ih hrest hvw

/-- The same for two loops over one list. -/
theorem forEach_equivalent_self {step step' : Value → α → Outcome} (as : List α)
    (hstep : ∀ (a : α) {v w : Value}, v.Equivalent w → (step v a).Equivalent (step' w a))
    (h : d.Equivalent d') : (forEach step d as).Equivalent (forEach step' d' as) := by
  refine forEach_equivalent (R := Eq) (List.forall₂_same.2 fun _ _ => rfl) ?_ h
  intro a _ b hab v w hvw
  rw [← hab]
  exact hstep a hvw

/-- A loop leaves an equivalent document if each of its steps does and does not see the order of
members. -/
theorem exists_forEach_equivalent {step : Value → α → Outcome} {as : List α} (hd : d.WellFormed)
    (hstep : ∀ (a : α) {v w : Value}, v.Equivalent w → (step v a).Equivalent (step w a))
    (h : ∀ a ∈ as, ∃ d', step d a = ⟨d', none⟩ ∧ d.Equivalent d') :
    ∃ d', forEach step d as = ⟨d', none⟩ ∧ d.Equivalent d' := by
  induction as with
  | nil => exact ⟨d, rfl, hd.equivalent⟩
  | cons a as ih =>
      obtain ⟨⟨d₁, hd₁, h₁⟩, has⟩ := List.forall_mem_cons.1 h
      obtain ⟨d₂, hd₂, h₂⟩ := ih has
      -- The other steps go the same way after the first as they would without it.
      have hrest : (forEach step d as).Equivalent (forEach step d₁ as) :=
        forEach_equivalent_self as hstep h₁
      rw [hd₂] at hrest
      obtain ⟨d', hd', h'⟩ := hrest.exists_of_none
      exact ⟨d', forEach_cons_iff.2 ⟨d₁, hd₁, hd'⟩, h₂.trans h'⟩

end Outcome

/-! ## Commands -/

namespace Command

variable {d d' a b : Value}

theorem addAll_equivalent (hab : a.Equivalent b) (places : List Path) (h : d.Equivalent d') :
    (addAll a places d).Equivalent (addAll b places d') :=
  Outcome.forEach_equivalent_self places
    (fun p _ _ hvw => Outcome.equivalent_ofExcept hvw (hvw.add hab p)) h

theorem removeAll_equivalent (places : List Path) (h : d.Equivalent d') :
    (removeAll places d).Equivalent (removeAll places d') :=
  Outcome.forEach_equivalent_self places
    (fun p _ _ hvw => Outcome.equivalent_ofExcept hvw (hvw.remove p)) h

theorem replaceAll_equivalent (hab : a.Equivalent b) (places : List Path)
    (h : d.Equivalent d') : (replaceAll a places d).Equivalent (replaceAll b places d') :=
  Outcome.forEach_equivalent_self places
    (fun p _ _ hvw => Outcome.equivalent_ofExcept hvw (hvw.replace hab p)) h

theorem check_eq_of_equivalent (hab : a.Equivalent b) (h : d.Equivalent d') (p : Path) :
    check a d p = check b d' p := by
  rw [check, check]
  rcases (h.follow p.segments).cases with ⟨x, y, hx, hy, hxy⟩ | ⟨m, hx, hy⟩
  · rw [hx, hy]
    simp only [hxy.equals_eq hab]
  · rw [hx, hy]

theorem checkAll_equivalent (hab : a.Equivalent b) (places : List Path)
    (h : d.Equivalent d') : (checkAll a places d).Equivalent (checkAll b places d') := by
  refine Outcome.forEach_equivalent_self places (fun p v w hvw => ?_) h
  refine Outcome.equivalent_ofExcept hvw ?_
  rw [check_eq_of_equivalent hab hvw p]
  cases check b w p with
  | ok u => exact .ok hvw
  | error fault => exact .error fault

theorem fetch_agree (h : d.Equivalent d') (source : Path) :
    Result.Agree Value.Equivalent (fetch d source) (fetch d' source) :=
  (h.follow source.segments).mapError _

theorem copyTo_equivalent (places : List Path) (h : d.Equivalent d') (source : Path) :
    (copyTo places d source).Equivalent (copyTo places d' source) := by
  rw [copyTo, copyTo]
  rcases (fetch_agree h source).cases with ⟨x, y, hx, hy, hxy⟩ | ⟨fault, hx, hy⟩
  · rw [hx, hy]
    exact addAll_equivalent hxy places h
  · rw [hx, hy]
    exact Outcome.equivalent_failed h fault

theorem moveTo_equivalent (places : List Path) (h : d.Equivalent d') (source : Path) :
    (moveTo places d source).Equivalent (moveTo places d' source) := by
  rw [moveTo, moveTo]
  rcases (fetch_agree h source).cases with ⟨x, y, hx, hy, hxy⟩ | ⟨fault, hx, hy⟩
  · rw [hx, hy]
    dsimp only
    cases places.find? (isBelow source) with
    | some target => exact Outcome.equivalent_failed h _
    | none =>
        -- The value goes in where the source has been taken out already.
        have hremove := Outcome.equivalent_ofExcept h (h.remove source)
        exact hremove.andThen fun hvw => addAll_equivalent hxy places hvw
  · rw [hx, hy]
    exact Outcome.equivalent_failed h fault

/-- A pointer is expanded without a look at the document. -/
theorem withPlaces_equivalent {text : Text} (hpointer : Path.isQueryText text = false)
    {next next' : List Path → Outcome} (h : d.Equivalent d')
    (hnext : ∀ places, (next places).Equivalent (next' places)) :
    (withPlaces d text next).Equivalent (withPlaces d' text next') := by
  simp only [withPlaces, Path.expandPath, hpointer]
  cases Path.parsePointer text with
  | error fault => exact Outcome.equivalent_failed h fault
  | ok p => exact hnext [p]

/-- The same verb and expressions with equivalent values. -/
inductive Equivalent : Command → Command → Prop where
  | add (path : Text) {a b : Value} (h : a.Equivalent b) : Equivalent (.add path a) (.add path b)
  | remove (path : Text) : Equivalent (.remove path) (.remove path)
  | replace (path : Text) {a b : Value} (h : a.Equivalent b) :
      Equivalent (.replace path a) (.replace path b)
  | move (source path : Text) : Equivalent (.move source path) (.move source path)
  | copy (source path : Text) : Equivalent (.copy source path) (.copy source path)
  | test (path : Text) {a b : Value} (h : a.Equivalent b) :
      Equivalent (.test path a) (.test path b)

/-- The expressions that a command expands, in this order. -/
def expressions : Command → List Text
  | .add path _ | .remove path | .replace path _ | .test path _ => [path]
  | .move source path | .copy source path => [source, path]

theorem Equivalent.run {c c' : Command} (hc : c.Equivalent c')
    (hpointers : ∀ text ∈ c.expressions, Path.isQueryText text = false)
    (h : d.Equivalent d') : (c.run d).Equivalent (c'.run d') := by
  cases hc with
  | add path hab =>
      have hpath := hpointers path (by simp [expressions])
      exact withPlaces_equivalent hpath h fun places => addAll_equivalent hab places h
  | remove path =>
      have hpath := hpointers path (by simp [expressions])
      exact withPlaces_equivalent hpath h fun places => removeAll_equivalent places h
  | replace path hab =>
      have hpath := hpointers path (by simp [expressions])
      exact withPlaces_equivalent hpath h fun places => replaceAll_equivalent hab places h
  | move source path =>
      have hsource := hpointers source (by simp [expressions])
      have hpath := hpointers path (by simp [expressions])
      refine withPlaces_equivalent hsource h fun sources => ?_
      refine withPlaces_equivalent hpath h fun places => ?_
      exact Outcome.forEach_equivalent_self sources
        (fun s _ _ hvw => moveTo_equivalent places hvw s) h
  | copy source path =>
      have hsource := hpointers source (by simp [expressions])
      have hpath := hpointers path (by simp [expressions])
      refine withPlaces_equivalent hsource h fun sources => ?_
      refine withPlaces_equivalent hpath h fun places => ?_
      exact Outcome.forEach_equivalent_self sources
        (fun s _ _ hvw => copyTo_equivalent places hvw s) h
  | test path hab =>
      have hpath := hpointers path (by simp [expressions])
      exact withPlaces_equivalent hpath h fun places => checkAll_equivalent hab places h

end Command

/-! ## Operations -/

namespace Operation

variable {d d' : Value} {o o' : Operation}

/-- The operations agree on everything but their values, which are equivalent. -/
structure Equivalent (o o' : Operation) : Prop where
  op : o.op = o'.op
  path : o.path = o'.path
  source : o.source = o'.source
  value : Option.Rel Value.Equivalent o.value o'.value

/-- Neither expression of the operation is a query. -/
def PointersOnly (o : Operation) : Prop :=
  (∀ text ∈ o.path, Path.isQueryText text = false) ∧
    ∀ text ∈ o.source, Path.isQueryText text = false

instance (o : Operation) : Decidable o.PointersOnly := inferInstanceAs (Decidable (_ ∧ _))

/-- The expressions of a command are those of the operation it stands for. -/
theorem mem_expressions_of_command {c : Command} (hc : o.command = .ok c) {text : Text}
    (ht : text ∈ c.expressions) : o.path = some text ∨ o.source = some text := by
  obtain ⟨-, hpath, hsource, -⟩ := command_eq_ok_iff.1 hc
  cases c with
  | move source path | copy source path =>
      rcases List.mem_pair.1 ht with rfl | rfl
      · exact .inr (hsource _ rfl)
      · exact .inl hpath
  | _ =>
      obtain rfl := List.mem_singleton.1 ht
      exact .inl hpath

/-- A member that one of two corresponding operations has, the other has. -/
theorem Equivalent.require {α : Type} {R : α → α → Prop} (h : o.Equivalent o') (field : Field)
    {member member' : Option α} (hm : Option.Rel R member member') :
    Result.Agree R (o.require field member) (o'.require field member') := by
  cases hm with
  | some hab => exact .ok hab
  | none =>
      rw [Operation.require, Operation.require, refuse, refuse, h.op, h.path]
      exact .error _

theorem Equivalent.command (h : o.Equivalent o') :
    Result.Agree Command.Equivalent o.command o'.command := by
  -- Expressions are the same texts, values only equivalent.
  have hsame : ∀ {a b : Option Text}, a = b → Option.Rel Eq a b := by
    intro a b hab
    subst hab
    cases a with
    | none => exact .none
    | some t => exact .some rfl
  have hpath := h.require .path (hsame h.path)
  have hsource := h.require .source (hsame h.source)
  have hvalue := h.require .value h.value
  rw [Operation.command, Operation.command, verb?, verb?, h.op]
  cases Verb.ofText? o'.op with
  | none =>
      rw [refuse, refuse, h.path]
      exact .error _
  | some verb =>
      refine hpath.bind fun path _ hp => ?_
      subst hp
      cases verb with
      | add => exact hvalue.map fun _ _ hab => .add path hab
      | remove => exact .ok (.remove path)
      | replace => exact hvalue.map fun _ _ hab => .replace path hab
      | move => exact hsource.map fun source _ hs => hs ▸ Command.Equivalent.move source path
      | copy => exact hsource.map fun source _ hs => hs ▸ Command.Equivalent.copy source path
      | test => exact hvalue.map fun _ _ hab => .test path hab

theorem Equivalent.apply (ho : o.Equivalent o') (hp : o.PointersOnly) (h : d.Equivalent d') :
    (o.apply d).Equivalent (o'.apply d') := by
  rw [Operation.apply, Operation.apply, ho.op]
  rcases ho.command.cases with ⟨c, c', hc, hc', hcc'⟩ | ⟨fault, hc, hc'⟩
  · rw [hc, hc']
    refine (hcc'.run (fun text ht => ?_) h).under o'.op
    rcases mem_expressions_of_command hc ht with hpath | hsource
    · exact hp.1 text hpath
    · exact hp.2 text hsource
  · rw [hc, hc']
    exact (Outcome.equivalent_failed h fault).under o'.op

end Operation

/-! ## Patches -/

namespace Patch

/-- A patch of pointers, run on equivalent documents with equivalent values, succeeds on
both with equivalent documents, or fails on both with one fault. Either way the documents
that the two runs leave are equivalent. -/
theorem apply_equivalent {d d' : Value} (hd : d.Equivalent d') {os os' : List Operation}
    (hos : List.Forall₂ Operation.Equivalent os os') (hpointers : ∀ o ∈ os, o.PointersOnly) :
    Result.Agree Value.Equivalent (applied d os) (applied d' os') ∧
      (apply d os).document.Equivalent (apply d' os').document := by
  have h : (apply d os).Equivalent (apply d' os') :=
    Outcome.forEach_equivalent hos (fun o ho o' hoo' _ _ hvw => hoo'.apply (hpointers o ho) hvw) hd
  exact ⟨h.result, h.document⟩

/-- A run that copies, moves and tests before it fails, on a document and a reordering of
it, with the expected value of the test reordered as well. -/
theorem apply_equivalent_failing :
    let d : Value := .object [(utf8 "a", .bool true), (utf8 "b", .array [.null])]
    let d' : Value := .object [(utf8 "b", .array [.null]), (utf8 "a", .bool true)]
    let v : Value := .object [(utf8 "b", .array [.bool true, .null]), (utf8 "c", .bool true)]
    let v' : Value := .object [(utf8 "c", .bool true), (utf8 "b", .array [.bool true, .null])]
    let patch (expected : Value) : List Operation :=
      [.copy (utf8 "/a") (utf8 "/c"), .move (utf8 "/a") (utf8 "/b/0"),
        .test [] expected, .remove (utf8 "/a")]
    d.Equivalent d' ∧ List.Forall₂ Operation.Equivalent (patch v) (patch v') ∧
      (∀ o ∈ patch v, o.PointersOnly) ∧ (apply d (patch v)).document = v ∧
      Result.Agree Value.Equivalent (applied d (patch v)) (applied d' (patch v')) ∧
      v.Equivalent (apply d' (patch v')).document := by
  intro d d' v v' patch
  have hd : d.Equivalent d' := Value.equivalent_of_perm (by decide) (.swap _ _ _)
  have hv : v.Equivalent v' := Value.equivalent_of_perm (by decide) (.swap _ _ _)
  have hpatch : List.Forall₂ Operation.Equivalent (patch v) (patch v') :=
    .cons ⟨rfl, rfl, rfl, .none⟩ <| .cons ⟨rfl, rfl, rfl, .none⟩ <|
      .cons ⟨rfl, rfl, rfl, .some hv⟩ <| .cons ⟨rfl, rfl, rfl, .none⟩ .nil
  have hpointers : ∀ o ∈ patch v, o.PointersOnly := by decide
  have hleft : (apply d (patch v)).document = v := by decide +kernel
  obtain ⟨hagree, hdocument⟩ := apply_equivalent hd hpatch hpointers
  exact ⟨hd, hpatch, hpointers, hleft, hagree, hleft ▸ hdocument⟩

end Patch

end TreePatch
