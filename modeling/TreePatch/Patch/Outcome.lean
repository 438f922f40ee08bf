import TreePatch.Fault.Basic

set_option autoImplicit false

/-!
# Outcomes: a document and whether the run failed

A run changes a document step by step and stops at the first step that fails. What
earlier steps did stays done, so an outcome holds a document in either case.
-/

namespace TreePatch

/-- The document that a run leaves, and the fault that ended it early. -/
structure Outcome where
  document : Value
  fault : Option Fault := none
deriving DecidableEq

namespace Outcome

/-- A run that changed nothing and failed. -/
def failed (document : Value) (fault : Fault) : Outcome := ⟨document, some fault⟩

/-- One step that either gives a new document or fails and changes nothing. -/
def ofExcept (document : Value) : Except Fault Value → Outcome
  | .ok after => ⟨after, none⟩
  | .error fault => ⟨document, some fault⟩

/-- Go on from the document of a run that has not failed. -/
def andThen (o : Outcome) (next : Value → Outcome) : Outcome :=
  match o.fault with
  | none => next o.document
  | some _ => o

/-- Run a step for every item in order. -/
def forEach {α : Type} (step : Value → α → Outcome) : Value → List α → Outcome
  | document, [] => ⟨document, none⟩
  | document, a :: rest => (step document a).andThen fun after => forEach step after rest

/-- The same outcome with its fault cited under an operation. -/
def under (op : Text) (o : Outcome) : Outcome := { o with fault := o.fault.map (Fault.under op) }

/-- The answer of a run whose document counts only if it succeeded. -/
def result (o : Outcome) : Except Fault Value :=
  match o.fault with
  | none => .ok o.document
  | some fault => .error fault

/-! ## Laws of sequence -/

@[simp] theorem andThen_none (document : Value) (next : Value → Outcome) :
    (Outcome.mk document none).andThen next = next document := rfl

@[simp] theorem andThen_some (document : Value) (fault : Fault) (next : Value → Outcome) :
    (Outcome.mk document (some fault)).andThen next = ⟨document, some fault⟩ := rfl

/-- The fault of a single step is that of its result. -/
theorem fault_ofExcept {document : Value} {r : Except Fault Value} {fault : Fault} :
    (ofExcept document r).fault = some fault ↔ r = .error fault := by
  cases r <;> simp [ofExcept]

/-- A single step does not fail if its result does not. -/
theorem fault_ofExcept_eq_none {document : Value} {r : Except Fault Value} :
    (ofExcept document r).fault = none ↔ ∃ after, r = .ok after := by
  cases r <;> simp [ofExcept]

theorem ofExcept_eq_iff {document after : Value} {r : Except Fault Value} :
    ofExcept document r = ⟨after, none⟩ ↔ r = .ok after := by
  cases r <;> simp [ofExcept]

/-- Running two lists of items is running the one and then the other. -/
theorem forEach_append {α : Type} (step : Value → α → Outcome) (document : Value)
    (as bs : List α) :
    forEach step document (as ++ bs) =
      (forEach step document as).andThen fun after => forEach step after bs := by
  induction as generalizing document with
  | nil => rfl
  | cons a as ih =>
      simp only [List.cons_append, forEach]
      rcases step document a with ⟨after, _ | fault⟩
      · simp [ih]
      · simp

/-! ## Laws of loops -/

variable {α β : Type}

theorem forEach_map (step : Value → β → Outcome) (f : α → β) (v : Value) (as : List α) :
    forEach step v (as.map f) = forEach (fun v a => step v (f a)) v as := by
  induction as generalizing v with
  | nil => rfl
  | cons a as ih => simp only [List.map_cons, forEach, ih]

theorem forEach_singleton (step : Value → α → Outcome) (v : Value) (a : α) :
    forEach step v [a] = step v a := by
  rw [forEach]
  rcases step v a with ⟨w, _ | fault⟩ <;> rfl

/-- A loop succeeds if its first step does and the others do after it. -/
theorem forEach_cons_iff {step : Value → α → Outcome} {v w : Value} {a : α} {as : List α} :
    forEach step v (a :: as) = ⟨w, none⟩ ↔
      ∃ u, step v a = ⟨u, none⟩ ∧ forEach step u as = ⟨w, none⟩ := by
  rw [forEach]
  rcases step v a with ⟨u, _ | fault⟩ <;> simp

/-- A loop of single steps goes on from what the first step gives. -/
theorem forEach_ofExcept_cons_iff {act : Value → α → Except Fault Value} {v w : Value} {a : α}
    {as : List α} : forEach (fun v a => .ofExcept v (act v a)) v (a :: as) = ⟨w, none⟩ ↔
      ∃ u, act v a = .ok u ∧ forEach (fun v a => .ofExcept v (act v a)) u as = ⟨w, none⟩ := by
  simp only [forEach_cons_iff, ofExcept_eq_iff]

/-- A loop of steps that all succeed and change nothing does so, too. -/
theorem forEach_of_unchanged {step : Value → α → Outcome} {v : Value} {as : List α}
    (h : ∀ a ∈ as, step v a = ⟨v, none⟩) : forEach step v as = ⟨v, none⟩ := by
  induction as with
  | nil => rfl
  | cons a as ih =>
      obtain ⟨ha, has⟩ := List.forall_mem_cons.1 h
      rw [forEach, ha, andThen_none, ih has]

/-- A loop that fails does so in the step for one of its items. -/
theorem exists_of_fault_forEach {step : Value → α → Outcome} {v : Value} {as : List α}
    {fault : Fault} (h : (forEach step v as).fault = some fault) :
    ∃ w, ∃ a ∈ as, (step w a).fault = some fault := by
  induction as generalizing v with
  | nil => cases h
  | cons a as ih =>
      rw [forEach] at h
      cases hstep : step v a with
      | mk w f =>
          rw [hstep] at h
          cases f with
          | none =>
              obtain ⟨u, b, hb, hfault⟩ := ih h
              exact ⟨u, b, List.mem_cons_of_mem a hb, hfault⟩
          | some f => exact ⟨v, a, List.mem_cons_self, by rw [hstep]; exact h⟩

/-! ## What is kept -/

section Kept

variable {P : Value → Prop} {v : Value}

/-- A run answers its document if it does not fail. -/
theorem result_eq_ok_iff {o : Outcome} : o.result = .ok v ↔ o = ⟨v, none⟩ := by
  obtain ⟨document, _ | fault⟩ := o <;> simp [result]

/-- A run answers its fault if it fails. -/
theorem result_eq_error_iff {o : Outcome} {fault : Fault} :
    o.result = .error fault ↔ o.fault = some fault := by
  obtain ⟨document, _ | fault⟩ := o <;> simp [result]

/-- Citing the operation in the fault does not change what is answered. -/
theorem result_under_eq_ok_iff {op : Text} {o : Outcome} :
    (o.under op).result = .ok v ↔ o.result = .ok v := by
  obtain ⟨document, _ | fault⟩ := o <;> simp [result, under]

/-- Going on answers if both runs do. -/
theorem result_andThen (o : Outcome) (next : Value → Outcome) :
    (o.andThen next).result = o.result.bind fun w => (next w).result := by
  obtain ⟨document, _ | fault⟩ := o <;> rfl

theorem document_ofExcept {r : Except Fault Value} (h : P v) (hr : ∀ w, r = .ok w → P w) :
    P (ofExcept v r).document := by
  cases r with
  | error fault => exact h
  | ok w => exact hr w rfl

theorem document_andThen {o : Outcome} {next : Value → Outcome} (h : P o.document)
    (hnext : ∀ w, P w → P (next w).document) : P (o.andThen next).document := by
  obtain ⟨w, fault⟩ := o
  cases fault with
  | none => exact hnext w h
  | some fault => exact h

/-- What every step keeps, failed or not, a loop keeps. -/
theorem document_forEach {step : Value → α → Outcome} {as : List α}
    (hstep : ∀ w, P w → ∀ a ∈ as, P (step w a).document) (h : P v) :
    P (forEach step v as).document := by
  induction as generalizing v with
  | nil => exact h
  | cons a as ih =>
      rw [forEach]
      refine document_andThen (hstep v h a List.mem_cons_self) fun w hw => ?_
      exact ih (fun u hu b hb => hstep u hu b (List.mem_cons_of_mem a hb)) hw

end Kept

/-! ## Loops that agree -/

/-- Citing the operation after a loop is citing it in every step. -/
theorem under_forEach (op : Text) (step : Value → α → Outcome) (v : Value) (as : List α) :
    (forEach step v as).under op = forEach (fun v a => (step v a).under op) v as := by
  induction as generalizing v with
  | nil => rfl
  | cons a as ih =>
      rw [forEach, forEach]
      rcases step v a with ⟨w, _ | fault⟩
      · exact ih w
      · rfl

/-- Two loops agree if their steps agree under an invariant that the steps keep. -/
theorem forEach_congr (Inv : Value → Prop) {step step' : Value → α → Outcome}
    {as : List α} (hstep : ∀ v, Inv v → ∀ a ∈ as, step v a = step' v a)
    (hkeep : ∀ v, Inv v → ∀ a ∈ as, ∀ w, step v a = ⟨w, none⟩ → Inv w) {v : Value}
    (h : Inv v) : forEach step v as = forEach step' v as := by
  induction as generalizing v with
  | nil => rfl
  | cons a as ih =>
      have hrest : ∀ w, Inv w → forEach step w as = forEach step' w as := fun w hw =>
        ih (fun u hu b hb => hstep u hu b (List.mem_cons_of_mem _ hb))
          (fun u hu b hb => hkeep u hu b (List.mem_cons_of_mem _ hb)) hw
      have hkeepA := hkeep v h a List.mem_cons_self
      rw [forEach, forEach, ← hstep v h a List.mem_cons_self]
      cases ho : step v a with
      | mk w fault =>
          cases fault with
          | none => exact hrest w (hkeepA w ho)
          | some fault => rfl

end Outcome

end TreePatch
