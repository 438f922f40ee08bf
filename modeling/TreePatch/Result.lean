set_option autoImplicit false

/-!
# Results: answers and first failures

Everything that can fail answers with an `Except`. This module has the one
traversal that the library needs on top of core, `gather`, the laws by which a
proof takes a result apart, and `Agree`, by which it compares two.
-/

namespace TreePatch.Result

variable {α β γ ε δ : Type}

/-- The answers for all items in order, or the failure for the first item that has
one. -/
def gather (answer : α → Except ε (List β)) : List α → Except ε (List β)
  | [] => .ok []
  | a :: rest =>
      match answer a with
      | .error e => .error e
      | .ok bs => (gather answer rest).map (bs ++ ·)

theorem map_eq_ok_iff {f : α → β} {r : Except ε α} {b : β} :
    r.map f = .ok b ↔ ∃ a, r = .ok a ∧ f a = b := by
  cases r <;> simp [Except.map]

theorem map_eq_error_iff {f : α → β} {r : Except ε α} {e : ε} :
    r.map f = .error e ↔ r = .error e := by
  cases r <;> simp [Except.map]

theorem mapError_eq_ok_iff {f : ε → δ} {r : Except ε α} {a : α} :
    r.mapError f = .ok a ↔ r = .ok a := by
  cases r with
  | error e => constructor <;> intro h <;> cases h
  | ok b =>
      constructor <;> intro h <;> cases h <;> rfl

theorem mapError_eq_error_iff {f : ε → δ} {r : Except ε α} {d : δ} :
    r.mapError f = .error d ↔ ∃ e, r = .error e ∧ f e = d := by
  cases r with
  | error e =>
      constructor
      · intro h
        cases h
        exact ⟨e, rfl, rfl⟩
      · rintro ⟨e', he, rfl⟩
        cases he
        rfl
  | ok b =>
      constructor
      · intro h
        cases h
      · rintro ⟨e', he, -⟩
        cases he

theorem bind_eq_ok_iff {f : α → Except ε β} {r : Except ε α} {b : β} :
    r.bind f = .ok b ↔ ∃ a, r = .ok a ∧ f a = .ok b := by
  cases r <;> simp [Except.bind]

/-- Gathering succeeds when every item has an answer, and joins them. -/
theorem gather_eq_ok_iff {answer : α → Except ε (List β)} {items : List α} {bs : List β} :
    gather answer items = .ok bs ↔
      ∃ answers : List (List β),
        items.map answer = answers.map .ok ∧ answers.flatten = bs := by
  induction items generalizing bs with
  | nil =>
      constructor
      · intro h
        cases h
        exact ⟨[], rfl, rfl⟩
      · rintro ⟨answers, hmap, rfl⟩
        cases answers with
        | nil => rfl
        | cons _ _ => cases hmap
  | cons a rest ih =>
      rw [gather]
      cases ha : answer a with
      | error e =>
          constructor
          · intro h
            cases h
          · rintro ⟨answers, hmap, -⟩
            cases answers with
            | nil => cases hmap
            | cons _ _ => simp [ha] at hmap
      | ok first =>
          simp only [map_eq_ok_iff, ih]
          constructor
          · rintro ⟨_, ⟨answers, hmap, rfl⟩, rfl⟩
            exact ⟨first :: answers, by simp [ha, hmap], rfl⟩
          · rintro ⟨answers, hmap, rfl⟩
            cases answers with
            | nil => cases hmap
            | cons second answers =>
                simp only [List.map_cons, ha, List.cons.injEq, Except.ok.injEq] at hmap
                exact ⟨_, ⟨answers, hmap.2, rfl⟩, by rw [hmap.1]; rfl⟩

/-- Gathering depends on the answers alone. -/
theorem gather_congr {answer : α → Except ε (List β)} {answer' : γ → Except ε (List β)}
    {items : List α} {items' : List γ} (h : items.map answer = items'.map answer') :
    gather answer items = gather answer' items' := by
  induction items generalizing items' with
  | nil =>
      obtain rfl : items' = [] := List.map_eq_nil_iff.1 h.symm
      rfl
  | cons a rest ih =>
      cases items' with
      | nil => cases h
      | cons a' rest' =>
          obtain ⟨ha, hrest⟩ := List.cons.inj h
          rw [gather, gather, ha, ih hrest]

/-- A successful gathering joins an answer for every item. -/
theorem exists_answers_of_gather {answer : α → Except ε (List β)} {items : List α}
    {bs : List β} (h : gather answer items = .ok bs) :
    ∃ g : α → List β, (∀ a ∈ items, answer a = .ok (g a)) ∧ bs = items.flatMap g := by
  refine ⟨fun a => (answer a).toOption.getD [], ?_⟩
  induction items generalizing bs with
  | nil =>
      cases h
      exact ⟨by simp, rfl⟩
  | cons a rest ih =>
      rw [gather] at h
      cases ha : answer a with
      | error e =>
          rw [ha] at h
          cases h
      | ok first =>
          rw [ha] at h
          obtain ⟨tail, htail, rfl⟩ := map_eq_ok_iff.1 h
          obtain ⟨hall, rfl⟩ := ih htail
          exact ⟨List.forall_mem_cons.2 ⟨by simp [ha, Except.toOption], hall⟩,
            by simp [ha, Except.toOption]⟩

/-- Gathering fails with the failure of the first item that has one. -/
theorem gather_eq_error_iff {answer : α → Except ε (List β)} {items : List α} {e : ε} :
    gather answer items = .error e ↔
      ∃ before a after, items = before ++ a :: after ∧
        (∀ b ∈ before, ∃ bs, answer b = .ok bs) ∧ answer a = .error e := by
  induction items with
  | nil => simp [gather]
  | cons a rest ih =>
      rw [gather]
      cases ha : answer a with
      | error e' =>
          constructor
          · intro h
            cases h
            exact ⟨[], a, rest, rfl, by simp, ha⟩
          · rintro ⟨before, b, after, hitems, hbefore, hb⟩
            cases before with
            | nil =>
                cases hitems
                exact ha.symm.trans hb
            | cons c before =>
                cases hitems
                obtain ⟨bs, hbs⟩ := hbefore a List.mem_cons_self
                cases ha.symm.trans hbs
      | ok first =>
          simp only [map_eq_error_iff, ih]
          constructor
          · rintro ⟨before, b, after, rfl, hbefore, hb⟩
            exact ⟨a :: before, b, after, rfl,
              List.forall_mem_cons.2 ⟨⟨first, ha⟩, hbefore⟩, hb⟩
          · rintro ⟨before, b, after, hitems, hbefore, hb⟩
            cases before with
            | nil =>
                cases hitems
                cases ha.symm.trans hb
            | cons c before =>
                cases hitems
                exact ⟨before, b, after, rfl, (List.forall_mem_cons.1 hbefore).2, hb⟩

/-- Answers for all items of a list are answers one by one. -/
theorem mapM_eq_ok_iff {f : α → Except ε β} {as : List α} {bs : List β} :
    as.mapM f = .ok bs ↔ as.map f = bs.map .ok := by
  induction as generalizing bs with
  | nil => cases bs <;> simp [pure, Except.pure]
  | cons a as ih =>
      rw [List.mapM_cons, List.map_cons]
      cases bs with
      | nil =>
          cases f a with
          | error e => simp [bind, Except.bind]
          | ok b => cases as.mapM f <;> simp [bind, Except.bind, pure, Except.pure]
      | cons c cs =>
          cases ha : f a with
          | error e => simp [bind, Except.bind]
          | ok b =>
              rw [List.map_cons, List.cons.injEq, Except.ok.injEq, ← @ih cs]
              cases as.mapM f <;> simp [bind, Except.bind, pure, Except.pure]

/-! ## Results that agree -/

/-- Two results agree if both are answers that are related, or both the same failure. -/
inductive Agree {α β ε : Type} (R : α → β → Prop) : Except ε α → Except ε β → Prop
  | ok {a : α} {b : β} (h : R a b) : Agree R (.ok a) (.ok b)
  | error (e : ε) : Agree R (.error e) (.error e)

namespace Agree

variable {φ : Type} {R : α → β → Prop} {S : γ → δ → Prop} {r : Except ε α} {s : Except ε β}

theorem cases (h : Agree R r s) :
    (∃ a b, r = .ok a ∧ s = .ok b ∧ R a b) ∨ ∃ e, r = .error e ∧ s = .error e := by
  cases h with
  | ok h => exact .inl ⟨_, _, rfl, rfl, h⟩
  | error e => exact .inr ⟨e, rfl, rfl⟩

/-- Results with the same image agree in it. -/
theorem of_map_eq {f : α → γ} {g : β → γ} (h : r.map f = s.map g) :
    Agree (fun a b => f a = g b) r s := by
  cases r with
  | error e =>
      rw [map_eq_error_iff.1 h.symm]
      exact .error e
  | ok a =>
      obtain ⟨b, rfl, hb⟩ := map_eq_ok_iff.1 h.symm
      exact .ok hb.symm

theorem map {f : α → γ} {g : β → δ} (h : Agree R r s) (hfg : ∀ a b, R a b → S (f a) (g b)) :
    Agree S (r.map f) (s.map g) := by
  cases h with
  | ok h => exact .ok (hfg _ _ h)
  | error e => exact .error e

theorem mapError (f : ε → φ) (h : Agree R r s) : Agree R (r.mapError f) (s.mapError f) := by
  cases h with
  | ok h => exact .ok h
  | error e => exact .error (f e)

theorem bind {f : α → Except ε γ} {g : β → Except ε δ} (h : Agree R r s)
    (hfg : ∀ a b, R a b → Agree S (f a) (g b)) : Agree S (r.bind f) (s.bind g) := by
  cases h with
  | ok h => exact hfg _ _ h
  | error e => exact .error e

end Agree

end TreePatch.Result
