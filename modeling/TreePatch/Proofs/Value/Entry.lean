import TreePatch.Proofs.Value.Domain

set_option autoImplicit false

/-!
# Actions on one entry of an object

Whatever an edit does at or below a member of an object, the object sees little of it: the edit
reads the entry of one name, and then writes this entry or takes the name out (`Members.put`). An
action of this kind is given by a function on entries (`ActsOnEntry`), and every edit at a path
through an object is one (`exists_actsOnEntry_add` and its siblings).

Two such actions at different names do not see each other. So they succeed in either order or in
none, and what they leave differs at most in the order of the members
(`ActsOnEntry.exists_bind_comm`, `ActsOnEntry.permutedAt_of_bind`).
-/

namespace TreePatch

namespace Members

variable {α : Type} {ms : Members α} {k l : Text} {a b : α}

/-! ## Writing an entry or taking it out -/

/-- Write an entry under a name, or take the name out. -/
def put (ms : Members α) (key : Text) : Option α → Members α
  | none => erase ms key
  | some a => insert ms key a

/-- Writing one name leaves the entries of all others. -/
theorem get?_put_of_ne (h : k ≠ l) (ms : Members α) (entry : Option α) :
    get? (put ms k entry) l = get? ms l := by
  cases entry with
  | none => exact get?_erase_of_ne h ms
  | some a => rw [put, get?_insert, if_neg h]

/-- Inserting under a name that is present is updating it. -/
theorem insert_eq_update (h : (get? ms k).isSome = true) (b : α) :
    insert ms k b = update ms k b := by
  induction ms with
  | nil => cases h
  | cons m rest ih =>
      obtain ⟨j, c⟩ := m
      by_cases hj : j = k
      · simp [insert, update, hj]
      · rw [get?_cons, if_neg hj] at h
        simp [insert, update, hj, ih h]

theorem put_of_get? (h : get? ms k = some a) : put ms k (some a) = ms := by
  rw [put, insert_eq_update (by rw [h]; rfl), update_of_get? h]

/-- Insertions of two names can be swapped up to the order of the members: two new names are
appended in the order in which they come. -/
theorem insert_insert_perm (h : k ≠ l) (ms : Members α) (a b : α) :
    (insert (insert ms k a) l b).Perm (insert (insert ms l b) k a) := by
  induction ms with
  | nil => simpa [insert, h, h.symm] using List.Perm.swap _ _ _
  | cons m rest ih =>
      obtain ⟨j, c⟩ := m
      by_cases hk : j = k
      · subst hk
        simp [insert, h]
      · by_cases hl : j = l
        · subst hl
          simp [insert, hk]
        · simpa [insert, hk, hl] using ih

theorem erase_insert_of_ne (h : k ≠ l) (ms : Members α) (a : α) :
    erase (insert ms k a) l = insert (erase ms l) k a := by
  induction ms with
  | nil => simp [insert, erase, h]
  | cons m rest ih =>
      obtain ⟨j, c⟩ := m
      by_cases hk : j = k
      · subst hk
        simp [insert, erase, h]
      · by_cases hl : j = l
        · subst hl
          simp [insert, erase, hk]
        · simp [insert, erase, hk, hl, ih]

theorem erase_comm (ms : Members α) (k l : Text) :
    erase (erase ms k) l = erase (erase ms l) k := by
  induction ms with
  | nil => rfl
  | cons m rest ih =>
      obtain ⟨j, c⟩ := m
      by_cases hk : j = k
      · subst hk
        by_cases hl : j = l
        · rw [hl]
        · simp [erase, hl]
      · by_cases hl : j = l
        · subst hl
          simp [erase, hk]
        · simp [erase, hk, hl, ih]

/-- Writes of two names can be swapped up to the order of the members. -/
theorem put_put_perm (h : k ≠ l) (ms : Members α) (e e' : Option α) :
    ((ms.put k e).put l e').Perm ((ms.put l e').put k e) := by
  cases e with
  | none =>
      cases e' with
      | none => rw [put, put, put, put, erase_comm]
      | some b => rw [put, put, put, put, erase_insert_of_ne h.symm]
  | some a =>
      cases e' with
      | none => rw [put, put, put, put, erase_insert_of_ne h]
      | some b => exact insert_insert_perm h ms a b

end Members

namespace Value

variable {ε : Type} {lift : Misstep → ε} {edit : Value → Segment → Except ε Value}
variable {d d' new : Value} {ms : Members Value} {s : Segment} {name k l : Text}
variable {steps rest : List Segment} {p : Path}
variable {f g : Option Value → Option (Option Value)}

/-! ## Actions -/

/-- Where some steps lead to an object, an action looks at the entry of one name and fails, or
writes this entry, or takes the name out, as the function on entries says. -/
def ActsOnEntry (f : Option Value → Option (Option Value)) (act : Value → Except ε Value)
    (steps : List Segment) (name : Text) : Prop :=
  ∀ d ms, d.follow steps = .ok (.object ms) → ∀ d', act d = .ok d' ↔
    ∃ entry, f (Members.get? ms name) = some entry ∧
      d.overwrite steps (.object (ms.put name entry)) = .ok d'

/-- One document is another but for the order of the members of one object. -/
def PermutedAt (steps : List Segment) (d d' : Value) : Prop :=
  ∃ ms ns, d.follow steps = .ok (.object ms) ∧ ms.Perm ns ∧
    d.overwrite steps (.object ns) = .ok d'

namespace ActsOnEntry

variable {act act' : Value → Except ε Value}

/-- Of two actions at different names in one object, each sees the entry of its name as it was
before both. -/
theorem bind_eq_ok_iff (h : ActsOnEntry f act steps k) (h' : ActsOnEntry g act' steps l)
    (hkl : k ≠ l) (hd : d.follow steps = .ok (.object ms)) :
    (act d).bind act' = .ok d' ↔ ∃ e e', f (Members.get? ms k) = some e ∧
      g (Members.get? ms l) = some e' ∧
      d.overwrite steps (.object ((ms.put k e).put l e')) = .ok d' := by
  rw [Result.bind_eq_ok_iff]
  -- What the second action reads and writes once the first has written.
  have second : ∀ {e d₁}, d.overwrite steps (.object (ms.put k e)) = .ok d₁ →
      (act' d₁ = .ok d' ↔ ∃ e', g (Members.get? ms l) = some e' ∧
        d.overwrite steps (.object ((ms.put k e).put l e')) = .ok d') := by
    intro e d₁ hd₁
    rw [h' d₁ _ (follow_overwrite hd₁), Members.get?_put_of_ne hkl]
    simp only [overwrite_overwrite hd₁]
  constructor
  · rintro ⟨d₁, hact, hact'⟩
    obtain ⟨e, he, hd₁⟩ := (h d ms hd d₁).1 hact
    obtain ⟨e', he', hd'⟩ := (second hd₁).1 hact'
    exact ⟨e, e', he, he', hd'⟩
  · rintro ⟨e, e', he, he', hd'⟩
    obtain ⟨d₁, hd₁⟩ := exists_overwrite_iff.2 ⟨_, hd⟩
    exact ⟨d₁, (h d ms hd d₁).2 ⟨e, he, hd₁⟩, (second hd₁).2 ⟨e', he', hd'⟩⟩

/-- If two actions at different names in one object succeed in one order, they do in the
other. -/
theorem exists_bind_comm (h : ActsOnEntry f act steps k) (h' : ActsOnEntry g act' steps l)
    (hkl : k ≠ l) (hd : d.follow steps = .ok (.object ms))
    (hok : ∃ r, (act d).bind act' = .ok r) : ∃ r, (act' d).bind act = .ok r := by
  obtain ⟨r, hr⟩ := hok
  obtain ⟨e, e', he, he', -⟩ := (h.bind_eq_ok_iff h' hkl hd).1 hr
  obtain ⟨r', hr'⟩ := exists_overwrite_iff.2 ⟨_, hd⟩
  exact ⟨r', (h'.bind_eq_ok_iff h hkl.symm hd).2 ⟨e', e, he', he, hr'⟩⟩

/-- What two actions at different names in one object leave in one order and in the other differs
at most in the order of the members of this object. -/
theorem permutedAt_of_bind (h : ActsOnEntry f act steps k) (h' : ActsOnEntry g act' steps l)
    (hkl : k ≠ l) (hd : d.follow steps = .ok (.object ms)) {r r' : Value}
    (hr : (act d).bind act' = .ok r) (hr' : (act' d).bind act = .ok r') :
    PermutedAt steps r r' := by
  obtain ⟨e, e', he, he', hw⟩ := (h.bind_eq_ok_iff h' hkl hd).1 hr
  obtain ⟨u', u, hu', hu, hw'⟩ := (h'.bind_eq_ok_iff h hkl.symm hd).1 hr'
  obtain rfl : e = u := Option.some.inj (he.symm.trans hu)
  obtain rfl : e' = u' := Option.some.inj (he'.symm.trans hu')
  refine ⟨_, _, follow_overwrite hw, Members.put_put_perm hkl ms e e', ?_⟩
  rw [overwrite_overwrite hw, hw']

end ActsOnEntry

/-! ## Edits of an object -/

theorem child_object_iff {c : Value} (hs : s.memberName? = some name) :
    (object ms).child s = .ok c ↔ Members.get? ms name = some c := by
  simp only [child, childOfMembers, hs]
  cases Members.get? ms name <;> simp

theorem setChild_object {c : Value} (hs : s.memberName? = some name)
    (hc : Members.get? ms name = some c) (new : Value) :
    (object ms).setChild s new = .object (ms.put name (some new)) := by
  simp only [setChild, hs, updateMember]
  rw [Members.put, Members.insert_eq_update (by rw [hc]; rfl)]

namespace ActsOnEntry

theorem insertChild (hs : s.memberName? = some name) (new : Value) :
    ActsOnEntry (fun _ => some (some new)) (fun v => v.insertChild s new) [] name := by
  intro v ms hv v'
  cases hv
  simp [Value.insertChild, hs, overwrite, Members.put]

theorem eraseChild (hs : s.memberName? = some name) :
    ActsOnEntry (fun entry => entry.map fun _ => none) (fun v => v.eraseChild s) [] name := by
  intro v ms hv v'
  cases hv
  simp only [eraseChild_eq_ok_iff, child_object_iff hs]
  cases Members.get? ms name <;> simp [dropChild, hs, overwrite, Members.put, eq_comm]

theorem writeChild (hs : s.memberName? = some name) (new : Value) :
    ActsOnEntry (fun entry => entry.map fun _ => some new) (fun v => v.writeChild s new) []
      name := by
  intro v ms hv v'
  cases hv
  simp only [writeChild_eq_ok_iff, child_object_iff hs]
  cases hc : Members.get? ms name with
  | none => simp
  | some c => simp [setChild_object hs hc, overwrite, eq_comm]

/-- An edit further below an object writes the entry through which it goes. -/
theorem editParent (lift : Misstep → ε) (edit : Value → Segment → Except ε Value)
    (hs : s.memberName? = some name) (h : ActsOnEntry f (fun v => edit v s) [] name)
    (rest : List Segment) :
    ∃ g, ActsOnEntry g (fun v => Value.editParent lift edit v s rest) [] name := by
  cases rest with
  | nil => exact ⟨f, h⟩
  | cons t rest =>
      refine ⟨fun entry => entry.bind fun c =>
        (Value.editParent lift edit c t rest).toOption.map some, ?_⟩
      intro v ms hv v'
      cases hv
      rw [editParent_cons_eq_ok_iff]
      constructor
      · rintro ⟨c, c', hc, he, rfl⟩
        have hget := (child_object_iff hs).1 hc
        refine ⟨some c', by simp [hget, he, Except.toOption], ?_⟩
        rw [setChild_object hs hget]
        rfl
      · rintro ⟨entry, hentry, hw⟩
        obtain ⟨c, hget, hc⟩ := Option.bind_eq_some_iff.1 hentry
        cases he : Value.editParent lift edit c t rest with
        | error e => simp [he, Except.toOption] at hc
        | ok c' =>
            obtain rfl : some c' = entry := by simpa [he, Except.toOption] using hc
            cases hw
            exact ⟨c, c', (child_object_iff hs).2 hget, he, (setChild_object hs hget c').symm⟩

/-! ## Edits at a path through an object -/

/-- What an edit does at an object on the way to its place, it does to the whole document. -/
theorem editAt {root : Value → Except Fault Value} {report : ε → Cause}
    (hconcrete : p.isConcrete = true) (hp : p.segments = steps ++ s :: rest)
    (h : ActsOnEntry f (fun v => Value.editParent lift edit v s rest) [] name) :
    ActsOnEntry f (fun d => Value.editAt root lift edit report d p) steps name := by
  intro d ms hd d'
  rw [editAt_eq_ok_iff hconcrete hp]
  constructor
  · rintro ⟨c, c', hc, he, hw⟩
    cases hd.symm.trans hc
    obtain ⟨entry, hentry, hc'⟩ := (h _ ms rfl c').1 he
    cases hc'
    exact ⟨entry, hentry, hw⟩
  · rintro ⟨entry, hentry, hw⟩
    exact ⟨_, _, hd, (h _ ms rfl _).2 ⟨entry, hentry, rfl⟩, hw⟩

end ActsOnEntry

section Edits

variable (hconcrete : p.isConcrete = true) (hp : p.segments = steps ++ s :: rest)
variable (hs : s.memberName? = some name)
include hconcrete hp hs

/-- An edit that acts on one entry of an object does so from anywhere above it, however far below
the entry its own place lies. -/
theorem exists_actsOnEntry_editAt {root : Value → Except Fault Value} {report : ε → Cause}
    (h : ActsOnEntry f (fun v => edit v s) [] name) :
    ∃ g, ActsOnEntry g (fun d => editAt root lift edit report d p) steps name := by
  obtain ⟨g, hg⟩ := ActsOnEntry.editParent lift edit hs h rest
  exact ⟨g, hg.editAt hconcrete hp⟩

theorem exists_actsOnEntry_add (new : Value) :
    ∃ f, ActsOnEntry f (fun d => d.add p new) steps name := by
  simp only [add_eq_editAt]
  exact exists_actsOnEntry_editAt hconcrete hp hs (.insertChild hs new)

theorem exists_actsOnEntry_remove : ∃ f, ActsOnEntry f (fun d => d.remove p) steps name := by
  simp only [remove_eq_editAt]
  exact exists_actsOnEntry_editAt hconcrete hp hs (.eraseChild hs)

theorem exists_actsOnEntry_replace (new : Value) :
    ∃ f, ActsOnEntry f (fun d => d.replace p new) steps name := by
  simp only [replace_eq_editAt]
  exact exists_actsOnEntry_editAt hconcrete hp hs (.writeChild hs new)

end Edits

end Value

end TreePatch
