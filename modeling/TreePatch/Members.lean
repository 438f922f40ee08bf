import TreePatch.Text.Basic

set_option autoImplicit false

/-!
# Members: named entries in insertion order

The members of an object are a list of names with their entries. A name is looked
up at its first occurrence. Writing to a present name overwrites the entry where
it stands, writing to an absent one appends, so a list that is built by writing
names each entry once (`Distinct`) and keeps the order in which names first came.

This module provides:

* `get?`, `contains`, `keys`: the views of a list of members;
* `insert`, `update`, `erase`, `fill`: the ways to write one; and
* `Edit`, a single write as a value, with the answer that the writer is given.
-/

namespace TreePatch

/-- Named entries in the order of their first insertion. -/
abbrev Members (α : Type) := List (Text × α)

namespace Members

variable {α : Type}

/-! ## Views -/

/-- The entry of a name. -/
def get? : Members α → Text → Option α
  | [], _ => none
  | (k, a) :: rest, key => if k = key then some a else get? rest key

/-- Is the name present? -/
def contains (ms : Members α) (key : Text) : Bool := (get? ms key).isSome

/-- The names in order. -/
def keys (ms : Members α) : List Text := ms.map Prod.fst

/-- No name occurs twice. -/
def Distinct (ms : Members α) : Prop := (keys ms).Nodup

instance (ms : Members α) : Decidable (Distinct ms) :=
  inferInstanceAs (Decidable (keys ms).Nodup)

/-! ## Writing -/

/-- Overwrite the entry of a name where it stands, or append a new member. -/
def insert : Members α → Text → α → Members α
  | [], key, a => [(key, a)]
  | (k, old) :: rest, key, a =>
      if k = key then (k, a) :: rest else (k, old) :: insert rest key a

/-- Overwrite the entry of a name that is present. An absent name stays absent. -/
def update : Members α → Text → α → Members α
  | [], _, _ => []
  | (k, old) :: rest, key, a =>
      if k = key then (k, a) :: rest else (k, old) :: update rest key a

/-- Take the member of a name out. -/
def erase : Members α → Text → Members α
  | [], _ => []
  | (k, a) :: rest, key => if k = key then rest else (k, a) :: erase rest key

/-- Give every member the same entry. -/
def fill (ms : Members α) (a : α) : Members α := ms.map fun m => (m.1, a)

/-- The members that are left after writing entries one after another. -/
def ofList (entries : List (Text × α)) : Members α :=
  entries.foldl (fun ms m => insert ms m.1 m.2) []

/-! ## Single writes -/

/-- One write to a list of members. -/
inductive Edit (α : Type) where
  /-- Write an entry under a name, present or not. -/
  | insert (key : Text) (entry : α)
  /-- Write an entry under a name that is present. -/
  | update (key : Text) (entry : α)
  /-- Take a name out. -/
  | erase (key : Text)

/-- The members after a write. -/
def Edit.run (ms : Members α) : Edit α → Members α
  | .insert key a => Members.insert ms key a
  | .update key a => Members.update ms key a
  | .erase key => Members.erase ms key

/-- What the writer is told: for `insert` that the name is new, for the other two
that it was present. -/
def Edit.answer (ms : Members α) : Edit α → Bool
  | .insert key _ => !contains ms key
  | .update key _ => contains ms key
  | .erase key => contains ms key

/-! ## What a write does to a look-up -/

@[simp] theorem get?_nil (key : Text) : get? ([] : Members α) key = none := rfl

theorem get?_cons (k : Text) (a : α) (rest : Members α) (key : Text) :
    get? ((k, a) :: rest) key = if k = key then some a else get? rest key := rfl

/-- A name has an entry exactly when it is listed. -/
theorem isSome_get?_iff {ms : Members α} {key : Text} :
    (get? ms key).isSome = true ↔ key ∈ keys ms := by
  induction ms with
  | nil => simp [keys]
  | cons m rest ih =>
      obtain ⟨k, a⟩ := m
      by_cases h : k = key
      · simp [get?_cons, h, keys]
      · have hne : key ≠ k := fun e => h e.symm
        simp only [get?_cons, if_neg h, ih]
        simp [keys, hne]

theorem contains_iff {ms : Members α} {key : Text} : contains ms key = true ↔ key ∈ keys ms :=
  isSome_get?_iff

/-- A name is listed exactly when it has an entry. -/
theorem mem_keys_iff {ms : Members α} {key : Text} :
    key ∈ keys ms ↔ ∃ a, get? ms key = some a := by
  rw [← isSome_get?_iff, Option.isSome_iff_exists]

theorem get?_eq_none_iff {ms : Members α} {key : Text} :
    get? ms key = none ↔ key ∉ keys ms := by
  rw [← isSome_get?_iff]
  cases get? ms key <;> simp

/-- An entry that is looked up is the entry of a member. -/
theorem mem_of_get? {ms : Members α} {key : Text} {a : α} (h : get? ms key = some a) :
    (key, a) ∈ ms := by
  induction ms with
  | nil => simp at h
  | cons m rest ih =>
      obtain ⟨k, b⟩ := m
      rw [get?_cons] at h
      by_cases hk : k = key
      · rw [if_pos hk] at h
        cases h
        exact hk ▸ List.mem_cons_self
      · rw [if_neg hk] at h
        exact List.mem_cons_of_mem _ (ih h)

/-- In distinct members the entry of a member is what its name looks up. -/
theorem get?_of_mem {ms : Members α} (h : Distinct ms) {k : Text} {a : α}
    (hm : (k, a) ∈ ms) : get? ms k = some a := by
  induction ms with
  | nil => cases hm
  | cons m rest ih =>
      obtain ⟨l, b⟩ := m
      have hl : l ∉ keys rest := (List.nodup_cons.1 h).1
      have hrest : Distinct rest := (List.nodup_cons.1 h).2
      rw [get?_cons]
      rcases List.mem_cons.1 hm with heq | hm
      · cases heq
        exact if_pos rfl
      · have hne : l ≠ k := fun e => hl (e ▸ List.mem_map_of_mem hm)
        rw [if_neg hne]
        exact ih hrest hm

/-- The entry of a name stands where the name first occurs. -/
theorem getElem?_idxOf? {ms : Members α} {key : Text} {i : Nat}
    (h : (keys ms).idxOf? key = some i) : (ms[i]?).map Prod.snd = get? ms key := by
  induction ms generalizing i with
  | nil => cases h
  | cons m rest ih =>
      obtain ⟨k, a⟩ := m
      have hcons : keys ((k, a) :: rest) = k :: keys rest := rfl
      rw [hcons, List.idxOf?_cons] at h
      rw [get?_cons]
      by_cases hk : k = key
      · rw [if_pos (beq_iff_eq.2 hk)] at h
        cases h
        simp [hk]
      · rw [if_neg (by simpa using hk)] at h
        obtain ⟨j, hj, rfl⟩ := Option.map_eq_some_iff.1 h
        rw [if_neg hk, List.getElem?_cons_succ, ih hj]

/-- After an insertion the name has the new entry and all others keep theirs. -/
theorem get?_insert (ms : Members α) (key : Text) (a : α) (other : Text) :
    get? (insert ms key a) other = if key = other then some a else get? ms other := by
  induction ms with
  | nil => simp [insert, get?_cons]
  | cons m rest ih =>
      obtain ⟨k, old⟩ := m
      by_cases h : k = key
      · subst h
        by_cases ho : k = other <;> simp [insert, get?_cons, ho]
      · by_cases ho : k = other
        · subst ho
          simp [insert, get?_cons, h, Ne.symm h]
        · simp [insert, get?_cons, h, ho, ih]

/-- An insertion appends the name unless it is present. -/
theorem keys_insert (ms : Members α) (key : Text) (a : α) :
    keys (insert ms key a) = if key ∈ keys ms then keys ms else keys ms ++ [key] := by
  induction ms with
  | nil => simp [insert, keys]
  | cons m rest ih =>
      obtain ⟨k, old⟩ := m
      by_cases h : k = key
      · simp [insert, keys, h]
      · have hne : key ≠ k := fun e => h e.symm
        simp only [insert, if_neg h]
        have ih' : List.map Prod.fst (insert rest key a) = _ := ih
        simp only [keys, List.map_cons, ih', List.mem_cons, hne, false_or]
        split <;> simp_all [keys]

/-- An update changes no name. -/
@[simp] theorem keys_update (ms : Members α) (key : Text) (a : α) :
    keys (update ms key a) = keys ms := by
  induction ms with
  | nil => rfl
  | cons m rest ih =>
      obtain ⟨k, old⟩ := m
      by_cases h : k = key
      · simp [update, keys, h]
      · have ih' : List.map Prod.fst (update rest key a) = List.map Prod.fst rest := ih
        simp [update, keys, h, ih']

/-- After an update a present name has the new entry and all others keep theirs. -/
theorem get?_update (ms : Members α) (key : Text) (a : α) (other : Text) :
    get? (update ms key a) other =
      if key = other ∧ key ∈ keys ms then some a else get? ms other := by
  induction ms with
  | nil => simp [update, keys]
  | cons m rest ih =>
      obtain ⟨k, old⟩ := m
      by_cases h : k = key
      · subst h
        by_cases ho : k = other <;> simp [update, get?_cons, ho, keys]
      · by_cases ho : k = other
        · subst ho
          simp [update, get?_cons, h, Ne.symm h]
        · have hne : key ≠ k := fun e => h e.symm
          have hmem : key ∈ keys ((k, old) :: rest) ↔ key ∈ keys rest := by simp [keys, hne]
          simp only [update, if_neg h, get?_cons, if_neg ho, ih, hmem]

/-- Writing back what is there changes nothing. -/
theorem update_of_get? {ms : Members α} {key : Text} {a : α} (h : get? ms key = some a) :
    update ms key a = ms := by
  induction ms with
  | nil => rfl
  | cons m rest ih =>
      obtain ⟨k, old⟩ := m
      rw [get?_cons] at h
      by_cases hk : k = key
      · rw [if_pos hk] at h
        cases h
        simp [update, hk]
      · rw [if_neg hk] at h
        simp [update, hk, ih h]

/-- Of two updates of one name the second counts. -/
theorem update_update (ms : Members α) (key : Text) (a b : α) :
    update (update ms key a) key b = update ms key b := by
  induction ms with
  | nil => rfl
  | cons m rest ih =>
      obtain ⟨k, old⟩ := m
      by_cases hk : k = key
      · simp [update, hk]
      · simp [update, hk, ih]

/-- Updates of two names can be swapped. -/
theorem update_comm {key other : Text} (h : key ≠ other) (ms : Members α) (a b : α) :
    update (update ms key a) other b = update (update ms other b) key a := by
  induction ms with
  | nil => rfl
  | cons m rest ih =>
      obtain ⟨k, old⟩ := m
      by_cases hk : k = key
      · subst hk
        simp [update, h]
      · by_cases ho : k = other
        · subst ho
          simp [update, hk]
        · simp [update, hk, ho, ih]

/-- Erasing a name takes its first occurrence out of the names. -/
theorem keys_erase (ms : Members α) (key : Text) :
    keys (erase ms key) = (keys ms).erase key := by
  induction ms with
  | nil => rfl
  | cons m rest ih =>
      obtain ⟨k, a⟩ := m
      by_cases h : k = key
      · simp [erase, keys, h]
      · have ih' : List.map Prod.fst (erase rest key) = (List.map Prod.fst rest).erase key := ih
        simp [erase, keys, h, ih']

/-- After erasing a name all others keep their entries. -/
theorem get?_erase_of_ne {key other : Text} (h : key ≠ other) (ms : Members α) :
    get? (erase ms key) other = get? ms other := by
  induction ms with
  | nil => rfl
  | cons m rest ih =>
      obtain ⟨k, a⟩ := m
      by_cases hk : k = key
      · subst hk
        simp [erase, get?_cons, h]
      · simp [erase, get?_cons, hk, ih]

/-- After erasing a name from distinct members it is absent and all others keep
their entries. -/
theorem get?_erase {ms : Members α} (h : Distinct ms) (key other : Text) :
    get? (erase ms key) other = if key = other then none else get? ms other := by
  split
  · rename_i hkey
    rw [get?_eq_none_iff, keys_erase, ← hkey]
    exact List.Nodup.not_mem_erase h
  · rename_i hkey
    exact get?_erase_of_ne hkey ms

/-- Distinct members are determined by their names in order and what these look up. -/
theorem eq_of_keys_eq {ms ns : Members α} (hms : Distinct ms) (hkeys : keys ms = keys ns)
    (h : ∀ k a b, get? ms k = some a → get? ns k = some b → a = b) : ms = ns := by
  induction ms generalizing ns with
  | nil =>
      obtain rfl : ns = [] := List.map_eq_nil_iff.1 hkeys.symm
      rfl
  | cons m ms ih =>
      cases ns with
      | nil => cases hkeys
      | cons n ns =>
          obtain ⟨k, a⟩ := m
          obtain ⟨l, b⟩ := n
          obtain ⟨hk, hrest⟩ := List.cons.inj hkeys
          obtain rfl : k = l := hk
          obtain ⟨hfresh, hms⟩ := List.nodup_cons.1 hms
          obtain rfl : a = b := h k a b (by simp [get?_cons]) (by simp [get?_cons])
          rw [ih hms hrest fun l c d hc hd => ?_]
          have hl : k ≠ l := by
            rintro rfl
            exact hfresh (mem_keys_iff.2 ⟨c, hc⟩)
          exact h l c d (by rw [get?_cons, if_neg hl, hc]) (by rw [get?_cons, if_neg hl, hd])

/-! ## Where a write takes place -/

/-- A name that has an entry first occurs in front of it. -/
theorem exists_split_of_get? {ms : Members α} {key : Text} {a : α} (h : get? ms key = some a) :
    ∃ before after, ms = before ++ (key, a) :: after ∧ key ∉ keys before := by
  induction ms with
  | nil => cases h
  | cons m rest ih =>
      obtain ⟨k, b⟩ := m
      rw [get?_cons] at h
      by_cases hk : k = key
      · rw [if_pos hk] at h
        cases h
        exact ⟨[], rest, by rw [hk]; rfl, by simp [keys]⟩
      · rw [if_neg hk] at h
        obtain ⟨before, after, rfl, hbefore⟩ := ih h
        have hne : key ≠ k := fun e => hk e.symm
        exact ⟨(k, b) :: before, after, rfl, by simpa [keys, hne] using hbefore⟩

/-- Members of other names are passed over by an insertion. -/
theorem insert_append {before : Members α} {key : Text} (h : key ∉ keys before)
    (rest : Members α) (a : α) : insert (before ++ rest) key a = before ++ insert rest key a := by
  induction before with
  | nil => rfl
  | cons m before ih =>
      obtain ⟨k, b⟩ := m
      obtain ⟨hk, hbefore⟩ := List.ne_and_not_mem_of_not_mem_cons h
      rw [List.cons_append, insert, if_neg hk.symm, ih hbefore, List.cons_append]

/-- A new name is appended. -/
theorem insert_of_not_mem {ms : Members α} {key : Text} (h : key ∉ keys ms) (a : α) :
    insert ms key a = ms ++ [(key, a)] := by
  simpa [insert] using insert_append h [] a

/-- Members of other names are passed over by an erasure. -/
theorem erase_append {before : Members α} {key : Text} (h : key ∉ keys before)
    (rest : Members α) : erase (before ++ rest) key = before ++ erase rest key := by
  induction before with
  | nil => rfl
  | cons m before ih =>
      obtain ⟨k, b⟩ := m
      obtain ⟨hk, hbefore⟩ := List.ne_and_not_mem_of_not_mem_cons h
      rw [List.cons_append, erase, if_neg hk.symm, ih hbefore, List.cons_append]

/-- A listed name is overwritten where it first occurs. -/
theorem insert_split {before : Members α} {key : Text} (h : key ∉ keys before) (old : α)
    (after : Members α) (a : α) :
    insert (before ++ (key, old) :: after) key a = before ++ (key, a) :: after := by
  rw [insert_append h, insert, if_pos rfl]

/-- A listed name is erased where it first occurs. -/
theorem erase_split {before : Members α} {key : Text} (h : key ∉ keys before) (a : α)
    (after : Members α) : erase (before ++ (key, a) :: after) key = before ++ after := by
  rw [erase_append h, erase, if_pos rfl]

/-- Erasing a new name undoes its insertion. -/
theorem erase_insert_of_not_mem {ms : Members α} {key : Text} (h : key ∉ keys ms) (a : α) :
    erase (insert ms key a) key = ms := by
  rw [insert_of_not_mem h, erase_split h, List.append_nil]

/-! ## Names stay distinct -/

theorem Distinct.insert {ms : Members α} (h : Distinct ms) (key : Text) (a : α) :
    Distinct (insert ms key a) := by
  rw [Distinct, keys_insert]
  split
  · exact h
  · rename_i hkey
    exact List.nodup_append.2 ⟨h, by simp, fun x hx y hy => by
      rw [List.mem_singleton] at hy
      subst hy
      exact fun e => hkey (e ▸ hx)⟩

theorem Distinct.update {ms : Members α} (h : Distinct ms) (key : Text) (a : α) :
    Distinct (update ms key a) := by
  rwa [Distinct, keys_update]

theorem Distinct.erase {ms : Members α} (h : Distinct ms) (key : Text) :
    Distinct (erase ms key) := by
  rw [Distinct, keys_erase]
  exact List.Nodup.erase key h

end Members

end TreePatch
