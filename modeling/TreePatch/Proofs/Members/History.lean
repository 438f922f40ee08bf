import Mathlib.Data.List.Induction
import Mathlib.Data.List.Nodup
import TreePatch.Members

set_option autoImplicit false

/-!
# Members and their history

What members look up, and in which order they list their names, is decided by the writes that led
to them. Every question about the outcome has an answer of one form: some write did what is asked
for, and none since undid it (`Since`). A history that is one write longer either ends in such a
write or continues a history that had one (`since_append_singleton`), so each answer is carried
through a run by what a single write does to a look-up and to the names.

This module provides:

* `Listed`, `LastWritten`, `EnteredAt`: a name is present, has a certain entry, and came in at a
  certain step, told from the history alone; and
* `run_history`: the run shows just that.
-/

namespace TreePatch.Members

variable {α : Type}

/-! ## Histories -/

/-- The name that a write is about. -/
def Edit.key : Edit α → Text
  | .insert key _ => key
  | .update key _ => key
  | .erase key => key

/-- Some write did what is asked for, given those before it, and all that followed kept it. -/
def Since (did : List (Edit α) → Edit α → Prop) (kept : Edit α → Prop)
    (history : List (Edit α)) : Prop :=
  ∃ before e after, history = before ++ e :: after ∧ did before e ∧ ∀ e' ∈ after, kept e'

/-- The name was inserted and has not been erased since. -/
def Listed (history : List (Edit α)) (k : Text) : Prop :=
  Since (fun _ e => ∃ a, e = .insert k a) (· ≠ .erase k) history

/-- The last write about the name was one of this entry: an insertion, or an update that found the
name. -/
def LastWritten (history : List (Edit α)) (k : Text) (a : α) : Prop :=
  Since (fun before e => e = .insert k a ∨ e = .update k a ∧ Listed before k) (·.key ≠ k) history

/-- Step `n` inserted the name while it was absent, and it has not been erased since. -/
def EnteredAt (history : List (Edit α)) (k : Text) (n : Nat) : Prop :=
  Since (fun before e => before.length = n ∧ ¬ Listed before k ∧ ∃ a, e = .insert k a)
    (· ≠ .erase k) history

/-! ## One more write -/

section Since

variable {did : List (Edit α) → Edit α → Prop} {kept : Edit α → Prop} {history : List (Edit α)}
  {e : Edit α}

theorem not_since_nil : ¬ Since did kept [] := by
  rintro ⟨before, e, after, h, -⟩
  simp at h

/-- Either the last write did it, or an earlier one did and the last write kept it. -/
theorem since_append_singleton :
    Since did kept (history ++ [e]) ↔ did history e ∨ Since did kept history ∧ kept e := by
  constructor
  · rintro ⟨before, x, after, h, hdid, hkept⟩
    rcases List.eq_nil_or_concat after with rfl | ⟨after, y, rfl⟩
    · obtain ⟨rfl, he⟩ := List.append_inj' h rfl
      cases he
      exact .inl hdid
    · rw [List.concat_eq_append, ← List.cons_append, ← List.append_assoc] at h
      obtain ⟨rfl, he⟩ := List.append_inj' h rfl
      cases he
      exact .inr ⟨⟨before, x, after, rfl, hdid, fun e' he' => hkept e' (by simp [he'])⟩,
        hkept e (by simp)⟩
  · rintro (hdid | ⟨⟨before, x, after, rfl, hdid, hkept⟩, he⟩)
    · exact ⟨history, e, [], rfl, hdid, by simp⟩
    · refine ⟨before, x, after ++ [e], by simp, hdid, fun e' he' => ?_⟩
      rcases List.mem_append.1 he' with he' | he'
      · exact hkept e' he'
      · exact List.mem_singleton.1 he' ▸ he

end Since

section Step

variable {history : List (Edit α)} {e : Edit α} {k : Text} {a : α} {n : Nat}

theorem listed_append_singleton :
    Listed (history ++ [e]) k ↔ (∃ a, e = .insert k a) ∨ Listed history k ∧ e ≠ .erase k :=
  since_append_singleton

theorem lastWritten_append_singleton :
    LastWritten (history ++ [e]) k a ↔
      (e = .insert k a ∨ e = .update k a ∧ Listed history k) ∨
        LastWritten history k a ∧ e.key ≠ k :=
  since_append_singleton

theorem enteredAt_append_singleton :
    EnteredAt (history ++ [e]) k n ↔
      (history.length = n ∧ ¬ Listed history k ∧ ∃ a, e = .insert k a) ∨
        EnteredAt history k n ∧ e ≠ .erase k :=
  since_append_singleton

end Step

/-! ## The step at which a name came in -/

section Entering

variable {history : List (Edit α)} {k : Text} {m n : Nat}

theorem EnteredAt.listed (h : EnteredAt history k n) : Listed history k := by
  obtain ⟨before, e, after, hsplit, ⟨-, -, hinsert⟩, hkept⟩ := h
  exact ⟨before, e, after, hsplit, hinsert, hkept⟩

theorem EnteredAt.lt_length (h : EnteredAt history k n) : n < history.length := by
  obtain ⟨before, e, after, rfl, ⟨rfl, -⟩, -⟩ := h
  simp

/-- A name does not come in while it is present. -/
theorem EnteredAt.unique (hm : EnteredAt history k m) (hn : EnteredAt history k n) : m = n := by
  induction history using List.reverseRecOn with
  | nil => exact absurd hm not_since_nil
  | append_singleton history e ih =>
      rw [enteredAt_append_singleton] at hm hn
      rcases hm with ⟨hm, habsent, -⟩ | ⟨hm, -⟩ <;> rcases hn with ⟨hn, habsent', -⟩ | ⟨hn, -⟩
      · exact hm.symm.trans hn
      · exact absurd hn.listed habsent
      · exact absurd hm.listed habsent'
      · exact ih hm hn

/-- A name that is present came in at some step. -/
theorem exists_enteredAt (h : Listed history k) : ∃ n, EnteredAt history k n := by
  induction history using List.reverseRecOn with
  | nil => exact absurd h not_since_nil
  | append_singleton history e ih =>
      simp only [enteredAt_append_singleton]
      by_cases hlisted : Listed history k
      · have hkept : e ≠ .erase k := by
          rcases listed_append_singleton.1 h with ⟨a, rfl⟩ | ⟨-, hkept⟩
          · exact nofun
          · exact hkept
        obtain ⟨n, hn⟩ := ih hlisted
        exact ⟨n, .inr ⟨hn, hkept⟩⟩
      · rcases listed_append_singleton.1 h with hinsert | ⟨hlisted', -⟩
        · exact ⟨history.length, .inl ⟨rfl, hlisted, hinsert⟩⟩
        · exact absurd hlisted' hlisted

end Entering

/-! ## Runs -/

/-- The members after all writes of a history. -/
def run (history : List (Edit α)) : Members α := history.foldl Edit.run []

@[simp] theorem run_append_singleton (history : List (Edit α)) (e : Edit α) :
    run (history ++ [e]) = e.run (run history) := by
  rw [run, List.foldl_append]
  rfl

/-- Listing entries at the start is inserting them one after another. -/
theorem foldl_run_ofList (entries : List (Text × α)) (edits : List (Edit α)) :
    edits.foldl Edit.run (ofList entries) =
      run (entries.map (fun m => Edit.insert m.1 m.2) ++ edits) := by
  rw [run, List.foldl_append, List.foldl_map]
  rfl

theorem Distinct.run_edit {ms : Members α} (h : Distinct ms) (e : Edit α) :
    Distinct (e.run ms) := by
  cases e with
  | insert key a => exact h.insert key a
  | update key a => exact h.update key a
  | erase key => exact h.erase key

theorem distinct_run (history : List (Edit α)) : Distinct (run history) := by
  induction history using List.reverseRecOn with
  | nil => exact List.nodup_nil
  | append_singleton history e ih =>
      rw [run_append_singleton]
      exact ih.run_edit e

/-- A run lists the names that were inserted and not erased since. -/
theorem mem_keys_run_iff {history : List (Edit α)} {k : Text} :
    k ∈ keys (run history) ↔ Listed history k := by
  induction history using List.reverseRecOn with
  | nil => exact iff_of_false List.not_mem_nil not_since_nil
  | append_singleton history e ih =>
      rw [run_append_singleton, listed_append_singleton, ← ih]
      cases e with
      | insert key a =>
          rw [Edit.run, keys_insert]
          split
          · rename_i hkey
            constructor
            · exact fun hk => .inr ⟨hk, nofun⟩
            · rintro (⟨_, h⟩ | ⟨hk, -⟩)
              · cases h
                exact hkey
              · exact hk
          · simp [or_comm, eq_comm]
      | update key a => simp [Edit.run]
      | erase key =>
          rw [Edit.run, keys_erase, (distinct_run history).mem_erase_iff]
          simp [and_comm, eq_comm]

/-- A run looks up what was written last. -/
theorem get?_run_iff {history : List (Edit α)} {k : Text} {a : α} :
    get? (run history) k = some a ↔ LastWritten history k a := by
  induction history using List.reverseRecOn with
  | nil => exact iff_of_false nofun not_since_nil
  | append_singleton history e ih =>
      rw [run_append_singleton, lastWritten_append_singleton, ← ih, ← mem_keys_run_iff]
      cases e with
      | insert key b =>
          rw [Edit.run, get?_insert]
          by_cases hkey : key = k <;> simp [hkey, Edit.key]
      | update key b =>
          rw [Edit.run, get?_update]
          by_cases hkey : key = k
          · subst hkey
            by_cases hlisted : key ∈ keys (run history)
            · simp [hlisted, Edit.key]
            · simp [hlisted, Edit.key, get?_eq_none_iff.2 hlisted]
          · simp [hkey, Edit.key]
      | erase key =>
          rw [Edit.run, get?_erase (distinct_run history)]
          by_cases hkey : key = k <;> simp [hkey, Edit.key]

/-- A run lists the names in the order in which they came in. -/
theorem keys_run_pairwise (history : List (Edit α)) :
    (keys (run history)).Pairwise fun k l =>
      ∀ m n, EnteredAt history k m → EnteredAt history l n → m < n := by
  induction history using List.reverseRecOn with
  | nil => exact .nil
  | append_singleton history e ih =>
      rw [run_append_singleton]
      -- A name that was present came in when it had come in before.
      have hstays : ∀ k ∈ keys (run history), ∀ n, EnteredAt (history ++ [e]) k n →
          EnteredAt history k n := by
        intro k hk n hn
        rcases enteredAt_append_singleton.1 hn with ⟨-, habsent, -⟩ | ⟨hn, -⟩
        · exact absurd (mem_keys_run_iff.1 hk) habsent
        · exact hn
      have hold := ih.imp_of_mem fun {k l} hk hl h m n hm hn =>
        h m n (hstays k hk m hm) (hstays l hl n hn)
      cases e with
      | update key a => rwa [Edit.run, keys_update]
      | erase key =>
          rw [Edit.run, keys_erase]
          exact hold.sublist List.erase_sublist
      | insert key a =>
          rw [Edit.run, keys_insert]
          split
          · exact hold
          · rename_i hkey
            refine List.pairwise_append.2 ⟨hold, List.pairwise_singleton _ _, ?_⟩
            intro k hk l hl m n hm hn
            obtain rfl := List.mem_singleton.1 hl
            rcases enteredAt_append_singleton.1 hn with ⟨rfl, -⟩ | ⟨hn, -⟩
            · exact (hstays k hk m hm).lt_length
            · exact absurd (mem_keys_run_iff.2 hn.listed) hkey

/-- Members that are listed at the start and then written to, one write after another, are what
their history says: a name has the entry that was last written to it and is absent if it was not
inserted since it was last erased; the names that are present are listed once each, in the order
of the steps at which they came in; and the next writer is told what the history says about the
name. -/
theorem run_history (entries : List (Text × α)) (edits : List (Edit α)) :
    let ms := edits.foldl Edit.run (ofList entries)
    let history := entries.map (fun m => Edit.insert m.1 m.2) ++ edits
    (∀ k a, get? ms k = some a ↔ LastWritten history k a) ∧
    (∀ k, get? ms k = none ↔ ¬ Listed history k) ∧
    (∀ k, k ∈ keys ms ↔ Listed history k) ∧
    (keys ms).Nodup ∧
    (∀ k ∈ keys ms, ∃! n, EnteredAt history k n) ∧
    ((keys ms).Pairwise fun k l =>
      ∀ m n, EnteredAt history k m → EnteredAt history l n → m < n) ∧
    (∀ k a, Edit.answer ms (.insert k a) = true ↔ ¬ Listed history k) ∧
    (∀ k a, Edit.answer ms (.update k a) = true ↔ Listed history k) ∧
    (∀ k, Edit.answer ms (.erase k) = true ↔ Listed history k) ∧
    ms.length = (keys ms).length := by
  intro ms history
  have hms : ms = run history := foldl_run_ofList entries edits
  rw [hms]
  have hcontains : ∀ k, contains (run history) k = true ↔ Listed history k :=
    fun k => contains_iff.trans mem_keys_run_iff
  refine ⟨fun k a => get?_run_iff, fun k => get?_eq_none_iff.trans mem_keys_run_iff.not,
    fun k => mem_keys_run_iff, distinct_run history, fun k hk => ?_, keys_run_pairwise history,
    fun k a => ?_, fun k a => hcontains k, fun k => hcontains k, (List.length_map _).symm⟩
  · obtain ⟨n, hn⟩ := exists_enteredAt (mem_keys_run_iff.1 hk)
    exact ⟨n, hn, fun m hm => hm.unique hn⟩
  · rw [Edit.answer, Bool.not_eq_true', ← hcontains, Bool.not_eq_true]

-- A name that is written again keeps its place, one that is taken out and put back loses it.
example : keys ([Edit.insert (utf8 "a") 3, .erase (utf8 "b"), .insert (utf8 "b") 4].foldl Edit.run
    (ofList [(utf8 "a", 1), (utf8 "b", 2), (utf8 "c", 3)])) = [utf8 "a", utf8 "c", utf8 "b"] := by
  decide

end TreePatch.Members
