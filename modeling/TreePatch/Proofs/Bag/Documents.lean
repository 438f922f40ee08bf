import TreePatch.Proofs.Bag.Matching
import TreePatch.Proofs.Value.Transitivity

set_option autoImplicit false

/-!
# Lists of documents that match in some order

Documents compare as an equivalence does, but for floating-point numbers that stand for two
integers at once. Where none of the documents conflates two integers of others, those that are
equal to one document are equal to the same documents (`coherent_of_not_conflates`), which is what
it takes for the order of the lists not to matter (`equalsUnordered_documents`). Where one does, it
may matter: which of two integers a rounded number claims depends on which comes first
(`not_forall_equalsUnordered_documents_of_perm`).
-/

namespace TreePatch.Bag

open Value

variable {as bs : List Value}

/-- If no document conflates two integers of others, documents equal to a common one are equal to
the same documents. -/
theorem coherent_of_not_conflates (hwell : ∀ v ∈ as ++ bs, v.WellFormed)
    (hexact : ∀ u ∈ as ++ bs, ∀ v ∈ as ++ bs, ∀ w ∈ as ++ bs, ¬ v.Conflates u w) :
    Coherent Value.equals as bs := by
  refine coherent_of_imp fun x hx x' hx' y hy hxy hx'y y' hy' hxy' => ?_
  have hx := List.mem_append_left bs hx
  have hx' := List.mem_append_left bs hx'
  have hy := List.mem_append_right as hy
  have hy' := List.mem_append_right as hy'
  have hyx := equals_symm (hwell x hx) (hwell y hy) hxy
  have hx'x := equals_trans_of_not_conflates (hwell x' hx') hx'y hyx (hexact x' hx' y hy x hx)
  exact equals_trans_of_not_conflates (hwell x' hx') hx'x hxy' (hexact x' hx' x hx y' hy')

/-- The order of two lists of documents does not matter exactly if documents of the first that are
equal to a common one of the second are equal to the same ones of it, or the lists do not match in
any order. The former is so if none of the documents conflates two integers of others; then the
lists match exactly if their positions can be paired off with equal documents. A NaN does no harm. -/
theorem equalsUnordered_documents (hwell : ∀ v ∈ as ++ bs, v.WellFormed) :
    ((∀ as' bs', as.Perm as' → bs.Perm bs' →
        equalsUnordered Value.equals as' bs' = equalsUnordered Value.equals as bs) ↔
      Coherent Value.equals as bs ∨ ¬ Matched Value.equals as bs) ∧
    ((∀ u ∈ as ++ bs, ∀ v ∈ as ++ bs, ∀ w ∈ as ++ bs, ¬ v.Conflates u w) →
      Coherent Value.equals as bs ∧
        (equalsUnordered Value.equals as bs = true ↔ Matched Value.equals as bs)) := by
  refine ⟨forall_equalsUnordered_perm_iff, fun hexact => ?_⟩
  have hcoherent := coherent_of_not_conflates hwell hexact
  exact ⟨hcoherent, equalsUnordered_iff_matched hcoherent⟩

/-- A rounded integer among the documents does no harm as long as it stands for one integer. -/
theorem equalsUnordered_documents_rounded :
    let next : Value := .number (.unsigned 9007199254740993)
    let rounded : Value := .number (.binary ⟨0x4340000000000000⟩)
    let as : List Value := [next, .null, rounded]
    let bs : List Value := [.null, rounded, next]
    (∀ v ∈ as ++ bs, v.WellFormed) ∧
      (∀ u ∈ as ++ bs, ∀ v ∈ as ++ bs, ∀ w ∈ as ++ bs, ¬ v.Conflates u w) ∧
      equalsUnordered Value.equals as bs = true ∧
      equalsUnordered Value.equals [rounded, next, .null] [rounded, .null, next] = true := by
  intro next rounded as bs
  have hwell : ∀ v ∈ as ++ bs, v.WellFormed := by decide
  have hleaf : ∀ v ∈ as ++ bs, v = next ∨ v = .null ∨ v = rounded := by simp [as, bs]
  -- There is one integer, so there are no two.
  have hone : ∀ v ∈ as ++ bs, ∀ steps n i, v.follow steps = .ok (.number n) →
      n.integer? = some i → i = 9007199254740993 := by
    intro v hv steps n i hn hi
    have hnumber : v = .number n := by
      cases steps with
      | nil => exact Except.ok.inj hn
      | cons step rest => rcases hleaf v hv with rfl | rfl | rfl <;> cases step <;> cases hn
    rcases hleaf v hv with rfl | rfl | rfl
    · obtain rfl := Value.number.inj hnumber
      exact (Option.some.inj hi).symm
    · exact Value.noConfusion hnumber
    · obtain rfl := Value.number.inj hnumber
      cases hi
  have hexact : ∀ u ∈ as ++ bs, ∀ v ∈ as ++ bs, ∀ w ∈ as ++ bs, ¬ v.Conflates u w := by
    rintro u hu v - w hw ⟨steps, m, n, i, j, x, hm, -, hn, hi, hj, hij, -⟩
    exact hij ((hone u hu steps m i hm hi).trans (hone w hw steps n j hn hj).symm)
  obtain ⟨horder, hcoherent⟩ := equalsUnordered_documents hwell
  have hmatch : equalsUnordered Value.equals as bs = true := by decide
  have hperm := horder.2 (.inl (hcoherent hexact).1) [rounded, next, .null] [rounded, .null, next]
  exact ⟨hwell, hexact, hmatch, (hperm (by decide) (by decide)).trans hmatch⟩

/-- A rounded number claims the first of two integers, and so may take the only one that the
other integer is equal to. -/
theorem not_forall_equalsUnordered_documents_of_perm :
    ¬ ∀ as bs as' bs' : List Value, (∀ v ∈ as ++ bs, v.WellFormed) →
      (∀ v ∈ as ++ bs, v.holdsNaN = false) → as.Perm as' → bs.Perm bs' →
      equalsUnordered Value.equals as' bs' = equalsUnordered Value.equals as bs := by
  intro h
  let power : Value := .number (.signed 9007199254740992)
  let next : Value := .number (.signed 9007199254740993)
  let rounded : Value := .number (.binary ⟨0x4340000000000000⟩)
  exact absurd (h [rounded, power] [power, next] [rounded, power] [next, power] (by decide)
    (by decide) (.refl _) (.swap _ _ _)) (by decide)

end TreePatch.Bag
