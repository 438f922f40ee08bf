import Mathlib.Data.List.FinRange
import Mathlib.Data.List.Perm.Basic
import Mathlib.Logic.Equiv.Fin.Basic
import TreePatch.Bag

set_option autoImplicit false

/-!
# What it means that two lists match in some order

Claims are made by taking elements out, or as well by marking them
(`equalsUnordered_eq_claimAll`).

Lists match in some order if their positions can be paired off so that each element of the first
matches its partner (`Matched`). Where each element claims the first that it matches, success is
such a pairing (`matched_of_equalsUnordered`), whatever the predicate.

Failure is not that there is none: an element may claim the only match of a later one. It is if
elements that share one match share all (`Coherent`). For then whatever an element claims in place
of its partner, the one that has lost it can have that partner instead (`exists_exchange`), so
every claim leaves a pairing of the rest (`equalsUnordered_iff_matched`). Where there is a pairing
and the property fails, claims fail in some order and succeed in another
(`forall_equalsUnordered_perm_iff`). With an equivalence all this is a matter of how often each
class occurs (`equalsUnordered_iff_countP`).
-/

namespace TreePatch.Bag

variable {α β : Type} {eq : α → β → Bool} {xs xs' : List α} {ys ys' zs : List β} {y z : β}

/-! ## Claims kept as marks -/

section Marks

variable {x : α} {marked marked' : List (Bool × β)}

/-- Mark the first element that is not claimed yet and that an element matches. -/
def claim (eq : α → β → Bool) (x : α) : List (Bool × β) → Option (List (Bool × β))
  | [] => none
  | (claimed, y) :: rest =>
      if !claimed && eq x y then some ((true, y) :: rest)
      else (claim eq x rest).map ((claimed, y) :: ·)

/-- Does each element in turn find one to claim? -/
def claimAll (eq : α → β → Bool) : List α → List (Bool × β) → Bool
  | [], _ => true
  | x :: xs, marked => (claim eq x marked).any (claimAll eq xs)

/-- The elements that are not claimed yet. -/
def unclaimed (marked : List (Bool × β)) : List β := (marked.filter (!·.1)).map Prod.snd

@[simp] theorem unclaimed_cons_true (y : β) (rest : List (Bool × β)) :
    unclaimed ((true, y) :: rest) = unclaimed rest := rfl

@[simp] theorem unclaimed_cons_false (y : β) (rest : List (Bool × β)) :
    unclaimed ((false, y) :: rest) = y :: unclaimed rest := rfl

theorem isSome_claim : (claim eq x marked).isSome = (unclaimed marked).any (eq x) := by
  induction marked with
  | nil => rfl
  | cons m rest ih =>
      obtain ⟨claimed, y⟩ := m
      cases claimed with
      | true => simpa [claim] using ih
      | false => cases hxy : eq x y <;> simp [claim, hxy, ih]

/-- A claim takes the first match out of what is not claimed. -/
theorem unclaimed_of_claim (h : claim eq x marked = some marked') :
    unclaimed marked' = (unclaimed marked).eraseP (eq x) := by
  induction marked generalizing marked' with
  | nil => cases h
  | cons m rest ih =>
      obtain ⟨claimed, y⟩ := m
      rw [claim] at h
      split at h
      · rename_i hclaim
        obtain ⟨rfl, hxy⟩ : claimed = false ∧ eq x y = true := by simpa using hclaim
        cases h
        simp [hxy]
      · rename_i hpass
        obtain ⟨rest', hrest, rfl⟩ := Option.map_eq_some_iff.1 h
        cases claimed with
        | true => simpa using ih hrest
        | false =>
            have hxy : eq x y = false := by simpa using hpass
            simp [hxy, ih hrest]

/-- Marking a claimed element has the effect of taking it out. -/
theorem equalsUnordered_unclaimed (xs : List α) (marked : List (Bool × β)) :
    equalsUnordered eq xs (unclaimed marked) =
      (xs.length == (unclaimed marked).length && claimAll eq xs marked) := by
  induction xs generalizing marked with
  | nil => cases h : unclaimed marked <;> simp [equalsUnordered, claimAll]
  | cons x xs ih =>
      rw [equalsUnordered, claimAll, ← isSome_claim]
      cases hclaim : claim eq x marked with
      | none => simp
      | some marked' =>
          have hrest := unclaimed_of_claim hclaim
          have hany : (unclaimed marked).any (eq x) = true := by rw [← isSome_claim, hclaim]; rfl
          obtain ⟨y, hy, hxy⟩ := List.any_eq_true.1 hany
          have hlength := List.length_eraseP_of_mem hy hxy
          have hpos := List.length_pos_of_mem hy
          have hlengths : (xs.length == (unclaimed marked).length - 1) =
              ((x :: xs).length == (unclaimed marked).length) := by
            rw [Bool.eq_iff_iff, beq_iff_eq, beq_iff_eq, List.length_cons]
            omega
          rw [← hrest, ih, hrest, hlength, hlengths]
          rfl

/-- Lists match in some order if they are equally long and every claim succeeds. -/
theorem equalsUnordered_eq_claimAll (xs : List α) (ys : List β) :
    equalsUnordered eq xs ys =
      (xs.length == ys.length && claimAll eq xs (ys.map fun y => (false, y))) := by
  have hys : unclaimed (ys.map fun y => (false, y)) = ys := by
    induction ys with
    | nil => rfl
    | cons y ys ih => simp [ih]
  rw [← hys, equalsUnordered_unclaimed, hys]

end Marks

/-! ## Pairings -/

/-- The positions of two lists can be paired off so that elements match. -/
def Matched (eq : α → β → Bool) (xs : List α) (ys : List β) : Prop :=
  ∃ pair : Fin xs.length ≃ Fin ys.length, ∀ i, eq xs[i] ys[pair i] = true

/-- A permutation of a list pairs off the positions of equal elements. -/
theorem exists_equiv_of_perm {as bs : List α} (h : as.Perm bs) :
    ∃ pair : Fin as.length ≃ Fin bs.length, ∀ i, bs[pair i] = as[i] := by
  induction h with
  | nil => exact ⟨Equiv.refl _, fun i => rfl⟩
  | cons a _ ih =>
      obtain ⟨pair, h⟩ := ih
      refine ⟨(finSuccEquiv _).trans ((Equiv.optionCongr pair).trans (finSuccEquiv _).symm),
        fun i => ?_⟩
      cases i using Fin.cases with
      | zero => rfl
      | succ i => exact h i
  | swap a b as =>
      refine ⟨Equiv.swap (0 : Fin (as.length + 2)) 1, fun i => ?_⟩
      cases i using Fin.cases with
      | zero => rfl
      | succ i =>
          cases i using Fin.cases with
          | zero => rfl
          | succ i => rfl
  | trans _ _ ih ih' =>
      obtain ⟨pair, h⟩ := ih
      obtain ⟨pair', h'⟩ := ih'
      exact ⟨pair.trans pair', fun i => (h' (pair i)).trans (h i)⟩

/-- Lists match in some order if the second can be reordered to match the first in order. -/
theorem matched_iff_forall₂ :
    Matched eq xs ys ↔ ∃ zs, List.Forall₂ (fun x z => eq x z = true) xs zs ∧ zs.Perm ys := by
  constructor
  · rintro ⟨pair, h⟩
    refine ⟨(List.finRange xs.length).map fun i => ys[pair i], ?_, ?_⟩
    · rw [List.forall₂_iff_get]
      refine ⟨by simp, fun i hi _ => ?_⟩
      simpa using h ⟨i, hi⟩
    · have hpositions : ((List.finRange xs.length).map pair).Perm (List.finRange ys.length) := by
        rw [List.perm_ext_iff_of_nodup ((List.nodup_finRange _).map pair.injective)
          (List.nodup_finRange _)]
        exact fun j => iff_of_true (List.mem_map.2 ⟨pair.symm j, List.mem_finRange _, by simp⟩)
          (List.mem_finRange j)
      have hall : (List.finRange ys.length).map ys.get = ys := by
        rw [← List.ofFn_eq_map, List.ofFn_get]
      have helements := hpositions.map ys.get
      rw [hall, List.map_map] at helements
      exact helements
  · rintro ⟨zs, hzs, hperm⟩
    obtain ⟨pair, h⟩ := exists_equiv_of_perm hperm
    refine ⟨(finCongr hzs.length_eq).trans pair, fun i => ?_⟩
    have hi : (i : Nat) < zs.length := hzs.length_eq ▸ i.isLt
    exact (congrArg (eq xs[i]) (h ⟨i, hi⟩)).trans (hzs.get i.isLt hi)

/-- Permuting the lists leaves pairings. -/
theorem Matched.of_perm (h : Matched eq xs ys) (hxs : xs.Perm xs') (hys : ys.Perm ys') :
    Matched eq xs' ys' := by
  rw [matched_iff_forall₂] at h ⊢
  obtain ⟨zs, hzs, hperm⟩ := h
  obtain ⟨zs', hzs', hperm'⟩ := List.perm_comp_forall₂ hxs.symm hzs
  exact ⟨zs', hzs', hperm'.trans (hperm.trans hys)⟩

/-! ## Claims that succeed -/

theorem matched_of_equalsUnordered (h : equalsUnordered eq xs ys = true) : Matched eq xs ys := by
  rw [matched_iff_forall₂]
  induction xs generalizing ys with
  | nil =>
      rw [equalsUnordered, List.isEmpty_iff] at h
      exact ⟨[], .nil, h ▸ .nil⟩
  | cons x xs ih =>
      rw [equalsUnordered, Bool.and_eq_true, List.any_eq_true] at h
      obtain ⟨⟨y, hy, hxy⟩, hrest⟩ := h
      obtain ⟨z, before, after, -, hxz, rfl, herase⟩ := List.exists_of_eraseP hy hxy
      rw [herase] at hrest
      obtain ⟨zs, hzs, hperm⟩ := ih hrest
      exact ⟨z :: zs, .cons hxz hzs, (hperm.cons z).trans List.perm_middle.symm⟩

/-! ## Claims that fail -/

/-- Elements of the first list that have a match in common have all matches in common. -/
def Coherent (eq : α → β → Bool) (xs : List α) (ys : List β) : Prop :=
  ∀ x ∈ xs, ∀ x' ∈ xs, ∀ y ∈ ys, eq x y = true → eq x' y = true → ∀ y' ∈ ys, eq x y' = eq x' y'

/-- It is enough that an element has the matches of another one. -/
theorem coherent_of_imp (h : ∀ x ∈ xs, ∀ x' ∈ xs, ∀ y ∈ ys, eq x y = true → eq x' y = true →
    ∀ y' ∈ ys, eq x y' = true → eq x' y' = true) : Coherent eq xs ys := by
  intro x hx x' hx' y hy hxy hx'y y' hy'
  rw [Bool.eq_iff_iff]
  exact ⟨h x hx x' hx' y hy hxy hx'y y' hy', h x' hx' x hx y hy hx'y hxy y' hy'⟩

theorem Coherent.mono (h : Coherent eq xs ys) (hxs : xs' ⊆ xs) (hys : ys' ⊆ ys) :
    Coherent eq xs' ys' :=
  fun x hx x' hx' y hy hxy hxy' y' hy' =>
    h x (hxs hx) x' (hxs hx') y (hys hy) hxy hxy' y' (hys hy')

/-- A partner can be handed back for another that does as well. -/
theorem exists_exchange {R : α → β → Prop} (h : List.Forall₂ R xs ys) (hy : y ∈ z :: ys)
    (hz : ∀ x ∈ xs, R x y → R x z) : ∃ zs, List.Forall₂ R xs zs ∧ (y :: zs).Perm (z :: ys) := by
  induction h with
  | nil =>
      rw [List.mem_singleton] at hy
      exact ⟨[], .nil, hy ▸ .refl _⟩
  | @cons a b as bs hab has ih =>
      obtain ⟨hz, hrest⟩ := List.forall_mem_cons.1 hz
      rcases List.mem_cons.1 hy with rfl | hy
      · exact ⟨b :: bs, .cons hab has, .refl _⟩
      rcases List.mem_cons.1 hy with rfl | hy
      · exact ⟨z :: bs, .cons (hz hab) has, .swap _ _ _⟩
      · obtain ⟨zs, hzs, hperm⟩ := ih (List.mem_cons_of_mem z hy) hrest
        refine ⟨b :: zs, .cons hab hzs, ?_⟩
        exact (List.Perm.swap _ _ _).trans ((hperm.cons b).trans (.swap _ _ _))

/-- If shared matches are shared altogether, claiming the first match finds a pairing whenever
there is one. -/
theorem equalsUnordered_iff_matched (h : Coherent eq xs ys) :
    equalsUnordered eq xs ys = true ↔ Matched eq xs ys := by
  refine ⟨matched_of_equalsUnordered, fun hmatched => ?_⟩
  rw [matched_iff_forall₂] at hmatched
  induction xs generalizing ys with
  | nil =>
      obtain ⟨zs, hzs, hperm⟩ := hmatched
      cases hzs
      rw [List.nil_perm.1 hperm]
      rfl
  | cons x xs ih =>
      obtain ⟨_, hzs, hperm⟩ := hmatched
      cases hzs with
      | @cons _ z _ zs hxz hzs =>
          have hz : z ∈ ys := hperm.subset List.mem_cons_self
          obtain ⟨y, before, after, -, hxy, rfl, herase⟩ := List.exists_of_eraseP hz hxz
          have hy : y ∈ before ++ y :: after := by simp
          have hsubset : before ++ after ⊆ before ++ y :: after :=
            List.Sublist.subset (List.Sublist.append_left (List.sublist_cons_self _ _) _)
          rw [equalsUnordered, Bool.and_eq_true, List.any_eq_true, herase]
          refine ⟨⟨y, hy, hxy⟩, ih (h.mono (List.subset_cons_self _ _) hsubset) ?_⟩
          -- Whoever had the claimed element for a partner takes the partner of `x`.
          obtain ⟨zs', hzs', hperm'⟩ := exists_exchange hzs (hperm.symm.subset hy) fun x' hx' hx'y =>
            (h x List.mem_cons_self x' (List.mem_cons_of_mem _ hx') y hy hxy hx'y z hz).symm.trans hxz
          exact ⟨zs', hzs', ((hperm'.trans hperm).trans List.perm_middle).cons_inv⟩

-- Not every predicate has the property: here the first element claims the only match of the second.
example : equalsUnordered (fun x y : Nat => decide (x ≤ y)) [1, 2] [2, 1] = false := by decide

/-- If shared matches are shared altogether, the order of the lists does not matter. -/
theorem equalsUnordered_of_perm (h : Coherent eq xs ys) (hxs : xs.Perm xs') (hys : ys.Perm ys') :
    equalsUnordered eq xs' ys' = equalsUnordered eq xs ys := by
  rw [Bool.eq_iff_iff, equalsUnordered_iff_matched h,
    equalsUnordered_iff_matched (h.mono hxs.symm.subset hys.symm.subset)]
  exact ⟨fun h => h.of_perm hxs.symm hys.symm, fun h => h.of_perm hxs hys⟩

/-! ## Where the order matters -/

/-- Elements that match in order claim each other and leave the others to what follows. -/
theorem equalsUnordered_append (h : List.Forall₂ (fun x z => eq x z = true) xs zs)
    (xs' : List α) (ys' : List β) :
    equalsUnordered eq (xs ++ xs') (zs ++ ys') = equalsUnordered eq xs' ys' := by
  induction h with
  | nil => rfl
  | cons hxz _ ih => simpa [equalsUnordered, hxz] using ih

theorem exists_perm_cons_cons {x x' : α} (hx : x ∈ xs) (hx' : x' ∈ xs) (hne : x ≠ x') :
    ∃ as, xs.Perm (x :: x' :: as) := by
  obtain ⟨before, after, rfl⟩ := List.append_of_mem hx
  have hrest : x' ∈ before ++ after := by simpa [hne.symm] using hx'
  obtain ⟨before', after', hsplit⟩ := List.append_of_mem hrest
  have hperm : (before ++ after).Perm (x' :: (before' ++ after')) := hsplit ▸ List.perm_middle
  exact ⟨before' ++ after', List.perm_middle.trans (hperm.cons x)⟩

/-- If claims succeed in every order, elements that share one match share all. -/
theorem coherent_of_forall_perm
    (hall : ∀ xs' ys', xs.Perm xs' → ys.Perm ys' → equalsUnordered eq xs' ys' = true) :
    Coherent eq xs ys := by
  refine coherent_of_imp fun x hx x' hx' y hy hxy hx'y y' hy' hxy' => ?_
  by_contra hx'y'
  have hne : x' ≠ x := fun h => hx'y' (h ▸ hxy')
  have hne' : y ≠ y' := fun h => hx'y' (h ▸ hx'y)
  obtain ⟨as, has⟩ := exists_perm_cons_cons hx' hx hne
  obtain ⟨bs, hbs⟩ := exists_perm_cons_cons hy hy' hne'
  -- If `x'` claims `y` and `x` claims `y'`, the others can be paired off.
  have hrest := hall ([x', x] ++ as) ([y, y'] ++ bs) has hbs
  rw [equalsUnordered_append (.cons hx'y (.cons hxy' .nil))] at hrest
  obtain ⟨zs, hzs, hperm⟩ := matched_iff_forall₂.1 (matched_of_equalsUnordered hrest)
  -- If `x` claims `y` and they are, `y'` is left for `x'`.
  have hxs : xs.Perm ((x :: as) ++ [x']) :=
    has.trans (List.perm_append_singleton x' (x :: as)).symm
  have hys : ys.Perm ((y :: zs) ++ [y']) := by
    refine (hbs.trans ((List.Perm.swap y' y bs).trans ?_))
    exact ((hperm.symm.cons y).cons y').trans (List.perm_append_singleton y' (y :: zs)).symm
  have hlast := hall _ _ hxs hys
  rw [equalsUnordered_append (.cons hxy hzs)] at hlast
  simp [equalsUnordered, hx'y'] at hlast

/-- The order of two lists does not matter exactly if elements that share one match share all, or
there is no pairing to be found. -/
theorem forall_equalsUnordered_perm_iff :
    (∀ xs' ys', xs.Perm xs' → ys.Perm ys' →
      equalsUnordered eq xs' ys' = equalsUnordered eq xs ys) ↔
    Coherent eq xs ys ∨ ¬ Matched eq xs ys := by
  constructor
  · intro horder
    by_cases hmatched : Matched eq xs ys
    · -- One order succeeds, so all do.
      obtain ⟨zs, hzs, hperm⟩ := matched_iff_forall₂.1 hmatched
      have hsucceeds := equalsUnordered_append hzs [] []
      rw [List.append_nil, List.append_nil, horder xs zs (.refl _) hperm.symm] at hsucceeds
      exact .inl (coherent_of_forall_perm fun xs' ys' hxs hys =>
        (horder xs' ys' hxs hys).trans hsucceeds)
    · exact .inr hmatched
  · rintro (hcoherent | hnone) xs' ys' hxs hys
    · exact equalsUnordered_of_perm hcoherent hxs hys
    · have hfails : ∀ {xs' ys'}, xs.Perm xs' → ys.Perm ys' →
          equalsUnordered eq xs' ys' = false := by
        intro xs' ys' hxs hys
        rw [Bool.eq_false_iff]
        exact fun h => hnone ((matched_of_equalsUnordered h).of_perm hxs.symm hys.symm)
      rw [hfails hxs hys, hfails (.refl _) (.refl _)]

/-! ## Equivalences -/

section Equivalence

variable {same : α → α → Bool} {as bs : List α}

theorem coherent_of_equivalence (h : Equivalence fun a b => same a b = true) (as bs : List α) :
    Coherent same as bs := by
  refine coherent_of_imp fun a _ a' _ b _ hab ha'b b' _ hab' => ?_
  exact h.trans (h.trans ha'b (h.symm hab)) hab'

/-- Lists match in some order exactly if each class occurs equally often in both. -/
theorem equalsUnordered_iff_countP (h : Equivalence fun a b => same a b = true) :
    equalsUnordered same as bs = true ↔ ∀ c, as.countP (same c) = bs.countP (same c) := by
  have hclass : ∀ {a b : α}, same a b = true → ∀ c, same c a = same c b := by
    intro a b hab c
    rw [Bool.eq_iff_iff]
    exact ⟨fun hca => h.trans hca hab, fun hcb => h.trans hcb (h.symm hab)⟩
  constructor
  · intro hmatch c
    obtain ⟨cs, hcs, hperm⟩ := matched_iff_forall₂.1 (matched_of_equalsUnordered hmatch)
    rw [← hperm.countP_eq]
    clear hmatch hperm
    induction hcs with
    | nil => rfl
    | cons hab _ ih => rw [List.countP_cons, List.countP_cons, hclass hab c, ih]
  · intro hcount
    induction as generalizing bs with
    | nil =>
        cases bs with
        | nil => rfl
        | cons b bs =>
            have hb := hcount b
            rw [List.countP_nil, List.countP_cons_of_pos (h.refl b)] at hb
            exact absurd hb (Nat.succ_ne_zero _).symm
    | cons a as ih =>
        have hpos : 0 < bs.countP (same a) := by
          rw [← hcount a, List.countP_cons_of_pos (h.refl a)]
          exact Nat.succ_pos _
        obtain ⟨b, hb, hab⟩ := List.countP_pos_iff.1 hpos
        obtain ⟨b', before, after, -, hab', rfl, herase⟩ := List.exists_of_eraseP hb hab
        rw [equalsUnordered, Bool.and_eq_true, List.any_eq_true, herase]
        refine ⟨⟨b, hb, hab⟩, ih fun c => ?_⟩
        have hc := hcount c
        rw [List.perm_middle.countP_eq, List.countP_cons, List.countP_cons, hclass hab' c] at hc
        exact Nat.add_right_cancel hc

end Equivalence

/-! ## All laws -/

/-- Lists that match in some order can be paired off, for any predicate. With an equivalence the
converse holds too, and both say that each class occurs equally often in the two lists. Then the
answer is the same with the lists exchanged, and with either of them reordered. -/
theorem equalsUnordered_laws :
    (∀ {α β : Type} (eq : α → β → Bool) (xs : List α) (ys : List β),
      equalsUnordered eq xs ys = true →
        ∃ pair : Fin xs.length ≃ Fin ys.length, ∀ i, eq xs[i] ys[pair i] = true) ∧
    ∀ {α : Type} (same : α → α → Bool), (Equivalence fun a b => same a b = true) →
      ∀ as bs : List α,
        (equalsUnordered same as bs = true ↔
          ∃ pair : Fin as.length ≃ Fin bs.length, ∀ i, same as[i] bs[pair i] = true) ∧
        (equalsUnordered same as bs = true ↔
          ∀ c, as.countP (same c) = bs.countP (same c)) ∧
        equalsUnordered same as bs = equalsUnordered same bs as ∧
        ∀ as' bs', as.Perm as' → bs.Perm bs' →
          equalsUnordered same as' bs' = equalsUnordered same as bs := by
  refine ⟨fun eq xs ys => matched_of_equalsUnordered, fun same h as bs => ?_⟩
  have hcoherent := coherent_of_equivalence h
  refine ⟨equalsUnordered_iff_matched (hcoherent as bs), equalsUnordered_iff_countP h, ?_,
    fun as' bs' => equalsUnordered_of_perm (hcoherent as bs)⟩
  rw [Bool.eq_iff_iff, equalsUnordered_iff_countP h, equalsUnordered_iff_countP h]
  exact ⟨fun hc c => (hc c).symm, fun hc c => (hc c).symm⟩

/-- Odd and even numbers are told apart, and nothing else. -/
theorem equalsUnordered_laws_parity :
    let same (a b : Nat) : Bool := a % 2 == b % 2
    (Equivalence fun a b => same a b = true) ∧
      (∃ pair : Fin 3 ≃ Fin 3, ∀ i, same [1, 2, 3][i] [4, 5, 7][pair i] = true) ∧
      equalsUnordered same [4, 7, 5] [3, 2, 1] = true ∧
      ¬ ∀ c, [1, 1, 2].countP (same c) = [1, 2, 2].countP (same c) := by
  intro same
  have hsame : Equivalence fun a b => same a b = true :=
    ⟨fun a => beq_self_eq_true _, fun h => beq_iff_eq.2 (beq_iff_eq.1 h).symm,
      fun h h' => beq_iff_eq.2 ((beq_iff_eq.1 h).trans (beq_iff_eq.1 h'))⟩
  obtain ⟨hpair, -, hcomm, -⟩ := equalsUnordered_laws.2 same hsame [1, 2, 3] [4, 5, 7]
  obtain ⟨-, -, -, hperm⟩ := equalsUnordered_laws.2 same hsame [4, 5, 7] [1, 2, 3]
  obtain ⟨-, hcount, -, -⟩ := equalsUnordered_laws.2 same hsame [1, 1, 2] [1, 2, 2]
  have hmatch : equalsUnordered same [1, 2, 3] [4, 5, 7] = true := by decide
  refine ⟨hsame, hpair.1 hmatch, ?_, fun h => absurd (hcount.2 h) (by decide)⟩
  rw [hperm [4, 7, 5] [3, 2, 1] (by decide) (by decide), ← hcomm, hmatch]

end TreePatch.Bag
