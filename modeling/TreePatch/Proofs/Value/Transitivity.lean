import TreePatch.Proofs.Number.Equality
import TreePatch.Proofs.Value.LastStep

set_option autoImplicit false

/-!
# Where comparison as documents is transitive

Equal documents hold equal values at each place (`exists_follow_of_equals`). So whatever keeps
comparison from being transitive happens at one place, and there between numbers: two different
integers, both rounded to the floating-point number that the document in the middle holds there
(`Conflates`). This is the only way in which transitivity fails (`equals_trans_of_not_conflates`),
and it is one, since equal documents hold no different integers at one place
(`not_conflates_of_equals`).
-/

namespace TreePatch.Value

variable {v w c : Value} {a b d a' b' d' : Value} {s : Segment} {steps : List Segment}

/-! ## Equal documents place by place -/

theorem exists_child_of_equals (h : v.equals w = true) (hc : v.child s = .ok c) :
    ∃ e, w.child s = .ok e ∧ c.equals e = true := by
  rcases child_eq_ok_cases hc with ⟨xs, i, rfl, rfl, hi⟩ | ⟨ms, name, rfl, hs, hget⟩
  · cases w with
    | array ys =>
        obtain ⟨hlength, helements⟩ := equals_array_iff_getElem?.1 h
        have hlt : i < ys.length := hlength ▸ (List.getElem?_eq_some_iff.1 hi).1
        have hy := List.getElem?_eq_getElem hlt
        exact ⟨ys[i], child_index_iff.2 hy, helements i c ys[i] hi hy⟩
    | _ => cases kind_eq_of_equals h
  · cases w with
    | object ns =>
        obtain ⟨e, he, hce⟩ := (equals_object.1 h).2 _ (Members.mem_of_get? hget)
        exact ⟨e, (child_object_iff hs).2 he, hce⟩
    | _ => cases kind_eq_of_equals h

/-- Where one of two equal documents holds a value, the other holds an equal one. -/
theorem exists_follow_of_equals (h : v.equals w = true) (hc : v.follow steps = .ok c) :
    ∃ e, w.follow steps = .ok e ∧ c.equals e = true := by
  induction steps generalizing v w with
  | nil =>
      cases hc
      exact ⟨w, rfl, h⟩
  | cons s steps ih =>
      obtain ⟨v', hv', hc⟩ := follow_cons_eq_ok_iff.1 hc
      obtain ⟨w', hw', h'⟩ := exists_child_of_equals h hv'
      obtain ⟨e, he, hce⟩ := ih h' hc
      exact ⟨e, follow_cons_eq_ok_iff.2 ⟨w', hw', he⟩, hce⟩

/-! ## Two integers taken for one number -/

/-- At some place the first document holds a floating-point number that is nearest to two different
integers, which the other two documents hold there. -/
def Conflates (b a d : Value) : Prop :=
  ∃ (steps : List Segment) (m n : Number) (i j : Int) (x : Binary64),
    a.follow steps = .ok (.number m) ∧ b.follow steps = .ok (.number (.binary x)) ∧
    d.follow steps = .ok (.number n) ∧ m.integer? = some i ∧ n.integer? = some j ∧ i ≠ j ∧
    x.IsNearest i ∧ x.IsNearest j

theorem Conflates.of_child (ha : a.child s = .ok a') (hb : b.child s = .ok b')
    (hd : d.child s = .ok d') (h : b'.Conflates a' d') : b.Conflates a d := by
  obtain ⟨steps, m, n, i, j, x, ham, hbx, hdn, h⟩ := h
  exact ⟨s :: steps, m, n, i, j, x, follow_cons_eq_ok_iff.2 ⟨a', ha, ham⟩,
    follow_cons_eq_ok_iff.2 ⟨b', hb, hbx⟩, follow_cons_eq_ok_iff.2 ⟨d', hd, hdn⟩, h⟩

/-- Equal documents hold no different integers at one place. -/
theorem not_conflates_of_equals (h : a.equals d = true) : ¬ b.Conflates a d := by
  rintro ⟨steps, m, n, i, j, x, ha, -, hd, hm, hn, hij, -⟩
  obtain ⟨e, he, hme⟩ := exists_follow_of_equals h ha
  obtain rfl : Value.number n = e := Except.ok.inj (hd.symm.trans he)
  rw [equals, Number.equals_of_integers hm hn, beq_iff_eq] at hme
  exact hij hme

/-- Documents equal to a third are equal, unless the third conflates two integers of theirs. -/
theorem equals_trans_of_not_conflates (ha : a.WellFormed) (hab : a.equals b = true)
    (hbd : b.equals d = true) (h : ¬ b.Conflates a d) : a.equals d = true := by
  induction a generalizing b d with
  | null | bool t | string t =>
      -- Leaves other than numbers are equal only if they are the same.
      cases b with
      | null | bool u | string u => cases d <;> simp_all [equals]
      | _ => cases kind_eq_of_equals hab
  | number l =>
      cases b with
      | number m =>
          cases d with
          | number n =>
              rcases Number.equals_trans_or hab hbd with h' | ⟨i, j, x, hi, hj, hij, rfl, hx⟩
              · exact h'
              · exact absurd ⟨[], l, n, i, j, x, rfl, rfl, rfl, hi, hj, hij, hx⟩ h
          | _ => cases kind_eq_of_equals hbd
      | _ => cases kind_eq_of_equals hab
  | array xs ih =>
      cases b with
      | array ys =>
          cases d with
          | array zs =>
              obtain ⟨hlength, hxs⟩ := equals_array_iff_getElem?.1 hab
              obtain ⟨hlength', hys⟩ := equals_array_iff_getElem?.1 hbd
              refine equals_array_iff_getElem?.2 ⟨hlength.trans hlength', fun i x z hx hz => ?_⟩
              have hy := List.getElem?_eq_getElem (hlength ▸ (List.getElem?_eq_some_iff.1 hx).1)
              have hmem := List.mem_of_getElem? hx
              exact ih x hmem (wellFormed_array.1 ha x hmem) (hxs i x _ hx hy) (hys i _ z hy hz)
                fun h' => h (h'.of_child (child_index_iff.2 hx) (child_index_iff.2 hy)
                  (child_index_iff.2 hz))
          | _ => cases kind_eq_of_equals hbd
      | _ => cases kind_eq_of_equals hab
  | object ms ih =>
      cases b with
      | object ns =>
          cases d with
          | object os =>
              obtain ⟨hlength, hms⟩ := equals_object.1 hab
              obtain ⟨hlength', hns⟩ := equals_object.1 hbd
              obtain ⟨hdistinct, hentries⟩ := wellFormed_object.1 ha
              refine equals_object.2 ⟨hlength.trans hlength', fun m hm => ?_⟩
              obtain ⟨v, hv, hmv⟩ := hms m hm
              obtain ⟨w, hw, hvw⟩ := hns _ (Members.mem_of_get? hv)
              have hget := Members.get?_of_mem hdistinct hm
              have hs : (Segment.key m.1).memberName? = some m.1 := rfl
              exact ⟨w, hw, ih m hm (hentries m hm) hmv hvw fun h' => h (h'.of_child
                ((child_object_iff hs).2 hget) ((child_object_iff hs).2 hv)
                ((child_object_iff hs).2 hw))⟩
          | _ => cases kind_eq_of_equals hbd
      | _ => cases kind_eq_of_equals hab

/-! ## Comparison against exact values -/

/-- Two numbers compare equal exactly if they have one exact value, or one is an integer and the
other a number of another value that is nearest to it, ties to even. So comparison goes by exact
values exactly where neither is rounded to the other, and no integer up to 2^53 in absolute value
is. Documents equal to a third are equal, exactly unless at some place they hold different integers
and the third the floating-point number nearest to both. -/
theorem equals_up_to_rounding (m n : Number) (a b d : Value) :
    (equals (.number m) (.number n) = true ↔
      m.SameValue n ∨ m.RoundsTo n ∨ n.RoundsTo m) ∧
    ((equals (.number m) (.number n) = true ↔ m.SameValue n) ↔
      ¬ m.RoundsTo n ∧ ¬ n.RoundsTo m) ∧
    (∀ i, m.integer? = some i → i.natAbs ≤ 2 ^ 53 → ¬ m.RoundsTo n) ∧
    (a.WellFormed → a.equals b = true → b.equals d = true →
      (a.equals d = true ↔ ¬ b.Conflates a d)) := by
  rw [equals]
  refine ⟨Number.equals_iff_value, Number.equals_iff_sameValue_iff,
    fun i => Number.not_roundsTo_of_natAbs_le, ?_⟩
  intro ha hab hbd
  exact ⟨not_conflates_of_equals, equals_trans_of_not_conflates ha hab hbd⟩

/-- 2^53 as a floating-point number is a rounded 2^53 + 1, and in the middle of two arrays it
conflates that integer with 2^53. -/
theorem equals_up_to_rounding_neighbours :
    let power : Number := .signed 9007199254740992
    let next : Number := .unsigned 9007199254740993
    let rounded : Number := .binary ⟨0x4340000000000000⟩
    let array (n : Number) : Value := .array [.null, .number n]
    (array power).WellFormed ∧ (array power).equals (array rounded) = true ∧
      (array rounded).equals (array next) = true ∧ next.RoundsTo rounded ∧
      (array rounded).Conflates (array power) (array next) := by
  intro power next rounded array
  obtain ⟨hvalue, -, -, htrans⟩ :=
    equals_up_to_rounding next rounded (array power) (array rounded) (array next)
  have hwell : (array power).WellFormed := by decide
  have hleft : (array power).equals (array rounded) = true := by decide
  have hright : (array rounded).equals (array next) = true := by decide
  have hrounds : next.RoundsTo rounded := by
    rcases hvalue.1 (by decide) with (⟨q, hq, hq'⟩ | ⟨x, -, hx, -⟩) | h | h
    · exact absurd (hq.trans hq'.symm) (by decide +kernel)
    · exact Number.noConfusion hx
    · exact h
    · obtain ⟨i, x, hi, -⟩ := h
      cases hi
  refine ⟨hwell, hleft, hright, hrounds, ?_⟩
  have houter : ¬ (array power).equals (array next) = true := by decide
  rwa [htrans hwell hleft hright, Classical.not_not] at houter

/-- Comparison goes by exact values neither between numbers nor, which it would follow from,
transitively. -/
theorem not_equals_by_exact_value :
    (¬ ∀ m n : Number, m.isNaN = false → n.isNaN = false →
      (equals (.number m) (.number n) = true ↔ m.SameValue n)) ∧
    ¬ ∀ a b d : Value, a.WellFormed → b.WellFormed → d.WellFormed → a.holdsNaN = false →
      b.holdsNaN = false → d.holdsNaN = false → a.equals b = true → b.equals d = true →
      a.equals d = true := by
  refine ⟨fun h => ?_, fun h => ?_⟩
  · rcases (h (.signed 9007199254740993) (.binary ⟨0x4340000000000000⟩) rfl (by decide)).1
      (by decide) with ⟨q, hq, hq'⟩ | ⟨x, -, hx, -⟩
    · exact absurd (hq.trans hq'.symm) (by decide +kernel)
    · cases hx
  · exact absurd (h (.number (.signed 9007199254740992)) (.number (.binary ⟨0x4340000000000000⟩))
      (.number (.signed 9007199254740993)) (by decide) (by decide) (by decide) (by decide)
      (by decide) (by decide) (by decide) (by decide)) (by decide)

end TreePatch.Value
