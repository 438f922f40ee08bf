import TreePatch.Proofs.Value.Edit

set_option autoImplicit false

/-!
# Alike ways: spellings that a document cannot tell apart

On an object a name and a position with that numeral are one step; on an array they are
two. Two lists of steps are `Alike` in a value if they differ only where the value has
an object. Reads and edits go the same way along both.

An edit changes the children of one node, and that node lies above every place of the
same depth. Objects on the way to such a place stay objects, so alike ways to places of
one depth stay alike under edits at that depth (`Alike.of_editParent`), even where the
edit shifts the elements of an array.
-/

namespace TreePatch.Value

/-! ## One step -/

/-- Two segments take the same step from a node. -/
def AlikeStep (v : Value) (s t : Segment) : Prop :=
  s = t ∨ v.kind = .object ∧ s.memberName? = t.memberName?

section Step

variable {v : Value} {s t : Segment}

/-- What is decided by the member name at objects is the same for alike steps. -/
theorem AlikeStep.congr {α : Type} {f : Segment → α} (h : v.AlikeStep s t)
    (hf : ∀ ms, v = .object ms → s.memberName? = t.memberName? → f s = f t) : f s = f t := by
  rcases h with rfl | ⟨hk, hn⟩
  · rfl
  · cases v with
    | object ms => exact hf ms rfl hn
    | _ => cases hk

theorem AlikeStep.memberName? (h : v.AlikeStep s t) : s.memberName? = t.memberName? :=
  h.congr fun _ _ hn => hn

/-- Alike steps stay alike at another node of the kind. -/
theorem AlikeStep.of_kind_eq {w : Value} (h : v.AlikeStep s t) (hk : w.kind = v.kind) :
    w.AlikeStep s t :=
  h.imp_right fun hv => ⟨hk.trans hv.1, hv.2⟩

theorem AlikeStep.child (h : v.AlikeStep s t) : v.child s = v.child t :=
  h.congr fun ms hv hn => by simp [hv, Value.child, childOfMembers, hn]

theorem AlikeStep.setChild (h : v.AlikeStep s t) (new : Value) :
    v.setChild s new = v.setChild t new :=
  h.congr (f := fun s => v.setChild s new) fun ms hv hn => by simp [hv, Value.setChild, hn]

theorem AlikeStep.insertChild (h : v.AlikeStep s t) (new : Value) :
    v.insertChild s new = v.insertChild t new :=
  h.congr (f := fun s => v.insertChild s new) fun ms hv hn => by
    simp [hv, Value.insertChild, hn]

theorem AlikeStep.dropChild (h : v.AlikeStep s t) : v.dropChild s = v.dropChild t :=
  h.congr fun ms hv hn => by simp [hv, Value.dropChild, hn]

theorem AlikeStep.eraseChild (h : v.AlikeStep s t) : v.eraseChild s = v.eraseChild t := by
  rw [Value.eraseChild, Value.eraseChild, h.child, h.dropChild]

theorem AlikeStep.writeChild (h : v.AlikeStep s t) (new : Value) :
    v.writeChild s new = v.writeChild t new := by
  rw [Value.writeChild, Value.writeChild, h.child, h.setChild]

/-- Two steps of one name that lead to children are alike. -/
theorem alikeStep_of_child {c d : Value} (hs : v.child s = .ok c) (ht : v.child t = .ok d)
    (hn : s.memberName? = t.memberName?) : v.AlikeStep s t := by
  cases v with
  | object ms => exact .inr ⟨rfl, hn⟩
  | array xs =>
      cases s with
      | index m =>
          cases t with
          | index n =>
              have hmn : m = n := Decimal.ofNat_injective (Option.some.inj hn)
              exact .inl (by rw [hmn])
          | _ => cases ht
      | _ => cases hs
  | _ => cases hs

end Step

/-! ## Many steps -/

/-- Two lists of steps have the same names and take the same way through a value as far
as it leads. -/
def Alike : Value → List Segment → List Segment → Prop
  | _, [], [] => True
  | v, s :: ss, t :: ts =>
      v.AlikeStep s t ∧ ss.map Segment.memberName? = ts.map Segment.memberName? ∧
        ∀ c, v.child s = .ok c → Alike c ss ts
  | _, _, _ => False

theorem Alike.eq_nil {v : Value} {ts : List Segment} (h : v.Alike [] ts) : ts = [] := by
  cases ts with
  | nil => rfl
  | cons t ts => exact absurd h id

/-- What is alike to a way with a first step has a first step, too. -/
theorem Alike.exists_cons {v : Value} {s : Segment} {ss ts : List Segment}
    (h : v.Alike (s :: ss) ts) :
    ∃ t ts', ts = t :: ts' ∧ v.AlikeStep s t ∧
      ss.map Segment.memberName? = ts'.map Segment.memberName? ∧
      ∀ c, v.child s = .ok c → c.Alike ss ts' := by
  cases ts with
  | nil => exact absurd h id
  | cons t ts' => exact ⟨t, ts', rfl, h⟩

/-- Alike ways have the same names. -/
theorem Alike.map_memberName? {v : Value} {ss ts : List Segment} (h : v.Alike ss ts) :
    ss.map Segment.memberName? = ts.map Segment.memberName? := by
  cases ss with
  | nil => rw [h.eq_nil]
  | cons s ss =>
      obtain ⟨t, ts, rfl, hst, hnames, -⟩ := h.exists_cons
      rw [List.map_cons, List.map_cons, hst.memberName?, hnames]

/-- Alike ways lead to the same node, or fail with the same misstep. -/
theorem Alike.follow {v : Value} {ss ts : List Segment} (h : v.Alike ss ts) :
    v.follow ss = v.follow ts := by
  induction ss generalizing v ts with
  | nil => rw [h.eq_nil]
  | cons s ss ih =>
      obtain ⟨t, ts, rfl, hst, -, hrest⟩ := h.exists_cons
      rw [Value.follow, Value.follow, ← hst.child]
      cases hc : v.child s with
      | error m => rfl
      | ok c => exact ih (hrest c hc)

section EditParent

variable {ε : Type} {lift : Misstep → ε} {edit : Value → Segment → Except ε Value}

/-- Edits along alike ways are the same. -/
theorem Alike.editParent (hedit : ∀ w s t, w.AlikeStep s t → edit w s = edit w t)
    {v : Value} {s t : Segment} {ss ts : List Segment} (h : v.Alike (s :: ss) (t :: ts)) :
    editParent lift edit v s ss = editParent lift edit v t ts := by
  induction ss generalizing v s t ts with
  | nil =>
      obtain ⟨hst, hnames, -⟩ := h
      obtain rfl : ts = [] := List.map_eq_nil_iff.1 hnames.symm
      exact hedit v s t hst
  | cons s' ss ih =>
      obtain ⟨hst, hnames, hrest⟩ := h
      cases ts with
      | nil => cases hnames
      | cons t' ts =>
          rw [Value.editParent, Value.editParent, ← hst.child]
          cases hc : v.child s with
          | error m => rfl
          | ok c =>
              simp only [ih (hrest c hc)]
              cases Value.editParent lift edit c t' ts with
              | error e => rfl
              | ok c' => simp only [hst.setChild]

/-- An edit that keeps the kind of the node it changes keeps alike ways alike, if they
are as long as the way to the edit. -/
theorem Alike.of_editParent (hedit : ∀ w t w', edit w t = .ok w' → w'.kind = w.kind)
    {v v' : Value} {s : Segment} {rest : List Segment}
    (he : Value.editParent lift edit v s rest = .ok v') {ps qs : List Segment}
    (hlen : ps.length = rest.length + 1) (h : v.Alike ps qs) : v'.Alike ps qs := by
  induction rest generalizing v v' s ps qs with
  | nil =>
      -- The edited node is the one that the last steps of all ways are taken from.
      obtain ⟨p, rfl⟩ := List.length_eq_one_iff.1 hlen
      obtain ⟨q, qs, rfl, hpq, hnames, -⟩ := h.exists_cons
      obtain rfl : qs = [] := List.map_eq_nil_iff.1 hnames.symm
      exact ⟨hpq.of_kind_eq (hedit v s v' he), rfl, fun _ _ => trivial⟩
  | cons t rest ih =>
      obtain ⟨c, c', hc, hc', rfl⟩ := editParent_cons_eq_ok_iff.1 he
      cases ps with
      | nil => simp at hlen
      | cons p ps =>
          obtain ⟨q, qs, rfl, hpq, hnames, hrest⟩ := h.exists_cons
          refine ⟨hpq.of_kind_eq (kind_setChild v s c'), hnames, fun d hd => ?_⟩
          by_cases hname : s.memberName? = p.memberName?
          · -- The way goes into the child that was edited.
            have hsame := alikeStep_of_child (child_setChild hc c') hd hname
            obtain rfl : c' = d := by
              have := (child_setChild hc c').symm.trans (hsame.child.trans hd)
              exact Except.ok.inj this
            have hp : v.child p = .ok c := by
              rw [← (hsame.of_kind_eq (kind_setChild v s c').symm).child, hc]
            exact ih hc' (by simpa using hlen) (hrest c hp)
          · -- It goes into another child, which has not changed.
            rw [child_setChild_of_ne hname] at hd
            exact hrest d hd

end EditParent

end TreePatch.Value
