import TreePatch.Proofs.Path.Alike
import TreePatch.Proofs.Value.Children
import TreePatch.Proofs.Value.Overwrite
import TreePatch.Value.Surface

set_option autoImplicit false

/-!
# A document is what its surfaces show

Two well-formed documents are the same if the one shows the surfaces of the other wherever a
list of steps leads (`eq_of_surfaceAt`), and what is read at a path is the same if the surfaces
that lie through it are (`get_eq_of_surfaceAt`). So a change is described completely by what it
does to surfaces. A write along a list of steps changes none but at the end of the steps and below
(`surfaceAt_overwrite`), and there the new value shows (`surfaceAt_overwrite_below`).
-/

namespace TreePatch.Value

variable {v v' w c x new : Value} {s t : Segment} {ps qs rs : List Segment}

/-! ## Surfaces determine a document -/

/-- A well-formed document is determined by the surfaces at the steps that can be taken. -/
theorem eq_of_surfaceAt (hv : v.WellFormed) (hw : w.WellFormed)
    (h : ∀ steps x, v.follow steps = .ok x → w.surfaceAt steps = .ok x.surface) : v = w := by
  -- A child of the one and a child of the other at one step.
  have below : ∀ {v w : Value} {s : Segment} {c d : Value},
      (∀ steps x, v.follow steps = .ok x → w.surfaceAt steps = .ok x.surface) →
      v.child s = .ok c → w.child s = .ok d →
      ∀ steps x, c.follow steps = .ok x → d.surfaceAt steps = .ok x.surface := by
    intro v w s c d h hc hd steps x hx
    rw [← surfaceAt_cons_of_child hd]
    exact h (s :: steps) x (by rw [follow_cons_of_child hc, hx])
  have hroot : w.surface = v.surface := Except.ok.inj (h [] v rfl)
  induction v generalizing w with
  | array xs ih =>
      obtain ⟨ys, rfl, hlen⟩ := surface_eq_array_iff.1 hroot
      congr 1
      refine List.ext_getElem hlen.symm fun i hi hi' => ?_
      have hc : (array xs).child (.index i) = .ok xs[i] :=
        child_of_mem_children hv (mem_children_array.2 ⟨i, rfl, List.getElem?_eq_getElem hi⟩)
      have hd : (array ys).child (.index i) = .ok ys[i] :=
        child_of_mem_children hw (mem_children_array.2 ⟨i, rfl, List.getElem?_eq_getElem hi'⟩)
      have hcd := below h hc hd
      exact ih _ (List.getElem_mem hi) (hv.child hc) (hw.child hd) hcd
        (Except.ok.inj (hcd [] _ rfl))
  | object ms ih =>
      obtain ⟨ns, rfl, hkeys⟩ := surface_eq_object_iff.1 hroot
      congr 1
      refine Members.eq_of_keys_eq (wellFormed_object.1 hv).1 hkeys.symm fun k a b ha hb => ?_
      have hc : (object ms).child (.key k) = .ok a :=
        child_of_mem_children hv (mem_children_object.2 ⟨k, rfl, Members.mem_of_get? ha⟩)
      have hd : (object ns).child (.key k) = .ok b :=
        child_of_mem_children hw (mem_children_object.2 ⟨k, rfl, Members.mem_of_get? hb⟩)
      have hcd := below h hc hd
      exact ih (k, a) (Members.mem_of_get? ha) (hv.child hc) (hw.child hd) hcd
        (Except.ok.inj (hcd [] _ rfl))
  | _ => exact (eq_of_surface_eq_of_leaf rfl hroot).symm

/-- Two lists of steps lead to the same if the surfaces there and below are. -/
theorem follow_eq_of_surfaceAt (hv : v.WellFormed) (hw : w.WellFormed)
    (h : ∀ steps, v.surfaceAt (ps ++ steps) = w.surfaceAt (qs ++ steps)) :
    v.follow ps = w.follow qs := by
  have hhere := h []
  rw [List.append_nil, List.append_nil] at hhere
  rcases (Result.Agree.of_map_eq hhere).cases with ⟨x, y, hp, hq, -⟩ | ⟨m, hp, hq⟩
  · rw [hp, hq, eq_of_surfaceAt (hv.follow hp) (hw.follow hq) fun steps z hz => ?_]
    have hsteps := h steps
    rw [surfaceAt_append, surfaceAt_append, hp, hq] at hsteps
    exact hsteps.symm.trans (by rw [Except.bind, surfaceAt, hz]; rfl)
  · rw [hp, hq]

/-- What is read at a path is determined by the surfaces at the steps that go through it. -/
theorem get_eq_of_surfaceAt {q : Path} (hv : v.WellFormed) (hw : w.WellFormed)
    (h : ∀ steps, q.names <+: steps.map Segment.memberName? →
      v.surfaceAt steps = w.surfaceAt steps) : v.get q = w.get q := by
  rw [get, get, follow_eq_of_surfaceAt hv hw fun steps => h _ ?_]
  rw [List.map_append]
  exact List.prefix_append _ _

/-! ## What a write shows -/

@[simp] theorem surface_setChild (v : Value) (s : Segment) (new : Value) :
    (v.setChild s new).surface = v.surface := by
  cases v with
  | array xs => cases s <;> simp [setChild, updateElement, surface]
  | object ms =>
      unfold setChild
      cases s.memberName? <;> simp [updateMember, surface]
  | _ => cases s <;> rfl

/-- A write changes no surface but at the end of its steps and below. -/
theorem surfaceAt_overwrite (h : v.overwrite ps new = .ok v')
    (hps : ¬ps.map Segment.memberName? <+: rs.map Segment.memberName?) :
    v'.surfaceAt rs = v.surfaceAt rs := by
  induction ps generalizing v v' rs with
  | nil => exact absurd List.nil_prefix hps
  | cons s ps ih =>
      obtain ⟨c, c', hc, hw, rfl⟩ := overwrite_cons_eq_ok_iff.1 h
      cases rs with
      | nil => simp [surfaceAt_nil]
      | cons t rs =>
          rw [List.map_cons, List.map_cons, List.cons_prefix_cons, not_and] at hps
          rcases child_setChild_cases hc c' t with ⟨m, ht, ht'⟩ | ⟨hname, ht, ht'⟩ |
            ⟨-, d, ht, ht'⟩
          · rw [surfaceAt_cons_of_error ht, surfaceAt_cons_of_error ht']
          · rw [surfaceAt_cons_of_child ht, surfaceAt_cons_of_child ht', ih hw (hps hname)]
          · rw [surfaceAt_cons_of_child ht, surfaceAt_cons_of_child ht']

/-- At the end of the steps of a write, in whatever spelling that leads there, the new value
stands, and what led nowhere still does. -/
theorem follow_overwrite_congr (h : v.overwrite ps new = .ok v')
    (hps : ps.map Segment.memberName? = rs.map Segment.memberName?) :
    v'.follow rs = (v.follow rs).map fun _ => new := by
  induction ps generalizing v v' rs with
  | nil =>
      obtain rfl : rs = [] := List.map_eq_nil_iff.1 hps.symm
      cases h
      rfl
  | cons s ps ih =>
      obtain ⟨c, c', hc, hw, rfl⟩ := overwrite_cons_eq_ok_iff.1 h
      cases rs with
      | nil => cases hps
      | cons t rs =>
          obtain ⟨hname, hps⟩ := List.cons.inj hps
          rcases child_setChild_cases hc c' t with ⟨m, ht, ht'⟩ | ⟨-, ht, ht'⟩ | ⟨hne, -⟩
          · rw [follow_cons_of_error ht, follow_cons_of_error ht']
            rfl
          · rw [follow_cons_of_child ht, follow_cons_of_child ht', ih hw hps]
          · exact absurd hname hne

/-- Steps of the same names that lead somewhere lead to the same. -/
theorem eq_of_follow_of_names {y : Value} (hp : v.follow ps = .ok x)
    (hps : ps.map Segment.memberName? = qs.map Segment.memberName?) (hq : v.follow qs = .ok y) :
    y = x := by
  have hsame := follow_overwrite_congr (overwrite_of_follow hp) hps
  rw [hq] at hsame
  exact Except.ok.inj hsame

/-- Below the end of the steps of a write the new value shows. -/
theorem surfaceAt_overwrite_below (h : v.overwrite ps new = .ok v')
    (hps : ps.map Segment.memberName? = qs.map Segment.memberName?) (rs : List Segment) :
    v'.surfaceAt (qs ++ rs) = (v.follow qs).bind fun _ => new.surfaceAt rs := by
  rw [surfaceAt_append, follow_overwrite_congr h hps]
  cases v.follow qs <;> rfl

end TreePatch.Value
