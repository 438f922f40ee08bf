import TreePatch.Proofs.Query.Places
import TreePatch.Proofs.Value.Overwrite
import TreePatch.Value.Surface

set_option autoImplicit false

/-!
# The places of an expression lie apart

No place of an expression is at, above or below another (`pairwise_apart_of_expandPath`): all
are as deep as the query, and no two have the same names.

Expanding looks at the document no deeper than above the places. So a document that shows the
same surfaces there has the same places (`expandPath_congr`).
-/

namespace TreePatch

namespace Path

/-! ## Paths that lie apart -/

/-- Neither path begins with the steps of the other. -/
def Apart (p q : Path) : Prop := p.startsWith q = false ∧ q.startsWith p = false

variable {d d' : Value} {p q : Path} {places : List Path} {text : Text}

theorem apart_iff : p.Apart q ↔ ¬p.names <+: q.names ∧ ¬q.names <+: p.names := by
  rw [Apart, ← Bool.not_eq_true, ← Bool.not_eq_true, startsWith_iff, startsWith_iff, and_comm]

theorem Apart.symm (h : p.Apart q) : q.Apart p := And.symm h

/-- What goes on from one of two paths that lie apart does not go on from the other. -/
theorem Apart.not_prefix_of {names : List (Option Text)} (h : p.Apart q)
    (hp : p.names <+: names) : ¬q.names <+: names := by
  intro hq
  obtain ⟨hpq, hqp⟩ := apart_iff.1 h
  rcases List.prefix_or_prefix_of_prefix hp hq with h' | h'
  · exact hpq h'
  · exact hqp h'

/-- Two paths of one depth lie apart unless they are the same. -/
theorem apart_of_size_eq (hsize : p.size = q.size) (h : p.same q = false) : p.Apart q := by
  rw [← Bool.not_eq_true, same_iff] at h
  have hlength : p.names.length = q.names.length := by simpa [names, size] using hsize
  exact apart_iff.2 ⟨fun hpq => h (hpq.eq_of_length hlength),
    fun hqp => h (hqp.eq_of_length hlength.symm).symm⟩

/-- Paths of one depth lie apart if they do so with one more step. -/
theorem Apart.of_push {s : Segment} (hsize : p.size = q.size) (h : (p.push s).Apart (q.push s)) :
    p.Apart q := by
  refine apart_of_size_eq hsize ?_
  rw [← Bool.not_eq_true, same_iff]
  intro hnames
  have hpush : (p.push s).names = (q.push s).names := by rw [names_push, names_push, hnames]
  exact (apart_iff.1 h).1 (hpush ▸ List.prefix_refl _)

end Path

/-! ## Writing at paths that lie apart -/

namespace Value

variable {d d' u w new a b : Value} {p q : Path}

/-- A write leaves what is read at a path that lies apart from its own. -/
theorem get_overwrite_of_apart (h : d.overwrite p.segments new = .ok d') (hpq : p.Apart q) :
    d'.get q = d.get q :=
  (Overwritten.of_overwrite h).beside q hpq.2 hpq.1

/-- Writes at two paths that lie apart can be swapped. -/
theorem overwrite_comm_of_apart (hp : d.overwrite p.segments a = .ok u)
    (hq : d.overwrite q.segments b = .ok w) (hpq : p.Apart q) :
    u.overwrite q.segments b = w.overwrite p.segments a :=
  overwrite_comm hp hq (Path.apart_iff.1 hpq).1 (Path.apart_iff.1 hpq).2

end Value

/-! ## Expanding in another document -/

/-- Two documents that show the same surfaces above the places have the same places. -/
theorem expand_congr {query : List Segment} {v w : Value} (hv : v.WellFormed) (hw : w.WellFormed)
    (h : ∀ steps, steps.length < query.length → v.surfaceAt steps = w.surfaceAt steps) :
    expand query v = expand query w := by
  induction query generalizing v w with
  | nil => rfl
  | cons s rest ih =>
      -- Below a step that leads to a child in both, the surfaces are the same, too.
      have below : ∀ {t : Segment} {c c' : Value}, v.child t = .ok c → w.child t = .ok c' →
          expand rest c = expand rest c' := by
        intro t c c' hc hc'
        refine ih (hv.child hc) (hw.child hc') fun steps hsteps => ?_
        rw [← Value.surfaceAt_cons_of_child hc, ← Value.surfaceAt_cons_of_child hc']
        exact h (t :: steps) (Nat.succ_lt_succ hsteps)
      rw [expand_cons, expand_cons]
      split
      · -- The children are listed with the same steps.
        have hsteps : v.children.map Prod.fst = w.children.map Prod.fst := by
          rw [Value.map_fst_children, Value.map_fst_children]
          exact congrArg _ (Except.ok.inj (h [] (Nat.succ_pos _)))
        have hlength : v.children.length = w.children.length := by
          simpa using congrArg List.length hsteps
        refine Result.gather_congr (List.ext_getElem (by simpa using hlength) fun i hi hi' => ?_)
        rw [List.length_map] at hi hi'
        have hfst : v.children[i].1 = w.children[i].1 := by
          simpa [List.getElem?_eq_getElem hi, List.getElem?_eq_getElem hi'] using
            congrArg (·[i]?) hsteps
        have hc : v.child v.children[i].1 = .ok v.children[i].2 :=
          Value.child_of_mem_children hv (List.getElem_mem hi)
        have hc' : w.child w.children[i].1 = .ok w.children[i].2 :=
          Value.child_of_mem_children hw (List.getElem_mem hi')
        simp only [List.getElem_map, hfst, below (hfst ▸ hc) hc']
      · split
        · rfl
        · rename_i hrest
          have hstep := h [s] (by simpa [List.length_pos_iff] using hrest)
          rw [Value.surfaceAt, Value.surfaceAt, Value.follow_singleton, Value.follow_singleton]
            at hstep
          rcases (Result.Agree.of_map_eq hstep).cases with ⟨c, c', hc, hc', -⟩ | ⟨m, hc, hc'⟩
          · simp only [hc, hc', below hc hc']
          · simp only [hc, hc']

/-! ## The places of an expression -/

namespace Path

variable {d d' : Value} {p q : Path} {places : List Path} {text : Text}

/-- The places of a query are as deep as the query. -/
theorem size_of_mem_queryPaths (hd : d.WellFormed) (h : q.queryPaths d = .ok places)
    (hp : p ∈ places) : p.size = q.size :=
  ((mem_queryPaths_iff hd h).1 hp).2.length_eq

/-- The places of an expression are as deep as one another. -/
theorem size_eq_of_mem_expandPath (hd : d.WellFormed) (h : expandPath d text = .ok places)
    (hp : p ∈ places) (hq : q ∈ places) : p.size = q.size := by
  rw [expandPath] at h
  split at h
  · obtain ⟨r, -, hplaces⟩ := Result.bind_eq_ok_iff.1 h
    rw [size_of_mem_queryPaths hd hplaces hp, size_of_mem_queryPaths hd hplaces hq]
  · obtain ⟨r, -, rfl⟩ := Result.map_eq_ok_iff.1 h
    rw [List.mem_singleton.1 hp, List.mem_singleton.1 hq]

/-- The places of a query lie apart. -/
theorem pairwise_apart_of_queryPaths (hd : d.WellFormed) (h : q.queryPaths d = .ok places) :
    places.Pairwise Apart := by
  have hne : places.Pairwise fun p r => p.same r = false := by
    obtain ⟨lists, hlists, rfl⟩ := exists_expand_of_queryPaths h
    rw [List.pairwise_map]
    refine (pairwise_precedes_expand hd hlists).imp fun hpr => ?_
    rw [← Bool.not_eq_true, same_iff]
    exact hpr.map_memberName?_ne hd
  refine hne.imp_of_mem fun hp hr hpr => apart_of_size_eq ?_ hpr
  rw [size_of_mem_queryPaths hd h hp, size_of_mem_queryPaths hd h hr]

/-- The places of an expression lie apart. -/
theorem pairwise_apart_of_expandPath (hd : d.WellFormed) (h : expandPath d text = .ok places) :
    places.Pairwise Apart := by
  rw [expandPath] at h
  split at h
  · obtain ⟨q, -, hplaces⟩ := Result.bind_eq_ok_iff.1 h
    exact pairwise_apart_of_queryPaths hd hplaces
  · obtain ⟨p, -, rfl⟩ := Result.map_eq_ok_iff.1 h
    exact List.pairwise_singleton _ _

/-- An expression has the same places in a document that shows the same surfaces above them. -/
theorem expandPath_congr (hd : d.WellFormed) (hd' : d'.WellFormed)
    (h : expandPath d text = .ok places)
    (hsurface : ∀ steps, (∀ p ∈ places, steps.length < p.size) →
      d'.surfaceAt steps = d.surfaceAt steps) : expandPath d' text = .ok places := by
  rw [expandPath] at h ⊢
  split at h
  · obtain ⟨q, hq, hplaces⟩ := Result.bind_eq_ok_iff.1 h
    rw [if_pos ‹_›, hq]
    change q.queryPaths d' = .ok places
    rw [← hplaces, queryPaths, queryPaths, expand_congr hd' hd fun steps hsteps => ?_]
    refine hsurface steps fun p hp => ?_
    rw [size_of_mem_queryPaths hd hplaces hp]
    exact hsteps
  · rwa [if_neg ‹_›]

end Path

end TreePatch
