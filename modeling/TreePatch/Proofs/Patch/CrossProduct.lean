import TreePatch.Proofs.Patch.Stages
import TreePatch.Proofs.Query.Apart
import TreePatch.Proofs.Value.LastStep
import TreePatch.Proofs.Value.Surface

set_option autoImplicit false

/-!
# Copying to the ends of arrays

A copy goes through its sources and inserts the value of each at every place. Where the places
are the ends of arrays, each array grows by the values of all sources in order (`Extended`).

A source is read again in the document that the sources before it have left, and it may stand in
an array that has grown since. But growing at the end moves no element, so whatever is read below
an array is read there ever after (`get_overwrite_append`). Only a source that holds one of the
arrays would be read with what was inserted.

* `Extended.cons`, `Extended.trans`: one more array, and one source after another.
* `Command.exists_addAll_append`, `Command.exists_forEach_copyTo`: the inner and the outer loop.
* `Operation.apply_copy_append`: an operation on two expressions.
-/

namespace TreePatch

namespace Value

variable {d d₁ d' c new : Value} {p q : Path} {arrays : List Path} {s : Segment}
variable {xs values more : List Value}

/-- One document is another but for some arrays, which have grown by some values. -/
structure Extended (d : Value) (arrays : List Path) (values : List Value) (d' : Value) :
    Prop where
  /-- Each array holds its old elements and then the values. -/
  appended : ∀ p ∈ arrays, ∀ xs, d.get p = .ok (.array xs) →
    d'.get p = .ok (.array (xs ++ values))
  /-- What was read is read as before, also below the arrays, unless it holds one of them. -/
  kept : ∀ q x, (∀ p ∈ arrays, p.startsWith q = false) → d.get q = .ok x → d'.get q = .ok x
  /-- Wherever no array is passed, the document looks as before. -/
  elsewhere : ∀ steps, (∀ p ∈ arrays, ¬p.names <+: steps.map Segment.memberName?) →
    d'.surfaceAt steps = d.surfaceAt steps

/-- The elements of an array that grows at its end stay where they are. -/
theorem child_append (h : (array xs).child s = .ok c) (more : List Value) :
    (array (xs ++ more)).child s = .ok c := by
  rcases child_eq_ok_cases h with ⟨_, i, e, rfl, hi⟩ | ⟨_, _, e, -⟩
  · cases e
    rw [child_index_iff, List.getElem?_append_left (List.getElem?_eq_some_iff.1 hi).1, hi]
  · cases e

section Grow

variable (hxs : d.get p = .ok (.array xs))
  (h : d.overwrite p.segments (.array (xs ++ values)) = .ok d')
include hxs h

/-- Where an array grows at its end, everything is read as before but what holds the array. -/
theorem get_overwrite_append {x : Value} (hpq : p.startsWith q = false) (hx : d.get q = .ok x) :
    d'.get q = .ok x := by
  cases hqp : q.startsWith p with
  | false => rw [(Overwritten.of_overwrite h).beside q hqp hpq, hx]
  | true =>
      -- The path goes through the array, in whatever spelling, and on to one of its elements.
      obtain ⟨qs, rest, hsplit, hqs⟩ := Path.exists_split_of_prefix (Path.startsWith_iff.1 hqp)
      rw [get_eq_ok_iff, hsplit, follow_append] at hx ⊢
      obtain ⟨y, hy, hrest⟩ := Result.bind_eq_ok_iff.1 hx
      obtain rfl := eq_of_follow_of_names (get_eq_ok_iff.1 hxs) hqs.symm hy
      rw [follow_overwrite_congr h hqs.symm, hy]
      cases rest with
      | nil =>
          have hsame : q.names = p.names := by rw [Path.names, hsplit, List.append_nil, hqs]
          rw [← Bool.not_eq_true, Path.startsWith_iff, hsame] at hpq
          exact absurd (List.prefix_refl _) hpq
      | cons t rest =>
          obtain ⟨c, hc, hx⟩ := follow_cons_eq_ok_iff.1 hrest
          exact follow_cons_eq_ok_iff.2 ⟨c, child_append hc values, hx⟩

/-- Overwriting an array by itself and some more values extends it. -/
theorem extended_of_overwrite : Extended d [p] values d' where
  appended := by
    intro q hq ys hys
    obtain rfl := List.mem_singleton.1 hq
    obtain rfl : xs = ys := array.inj (Except.ok.inj (hxs.symm.trans hys))
    exact get_of_overwrite h
  kept := fun _ _ hq hx => get_overwrite_append hxs h (hq p List.mem_cons_self) hx
  elsewhere := fun _ hsteps => surfaceAt_overwrite h (hsteps p List.mem_cons_self)

end Grow

/-- What is inserted at the end of an array extends it. -/
theorem exists_add_append (hxs : d.get p = .ok (.array xs)) (new : Value) :
    ∃ d', d.add (p.push .append) new = .ok d' ∧ Extended d [p] [new] d' := by
  obtain ⟨d', hd'⟩ := exists_overwrite_of_get hxs (.array (xs ++ [new]))
  exact ⟨d', (add_push_iff hxs).2 ⟨_, rfl, hd'⟩, extended_of_overwrite hxs hd'⟩

namespace Extended

theorem nil (d : Value) (values : List Value) : Extended d [] values d where
  appended := by simp
  kept := fun _ _ _ hx => hx
  elsewhere := fun _ _ => rfl

/-- Extending by no values changes nothing. -/
theorem refl (d : Value) (arrays : List Path) : Extended d arrays [] d where
  appended := by simp
  kept := fun _ _ _ hx => hx
  elsewhere := fun _ _ => rfl

/-- Extending one array and then others that lie apart from it is extending all of them. -/
theorem cons (hp : Extended d [p] values d₁) (h : Extended d₁ arrays values d')
    (hapart : ∀ q ∈ arrays, p.Apart q) : Extended d (p :: arrays) values d' where
  appended := by
    intro q hq xs hxs
    rcases List.mem_cons.1 hq with rfl | hq
    · -- The later arrays do not stand in the first.
      refine h.kept q _ (fun r hr => (hapart r hr).2) ?_
      exact hp.appended q List.mem_cons_self xs hxs
    · refine h.appended q hq xs (hp.kept q _ ?_ hxs)
      exact List.forall_mem_singleton.2 (hapart q hq).1
  kept := by
    intro q x hq hx
    obtain ⟨hfirst, hrest⟩ := List.forall_mem_cons.1 hq
    exact h.kept q x hrest (hp.kept q x (List.forall_mem_singleton.2 hfirst) hx)
  elsewhere := by
    intro steps hsteps
    obtain ⟨hfirst, hrest⟩ := List.forall_mem_cons.1 hsteps
    rw [h.elsewhere steps hrest, hp.elsewhere steps (List.forall_mem_singleton.2 hfirst)]

/-- Extending by some values and then by others is extending by all of them. -/
theorem trans (h : Extended d arrays values d₁) (h' : Extended d₁ arrays more d') :
    Extended d arrays (values ++ more) d' where
  appended := by
    intro p hp xs hxs
    rw [← List.append_assoc]
    exact h'.appended p hp _ (h.appended p hp xs hxs)
  kept := fun q x hq hx => h'.kept q x hq (h.kept q x hq hx)
  elsewhere := fun steps hsteps => by rw [h'.elsewhere steps hsteps, h.elsewhere steps hsteps]

end Extended

end Value

/-! ## The two loops -/

namespace Command

variable {d : Value} {arrays sources : List Path} {values : List Value}

/-- A value can be inserted at the ends of arrays that lie apart. -/
theorem exists_addAll_append (value : Value) (hapart : arrays.Pairwise Path.Apart)
    (harrays : ∀ p ∈ arrays, ∃ xs, d.get p = .ok (.array xs)) :
    ∃ d', addAll value (arrays.map (·.push .append)) d = ⟨d', none⟩ ∧
      d.Extended arrays [value] d' := by
  induction arrays generalizing d with
  | nil => exact ⟨d, rfl, .nil d _⟩
  | cons p arrays ih =>
      obtain ⟨hp, hrest⟩ := List.pairwise_cons.1 hapart
      obtain ⟨⟨xs, hxs⟩, harrays⟩ := List.forall_mem_cons.1 harrays
      obtain ⟨d₁, hd₁, hfirst⟩ := Value.exists_add_append hxs value
      have harrays' : ∀ q ∈ arrays, ∃ ys, d₁.get q = .ok (.array ys) := by
        intro q hq
        obtain ⟨ys, hys⟩ := harrays q hq
        exact ⟨ys, hfirst.kept q _ (List.forall_mem_singleton.2 (hp q hq).1) hys⟩
      obtain ⟨d', hd', h⟩ := ih hrest harrays'
      exact ⟨d', Outcome.forEach_ofExcept_cons_iff.2 ⟨d₁, hd₁, hd'⟩, hfirst.cons h hp⟩

/-- Sources that hold none of the arrays can be copied to the ends of all of them, and each is
read as it was before the first copy. -/
theorem exists_forEach_copyTo (hapart : arrays.Pairwise Path.Apart)
    (harrays : ∀ p ∈ arrays, ∃ xs, d.get p = .ok (.array xs))
    (hvalues : sources.map d.get = values.map .ok)
    (hbeside : ∀ s ∈ sources, ∀ p ∈ arrays, p.startsWith s = false) :
    ∃ d', Outcome.forEach (copyTo (arrays.map (·.push .append))) d sources = ⟨d', none⟩ ∧
      d.Extended arrays values d' := by
  induction sources generalizing d values with
  | nil =>
      obtain rfl := List.map_eq_nil_iff.1 hvalues.symm
      exact ⟨d, rfl, .refl d arrays⟩
  | cons s sources ih =>
      cases values with
      | nil => cases hvalues
      | cons value values =>
          obtain ⟨hvalue, hvalues⟩ := List.cons.inj hvalues
          obtain ⟨-, hbeside⟩ := List.forall_mem_cons.1 hbeside
          obtain ⟨d₁, hd₁, hfirst⟩ := exists_addAll_append value hapart harrays
          have harrays' : ∀ p ∈ arrays, ∃ ys, d₁.get p = .ok (.array ys) := by
            intro p hp
            obtain ⟨xs, hxs⟩ := harrays p hp
            exact ⟨_, hfirst.appended p hp xs hxs⟩
          -- The sources to come are read with the same values after the first.
          have hread : sources.map d₁.get = values.map .ok := by
            rw [← hvalues]
            refine List.map_congr_left fun r hr => ?_
            obtain ⟨v, -, hv⟩ := List.mem_map.1 (hvalues ▸ List.mem_map_of_mem hr)
            rw [← hv, hfirst.kept r v (hbeside r hr) hv.symm]
          obtain ⟨d', hd', h⟩ := ih harrays' hread hbeside
          refine ⟨d', ?_, hfirst.trans h⟩
          rw [Outcome.forEach, copyTo, fetch_eq_ok_iff.2 hvalue]
          simp only [hd₁, Outcome.andThen_none, hd']

end Command

/-! ## Operations -/

namespace Operation

variable {d : Value} {o : Operation} {sources targets : List Path} {values : List Value}
variable {source text : Text}

/-- A copy to the ends of arrays, none of which is a source or lies below one, extends each array
by the values that the sources have in the old document, and keeps what else is read in it, the
sources included. -/
theorem apply_copy_append (hd : d.WellFormed)
    (hsources : Path.expandPath d source = .ok sources)
    (htargets : Path.expandPath d text = .ok targets)
    (hvalues : sources.map d.get = values.map .ok)
    (hends : ∀ t ∈ targets, t.last? = some .append ∧ ∃ xs, d.get t.parent = .ok (.array xs))
    (hbeside : ∀ t ∈ targets, ∀ s ∈ sources, t.parent.startsWith s = false)
    (ho : o.command = .ok (.copy source text)) :
    ∃ d', o.apply d = ⟨d', none⟩ ∧ d.Extended (targets.map Path.parent) values d' := by
  have hpush : ∀ {t}, t ∈ targets → t.parent.push .append = t :=
    fun ht => Path.push_parent (hends _ ht).1
  have hapart : (targets.map Path.parent).Pairwise Path.Apart := by
    rw [List.pairwise_map]
    refine (Path.pairwise_apart_of_expandPath hd htargets).imp_of_mem fun ht hu htu => ?_
    rw [← hpush ht, ← hpush hu] at htu
    refine htu.of_push ?_
    have hsize := Path.size_eq_of_mem_expandPath hd htargets ht hu
    simpa [Path.size, Path.parent] using congrArg (· - 1) hsize
  obtain ⟨d', hrun, h⟩ := Command.exists_forEach_copyTo hapart
    (List.forall_mem_map.2 fun t ht => (hends t ht).2) hvalues
    (fun s hs => List.forall_mem_map.2 fun t ht => hbeside t ht s hs)
  have hback : (targets.map Path.parent).map (·.push .append) = targets := by
    rw [List.map_map]
    exact (List.map_congr_left fun t ht => hpush ht).trans (List.map_id targets)
  refine ⟨d', ?_, h⟩
  rw [apply_iff_of_command ho, Command.run_of_expandPath hsources htargets, Command.runAt, ← hback,
    hrun]

/-- Each row grows by the first elements of all rows, which stand in the rows themselves. -/
theorem apply_copy_append_rows :
    let cell := fun name : String => Value.string (utf8 name)
    let d : Value := .object [(utf8 "rows", .array [.array [cell "a"], .array [cell "b", .null]])]
    let row := fun i => Path.ofSegments [.key (utf8 "rows"), .index i]
    let first := fun i => (row i).push (.index 0)
    d.WellFormed ∧ Path.expandPath d (utf8 "$/rows/*/0") = .ok [first 0, first 1] ∧
      Path.expandPath d (utf8 "$/rows/*/-") =
        .ok [(row 0).push .append, (row 1).push .append] ∧
      (copy (utf8 "$/rows/*/0") (utf8 "$/rows/*/-")).command =
        .ok (.copy (utf8 "$/rows/*/0") (utf8 "$/rows/*/-")) ∧
      ∃ d', (copy (utf8 "$/rows/*/0") (utf8 "$/rows/*/-")).apply d = ⟨d', none⟩ ∧
        d'.get (row 0) = .ok (.array [cell "a", cell "a", cell "b"]) ∧
        d'.get (row 1) = .ok (.array [cell "b", .null, cell "a", cell "b"]) ∧
        d'.get (first 1) = .ok (cell "b") := by
  intro cell d row first
  have hd : d.WellFormed := by decide
  have hsources : Path.expandPath d (utf8 "$/rows/*/0") = .ok [first 0, first 1] := by
    decide +kernel
  have htargets : Path.expandPath d (utf8 "$/rows/*/-") =
      .ok [(row 0).push .append, (row 1).push .append] := by decide +kernel
  have hvalues : [first 0, first 1].map d.get = [cell "a", cell "b"].map .ok := rfl
  have ho : (copy (utf8 "$/rows/*/0") (utf8 "$/rows/*/-")).command =
      .ok (.copy (utf8 "$/rows/*/0") (utf8 "$/rows/*/-")) := by decide +kernel
  obtain ⟨d', hrun, h⟩ := apply_copy_append hd hsources htargets hvalues
    (List.forall_mem_cons.2 ⟨⟨rfl, _, rfl⟩, List.forall_mem_singleton.2 ⟨rfl, _, rfl⟩⟩)
    (by decide +kernel) ho
  refine ⟨hd, hsources, htargets, ho, d', hrun, ?_, ?_, ?_⟩
  · exact h.appended (row 0) (by simp) _ rfl
  · exact h.appended (row 1) (by simp) _ rfl
  · exact h.kept (first 1) _ (by decide +kernel) rfl

end Operation

end TreePatch
