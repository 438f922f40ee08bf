import TreePatch.Proofs.Patch.Stages
import TreePatch.Proofs.Query.Apart
import TreePatch.Proofs.Query.Elements
import TreePatch.Proofs.Value.LastStep

set_option autoImplicit false

/-!
# Taking out the elements of an array one position after another

A query for the elements of an array is expanded once, to the positions below its size. Each
removal moves the elements behind it one position down, and the next removal is at the next
position, so every other element is skipped: those at even positions go, those at odd positions
stay. Halfway through the positions nothing stands behind those that were skipped, and the run
fails there, unless the array had no more than one element.

* `evens`, `odds`: the elements that go and those that stay.
* `TakesOut`: what one step does, and what it keeps. `TakesOut.sweep` is the loop, for whatever
  takes the elements out.
* `takesOut_remove`, `takesOut_moveTo`: removals, and moves to the end of another array.
* `Operation.apply_remove_or_move_elements`: the two operations.
-/

namespace TreePatch

/-! ## Every other element -/

section EveryOther

variable {α : Type}

/-- The elements at even positions. -/
def evens : List α → List α
  | [] => []
  | [x] => [x]
  | x :: _ :: rest => x :: evens rest

/-- The elements at odd positions. -/
def odds : List α → List α
  | [] => []
  | [_] => []
  | _ :: y :: rest => y :: odds rest

theorem getElem?_evens (xs : List α) (k : Nat) : (evens xs)[k]? = xs[2 * k]? := by
  induction xs using evens.induct generalizing k with
  | case1 => simp [evens]
  | case2 x => cases k <;> simp [evens]
  | case3 x y rest ih =>
      cases k with
      | zero => rfl
      | succ k =>
          rw [evens, List.getElem?_cons_succ, ih]
          rfl

theorem getElem?_odds (xs : List α) (k : Nat) : (odds xs)[k]? = xs[2 * k + 1]? := by
  induction xs using odds.induct generalizing k with
  | case1 => simp [odds]
  | case2 x => simp [odds]
  | case3 x y rest ih =>
      cases k with
      | zero => rfl
      | succ k =>
          rw [odds, List.getElem?_cons_succ, ih]
          rfl

end EveryOther

/-! ## The loop -/

/-- A step takes the element at a position out of a list that a document holds: `At left taken v`
says that `v` holds the elements `left`, and that `taken` have been taken out. Behind the end of
the list the step fails and changes nothing. -/
structure TakesOut (step : Value → Nat → Outcome) (fault : Nat → Nat → Fault)
    (At : List Value → List Value → Value → Prop) : Prop where
  /-- An element that is there is taken out. -/
  takes : ∀ {left taken v i x}, At left taken v → left[i]? = some x →
    ∃ w, step v i = ⟨w, none⟩ ∧ At (left.eraseIdx i) (taken ++ [x]) w
  /-- Where no element is, the step fails. -/
  stops : ∀ {left taken v i}, At left taken v → left.length ≤ i →
    step v i = ⟨v, some (fault i left.length)⟩

/-- The fault that ends a run over the positions of a list. The run gets halfway through them,
and half of the elements are left then. -/
def endsWith (fault : Nat → Nat → Fault) (size : Nat) : Option Fault :=
  if size ≤ 1 then none else some (fault ((size + 1) / 2) (size / 2))

section EndsWith

variable (fault : Nat → Nat → Fault) (i : Nat)

theorem endsWith_double : endsWith fault (2 * i) = if i = 0 then none else some (fault i i) := by
  have hup : (2 * i + 1) / 2 = i := by omega
  have hdown : 2 * i / 2 = i := by omega
  have hsmall : 2 * i ≤ 1 ↔ i = 0 := by omega
  simp only [endsWith, hup, hdown, hsmall]

theorem endsWith_double_succ :
    endsWith fault (2 * i + 1) = if i = 0 then none else some (fault (i + 1) i) := by
  have hup : (2 * i + 1 + 1) / 2 = i + 1 := by omega
  have hdown : (2 * i + 1) / 2 = i := by omega
  have hsmall : 2 * i + 1 ≤ 1 ↔ i = 0 := by omega
  simp only [endsWith, hup, hdown, hsmall]

end EndsWith

namespace TakesOut

variable {step : Value → Nat → Outcome} {fault : Nat → Nat → Fault}
variable {At : List Value → List Value → Value → Prop} {left skipped rest taken xs : List Value}
variable {v x : Value} {i : Nat}

/-- One step behind some elements takes out the next. -/
theorem exists_step (h : TakesOut step fault At) (hv : At (skipped ++ x :: rest) taken v) :
    ∃ w, step v skipped.length = ⟨w, none⟩ ∧ At (skipped ++ rest) (taken ++ [x]) w := by
  have hx : (skipped ++ x :: rest)[skipped.length]? = some x := by simp
  obtain ⟨w, hw, hat⟩ := h.takes hv hx
  rw [List.eraseIdx_append_of_length_le (Nat.le_refl _), Nat.sub_self, List.eraseIdx_cons_zero]
    at hat
  exact ⟨w, hw, hat⟩

/-- Behind the end of the list the first position, if there is one, ends the loop. -/
theorem forEach_of_length_le (h : TakesOut step fault At) (hv : At left taken v)
    (hi : left.length ≤ i) (n : Nat) : Outcome.forEach step v (List.range' i n) =
      ⟨v, if n = 0 then none else some (fault i left.length)⟩ := by
  cases n with
  | zero => rfl
  | succ n =>
      rw [List.range'_succ, Outcome.forEach, h.stops hv hi]
      rfl

/-- The loop, once it has gone past some elements and left them where they are. As many have been
taken out by then, so it began with twice as many and the rest. -/
theorem forEach_range' (h : TakesOut step fault At) (hv : At (skipped ++ rest) taken v) :
    ∃ w, Outcome.forEach step v (List.range' skipped.length (skipped.length + rest.length)) =
        ⟨w, endsWith fault (2 * skipped.length + rest.length)⟩ ∧
      At (skipped ++ odds rest) (taken ++ evens rest) w := by
  -- The recursion of the loop is that of `evens`: two elements make one step forward.
  induction rest using evens.induct generalizing skipped taken v with
  | case1 =>
      refine ⟨v, ?_, by rwa [odds, evens, List.append_nil taken]⟩
      rw [List.append_nil] at hv
      rw [List.length_nil, Nat.add_zero, Nat.add_zero, endsWith_double,
        h.forEach_of_length_le hv (Nat.le_refl _)]
  | case2 x =>
      obtain ⟨w, hw, hat⟩ := h.exists_step hv
      refine ⟨w, ?_, hat⟩
      rw [List.append_nil] at hat
      rw [List.length_singleton, List.range'_succ, Outcome.forEach, hw, endsWith_double_succ]
      exact h.forEach_of_length_le hat (Nat.le_succ _) _
  | case3 x y rest ih =>
      obtain ⟨w, hw, hat⟩ := h.exists_step hv
      rw [List.append_cons] at hat
      obtain ⟨w', hw', hat'⟩ := ih hat
      refine ⟨w', ?_, ?_⟩
      · have hcount : skipped.length + (x :: y :: rest).length =
            (skipped ++ [y]).length + rest.length + 1 := by simp; omega
        have hsize : 2 * skipped.length + (x :: y :: rest).length =
            2 * (skipped ++ [y]).length + rest.length := by simp; omega
        have hnext : skipped.length + 1 = (skipped ++ [y]).length := by simp
        rw [hcount, hsize, List.range'_succ, Outcome.forEach, hw, hnext]
        exact hw'
      · simpa [odds, evens] using hat'

/-- Taking out what stands at one position after another takes every other element. -/
theorem sweep (h : TakesOut step fault At) (hv : At xs [] v) :
    ∃ w, Outcome.forEach step v (List.range xs.length) = ⟨w, endsWith fault xs.length⟩ ∧
      At (odds xs) (evens xs) w := by
  have hstart : At ([] ++ xs) [] v := hv
  rw [List.range_eq_range']
  simpa using h.forEach_range' hstart

end TakesOut

/-! ## Removals and moves -/

section Steps

variable {p q : Path}

/-- The fault of a run that finds nothing at a position of the array at a path. Whatever the
value was wanted for, its kind is that of a target that is not found. -/
def fallsShort (purpose : Purpose) (p : Path) (i size : Nat) : Fault :=
  (p.push (.index i)).fault (.nothing purpose (.pastTheEnd i size))

/-- Removals at positions of an array take its elements out of it. -/
theorem takesOut_remove (d : Value) (p : Path) :
    TakesOut (fun v i => .ofExcept v (v.remove (p.push (.index i)))) (fallsShort .remove p)
      (fun left _ v => d.overwrite p.segments (.array left) = .ok v) where
  takes := by
    intro left taken v i x hv hx
    have hget := Value.get_of_overwrite hv
    obtain ⟨w, hw⟩ := Value.exists_overwrite_of_get hget (.array (left.eraseIdx i))
    have hi : i < left.length := (List.getElem?_eq_some_iff.1 hx).1
    refine ⟨w, ?_, (Value.overwrite_overwrite hv _).symm.trans hw⟩
    rw [(Value.remove_array_iff hget).2 ⟨hi, hw⟩]
    rfl
  stops := by
    intro left taken v i hv hi
    rw [Value.remove_push_of_error (Value.get_of_overwrite hv) (by simp)
      (Value.child_index_of_length_le hi)]
    rfl

/-- A place at the end of one array is not below an element of another. -/
theorem isBelow_push_of_apart (hpq : p.Apart q) (s t : Segment) :
    Command.isBelow (p.push s) (q.push t) = false := by
  rw [← Bool.not_eq_true, Command.isBelow_iff_startsWith_parent (Path.isRoot_push q t),
    Path.parent_push, Path.startsWith_iff, Path.names_push]
  intro h
  exact (Path.apart_iff.1 hpq).1 ((List.prefix_append _ _).trans h)

/-- Moves from positions of an array take its elements out and leave them behind those of another
array. -/
theorem takesOut_moveTo (d : Value) (ys : List Value) (hpq : p.Apart q) :
    TakesOut (fun v i => Command.moveTo [q.push .append] v (p.push (.index i)))
      (fallsShort .source p)
      (fun left taken v => ∃ u, d.overwrite p.segments (.array left) = .ok u ∧
        u.overwrite q.segments (.array (ys ++ taken)) = .ok v) where
  takes := by
    intro left taken v i x hv hx
    obtain ⟨u, hu, hv⟩ := hv
    have hi : i < left.length := (List.getElem?_eq_some_iff.1 hx).1
    have hget : v.get p = .ok (.array left) := by
      rw [Value.get_overwrite_of_apart hv hpq.symm, Value.get_of_overwrite hu]
    have hsource : v.get (p.push (.index i)) = .ok x :=
      (Value.get_push_iff hget).2 (Value.child_index_iff.2 hx)
    obtain ⟨v', hv'⟩ := Value.exists_overwrite_of_get hget (.array (left.eraseIdx i))
    obtain ⟨u', hu'⟩ := Value.exists_overwrite_of_get (Value.get_of_overwrite hu)
      (.array (left.eraseIdx i))
    -- The removal might as well come before the earlier insertions, which are elsewhere.
    have hswap : u'.overwrite q.segments (.array (ys ++ taken)) = .ok v' := by
      rw [Value.overwrite_comm_of_apart hu' hv hpq, hv']
    obtain ⟨w, hw⟩ := Value.exists_overwrite_of_get (Value.get_of_overwrite hswap)
      (.array (ys ++ taken ++ [x]))
    have hremove : v.remove (p.push (.index i)) = .ok v' :=
      (Value.remove_array_iff hget).2 ⟨hi, hv'⟩
    have hadd : v'.add (q.push .append) x = .ok w :=
      (Value.add_push_iff (Value.get_of_overwrite hswap)).2 ⟨_, rfl, hw⟩
    refine ⟨w, ?_, u', ?_, ?_⟩
    · rw [Command.moveTo_of_remove hsource (isBelow_push_of_apart hpq _ _) hremove, hadd]
      rfl
    · rw [← Value.overwrite_overwrite hu, hu']
    · rw [← List.append_assoc, ← Value.overwrite_overwrite hswap, hw]
  stops := by
    intro left taken v i hv hi
    obtain ⟨u, hu, hv⟩ := hv
    have hget : v.get p = .ok (.array left) := by
      rw [Value.get_overwrite_of_apart hv hpq.symm, Value.get_of_overwrite hu]
    exact Command.moveTo_of_follow_error
      ((Value.follow_push hget _).trans (Value.child_index_of_length_le hi))

end Steps

/-! ## Operations -/

namespace Operation

variable {d : Value} {t : Text} {p : Path} {xs : List Value}

/-- Removing all elements of an array by a query takes out those at even positions, and so does
moving them to the end of another array, which gets them in order. Those at odd positions stay.
Both runs end with a fault at the position halfway through the array, unless it has no more than
one element, and they change nothing but the arrays. -/
theorem apply_remove_or_move_elements (ht : Path.IsPlainPointer t)
    (hp : Path.parsePointer t = .ok p) (hx : d.get p = .ok (.array xs)) :
    ∃ stay go : List Value,
      (∀ k, stay[k]? = xs[2 * k + 1]?) ∧ (∀ k, go[k]? = xs[2 * k]?) ∧
      (∀ o : Operation, o.command = .ok (.remove (Text.dollar :: (t ++ utf8 "/*"))) →
        ∃ d', o.apply d =
            ⟨d', (endsWith (fallsShort .remove p) xs.length).map (Fault.under o.op)⟩ ∧
          d.replace p (.array stay) = .ok d') ∧
      ∀ (o : Operation) (u : Text) (q : Path) (ys : List Value), Path.parsePointer u = .ok q →
        d.get q = .ok (.array ys) → p.Apart q →
        o.command = .ok (.move (Text.dollar :: (t ++ utf8 "/*")) (u ++ utf8 "/-")) →
        ∃ d₁ d', o.apply d =
            ⟨d', (endsWith (fallsShort .source p) xs.length).map (Fault.under o.op)⟩ ∧
          d.replace p (.array stay) = .ok d₁ ∧
          d₁.replace q (.array (ys ++ go)) = .ok d' ∧ d'.get p = .ok (.array stay) := by
  have hplaces := Path.expandPath_elements ht hp hx
  have hself := Value.overwrite_of_follow (Value.get_eq_ok_iff.1 hx)
  simp only [Value.replace_eq_ok_iff]
  refine ⟨odds xs, evens xs, getElem?_odds xs, getElem?_evens xs, fun o ho => ?_,
    fun o u q ys hu hy hpq ho => ?_⟩
  · obtain ⟨d', hrun, hd'⟩ := (takesOut_remove d p).sweep hself
    refine ⟨d', ?_, hd'⟩
    rw [apply, ho]
    simp only [Command.run, Command.withPlaces_of_ok hplaces, Command.removeAll,
      Outcome.forEach_map, hrun, Outcome.under]
  · have hend := Path.expandPath_pointer (Path.parsePointer_end hu) d
    have hstart : ∃ u, d.overwrite p.segments (.array xs) = .ok u ∧
        u.overwrite q.segments (.array (ys ++ [])) = .ok d := by
      rw [List.append_nil]
      exact ⟨d, hself, Value.overwrite_of_follow (Value.get_eq_ok_iff.1 hy)⟩
    obtain ⟨d', hrun, d₁, hd₁, hd'⟩ := (takesOut_moveTo d ys hpq).sweep hstart
    have hget : d'.get p = .ok (.array (odds xs)) := by
      rw [Value.get_overwrite_of_apart hd' hpq.symm, Value.get_of_overwrite hd₁]
    refine ⟨d₁, d', ?_, hd₁, hd', hget⟩
    rw [apply, ho]
    simp only [Command.run, Command.withPlaces_of_ok hplaces, Command.withPlaces_of_ok hend,
      Outcome.forEach_map, hrun, Outcome.under]

/-- Of five elements the first, the third and the fifth go, and then there is nothing at the
fourth position. -/
theorem apply_remove_or_move_elements_five :
    let cell := fun name : String => Value.string (utf8 name)
    let xs := [cell "a", cell "b", cell "c", cell "d", cell "e"]
    let d : Value := .object [(utf8 "from", .array xs), (utf8 "to", .array [.null])]
    let p := Path.ofSegments [.key (utf8 "from")]
    let fault := fun (purpose : Purpose) (op : String) => Fault.mk
      (.nothing purpose (.pastTheEnd 3 2)) (utf8 "/from/3") (utf8 op)
    Path.IsPlainPointer (utf8 "/from") ∧ Path.parsePointer (utf8 "/from") = .ok p ∧
      d.get p = .ok (.array xs) ∧
      (remove (utf8 "$/from/*")).apply d =
        ⟨.object [(utf8 "from", .array [cell "b", cell "d"]), (utf8 "to", .array [.null])],
          some (fault .remove "remove")⟩ ∧
      (move (utf8 "$/from/*") (utf8 "/to/-")).apply d =
        ⟨.object [(utf8 "from", .array [cell "b", cell "d"]),
          (utf8 "to", .array [.null, cell "a", cell "c", cell "e"])],
          some (fault .source "move")⟩ := by
  intro cell xs d p fault
  have ht : Path.IsPlainPointer (utf8 "/from") := .inr ⟨utf8 "from", rfl, by decide⟩
  have hp : Path.parsePointer (utf8 "/from") = .ok p := by decide +kernel
  have hx : d.get p = .ok (.array xs) := rfl
  have hq : Path.parsePointer (utf8 "/to") = .ok (.ofSegments [.key (utf8 "to")]) := by
    decide +kernel
  obtain ⟨stay, go, hstay, hgo, hremove, hmove⟩ := apply_remove_or_move_elements ht hp hx
  obtain rfl : stay = odds xs :=
    List.ext_getElem? fun k => (hstay k).trans (getElem?_odds xs k).symm
  obtain rfl : go = evens xs :=
    List.ext_getElem? fun k => (hgo k).trans (getElem?_evens xs k).symm
  obtain ⟨d', hrun, hd'⟩ := hremove (remove (utf8 "$/from/*")) (by decide +kernel)
  obtain ⟨d₁, d'', hrun', hd₁, hd'', -⟩ := hmove (move (utf8 "$/from/*") (utf8 "/to/-"))
    (utf8 "/to") _ [.null] hq rfl ⟨by decide, by decide⟩ (by decide +kernel)
  obtain rfl := Except.ok.inj (hd'.symm.trans hd₁)
  cases hd'
  cases hd''
  exact ⟨ht, hp, hx, hrun.trans (by decide +kernel), hrun'.trans (by decide +kernel)⟩

end Operation

end TreePatch
