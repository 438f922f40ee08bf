import TreePatch.Proofs.Patch.MemberOrder
import TreePatch.Proofs.Patch.OneDepth
import TreePatch.Proofs.Patch.Stages
import TreePatch.Proofs.Value.PutBack

set_option autoImplicit false

/-!
# Moving places onto themselves

A move from an expression to the same expression takes out one of its places after the other and
inserts each value at all of them. All places are of one depth, so every step of every round
succeeds (`Command.exists_forEach_moveTo`). One place gets its value back. With more places the
rounds do more than that:

* `Command.hasLength_forEach_moveTo`: an array loses an element in the rounds of its own places
  and gains one for each of them in every round.
* `Command.get_of_forEach_moveTo`: members all get the value of the first place, which the later
  rounds only pass on.
* `Command.exists_moveTo_equivalent`: a round among members that hold one value changes nothing
  but the order of members.

So `Operation.apply_move_onto_itself` says when such a move leaves the document as it was. The
root, which cannot be taken out, is no place for it.
-/

namespace TreePatch

namespace Command

variable {d d' w x : Value} {p q b : Path} {places sources : List Path} {n size : Nat}

/-- What an insertion at each of the places keeps, the insertion at all of them keeps. -/
theorem kept_of_addAll {P : Value → Prop} (hd' : addAll x places d = ⟨d', none⟩)
    (hstep : ∀ q ∈ places, ∀ v w, P v → v.add q x = .ok w → P w) (h : P d) : P d' := by
  have hkept : P (addAll x places d).document := by
    refine Outcome.document_forEach (fun v hv q hq => ?_) h
    exact Outcome.document_ofExcept hv fun w hw => hstep q hq v w hv hw
  rwa [hd'] at hkept

/-- No place is below another of its depth. -/
theorem isBelow_of_size_eq (h : p.size = q.size) : isBelow p q = false := by
  simp [isBelow, h]

/-- A round of the root fails and leaves the document. -/
theorem moveTo_root (hroot : p.isRoot = true) (hsize : ∀ q ∈ places, p.size = q.size) :
    moveTo places d p = .failed d { cause := .rootRemoval } := by
  have hx : d.get p = .ok d := by
    rw [Value.get_eq_ok_iff, List.isEmpty_iff.1 hroot]
    rfl
  have hfind : places.find? (isBelow p) = none :=
    List.find?_eq_none.2 fun q hq => by simp [isBelow_of_size_eq (hsize q hq)]
  rw [moveTo, fetch_eq_ok_iff.2 hx]
  simp only [hfind, Value.remove_root hroot]
  rfl

/-- A round of one place puts its value back. -/
theorem exists_moveTo_self (hd : d.WellFormed) (hroot : p.isRoot = false)
    (hx : d.get p = .ok x) : ∃ d', moveTo [p] d p = ⟨d', none⟩ ∧ d.Equivalent d' := by
  obtain ⟨w, d', hw, hadd, h⟩ := Value.exists_add_back_equivalent hd hroot hx
  exact ⟨d', by rw [moveTo_of_remove hx (isBelow_of_size_eq rfl) hw, hadd, Outcome.ofExcept], h⟩

/-- Inserting a value over members that hold equivalent ones gives an equivalent document. -/
theorem exists_addAll_equivalent (hd : d.WellFormed) (hx : x.WellFormed)
    (h : ∀ q ∈ places, q.isRoot = false ∧ (∃ ms, d.get q.parent = .ok (.object ms)) ∧
      ∃ y, d.get q = .ok y ∧ y.Equivalent x) :
    ∃ d', addAll x places d = ⟨d', none⟩ ∧ d.Equivalent d' := by
  refine Outcome.exists_forEach_equivalent hd
    (fun q _ _ hvw => Outcome.equivalent_ofExcept hvw (hvw.add hx.equivalent q)) fun q hq => ?_
  obtain ⟨hroot, ⟨ms, hms⟩, y, hy, hyx⟩ := h q hq
  obtain ⟨d', hd', hdd'⟩ := Value.exists_add_equivalent hd hroot hms hy hyx
  exact ⟨d', Outcome.ofExcept_eq_iff.2 hd', hdd'⟩

section Depth

variable (hdepth : ∀ p ∈ places, p.size = n + 1) (hb : b.size = n)
include hdepth

/-! ## All rounds succeed -/

/-- A value can be inserted at all places that have room, and then there is a value at each. -/
theorem exists_addAll (x : Value) (hroom : ∀ p ∈ places, d.HasRoomAt p) :
    ∃ d', addAll x places d = ⟨d', none⟩ ∧ ∀ p ∈ places, ∃ y, d'.get p = .ok y := by
  induction places generalizing d with
  | nil => exact ⟨d, rfl, by simp⟩
  | cons p places ih =>
      obtain ⟨hp, hplaces⟩ := List.forall_mem_cons.1 hdepth
      obtain ⟨hroomp, hroom⟩ := List.forall_mem_cons.1 hroom
      obtain ⟨d₁, hd₁, hx⟩ := hroomp.exists_add x
      obtain ⟨d', hd', hget⟩ := ih hplaces fun q hq => (hroom q hq).add hp (hplaces q hq) hd₁
      refine ⟨d', Outcome.forEach_ofExcept_cons_iff.2 ⟨d₁, hd₁, hd'⟩, ?_⟩
      refine List.forall_mem_cons.2 ⟨?_, hget⟩
      refine kept_of_addAll (P := fun w => ∃ y, w.get p = .ok y) hd' ?_ ⟨x, hx⟩
      intro q hq v w hv hw
      obtain ⟨y, hy⟩ := hv
      exact Value.exists_get_of_add (hplaces q hq) hp hw hy

/-- Where there is a value at each place, one round succeeds and leaves a value at each. -/
theorem exists_moveTo (hget : ∀ q ∈ places, ∃ y, d.get q = .ok y) (hp : p ∈ places) :
    ∃ d', moveTo places d p = ⟨d', none⟩ ∧ ∀ q ∈ places, ∃ y, d'.get q = .ok y := by
  obtain ⟨x, hx⟩ := hget p hp
  obtain ⟨w, hw⟩ := Value.exists_remove_iff.2 ⟨Path.isRoot_of_size (hdepth p hp), x, hx⟩
  have hroom : ∀ q ∈ places, w.HasRoomAt q := by
    intro q hq
    obtain ⟨y, hy⟩ := hget q hq
    exact Value.hasRoomAt_of_remove (hdepth p hp) (hdepth q hq) hw hy
  have hbelow : ∀ q ∈ places, isBelow p q = false := fun q hq =>
    isBelow_of_size_eq ((hdepth p hp).trans (hdepth q hq).symm)
  obtain ⟨d', hd', hget'⟩ := exists_addAll hdepth x hroom
  exact ⟨d', moveTo_eq_none_iff.2 ⟨x, w, hx, hbelow, hw, hd'⟩, hget'⟩

/-- Where there is a value at each place, all rounds succeed. -/
theorem exists_forEach_moveTo (hget : ∀ q ∈ places, ∃ y, d.get q = .ok y)
    (hsources : sources ⊆ places) :
    ∃ d', Outcome.forEach (moveTo places) d sources = ⟨d', none⟩ := by
  induction sources generalizing d with
  | nil => exact ⟨d, rfl⟩
  | cons p sources ih =>
      obtain ⟨hp, hsources⟩ := List.cons_subset.1 hsources
      obtain ⟨d₁, hd₁, hget₁⟩ := exists_moveTo hdepth hget hp
      obtain ⟨d', hd'⟩ := ih hget₁ hsources
      exact ⟨d', Outcome.forEach_cons_iff.2 ⟨d₁, hd₁, hd'⟩⟩

/-! ## Arrays grow -/

include hb

/-- An array gains an element for each place that stands in it. -/
theorem hasLength_addAll (hd' : addAll x places d = ⟨d', none⟩)
    (h : ∃ e, d.get b = .ok e ∧ e.HasLength size) :
    ∃ e, d'.get b = .ok e ∧ e.HasLength (size + places.countP (·.parent.same b)) := by
  induction places generalizing d size with
  | nil =>
      cases hd'
      exact h
  | cons p places ih =>
      obtain ⟨hp, hplaces⟩ := List.forall_mem_cons.1 hdepth
      obtain ⟨d₁, hd₁, hrest⟩ := Outcome.forEach_ofExcept_cons_iff.1 hd'
      have hgrown := ih hplaces hrest (Value.hasLength_of_add hp hb hd₁ h)
      rw [List.countP_cons, Nat.add_comm (places.countP _), ← Nat.add_assoc]
      exact hgrown

/-- A round also takes an element out of the array in which its source stands. -/
theorem hasLength_moveTo (hp : p.size = n + 1) (hd' : moveTo places d p = ⟨d', none⟩)
    (h : ∃ e, d.get b = .ok e ∧ e.HasLength size) :
    ∃ left, (∃ e, d'.get b = .ok e ∧ e.HasLength left) ∧
      (left + if p.parent.same b then 1 else 0) = size + places.countP (·.parent.same b) := by
  obtain ⟨x, w, -, -, hw, hadd⟩ := moveTo_eq_none_iff.1 hd'
  obtain ⟨e, he, left, hleft, rfl⟩ := Value.hasLength_of_remove hp hb hw h
  exact ⟨_, hasLength_addAll hdepth hb hadd ⟨e, he, hleft⟩, Nat.add_right_comm _ _ _⟩

/-- In all rounds an array loses an element for each source that stands in it, and gains one for
each place that does, as often as there are sources. -/
theorem hasLength_forEach_moveTo (hsources : ∀ p ∈ sources, p.size = n + 1)
    (hd' : Outcome.forEach (moveTo places) d sources = ⟨d', none⟩)
    (h : ∃ e, d.get b = .ok e ∧ e.HasLength size) :
    ∃ left, (∃ e, d'.get b = .ok e ∧ e.HasLength left) ∧
      left + sources.countP (·.parent.same b) =
        size + sources.length * places.countP (·.parent.same b) := by
  induction sources generalizing d size with
  | nil =>
      cases hd'
      exact ⟨size, h, by simp⟩
  | cons p sources ih =>
      obtain ⟨hp, hsources⟩ := List.forall_mem_cons.1 hsources
      obtain ⟨d₁, hd₁, hrest⟩ := Outcome.forEach_cons_iff.1 hd'
      obtain ⟨left₁, hleft₁, hsize₁⟩ := hasLength_moveTo hdepth hb hp hd₁ h
      obtain ⟨left, hleft, hsize⟩ := ih hsources hrest hleft₁
      refine ⟨left, hleft, ?_⟩
      rw [List.countP_cons, List.length_cons, Nat.succ_mul]
      omega

omit hb

/-- With a second place an array is longer after all rounds. -/
theorem not_equivalent_of_forEach_moveTo {xs : List Value} (hp : p ∈ places)
    (hmore : 1 < places.length) (hxs : d.get p.parent = .ok (.array xs))
    (hd' : Outcome.forEach (moveTo places) d places = ⟨d', none⟩) : ¬d.Equivalent d' := by
  intro h
  obtain ⟨_, ⟨e, he, ys, rfl, rfl⟩, hsize⟩ := hasLength_forEach_moveTo hdepth
    (Path.size_parent (hdepth p hp)) hdepth hd' ⟨_, hxs, xs, rfl, rfl⟩
  have hsame : xs.length = ys.length :=
    length_eq_of_rel (Value.equivalent_array_iff.1 (h.of_get hxs he))
  have hcount : 0 < places.countP (·.parent.same p.parent) :=
    List.countP_pos_iff.2 ⟨p, hp, Path.same_iff.2 rfl⟩
  have htwice := Nat.mul_le_mul_right (places.countP (·.parent.same p.parent)) hmore
  omega

/-! ## Members get one value -/

/-- Members hold the value that was inserted at all of them. -/
theorem get_of_addAll (hapart : places.Pairwise Path.Apart)
    (hms : ∀ q ∈ places, ∃ ms, d.get q.parent = .ok (.object ms))
    (hd' : addAll x places d = ⟨d', none⟩) : ∀ q ∈ places, d'.get q = .ok x := by
  induction places generalizing d with
  | nil => simp
  | cons p places ih =>
      obtain ⟨hp, hplaces⟩ := List.forall_mem_cons.1 hdepth
      obtain ⟨hpapart, hapart⟩ := List.pairwise_cons.1 hapart
      obtain ⟨⟨ms, hpms⟩, hms⟩ := List.forall_mem_cons.1 hms
      obtain ⟨d₁, hd₁, hrest⟩ := Outcome.forEach_ofExcept_cons_iff.1 hd'
      have hobject : ∀ r : Path, r.size = n + 1 → ∀ v w : Value, v.add r x = .ok w →
          ∀ q ∈ places, (∃ ms, v.get q.parent = .ok (.object ms)) →
            ∃ ms, w.get q.parent = .ok (.object ms) :=
        fun r hr v w hw q hq => Value.exists_object_of_add hr (Path.size_parent (hplaces q hq)) hw
      have hms₁ : ∀ q ∈ places, ∃ ms, d₁.get q.parent = .ok (.object ms) :=
        fun q hq => hobject p hp d d₁ hd₁ q hq (hms q hq)
      refine List.forall_mem_cons.2 ⟨?_, ih hplaces hapart hms₁ hrest⟩
      -- The later insertions are of members, too, and leave the first.
      have hfirst := Value.get_of_add_member hp hpms hd₁
      refine (kept_of_addAll (P := fun w => w.get p = .ok x ∧
        ∀ q ∈ places, ∃ ms, w.get q.parent = .ok (.object ms)) hrest ?_ ⟨hfirst, hms₁⟩).1
      intro r hr v w hv hw
      obtain ⟨hpx, hv⟩ := hv
      obtain ⟨ns, hns⟩ := hv r hr
      exact ⟨Value.get_add_of_apart (hplaces r hr) hp hns hw (hpapart r hr).symm hpx,
        fun q hq => hobject r (hplaces r hr) v w hw q hq (hv q hq)⟩

section Members

variable (hapart : places.Pairwise Path.Apart)
variable (hms : ∀ q ∈ places, ∃ ms, d.get q.parent = .ok (.object ms))
include hms

/-- A round leaves the objects in which the places stand. -/
theorem exists_object_of_moveTo (hp : p ∈ places) (hd' : moveTo places d p = ⟨d', none⟩) :
    ∀ q ∈ places, ∃ ms, d'.get q.parent = .ok (.object ms) := by
  intro q hq
  have hparent := Path.size_parent (hdepth q hq)
  obtain ⟨x, w, -, -, hw, hadd⟩ := moveTo_eq_none_iff.1 hd'
  refine kept_of_addAll (P := fun w => ∃ ms, w.get q.parent = .ok (.object ms)) hadd ?_
    (Value.exists_object_of_remove (hdepth p hp) hparent hw (hms q hq))
  exact fun r hr v w hv hw => Value.exists_object_of_add (hdepth r hr) hparent hw hv

include hapart

/-- A round leaves the value of its source at all members. -/
theorem get_of_moveTo (hp : p ∈ places) (hx : d.get p = .ok x)
    (hd' : moveTo places d p = ⟨d', none⟩) : ∀ q ∈ places, d'.get q = .ok x := by
  obtain ⟨y, w, hy, -, hw, hadd⟩ := moveTo_eq_none_iff.1 hd'
  obtain rfl : x = y := Except.ok.inj (hx.symm.trans hy)
  refine get_of_addAll hdepth hapart (fun q hq => ?_) hadd
  exact Value.exists_object_of_remove (hdepth p hp) (Path.size_parent (hdepth q hq)) hw (hms q hq)

/-- Where all members hold one value, they do so after all rounds. -/
theorem get_of_forEach_moveTo (hsources : sources ⊆ places) (hx : ∀ q ∈ places, d.get q = .ok x)
    (hd' : Outcome.forEach (moveTo places) d sources = ⟨d', none⟩) :
    ∀ q ∈ places, d'.get q = .ok x := by
  induction sources generalizing d with
  | nil =>
      cases hd'
      exact hx
  | cons p sources ih =>
      obtain ⟨hp, hsources⟩ := List.cons_subset.1 hsources
      obtain ⟨d₁, hd₁, hrest⟩ := Outcome.forEach_cons_iff.1 hd'
      exact ih (exists_object_of_moveTo hdepth hms hp hd₁) hsources
        (get_of_moveTo hdepth hapart hms hp (hx p hp) hd₁) hrest

/-- After all rounds all members hold the value of the first place. -/
theorem get_of_forEach_moveTo_cons {rest : List Path} (hplaces : places = p :: rest)
    (hx : d.get p = .ok x) (hd' : Outcome.forEach (moveTo places) d places = ⟨d', none⟩) :
    ∀ q ∈ places, d'.get q = .ok x := by
  have hp : p ∈ places := hplaces ▸ List.mem_cons_self
  have hrest : rest ⊆ places := hplaces ▸ List.subset_cons_self p rest
  obtain ⟨d₁, hd₁, hd'⟩ : ∃ d₁, moveTo places d p = ⟨d₁, none⟩ ∧
      Outcome.forEach (moveTo places) d₁ rest = ⟨d', none⟩ := by
    rw [← Outcome.forEach_cons_iff, ← hplaces]
    exact hd'
  exact get_of_forEach_moveTo hdepth hapart (exists_object_of_moveTo hdepth hms hp hd₁) hrest
    (get_of_moveTo hdepth hapart hms hp hx hd₁) hd'

/-! ## Rounds among members of one value -/

/-- Where all members hold the value of a round's source, up to the order of members, the round
changes no more than this order. -/
theorem exists_moveTo_equivalent (hd : d.WellFormed) (hp : p ∈ places) (hx : d.get p = .ok x)
    (hsame : ∀ q ∈ places, ∃ y, d.get q = .ok y ∧ y.Equivalent x) :
    ∃ d', moveTo places d p = ⟨d', none⟩ ∧ d.Equivalent d' := by
  have hroot : ∀ q ∈ places, q.isRoot = false := fun q hq => Path.isRoot_of_size (hdepth q hq)
  have hbelow : ∀ q ∈ places, isBelow p q = false := fun q hq =>
    isBelow_of_size_eq ((hdepth p hp).trans (hdepth q hq).symm)
  obtain ⟨ms, hpms⟩ := hms p hp
  obtain ⟨w, w', hw, hadd, hback⟩ := Value.exists_add_back_equivalent hd (hroot p hp) hx
  obtain ⟨before, after, rfl⟩ := List.append_of_mem hp
  obtain ⟨-, -, hcross⟩ := List.pairwise_append.1 hapart
  -- Before the source's turn the values go in over others in the document without it.
  obtain ⟨u, hu, hwu⟩ : ∃ u, addAll x before w = ⟨u, none⟩ ∧ w.Equivalent u := by
    refine exists_addAll_equivalent (hd.remove hw) (hd.get hx) fun q hq => ?_
    have hq' := List.mem_append_left (p :: after) hq
    obtain ⟨y, hy, hyx⟩ := hsame q hq'
    have hpq : p.Apart q := (hcross q hq p List.mem_cons_self).symm
    have hy' : w.get q = .ok y :=
      (Value.get_remove_of_apart (hdepth p hp) hpms hd hw hpq).trans hy
    exact ⟨hroot q hq', Value.exists_object_of_remove (hdepth p hp)
      (Path.size_parent (hdepth q hq')) hw (hms q hq'), y, hy', hyx⟩
  -- At its turn it comes back.
  obtain ⟨v, hv, hdv⟩ : ∃ v, u.add p x = .ok v ∧ d.Equivalent v := by
    rcases (hwu.add (hd.get hx).equivalent p).cases with ⟨_, v, ha, hv, hav⟩ | ⟨f, hf, -⟩
    · obtain rfl := Except.ok.inj (hadd.symm.trans ha)
      exact ⟨v, hv, hback.trans hav⟩
    · cases hadd.symm.trans hf
  -- After it the values go in over others in the document as it was.
  obtain ⟨u', hu', hdu'⟩ : ∃ u', addAll x after d = ⟨u', none⟩ ∧ d.Equivalent u' := by
    refine exists_addAll_equivalent hd (hd.get hx) fun q hq => ?_
    have hq' := List.mem_append_right before (List.mem_cons_of_mem p hq)
    exact ⟨hroot q hq', hms q hq', hsame q hq'⟩
  have hafter := addAll_equivalent (hd.get hx).equivalent after hdv
  rw [hu'] at hafter
  obtain ⟨d', hd', hu'd'⟩ := hafter.exists_of_none
  refine ⟨d', moveTo_eq_none_iff.2 ⟨x, w, hx, hbelow, hw, ?_⟩, hdu'.trans hu'd'⟩
  rw [addAll] at hu ⊢
  rw [Outcome.forEach_append, hu, Outcome.andThen_none, Outcome.forEach_ofExcept_cons_iff]
  exact ⟨v, hv, hd'⟩

end Members

/-! ## All rounds -/

section Rounds

variable (hapart : places.Pairwise Path.Apart) (hget : ∀ q ∈ places, ∃ y, d.get q = .ok y)
include hapart hget

/-- If all rounds leave an equivalent document and there is a second place, then all places are
members of objects and hold one value. -/
theorem one_value_of_equivalent (hmore : 1 < places.length)
    (hd' : Outcome.forEach (moveTo places) d places = ⟨d', none⟩) (h : d.Equivalent d') :
    (∀ p ∈ places, ∃ ms, d.get p.parent = .ok (.object ms)) ∧
      ∀ p ∈ places, ∀ q ∈ places, ∀ x y, d.get p = .ok x → d.get q = .ok y → x.Equivalent y := by
  have hms : ∀ p ∈ places, ∃ ms, d.get p.parent = .ok (.object ms) := by
    intro p hp
    obtain ⟨x, hx⟩ := hget p hp
    refine (Value.exists_container_of_get (Path.isRoot_of_size (hdepth p hp)) hx).resolve_left
      fun harray => ?_
    obtain ⟨xs, hxs⟩ := harray
    exact not_equivalent_of_forEach_moveTo hdepth hp hmore hxs hd' h
  refine ⟨hms, fun p hp q hq x y hx hy => ?_⟩
  -- In the new document both hold the value of the first place.
  obtain ⟨r, rest, hfirst⟩ := List.exists_cons_of_ne_nil (List.ne_nil_of_mem hp)
  obtain ⟨z, hz⟩ := hget r (hfirst ▸ List.mem_cons_self)
  have hall := get_of_forEach_moveTo_cons hdepth hapart hms hfirst hz hd'
  exact (h.of_get hx (hall p hp)).trans (h.of_get hy (hall q hq)).symm

/-- If there is one place, or all are members of objects and hold one value, all rounds leave an
equivalent document. -/
theorem exists_forEach_moveTo_equivalent (hd : d.WellFormed)
    (h : places.length ≤ 1 ∨ (∀ p ∈ places, ∃ ms, d.get p.parent = .ok (.object ms)) ∧
      ∀ p ∈ places, ∀ q ∈ places, ∀ x y, d.get p = .ok x → d.get q = .ok y → x.Reordered y) :
    ∃ d', Outcome.forEach (moveTo places) d places = ⟨d', none⟩ ∧ d.Equivalent d' := by
  refine Outcome.exists_forEach_equivalent hd
    (fun p _ _ hvw => moveTo_equivalent places hvw p) fun p hp => ?_
  obtain ⟨x, hx⟩ := hget p hp
  rcases h with hone | ⟨hms, hsame⟩
  · obtain ⟨q, rfl⟩ :=
      List.length_eq_one_iff.1 (Nat.le_antisymm hone (List.length_pos_of_mem hp))
    obtain rfl := List.mem_singleton.1 hp
    exact exists_moveTo_self hd (Path.isRoot_of_size (hdepth p hp)) hx
  · refine exists_moveTo_equivalent hdepth hapart hms hd hp hx fun q hq => ?_
    obtain ⟨y, hy⟩ := hget q hq
    exact ⟨y, hy, (hsame q hq p hp y x hy hx).equivalent (hd.get hy)⟩

end Rounds

end Depth

end Command

/-! ## The operation -/

namespace Operation

variable {d : Value} {o : Operation} {text : Text} {places : List Path}

/-- The places of an expression have a depth below the root, unless one of them is the root. -/
theorem exists_depth (hd : d.WellFormed) (hplaces : Path.expandPath d text = .ok places)
    (hroot : ∀ p ∈ places, p.isRoot = false) : ∃ n, ∀ p ∈ places, p.size = n + 1 := by
  cases places with
  | nil => exact ⟨0, by simp⟩
  | cons p rest =>
      obtain ⟨a, s, rfl⟩ := Path.exists_push (hroot p List.mem_cons_self)
      refine ⟨a.size, fun q hq => ?_⟩
      rw [Path.size_eq_of_mem_expandPath hd hplaces hq List.mem_cons_self, Path.size_push]

/-- A move of the root onto itself is refused and leaves the document. -/
theorem apply_move_root_onto_itself (hd : d.WellFormed) (ho : o.command = .ok (.move text text))
    (hplaces : Path.expandPath d text = .ok places) (hroot : ∃ p ∈ places, p.isRoot = true) :
    o.apply d = .failed d { cause := .rootRemoval, op := o.op } := by
  obtain ⟨p, hp, hproot⟩ := hroot
  have hsize := fun q hq => Path.size_eq_of_mem_expandPath hd hplaces (p := q) hq hp
  obtain ⟨r, rest, rfl⟩ := List.exists_cons_of_ne_nil (List.ne_nil_of_mem hp)
  -- The first place is as deep as the root.
  have hr : r.isRoot = true := by
    have hzero : r.size = 0 := by
      rw [hsize r List.mem_cons_self, Path.size, List.isEmpty_iff.1 hproot, List.length_nil]
    exact List.isEmpty_iff.2 (List.eq_nil_of_length_eq_zero hzero)
  have hrun : Command.run d (.move text text) = .failed d { cause := .rootRemoval } := by
    rw [Command.run_of_expandPath hplaces hplaces, Command.runAt, Outcome.forEach,
      Command.moveTo_root hr fun q hq => (hsize r List.mem_cons_self).trans (hsize q hq).symm]
    rfl
  rw [apply, ho]
  simp only [hrun]
  rfl

/-- A move from an expression to itself, with a value at each of its places, succeeds unless it is
of the root. It leaves the document up to the order of members exactly if there is at most one
place, or if all places are members of objects and hold one value, up to the order of members
again. -/
theorem apply_move_onto_itself (hd : d.WellFormed) (ho : o.command = .ok (.move text text))
    (hplaces : Path.expandPath d text = .ok places) (hget : ∀ p ∈ places, ∃ x, d.get p = .ok x) :
    ((∃ p ∈ places, p.isRoot = true) →
      o.apply d = .failed d { cause := .rootRemoval, op := o.op }) ∧
    ((∀ p ∈ places, p.isRoot = false) → ∃ d', o.applied d = .ok d' ∧
      (d.Reordered d' ↔ places.length ≤ 1 ∨
        (∀ p ∈ places, ∃ ms, d.get p.parent = .ok (.object ms)) ∧
          ∀ p ∈ places, ∀ q ∈ places, ∀ x y, d.get p = .ok x → d.get q = .ok y →
            x.Reordered y)) := by
  refine ⟨apply_move_root_onto_itself hd ho hplaces, fun hroot => ?_⟩
  obtain ⟨n, hdepth⟩ := exists_depth hd hplaces hroot
  have hapart := Path.pairwise_apart_of_expandPath hd hplaces
  obtain ⟨d', hd'⟩ := Command.exists_forEach_moveTo hdepth hget (List.Subset.refl places)
  refine ⟨d', applied_eq_ok_iff.2
    ⟨_, ho, (Command.run_of_expandPath hplaces hplaces).trans hd'⟩, fun h => ?_, fun h => ?_⟩
  · rw [or_iff_not_imp_left, Nat.not_le]
    intro hmore
    obtain ⟨hms, hsame⟩ := Command.one_value_of_equivalent hdepth hapart hget hmore hd'
      (h.equivalent hd)
    exact ⟨hms, fun p hp q hq x y hx hy => (hsame p hp q hq x y hx hy).reordered⟩
  · obtain ⟨w, hw, hdw⟩ := Command.exists_forEach_moveTo_equivalent hdepth hapart hget hd h
    obtain rfl : w = d' := congrArg Outcome.document (hw.symm.trans hd')
    exact hdw.reordered

/-- Two members that hold one value in two orders both get the order of the first. Two equal
elements become four. The root stays. -/
theorem apply_move_onto_itself_all :
    let v : Value := .object [(utf8 "x", .null), (utf8 "y", .bool true)]
    let v' : Value := .object [(utf8 "y", .bool true), (utf8 "x", .null)]
    let d : Value := .object [(utf8 "a", v), (utf8 "b", v')]
    let d' : Value := .object [(utf8 "a", v), (utf8 "b", v)]
    let e : Value := .array [.null, .null]
    let e' : Value := .array [.null, .null, .null, .null]
    let o : Operation := .move (utf8 "$/*") (utf8 "$/*")
    (o.applied d = .ok d' ∧ d.Reordered d') ∧ (o.applied e = .ok e' ∧ ¬e.Reordered e') ∧
      (move [] []).apply d = .failed d { cause := .rootRemoval, op := utf8 "move" } := by
  intro v v' d d' e e' o
  have hd : d.WellFormed := by decide
  have he : e.WellFormed := by decide
  have ho : o.command = .ok (.move (utf8 "$/*") (utf8 "$/*")) := by decide +kernel
  have hmembers : Path.expandPath d (utf8 "$/*") =
      .ok [.ofSegments [.key (utf8 "a")], .ofSegments [.key (utf8 "b")]] := by decide +kernel
  have helements : Path.expandPath e (utf8 "$/*") =
      .ok [.ofSegments [.index 0], .ofSegments [.index 1]] := by decide +kernel
  have hd' : o.applied d = .ok d' := by decide +kernel
  have he' : o.applied e = .ok e' := by decide +kernel
  have hvv' : v.Reordered v' := (Value.equivalent_of_perm (by decide) (.swap _ _ _)).reordered
  refine ⟨⟨hd', ?_⟩, ⟨he', fun h => ?_⟩, ?_⟩
  · obtain ⟨w, hw, hiff⟩ := (apply_move_onto_itself hd ho hmembers
      (by simp only [List.forall_mem_cons]; exact ⟨⟨v, rfl⟩, ⟨v', rfl⟩, by simp⟩)).2 (by decide)
    obtain rfl : d' = w := Except.ok.inj (hd'.symm.trans hw)
    refine hiff.2 (.inr ⟨?_, ?_⟩)
    · simp only [List.forall_mem_cons]
      exact ⟨⟨_, rfl⟩, ⟨_, rfl⟩, by simp⟩
    · have hvalue : ∀ p ∈ [Path.ofSegments [.key (utf8 "a")], .ofSegments [.key (utf8 "b")]],
          ∀ x, d.get p = .ok x → v.Reordered x := by
        simp only [List.forall_mem_cons]
        refine ⟨fun x hx => ?_, fun x hx => ?_, by simp⟩
        · exact Except.ok.inj hx ▸ Value.Reordered.refl v
        · exact Except.ok.inj hx ▸ hvv'
      exact fun p hp q hq x y hx hy => (hvalue p hp x hx).symm.trans (hvalue q hq y hy)
  · obtain ⟨w, hw, hiff⟩ := (apply_move_onto_itself he ho helements
      (by simp only [List.forall_mem_cons]; exact ⟨⟨_, rfl⟩, ⟨_, rfl⟩, by simp⟩)).2 (by decide)
    obtain rfl : e' = w := Except.ok.inj (he'.symm.trans hw)
    rcases hiff.1 h with hone | ⟨hms, -⟩
    · exact absurd hone (by decide)
    · obtain ⟨ms, hms⟩ := hms _ List.mem_cons_self
      have hroot : Value.array [.null, .null] = .object ms := Except.ok.inj hms
      cases hroot
  · have hroot : Path.expandPath d [] = .ok [.root] := by decide +kernel
    have hcommand : (move [] []).command = .ok (.move [] []) := by decide +kernel
    exact (apply_move_onto_itself hd hcommand hroot
      (List.forall_mem_singleton.2 ⟨d, rfl⟩)).1 ⟨_, List.mem_cons_self, rfl⟩

/-- Of two members with two values the second gets the value of the first. -/
theorem not_forall_apply_move_onto_itself :
    ¬∀ (d : Value) (text : Text) (places : List Path), d.WellFormed →
      Path.expandPath d text = .ok places → (∀ p ∈ places, ∃ x, d.get p = .ok x) →
      ∃ d', (move text text).applied d = .ok d' ∧ d.Reordered d' := by
  intro h
  obtain ⟨d', hd', hreordered⟩ := h
    (.object [(utf8 "a", .bool true), (utf8 "b", .bool false)]) (utf8 "$/*")
    [.ofSegments [.key (utf8 "a")], .ofSegments [.key (utf8 "b")]] (by decide)
    (by decide +kernel) (by simp only [List.forall_mem_cons]; exact ⟨⟨_, rfl⟩, ⟨_, rfl⟩, by simp⟩)
  have hsecond : (move (utf8 "$/*") (utf8 "$/*")).applied
      (.object [(utf8 "a", .bool true), (utf8 "b", .bool false)]) =
      .ok (.object [(utf8 "a", .bool true), (utf8 "b", .bool true)]) := by decide +kernel
  obtain rfl := Except.ok.inj (hsecond.symm.trans hd')
  cases hreordered with
  | object _ entries => cases entries (utf8 "b") _ _ rfl rfl

end Operation

end TreePatch
