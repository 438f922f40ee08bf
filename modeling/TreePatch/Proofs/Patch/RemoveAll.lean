import TreePatch.Proofs.Patch.Stages
import TreePatch.Proofs.Patch.WellFormed
import TreePatch.Proofs.Query.Apart
import TreePatch.Proofs.Value.Entry
import TreePatch.Proofs.Value.Surface

set_option autoImplicit false

/-!
# Taking out all places of an expression

The places are taken out one after another. If each is a member of an object, taking one out
leaves the others members of their objects (`IsMember.of_erased`), so the run succeeds, and what
comes out is the document without these members (`Erased`): every other node is there as before,
an array with its size and an object with its other names in order. This does not mention an
order of the places, and there is one such document only (`Erased.unique`).

* `erased_of_overwrite`, `Erased.append`: one removal, and one run after another.
* `Command.exists_removeAll`: the whole loop.
* `Operation.apply_remove_members`: an operation on an expression. The root has to be left out.
  It is its own parent, but no member (`Operation.not_forall_apply_remove`).
-/

namespace TreePatch

namespace Value

variable {d d₁ d' d'' x c : Value} {p q : Path} {places order : List Path}
variable {steps : List Segment} {s : Segment} {name : Text} {ms : Members Value}

/-! ## Documents without some members -/

/-- Does one of the places have this name at the end of these steps? -/
def namesAt (places : List Path) (steps : List Segment) (name : Text) : Bool :=
  places.any fun p => p.names == steps.map Segment.memberName? ++ [some name]

/-- One document is another without the members at some places. -/
structure Erased (d : Value) (places : List Path) (d' : Value) : Prop where
  /-- Nothing stands at a place or below it. -/
  gone : ∀ p ∈ places, ∀ steps, p.names <+: steps.map Segment.memberName? →
    ∀ x, d'.follow steps ≠ .ok x
  /-- Elsewhere the document looks as before, but for the names of the places. -/
  kept : ∀ steps, (∀ p ∈ places, ¬p.names <+: steps.map Segment.memberName?) →
    d'.surfaceAt steps = (d.surfaceAt steps).map (·.without (namesAt places steps))

theorem namesAt_eq_false (h : ∀ p ∈ places, ∀ name,
    p.names ≠ steps.map Segment.memberName? ++ [some name]) (name : Text) :
    namesAt places steps name = false := by
  rw [namesAt, List.any_eq_false]
  intro p hp heq
  exact h p hp name (beq_iff_eq.1 heq)

/-- Where no place is a member of the node at hand, all surfaces are kept. -/
theorem map_without_of_ne (h : ∀ p ∈ places, ∀ name,
    p.names ≠ steps.map Segment.memberName? ++ [some name]) (r : Except Misstep Surface) :
    r.map (·.without (namesAt places steps)) = r := by
  cases r with
  | error m => rfl
  | ok x => exact congrArg _ (Surface.without_of_eq_false (namesAt_eq_false h) x)

namespace Erased

theorem nil (d : Value) : Erased d [] d where
  gone := by simp
  kept := fun steps _ => (map_without_of_ne (by simp) _).symm

/-- Erasing some places and then others is erasing all of them. -/
theorem append {more : List Path} (h : Erased d places d₁) (h' : Erased d₁ more d') :
    Erased d (places ++ more) d' where
  gone := by
    intro p hp steps hbegin x hx
    by_cases hlater : ∃ q ∈ more, q.names <+: steps.map Segment.memberName?
    · obtain ⟨q, hq, hbegin'⟩ := hlater
      exact h'.gone q hq steps hbegin' x hx
    · -- What is found after the later removals was found before them.
      have hkept := h'.kept steps fun q hq hbegin' => hlater ⟨q, hq, hbegin'⟩
      rw [surfaceAt, hx] at hkept
      obtain ⟨_, hbefore, -⟩ := Result.map_eq_ok_iff.1 hkept.symm
      obtain ⟨y, hy, -⟩ := Result.map_eq_ok_iff.1 hbefore
      rcases List.mem_append.1 hp with hp | hp
      · exact h.gone p hp steps hbegin y hy
      · exact hlater ⟨p, hp, hbegin⟩
  kept := by
    intro steps hsteps
    obtain ⟨hfirst, hmore⟩ := List.forall_mem_append.1 hsteps
    rw [h'.kept steps hmore, h.kept steps hfirst]
    cases d.surfaceAt steps with
    | error m => rfl
    | ok y =>
        simp only [Except.map, Surface.without_without]
        congr 2
        funext name
        rw [namesAt, namesAt, namesAt, List.any_append]

/-- The order of the places does not matter. -/
theorem of_perm (h : Erased d places d') (horder : order.Perm places) : Erased d order d' where
  gone := fun p hp => h.gone p (horder.mem_iff.1 hp)
  kept := by
    intro steps hsteps
    have hnames : namesAt order steps = namesAt places steps := by
      funext name
      exact horder.any_eq
    rw [hnames]
    exact h.kept steps fun p hp => hsteps p (horder.mem_iff.2 hp)

/-- There is only one well-formed document of this description. -/
theorem unique (hd' : d'.WellFormed) (hd'' : d''.WellFormed) (h : Erased d places d')
    (h' : Erased d places d'') : d' = d'' := by
  refine eq_of_surfaceAt hd' hd'' fun steps x hx => ?_
  have hsteps : ∀ p ∈ places, ¬p.names <+: steps.map Segment.memberName? := by
    intro p hp hbegin
    exact h.gone p hp steps hbegin x hx
  rw [h'.kept steps hsteps, ← h.kept steps hsteps, surfaceAt, hx]
  rfl

/-- Apart from all places the document is read as before. -/
theorem get_of_apart (hd : d.WellFormed) (hd' : d'.WellFormed) (h : Erased d places d')
    (hq : ∀ p ∈ places, p.Apart q) : d'.get q = d.get q := by
  refine get_eq_of_surfaceAt hd' hd fun steps hsteps => ?_
  rw [h.kept _ fun p hp => (hq p hp).symm.not_prefix_of hsteps, map_without_of_ne]
  intro p hp name hnames
  refine (Path.apart_iff.1 (hq p hp)).2 ?_
  rw [hnames]
  exact hsteps.trans (List.prefix_append _ _)

end Erased

/-! ## Taking out one member -/

/-- A path leads to a member of an object. -/
def IsMember (d : Value) (p : Path) : Prop :=
  ∃ steps s name names, p.segments = steps ++ [s] ∧ s.memberName? = some name ∧
    d.surfaceAt steps = .ok (.object names) ∧ name ∈ names

/-- What stands below an object is a member of it. The root stands below nothing. -/
theorem isMember_of_get (hroot : p.isRoot = false) (hx : d.get p = .ok x)
    (hparent : d.get p.parent = .ok (.object ms)) : d.IsMember p := by
  have hne : p.segments ≠ [] := List.isEmpty_eq_false_iff.1 hroot
  have hsplit : p.segments = p.segments.dropLast ++ [p.segments.getLast hne] :=
    (List.dropLast_concat_getLast hne).symm
  have hfollow : d.follow p.segments.dropLast = .ok (.object ms) := get_eq_ok_iff.1 hparent
  rw [get_eq_ok_iff, hsplit, follow_append, hfollow] at hx
  have hchild : (object ms).child (p.segments.getLast hne) = .ok x :=
    (follow_singleton _ _).symm.trans hx
  cases hs : (p.segments.getLast hne).memberName? with
  | none => simp [child, childOfMembers, hs] at hchild
  | some name =>
      have hget := (child_object_iff hs).1 hchild
      refine ⟨_, _, name, Members.keys ms, hsplit, hs, ?_, ?_⟩
      · rw [surfaceAt, hfollow]
        rfl
      · exact Members.mem_keys_iff.2 ⟨x, hget⟩

/-- A member can be taken out, and the object to which it belongs is overwritten by itself
without it. -/
theorem IsMember.exists_remove (h : d.IsMember p) : ∃ steps name ms d',
    p.names = steps.map Segment.memberName? ++ [some name] ∧
      d.follow steps = .ok (.object ms) ∧ d.remove p = .ok d' ∧
      d.overwrite steps (.object (Members.erase ms name)) = .ok d' := by
  obtain ⟨steps, s, name, names, hp, hs, hnames, hmem⟩ := h
  obtain ⟨y, hfollow, hy⟩ := Result.map_eq_ok_iff.1 hnames
  obtain ⟨ms, rfl, rfl⟩ := surface_eq_object_iff.1 hy
  obtain ⟨c, hc⟩ := Members.mem_keys_iff.1 hmem
  have hchild : (object ms).child s = .ok c := (child_object_iff hs).2 hc
  have hget : d.get p = .ok c := by
    rw [get_eq_ok_iff, hp, follow_append, hfollow]
    exact (follow_singleton _ _).trans hchild
  obtain ⟨d', hd'⟩ := exists_overwrite_iff.2 ⟨_, hfollow⟩
  refine ⟨steps, name, ms, d', ?_, hfollow, ?_, hd'⟩
  · rw [Path.names, hp, List.map_append, List.map_singleton, hs]
  · rw [remove_eq_editAt, editAt_eq_ok_iff (isConcrete_of_get hget) hp]
    refine ⟨_, _, hfollow, eraseChild_eq_ok_iff.2 ⟨⟨c, hchild⟩, rfl⟩, ?_⟩
    simpa [dropChild, hs] using hd'

/-- Steps from an object without one of its members lead as before, unless they start with its
name. -/
theorem child_erase_of_ne (hs : s.memberName? ≠ some name) :
    (object (Members.erase ms name)).child s = (object ms).child s := by
  simp only [child, childOfMembers]
  cases h : s.memberName? with
  | none => rfl
  | some other =>
      have hne : name ≠ other := by
        rintro rfl
        exact hs h
      simp only [Members.get?_erase_of_ne hne]

/-- An object without one of its members shows its other names. -/
theorem surface_erase (hms : ms.Distinct) : (object (Members.erase ms name)).surface =
    (object ms).surface.without fun other => other == name := by
  rw [surface, surface, Surface.without, Members.keys_erase, hms.erase_eq_filter]
  rfl

section Erase

variable (hw : d.overwrite steps (.object (Members.erase ms name)) = .ok d')
include hw

/-- The object itself, in whatever spelling its steps are, shows its other names. -/
theorem surfaceAt_erase (hfollow : d.follow steps = .ok (.object ms)) (hms : ms.Distinct)
    {qs : List Segment}
    (hqs : steps.map Segment.memberName? = qs.map Segment.memberName?) :
    d'.surfaceAt qs = (d.surfaceAt qs).map (·.without (· == name)) := by
  rw [surfaceAt, surfaceAt, follow_overwrite_congr hw hqs]
  cases hy : d.follow qs with
  | error m => rfl
  | ok y =>
      obtain rfl := eq_of_follow_of_names hfollow hqs hy
      exact congrArg _ (surface_erase hms)

/-- What is neither the object nor stands at or below the member is as before. -/
theorem surfaceAt_erase_beside (hfollow : d.follow steps = .ok (.object ms)) {rs : List Segment}
    (hne : steps.map Segment.memberName? ≠ rs.map Segment.memberName?)
    (hrs : ¬steps.map Segment.memberName? ++ [some name] <+: rs.map Segment.memberName?) :
    d'.surfaceAt rs = d.surfaceAt rs := by
  by_cases hbegin : steps.map Segment.memberName? <+: rs.map Segment.memberName?
  · -- The steps go through the object and on to another member.
    obtain ⟨qs, rest, rfl, hqs⟩ := Path.exists_split_of_prefix hbegin
    rw [surfaceAt_overwrite_below hw hqs.symm, surfaceAt_append]
    cases hy : d.follow qs with
    | error m => rfl
    | ok y =>
        obtain rfl := eq_of_follow_of_names hfollow hqs.symm hy
        cases rest with
        | nil => exact absurd hqs.symm (by simpa using hne)
        | cons t rest =>
            have ht : t.memberName? ≠ some name := by
              intro ht
              refine hrs ⟨rest.map Segment.memberName?, ?_⟩
              rw [List.map_append, hqs, List.map_cons, ht, List.append_assoc]
              rfl
            show (object (Members.erase ms name)).surfaceAt (t :: rest) =
              (object ms).surfaceAt (t :: rest)
            rw [surfaceAt, surfaceAt, follow, follow, child_erase_of_ne ht]
  · rw [surfaceAt_overwrite hw hbegin]

/-- Nothing stands at the member or below it. -/
theorem follow_erase (hms : ms.Distinct) {rs : List Segment}
    (hrs : steps.map Segment.memberName? ++ [some name] <+: rs.map Segment.memberName?)
    (x : Value) : d'.follow rs ≠ .ok x := by
  intro hx
  obtain ⟨qs', rest, rfl, hqs'⟩ := Path.exists_split_of_prefix hrs
  obtain ⟨qs, ts, rfl, hqs, hts⟩ := List.map_eq_append_iff.1 hqs'
  obtain ⟨t, rfl, ht⟩ := List.map_eq_singleton_iff.1 hts
  rw [List.append_assoc, follow_append, follow_overwrite_congr hw hqs.symm] at hx
  cases hy : d.follow qs with
  | error m =>
      rw [hy] at hx
      cases hx
  | ok y =>
      rw [hy] at hx
      obtain ⟨c, hc, -⟩ := follow_cons_eq_ok_iff.1 hx
      rw [child_object_iff ht, Members.get?_erase hms, if_pos rfl] at hc
      cases hc

/-- Overwriting an object by itself without one of its members erases this member. -/
theorem erased_of_overwrite (hfollow : d.follow steps = .ok (.object ms)) (hms : ms.Distinct)
    (hp : p.names = steps.map Segment.memberName? ++ [some name]) :
    Erased d [p] d' where
  gone := by
    intro q hq rs hbegin
    rw [List.mem_singleton.1 hq, hp] at hbegin
    exact follow_erase hw hms hbegin
  kept := by
    intro rs hrs
    have hrs : ¬p.names <+: rs.map Segment.memberName? := hrs p List.mem_cons_self
    rw [hp] at hrs
    by_cases hqs : steps.map Segment.memberName? = rs.map Segment.memberName?
    · have hnames : namesAt [p] rs = (· == name) := by
        funext other
        simp [namesAt, hp, hqs, Bool.beq_comm]
      rw [hnames, surfaceAt_erase hw hfollow hms hqs]
    · rw [surfaceAt_erase_beside hw hfollow hqs hrs, map_without_of_ne]
      intro q hq other hother
      rw [List.mem_singleton.1 hq, hp] at hother
      exact hqs (List.append_inj' hother rfl).1

end Erase

/-- Taking out one member leaves the members that lie apart from it members. -/
theorem IsMember.of_erased (h : Erased d [p] d') (hpq : p.Apart q) (hq : d.IsMember q) :
    d'.IsMember q := by
  obtain ⟨steps, s, name, names, hsegments, hs, hnames, hmem⟩ := hq
  have hqnames : q.names = steps.map Segment.memberName? ++ [some name] := by
    rw [Path.names, hsegments, List.map_append, List.map_singleton, hs]
  obtain ⟨hbegin, hbegin'⟩ := Path.apart_iff.1 hpq
  rw [hqnames] at hbegin hbegin'
  refine ⟨steps, s, name, names.filter fun other => !namesAt [p] steps other, hsegments, hs, ?_, ?_⟩
  · rw [h.kept steps, hnames]
    · rfl
    · intro r hr hr'
      rw [List.mem_singleton.1 hr] at hr'
      exact hbegin (hr'.trans (List.prefix_append _ _))
  · rw [List.mem_filter]
    refine ⟨hmem, ?_⟩
    have hne : p.names ≠ steps.map Segment.memberName? ++ [some name] := by
      intro e
      exact hbegin (e ▸ List.prefix_refl _)
    simpa [namesAt] using hne

end Value

/-! ## The loop -/

namespace Command

variable {d d' : Value} {p : Path} {places order : List Path}

theorem removeAll_cons_iff : removeAll (p :: places) d = ⟨d', none⟩ ↔
    ∃ d₁, d.remove p = .ok d₁ ∧ removeAll places d₁ = ⟨d', none⟩ :=
  Outcome.forEach_ofExcept_cons_iff

/-- Members that lie apart can be taken out one after another. -/
theorem exists_removeAll (hd : d.WellFormed) (hapart : places.Pairwise Path.Apart)
    (hmembers : ∀ p ∈ places, d.IsMember p) :
    ∃ d', removeAll places d = ⟨d', none⟩ ∧ d'.WellFormed ∧ d.Erased places d' := by
  induction places generalizing d with
  | nil => exact ⟨d, rfl, hd, .nil d⟩
  | cons p places ih =>
      obtain ⟨hp, hplaces⟩ := List.pairwise_cons.1 hapart
      obtain ⟨hmember, hrest⟩ := List.forall_mem_cons.1 hmembers
      obtain ⟨steps, name, ms, d₁, hnames, hfollow, hd₁, hw⟩ := hmember.exists_remove
      have hms := (Value.wellFormed_object.1 (hd.follow hfollow)).1
      have herased : d.Erased [p] d₁ := Value.erased_of_overwrite hw hfollow hms hnames
      obtain ⟨d', hd', hwf, h⟩ := ih (hd.remove hd₁) hplaces fun q hq =>
        (hrest q hq).of_erased herased (hp q hq)
      exact ⟨d', removeAll_cons_iff.2 ⟨d₁, hd₁, hd'⟩, hwf, herased.append h⟩

/-- Members that lie apart can be taken out in any order. -/
theorem removeAll_of_perm (hd : d.WellFormed) (hapart : places.Pairwise Path.Apart)
    (hmembers : ∀ p ∈ places, d.IsMember p) (hd' : d'.WellFormed) (h : d.Erased places d')
    (horder : order.Perm places) : removeAll order d = ⟨d', none⟩ := by
  have hapart' : order.Pairwise Path.Apart := hapart.perm horder.symm fun h => h.symm
  obtain ⟨d'', hd'', hwf, h'⟩ :=
    exists_removeAll hd hapart' fun p hp => hmembers p (horder.mem_iff.1 hp)
  rw [hd'', h'.unique hwf hd' (h.of_perm horder)]

end Command

/-! ## Operations -/

namespace Operation

variable {d : Value} {o : Operation} {places : List Path} {text : Text}

/-- Removing at an expression succeeds if each of its places is a value below an object. The new
document is the old one without these members, however they are taken out one after another. It
is the only one of this description, and apart from the places it is read as before. -/
theorem apply_remove_members (hd : d.WellFormed) (hplaces : Path.expandPath d text = .ok places)
    (hmembers : ∀ p ∈ places, p.isRoot = false ∧ (∃ x, d.get p = .ok x) ∧
      ∃ ms, d.get p.parent = .ok (.object ms))
    (ho : o.command = .ok (.remove text)) :
    ∃ d', o.apply d = ⟨d', none⟩ ∧ d.Erased places d' ∧
      (∀ d'' : Value, d''.WellFormed → d.Erased places d'' → d'' = d') ∧
      (∀ q : Path, (∀ p ∈ places, p.Apart q) → d'.get q = d.get q) ∧
      ∀ order : List Path, order.Perm places → Command.removeAll order d = ⟨d', none⟩ := by
  have hapart := Path.pairwise_apart_of_expandPath hd hplaces
  have hmembers' : ∀ p ∈ places, d.IsMember p := by
    intro p hp
    obtain ⟨hroot, ⟨x, hx⟩, ms, hparent⟩ := hmembers p hp
    exact Value.isMember_of_get hroot hx hparent
  obtain ⟨d', hrun, hd', herased⟩ := Command.exists_removeAll hd hapart hmembers'
  refine ⟨d', ?_, herased, fun d'' hd'' h => h.unique hd'' hd' herased,
    fun q hq => herased.get_of_apart hd hd' hq,
    fun order horder => Command.removeAll_of_perm hd hapart hmembers' hd' herased horder⟩
  rw [apply_iff_of_command ho, Command.run, Command.withPlaces_of_ok hplaces, hrun]

/-- Two elements of an array and a member named by a numeral lose a member each, in either order.
The other members and the array's size stay. -/
theorem apply_remove_members_mixed :
    let d : Value := .object [(utf8 "a", .array [
      .object [(utf8 "x", .null), (utf8 "y", .bool true)], .object [(utf8 "x", .array [])]]),
      (utf8 "b", .object [(utf8 "0", .object [(utf8 "z", .null), (utf8 "x", .null)])])]
    let left : Value := .object [(utf8 "a", .array [.object [(utf8 "y", .bool true)], .object []]),
      (utf8 "b", .object [(utf8 "0", .object [(utf8 "z", .null)])])]
    let p := Path.ofSegments [.key (utf8 "a"), .index 0, .key (utf8 "x")]
    let q := Path.ofSegments [.key (utf8 "a"), .index 1, .key (utf8 "x")]
    let r := Path.ofSegments [.key (utf8 "b"), .key (utf8 "0"), .key (utf8 "x")]
    d.WellFormed ∧ Path.expandPath d (utf8 "$/*/*/x") = .ok [p, q, r] ∧
      (∀ t ∈ [p, q, r], t.isRoot = false ∧ (∃ x, d.get t = .ok x) ∧
        ∃ ms, d.get t.parent = .ok (.object ms)) ∧
      (remove (utf8 "$/*/*/x")).apply d = ⟨left, none⟩ ∧ d.Erased [p, q, r] left ∧
      Command.removeAll [r, q, p] d = ⟨left, none⟩ := by
  intro d left p q r
  have hd : d.WellFormed := by decide
  have hplaces : Path.expandPath d (utf8 "$/*/*/x") = .ok [p, q, r] := by decide +kernel
  have hmembers : ∀ t ∈ [p, q, r], t.isRoot = false ∧ (∃ x, d.get t = .ok x) ∧
      ∃ ms, d.get t.parent = .ok (.object ms) := by
    simp only [List.forall_mem_cons, List.not_mem_nil, false_imp_iff, implies_true, and_true]
    exact ⟨⟨rfl, ⟨_, rfl⟩, _, rfl⟩, ⟨rfl, ⟨_, rfl⟩, _, rfl⟩, ⟨rfl, ⟨_, rfl⟩, _, rfl⟩⟩
  have ho : (remove (utf8 "$/*/*/x")).command = .ok (.remove (utf8 "$/*/*/x")) := by
    decide +kernel
  have hleft : (remove (utf8 "$/*/*/x")).apply d = ⟨left, none⟩ := by decide +kernel
  obtain ⟨d', hrun, herased, -, -, horder⟩ := apply_remove_members hd hplaces hmembers ho
  obtain rfl : left = d' := congrArg Outcome.document (hleft.symm.trans hrun)
  exact ⟨hd, hplaces, hmembers, hleft, herased, horder [r, q, p] (List.reverse_perm [p, q, r])⟩

/-- The root of an object is found, and so is its parent, which is the root itself. But the root
cannot be taken out. -/
theorem not_forall_apply_remove :
    ¬∀ (d : Value) (text : Text) (places : List Path), d.WellFormed →
      Path.expandPath d text = .ok places →
      (∀ p ∈ places, (∃ x, d.get p = .ok x) ∧ ∃ ms, d.get p.parent = .ok (.object ms)) →
      ∃ d', (remove text).apply d = ⟨d', none⟩ := by
  intro h
  obtain ⟨d', hd'⟩ := h (.object []) (utf8 "$") [.root] (by decide) (by decide +kernel)
    (List.forall_mem_singleton.2 ⟨⟨_, rfl⟩, _, rfl⟩)
  have hfault : ((remove (utf8 "$")).apply (.object [])).fault ≠ none := by decide +kernel
  exact hfault (congrArg Outcome.fault hd')

end Operation

end TreePatch
