import TreePatch.Patch.Run
import TreePatch.Proofs.Path.Alike
import TreePatch.Proofs.Path.ReadBack
import TreePatch.Proofs.Query.Places

set_option autoImplicit false

/-!
# A query operation is the sequence of its pointer operations

An operation on a query expands the query once and works through the places as paths.
The sequence of the same operation on the pointer texts of these places reads each
text again and finds it in a document that has changed since. The two runs agree on
the document they leave and on the fault they end with
(`apply_query_eq_apply_pointers`), as long as the texts read back as the places.

* A text may read back as another spelling of its place, a name as the position with
  that numeral, but only where the query's document has an object
  (`alike_of_instantiates`).
* Actions at a place do not tell such spellings apart and keep them alike for the
  places to come, which are all as deep (`RespectsWays`).
* Two loops agree if their steps do wherever an invariant of the loop holds
  (`Outcome.forEach_congr`). Here the invariant is that the places are still alike.
-/

namespace TreePatch

/-! ## Paths with the same names -/

namespace Path

variable {p q : Path}

/-- Pointers with the same names are written alike. -/
theorem toText_congr (hp : p.form = .pointer) (hq : q.form = .pointer)
    (h : p.names = q.names) : p.toText = q.toText := by
  rw [toText, toText, hp, hq]
  exact joined_congr h

theorem fault_congr (hp : p.form = .pointer) (hq : q.form = .pointer)
    (h : p.names = q.names) : p.fault = q.fault := by
  funext cause
  rw [fault, fault, toText_congr hp hq h]

/-- The wildcard is the segment without a name. -/
theorem isConcrete_congr (h : p.names = q.names) : p.isConcrete = q.isConcrete := by
  have key : ∀ r : Path, r.isConcrete = r.names.all Option.isSome := by
    intro r
    rw [isConcrete, names, List.all_map]
    congr 1
    funext s
    cases s <;> rfl
  rw [key, key, h]

end Path

/-! ## Actions at a place -/

/-- What is done at one place of a document, to be repeated at other places of the same
depth: it does not tell alike ways to its place apart, and it keeps alike ways of that
depth alike. -/
structure RespectsWays (act : Value → Path → Except Fault Value) : Prop where
  /-- Alike ways to the place are not told apart. -/
  congr : ∀ {d : Value} {p q : Path}, p.form = .pointer → q.form = .pointer →
    d.Alike p.segments q.segments → act d p = act d q
  /-- Alike ways of the place's depth stay alike. -/
  keeps : ∀ {d d' : Value} {p : Path}, act d p = .ok d' →
    ∀ {ss ts : List Segment}, ss.length = p.segments.length → d.Alike ss ts → d'.Alike ss ts

namespace RespectsWays

variable {ε : Type} {root : Value → Except Fault Value} {lift : Misstep → ε}
variable {edit : Value → Segment → Except ε Value} {report : ε → Cause}

/-- An edit at a parent respects ways if it does so at the parent and keeps its kind. -/
theorem editAt
    (hedit : ∀ w s t, w.AlikeStep s t → edit w s = edit w t)
    (hkind : ∀ w s w', edit w s = .ok w' → w'.kind = w.kind) :
    RespectsWays (Value.editAt root lift edit report) where
  congr := by
    intro d p q hp hq h
    have hnames : p.names = q.names := h.map_memberName?
    rw [Value.editAt, Value.editAt, Path.isConcrete_congr hnames,
      Path.fault_congr hp hq hnames]
    cases hps : p.segments with
    | nil =>
        rw [hps] at h
        rw [h.eq_nil]
    | cons s ss =>
        rw [hps] at h
        obtain ⟨t, ts, hqs, -⟩ := h.exists_cons
        rw [hqs] at h ⊢
        simp only [h.editParent hedit]
  keeps := by
    intro d d' p h ss ts hlen ha
    rcases Value.editAt_eq_ok h with ⟨hnil, -⟩ | ⟨s, rest, hcons, he⟩
    · -- At the root there is only the way without a step, which is alike in every value.
      rw [hnil] at hlen
      obtain rfl := List.eq_nil_of_length_eq_zero hlen
      rw [ha.eq_nil]
      trivial
    · rw [hcons] at hlen
      exact ha.of_editParent hkind he hlen

theorem add (value : Value) : RespectsWays fun d p => d.add p value := by
  simp only [Value.add_eq_editAt]
  exact editAt (fun w s t h => h.insertChild value) fun w s w' h => Value.kind_of_insertChild h

theorem remove : RespectsWays Value.remove := by
  have heq : Value.remove = _ := funext fun d => funext fun p => Value.remove_eq_editAt d p
  rw [heq]
  exact editAt (fun w s t h => h.eraseChild) fun w s w' h => Value.kind_of_eraseChild h

theorem replace (value : Value) : RespectsWays fun d p => d.replace p value := by
  simp only [Value.replace_eq_editAt]
  exact editAt (fun w s t h => h.writeChild value) fun w s w' h => Value.kind_of_writeChild h

theorem check (expected : Value) :
    RespectsWays fun d p => (Command.check expected d p).map fun _ => d where
  congr := by
    intro d p q hp hq h
    have hnames : p.names = q.names := h.map_memberName?
    rw [Command.check, Command.check, h.follow, Path.fault_congr hp hq hnames]
  keeps := by
    intro d d' p h ss ts hlen ha
    obtain ⟨-, -, rfl⟩ := Result.map_eq_ok_iff.1 h
    exact ha

end RespectsWays

/-! ## Reading a place back -/

/-- A position reads back as itself or not at all. -/
theorem Segment.eq_index_of_readSegment {i : Nat} {t : Segment}
    (h : Path.readSegment .pointer (Segment.index i).toText = .ok t) : t = .index i := by
  rw [readSegment_index] at h
  split at h
  · exact (Except.ok.inj h).symm
  · cases h

/-- An instance of a query that was read is alike to what its texts read back as, if
the names are the same: the query's own segments and positions read back as
themselves, and the remaining steps are names of objects. -/
theorem alike_of_instantiates {query : List Segment}
    (hquery : ∀ s ∈ query, s = .wildcard ∨ s.Legible) {v : Value} (hv : v.WellFormed)
    {place back : List Segment} (h : Instantiates v query place)
    (hread : place.map (fun s => Path.readSegment .pointer s.toText) = back.map .ok)
    (hnames : place.map Segment.memberName? = back.map Segment.memberName?) :
    v.Alike place back := by
  induction query generalizing v place back with
  | nil =>
      obtain rfl := instantiates_nil_iff.1 h
      obtain rfl : back = [] := List.map_eq_nil_iff.1 hnames.symm
      trivial
  | cons s rest ih =>
      obtain ⟨t, tail, rfl⟩ := h.exists_cons
      cases back with
      | nil => cases hnames
      | cons u back =>
          obtain ⟨hreadT, hreadTail⟩ := List.cons.inj hread
          obtain ⟨hnameT, hnamesTail⟩ := List.cons.inj hnames
          refine ⟨?_, hnamesTail, fun c hc => ?_⟩
          · by_cases hs : s = .wildcard
            · -- The step is one to a child: a position of an array or a name of an object.
              obtain ⟨node, t', c, hnode, ht, hb⟩ := h.branch 0 (by simp [hs])
              cases hnode
              cases ht
              cases v with
              | array xs =>
                  obtain ⟨i, rfl, -⟩ := Value.mem_children_array.1 hb
                  exact .inl (Segment.eq_index_of_readSegment hreadT).symm
              | object ms => exact .inr ⟨rfl, hnameT⟩
              | _ => simp [Value.children] at hb
            · -- The step is the query's own segment, which reads back as itself.
              have hst : t = s := by simpa using h.fixed 0 s rfl hs
              have hlegible : t.Legible := by
                rw [hst]
                exact (hquery s List.mem_cons_self).resolve_left hs
              exact .inl (Except.ok.inj (hlegible.readSegment_toText.symm.trans hreadT))
          · have hsub := ((instantiates_cons_of_child hc).1 h).2.2
            exact ih (fun s' hs' => hquery s' (List.mem_cons_of_mem _ hs')) (hv.child hc) hsub
              hreadTail hnamesTail

namespace Path

/-- A pointer text is never taken for a query. -/
theorem isQueryText_joined (segments : List Segment) : isQueryText (joined segments) = false := by
  cases segments with
  | nil => rfl
  | cons s rest =>
      rw [joined_cons]
      rfl

/-- The text of a place that reads back is read as a way that is alike to the place. -/
theorem exists_alike_of_readsBack {d : Value} (hd : d.WellFormed) {text : Text} {q : Path}
    (hq : parseQuery text = .ok q) {places : List Path} (hplaces : q.queryPaths d = .ok places)
    {p : Path} (hp : p ∈ places) (hback : p.readsBack? = some true) :
    p.form = .pointer ∧ p.canonical = .ok p.toText ∧ ∃ r, parsePointer p.toText = .ok r ∧
      r.form = .pointer ∧ d.Alike p.segments r.segments := by
  obtain ⟨hform, hinst⟩ := (mem_queryPaths_iff hd hplaces).1 hp
  have htext : p.toText = joined p.segments := by rw [toText, hform]
  have hcanonical := canonical_of_concrete hinst.wildcard_not_mem
  refine ⟨hform, by rw [hcanonical, htext], ?_⟩
  rw [readsBack?, hcanonical] at hback
  cases hparse : parsePointer (joined p.segments) with
  | error fault => simp [hparse] at hback
  | ok r =>
      have hsame : r.names = p.names := by simpa [hparse, same_iff] using hback
      rw [parsePointer_eq_ok_iff, pointerOf_joined] at hparse
      obtain ⟨back, hread, rfl⟩ := Result.map_eq_ok_iff.1 hparse
      rw [readSegments_eq_ok_iff, List.map_map] at hread
      have hquery : ∀ s ∈ q.segments, s = .wildcard ∨ s.Legible := fun _ hs =>
        legible_of_parse (parse_eq_ok_of_parseQuery hq) hs
      refine ⟨⟨.pointer, back⟩, ?_, rfl, alike_of_instantiates hquery hd hinst hread hsame.symm⟩
      rw [htext, parsePointer_eq_ok_iff, pointerOf_joined, readSegments_eq_ok_iff.2]
      · rfl
      · rw [List.map_map]
        exact hread

/-- The texts of a query are those of its places. -/
theorem exists_places_of_queryPointers {d : Value} {text : Text} {texts : List Text}
    (h : queryPointers d text = .ok texts) :
    ∃ q places, parseQuery text = .ok q ∧ q.queryPaths d = .ok places ∧
      places.map canonical = texts.map .ok := by
  obtain ⟨q, hq, h⟩ := Result.bind_eq_ok_iff.1 h
  obtain ⟨places, hplaces, h⟩ := Result.bind_eq_ok_iff.1 h
  exact ⟨q, places, hq, hplaces, Result.mapM_eq_ok_iff.1 h⟩

end Path

/-! ## Operations that work through places -/

namespace Operation

variable {o : Operation}

/-- The operation adds, removes, replaces or tests and has the value that it needs. -/
def WorksOnPlaces (o : Operation) : Prop :=
  o.verb? = some .remove ∨
    (o.verb? = some .add ∨ o.verb? = some .replace ∨ o.verb? = some .test) ∧
      o.value.isSome = true

/-- Whatever its path, such an operation repeats one action at every place. -/
theorem WorksOnPlaces.exists_action (h : o.WorksOnPlaces) :
    ∃ act, RespectsWays act ∧ ∀ (d : Value) (path : Text),
      ({ o with path := some path }).apply d =
        (Command.withPlaces d path fun places =>
          Outcome.forEach (fun d p => .ofExcept d (act d p)) d places).under o.op := by
  obtain ⟨op, path?, source, value?⟩ := o
  have happly : ∀ (command : Command) {d path},
      (Operation.mk op (some path) source value?).command = .ok command →
      (Operation.mk op (some path) source value?).apply d = (command.run d).under op := by
    intro command d path hc
    rw [apply, hc]
  simp only [WorksOnPlaces, verb?] at h
  rcases h with hv | ⟨hv, hvalue⟩
  · refine ⟨Value.remove, RespectsWays.remove, fun d path => happly (.remove path) ?_⟩
    rw [command, verb?, hv]
    rfl
  · obtain ⟨value, rfl⟩ := Option.isSome_iff_exists.1 hvalue
    rcases hv with hv | hv | hv
    · refine ⟨fun d p => d.add p value, RespectsWays.add value, fun d path =>
        happly (.add path value) ?_⟩
      rw [command, verb?, hv]
      rfl
    · refine ⟨fun d p => d.replace p value, RespectsWays.replace value, fun d path =>
        happly (.replace path value) ?_⟩
      rw [command, verb?, hv]
      rfl
    · refine ⟨fun d p => (Command.check value d p).map fun _ => d, RespectsWays.check value,
        fun d path => happly (.test path value) ?_⟩
      rw [command, verb?, hv]
      rfl

/-- On the text of one place, the action is done at what the text reads back as. -/
theorem apply_pointer {act : Value → Path → Except Fault Value} {d : Value} {text : Text}
    {r : Path}
    (happly : ∀ (d : Value) (path : Text), ({ o with path := some path }).apply d =
      (Command.withPlaces d path fun places =>
        Outcome.forEach (fun d p => .ofExcept d (act d p)) d places).under o.op)
    (hquery : Path.isQueryText text = false) (hr : Path.parsePointer text = .ok r) :
    ({ o with path := some text }).apply d = (Outcome.ofExcept d (act d r)).under o.op := by
  have hexpand : Path.expandPath d text = .ok [r] := by
    rw [Path.expandPath, hquery, hr]
    rfl
  rw [happly, Command.withPlaces, hexpand]
  simp only [Outcome.forEach_singleton]

/-- Running an operation on a query is running it on the pointer texts of the query's
places one after another, if these texts read back as the places. The two runs leave the
same document and end with the same fault or none. -/
theorem apply_query_eq_apply_pointers {d : Value} (hd : d.WellFormed) {text : Text}
    {texts : List Text} (htexts : Path.queryPointers d text = .ok texts)
    (hback : ∀ q places, Path.parseQuery text = .ok q → q.queryPaths d = .ok places →
      ∀ p ∈ places, p.readsBack? = some true)
    (ho : o.WorksOnPlaces) :
    ({ o with path := some text }).apply d =
      Patch.apply d (texts.map fun s => { o with path := some s }) := by
  obtain ⟨act, hact, happly⟩ := ho.exists_action
  obtain ⟨q, places, hq, hplaces, hcanonical⟩ := Path.exists_places_of_queryPointers htexts
  have hexpand : Path.expandPath d text = .ok places := by
    rw [Path.expandPath, if_pos (Path.isQueryText_of_parseQuery hq), hq]
    exact hplaces
  have hplace := fun p hp =>
    Path.exists_alike_of_readsBack hd hq hplaces hp (hback q places hq hplaces p hp)
  have hlength : ∀ p ∈ places, p.segments.length = q.segments.length := fun p hp =>
    ((Path.mem_queryPaths_iff hd hplaces).1 hp).2.length_eq
  have htextsEq : texts = places.map Path.toText := by
    have hsame : places.map Path.canonical = (places.map Path.toText).map .ok := by
      rw [List.map_map]
      exact List.map_congr_left fun p hp => (hplace p hp).2.1
    exact (List.map_inj_right fun _ _ => Except.ok.inj).1 (hcanonical.symm.trans hsame)
  rw [htextsEq, List.map_map, Patch.apply, Outcome.forEach_map, happly d text,
    Command.withPlaces, hexpand]
  simp only [Outcome.under_forEach]
  -- Throughout the run each place stays alike to what its text reads back as.
  refine Outcome.forEach_congr (fun v => ∀ p ∈ places, ∀ r,
    Path.parsePointer p.toText = .ok r → v.Alike p.segments r.segments) ?_ ?_ ?_
  · intro v hv p hp
    obtain ⟨hform, -, r, hr, hrform, -⟩ := hplace p hp
    have hquery : Path.isQueryText p.toText = false := by
      rw [Path.toText, hform]
      exact Path.isQueryText_joined p.segments
    rw [hact.congr hform hrform (hv p hp r hr)]
    exact (apply_pointer happly hquery hr).symm
  · intro v hv p hp w hw p' hp' r hr
    cases ha : act v p with
    | error fault => simp [ha, Outcome.ofExcept, Outcome.under] at hw
    | ok v' =>
        obtain rfl : v' = w := by simpa [ha, Outcome.ofExcept, Outcome.under] using hw
        exact hact.keeps ha ((hlength p' hp').trans (hlength p hp).symm) (hv p' hp' r hr)
  · intro p hp r hr
    obtain ⟨-, -, r', hr', -, halike⟩ := hplace p hp
    rw [hr] at hr'
    cases hr'
    exact halike

/-- The names `0` and `1` of an object are read back as positions, and taking out the
elements in ascending order misses the second, which has become the first. -/
theorem apply_query_eq_apply_pointers_remove :
    let d : Value := .object [(utf8 "a", .object [(utf8 "0", .null), (utf8 "1", .bool true)]),
      (utf8 "b", .array [.bool true, .bool false])]
    let o : Operation := { op := utf8 "remove" }
    let texts := [utf8 "/a/0", utf8 "/a/1", utf8 "/b/0", utf8 "/b/1"]
    let left : Value := .object [(utf8 "a", .object []), (utf8 "b", .array [.bool false])]
    d.WellFormed ∧ o.WorksOnPlaces ∧ Path.queryPointers d (utf8 "$/*/*") = .ok texts ∧
      ({ o with path := some (utf8 "$/*/*") }).apply d =
        Patch.apply d (texts.map fun s => { o with path := some s }) ∧
      (({ o with path := some (utf8 "$/*/*") }).apply d).document = left := by
  intro d o texts left
  have hd : d.WellFormed := by decide
  have htexts : Path.queryPointers d (utf8 "$/*/*") = .ok texts := by decide +kernel
  have ho : o.WorksOnPlaces := .inl (by decide)
  have hquery : Path.parseQuery (utf8 "$/*/*") = .ok ⟨.query, [.wildcard, .wildcard]⟩ := by
    decide +kernel
  have hback : ∀ q places, Path.parseQuery (utf8 "$/*/*") = .ok q → q.queryPaths d = .ok places →
      ∀ p ∈ places, p.readsBack? = some true := by
    intro q places hq hplaces
    cases hquery.symm.trans hq
    cases hplaces
    decide +kernel
  exact ⟨hd, ho, htexts, apply_query_eq_apply_pointers hd htexts hback ho, by decide +kernel⟩

end Operation

end TreePatch
