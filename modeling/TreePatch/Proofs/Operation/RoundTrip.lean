import Mathlib.Data.List.Nodup
import TreePatch.Operation.Encoding

set_option autoImplicit false

/-!
# Operations read back from what they are written as

Reading looks up each of the four members by its name, writing lists those that are there. Both are
therefore one function of a member (`Operation.member?`), and the two directions are two ways to
compare it with a look-up:

* `Operation.ofMembers_eq_ok_iff_member?`: an operation is read from members exactly if its members
  are what the names look up. Written members look them up (`get?_written`).
* `Members.pick`: the members of given names. An operation that was read is written as the members
  of its names (`Operation.toValue_eq_pick`).
* `Operation.readFrom_eq_ok_iff`, `Operation.readFrom_eq_error_iff`: a patch is read element by
  element, and the first that is no operation ends it.
-/

namespace TreePatch

/-! ## The members of given names -/

namespace Members

variable {α : Type} {ms ns : Members α} {names : List Text} {key : Text} {a : α}

/-- The members of the given names, in the order of these names. -/
def pick (ms : Members α) (names : List Text) : Members α :=
  names.filterMap fun name => (ms.get? name).map (name, ·)

theorem mem_pick_iff : (key, a) ∈ ms.pick names ↔ key ∈ names ∧ ms.get? key = some a := by
  simp only [pick, List.mem_filterMap, Option.map_eq_some_iff, Prod.mk.injEq]
  constructor
  · intro h
    obtain ⟨name, hname, b, hb, rfl, rfl⟩ := h
    exact ⟨hname, hb⟩
  · intro h
    exact ⟨key, h.1, a, h.2, rfl, rfl⟩

/-- The members of given names are those whose name is given, but for their order. -/
theorem pick_perm_filter (hms : ms.Distinct) (hnames : names.Nodup) :
    (ms.pick names).Perm (ms.filter fun m => m.1 ∈ names) := by
  have hpick : (ms.pick names).Nodup := by
    refine List.Nodup.filterMap (fun name name' m hm hm' => ?_) hnames
    obtain ⟨a, -, rfl⟩ := Option.map_eq_some_iff.1 hm
    obtain ⟨b, -, heq⟩ := Option.map_eq_some_iff.1 hm'
    exact (congrArg Prod.fst heq).symm
  have hfilter : (ms.filter fun m => m.1 ∈ names).Nodup := (List.Nodup.of_map _ hms).filter _
  refine (List.perm_ext_iff_of_nodup hpick hfilter).2 fun m => ?_
  obtain ⟨key, a⟩ := m
  rw [mem_pick_iff, List.mem_filter, decide_eq_true_iff, and_comm]
  exact and_congr_left' ⟨mem_of_get?, get?_of_mem hms⟩

theorem get?_append : get? (ms ++ ns) key = (get? ms key).or (get? ns key) := by
  induction ms with
  | nil => rfl
  | cons m rest ih =>
      obtain ⟨k, b⟩ := m
      rw [List.cons_append, get?_cons, get?_cons, ih]
      split <;> rfl

end Members

/-- The members of an operation in the order in which they are written. -/
def Field.written : List Field := [.op, .source, .path, .value]

theorem Field.name_inj {field other : Field} : field.name = other.name ↔ field = other := by
  cases field <;> cases other <;> decide

namespace Operation

variable {ms : Members Value} {o : Operation} {os : List Operation} {field other : Field}
  {xs : List Value} {k : Nat} {c : Cause}

/-! ## Single operations -/

/-- The member of an operation as a value. -/
def member? (o : Operation) : Field → Option Value
  | .op => some (.string o.op)
  | .path => o.path.map .string
  | .source => o.source.map .string
  | .value => o.value

theorem textMember_eq_ok_iff {t : Option Text} :
    textMember ms field = .ok t ↔ ms.get? field.name = t.map .string := by
  rw [textMember]
  cases ms.get? field.name with
  | none => cases t <;> simp
  | some v => cases v <;> cases t <;> simp

theorem ofMembers_eq_ok_iff_member? :
    ofMembers ms = .ok o ↔ ∀ field : Field, ms.get? field.name = o.member? field := by
  simp only [ofMembers_eq_ok_iff, textMember_eq_ok_iff]
  constructor
  · intro h field
    obtain ⟨hop, hpath, hsource, hvalue⟩ := h
    cases field with
    | op => exact hop
    | path => exact hpath
    | source => exact hsource
    | value => exact hvalue
  · intro h
    exact ⟨h .op, h .path, h .source, h .value⟩

theorem get?_memberOf {w : Option Value} :
    Members.get? (memberOf field w) other.name = if field = other then w else none := by
  cases w with
  | none => simp [memberOf]
  | some v => simp [memberOf, Members.get?_cons, Field.name_inj]

/-- Written members look up what was written. -/
theorem get?_written (member? : Field → Option Value) (field : Field) :
    Members.get? (Field.written.flatMap fun f => memberOf f (member? f)) field.name =
      member? field := by
  cases field <;> simp [Field.written, Members.get?_append, get?_memberOf]

theorem toValue_eq_written : toValue o =
    .object (Field.written.flatMap fun field => memberOf field (o.member? field)) := by
  simp [toValue, Field.written, member?]

theorem pick_written : ms.pick (Field.written.map Field.name) =
    Field.written.flatMap fun field => memberOf field (ms.get? field.name) := by
  rw [Members.pick, List.filterMap_map, List.filterMap_eq_flatMap_toList]
  congr 1
  funext field
  rw [Function.comp_apply, memberOf.eq_def]
  cases ms.get? field.name <;> rfl

/-- An operation is read back from what it is written as. -/
theorem read_toValue (o : Operation) : read (toValue o) = .ok o := by
  rw [toValue_eq_written]
  exact ofMembers_eq_ok_iff_member?.2 (get?_written o.member?)

/-- An operation that was read from members is written as those of its names. -/
theorem toValue_eq_pick (h : ofMembers ms = .ok o) :
    toValue o = .object (ms.pick (Field.written.map Field.name)) := by
  rw [toValue_eq_written, pick_written]
  simp only [ofMembers_eq_ok_iff_member?.1 h]

/-! ## Patches -/

/-- A patch is read if each of its elements is an operation. -/
theorem readFrom_eq_ok_iff : readFrom k xs = .ok os ↔ xs.map read = os.map .ok := by
  induction xs generalizing k os with
  | nil => cases os <;> simp [readFrom]
  | cons x rest ih =>
      rw [readFrom]
      cases hx : read x with
      | error flaw => cases os <;> simp [hx]
      | ok o =>
          simp only [Result.map_eq_ok_iff, ih]
          cases os with
          | nil => simp
          | cons o' os => simp [hx, and_comm]

/-- The first element of a patch that is no operation ends the reading, at its position. -/
theorem readFrom_eq_error_iff : readFrom k xs = .error c ↔
    ∃ before x after flaw, xs = before ++ x :: after ∧ (∀ y ∈ before, ∃ o, read y = .ok o) ∧
      read x = .error flaw ∧ c = .malformedAt (k + before.length) flaw := by
  induction xs generalizing k with
  | nil => simp [readFrom]
  | cons y rest ih =>
      rw [readFrom]
      cases hy : read y with
      | error flaw =>
          constructor
          · intro h
            cases h
            exact ⟨[], y, rest, flaw, rfl, by simp, hy, rfl⟩
          · intro h
            obtain ⟨before, x, after, flaw', hxs, hbefore, hx, rfl⟩ := h
            cases before with
            | nil =>
                cases hxs
                cases hy.symm.trans hx
                rfl
            | cons z before =>
                cases hxs
                obtain ⟨o, ho⟩ := hbefore y List.mem_cons_self
                cases hy.symm.trans ho
      | ok o =>
          simp only [Result.map_eq_error_iff, ih]
          constructor
          · intro h
            obtain ⟨before, x, after, flaw, rfl, hbefore, hx, rfl⟩ := h
            refine ⟨y :: before, x, after, flaw, rfl, ?_, hx, ?_⟩
            · exact List.forall_mem_cons.2 ⟨⟨o, hy⟩, hbefore⟩
            · rw [List.length_cons, Nat.add_right_comm, Nat.add_assoc]
          · intro h
            obtain ⟨before, x, after, flaw, hxs, hbefore, hx, rfl⟩ := h
            cases before with
            | nil =>
                cases hxs
                cases hy.symm.trans hx
            | cons z before =>
                cases hxs
                refine ⟨before, x, after, flaw, rfl, ?_, hx, ?_⟩
                · exact (List.forall_mem_cons.1 hbefore).2
                · rw [List.length_cons, Nat.add_right_comm, Nat.add_assoc]

/-- A patch fails at its first element that fails by itself, with the same fault but for the
message, which cites the position. -/
theorem exists_first_of_listOfValue {f : Fault} (h : listOfValue (.array xs) = .error f) :
    ∃ before x after e, xs = before ++ x :: after ∧ (∀ y ∈ before, ∃ o, ofValue y = .ok o) ∧
      ofValue x = .error e ∧ f.kind = e.kind ∧ f.path = e.path ∧ f.op = e.op ∧
      f.message =
        utf8 "operation " ++ Decimal.ofNat before.length ++ utf8 ": " ++ e.message := by
  obtain ⟨c, hc, rfl⟩ := Result.mapError_eq_error_iff.1 h
  obtain ⟨before, x, after, flaw, rfl, hbefore, hx, rfl⟩ := readFrom_eq_error_iff.1 hc
  refine ⟨before, x, after, { cause := .malformed flaw }, rfl, fun y hy => ?_, ?_, rfl, rfl, rfl,
    ?_⟩
  · obtain ⟨o, ho⟩ := hbefore y hy
    exact ⟨o, Result.mapError_eq_ok_iff.2 ho⟩
  · exact Result.mapError_eq_error_iff.2 ⟨flaw, hx, rfl⟩
  · rw [Nat.zero_add]
    rfl

/-- A patch with an element that is no operation is not read. -/
theorem exists_error_of_mem {x : Value} {e : Fault} (hx : x ∈ xs) (h : ofValue x = .error e) :
    ∃ f, listOfValue (.array xs) = .error f := by
  cases hlist : listOfValue (.array xs) with
  | error f => exact ⟨f, rfl⟩
  | ok os =>
      have hall : xs.map read = os.map .ok :=
        readFrom_eq_ok_iff.1 (Result.mapError_eq_ok_iff.1 hlist)
      obtain ⟨flaw, hflaw, -⟩ := Result.mapError_eq_error_iff.1 h
      have hmem : read x ∈ os.map Except.ok := hall ▸ List.mem_map_of_mem hx
      obtain ⟨o, -, ho⟩ := List.mem_map.1 hmem
      cases ho.trans hflaw

/-- Every list of operations is read back from the array it is written as. An operation that was
read is written as the members of the four names, in the order in which they are written. An array
is not read exactly if one of its elements is not, and the first such element is what the fault
cites. -/
theorem documents_roundTrip :
    (∀ os : List Operation, listOfValue (.array (os.map toValue)) = .ok os) ∧
    (∀ v o, ofValue v = .ok o → ∃ ms kept : Members Value,
      v = .object ms ∧ toValue o = .object kept ∧
      kept = ms.pick [utf8 "op", utf8 "from", utf8 "path", utf8 "value"] ∧
      (ms.Distinct → kept.Perm
        (ms.filter fun m => m.1 ∈ [utf8 "op", utf8 "from", utf8 "path", utf8 "value"]))) ∧
    (∀ xs, (∃ f, listOfValue (.array xs) = .error f) ↔ ∃ x ∈ xs, ∃ e, ofValue x = .error e) ∧
    ∀ xs f, listOfValue (.array xs) = .error f → ∃ before x after e,
      xs = before ++ x :: after ∧ (∀ y ∈ before, ∃ o, ofValue y = .ok o) ∧
      ofValue x = .error e ∧ f.kind = e.kind ∧ f.path = e.path ∧ f.op = e.op ∧
      f.message =
        utf8 "operation " ++ Decimal.ofNat before.length ++ utf8 ": " ++ e.message := by
  refine ⟨fun os => ?_, fun v o h => ?_, fun xs => ⟨fun h => ?_, fun h => ?_⟩,
    fun xs f h => exists_first_of_listOfValue h⟩
  · refine Result.mapError_eq_ok_iff.2 (readFrom_eq_ok_iff.2 ?_)
    rw [List.map_map]
    exact List.map_congr_left fun o _ => read_toValue o
  · obtain ⟨ms, rfl, hms⟩ := ofValue_eq_ok_iff.1 h
    have hnames : (Field.written.map Field.name).Nodup := by decide
    exact ⟨ms, _, rfl, toValue_eq_pick hms, rfl, fun hdistinct =>
      Members.pick_perm_filter hdistinct hnames⟩
  · obtain ⟨f, hf⟩ := h
    obtain ⟨before, x, after, e, rfl, -, hx, -⟩ := exists_first_of_listOfValue hf
    exact ⟨x, List.mem_append_right _ List.mem_cons_self, e, hx⟩
  · obtain ⟨x, hmem, e, hx⟩ := h
    exact exists_error_of_mem hmem hx

/-- An operation with a null value among members that mean nothing is written without these. Of two
elements that are no operations the first is cited. -/
theorem documents_roundTrip_flaws :
    let o : Operation := { op := utf8 "add", path := some (utf8 "/a"), value := some .null }
    let ms : Members Value :=
      [(utf8 "note", .bool true), (utf8 "value", .null), (utf8 "path", .string (utf8 "/a")),
        (utf8 "op", .string (utf8 "add"))]
    let kept : Members Value :=
      [(utf8 "op", .string (utf8 "add")), (utf8 "path", .string (utf8 "/a")),
        (utf8 "value", .null)]
    ofValue (.object ms) = .ok o ∧ toValue o = .object kept ∧
      kept.Perm (ms.filter fun m =>
        m.1 ∈ [utf8 "op", utf8 "from", utf8 "path", utf8 "value"]) ∧
      listOfValue (.array [toValue o, toValue o]) = .ok [o, o] ∧
      ∃ f, listOfValue (.array [.object ms, .object [], .null]) = .error f ∧
        f.kind = .missingRequiredField ∧
        f.message = utf8 "operation 1: operation has no 'op' member" := by
  intro o ms kept
  have hread : ofValue (.object ms) = .ok o := by decide +kernel
  have hwrite : toValue o = .object kept := by decide +kernel
  have hempty : ofValue (.object []) = .error { cause := .malformed .noVerb } := by decide
  obtain ⟨hlist, hrestrict, hfails, hfirst⟩ := documents_roundTrip
  refine ⟨hread, hwrite, ?_, hlist [o, o], ?_⟩
  · obtain ⟨ms', kept', hms, hkept, -, hperm⟩ := hrestrict _ o hread
    cases hms
    cases hwrite.symm.trans hkept
    exact hperm (by decide)
  · obtain ⟨f, hf⟩ := (hfails [.object ms, .object [], .null]).2 ⟨_, by simp, _, hempty⟩
    obtain ⟨before, x, after, e, hxs, hbefore, hx, hkind, -, -, hmessage⟩ := hfirst _ f hf
    -- The first element is an operation and the second is not.
    match before, hxs with
    | [], hxs =>
        cases hxs
        cases hread.symm.trans hx
    | [_], hxs =>
        cases hxs
        cases hempty.symm.trans hx
        exact ⟨f, hf, hkind, hmessage.trans (by decide +kernel)⟩
    | _ :: y :: rest, hxs =>
        obtain rfl : .object [] = y := (List.cons.inj (List.cons.inj hxs).2).1
        obtain ⟨o', ho'⟩ := hbefore (.object []) (by simp)
        cases hempty.symm.trans ho'

end Operation

end TreePatch
