import TreePatch.Value.Basic

set_option autoImplicit false

/-!
# Values up to the order of members

Two values are reorderings of each other when they are the same but for the order
in which the members of objects stand, at any depth. Leaves have to be the same
data: a number in another representation is another leaf, and a NaN is a reordering
of itself. For well-formed values this is an equivalence, and it is coarser than
`=` and finer than `Value.equals` away from NaN.
-/

namespace TreePatch.Value

/-- The values differ at most in the order of members. -/
inductive Reordered : Value → Value → Prop where
  /-- Null is itself. -/
  | null : Reordered .null .null
  /-- A truth value is itself. -/
  | bool (b : Bool) : Reordered (.bool b) (.bool b)
  /-- A number is itself in its representation. -/
  | number (n : Number) : Reordered (.number n) (.number n)
  /-- A text is itself. -/
  | string (t : Text) : Reordered (.string t) (.string t)
  /-- Elements correspond position by position. -/
  | array {xs ys : List Value} (length_eq : xs.length = ys.length)
      (elements : ∀ (i : Nat) (x y : Value), xs[i]? = some x → ys[i]? = some y →
        Reordered x y) :
      Reordered (.array xs) (.array ys)
  /-- Members correspond name by name. -/
  | object {ms ns : Members Value} (keys_perm : ms.keys.Perm ns.keys)
      (entries : ∀ (k : Text) (v w : Value), ms.get? k = some v → ns.get? k = some w →
        Reordered v w) :
      Reordered (.object ms) (.object ns)

namespace Reordered

/-- Every value is a reordering of itself. -/
theorem refl (v : Value) : Reordered v v := by
  induction v with
  | null => exact .null
  | bool b => exact .bool b
  | number n => exact .number n
  | string t => exact .string t
  | array xs ih =>
      refine .array rfl fun i x y hx hy => ?_
      cases hx.symm.trans hy
      exact ih x (List.mem_of_getElem? hx)
  | object ms ih =>
      refine .object (List.Perm.refl _) fun k v w hv hw => ?_
      cases hv.symm.trans hw
      exact ih (k, v) (Members.mem_of_get? hv)

/-- Reordering can be undone. -/
theorem symm {v w : Value} (h : Reordered v w) : Reordered w v := by
  induction h with
  | null => exact .null
  | bool b => exact .bool b
  | number n => exact .number n
  | string t => exact .string t
  | array length_eq _ ih => exact .array length_eq.symm fun i y x hy hx => ih i x y hx hy
  | object keys_perm _ ih => exact .object keys_perm.symm fun k w v hw hv => ih k v w hv hw

/-- A reordering of a reordering is one. -/
theorem trans {u v w : Value} (h : Reordered u v) (h' : Reordered v w) : Reordered u w := by
  induction h generalizing w with
  | null | bool b | number n | string t => exact h'
  | @array xs ys length_eq _ ih =>
      cases h' with
      | array length_eq' elements =>
          refine .array (length_eq.trans length_eq') fun i x z hx hz => ?_
          have hy := List.getElem?_eq_getElem (length_eq ▸ (List.getElem?_eq_some_iff.1 hx).1)
          exact ih i x _ hx hy (elements i _ z hy hz)
  | @object ms ns keys_perm _ ih =>
      cases h' with
      | object keys_perm' entries =>
          refine .object (keys_perm.trans keys_perm') fun k a c ha hc => ?_
          obtain ⟨b, hb⟩ := Members.mem_keys_iff.1
            (keys_perm.mem_iff.1 (Members.mem_keys_iff.2 ⟨a, ha⟩))
          exact ih k a b ha hb (entries k b c hb hc)

end Reordered

end TreePatch.Value
