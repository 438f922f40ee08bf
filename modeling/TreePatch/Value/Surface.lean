import TreePatch.Value.Lens

set_option autoImplicit false

/-!
# Surfaces: a node without what is below it

The surface of a node is what shows of it before a step is taken: a leaf itself, the number
of an array's elements, the names of an object in order. `surfaceAt` is the surface at the
end of a list of steps. It says where a list of steps leads without saying what lies there in
depth, so a change in depth shows at one surface only.
-/

namespace TreePatch.Value

/-- What shows of a node without its children. -/
inductive Surface where
  /-- A leaf shows as it is. -/
  | leaf (v : Value)
  /-- An array shows its size. -/
  | array (size : Nat)
  /-- An object shows its names in order. -/
  | object (names : List Text)
deriving DecidableEq

/-- The steps to the children of a node with this surface. -/
def Surface.steps : Surface → List Segment
  | .leaf _ => []
  | .array size => (List.range size).map .index
  | .object names => names.map .key

/-- The surface without some of its names. Only an object has names. -/
def Surface.without (gone : Text → Bool) : Surface → Surface
  | .object names => .object (names.filter fun name => !gone name)
  | x => x

/-- The surface of a node. -/
def surface : Value → Surface
  | .array xs => .array xs.length
  | .object ms => .object (Members.keys ms)
  | v => .leaf v

/-- The surface at the end of a list of steps. -/
def surfaceAt (v : Value) (steps : List Segment) : Except Misstep Surface :=
  (v.follow steps).map surface

variable {v w c : Value} {s : Segment} {m : Misstep}

theorem Surface.without_of_eq_false {gone : Text → Bool} (h : ∀ name, gone name = false)
    (x : Surface) : x.without gone = x := by
  cases x <;> simp [without, h]

theorem Surface.without_without (gone gone' : Text → Bool) (x : Surface) :
    (x.without gone).without gone' = x.without fun name => gone name || gone' name := by
  cases x with
  | object names =>
      simp only [without, List.filter_filter, Surface.object.injEq]
      congr 1
      funext name
      cases gone name <;> cases gone' name <;> rfl
  | _ => rfl

theorem surfaceAt_nil (v : Value) : v.surfaceAt [] = .ok v.surface := rfl

theorem surfaceAt_cons_of_child (h : v.child s = .ok c) (rest : List Segment) :
    v.surfaceAt (s :: rest) = c.surfaceAt rest := by
  rw [surfaceAt, follow_cons_of_child h]
  rfl

theorem surfaceAt_cons_of_error (h : v.child s = .error m) (rest : List Segment) :
    v.surfaceAt (s :: rest) = .error m := by
  rw [surfaceAt, follow_cons_of_error h]
  rfl

theorem surfaceAt_append (v : Value) (steps rest : List Segment) :
    v.surfaceAt (steps ++ rest) = (v.follow steps).bind fun c => c.surfaceAt rest := by
  rw [surfaceAt, follow_append]
  cases v.follow steps <;> rfl

/-- A surface lists the steps to the children. -/
theorem map_fst_children (v : Value) : v.children.map Prod.fst = v.surface.steps := by
  cases v with
  | array xs =>
      refine List.ext_getElem ?_ fun i hi hi' => ?_ <;> simp [children, surface, Surface.steps]
  | object ms => simp [children, surface, Surface.steps, Members.keys]
  | _ => rfl

/-- A leaf is determined by its surface. -/
theorem eq_of_surface_eq_of_leaf (hleaf : v.kind.isContainer = false)
    (h : w.surface = v.surface) : w = v := by
  cases v with
  | array xs => cases hleaf
  | object ms => cases hleaf
  | _ =>
      cases w with
      | array ys => cases h
      | object ns => cases h
      | _ => exact Surface.leaf.inj h

theorem surface_eq_array_iff {n : Nat} :
    w.surface = .array n ↔ ∃ ys, w = .array ys ∧ ys.length = n := by
  cases w <;> simp [surface]

theorem surface_eq_object_iff {names : List Text} :
    w.surface = .object names ↔ ∃ ns, w = .object ns ∧ Members.keys ns = names := by
  cases w <;> simp [surface]

end TreePatch.Value
