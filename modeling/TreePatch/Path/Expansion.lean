import TreePatch.Path.Reader
import TreePatch.Result
import TreePatch.Value.Access

set_option autoImplicit false

/-!
# Expansion: the places that a query addresses

A query is expanded from left to right. A wildcard stands for every child of the
node it is applied to, in the order of `Value.children`, and for none at a leaf.
Any other segment takes one step (`narrow`), the one that it would take in a pointer
(`narrow_eq`), and a branch in which it cannot is a dead end, which fails the whole
query: the first dead end in document order is the one reported. A last segment
other than the wildcard is not followed, since the place it names may be one yet to
be filled.

The places are pointers without wildcards. `expand` lists them as steps from the
node at hand; `queryPaths`, `queryPointers` and `expandPath` start at the root.
-/

namespace TreePatch

/-- A branch of a query in which a step cannot be taken. -/
structure DeadEnd where
  /-- The steps from the start, the last of which cannot be taken. -/
  trail : List Segment
  /-- Why it cannot. -/
  misstep : Misstep
deriving DecidableEq, Repr

namespace DeadEnd

/-- The same dead end seen from one step earlier. -/
def after (s : Segment) (e : DeadEnd) : DeadEnd := { e with trail := s :: e.trail }

/-- The fault of a dead end below the root. It cites the trail as a pointer. -/
def fault (e : DeadEnd) : Fault := (Path.ofSegments e.trail).fault (.deadEnd e.misstep)

end DeadEnd

/-- The step of a query from a node to a child. On an object every segment but the
wildcard is a member name. Elsewhere the sort of the segment decides, and only a
position can lead to a child. -/
def narrow (v : Value) (s : Segment) : Except DeadEnd Value :=
  match v.members?, s.memberName? with
  | some ms, some name =>
      match ms.get? name with
      | some c => .ok c
      | none => .error ⟨[s], .noMember name⟩
  | _, _ =>
      match s with
      | .key name => .error ⟨[s], .notAnObject name v.kind⟩
      | .index n =>
          if v.kind ≠ .array then .error ⟨[s], .notAnArray n v.kind⟩
          else
            match v.element? n with
            | some c => .ok c
            | none => .error ⟨[s], .pastTheEnd n v.size⟩
      | .append =>
          if v.kind ≠ .array then .error ⟨[s], .noEnd v.kind⟩ else .error ⟨[s], .atTheEnd⟩
      | .wildcard => .error ⟨[s], .wildcard⟩

/-- A query takes the same steps as a pointer, and fails for the same reasons. -/
theorem narrow_eq (v : Value) (s : Segment) :
    narrow v s = (v.child s).mapError fun m => ⟨[s], m⟩ := by
  cases v with
  | object ms =>
      cases s with
      | wildcard => rfl
      | key name | index n | append =>
          simp only [narrow, Value.members?, Segment.memberName?, Value.child, Value.childOfMembers]
          cases Members.get? ms _ <;> rfl
  | array xs =>
      cases s with
      | index n =>
          simp only [narrow, Value.members?, Value.element?, Value.elements?, Option.bind_some,
            Value.child, Value.childOfElements]
          cases xs[n]? <;> rfl
      | key name | append | wildcard => rfl
  | null | bool b | number n | string t => cases s <;> rfl

/-- The steps from a node to the places that the segments of a query address. -/
def expand : List Segment → Value → Except DeadEnd (List (List Segment))
  | [], _ => .ok [[]]
  | s :: rest, v =>
      if s.isWildcard then
        Result.gather (fun branch =>
          match expand rest branch.2 with
          | .error e => .error (e.after branch.1)
          | .ok places => .ok (places.map (branch.1 :: ·))) v.children
      else if rest.isEmpty then .ok [[s]]
      else
        match narrow v s with
        | .error e => .error e
        | .ok c =>
            match expand rest c with
            | .error e => .error (e.after s)
            | .ok places => .ok (places.map (s :: ·))

/-- An expansion as seen from the steps that a pointer takes. -/
theorem expand_cons (s : Segment) (rest : List Segment) (v : Value) :
    expand (s :: rest) v =
      if s.isWildcard then
        Result.gather (fun branch =>
          match expand rest branch.2 with
          | .error e => .error (e.after branch.1)
          | .ok places => .ok (places.map (branch.1 :: ·))) v.children
      else if rest.isEmpty then .ok [[s]]
      else
        match v.child s with
        | .error m => .error ⟨[s], m⟩
        | .ok c =>
            match expand rest c with
            | .error e => .error (e.after s)
            | .ok places => .ok (places.map (s :: ·)) := by
  rw [expand, narrow_eq]
  cases v.child s <;> rfl

namespace Path

/-- The places that a path addresses, read as a query whatever its form. -/
def queryPaths (q : Path) (v : Value) : Except Fault (List Path) :=
  match expand q.segments v with
  | .error e => .error e.fault
  | .ok places => .ok (places.map ofSegments)

/-- The pointer texts of the places that a query addresses. -/
def queryPointers (v : Value) (query : Text) : Except Fault (List Text) :=
  (parseQuery query).bind fun q => (q.queryPaths v).bind fun paths => paths.mapM canonical

/-- The places that an expression addresses: those of a query, or the one place of
a pointer, which need not exist. -/
def expandPath (v : Value) (expression : Text) : Except Fault (List Path) :=
  if isQueryText expression then (parseQuery expression).bind fun q => q.queryPaths v
  else (parsePointer expression).map fun p => [p]

end Path

end TreePatch
