import SchemaForms.Schema.Graph

/-!
Chains: what is found by going from a type to its base, to the base of that, and so on.  A graph
may be cyclic, so a walk ends where it would come to a type again.
-/

namespace SchemaForms.Schema

/-- The types met from `current` on, each once and none of `visited`. -/
def walk (next : TypeId → Option TypeId) : Nat → List TypeId → Option TypeId → List TypeId
  | 0, _, _ => []
  | _ + 1, _, none => []
  | budget + 1, visited, some id =>
    if visited.contains id then [] else id :: walk next budget (id :: visited) (next id)

/-- The chain that starts at a type; no chain meets more types than there are. -/
def chain (s : Schema) (next : TypeId → Option TypeId) (id : TypeId) : List TypeId :=
  walk next (s.types.size + 1) [] (some id)

/-- The base of a simple type. -/
def simpleBase (s : Schema) (id : TypeId) : Option TypeId := (s.simple? id).bind (·.base)

/-- The item type of a list, and the base of any other simple type. -/
def itemOrBase (s : Schema) (id : TypeId) : Option TypeId :=
  (s.simple? id).bind fun t =>
    match t.variety with
    | .list item => item
    | _ => t.base

/-- The base of a complex type. -/
def complexBase (s : Schema) (id : TypeId) : Option TypeId := (s.complex? id).bind (·.base)

/-- The simple types on a chain. -/
def simplesOn (s : Schema) (ids : List TypeId) : List SimpleType := ids.filterMap s.simple?

/-- The built-in type that a simple type comes from; of a list that of its items. -/
def builtinKind (s : Schema) (id : TypeId) : Option Builtin :=
  ((s.simplesOn (s.chain s.itemOrBase id)).findSome? (·.builtin)).map fun b => b.item?.getD b

def isList (s : Schema) (id : TypeId) : Bool :=
  (s.simple? id).any fun t =>
    match t.variety with
    | .list _ => true
    | _ => false

/-- The type of the items of a list type, where it is known. -/
def listItem (s : Schema) (id : TypeId) : Option TypeId :=
  (s.simple? id).bind fun t =>
    match t.variety with
    | .list item => item
    | _ => none

/-- The values that a simple type lists, itself or through its bases. -/
def enumeration (s : Schema) (id : TypeId) : List String :=
  (((s.simplesOn (s.chain s.simpleBase id)).map (·.facets.enumeration)).find? (· ≠ [])).getD []

/-- The least and the greatest value, when both are given by the type or its bases. -/
def range (s : Schema) (id : TypeId) : Option (String × String) :=
  let facets := (s.simplesOn (s.chain s.simpleBase id)).map (·.facets)
  match facets.findSome? (·.minInclusive), facets.findSome? (·.maxInclusive) with
  | some low, some high => some (low, high)
  | _, _ => none

/-- The nearest simple type below which a complex type was derived. -/
def simpleContent (s : Schema) (id : TypeId) : Option TypeId :=
  (walk s.complexBase (s.types.size + 1) [id] (s.base? id)).find? fun t => (s.simple? t).isSome

/-- The particle that says how often an element occurs in the type that declares it. -/
def governingParticle (s : Schema) (id : ElementId) : Option Particle :=
  (((s.element id).enclosing.bind s.complex?).bind (·.particle)).bind (·.find id)

theorem not_mem_walk_of_visited {next : TypeId → Option TypeId} {budget : Nat}
    {visited : List TypeId} {current : Option TypeId} {id : TypeId} (h : id ∈ visited) :
    id ∉ walk next budget visited current := by
  induction budget generalizing visited current with
  | zero => simp [walk]
  | succ budget ih =>
    cases current with
    | none => simp [walk]
    | some c =>
      simp only [walk]
      split
      · simp
      · next hc =>
        intro hm
        rcases List.mem_cons.1 hm with rfl | hm
        · exact hc (by simpa using h)
        · exact ih (List.mem_cons_of_mem _ h) hm

/-- No type comes twice. -/
theorem nodup_walk (next : TypeId → Option TypeId) (budget : Nat) (visited : List TypeId)
    (current : Option TypeId) : (walk next budget visited current).Nodup := by
  induction budget generalizing visited current with
  | zero => simp [walk]
  | succ budget ih =>
    cases current with
    | none => simp [walk]
    | some c =>
      simp only [walk]
      split
      · simp
      · exact List.nodup_cons.2 ⟨not_mem_walk_of_visited (List.mem_cons_self ..), ih _ _⟩

end SchemaForms.Schema
