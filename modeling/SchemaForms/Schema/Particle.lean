import SchemaForms.Schema.Occurs

/-!
Particles: the content models of complex types.  A particle is an element, a group of particles or
a wildcard, together with its occurrence bounds.
-/

namespace SchemaForms

/-- The number of a type definition in its schema. -/
structure TypeId where
  index : Nat
  deriving DecidableEq, Repr, Inhabited

/-- The number of an element declaration in its schema. -/
structure ElementId where
  index : Nat
  deriving DecidableEq, Repr, Inhabited

/-- The number of an attribute use in its schema. -/
structure UseId where
  index : Nat
  deriving DecidableEq, Repr, Inhabited

/-- How the members of a group combine. -/
inductive Compositor where
  | sequence
  | choice
  | all
  deriving DecidableEq, Repr

def Compositor.ofName? (localName : String) : Option Compositor :=
  if localName = "sequence" then some .sequence
  else if localName = "choice" then some .choice
  else if localName = "all" then some .all
  else none

/-- A place for any element, as its attributes describe it. -/
structure Wildcard where
  nspace : String := "##any"
  processContents : String := "strict"
  deriving DecidableEq, Repr

inductive Particle where
  | element (occurs : Occurs) (id : ElementId)
  | group (occurs : Occurs) (compositor : Compositor) (members : List Particle)
  | wildcard (occurs : Occurs) (wildcard : Wildcard)
  deriving Repr, Inhabited

namespace Particle

def occurs : Particle → Occurs
  | .element o _ => o
  | .group o _ _ => o
  | .wildcard o _ => o

/-- The same content with other bounds. -/
def withOccurs (occurs : Occurs) : Particle → Particle
  | .element _ id => .element occurs id
  | .group _ c members => .group occurs c members
  | .wildcard _ w => .wildcard occurs w

/-- Particles one after another, once. -/
def sequence (members : List Particle) : Particle := .group .once .sequence members

mutual

/-- The first particle, this one or a nested one, that holds an element. -/
def find (e : ElementId) : Particle → Option Particle
  | .element o id => if id = e then some (.element o id) else none
  | .group _ _ members => findIn e members
  | .wildcard _ _ => none

def findIn (e : ElementId) : List Particle → Option Particle
  | [] => none
  | p :: ps =>
    match find e p with
    | some found => some found
    | none => findIn e ps

end

mutual

/-- The elements of a particle and of all groups nested in it, in order. -/
def elementIds : Particle → List ElementId
  | .element _ id => [id]
  | .group _ _ members => elementIdsOf members
  | .wildcard _ _ => []

def elementIdsOf : List Particle → List ElementId
  | [] => []
  | p :: ps => elementIds p ++ elementIdsOf ps

end

end Particle

end SchemaForms
