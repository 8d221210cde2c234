import SchemaForms.Name.QName
import SchemaForms.Schema.Builtin
import SchemaForms.Schema.Particle

/-!
Schema components: type definitions, element declarations and attribute uses.  They refer to each
other by number.
-/

namespace SchemaForms

inductive Category where
  | simple
  | complex
  deriving DecidableEq, Repr

/-- How a complex type comes from its base. -/
inductive Derivation where
  | none
  | extension
  | restriction
  deriving DecidableEq, Repr

/-- What may stand in an element of a complex type. -/
inductive Content where
  | empty
  | simple
  | elementOnly
  | mixed
  deriving DecidableEq, Repr

/-- A value that an element or attribute has unless another one is given, or always. -/
inductive ValueConstraint where
  | default (value : String)
  | fixed (value : String)
  deriving DecidableEq, Repr

def ValueConstraint.value : ValueConstraint → String
  | .default v => v
  | .fixed v => v

/-- One value, a list of them, or a value of one of several types; the item type of a list may be
unknown. -/
inductive Variety where
  | atomic
  | list (item : Option TypeId)
  | union (members : List TypeId)
  deriving DecidableEq, Repr

structure Facets where
  enumeration : List String := []
  minInclusive : Option String := none
  maxInclusive : Option String := none
  deriving DecidableEq, Repr

structure SimpleType where
  name : Option QName := none
  base : Option TypeId := none
  variety : Variety := .atomic
  builtin : Option Builtin := none
  facets : Facets := {}
  documentation : Option String := none
  deriving DecidableEq, Repr

structure ComplexType where
  name : Option QName := none
  base : Option TypeId := none
  derivation : Derivation := .none
  isAbstract : Bool := false
  content : Content := .empty
  /-- Inherited uses first, then the type's own. -/
  uses : List UseId := []
  /-- For an extension the content of the base, then the type's own. -/
  particle : Option Particle := none
  documentation : Option String := none
  deriving Repr

/-- A type definition; `any` is the root of all types. -/
inductive TypeDef where
  | any
  | simple (type : SimpleType)
  | complex (type : ComplexType)
  deriving Repr

namespace TypeDef

instance : Inhabited TypeDef := ⟨.any⟩

def anyName : QName := ⟨some schemaNamespace, "anyType"⟩

/-- The name of the type; an anonymous type has none. -/
def name? : TypeDef → Option QName
  | .any => some anyName
  | .simple t => t.name
  | .complex t => t.name

def base? : TypeDef → Option TypeId
  | .any => none
  | .simple t => t.base
  | .complex t => t.base

def category : TypeDef → Category
  | .simple _ => .simple
  | .any | .complex _ => .complex

def documentation : TypeDef → Option String
  | .any => none
  | .simple t => t.documentation
  | .complex t => t.documentation

def simple? : TypeDef → Option SimpleType
  | .simple t => some t
  | _ => none

def complex? : TypeDef → Option ComplexType
  | .complex t => some t
  | _ => none

/-- The local name, or a word for its absence. -/
def displayName (t : TypeDef) : String :=
  match t.name? with
  | some name => name.localName
  | none => "(anonymous)"

end TypeDef

structure ElementDecl where
  name : QName
  /-- The declared type; none when the reference leads nowhere. -/
  type : Option TypeId := none
  value : Option ValueConstraint := none
  /-- The complex type whose content declares the element; none for a global one. -/
  enclosing : Option TypeId := none
  documentation : Option String := none
  deriving DecidableEq, Repr, Inhabited

structure AttributeDecl where
  name : QName
  type : Option TypeId := none
  value : Option ValueConstraint := none
  documentation : Option String := none
  deriving DecidableEq, Repr, Inhabited

/-- The use of an attribute by a complex type. -/
structure AttributeUse where
  required : Bool := false
  decl : AttributeDecl
  value : Option ValueConstraint := none
  deriving DecidableEq, Repr, Inhabited

/-- The value given with the use, or else with the declaration. -/
def AttributeUse.effectiveValue (u : AttributeUse) : Option ValueConstraint :=
  u.value <|> u.decl.value

end SchemaForms
