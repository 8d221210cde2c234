import SchemaForms.Schema.Component
import SchemaForms.Table

/-!
The type graph: all components of a schema, addressed by number, with the names under which types
and global elements are found.  Number zero is `anyType`; the built-in types follow it.
-/

namespace SchemaForms

structure Schema where
  target : Option String
  types : Array TypeDef
  elements : Array ElementDecl
  uses : Array AttributeUse
  typeNames : Table QName TypeId
  elementNames : Table QName ElementId
  deriving Inhabited

namespace Schema

def anyType : TypeId := ⟨0⟩

/-- Adds a type; a named one is found by its name from then on. -/
def addType (s : Schema) (t : TypeDef) : TypeId × Schema :=
  let id : TypeId := ⟨s.types.size⟩
  let names := match t.name? with
    | some name => s.typeNames.put name id
    | none => s.typeNames
  (id, { s with types := s.types.push t, typeNames := names })

/-- Puts a definition in the place of another one; its name then means it. -/
def setType (s : Schema) (id : TypeId) (t : TypeDef) : Schema :=
  let names := match t.name? with
    | some name => s.typeNames.put name id
    | none => s.typeNames
  { s with types := s.types.setIfInBounds id.index t, typeNames := names }

def addElement (s : Schema) (decl : ElementDecl) : ElementId × Schema :=
  (⟨s.elements.size⟩, { s with elements := s.elements.push decl })

/-- Adds an element that is found by its name. -/
def addGlobalElement (s : Schema) (decl : ElementDecl) : ElementId × Schema :=
  let (id, s) := s.addElement decl
  (id, { s with elementNames := s.elementNames.put decl.name id })

def setElement (s : Schema) (id : ElementId) (decl : ElementDecl) : Schema :=
  { s with elements := s.elements.setIfInBounds id.index decl }

def addUse (s : Schema) (use : AttributeUse) : UseId × Schema :=
  (⟨s.uses.size⟩, { s with uses := s.uses.push use })

def findType (s : Schema) (name : QName) : Option TypeId := s.typeNames.get? name

def findElement (s : Schema) (name : QName) : Option ElementId := s.elementNames.get? name

/-- The type that the name of a built-in one leads to. -/
def builtin (s : Schema) (b : Builtin) : Option TypeId :=
  s.findType ⟨some schemaNamespace, b.localName⟩

/-- The definition of a built-in type; `s` holds those before it. -/
def builtinType (s : Schema) (b : Builtin) : SimpleType where
  name := some ⟨some schemaNamespace, b.localName⟩
  base := match b.base? with
    | some base => s.builtin base
    | none => some anyType
  variety := match b.item?.bind s.builtin with
    | some item => .list (some item)
    | none => .atomic
  builtin := some b

/-- A schema with the built-in types and nothing else. -/
def empty (target : Option String) : Schema :=
  let bare : Schema :=
    ⟨target.filter (· ≠ ""), #[.any], #[], #[], Table.empty.put TypeDef.anyName anyType,
      .empty⟩
  Builtin.all.foldl (fun s b => (s.addType (.simple (s.builtinType b))).2) bare

/-- The number of types that every schema has. -/
def builtinCount : Nat := Builtin.all.length + 1

/-- The definition of a type. -/
def typeDef (s : Schema) (id : TypeId) : TypeDef := s.types.getD id.index .any

def element (s : Schema) (id : ElementId) : ElementDecl := s.elements.getD id.index default

def use (s : Schema) (id : UseId) : AttributeUse := s.uses.getD id.index default

def simple? (s : Schema) (id : TypeId) : Option SimpleType := (s.typeDef id).simple?

def complex? (s : Schema) (id : TypeId) : Option ComplexType := (s.typeDef id).complex?

def base? (s : Schema) (id : TypeId) : Option TypeId := (s.typeDef id).base?

def category (s : Schema) (id : TypeId) : Category := (s.typeDef id).category

def displayName (s : Schema) (id : TypeId) : String := (s.typeDef id).displayName

/-- The named types that the schema itself declares, in order. -/
def namedTypes (s : Schema) : List TypeId :=
  ((List.range' builtinCount (s.types.size - builtinCount)).map TypeId.mk).filter fun id =>
    (s.typeDef id).name?.isSome

/-- The global elements, in the order in which their names were first declared. -/
def globalElements (s : Schema) : List ElementId := s.elementNames.values

end Schema

end SchemaForms
