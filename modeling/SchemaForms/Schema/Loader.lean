import SchemaForms.Schema.Graph
import SchemaForms.Schema.Source
import SchemaForms.Xml.Reader

/-!
Loading: a schema document becomes a type graph.  All global names are taken up first; then each
definition is built when it is first needed, so that a base comes before what is derived from it,
wherever the two stand in the document.

Building one thing may need another one built.  `Builders` holds the ways in which it can ask for
that, each step of building is written against them, and `builders` ties the knot: it gives
builders for every depth of nesting.
-/

namespace SchemaForms

open SchemaForms.Xml
open SchemaForms.Source (parts part? groupNames)

namespace Loader

/-- What a schema document declares, and the groups that are being expanded. -/
structure Context where
  target : Option String
  qualifiedElements : Bool
  qualifiedAttributes : Bool
  types : List (TypeId × Element) := []
  elements : List (ElementId × Element) := []
  groups : Table QName Element := .empty
  attributeGroups : Table QName Element := .empty
  attributes : Table QName Element := .empty
  openGroups : List QName := []
  openAttributeGroups : List QName := []

/-- How far the building of a type is. -/
inductive BuildState where
  | building
  | built
  deriving DecidableEq, Repr

/-- The graph as far as it is built, what has been noted about the building of complex and global
types, the latest note first, and the declarations of the complex types without a name. -/
structure Progress where
  schema : Schema
  notes : List (TypeId × BuildState) := []
  anonymous : List (TypeId × Element) := []

/-- Whether the building of a type has begun. -/
def Progress.hasBegun (p : Progress) (id : TypeId) : Bool := p.notes.any (·.1 == id)

abbrev Load := StateT Progress (Except Fault)

/-- The ways in which building one thing asks for another one. -/
structure Builders where
  ensure : Context → TypeId → Load Unit
  complexType : Context → Element → TypeId → Option QName → Load ComplexType
  simpleType : Context → Element → Option QName → Load SimpleType
  particle : Context → TypeId → Element → Load (Option Particle)
  uses : Context → Element → Load (List UseId × List QName)

def fail {α : Type} (p : SchemaProblem) : Load α := throw (.ofProblem p)

def addType (t : TypeDef) : Load TypeId := do
  let (id, schema) := (← get).schema.addType t
  modify ({ · with schema := schema })
  return id

def setType (id : TypeId) (t : TypeDef) : Load Unit :=
  modify fun p => { p with schema := p.schema.setType id t }

def note (id : TypeId) (state : BuildState) : Load Unit :=
  modify fun p => { p with notes := (id, state) :: p.notes }

def declare (id : TypeId) (e : Element) : Load Unit :=
  modify fun p => { p with anonymous := (id, e) :: p.anonymous }

def addElement (decl : ElementDecl) : Load ElementId := do
  let (id, schema) := (← get).schema.addElement decl
  modify ({ · with schema := schema })
  return id

def addUse (use : AttributeUse) : Load UseId := do
  let (id, schema) := (← get).schema.addUse use
  modify ({ · with schema := schema })
  return id

/-- The name that an attribute of an element refers to, when its prefix is known. -/
def nameOf? (e : Element) (reference : String) : Option QName :=
  match e.scope.resolve reference with
  | .ok name => some name
  | .error _ => none

/-- The name of a local declaration, which the form of the declaration puts into the target
namespace or in none. -/
def localName (target : Option String) (e : Element) (qualifiedByDefault : Bool) (name : String) :
    QName :=
  let qualified := match e.attribute? "form" with
    | some form => form == "qualified"
    | none => qualifiedByDefault
  QName.of (if qualified then target else none) name

section Steps

variable (b : Builders)

/-- The type that a reference names, built as far as it can be now. -/
def resolveType (ctx : Context) (e : Element) (reference : String) : Load (Option TypeId) :=
  match nameOf? e reference with
  | none => return none
  | some name => do
    match (← get).schema.findType name with
    | none => return none
    | some id =>
      b.ensure ctx id
      return some id

def anonymousSimple (ctx : Context) (e : Element) : Load TypeId := do
  let t ← b.simpleType ctx e none
  addType (.simple t)

/-- An anonymous complex type gets its number before its content is built. -/
def anonymousComplex (ctx : Context) (e : Element) : Load TypeId := do
  let id ← addType (.complex {})
  declare id e
  note id .building
  let t ← b.complexType ctx e id none
  setType id (.complex t)
  note id .built
  return id

/-- The definition that a global declaration gives. -/
def globalDef (ctx : Context) (e : Element) (id : TypeId) (name : Option QName) :
    Load TypeDef := do
  if e.localName = "complexType" then return .complex (← b.complexType ctx e id name)
  else return .simple (← b.simpleType ctx e name)

/-- Builds a global type, unless its building has begun before. -/
def ensureType (ctx : Context) (id : TypeId) : Load Unit := do
  let p ← get
  if p.hasBegun id then return
  else
    match Table.find id ctx.types with
    | none => return
    | some e =>
      note id .building
      setType id (← globalDef b ctx e id (p.schema.typeDef id).name?)
      note id .built

/-- The type that an attribute names, or else the one written in place. -/
def namedOrInline (ctx : Context) (e : Element) (key : String) : Load (Option TypeId) :=
  match e.attribute? key with
  | some reference => resolveType b ctx e reference
  | none =>
    match part? e ["simpleType"] with
    | some inline => return some (← anonymousSimple b ctx inline)
    | none => return none

def anySimpleType : Load (Option TypeId) := do
  return (← get).schema.builtin .anySimpleType

/-- The members of a union, in the order of a list of references. -/
def unionMembers (ctx : Context) (e : Element) : List String → Load (List TypeId)
  | [] => return []
  | reference :: rest => do
    let member ← resolveType b ctx e reference
    let members ← unionMembers ctx e rest
    return member.toList ++ members

def inlineMembers (ctx : Context) : List Element → Load (List TypeId)
  | [] => return []
  | e :: es => do
    let member ← anonymousSimple b ctx e
    let members ← inlineMembers ctx es
    return member :: members

/-- A simple type: a restriction of its base, a list or a union. -/
def simpleType (ctx : Context) (e : Element) (name : Option QName) : Load SimpleType := do
  let bare : SimpleType := { name := name, documentation := Source.documentation e }
  let some d := part? e ["restriction", "list", "union"] | fail .simpleTypeWithoutDerivation
  if d.localName = "restriction" then
    let base ← namedOrInline b ctx d "base"
    let variety := ((base.bind (← get).schema.simple?).map (·.variety)).getD .atomic
    return { bare with base := base, variety := variety, facets := Source.facets d }
  else if d.localName = "list" then
    let base ← anySimpleType
    let item ← namedOrInline b ctx d "itemType"
    return { bare with base := base, variety := .list item }
  else
    let base ← anySimpleType
    let references := Text.wordsOf ((d.attribute? "memberTypes").getD "")
    let named ← unionMembers b ctx d references
    let inline ← inlineMembers b ctx ((parts d).filter (·.localName == "simpleType"))
    return { bare with base := base, variety := .union (named ++ inline) }

/-- The type of an element declaration: named, written in place, or `anyType`. -/
def elementType (ctx : Context) (e : Element) : Load (Option TypeId) :=
  match e.attribute? "type" with
  | some reference => resolveType b ctx e reference
  | none =>
    match part? e ["complexType"] with
    | some inline => return some (← anonymousComplex b ctx inline)
    | none =>
      match part? e ["simpleType"] with
      | some inline => return some (← anonymousSimple b ctx inline)
      | none => return some Schema.anyType

def elementDecl (ctx : Context) (e : Element) (name : QName) (enclosing : Option TypeId) :
    Load ElementDecl := do
  let type ← elementType b ctx e
  return ⟨name, type, Source.valueConstraint e, enclosing, Source.documentation e⟩

/-- An element of a content model: a reference to a global one, or a declaration of its own. -/
def localElement (ctx : Context) (enclosing : TypeId) (e : Element) : Load (Option ElementId) :=
  match e.attribute? "ref" with
  | some reference => do
    let schema := (← get).schema
    return (nameOf? e reference).bind schema.findElement
  | none =>
    match e.attribute? "name" with
    | none => fail .unnamedElement
    | some name => do
      let decl ← elementDecl b ctx e (localName ctx.target e ctx.qualifiedElements name)
        (some enclosing)
      return some (← addElement decl)

def members (ctx : Context) (enclosing : TypeId) : List Element → Load (List Particle)
  | [] => return []
  | e :: es => do
    let p ← b.particle ctx enclosing e
    let ps ← members ctx enclosing es
    return p.toList ++ ps

/-- What a reference to a group stands for: the content of the group under the bounds of the
reference.  A group inside its own expansion stands for nothing. -/
def groupReference (ctx : Context) (enclosing : TypeId) (bounds : Occurs) (e : Element) :
    Load (Option Particle) :=
  match e.attribute? "ref" with
  | none => fail .groupWithoutRef
  | some reference =>
    match nameOf? e reference with
    | none => return none
    | some name =>
      match ctx.groups.get? name with
      | none => return none
      | some definition =>
        if ctx.openGroups.contains name then return none
        else
          match part? definition groupNames with
          | none => return none
          | some model => do
            let inner := { ctx with openGroups := name :: ctx.openGroups }
            return (← b.particle inner enclosing model).map (·.withOccurs bounds)

/-- The particle of one element of a content model; elements of other kinds count for nothing. -/
def particle (ctx : Context) (enclosing : TypeId) (e : Element) : Load (Option Particle) := do
  let bounds ← Source.occurs e
  match Compositor.ofName? e.localName with
  | some compositor =>
    return some (.group bounds compositor (← members b ctx enclosing (parts e)))
  | none =>
    if e.localName = "element" then
      return (← localElement b ctx enclosing e).map (.element bounds)
    else if e.localName = "group" then groupReference b ctx enclosing bounds e
    else if e.localName = "any" then return some (.wildcard bounds (Source.wildcard e))
    else return none

/-- The content model below an element, if there is one. -/
def contentModel (ctx : Context) (enclosing : TypeId) (e : Element) : Load (Option Particle) :=
  match part? e (groupNames ++ ["group"]) with
  | some model => b.particle ctx enclosing model
  | none => return none

def attributeDecl (ctx : Context) (e : Element) (isGlobal : Bool) : Load AttributeDecl :=
  match e.attribute? "name" with
  | none => fail .unnamedAttribute
  | some name => do
    let qname :=
      if isGlobal then QName.of ctx.target name
      else localName ctx.target e ctx.qualifiedAttributes name
    let type ← match e.attribute? "type", part? e ["simpleType"] with
      | none, none => anySimpleType
      | _, _ => namedOrInline b ctx e "type"
    return ⟨qname, type, Source.valueConstraint e, Source.documentation e⟩

/-- The use that an attribute element makes, or the name that it prohibits. -/
def attributeUse (ctx : Context) (e : Element) : Load (List UseId × List QName) :=
  let usage := (e.attribute? "use").getD "optional"
  let isRequired := usage == "required"
  match e.attribute? "ref" with
  | some reference =>
    match nameOf? e reference with
    | none => return ([], [])
    | some name =>
      if usage = "prohibited" then return ([], [name])
      else
        match ctx.attributes.get? name with
        | none => return ([], [])
        | some definition => do
          let decl ← attributeDecl b ctx definition true
          return ([← addUse ⟨isRequired, decl, Source.valueConstraint e⟩], [])
  | none => do
    let decl ← attributeDecl b ctx e false
    if usage = "prohibited" then return ([], [decl.name])
    else return ([← addUse ⟨isRequired, decl, none⟩], [])

/-- The uses of an attribute group; none inside its own expansion. -/
def attributeGroup (ctx : Context) (e : Element) : Load (List UseId × List QName) :=
  match (e.attribute? "ref").bind (nameOf? e) with
  | none => return ([], [])
  | some name =>
    match ctx.attributeGroups.get? name with
    | none => return ([], [])
    | some definition =>
      if ctx.openAttributeGroups.contains name then return ([], [])
      else b.uses { ctx with openAttributeGroups := name :: ctx.openAttributeGroups } definition

def usesOf (ctx : Context) : List Element → Load (List UseId × List QName)
  | [] => return ([], [])
  | e :: es => do
    let (uses, prohibited) ←
      if e.localName = "attribute" then attributeUse b ctx e
      else if e.localName = "attributeGroup" then attributeGroup b ctx e
      else pure ([], [])
    let (moreUses, moreProhibited) ← usesOf ctx es
    return (uses ++ moreUses, prohibited ++ moreProhibited)

/-- The attribute uses declared below an element, and the names prohibited there. -/
def attributeUses (ctx : Context) (e : Element) : Load (List UseId × List QName) :=
  usesOf b ctx (parts e)

/-- The uses of a derived type.  An extension keeps all of its base; a restriction keeps what it
neither prohibits nor declares anew. -/
def mergeUses (s : Schema) (base : Option TypeId) (method : Derivation) (own : List UseId)
    (prohibited : List QName) : List UseId :=
  let inherited := ((base.bind s.complex?).map (·.uses)).getD []
  let nameOf (id : UseId) : QName := (s.use id).decl.name
  match method with
  | .extension => inherited ++ own
  | _ =>
    inherited.filter (fun id =>
      !prohibited.contains (nameOf id) && !(own.map nameOf).contains (nameOf id)) ++ own

/-- The particle of an extension: the content of the base, then the type's own. -/
def extendParticle (inherited own : Option Particle) : Option Particle :=
  match inherited, own with
  | some p, some q => some (.sequence [p, q])
  | some p, none => some p
  | none, q => q

/-- Method and base of an extension or a restriction. -/
def derivationOf (ctx : Context) (d : Element) : Load (Derivation × Option TypeId) :=
  let method : Derivation := if d.localName = "extension" then .extension else .restriction
  match d.attribute? "base" with
  | none => fail (.derivationWithoutBase d.localName)
  | some reference => return (method, ← resolveType b ctx d reference)

def contentKind (mixed : Bool) (particle : Option Particle) : Content :=
  if mixed then .mixed else if particle.isSome then .elementOnly else .empty

/-- A complex type with text and attributes only. -/
def simpleContent (ctx : Context) (bare : ComplexType) (content : Element) : Load ComplexType := do
  let d ← Source.derivation content
  let (method, base) ← derivationOf b ctx d
  let (own, prohibited) ← attributeUses b ctx d
  let uses := mergeUses (← get).schema base method own prohibited
  return { bare with base := base, derivation := method, content := .simple, uses := uses }

/-- A complex type derived from another one. -/
def complexContent (ctx : Context) (id : TypeId) (bare : ComplexType) (mixed : Bool)
    (content : Element) : Load ComplexType := do
  let mixed := mixed || Source.isTrue (content.attribute? "mixed")
  let d ← Source.derivation content
  let (method, base) ← derivationOf b ctx d
  let ownParticle ← contentModel b ctx id d
  let (own, prohibited) ← attributeUses b ctx d
  let schema := (← get).schema
  let inherited := (base.bind schema.complex?).bind (·.particle)
  let particle := if method = .extension then extendParticle inherited ownParticle else ownParticle
  return { bare with
    base := base
    derivation := method
    particle := particle
    uses := mergeUses schema base method own prohibited
    content := contentKind mixed particle }

/-- A complex type that says what it contains without naming a base. -/
def plainContent (ctx : Context) (id : TypeId) (bare : ComplexType) (mixed : Bool) (e : Element) :
    Load ComplexType := do
  let particle ← contentModel b ctx id e
  let (own, _) ← attributeUses b ctx e
  return { bare with particle := particle, uses := own, content := contentKind mixed particle }

def complexType (ctx : Context) (e : Element) (id : TypeId) (name : Option QName) :
    Load ComplexType :=
  let bare : ComplexType :=
    { name := name
      base := some Schema.anyType
      isAbstract := Source.isTrue (e.attribute? "abstract")
      documentation := Source.documentation e }
  let mixed := Source.isTrue (e.attribute? "mixed")
  match part? e ["simpleContent"], part? e ["complexContent"] with
  | some content, _ => simpleContent b ctx bare content
  | none, some content => complexContent b ctx id bare mixed content
  | none, none => plainContent b ctx id bare mixed e

end Steps

/-- Builders that build nothing. -/
def exhausted : Builders where
  ensure _ _ := fail .nestingExhausted
  complexType _ _ _ _ := fail .nestingExhausted
  simpleType _ _ _ := fail .nestingExhausted
  particle _ _ _ := fail .nestingExhausted
  uses _ _ := fail .nestingExhausted

/-- Builders for a given depth of nesting. -/
def builders : Nat → Builders
  | 0 => exhausted
  | depth + 1 =>
    { ensure := fun ctx id => ensureType (builders depth) ctx id
      complexType := fun ctx e id name => complexType (builders depth) ctx e id name
      simpleType := fun ctx e name => simpleType (builders depth) ctx e name
      particle := fun ctx enclosing e => particle (builders depth) ctx enclosing e
      uses := fun ctx e => attributeUses (builders depth) ctx e }

/-- A bound of the depth of nesting.  Between two openings of a type or a group, building goes down
the document, two steps an element; each type and each group is opened once on the way. -/
def depthBound (root : Element) : Nat := 4 * (Source.count root + 2) * (Source.count root + 2)

/-- The name of a global declaration. -/
def globalName (ctx : Context) (e : Element) : Except Fault QName :=
  match e.attribute? "name" with
  | some name => .ok (QName.of ctx.target name)
  | none =>
    .error (.schema ⟨.unnamedGlobal e.localName, some ("schema/" ++ e.localName), none⟩)

/-- Takes up one global declaration: types and elements get a number and a placeholder. -/
def register (ctx : Context) (s : Schema) (e : Element) : Except Fault (Context × Schema) :=
  if e.localName = "complexType" then do
    let name ← globalName ctx e
    let (id, s) := s.addType (.complex { name := some name })
    return ({ ctx with types := ctx.types ++ [(id, e)] }, s)
  else if e.localName = "simpleType" then do
    let name ← globalName ctx e
    let (id, s) := s.addType (.simple { name := some name })
    return ({ ctx with types := ctx.types ++ [(id, e)] }, s)
  else if e.localName = "element" then do
    let name ← globalName ctx e
    let (id, s) := s.addGlobalElement { name := name }
    return ({ ctx with elements := ctx.elements ++ [(id, e)] }, s)
  else if e.localName = "group" then do
    return ({ ctx with groups := ctx.groups.put (← globalName ctx e) e }, s)
  else if e.localName = "attributeGroup" then do
    return ({ ctx with attributeGroups := ctx.attributeGroups.put (← globalName ctx e) e }, s)
  else if e.localName = "attribute" then do
    return ({ ctx with attributes := ctx.attributes.put (← globalName ctx e) e }, s)
  else return (ctx, s)

def registerAll (ctx : Context) (s : Schema) : List Element → Except Fault (Context × Schema)
  | [] => .ok (ctx, s)
  | e :: es => do
    let (ctx, s) ← register ctx s e
    registerAll ctx s es

def ensureAll (b : Builders) (ctx : Context) : List (TypeId × Element) → Load Unit
  | [] => return
  | (id, _) :: rest => do
    b.ensure ctx id
    ensureAll b ctx rest

/-- Builds the global elements in the place of their placeholders. -/
def buildElements (b : Builders) (ctx : Context) : List (ElementId × Element) → Load Unit
  | [] => return
  | (id, e) :: rest => do
    let name := ((← get).schema.element id).name
    let decl ← elementDecl b ctx e name none
    modify fun p => { p with schema := p.schema.setElement id decl }
    buildElements b ctx rest

/-- Builds all types, then all global elements. -/
def buildAll (b : Builders) (ctx : Context) : Load Unit := do
  ensureAll b ctx ctx.types
  buildElements b ctx ctx.elements

/-- What a schema document with the given root declares, and the graph with all placeholders. -/
def declarations (root : Element) : Except Fault (Context × Schema) :=
  let target := (root.attribute? "targetNamespace").filter (· ≠ "")
  let ctx : Context :=
    { target := target
      qualifiedElements := root.attribute? "elementFormDefault" == some "qualified"
      qualifiedAttributes := root.attribute? "attributeFormDefault" == some "qualified" }
  registerAll ctx (Schema.empty target) (parts root)

/-- All that has been built in the end from a schema document with the given root. -/
def run (root : Element) : Except Fault Progress := do
  if root.name ≠ ⟨some schemaNamespace, "schema"⟩ then
    throw (.ofProblem (.notASchema root.written))
  let (ctx, s) ← declarations root
  let ((), p) ← buildAll (builders (depthBound root)) ctx { schema := s }
  return p

/-- The type graph of a schema document with the given root. -/
def load (root : Element) : Except Fault Schema := (run root).map (·.schema)

end Loader

namespace Schema

/-- The type graph of a schema document. -/
def ofDocument : Option Element → Except Fault Schema
  | some root => Loader.load root
  | none => .error (.ofProblem .emptyDocument)

def ofBytes (bytes : List UInt8) : Except Fault Schema :=
  (readBytes bytes).bind ofDocument

def ofString (text : String) : Except Fault Schema :=
  (readString text).bind ofDocument

end Schema

end SchemaForms
