import SchemaForms.Form.Field
import SchemaForms.Form.Reuse

/-!
Content: the binds, the controls and the instance data of an element of a complex type.  An element
whose type has substitutes becomes a switch with a case for each of them.

The children of an element are added through a `ChildAdder`, which `addElement` supplies with one
opening less: an element that is being expanded is never expanded again inside itself, so there are
never more expansions under way than elements declared.
-/

namespace SchemaForms.Generator

open Synthesis
open Xml (Element)

def instanceNamespace : String := "http://www.w3.org/2001/XMLSchema-instance"

def xsiType : QName := ⟨some instanceNamespace, "type"⟩

/-- Adds an element with its instance data and the path of its bind; gives back the instance data
when the element is not left out. -/
abbrev ChildAdder := Spot → Element → ElementId → String → Occurs → Synth (Option Element)

/-- Adds an attribute, unless the element has one of this name. -/
def addAttribute (e : Element) (name : QName) (nsPrefix : Option String) (value : String) :
    Element :=
  if e.attributes.any (·.name == name) then e
  else { e with attributes := e.attributes ++ [⟨name, nsPrefix, value⟩] }

/-- Adds a child, unless the element has one of this name. -/
def addNewChild (e child : Element) : Element :=
  if e.children.any (·.name == child.name) then e else e.addChild child

/-- Takes over from the data of one case what the element does not have yet. -/
def mergeCase (e case' : Element) : Element :=
  let e := case'.attributes.foldl (fun e a => addAttribute e a.name a.nsPrefix a.value) e
  let e := { e with text := e.text <|> case'.text }
  case'.children.foldl addNewChild e

/-- The instance data that a declared element starts with. -/
def bareInstance (decl : ElementDecl) (nsPrefix : Option String) : Element :=
  let e := { Element.ofName decl.name with nsPrefix := nsPrefix }
  match decl.value with
  | some v => e.setText v.value
  | none => e

/-- An element whose content is being made, as one of the types it may have. -/
structure Filling where
  bind : NodeId
  type : TypeId
  owner : ElementId
  /-- Whether inherited declarations take over the controls of earlier cases. -/
  inherits : Bool

/-- A field for the text of an element, where its type has any. -/
def addText (g : Generator) (f : Filling) (t : ComplexType) (area : NodeId) : Synth Unit :=
  let decl := g.schema.element f.owner
  match t.content, g.schema.simpleContent f.type with
  | .simple, some value | .mixed, some value =>
    g.addField ⟨f.bind, area⟩ value ⟨decl.name.localName, decl.documentation⟩ "." .once
  | _, _ => return

/-- Whether an inherited declaration has been given the control of an earlier case. -/
def reuses (g : Generator) (f : Filling) (isInherited : Bool) (area : NodeId) (nodeset : String) :
    Synth Bool :=
  if f.inherits && isInherited then g.reuse ⟨f.bind, area⟩ nodeset else return false

/-- Adds the field of one attribute. -/
def addUse (g : Generator) (f : Filling) (area : NodeId) (e : Element) (id : UseId) :
    Synth Element := do
  let use := g.schema.use id
  let (nsPrefix, name) ← qualified use.decl.name
  let path := "@" ++ name
  if ← g.reuses f (inheritsUse g.schema f.type id) area path then return e
  match use.decl.type with
  | none =>
    report (.unresolvedType use.decl.name.localName)
    return e
  | some t =>
    let value := (use.effectiveValue.map (·.value)).getD ""
    let owner : Owner := ⟨use.decl.name.localName, use.decl.documentation⟩
    g.addField ⟨f.bind, area⟩ t owner path ⟨if use.required then 1 else 0, some 1⟩
    return addAttribute e use.decl.name nsPrefix value

def addUses (g : Generator) (f : Filling) (area : NodeId) (e : Element) :
    List UseId → Synth Element
  | [] => return e
  | id :: ids => do
    let e ← g.addUse f area e id
    g.addUses f area e ids

/-- Adds one element of a content model, unless it is prohibited. -/
def addChildElement (g : Generator) (child : ChildAdder) (f : Filling) (area : NodeId)
    (e : Element) (id : ElementId) (occurs : Occurs) : Synth Element := do
  if occurs.isEmpty then return e
  let decl := g.schema.element id
  let (nsPrefix, name) ← qualified decl.name
  if ← g.reuses f (inheritsElement g.schema f.type decl.name) area name then return e
  match ← child ⟨f.bind, area⟩ (bareInstance decl nsPrefix) id name occurs with
  | some data => return e.addChild data
  | none => return e

mutual

/-- Adds what a particle stands for, in the order of declaration. -/
def addParticle (g : Generator) (child : ChildAdder) (f : Filling) (area : NodeId) (e : Element) :
    Particle → Synth Element
  | .element occurs id => g.addChildElement child f area e id occurs
  | .group occurs _ members => do
    let area ← g.itemsArea ⟨f.bind, area⟩ occurs
    addParticles g child f area e members
  | .wildcard _ _ => do
    report (.unsupportedWildcard (g.schema.element f.owner).name.localName)
    return e

def addParticles (g : Generator) (child : ChildAdder) (f : Filling) (area : NodeId)
    (e : Element) : List Particle → Synth Element
  | [] => return e
  | p :: ps => do
    let e ← addParticle g child f area e p
    addParticles g child f area e ps

end

/-- Adds the content model of a type, which has to be a group. -/
def addContentModel (g : Generator) (child : ChildAdder) (f : Filling) (area : NodeId)
    (e : Element) (t : ComplexType) : Synth Element :=
  match t.particle with
  | some (.group occurs compositor members) =>
    addParticle g child f area e (.group occurs compositor members)
  | _ => return e

/-- Adds the group of an element and its content as one type: text, attributes and children. -/
def addComplex (g : Generator) (child : ChildAdder) (f : Filling) (area : NodeId) (e : Element)
    (occurs : Occurs) : Synth Element := do
  match g.schema.complex? f.type with
  | none => return e
  | some t =>
    let decl := g.schema.element f.owner
    let bindId := ((← get).tree.bind? f.bind).map (·.id)
    let id ← allocate "group"
    let group ← g.addControl area
      { id := id, kind := .group, label := some (caption decl.name.localName), bind := bindId
        hint := decl.documentation }
    let content ← g.contentOf group
    let scope := ((← get).tree.parent f.bind).getD f.bind
    let area ← g.itemsArea ⟨scope, content⟩ occurs
    g.addText f t area
    let e ← g.addUses f area e t.uses
    g.addContentModel child f area e t

/-- The choices of a type switch and the identifiers of its cases. -/
def typeChoices (g : Generator) : List TypeId → Synth (List (Choice × String))
  | [] => return []
  | t :: ts => do
    let item ← allocate "item"
    let action ← allocate "action"
    let toggle ← allocate "toggle"
    let caseId ← allocate "case"
    let value ← g.typeValue t
    let choice : Choice :=
      { id := item, label := caption (g.schema.displayName t), value := value
        toggle := some ⟨action, toggle, caseId⟩ }
    let rest ← g.typeChoices ts
    return (choice, caseId) :: rest

/-- The text that asks for a choice. -/
def promptText (label : String) : String := "[Select1 " ++ label ++ "]"

/-- The bind of a choice of types.  Where the list is long it starts with an entry that asks for a
choice, and the value of that entry is not valid. -/
def typeBind (g : Generator) (label : String) (count : Nat) : Bind :=
  if g.settings.isLongOne count then
    ({} : Bind).addConstraint ("not( . = '" ++ promptText label ++ "')")
  else {}

/-- The entry that asks for a choice, where the list is long. -/
def promptChoice (g : Generator) (label : String) (count : Nat) : Synth (List Choice) := do
  if g.settings.isLongOne count then
    let id ← allocate "item"
    return [{ id := id, label := promptText label, value := promptText label }]
  else return []

/-- Adds the case of one type to a switch and merges its data into that of the element. -/
def addCase (g : Generator) (child : ChildAdder) (switch bind : NodeId) (owner : ElementId)
    (declared : TypeId) (isFirst : Bool) (e : Element) (t : TypeId) (caseId : String) :
    Synth Element := do
  let node ← create (.control
    { id := caseId, kind := .switchCase isFirst, label := some (caption (g.schema.displayName t)) })
  append switch node
  let content ← g.contentOf node
  let existing := (← get).tree.children bind
  let outer ← swapReused []
  let bare := Element.ofName (g.schema.element owner).name
  let data ← g.addComplex child ⟨bind, t, owner, decide (t ≠ declared)⟩ content bare .once
  let reused ← swapReused outer
  if t ≠ declared then g.applyRelevance bind existing reused t
  return mergeCase e data

def addCases (g : Generator) (child : ChildAdder) (switch bind : NodeId) (owner : ElementId)
    (declared : TypeId) (isFirst : Bool) (e : Element) : List (TypeId × String) → Synth Element
  | [] => return e
  | (t, caseId) :: rest => do
    let e ← g.addCase child switch bind owner declared isFirst e t caseId
    g.addCases child switch bind owner declared false e rest

/-- Adds an element that may have one of several types: a choice of the type, a trigger that
confirms it, and a switch with a case for each type. -/
def addSwitch (g : Generator) (child : ChildAdder) (spot : Spot) (e : Element) (owner : ElementId)
    (declared : TypeId) (types : List TypeId) (path : String) (occurs : Occurs) :
    Synth Element := do
  let decl := g.schema.element owner
  let label := caption (decl.name.localName ++ " Type")
  let selectId ← allocate "select1"
  let typeBind ← addBind spot.scope (g.typeBind label types.length) (path ++ "/@xsi:type")
  let bind ← addBind spot.scope {} path
  let area ← g.itemsArea spot occurs
  let prompt ← g.promptChoice label types.length
  let choices ← g.typeChoices types
  let _ ← g.addControl area
    { id := selectId, kind := .selectOne (prompt ++ choices.map (·.1)), label := some label
      bind := some typeBind.id, appearance := some (g.settings.oneAppearance types.length) }
  let triggerId ← allocate "trigger"
  let actionId ← allocate "action"
  let dispatchId ← allocate "dispatch"
  let trigger ← create (.control
    { id := triggerId
      kind := .trigger (some (.dispatch actionId dispatchId "DOMActivate" selectId))
      label := some "Validate Choice" })
  append area trigger
  let switchId ← allocate "switch"
  let switch ← g.addControl area { id := switchId, kind := .switch }
  let first ← g.typeValue (types.headD declared)
  let e := addAttribute e xsiType (some "xsi") first
  g.addCases child switch bind.node owner declared true e (types.zip (choices.map (·.2)))

/-- The types that an element may have: its own, unless that is abstract, and the substitutes. -/
def candidates (g : Generator) (t : TypeId) : List TypeId :=
  (if (g.schema.complex? t).any (·.isAbstract) then [] else [t]) ++ g.substitutes.of t

/-- Adds an element of a complex type with at most one type to choose from. -/
def addPlain (g : Generator) (child : ChildAdder) (spot : Spot) (e : Element) (owner : ElementId)
    (declared resolved : TypeId) (path : String) (occurs : Occurs) : Synth Element := do
  let e ←
    if resolved = declared then pure e
    else do
      let value ← g.typeValue resolved
      pure (addAttribute e xsiType (some "xsi") value)
  let bind ← addBind spot.scope {} path
  g.addComplex child ⟨bind.node, resolved, owner, false⟩ spot.area e occurs

/-- Adds an element, its children through `child`.  An element without a type, or one that is being
expanded as this type already, is left out. -/
def expand (g : Generator) (child : ChildAdder) (spot : Spot) (e : Element) (id : ElementId)
    (path : String) (occurs : Occurs) : Synth (Option Element) := do
  let decl := g.schema.element id
  match decl.type with
  | none =>
    report (.unresolvedType decl.name.localName)
    return none
  | some t =>
    if (g.schema.complex? t).isNone then
      g.addField spot t ⟨decl.name.localName, decl.documentation⟩ path occurs
      return some e
    else if ← enter id t then
      let data ← match g.candidates t with
        | [] => g.addPlain child spot e id t t path occurs
        | [resolved] => g.addPlain child spot e id t resolved path occurs
        | types => g.addSwitch child spot e id t types path occurs
      leave
      return some data
    else
      report (.recursiveType decl.name.localName (g.schema.displayName t))
      return none

/-- Adds an element when at most so many expansions can be opened. -/
def addElement (g : Generator) : Nat → ChildAdder
  | 0, _, _, _, _, _ => return none
  | openings + 1, spot, e, id, path, occurs =>
    g.expand (g.addElement openings) spot e id path occurs

end SchemaForms.Generator
