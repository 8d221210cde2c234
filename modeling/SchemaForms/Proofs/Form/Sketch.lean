import SchemaForms.Form.Generate
import SchemaForms.Proofs.Form.Copying

/-!
Sketches: the generator without the arena.  A sketch gives the binds and the controls of a form as
forests, with the identifiers that the generator gives them.  It works on the draft of one element:
the binds made for it so far, and the controls made in the current section.
-/

namespace SchemaForms

open Synthesis
open Xml (Element)

/-- A bind of the element that is being filled. -/
structure Kid where
  bind : Bind
  below : Forest Bind := .nil
  /-- The first control bound to it, with what is below that. -/
  source : Option (NodeKind × Forest NodeKind) := none
  /-- Whether the current case has copied its control. -/
  shared : Bool := false

def Kid.forest : List Kid → Forest Bind
  | [] => .nil
  | kid :: kids => .cons kid.bind kid.below (forest kids)

structure Draft where
  /-- The bind of the element. -/
  own : Option String := none
  /-- The last element bind beside it. -/
  above : Option String := none
  /-- The bind that governs repeats around it. -/
  around : Option String := none
  kids : List Kid := []
  controls : Forest NodeKind := .nil
  /-- The trees that have been copied in the whole form so far, with their copies. -/
  copies : List (Forest NodeKind × Forest NodeKind) := []

/-- The last element bind of some. -/
def Kid.lastElement (kids : List Kid) : Option String :=
  ((kids.reverse.map (·.bind)).find? fun b => !b.isAttribute).map (·.id)

/-- The bind that governs a repeat. -/
def Draft.governing (d : Draft) : Option String := Kid.lastElement d.kids <|> d.above

abbrev Sketch := StateT Draft Synth

namespace Sketch

variable {α : Type}

/-- Controls side by side. -/
def leaves (cs : List Control) : Sketch Unit :=
  modify fun d => { d with controls := d.controls ++ .leaves (cs.map .control) }

/-- Some controls, and behind them one around what a sketch makes. -/
def within (before : List Control) (c : Control) (inner : Sketch α) : Sketch α := fun d => do
  let (a, d') ← inner { d with controls := .nil }
  return (a, { d' with
    controls := d.controls ++
      (.leaves (before.map .control) ++ .tree (.control c) d'.controls) })

/-- A new bind around the binds that a sketch makes. -/
def withKid (b : Bind) (nodeset : String) (inner : Sketch α) : Sketch α := fun d => do
  let id ← allocate "bind"
  let kid : Kid := { bind := { b with id := id, nodeset := nodeset } }
  let kids := d.kids ++ [kid]
  let (a, d') ← inner
    { own := some id
      above := Kid.lastElement kids
      around := Draft.governing { d with kids := kids }
      kids := []
      controls := d.controls
      copies := d.copies }
  return (a, { d with
    kids := d.kids ++ [{ kid with below := Kid.forest d'.kids }]
    controls := d'.controls
    copies := d'.copies })

/-- Looks for the control of a bind. -/
def settle (controls : Forest NodeKind) (kid : Kid) : Kid :=
  if kid.source.isNone then { kid with source := controls.find (·.isBoundTo kid.bind.id) } else kid

/-- The sketch of one declaration: the new binds get their controls as sources. -/
def slot (p : Sketch α) : Sketch α := fun d => do
  let (a, d') ← p { d with controls := .nil }
  return (a, { d' with
    kids := d'.kids.map (settle d'.controls)
    controls := d.controls ++ d'.controls })

def ownId : Sketch String := return (← get).own.getD ""

/-- A repeat of a bind, behind its triggers, around what a sketch makes. -/
def repeatOf (id : String) (bind : Option String) (inner : Sketch α) : Sketch α := do
  Generator.reportUngoverned id bind
  let actions ← Generator.repeatActions id bind
  within (actions.map fun (suffix, label, action) =>
      Generator.repeatTrigger id suffix label action)
    { id := id, kind := .repeatRegion, bind := bind, appearance := some "full" } inner

def repeated (bind : Option String) (inner : Sketch α) : Sketch α := do
  let id ← allocate "repeat"
  repeatOf id bind inner

/-- The items of an element, governed by a bind that is known. -/
def items (bind : Option String) (occurs : Occurs) (inner : Sketch α) : Sketch α :=
  if occurs.isMultiple then repeated bind inner else inner

/-- The items of a group of a content model. -/
def groupItems (occurs : Occurs) (inner : Sketch α) : Sketch α := do
  if occurs.isMultiple then
    let id ← allocate "repeat"
    repeatOf id (← get).governing inner
  else inner

section Generator

variable (g : Generator)

open Generator (Owner ancestors inheritsUse inheritsElement addAttribute addNewChild mergeCase
  bareInstance xsiType)

def valueControl (t : TypeId) (owner : Owner) : Sketch Unit := do
  let control ← g.fieldControl t (← ownId)
  leaves [{ control with label := some (caption owner.name), hint := owner.hint }]

def field (t : TypeId) (owner : Owner) (path : String) (occurs : Occurs) : Sketch Unit :=
  let type := g.datatype t
  withKid { datatype := type, required := 0 < occurs.min && occurs.isSingle } path do
    if occurs.isMultiple then
      let d ← get
      let id ← allocate "group"
      within [] { id := id, kind := .group, label := some (caption owner.name), bind := d.own }
        (repeated d.around (withKid { datatype := type } "." (valueControl g t owner)))
    else valueControl g t owner

/-- An element whose content is being made, as one of the types it may have. -/
structure Role where
  type : TypeId
  owner : ElementId
  inherits : Bool

def text (f : Role) (t : ComplexType) : Sketch Unit :=
  let decl := g.schema.element f.owner
  match t.content, g.schema.simpleContent f.type with
  | .simple, some value | .mixed, some value =>
    slot (field g value ⟨decl.name.localName, decl.documentation⟩ "." .once)
  | _, _ => return

/-- Marks the first bind with a nodeset as shared. -/
def share (nodeset : String) : List Kid → List Kid
  | [] => []
  | kid :: kids =>
    if kid.bind.nodeset = nodeset then { kid with shared := true } :: kids
    else kid :: share nodeset kids

def copy (f : Forest NodeKind) : Synth (Forest NodeKind) := fun s =>
  let (copy, ids) := f.copy s.ids
  (copy, { s with ids := ids })

/-- A copy of the control of the bind with a nodeset, if there is such a bind. -/
def reuse (nodeset : String) : Sketch Bool := fun d =>
  match d.kids.find? (·.bind.nodeset = nodeset) with
  | none => return (false, d)
  | some kid =>
    match kid.source with
    | none => do
      report (.reusedControlNotFound nodeset)
      return (true, d)
    | some (k, below) => do
      let copied ← copy (.tree k below)
      return (true, { d with
        controls := d.controls ++ copied
        kids := share nodeset d.kids
        copies := d.copies ++ [(.tree k below, copied)] })

def reuses (f : Role) (isInherited : Bool) (nodeset : String) : Sketch Bool :=
  if f.inherits && isInherited then reuse nodeset else return false

def use (f : Role) (e : Element) (id : UseId) : Sketch Element := do
  let use := g.schema.use id
  let (nsPrefix, name) ← qualified use.decl.name
  let path := "@" ++ name
  if ← reuses f (inheritsUse g.schema f.type id) path then return e
  match use.decl.type with
  | none =>
    report (.unresolvedType use.decl.name.localName)
    return e
  | some t =>
    let value := (use.effectiveValue.map (·.value)).getD ""
    let owner : Owner := ⟨use.decl.name.localName, use.decl.documentation⟩
    slot (field g t owner path ⟨if use.required then 1 else 0, some 1⟩)
    return addAttribute e use.decl.name nsPrefix value

def uses (f : Role) (e : Element) : List UseId → Sketch Element
  | [] => return e
  | id :: ids => do
    let e ← use g f e id
    uses f e ids

end Generator

/-- The sketch of an element, given its instance data and the path of its bind. -/
abbrev ChildSketch := Element → ElementId → String → Occurs → Sketch (Option Element)

section Content

variable (g : Generator) (child : ChildSketch)

open Generator (inheritsElement addAttribute mergeCase bareInstance xsiType)

def childElement (f : Role) (e : Element) (id : ElementId) (occurs : Occurs) : Sketch Element := do
  if occurs.isEmpty then return e
  let decl := g.schema.element id
  let (nsPrefix, name) ← qualified decl.name
  if ← reuses f (inheritsElement g.schema f.type decl.name) name then return e
  match ← slot (child (bareInstance decl nsPrefix) id name occurs) with
  | some data => return e.addChild data
  | none => return e

mutual

def particle (f : Role) (e : Element) : Particle → Sketch Element
  | .element occurs id => childElement g child f e id occurs
  | .group occurs _ members => groupItems occurs (particles f e members)
  | .wildcard _ _ => do
    report (.unsupportedWildcard (g.schema.element f.owner).name.localName)
    return e

def particles (f : Role) (e : Element) : List Particle → Sketch Element
  | [] => return e
  | p :: ps => do
    let e ← particle f e p
    particles f e ps

end

def contentModel (f : Role) (e : Element) (t : ComplexType) : Sketch Element :=
  match t.particle with
  | some (.group occurs compositor members) =>
    particle g child f e (.group occurs compositor members)
  | _ => return e

/-- The content of an element as one type: text, attributes and children. -/
def content (f : Role) (e : Element) (t : ComplexType) : Sketch Element := do
  text g f t
  let e ← uses g f e t.uses
  contentModel g child f e t

def complex (f : Role) (e : Element) (occurs : Occurs) : Sketch Element := do
  match g.schema.complex? f.type with
  | none => return e
  | some t =>
    let decl := g.schema.element f.owner
    let d ← get
    let id ← allocate "group"
    within [] { id := id, kind := .group, label := some (caption decl.name.localName)
                bind := d.own, hint := decl.documentation }
      (items d.around occurs (content g child f e t))

/-- The relevance of a bind after a case, where the case has made it or shares it. -/
def guardKid (isNew : Bool) (conditions : List String) (kid : Kid) : Kid :=
  if kid.bind.nodeset = "." then kid
  else if isNew then
    { kid with bind := kid.bind.addRelevance (String.intercalate " or " conditions) }
  else if kid.shared then { kid with bind := kid.bind.widenRelevance conditions }
  else kid

/-- The relevance of all binds after a case; so many of them were there before it. -/
def guardKids (existing : Nat) (conditions : List String) (kids : List Kid) : List Kid :=
  (kids.take existing).map (guardKid false conditions) ++
    (kids.drop existing).map (guardKid true conditions)

def applyRelevance (existing : Nat) (t : TypeId) : Sketch Unit := do
  let conditions ← g.typeConditions (t :: g.substitutes.of t)
  modify fun d => { d with kids := guardKids existing conditions d.kids }

/-- The relevance after a case, unless it is the case of the declared type. -/
def guardCase (existing : Nat) (t declared : TypeId) : Sketch Unit :=
  if t ≠ declared then applyRelevance g existing t else return

def unshare : Sketch Unit :=
  modify fun d => { d with kids := d.kids.map fun kid => { kid with shared := false } }

def typeCase (owner : ElementId) (declared : TypeId) (isFirst : Bool) (e : Element) (t : TypeId)
    (caseId : String) : Sketch Element :=
  within [] { id := caseId, kind := .switchCase isFirst
              label := some (caption (g.schema.displayName t)) } do
    let existing := (← get).kids.length
    let bare := Element.ofName (g.schema.element owner).name
    let data ← complex g child ⟨t, owner, decide (t ≠ declared)⟩ bare .once
    guardCase g existing t declared
    unshare
    return mergeCase e data

def typeCases (owner : ElementId) (declared : TypeId) (isFirst : Bool) (e : Element) :
    List (TypeId × String) → Sketch Element
  | [] => return e
  | (t, caseId) :: rest => do
    let e ← typeCase g child owner declared isFirst e t caseId
    typeCases owner declared false e rest

def switch (e : Element) (owner : ElementId) (declared : TypeId) (types : List TypeId)
    (path : String) (occurs : Occurs) : Sketch Element := do
  let decl := g.schema.element owner
  let label := caption (decl.name.localName ++ " Type")
  let selectId ← allocate "select1"
  let typeBindId ← withKid (g.typeBind label types.length) (path ++ "/@xsi:type") ownId
  withKid {} path do
    let d ← get
    items d.around occurs do
      let prompt ← g.promptChoice label types.length
      let choices ← g.typeChoices types
      leaves [{ id := selectId, kind := .selectOne (prompt ++ choices.map (·.1)), label := some label
                bind := some typeBindId
                appearance := some (g.settings.oneAppearance types.length) }]
      let triggerId ← allocate "trigger"
      let actionId ← allocate "action"
      let dispatchId ← allocate "dispatch"
      leaves [{ id := triggerId
                kind := .trigger (some (.dispatch actionId dispatchId "DOMActivate" selectId))
                label := some "Validate Choice" }]
      let switchId ← allocate "switch"
      within [] { id := switchId, kind := .switch } do
        let first ← g.typeValue (types.headD declared)
        let e := addAttribute e xsiType (some "xsi") first
        typeCases g child owner declared true e (types.zip (choices.map (·.2)))

def plain (e : Element) (owner : ElementId) (declared resolved : TypeId) (path : String)
    (occurs : Occurs) : Sketch Element := do
  let e ←
    if resolved = declared then pure e
    else do
      let value ← g.typeValue resolved
      pure (addAttribute e xsiType (some "xsi") value)
  withKid {} path (complex g child ⟨resolved, owner, false⟩ e occurs)

def expand (e : Element) (id : ElementId) (path : String) (occurs : Occurs) :
    Sketch (Option Element) := do
  let decl := g.schema.element id
  match decl.type with
  | none =>
    report (.unresolvedType decl.name.localName)
    return none
  | some t =>
    if (g.schema.complex? t).isNone then
      field g t ⟨decl.name.localName, decl.documentation⟩ path occurs
      return some e
    else if ← enter id t then
      let data ← match g.candidates t with
        | [] => plain g child e id t t path occurs
        | [resolved] => plain g child e id t resolved path occurs
        | types => switch g child e id t types path occurs
      leave
      return some data
    else
      report (.recursiveType decl.name.localName (g.schema.displayName t))
      return none

end Content

/-- An element when at most so many expansions can be opened. -/
def element (g : Generator) : Nat → ChildSketch
  | 0, _, _, _, _ => return none
  | openings + 1, e, id, path, occurs => expand g (element g openings) e id path occurs

end Sketch

end SchemaForms
