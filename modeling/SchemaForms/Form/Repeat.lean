import SchemaForms.Form.Synthesis

/-!
Repeats: what may occur more than once is put into a region with one item for each occurrence, and
triggers before it insert and delete items.
-/

namespace SchemaForms.Generator

open Synthesis

/-- The last element bind among the children of a node. -/
def lastElementBind (t : Tree) (id : NodeId) : Option String :=
  (((t.children id).reverse.filterMap t.bind?).find? fun b => !b.isAttribute).map (·.id)

/-- The bind that governs a repeat: the last element bind of the scope, or of the node around it. -/
def governingBind (t : Tree) (scope : NodeId) : Option String :=
  (lastElementBind t scope) <|> ((t.parent scope).bind (lastElementBind t))

/-- The three triggers of a repeat, with the endings of their identifiers. -/
def repeatActions (repeatId : String) (bind : Option String) :
    Synth (List (String × String × Action)) := do
  let current := indexExpression repeatId
  let before ← allocate "insert"
  let after ← allocate "insert"
  let delete ← allocate "delete"
  return [("insert_before", "insert at beginning", .insert before bind .before "1"),
    ("insert_after", "insert after selected", .insert after bind .after current),
    ("delete", "delete selected", .delete delete bind current)]

def repeatTrigger (repeatId suffix label : String) (action : Action) : Control where
  id := repeatId ++ "-" ++ suffix
  kind := .trigger (some action)
  label := some label

/-- Adds triggers side by side. -/
def addTriggers (container : NodeId) : List Control → Synth Unit
  | [] => return
  | c :: cs => do
    let trigger ← create (.control c)
    append container trigger
    addTriggers container cs

/-- Adds triggers to a section; the container of the first one takes the others too. -/
def addTriggerRow (g : Generator) (area : NodeId) : List Control → Synth Unit
  | [] => return
  | c :: cs => do
    let trigger ← create (.control c)
    let container ← onTree (g.layout.control trigger)
    append area container
    addTriggers (if container = trigger then area else container) cs

/-- Reports a repeat that no bind governs. -/
def reportUngoverned (repeatId : String) : Option String → Synth Unit
  | none => report (.missingRepeatBind repeatId)
  | some _ => return

/-- Adds a repeat to a section, behind its triggers. -/
def addRepeat (g : Generator) (spot : Spot) : Synth NodeId := do
  let id ← allocate "repeat"
  let bind := governingBind (← get).tree spot.scope
  reportUngoverned id bind
  let actions ← repeatActions id bind
  let node ← create (.control
    { id := id, kind := .repeatRegion, bind := bind, appearance := some "full" })
  g.addTriggerRow spot.area (actions.map fun (suffix, label, action) =>
    repeatTrigger id suffix label action)
  g.place spot.area node
  return node

/-- The section for the items of what occurs as often as given: a repeat if need be, or the section
itself. -/
def itemsArea (g : Generator) (spot : Spot) (occurs : Occurs) : Synth NodeId := do
  if occurs.isMultiple then g.contentOf (← g.addRepeat spot) else return spot.area

end SchemaForms.Generator
