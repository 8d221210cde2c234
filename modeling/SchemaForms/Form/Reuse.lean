import SchemaForms.Form.Synthesis

/-!
Reuse: in the case of a derived type, what it inherits has a control in an earlier case already.
That control is copied, so that all cases edit one value, and the binds that only some cases have
are relevant only for their types.
-/

namespace SchemaForms.Generator

open Synthesis

/-- The complex types on the base chain above a type, nearest first. -/
def ancestors (s : Schema) (t : TypeId) : List TypeId :=
  (Schema.walk s.base? (s.types.size + 1) [t] (s.base? t)).takeWhile fun b => (s.complex? b).isSome

/-- Whether a type above uses an attribute already. -/
def inheritsUse (s : Schema) (t : TypeId) (use : UseId) : Bool :=
  (ancestors s t).any fun b => (s.complex? b).any (·.uses.contains use)

/-- Whether a type above has an element of this name already. -/
def inheritsElement (s : Schema) (t : TypeId) (name : QName) : Bool :=
  (ancestors s t).any fun b =>
    ((s.complex? b).bind (·.particle)).any fun p =>
      p.elementIds.any fun e => (s.element e).name == name

/-- A node, where it is a bind with a nodeset. -/
def bindWith (t : Tree) (nodeset : String) (id : NodeId) : Option BindRef :=
  match t.bind? id with
  | some b => if b.nodeset = nodeset then some ⟨id, b.id⟩ else none
  | none => none

/-- The child bind with a nodeset. -/
def childBind (t : Tree) (scope : NodeId) (nodeset : String) : Option BindRef :=
  (t.children scope).findSome? (bindWith t nodeset)

/-- Copies the control of the bind with a nodeset into a section.  Says whether there is such a
bind: if not, the declaration has to get a control of its own. -/
def reuse (g : Generator) (spot : Spot) (nodeset : String) : Synth Bool := do
  match childBind (← get).tree spot.scope nodeset with
  | none => return false
  | some bind =>
    match (← get).tree.findBoundTo bind.id with
    | none =>
      report (.reusedControlNotFound nodeset)
      return true
    | some source =>
      let copy ← deepCopy source
      g.place spot.area copy
      noteReused bind.node
      return true

/-- The conditions that `xsi:type` names one of some types. -/
def typeConditions (g : Generator) : List TypeId → Synth (List String)
  | [] => return []
  | t :: ts => do
    let value ← g.typeValue t
    let rest ← g.typeConditions ts
    return ("../@xsi:type='" ++ value ++ "'") :: rest

/-- The relevance of one bind after a case: a new bind is relevant for the types of the case alone,
a shared one for them too. -/
def guardBind (existing reused : List NodeId) (conditions : List String) (id : NodeId) (b : Bind) :
    Bind :=
  if b.nodeset = "." then b
  else if !existing.contains id then b.addRelevance (String.intercalate " or " conditions)
  else if reused.contains id then b.widenRelevance conditions
  else b

def guardBinds (existing reused : List NodeId) (conditions : List String) :
    List NodeId → Synth Unit
  | [] => return
  | id :: ids => do
    modifyBind id (guardBind existing reused conditions id)
    guardBinds existing reused conditions ids

/-- Makes the binds of a derived type's case relevant for that type and those derived from it. -/
def applyRelevance (g : Generator) (elementBind : NodeId) (existing reused : List NodeId)
    (t : TypeId) : Synth Unit := do
  let conditions ← g.typeConditions (t :: g.substitutes.of t)
  guardBinds existing reused conditions ((← get).tree.children elementBind)

end SchemaForms.Generator
