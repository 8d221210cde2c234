import SchemaForms.Caption
import SchemaForms.Form.Repeat

/-!
Fields: the bind and the control of an element or attribute with a simple value.
-/

namespace SchemaForms.Generator

open Synthesis

/-- What a field says about itself. -/
structure Owner where
  name : String
  hint : Option String

/-- Choices for listed values. -/
def choicesFor : List String → Synth (List Choice)
  | [] => return []
  | value :: values => do
    let id ← allocate "item"
    let rest ← choicesFor values
    return { id := id, label := caption value, value := value } :: rest

/-- The control for a family of values without a list or a range of them. -/
def familyKind : Option Family → ControlKind
  | some .binary => .upload
  | some .boolean => .input .boolean
  | some .numeric => .input .numeric
  | some .temporal => .input .temporal
  | _ => .input .text

/-- A range control for numbers between bounds, or else the control of the family. -/
def valueKind (g : Generator) (t : TypeId) : ControlKind :=
  let family : Option Family := (g.schema.builtinKind t).map Builtin.family
  match family, g.schema.range t with
  | some .numeric, some (low, high) => .range low high
  | _, _ => familyKind family

/-- The control for a simple type: of a list many choices, of listed values one choice, else what
its values need. -/
def fieldControl (g : Generator) (t : TypeId) (bind : String) : Synth Control := do
  if t = Schema.anyType then
    return { id := ← allocate "textarea", kind := .textArea, bind := some bind }
  else if g.schema.isList t then
    let values := ((g.schema.listItem t).map g.schema.enumeration).getD []
    let id ← allocate "select"
    return { id := id, kind := .selectMany (← choicesFor values), bind := some bind
             appearance := some (g.settings.manyAppearance values.length) }
  else
    match g.schema.enumeration t with
    | [] =>
      let kind := g.valueKind t
      return { id := ← allocate kind.elementName, kind := kind, bind := some bind }
    | values =>
      let id ← allocate "select1"
      return { id := id, kind := .selectOne (← choicesFor values), bind := some bind
               appearance := some (g.settings.oneAppearance values.length) }

/-- The datatype of a bind: the built-in type that a value comes from, unless it is a list. -/
def datatype (g : Generator) (t : TypeId) : Option String :=
  if g.schema.isList t || t = Schema.anyType then none
  else (g.schema.builtinKind t).map (·.prefixed)

/-- The bind and the section for one value of a field: those of the field itself, or of an item of
its repeat. -/
def valueSpot (g : Generator) (spot : Spot) (bind : BindRef) (type : Option String) (owner : Owner)
    (occurs : Occurs) : Synth (NodeId × String) := do
  if occurs.isMultiple then
    let id ← allocate "group"
    let group ← g.addControl spot.area
      { id := id, kind := .group, label := some (caption owner.name), bind := some bind.id }
    let content ← g.contentOf group
    let area ← g.contentOf (← g.addRepeat ⟨spot.scope, content⟩)
    let item ← addBind bind.node { datatype := type } "."
    return (area, item.id)
  else return (spot.area, bind.id)

/-- Adds a field. -/
def addField (g : Generator) (spot : Spot) (t : TypeId) (owner : Owner) (path : String)
    (occurs : Occurs) : Synth Unit := do
  let type := g.datatype t
  let required := 0 < occurs.min && occurs.isSingle
  let bind ← addBind spot.scope { datatype := type, required := required } path
  let (area, bindId) ← g.valueSpot spot bind type owner occurs
  let control ← g.fieldControl t bindId
  let _ ← g.addControl area
    { control with label := some (caption owner.name), hint := owner.hint }

end SchemaForms.Generator
