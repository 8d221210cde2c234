import SchemaForms.Form.Identifiers
import SchemaForms.Text.Split

/-!
Controls: inputs, selections, groups, repeats, switches and triggers, with the identifiers they
carry and the references they make to each other.
-/

namespace SchemaForms

/-- The flavour of a single-line input. -/
inductive InputKind where
  | text
  | boolean
  | numeric
  | temporal
  deriving DecidableEq, Repr

/-- Selects a case when its choice is taken. -/
structure Toggle where
  actionId : String
  id : String
  caseId : String
  deriving DecidableEq, Repr

structure Choice where
  id : String
  label : String
  value : String
  toggle : Option Toggle := none
  deriving DecidableEq, Repr

inductive InsertPosition where
  | before
  | after
  deriving DecidableEq, Repr

def InsertPosition.text : InsertPosition → String
  | .before => "before"
  | .after => "after"

/-- What a trigger does. -/
inductive Action where
  | insert (id : String) (bind : Option String) (position : InsertPosition) (index : String)
  | delete (id : String) (bind : Option String) (index : String)
  | dispatch (actionId id event target : String)
  deriving DecidableEq, Repr

inductive ControlKind where
  | input (kind : InputKind)
  | textArea
  | upload
  | selectOne (choices : List Choice)
  | selectMany (choices : List Choice)
  | range (low high : String)
  | group
  | repeatRegion
  | switch
  | switchCase (selected : Bool)
  | trigger (action : Option Action)
  | submit (submission : String)
  deriving DecidableEq, Repr

namespace ControlKind

/-- The name of the element, which the identifiers start with too. -/
def elementName : ControlKind → String
  | .input _ => "input"
  | .textArea => "textarea"
  | .upload => "upload"
  | .selectOne _ => "select1"
  | .selectMany _ => "select"
  | .range _ _ => "range"
  | .group => "group"
  | .repeatRegion => "repeat"
  | .switch => "switch"
  | .switchCase _ => "case"
  | .trigger _ => "trigger"
  | .submit _ => "submit"

def choices : ControlKind → List Choice
  | .selectOne cs => cs
  | .selectMany cs => cs
  | _ => []

def isRepeat : ControlKind → Bool
  | .repeatRegion => true
  | _ => false

end ControlKind

structure Control where
  id : String
  kind : ControlKind
  label : Option String := none
  /-- The bind whose value the control shows. -/
  bind : Option String := none
  appearance : Option String := none
  hint : Option String := none
  deriving DecidableEq, Repr

/-- The expression for the current item of a repeat. -/
def indexExpression (repeatId : String) : String := "xforms:index('" ++ repeatId ++ "')"

/-- The repeat that an index expression names. -/
def indexTarget (expression : String) : Option String :=
  (Text.between "xforms:index('".toList "')".toList expression.toList).map String.ofList

theorem indexTarget_indexExpression (id : String) : indexTarget (indexExpression id) = some id := by
  have h : (indexExpression id).toList = "xforms:index('".toList ++ (id.toList ++ "')".toList) := by
    simp [indexExpression]
  simp only [indexTarget, h, Text.between_append, Option.map_some, String.ofList_toList]

theorem eq_of_indexTarget {expression id : String} (h : indexTarget expression = some id) :
    expression = indexExpression id := by
  obtain ⟨inner, hinner, rfl⟩ := Option.map_eq_some_iff.1 h
  have htext := Text.eq_append_of_between hinner
  apply String.toList_injective
  simpa [indexExpression] using htext

def Choice.identifiers (c : Choice) : List String :=
  c.id :: c.toggle.elim [] fun t => [t.actionId, t.id]

def Action.identifiers : Action → List String
  | .insert id _ _ _ => [id]
  | .delete id _ _ => [id]
  | .dispatch actionId id _ _ => [actionId, id]

def ControlKind.actionIdentifiers : ControlKind → List String
  | .trigger (some a) => a.identifiers
  | _ => []

/-- Every identifier that a control carries, those of its choices and its action included. -/
def Control.identifiers (c : Control) : List String :=
  c.id :: c.kind.choices.flatMap Choice.identifiers ++ c.kind.actionIdentifiers

end SchemaForms
