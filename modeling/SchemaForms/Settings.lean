import SchemaForms.Fault
import SchemaForms.Json.Reader

/-!
Settings: the presentation options that all forms of a generator share, and how they are read from
JSON.
-/

namespace SchemaForms

structure Settings where
  stylesheet : String := "style.css"
  /-- The number of choices from which a list with one answer is long. -/
  oneLongSize : Nat := 6
  oneShort : String := "full"
  oneLong : String := "minimal"
  /-- The number of choices from which a list with many answers is long. -/
  manyLongSize : Nat := 6
  manyShort : String := "full"
  manyLong : String := "compact"
  deriving DecidableEq, Repr, Inhabited

namespace Settings

def default : Settings := {}

def isLongOne (s : Settings) (count : Nat) : Bool := s.oneLongSize ≤ count

/-- The appearance of a list with one answer. -/
def oneAppearance (s : Settings) (count : Nat) : String :=
  if s.isLongOne count then s.oneLong else s.oneShort

/-- The appearance of a list with many answers. -/
def manyAppearance (s : Settings) (count : Nat) : String :=
  if s.manyLongSize ≤ count then s.manyLong else s.manyShort

/-- The options that settings are made of, in the order of a list that gives them. -/
inductive Key where
  | stylesheet
  | oneLongSize
  | oneShort
  | oneLong
  | manyLongSize
  | manyShort
  | manyLong
  deriving DecidableEq, Repr

def Key.all : List Key :=
  [.stylesheet, .oneLongSize, .oneShort, .oneLong, .manyLongSize, .manyShort, .manyLong]

/-- The key as it is written. -/
def Key.text : Key → String
  | .stylesheet => "cssStyle"
  | .oneLongSize => "selectOneLongListSize"
  | .oneShort => "selectOneAppearanceShort"
  | .oneLong => "selectOneAppearanceLong"
  | .manyLongSize => "selectManyLongListSize"
  | .manyShort => "selectManyAppearanceShort"
  | .manyLong => "selectManyAppearanceLong"

/-- The greatest size that can be given. -/
def sizeLimit : Nat := 18446744073709551615

/-- Sets an option; a size has to be a natural number within the limit, all else a text. -/
def set (s : Settings) : Key → Json → Except Fault Settings
  | .stylesheet, .text v => .ok { s with stylesheet := v }
  | .oneShort, .text v => .ok { s with oneShort := v }
  | .oneLong, .text v => .ok { s with oneLong := v }
  | .manyShort, .text v => .ok { s with manyShort := v }
  | .manyLong, .text v => .ok { s with manyLong := v }
  | .oneLongSize, .natural n =>
    if n ≤ sizeLimit then .ok { s with oneLongSize := n } else .error .json
  | .manyLongSize, .natural n =>
    if n ≤ sizeLimit then .ok { s with manyLongSize := n } else .error .json
  | _, _ => .error .json

/-- Takes up the fields of a record; `rest` are the options not yet given. -/
def setFields (s : Settings) (rest : List Key) :
    List (String × Json) → Except Fault Settings
  | [] => .ok s
  | (key, value) :: fields =>
    match rest.find? (·.text = key) with
    | none => .error .json
    | some option =>
      match s.set option value with
      | .error f => .error f
      | .ok s => s.setFields (rest.erase option) fields

/-- Takes up values in the order of the options. -/
def setItems (s : Settings) : List Key → List Json → Except Fault Settings
  | _, [] => .ok s
  | [], _ :: _ => .error .json
  | option :: options, value :: values =>
    match s.set option value with
    | .error f => .error f
    | .ok s => s.setItems options values

/-- The settings that a value gives; what it leaves out keeps its default. -/
def ofJson : Json → Except Fault Settings
  | .record fields => default.setFields Key.all fields
  | .list items => default.setItems Key.all items
  | _ => .error .json

/-- A list cannot be long from no choices on. -/
def check (s : Settings) : Except Fault Settings :=
  if s.oneLongSize = 0 then .error (.sizeNotPositive Key.oneLongSize.text)
  else if s.manyLongSize = 0 then .error (.sizeNotPositive Key.manyLongSize.text)
  else .ok s

/-- Reads settings from a JSON text. -/
def parse (text : String) : Except Fault Settings :=
  match Json.parse text with
  | none => .error .json
  | some value => (ofJson value).bind check

end Settings

end SchemaForms
