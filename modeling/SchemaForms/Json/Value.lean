/-!
JSON values.  Records keep their fields in order and may name one twice; numbers are naturals, or
else kept as they are written.
-/

namespace SchemaForms

inductive Json where
  | null
  | bool (value : Bool)
  | natural (value : Nat)
  | number (written : String)
  | text (value : String)
  | list (items : List Json)
  | record (fields : List (String × Json))
  deriving Repr, Inhabited

namespace Json

/-- A text, or null when there is none. -/
def ofText? : Option String → Json
  | some s => .text s
  | none => .null

/-- A natural number, or null when there is none. -/
def ofNat? : Option Nat → Json
  | some n => .natural n
  | none => .null

/-- A record with one field, as alternatives that carry data are written. -/
def tagged (tag : String) (value : Json) : Json := .record [(tag, value)]

/-- The encodings of the items, as a list. -/
def ofList {α : Type} (encode : α → Json) (items : List α) : Json := .list (items.map encode)

end Json

end SchemaForms
