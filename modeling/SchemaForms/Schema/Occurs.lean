import SchemaForms.Fault
import SchemaForms.Text.Blank

/-!
Occurrence bounds: how often a particle may stand in a content model, and how the attributes
`minOccurs` and `maxOccurs` give them.
-/

namespace SchemaForms

/-- The least and the greatest number of occurrences; no greatest number means unbounded. -/
structure Occurs where
  min : Nat
  max : Option Nat
  deriving DecidableEq, Repr, Inhabited

namespace Occurs

def once : Occurs := ⟨1, some 1⟩

def optional : Occurs := ⟨0, some 1⟩

def isEmptiable (o : Occurs) : Bool := o.min == 0

/-- Prohibited: the particle may not occur at all. -/
def isEmpty (o : Occurs) : Bool := o.max == some 0

def isSingle (o : Occurs) : Bool := o.max == some 1

def isMultiple (o : Occurs) : Bool := !o.isEmpty && !o.isSingle

/-- The bounds as an interval. -/
def text (o : Occurs) : String :=
  "[" ++ toString o.min ++ ".." ++ (o.max.elim "unbounded" toString) ++ "]"

/-- The greatest number that a bound may be written as. -/
def limit : Nat := 4294967295

/-- The value of a run of decimal digits, continuing from `value`. -/
def digitsValue : List Char → Nat → Option Nat
  | [], value => some value
  | c :: cs, value =>
    if c.isDigit then digitsValue cs (10 * value + (c.toNat - '0'.toNat)) else none

/-- A bound: an optional plus sign, then at least one digit, at most `limit`. -/
def boundOf (cs : List Char) : Option Nat :=
  let digits := match cs with
    | '+' :: rest => rest
    | _ => cs
  match digits with
  | [] => none
  | _ => (digitsValue digits 0).filter (· ≤ limit)

/-- The least number of occurrences; one when the attribute is missing. -/
def parseMin : Option String → Except SchemaProblem Nat
  | none => .ok 1
  | some text =>
    match boundOf (Text.trim text.toList) with
    | some n => .ok n
    | none => .error (.badMinOccurs text)

/-- The greatest number of occurrences, which may not lie below the least. -/
def parseMax (min : Nat) : Option String → Except SchemaProblem (Option Nat)
  | none => if 1 < min then .error .minAboveDefaultMax else .ok (some 1)
  | some text =>
    let text := Text.trimmed text
    if text = "unbounded" then .ok none
    else
      match boundOf text.toList with
      | some n => if n < min then .error .maxBelowMin else .ok (some n)
      | none => .error (.badMaxOccurs text)

/-- The bounds that a pair of attributes gives. -/
def parse (minOccurs maxOccurs : Option String) : Except SchemaProblem Occurs := do
  let min ← parseMin minOccurs
  let max ← parseMax min maxOccurs
  return ⟨min, max⟩

/-- The least number is not above the greatest. -/
def Ordered (o : Occurs) : Prop := ∀ n, o.max = some n → o.min ≤ n

end Occurs

end SchemaForms
