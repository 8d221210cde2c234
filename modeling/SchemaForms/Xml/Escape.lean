/-!
Escaping: the five characters that text and attribute values write as entities, and the entities
and character references that are read back.
-/

namespace SchemaForms.Xml

/-- A character as it stands in text and attribute values. -/
def escapeChar (c : Char) : List Char :=
  if c = '<' then "&lt;".toList
  else if c = '>' then "&gt;".toList
  else if c = '&' then "&amp;".toList
  else if c = '\'' then "&apos;".toList
  else if c = '"' then "&quot;".toList
  else [c]

def escapeChars (cs : List Char) : List Char := cs.flatMap escapeChar

/-- A text with its markup characters escaped. -/
def escape (s : String) : String := String.ofList (escapeChars s.toList)

/-- The value of a digit in bases up to sixteen. -/
def digitValue (c : Char) : Option Nat :=
  if c.isDigit then some (c.toNat - '0'.toNat)
  else if 'a' ≤ c ∧ c ≤ 'f' then some (c.toNat - 'a'.toNat + 10)
  else if 'A' ≤ c ∧ c ≤ 'F' then some (c.toNat - 'A'.toNat + 10)
  else none

/-- The number that digits of a base write, continuing from `value`. -/
def numberFrom (base : Nat) : List Char → Nat → Option Nat
  | [], value => some value
  | c :: cs, value =>
    match digitValue c with
    | some d => if d < base then numberFrom base cs (base * value + d) else none
    | none => none

/-- A number of at most `most` digits. -/
def numberOf (base most : Nat) (digits : List Char) : Option Nat :=
  if digits.length ≤ most then numberFrom base digits 0 else none

/-- The character of a code point; neither zero nor a surrogate is one. -/
def charOf (n : Nat) : Option Char :=
  if n ≠ 0 ∧ n.isValidChar then some (Char.ofNat n) else none

/-- What the name between an ampersand and a semicolon stands for. -/
def entity (name : List Char) : Option Char :=
  match name with
  | '#' :: 'x' :: digits => (numberOf 16 6 digits).bind charOf
  | '#' :: digits => (numberOf 10 7 digits).bind charOf
  | _ =>
    if name = "lt".toList then some '<'
    else if name = "gt".toList then some '>'
    else if name = "amp".toList then some '&'
    else if name = "apos".toList then some '\''
    else if name = "quot".toList then some '"'
    else none

/-- Reads on inside an entity; `name` is what has been read of it, backwards. -/
def unescapeFrom : Option (List Char) → List Char → Option (List Char)
  | none, [] => some []
  | some _, [] => none
  | none, c :: cs =>
    if c = '&' then unescapeFrom (some []) cs else (unescapeFrom none cs).map (c :: ·)
  | some name, c :: cs =>
    if c = ';' then
      match entity name.reverse with
      | some d => (unescapeFrom none cs).map (d :: ·)
      | none => none
    else if c = '&' then none
    else unescapeFrom (some (c :: name)) cs

/-- The text that an escaped text stands for. -/
def unescape (cs : List Char) : Option (List Char) := unescapeFrom none cs

theorem unescapeFrom_escapeChar (c : Char) (cs : List Char) :
    unescapeFrom none (escapeChar c ++ cs) = (unescapeFrom none cs).map (c :: ·) := by
  by_cases h₁ : c = '<'
  · subst h₁; simp [escapeChar, unescapeFrom, entity]
  by_cases h₂ : c = '>'
  · subst h₂; simp [escapeChar, unescapeFrom, entity]
  by_cases h₃ : c = '&'
  · subst h₃; simp [escapeChar, unescapeFrom, entity]
  by_cases h₄ : c = '\''
  · subst h₄; simp [escapeChar, unescapeFrom, entity]
  by_cases h₅ : c = '"'
  · subst h₅; simp [escapeChar, unescapeFrom, entity]
  simp [escapeChar, unescapeFrom, h₁, h₂, h₃, h₄, h₅]

/-- Escaped text is read back as it was. -/
theorem unescape_escapeChars (cs : List Char) : unescape (escapeChars cs) = some cs := by
  induction cs with
  | nil => rfl
  | cons c cs ih =>
    have ih : unescapeFrom none (cs.flatMap escapeChar) = some cs := ih
    simp [unescape, escapeChars, unescapeFrom_escapeChar, ih]

end SchemaForms.Xml
