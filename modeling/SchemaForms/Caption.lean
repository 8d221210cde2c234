import SchemaForms.Text.Blank
import SchemaForms.Text.Case

/-!
Captions: the readable label of a schema name.  Separators become spaces, camel case is split,
words written in capitals are lowered, and each word is capitalised.
-/

namespace SchemaForms.Caption

open SchemaForms.Text

/-- Characters that separate the words of a name. -/
def isSeparator (c : Char) : Bool := c == '_' || c == '-' || c == '.'

def spaceSeparators (cs : List Char) : List Char :=
  cs.map fun c => if isSeparator c then ' ' else c

/-- Splits a run of capitals before its last letter when a small letter follows. -/
def splitAcronyms : List Char → List Char
  | [] => []
  | a :: rest =>
    match rest with
    | b :: c :: _ =>
      if a.isUpper && b.isUpper && c.isLower then a :: ' ' :: splitAcronyms rest
      else a :: splitAcronyms rest
    | _ => a :: splitAcronyms rest

/-- Splits between a small letter or digit and a capital. -/
def splitHumps : List Char → List Char
  | [] => []
  | a :: rest =>
    match rest with
    | b :: _ =>
      if (a.isLower || a.isDigit) && b.isUpper then a :: ' ' :: splitHumps rest
      else a :: splitHumps rest
    | [] => [a]

/-- A word with a capital and no small letter. -/
def isAllCaps (word : List Char) : Bool := word.any isUpper && !word.any isLower

def capitalize : List Char → List Char
  | [] => []
  | c :: cs => upperOf c ++ cs

/-- A word as it stands in a caption. -/
def captionWord (word : List Char) : List Char :=
  capitalize (if isAllCaps word then toLower word else word)

/-- Words with one space between neighbours. -/
def joinWords : List (List Char) → List Char
  | [] => []
  | [w] => w
  | w :: ws => w ++ ' ' :: joinWords ws

def ofChars (name : List Char) : List Char :=
  joinWords ((words (splitHumps (splitAcronyms (spaceSeparators name)))).map captionWord)

end Caption

/-- The caption of a name. -/
def caption (name : String) : String := String.ofList (Caption.ofChars name.toList)

end SchemaForms
