import SchemaForms.Xml.Element
import SchemaForms.Xml.Escape

/-!
Writing markup: a sequence of pieces becomes text, in one line or indented.
-/

namespace SchemaForms.Xml

inductive Piece where
  | declaration
  | opening (name : String) (attributes : List (String × String))
  | empty (name : String) (attributes : List (String × String))
  | closing (name : String)
  | text (text : String)
  | comment (text : String)
  deriving DecidableEq, Repr

/-- The attributes of a tag, each after a space. -/
def attributeText : List (String × String) → List Char
  | [] => []
  | (key, value) :: rest =>
    ' ' :: key.toList ++ '=' :: '"' :: escapeChars value.toList ++ '"' :: attributeText rest

namespace Piece

/-- The characters of a piece alone. -/
def chars : Piece → List Char
  | .declaration => "<?xml version=\"1.0\" encoding=\"UTF-8\"?>".toList
  | .opening name attributes => '<' :: name.toList ++ attributeText attributes ++ ['>']
  | .empty name attributes => '<' :: name.toList ++ attributeText attributes ++ ['/', '>']
  | .closing name => '<' :: '/' :: name.toList ++ ['>']
  | .text s => escapeChars s.toList
  | .comment s => "<!--".toList ++ s.toList ++ "-->".toList

def isText : Piece → Bool
  | .text _ => true
  | _ => false

/-- The depth at which a piece stands, when `depth` elements are open before it. -/
def ownDepth (depth : Nat) : Piece → Nat
  | .closing _ => depth - 1
  | _ => depth

/-- The number of open elements after a piece. -/
def nextDepth (depth : Nat) : Piece → Nat
  | .opening _ _ => depth + 1
  | .closing _ => depth - 1
  | _ => depth

end Piece

/-- The pieces one after another. -/
def writePlain (pieces : List Piece) : List Char := pieces.flatMap Piece.chars

/-- A new line and two spaces for each open element. -/
def lineBreak (depth : Nat) : List Char := '\n' :: List.replicate (2 * depth) ' '

/-- The pieces on lines of their own, except at the start and around text; `joined` says that the
next piece follows without a break. -/
def writeIndented (depth : Nat) (joined : Bool) : List Piece → List Char
  | [] => []
  | p :: ps =>
    let gap := if joined || p.isText then [] else lineBreak (p.ownDepth depth)
    gap ++ p.chars ++ writeIndented (p.nextDepth depth) p.isText ps

/-- The key that makes a declaration. -/
def declarationKey : Option String → String
  | some p => "xmlns:" ++ p
  | none => "xmlns"

namespace Element

/-- All that stands in the tag of an element: its declarations, then its attributes. -/
def tagAttributes (e : Element) : List (String × String) :=
  e.declarations.map (fun (p, uri) => (declarationKey p, uri)) ++
    e.attributes.map fun a => (a.written, a.value)

mutual

/-- An element as pieces; without text and children it is one empty tag. -/
def pieces : Element → List Piece
  | ⟨name, nsPrefix, attributes, text, children, declarations, scope⟩ =>
    let e : Element := ⟨name, nsPrefix, attributes, text, [], declarations, scope⟩
    match text, children with
    | none, [] => [.empty e.written e.tagAttributes]
    | _, _ =>
      .opening e.written e.tagAttributes :: (text.elim [] fun t => [.text t]) ++
        piecesOf children ++ [.closing e.written]

def piecesOf : List Element → List Piece
  | [] => []
  | e :: es => pieces e ++ piecesOf es

end

/-- The element in one line. -/
def write (e : Element) : String := String.ofList (writePlain e.pieces)

/-- The element with each tag on a line of its own. -/
def writeLines (e : Element) : String := String.ofList (writeIndented 0 true e.pieces)

end Element

end SchemaForms.Xml
