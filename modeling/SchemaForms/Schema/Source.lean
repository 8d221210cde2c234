import SchemaForms.Schema.Component
import SchemaForms.Text.Blank
import SchemaForms.Xml.Element

/-!
Schema documents as elements: the parts of a declaration that can be read off one element alone.
-/

namespace SchemaForms.Source

open SchemaForms.Xml

/-- The children that belong to the schema language, annotations apart. -/
def parts (e : Element) : List Element :=
  e.children.filter fun c => c.name.nspace == some schemaNamespace && c.localName != "annotation"

/-- The first child with one of the names. -/
def part? (e : Element) (names : List String) : Option Element :=
  (parts e).find? fun c => names.contains c.localName

/-- The names of groups. -/
def groupNames : List String := ["sequence", "choice", "all"]

/-- Whether an attribute says yes. -/
def isTrue : Option String → Bool
  | some value => ["true", "1"].contains (Text.trimmed value)
  | none => false

/-- A fixed value, or else a default one. -/
def valueConstraint (e : Element) : Option ValueConstraint :=
  match e.attribute? "fixed" with
  | some v => some (.fixed v)
  | none => (e.attribute? "default").map .default

/-- Takes up one facet. -/
def addFacet (f : Facets) (e : Element) : Facets :=
  match e.attribute? "value" with
  | none => f
  | some v =>
    if e.localName = "enumeration" then { f with enumeration := f.enumeration ++ [v] }
    else if e.localName = "minInclusive" then { f with minInclusive := some v }
    else if e.localName = "maxInclusive" then { f with maxInclusive := some v }
    else f

def facets (restriction : Element) : Facets := (parts restriction).foldl addFacet {}

/-- The texts of the documentation elements, one space between them. -/
def documentation (e : Element) : Option String :=
  let notes := (e.childrenNamed schemaNamespace "annotation").flatMap
    (·.childrenNamed schemaNamespace "documentation")
  let texts := (notes.filterMap (·.text)).map Text.trimmed |>.filter (· ≠ "")
  if texts = [] then none else some (String.intercalate " " texts)

/-- The bounds that an element's attributes give. -/
def occurs (e : Element) : Except Fault Occurs :=
  (Occurs.parse (e.attribute? "minOccurs") (e.attribute? "maxOccurs")).mapError Fault.ofProblem

def wildcard (e : Element) : Wildcard where
  nspace := (e.attribute? "namespace").getD "##any"
  processContents := (e.attribute? "processContents").getD "strict"

/-- The extension or restriction below a content element. -/
def derivation (content : Element) : Except Fault Element :=
  match part? content ["extension", "restriction"] with
  | some d => .ok d
  | none => .error (.ofProblem (.contentWithoutDerivation content.localName))

mutual

/-- The number of elements of a document. -/
def count : Element → Nat
  | ⟨_, _, _, _, children, _, _⟩ => countIn children + 1

def countIn : List Element → Nat
  | [] => 0
  | e :: es => count e + countIn es

end

end SchemaForms.Source
