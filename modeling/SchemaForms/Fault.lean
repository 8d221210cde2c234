/-!
Faults: every way in which reading a schema, a document or the settings, or making a form, can
fail.  A fault is a cause; its wording is `Fault.message`.
-/

namespace SchemaForms

/-- What is wrong with a schema document. -/
inductive SchemaProblem where
  | emptyDocument
  | notASchema (found : String)
  | unnamedGlobal (kind : String)
  | derivationWithoutBase (derivation : String)
  | contentWithoutDerivation (content : String)
  | simpleTypeWithoutDerivation
  | groupWithoutRef
  | unnamedElement
  | unnamedAttribute
  | badMinOccurs (text : String)
  | badMaxOccurs (text : String)
  | maxBelowMin
  | minAboveDefaultMax
  /-- The document nests deeper than it has nodes; no document does. -/
  | nestingExhausted
  | stated (text : String)
  deriving DecidableEq, Repr

def SchemaProblem.message : SchemaProblem → String
  | .emptyDocument => "Empty document"
  | .notASchema found => "Expected xs:schema root element, got " ++ found
  | .unnamedGlobal kind => "Global " ++ kind ++ " missing 'name' attribute"
  | .derivationWithoutBase derivation => "xs:" ++ derivation ++ " missing 'base' attribute"
  | .contentWithoutDerivation content =>
    "xs:" ++ content ++ " must contain xs:extension or xs:restriction"
  | .simpleTypeWithoutDerivation =>
    "xs:simpleType must contain xs:restriction, xs:list or xs:union"
  | .groupWithoutRef => "Local xs:group missing 'ref' attribute"
  | .unnamedElement => "Local element missing 'name' attribute"
  | .unnamedAttribute => "Attribute declaration missing 'name' attribute"
  | .badMinOccurs text =>
    "minOccurs value '" ++ text ++ "' is not a valid non-negative integer"
  | .badMaxOccurs text =>
    "maxOccurs value '" ++ text ++ "' must be a non-negative integer or 'unbounded'"
  | .maxBelowMin => "maxOccurs must be 'unbounded' or greater than minOccurs"
  | .minAboveDefaultMax => "minOccurs must be lesser or equal than maxOccurs"
  | .nestingExhausted => "schema nesting exhausted"
  | .stated text => text

/-- A problem of a schema document, with the place and the text it was found in when known. -/
structure SchemaFault where
  problem : SchemaProblem
  location : Option String := none
  source : Option String := none
  deriving DecidableEq, Repr

def SchemaFault.message (f : SchemaFault) : String :=
  let place := f.location.elim "" ("\n\nLocation: " ++ ·)
  let text := f.source.elim "" ("\n\nSource:\n" ++ ·)
  f.problem.message ++ place ++ text

/-- Why no form can be made for a request. -/
inductive SynthesisFault where
  | rootNotDeclared (name nspace : String)
  | instanceRootMismatch (expected found : String)
  deriving DecidableEq, Repr

def SynthesisFault.message : SynthesisFault → String
  | .rootNotDeclared name nspace =>
    "invalid root element tag name [" ++ name ++ ", targetNamespace=" ++ nspace ++ "]"
  | .instanceRootMismatch expected found =>
    "instance document root tag name invalid. expected " ++ expected ++ ", got " ++ found

/-- Why a text is not a document. -/
inductive XmlFault where
  | malformed
  | badText
  | badAttribute
  | badAttributeValue
  | badElementName
  | badAttributeName
  | unexpectedEnd
  deriving DecidableEq, Repr

def XmlFault.message : XmlFault → String
  | .malformed => "Error parsing XML"
  | .badText => "Failed to unescape text"
  | .badAttribute => "Failed to parse attribute"
  | .badAttributeValue => "Failed to unescape attribute value"
  | .badElementName => "Invalid element name"
  | .badAttributeName => "Invalid attribute name"
  | .unexpectedEnd => "Unexpected end of document"

/-- Any fault of the library and its command line. -/
inductive Fault where
  | schema (fault : SchemaFault)
  | synthesis (fault : SynthesisFault)
  | unknownPrefix (name : String)
  | sizeNotPositive (setting : String)
  /-- A file cannot be read, for the system's reason. -/
  | unreadable (reason : String)
  | xml (fault : XmlFault)
  | json
  | instanceWithoutRoot
  /-- The output cannot be written, for the system's reason. -/
  | unwritable (reason : String)
  deriving DecidableEq, Repr

def Fault.message : Fault → String
  | .schema f => "parse error: " ++ f.message
  | .synthesis f => "synthesis failure: " ++ f.message
  | .unknownPrefix name => "namespace error: Unknown prefix: " ++ name
  | .sizeNotPositive setting => "configuration error: " ++ setting ++ " must be greater than 0"
  | .unreadable reason => "I/O error: " ++ reason
  | .xml f => "XML error: " ++ f.message
  | .json => "JSON error"
  | .instanceWithoutRoot => "instance document has no root element"
  | .unwritable reason => reason

/-- A schema problem without place or text. -/
def Fault.ofProblem (p : SchemaProblem) : Fault := .schema ⟨p, none, none⟩

end SchemaForms
