import SchemaForms.Fault
import SchemaForms.Name.QName
import SchemaForms.Table

/-!
Scopes: the prefixes and the default namespace in force at a place of a document.
-/

namespace SchemaForms

/-- The later a prefix was bound, the earlier it stands. -/
structure Scope where
  bindings : List (String × String)
  defaultNamespace : Option String
  deriving DecidableEq, Repr, Inhabited

namespace Scope

/-- The namespace that the prefix `xml` always has. -/
def xmlNamespace : String := "http://www.w3.org/XML/1998/namespace"

/-- Outside any declaration only `xml` is bound. -/
def initial : Scope := ⟨[("xml", xmlNamespace)], none⟩

def bind (s : Scope) (nsPrefix nspace : String) : Scope :=
  { s with bindings := (nsPrefix, nspace) :: s.bindings }

/-- Sets the default namespace; the empty one takes it away. -/
def setDefault (s : Scope) (nspace : String) : Scope :=
  { s with defaultNamespace := if nspace = "" then none else some nspace }

def lookup (s : Scope) (nsPrefix : String) : Option String := Table.find nsPrefix s.bindings

/-- The name that a written name stands for; one without prefix takes the default namespace. -/
def resolve (s : Scope) (written : String) : Except Fault QName :=
  match splitName written with
  | (none, localName) => .ok ⟨s.defaultNamespace, localName⟩
  | (some p, localName) =>
    match s.lookup p with
    | some ns => .ok (QName.of (some ns) localName)
    | none => .error (.unknownPrefix p)

/-- Takes up one declaration: of a prefix, or of the default namespace. -/
def declare (s : Scope) : Option String × String → Scope
  | (some p, uri) => s.bind p uri
  | (none, uri) => s.setDefault uri

@[simp] theorem lookup_bind (s : Scope) (p q ns : String) :
    (s.bind p ns).lookup q = if p = q then some ns else s.lookup q := rfl

end Scope

end SchemaForms
