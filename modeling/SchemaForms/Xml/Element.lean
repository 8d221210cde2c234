import SchemaForms.Name.Scope

/-!
Elements: a document as a tree, with the names as written, what they resolve to, and the
declarations made on each element.
-/

namespace SchemaForms.Xml

structure Attribute where
  name : QName
  nsPrefix : Option String
  value : String
  deriving DecidableEq, Repr, Inhabited

def Attribute.written (a : Attribute) : String := writtenName a.nsPrefix a.name.localName

/-- An element with all its text in one piece before its children. -/
structure Element where
  name : QName
  nsPrefix : Option String
  attributes : List Attribute
  text : Option String
  children : List Element
  /-- Prefixes with their namespaces; no prefix declares the default namespace. -/
  declarations : List (Option String × String)
  /-- The declarations in force on this element. -/
  scope : Scope
  deriving Repr

namespace Element

/-- An empty element of the given name. -/
def ofName (name : QName) : Element := ⟨name, none, [], none, [], [], Scope.initial⟩

instance : Inhabited Element := ⟨ofName default⟩

/-- An empty element of a written name, whose prefix is left to the document around it. -/
def ofWritten (written : String) : Element :=
  let (p, localName) := splitName written
  { ofName (.unqualified localName) with nsPrefix := p }

def written (e : Element) : String := writtenName e.nsPrefix e.name.localName

def localName (e : Element) : String := e.name.localName

/-- The value of an attribute in no namespace. -/
def attribute? (e : Element) (localName : String) : Option String :=
  (e.attributes.find? fun a => a.name == .unqualified localName).map (·.value)

/-- Replaces the value of the first attribute written with this name, or adds one at the end. -/
def setIn (localName value : String) : List Attribute → List Attribute
  | [] => [⟨.unqualified localName, none, value⟩]
  | a :: rest =>
    if a.nsPrefix = none ∧ a.name.localName = localName then { a with value := value } :: rest
    else a :: setIn localName value rest

def setAttribute (e : Element) (localName value : String) : Element :=
  { e with attributes := setIn localName value e.attributes }

/-- Declares a prefix, unless this element does so already. -/
def declare (e : Element) (nsPrefix nspace : String) : Element :=
  if e.declarations.any (·.1 == some nsPrefix) then e
  else
    { e with
      declarations := e.declarations ++ [(some nsPrefix, nspace)]
      scope := e.scope.bind nsPrefix nspace }

/-- Takes the default namespace away, unless this element declares one. -/
def undeclareDefault (e : Element) : Element :=
  if e.declarations.any (·.1 == none) then e
  else
    { e with
      declarations := e.declarations ++ [(none, "")]
      scope := e.scope.setDefault "" }

def addChild (e child : Element) : Element := { e with children := e.children ++ [child] }

def setText (e : Element) (text : String) : Element := { e with text := some text }

/-- Puts text behind the text there is. -/
def addText (e : Element) (text : String) : Element :=
  { e with text := some (e.text.getD "" ++ text) }

def childrenWithLocal (e : Element) (localName : String) : List Element :=
  e.children.filter (·.localName == localName)

def childrenNamed (e : Element) (nspace localName : String) : List Element :=
  e.children.filter (·.name == ⟨some nspace, localName⟩)

/-- The child at the end of a path of positions. -/
def at? (e : Element) : List Nat → Option Element
  | [] => some e
  | i :: path => e.children[i]?.bind (·.at? path)

end Element

end SchemaForms.Xml
