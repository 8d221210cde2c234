import SchemaForms.Form.Generate
import SchemaForms.Xml.Markup

/-!
The document of a form: its tree as markup.  Every node is one element, and what a control carries
with it is written inside its element, before the nodes below.
-/

namespace SchemaForms

open Xml (Piece)

def toolVersion : String := "0.1.0"

/-- The namespaces that every document declares. -/
def documentNamespaces : List (String × String) :=
  [("xforms", "http://www.w3.org/2002/xforms"),
    ("ev", "http://www.w3.org/2001/xml-events"),
    ("xsi", "http://www.w3.org/2001/XMLSchema-instance"),
    ("xs", "http://www.w3.org/2001/XMLSchema"),
    ("chiba", "http://chiba.sourceforge.net/xforms"),
    ("xlink", "http://www.w3.org/1999/xlink")]

/-- An attribute that is written only when there is a value. -/
def optionalAttribute (key : String) (value : Option String) : List (String × String) :=
  (value.map fun v => (key, v)).toList

/-- An element around pieces. -/
def enclosed (name : String) (attributes : List (String × String)) (inner : List Piece) :
    List Piece :=
  .opening name attributes :: inner ++ [.closing name]

/-- An element around pieces, or an empty tag where there are none. -/
def enclosedOrEmpty (name : String) (attributes : List (String × String)) :
    List Piece → List Piece
  | [] => [.empty name attributes]
  | inner => enclosed name attributes inner

def textElement (name text : String) : List Piece := enclosed name [] [.text text]

def Toggle.pieces (t : Toggle) : List Piece :=
  enclosed "xforms:action" [("id", t.actionId), ("ev:event", "xforms-select")]
    [.empty "xforms:toggle" [("id", t.id), ("case", t.caseId)]]

def Choice.pieces (c : Choice) : List Piece :=
  enclosed "xforms:item" [("id", c.id)]
    (textElement "xforms:label" c.label ++ textElement "xforms:value" c.value ++
      c.toggle.elim [] Toggle.pieces)

def Action.pieces : Action → List Piece
  | .insert id bind position index =>
    [.empty "xforms:insert"
      ([("id", id), ("ev:event", "DOMActivate")] ++ optionalAttribute "bind" bind ++
        [("position", position.text), ("at", index)])]
  | .delete id bind index =>
    [.empty "xforms:delete"
      ([("id", id), ("ev:event", "DOMActivate")] ++ optionalAttribute "bind" bind ++
        [("at", index)])]
  | .dispatch actionId id event target =>
    enclosed "xforms:action" [("id", actionId), ("ev:event", "DOMActivate")]
      [.empty "xforms:dispatch" [("id", id), ("name", event), ("target", target)]]

namespace ControlKind

/-- The attributes that only controls of this kind have. -/
def attributes : ControlKind → List (String × String)
  | .range low high => [("start", low), ("end", high)]
  | .submit submission => [("submission", submission)]
  | .switchCase selected => [("selected", if selected then "true" else "false")]
  | _ => []

/-- The choices or the action inside a control. -/
def pieces : ControlKind → List Piece
  | .selectOne choices | .selectMany choices =>
    enclosed "xforms:choices" [] (choices.flatMap Choice.pieces)
  | .trigger (some action) => action.pieces
  | _ => []

end ControlKind

def Control.pieces (c : Control) (inner : List Piece) : List Piece :=
  enclosed ("xforms:" ++ c.kind.elementName)
    (("id", c.id) :: optionalAttribute "bind" c.bind ++
      optionalAttribute "appearance" c.appearance ++ c.kind.attributes)
    (c.label.elim [] (textElement "xforms:label") ++ c.hint.elim [] (textElement "xforms:hint") ++
      c.kind.pieces ++ inner)

def Bind.attributes (b : Bind) : List (String × String) :=
  [("id", b.id), ("nodeset", b.nodeset)] ++ optionalAttribute "type" b.datatype ++
    (if b.required then [("required", "true()")] else []) ++
    optionalAttribute "constraint" b.constraint ++ optionalAttribute "relevant" b.relevant

/-- A node with the pieces of the nodes below it.  The declarations go into the tag of markup or of
the model. -/
def NodeKind.pieces (declarations : List (String × String)) (inner : List Piece) :
    NodeKind → List Piece
  | .markup m =>
    enclosedOrEmpty m.name (declarations ++ m.attributes)
      (m.text.elim [] (fun t => [Piece.text t]) ++ inner)
  | .model id schema =>
    enclosed "xforms:model" (declarations ++ ("id", id) :: optionalAttribute "schema" schema) inner
  | .instanceData id root =>
    enclosedOrEmpty "xforms:instance" [("id", id)] (root.elim [] Xml.Element.pieces)
  | .bind b => enclosedOrEmpty "xforms:bind" b.attributes inner
  | .submission id action method =>
    [.empty "xforms:submission" [("id", id), ("action", action), ("method", method)]]
  | .control c => c.pieces inner

/-- A node and what is below it, down to a depth; only the topmost tag has the declarations. -/
def Tree.pieces (t : Tree) : Nat → List (String × String) → NodeId → List Piece
  | 0, _, _ => []
  | depth + 1, declarations, id =>
    (t.kind id).pieces declarations ((t.children id).flatMap (t.pieces depth []))

namespace Form

/-- All prefixes that the document declares, and its base. -/
def rootAttributes (f : Form) : List (String × String) :=
  (documentNamespaces ++ f.namespaces).map (fun (p, ns) => ("xmlns:" ++ p, ns)) ++
    optionalAttribute "xml:base" f.base

/-- What the document says about its making. -/
def remark (f : Form) : String :=
  " This XForm was generated by xsdform " ++ toolVersion ++ " on " ++ f.generatedAt ++
    " from the '" ++ f.rootName ++ "' element of the '" ++ f.target.getD "" ++ "' XML Schema. "

/-- The document of a form. -/
def pieces (f : Form) : List Piece :=
  [.declaration, .comment f.remark] ++
    f.tree.root.elim [] (f.tree.pieces f.tree.size f.rootAttributes)

/-- The document with each tag on a line of its own. -/
def toXml (f : Form) : String := String.ofList (Xml.writeIndented 0 true f.pieces)

end Form

end SchemaForms
