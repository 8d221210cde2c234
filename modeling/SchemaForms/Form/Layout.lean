import SchemaForms.Form.Tree

/-!
Layouts: which markup a form is put into.  A layout makes the container for each role; all else of
a form is the same under every layout.
-/

namespace SchemaForms

structure Layout where
  /-- Makes the root of the document. -/
  envelope : Tree → NodeId × Tree
  /-- The container of the model, which goes into the envelope. -/
  model : NodeId → Tree → NodeId × Tree := fun model t => (model, t)
  /-- The node under which the controls go, given the envelope. -/
  form : NodeId → Tree → NodeId × Tree := fun envelope t => (envelope, t)
  /-- The node under which the content of a group, a repeat or a case goes. -/
  groupContent : NodeId → Tree → NodeId × Tree := fun group t => (group, t)
  /-- The container of one control. -/
  control : NodeId → Tree → NodeId × Tree := fun control t => (control, t)

namespace Layout

/-- A root of the given name and nothing else. -/
def plainEnvelope (t : Tree) : NodeId × Tree :=
  let (envelope, t) := t.create (.markup { name := "envelope" })
  (envelope, t.setRoot envelope)

/-- No presentation markup around the form. -/
def plain : Layout where
  envelope := plainEnvelope

def xhtmlNamespace : String := "http://www.w3.org/1999/xhtml"

/-- A page with a head that names the stylesheet and perhaps a title. -/
def pageEnvelope (stylesheet : String) (title : Option String) (t : Tree) : NodeId × Tree :=
  let (html, t) := t.create (.markup { name := "html", attributes := [("xmlns", xhtmlNamespace)] })
  let t := t.setRoot html
  let (head, t) := t.create (.markup { name := "head" })
  let t := t.append html head
  let t := match title with
    | none => t
    | some text =>
      let (node, t) := t.create (.markup { name := "title", text := some text })
      t.append head node
  let link : Markup :=
    { name := "link"
      attributes := [("rel", "stylesheet"), ("type", "text/css"), ("href", stylesheet)] }
  let (node, t) := t.create (.markup link)
  (html, t.append head node)

def isHead : NodeKind → Bool
  | .markup m => m.name == "head"
  | _ => false

/-- Puts the model into the head of the page, which is then the container. -/
def pageModel (model : NodeId) (t : Tree) : NodeId × Tree :=
  match t.root with
  | none => (model, t)
  | some root =>
    match (t.children root).find? fun c => isHead (t.kind c) with
    | none => (model, t)
    | some head => (head, t.append head model)

def pageBody (envelope : NodeId) (t : Tree) : NodeId × Tree :=
  let (body, t) := t.create (.markup { name := "body" })
  (body, t.append envelope body)

def pageControl (control : NodeId) (t : Tree) : NodeId × Tree :=
  let (div, t) := t.create (.markup { name := "div", attributes := [("class", "xformsControl")] })
  (div, t.append div control)

/-- A page with the model in its head and the controls in its body, each in a box of its own. -/
def page (stylesheet : String) (title : Option String) : Layout where
  envelope := pageEnvelope stylesheet title
  model := pageModel
  form := pageBody
  control := pageControl

end Layout

end SchemaForms
