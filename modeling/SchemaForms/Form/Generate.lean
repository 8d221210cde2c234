import SchemaForms.Form.Content
import SchemaForms.Request

/-!
Making a form for a request: the envelope, the model with its instance, the controls and the
submission.
-/

namespace SchemaForms

open Xml (Element)

structure Form where
  tree : Tree
  /-- The root element as it is written in the instance. -/
  rootName : String
  target : Option String
  /-- Prefixes with their namespaces, as far as names of the instance use them. -/
  namespaces : List (String × String)
  /-- The instance that the schema alone gives. -/
  skeleton : Element
  anomalies : List Anomaly
  generatedAt : String
  base : Option String
  deriving Inhabited

namespace Form

/-- The instance in the model: the one supplied, or the skeleton. -/
def instanceRoot (f : Form) : Option Element :=
  f.tree.walk.findSome? fun id =>
    match f.tree.kind id with
    | .instanceData _ root => root
    | _ => none

/-- The binds in document order. -/
def binds (f : Form) : List Bind := f.tree.binds.filterMap f.tree.bind?

def bindByNodeset (f : Form) (nodeset : String) : Option Bind :=
  f.binds.find? (·.nodeset == nodeset)

/-- The controls in document order. -/
def controls (f : Form) : List Control := f.tree.controls.filterMap f.tree.control?

def controlsBoundTo (f : Form) (bindId : String) : List Control :=
  f.controls.filter (·.bind == some bindId)

end Form

namespace Generator

open Synthesis

/-- A generator with the settings and the layout given; without a layout, pages. -/
def ofSchema (s : Schema) (settings : Settings) (layout : Option Layout) : Generator where
  schema := s
  substitutes := Substitutes.ofSchema s
  settings := settings
  layout := layout.getD (Layout.page settings.stylesheet none)

/-- Declares what instances of the form use, and takes the default namespace away from a root
that has none. -/
def prepareRoot (e : Element) : Element :=
  let e := e.declare "xsi" instanceNamespace
  if e.name.nspace.isNone then e.undeclareDefault else e

/-- Whether a supplied instance has the declared root element. -/
def fits (decl : ElementDecl) (e : Element) : Bool := e.name == decl.name

/-- Makes the tree of a form; gives back the skeleton of its instance and the instance node. -/
def build (g : Generator) (r : Request) (root : ElementId) (nsPrefix : Option String)
    (rootName : String) : Synth (Element × NodeId) := do
  let decl := g.schema.element root
  let envelope ← onTree g.layout.envelope
  let model ← create (.model (← allocate "model") r.schemaReference)
  let container ← onTree (g.layout.model model)
  append envelope container
  let form ← onTree (g.layout.form envelope)
  let data ← create (.instanceData (← allocate "instance") none)
  append model data
  let bare := bareInstance decl nsPrefix
  let content ← g.contentOf form
  let skeleton := prepareRoot bare
  let filled ← g.addElement (g.schema.elements.size + 1) ⟨model, content⟩ skeleton root
    ("/" ++ rootName) .once
  let submissionId ← allocate "submission"
  let submission ← create (.submission submissionId r.submissionAction r.submissionMethod)
  append model submission
  let _ ← g.addControl content
    { id := ← allocate "submit", kind := .submit submissionId, label := some "Submit" }
  return (filled.getD skeleton, data)

/-- The form for a request, made at the given time. -/
def generate (g : Generator) (time : String) (r : Request) : Except Fault Form :=
  match g.schema.findElement (QName.of g.schema.target r.root) with
  | none => .error (.synthesis (.rootNotDeclared r.root (g.schema.target.getD "")))
  | some root =>
    let decl := g.schema.element root
    let ((nsPrefix, rootName), s) := qualified decl.name Synthesis.initial
    match r.instanceRoot.filter (!fits decl ·) with
    | some wrong => .error (.synthesis (.instanceRootMismatch rootName wrong.written))
    | none =>
      let ((skeleton, data), s) := g.build r root nsPrefix rootName s
      let namespaces := s.prefixes.declarations
      let skeleton := namespaces.foldl (fun e (p, ns) => e.declare p ns) skeleton
      let instanceRoot := (r.instanceRoot.map prepareRoot).getD skeleton
      let tree := s.tree.modifyKind data fun
        | .instanceData id _ => .instanceData id (some instanceRoot)
        | kind => kind
      .ok
        { tree := tree
          rootName := rootName
          target := g.schema.target
          namespaces := namespaces
          skeleton := skeleton
          anomalies := s.anomalies
          generatedAt := time
          base := r.base }

end Generator

end SchemaForms
