import SchemaForms.Form.Generate
import SchemaForms.Xml.Encode

/-!
Forms as JSON: the whole arena with its references, for tools that go on with it.
-/

namespace SchemaForms

def NodeId.toJson (id : NodeId) : Json := .natural id.index

/-- A node, or null when there is none. -/
def Json.ofNode? : Option NodeId → Json
  | some id => id.toJson
  | none => .null

/-- Pairs of texts as lists of two. -/
def Json.ofPairs (pairs : List (String × String)) : Json :=
  .ofList (fun (key, value) => .list [.text key, .text value]) pairs

def Markup.toJson (m : Markup) : Json :=
  .record
    [("name", .text m.name), ("attributes", .ofPairs m.attributes), ("text", .ofText? m.text)]

def Bind.toJson (b : Bind) : Json :=
  .record
    [("id", .text b.id), ("nodeset", .text b.nodeset), ("datatype", .ofText? b.datatype),
      ("required", .bool b.required), ("constraint", .ofText? b.constraint),
      ("relevant", .ofText? b.relevant)]

def InputKind.toJson : InputKind → Json
  | .text => .text "Text"
  | .boolean => .text "Boolean"
  | .numeric => .text "Numeric"
  | .temporal => .text "Temporal"

def Toggle.toJson (t : Toggle) : Json :=
  .record [("action_id", .text t.actionId), ("id", .text t.id), ("case", .text t.caseId)]

def Choice.toJson (c : Choice) : Json :=
  .record
    [("id", .text c.id), ("label", .text c.label), ("value", .text c.value),
      ("toggle", c.toggle.elim .null Toggle.toJson)]

def InsertPosition.toJson : InsertPosition → Json
  | .before => .text "Before"
  | .after => .text "After"

def Action.toJson : Action → Json
  | .insert id bind position index =>
    .tagged "Insert" (.record
      [("id", .text id), ("bind", .ofText? bind), ("position", position.toJson),
        ("at", .text index)])
  | .delete id bind index =>
    .tagged "Delete" (.record [("id", .text id), ("bind", .ofText? bind), ("at", .text index)])
  | .dispatch actionId id event target =>
    .tagged "Dispatch" (.record
      [("action_id", .text actionId), ("id", .text id), ("name", .text event),
        ("target", .text target)])

def ControlKind.toJson : ControlKind → Json
  | .input kind => .tagged "Input" kind.toJson
  | .textArea => .text "TextArea"
  | .upload => .text "Upload"
  | .selectOne choices =>
    .tagged "SelectOne" (.record [("choices", .ofList Choice.toJson choices)])
  | .selectMany choices =>
    .tagged "SelectMany" (.record [("choices", .ofList Choice.toJson choices)])
  | .range low high => .tagged "Range" (.record [("start", .text low), ("end", .text high)])
  | .group => .text "Group"
  | .repeatRegion => .text "Repeat"
  | .switch => .text "Switch"
  | .switchCase selected => .tagged "Case" (.record [("selected", .bool selected)])
  | .trigger action =>
    .tagged "Trigger" (.record [("action", action.elim .null Action.toJson)])
  | .submit submission => .tagged "Submit" (.record [("submission", .text submission)])

def Control.toJson (c : Control) : Json :=
  .record
    [("id", .text c.id), ("kind", c.kind.toJson), ("label", .ofText? c.label),
      ("bind", .ofText? c.bind), ("appearance", .ofText? c.appearance), ("hint", .ofText? c.hint)]

def NodeKind.toJson : NodeKind → Json
  | .markup m => .tagged "Markup" m.toJson
  | .model id schema =>
    .tagged "Model" (.record [("id", .text id), ("schema", .ofText? schema)])
  | .instanceData id root =>
    .tagged "Instance"
      (.record [("id", .text id), ("root", root.elim .null Xml.Element.toJson)])
  | .bind b => .tagged "Bind" b.toJson
  | .submission id action method =>
    .tagged "Submission"
      (.record [("id", .text id), ("action", .text action), ("method", .text method)])
  | .control c => .tagged "Control" c.toJson

def Node.toJson (n : Node) : Json :=
  .record
    [("kind", n.kind.toJson), ("parent", .ofNode? n.parent),
      ("children", .ofList NodeId.toJson n.children)]

/-- The arena of a form in the order in which the nodes were made, with nodes that hang nowhere. -/
def Tree.toJson (t : Tree) : Json :=
  .record [("nodes", .ofList Node.toJson t.nodes.toList), ("root", .ofNode? t.root)]

def Anomaly.toJson : Anomaly → Json
  | .unresolvedType name =>
    .record [("kind", .text "unresolvedType"), ("element", .text name)]
  | .unsupportedWildcard owner =>
    .record [("kind", .text "unsupportedWildcard"), ("owner", .text owner)]
  | .missingRepeatBind repeatId =>
    .record [("kind", .text "missingRepeatBind"), ("repeat", .text repeatId)]
  | .reusedControlNotFound name =>
    .record [("kind", .text "reusedControlNotFound"), ("name", .text name)]
  | .recursiveType name typeName =>
    .record
      [("kind", .text "recursiveType"), ("element", .text name), ("type_name", .text typeName)]

def Form.toJson (f : Form) : Json :=
  .record
    [("tree", f.tree.toJson), ("root_name", .text f.rootName),
      ("target_namespace", .ofText? f.target), ("namespaces", .ofPairs f.namespaces),
      ("default_instance", f.skeleton.toJson),
      ("anomalies", .ofList Anomaly.toJson f.anomalies),
      ("generated_at", .text f.generatedAt), ("base", .ofText? f.base)]

end SchemaForms
