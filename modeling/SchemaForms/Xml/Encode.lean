import SchemaForms.Json.Value
import SchemaForms.Xml.Element

/-!
Elements as JSON.
-/

namespace SchemaForms

def QName.toJson (q : QName) : Json :=
  .record [("namespace", .ofText? q.nspace), ("local_name", .text q.localName)]

namespace Xml

def Attribute.toJson (a : Attribute) : Json :=
  .record [("qname", a.name.toJson), ("prefix", .ofText? a.nsPrefix), ("value", .text a.value)]

namespace Element

mutual

/-- An element with all it holds; its scope follows from the declarations. -/
def toJson : Element → Json
  | ⟨name, nsPrefix, attributes, text, children, declarations, _⟩ =>
    .record
      [("qname", name.toJson), ("prefix", .ofText? nsPrefix),
        ("attributes", .ofList Attribute.toJson attributes), ("text", .ofText? text),
        ("children", .list (listToJson children)),
        ("declarations", .ofList (fun (p, uri) => .list [.ofText? p, .text uri]) declarations)]

def listToJson : List Element → List Json
  | [] => []
  | e :: es => toJson e :: listToJson es

end

end Element

end Xml

end SchemaForms
