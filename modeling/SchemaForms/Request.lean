import SchemaForms.Xml.Element

/-!
Requests: what one form is to be made for.
-/

namespace SchemaForms

structure Request where
  /-- The local name of the root element, which is looked up in the target namespace. -/
  root : String
  /-- A document to start the form from. -/
  instanceRoot : Option Xml.Element := none
  action : Option String := none
  method : Option String := none
  base : Option String := none
  schemaUri : Option String := none
  deriving Inhabited

namespace Request

/-- A reference as it is written: the base stands in front of it. -/
def withBase (r : Request) (uri : String) : String := r.base.getD "" ++ uri

/-- The action of the submission; empty when none is asked for. -/
def submissionAction (r : Request) : String := r.action.elim "" r.withBase

/-- The method of the submission; `post` unless another one is asked for. -/
def submissionMethod (r : Request) : String :=
  match r.method with
  | some m => if m = "" then "post" else m
  | none => "post"

/-- The schema that the model refers to. -/
def schemaReference (r : Request) : Option String := r.schemaUri.map r.withBase

end Request

end SchemaForms
