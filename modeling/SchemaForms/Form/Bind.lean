import SchemaForms.Text.Split

/-!
Binds: the data bindings of a form's model, and how validity and relevance expressions are put
together.
-/

namespace SchemaForms

structure Bind where
  id : String := ""
  /-- The path from the bind around it; absolute for the root. -/
  nodeset : String := ""
  datatype : Option String := none
  required : Bool := false
  /-- The validity expression. -/
  constraint : Option String := none
  /-- The relevance expression. -/
  relevant : Option String := none
  deriving DecidableEq, Repr, Inhabited

namespace Bind

/-- Joins an expression to one there is, if that is not empty. -/
def joinTo (old : Option String) (expression : String) (join : String → String) : String :=
  match old with
  | none => expression
  | some e => if e = "" then expression else join e

/-- Demands an expression besides the constraint there is. -/
def addConstraint (b : Bind) (expression : String) : Bind :=
  { b with constraint := some (joinTo b.constraint expression (· ++ " && " ++ expression)) }

/-- Makes the bind relevant only where an expression holds too. -/
def addRelevance (b : Bind) (expression : String) : Bind :=
  { b with
    relevant := some (joinTo b.relevant expression fun e => "(" ++ e ++ ") and " ++ expression) }

/-- The alternatives that an expression does not list yet. -/
def missing (expression : String) (alternatives : List String) : List String :=
  alternatives.filter fun a => !(Text.splitAt " or " expression).contains a

/-- Adds alternatives to an expression; one that demands several things is put in parentheses. -/
def widen (expression : String) (alternatives : List String) : String :=
  match missing expression alternatives with
  | [] => expression
  | new =>
    let start :=
      if Text.occursIn " and ".toList expression.toList then "(" ++ expression ++ ")"
      else expression
    new.foldl (fun e a => e ++ " or " ++ a) start

/-- Makes the bind relevant under alternatives too.  Without relevance it is relevant anyway. -/
def widenRelevance (b : Bind) (alternatives : List String) : Bind :=
  { b with relevant := b.relevant.map (widen · alternatives) }

def isAttribute (b : Bind) : Bool := b.nodeset.startsWith "@"

end Bind

end SchemaForms
