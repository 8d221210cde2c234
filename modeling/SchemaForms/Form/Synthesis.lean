import SchemaForms.Form.Anomaly
import SchemaForms.Form.Copy
import SchemaForms.Form.Layout
import SchemaForms.Name.PrefixTable
import SchemaForms.Schema.Substitutes
import SchemaForms.Settings

/-!
Synthesis: the state of making one form, and the steps that all parts of it are made with.
-/

namespace SchemaForms

/-- What the forms of one schema have in common. -/
structure Generator where
  schema : Schema
  substitutes : Substitutes
  settings : Settings
  layout : Layout

structure Synthesis where
  ids : Identifiers
  prefixes : PrefixTable
  tree : Tree
  anomalies : List Anomaly
  /-- The complex-typed elements that are being expanded, innermost first. -/
  expanding : List (ElementId × TypeId)
  /-- The binds whose controls the current case has copied. -/
  reused : List NodeId
  deriving Inhabited

abbrev Synth := StateM Synthesis

namespace Synthesis

def initial : Synthesis := ⟨.empty, .empty, .empty, [], [], []⟩

/-- A new identifier. -/
def allocate (name : String) : Synth String := fun s =>
  let (id, ids) := s.ids.allocate name
  (id, { s with ids := ids })

def report (a : Anomaly) : Synth Unit :=
  modify fun s => { s with anomalies := s.anomalies ++ [a] }

/-- A change of the tree alone. -/
def onTree {α : Type} (f : Tree → α × Tree) : Synth α := fun s =>
  let (a, tree) := f s.tree
  (a, { s with tree := tree })

def create (kind : NodeKind) : Synth NodeId := onTree (·.create kind)

def append (parent child : NodeId) : Synth Unit := onTree fun t => ((), t.append parent child)

def modifyBind (id : NodeId) (f : Bind → Bind) : Synth Unit :=
  onTree fun t => ((), t.modifyBind id f)

/-- The prefix of a name, if it has a namespace, and the name with it. -/
def qualified (name : QName) : Synth (Option String × String) := fun s =>
  match name.nspace with
  | none => ((none, name.localName), s)
  | some ns =>
    let (p, prefixes) := s.prefixes.prefixFor ns
    ((some p, p ++ ":" ++ name.localName), { s with prefixes := prefixes })

/-- Begins the expansion of an element as a type, unless it is under way; says whether it began. -/
def enter (e : ElementId) (t : TypeId) : Synth Bool := fun s =>
  if s.expanding.contains (e, t) then (false, s)
  else (true, { s with expanding := (e, t) :: s.expanding })

/-- Ends the innermost expansion. -/
def leave : Synth Unit := modify fun s => { s with expanding := s.expanding.tail }

/-- Remembers that a control of a bind was copied. -/
def noteReused (bind : NodeId) : Synth Unit :=
  modify fun s =>
    if s.reused.contains bind then s else { s with reused := s.reused ++ [bind] }

/-- Puts another list of copied binds in place and gives the one before. -/
def swapReused (binds : List NodeId) : Synth (List NodeId) := fun s =>
  (s.reused, { s with reused := binds })

/-- Copies a subtree; the copy hangs nowhere yet. -/
def deepCopy (id : NodeId) : Synth NodeId := fun s =>
  let (copy, tree, ids) := s.tree.deepCopy s.ids id
  (copy, { s with tree := tree, ids := ids })

end Synthesis

/-- A bind in the tree, and its identifier. -/
structure BindRef where
  node : NodeId
  id : String
  deriving DecidableEq, Repr

/-- Where a part of a form goes: its binds below one node, its controls below another. -/
structure Spot where
  scope : NodeId
  area : NodeId
  deriving DecidableEq, Repr

namespace Generator

open Synthesis

/-- Adds a bind with a new identifier below a node. -/
def addBind (scope : NodeId) (b : Bind) (nodeset : String) : Synth BindRef := do
  let id ← allocate "bind"
  let node ← create (.bind { b with id := id, nodeset := nodeset })
  append scope node
  return ⟨node, id⟩

/-- Puts a control into its container and that below a node. -/
def place (g : Generator) (area control : NodeId) : Synth Unit := do
  let container ← onTree (g.layout.control control)
  append area container

def addControl (g : Generator) (area : NodeId) (c : Control) : Synth NodeId := do
  let node ← create (.control c)
  g.place area node
  return node

/-- Where the content of a group, a repeat or a case goes. -/
def contentOf (g : Generator) (group : NodeId) : Synth NodeId :=
  onTree (g.layout.groupContent group)

/-- The name of a type as it stands in `xsi:type`. -/
def typeValue (g : Generator) (t : TypeId) : Synth String :=
  match (g.schema.typeDef t).name? with
  | some name => do return (← qualified name).2
  | none => return g.schema.displayName t

end Generator

end SchemaForms
