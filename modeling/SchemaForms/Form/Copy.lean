import SchemaForms.Form.Tree

/-!
Copies: a subtree with new identifiers throughout, in which references to what was copied along
lead to the copies.
-/

namespace SchemaForms

/-! Fresh identifiers. -/

abbrev Renumber := StateM Identifiers

def fresh (name : String) : Renumber String := fun ids => ids.allocate name

def Choice.renumber (c : Choice) : Renumber Choice := do
  let id ← fresh "item"
  match c.toggle with
  | none => return { c with id := id }
  | some t =>
    let actionId ← fresh "action"
    let toggleId ← fresh "toggle"
    return { c with id := id, toggle := some ⟨actionId, toggleId, t.caseId⟩ }

def renumberChoices : List Choice → Renumber (List Choice)
  | [] => return []
  | c :: cs => do
    let c ← c.renumber
    let cs ← renumberChoices cs
    return c :: cs

def Action.renumber : Action → Renumber Action
  | .insert _ bind position index => return .insert (← fresh "insert") bind position index
  | .delete _ bind index => return .delete (← fresh "delete") bind index
  | .dispatch _ _ event target => do
    let actionId ← fresh "action"
    let id ← fresh "dispatch"
    return .dispatch actionId id event target

def ControlKind.renumber : ControlKind → Renumber ControlKind
  | .selectOne cs => return .selectOne (← renumberChoices cs)
  | .selectMany cs => return .selectMany (← renumberChoices cs)
  | .trigger (some a) => return .trigger (some (← a.renumber))
  | kind => return kind

/-- Gives a control and all it carries new identifiers. -/
def Control.renumber (c : Control) : Renumber Control := do
  let id ← fresh c.kind.elementName
  let kind ← c.kind.renumber
  return { c with id := id, kind := kind }

/-! Redirecting references to what has been copied along. -/

/-- What an identifier has become, or the identifier itself. -/
def renamed (table : Table String String) (id : String) : String := (table.get? id).getD id

def Choice.redirect (table : Table String String) (c : Choice) : Choice :=
  { c with toggle := c.toggle.map fun t => { t with caseId := renamed table t.caseId } }

/-- An index expression follows the repeat it names; any other expression stays. -/
def redirectIndex (table : Table String String) (index : String) : String :=
  match (indexTarget index).bind table.get? with
  | some id => indexExpression id
  | none => index

def Action.redirect (table : Table String String) : Action → Action
  | .insert id bind position index => .insert id bind position (redirectIndex table index)
  | .delete id bind index => .delete id bind (redirectIndex table index)
  | .dispatch actionId id event target => .dispatch actionId id event (renamed table target)

def ControlKind.redirect (table : Table String String) : ControlKind → ControlKind
  | .selectOne cs => .selectOne (cs.map (·.redirect table))
  | .selectMany cs => .selectMany (cs.map (·.redirect table))
  | .trigger (some a) => .trigger (some (a.redirect table))
  | kind => kind

def Control.redirect (table : Table String String) (c : Control) : Control :=
  { c with kind := c.kind.redirect table }

namespace Tree

/-- A copy under way: what identifiers of the source have become, and the nodes made so far. -/
structure Copying where
  tree : Tree
  ids : Identifiers
  renamed : Table String String
  created : List NodeId

/-- The kind of a copied node, with new identifiers, and the identifier it replaces. -/
def copyKind : NodeKind → Renumber (NodeKind × Option (String × String))
  | .control c => do
    let c' ← c.renumber
    return (.control c', some (c.id, c'.id))
  | .bind b => do
    let id ← fresh "bind"
    return (.bind { b with id := id }, some (b.id, id))
  | kind => return (kind, none)

/-- Copies one node, without its children. -/
def copyNode (id : NodeId) : StateM Copying NodeId := fun c =>
  let ((kind, change), ids) := copyKind (c.tree.kind id) c.ids
  let (copy, tree) := c.tree.create kind
  let renamed := change.elim c.renamed fun (old, new) => c.renamed.put old new
  (copy, ⟨tree, ids, renamed, c.created ++ [copy]⟩)

/-- Copies nodes one by one below a copy. -/
def copyBelow (copyOne : NodeId → StateM Copying NodeId) (parent : NodeId) :
    List NodeId → StateM Copying Unit
  | [] => return
  | c :: cs => do
    let copy ← copyOne c
    modify fun s => { s with tree := s.tree.append parent copy }
    copyBelow copyOne parent cs

/-- Copies a node and what is below it, down to a depth. -/
def copySubtree : Nat → NodeId → StateM Copying NodeId
  | 0, id => copyNode id
  | depth + 1, id => do
    let copy ← copyNode id
    copyBelow (fun c => copySubtree depth c) copy ((← get).tree.children id)
    return copy

/-- Copies a subtree with new identifiers.  References inside the copy to what was copied lead to
the copies; the copy hangs nowhere yet. -/
def deepCopy (t : Tree) (ids : Identifiers) (id : NodeId) : NodeId × Tree × Identifiers :=
  let (copy, s) := copySubtree t.size id ⟨t, ids, .empty, []⟩
  let tree := s.created.foldl (fun t n => t.modifyControl n (·.redirect s.renamed)) s.tree
  (copy, tree, s.ids)

end Tree

end SchemaForms
