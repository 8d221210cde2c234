import SchemaForms.Form.Bind
import SchemaForms.Form.Control
import SchemaForms.Xml.Element

/-!
The tree of a form.  Presentation markup, the model with its instance, binds and submission, and
the controls are nodes of one arena; nodes refer to each other by number.
-/

namespace SchemaForms

structure NodeId where
  index : Nat
  deriving DecidableEq, Repr, Inhabited

/-- A presentation element. -/
structure Markup where
  name : String := ""
  attributes : List (String × String) := []
  text : Option String := none
  deriving DecidableEq, Repr

inductive NodeKind where
  | markup (markup : Markup)
  | model (id : String) (schema : Option String)
  | instanceData (id : String) (root : Option Xml.Element)
  | bind (bind : Bind)
  | submission (id action method : String)
  | control (control : Control)
  deriving Repr

namespace NodeKind

instance : Inhabited NodeKind := ⟨.markup {}⟩

/-- The identifier of a node; markup has none. -/
def id? : NodeKind → Option String
  | .markup _ => none
  | .model id _ => some id
  | .instanceData id _ => some id
  | .bind b => some b.id
  | .submission id _ _ => some id
  | .control c => some c.id

def bind? : NodeKind → Option Bind
  | .bind b => some b
  | _ => none

def control? : NodeKind → Option Control
  | .control c => some c
  | _ => none

/-- Every identifier that a node carries. -/
def identifiers : NodeKind → List String
  | .control c => c.identifiers
  | kind => kind.id?.toList

end NodeKind

structure Node where
  kind : NodeKind
  parent : Option NodeId := none
  children : List NodeId := []
  deriving Repr, Inhabited

structure Tree where
  nodes : Array Node
  root : Option NodeId
  deriving Inhabited

namespace Tree

def empty : Tree := ⟨#[], none⟩

def size (t : Tree) : Nat := t.nodes.size

def node (t : Tree) (id : NodeId) : Node := t.nodes.getD id.index default

def kind (t : Tree) (id : NodeId) : NodeKind := (t.node id).kind

def parent (t : Tree) (id : NodeId) : Option NodeId := (t.node id).parent

def children (t : Tree) (id : NodeId) : List NodeId := (t.node id).children

def bind? (t : Tree) (id : NodeId) : Option Bind := (t.kind id).bind?

def control? (t : Tree) (id : NodeId) : Option Control := (t.kind id).control?

/-- Adds a node that hangs nowhere yet. -/
def create (t : Tree) (kind : NodeKind) : NodeId × Tree :=
  (⟨t.nodes.size⟩, { t with nodes := t.nodes.push { kind := kind } })

def setRoot (t : Tree) (id : NodeId) : Tree := { t with root := some id }

def update (t : Tree) (id : NodeId) (f : Node → Node) : Tree :=
  { t with nodes := t.nodes.modify id.index f }

def modifyKind (t : Tree) (id : NodeId) (f : NodeKind → NodeKind) : Tree :=
  t.update id fun n => { n with kind := f n.kind }

/-- Changes a node if it is a bind. -/
def modifyBind (t : Tree) (id : NodeId) (f : Bind → Bind) : Tree :=
  t.modifyKind id fun
    | .bind b => .bind (f b)
    | kind => kind

/-- Changes a node if it is a control. -/
def modifyControl (t : Tree) (id : NodeId) (f : Control → Control) : Tree :=
  t.modifyKind id fun
    | .control c => .control (f c)
    | kind => kind

/-- Takes a node away from where it hangs in another one's children. -/
def detach (t : Tree) (child : NodeId) : Tree :=
  match t.parent child with
  | some old => t.update old fun n => { n with children := n.children.filter (· ≠ child) }
  | none => t

/-- Hangs a node behind the last child of another one, wherever it was before. -/
def append (t : Tree) (parent child : NodeId) : Tree :=
  if parent = child then t
  else
    ((t.detach child).update child fun n => { n with parent := some parent }).update parent
      fun n => { n with children := n.children ++ [child] }

/-- The nodes below a node down to a depth, in document order. -/
def below (t : Tree) : Nat → NodeId → List NodeId
  | 0, _ => []
  | depth + 1, id => (t.children id).flatMap fun c => c :: below t depth c

/-- All nodes below a node, in document order; no tree is deeper than it has nodes. -/
def descendants (t : Tree) (id : NodeId) : List NodeId := t.below t.size id

/-- All nodes from the root on, in document order. -/
def walk (t : Tree) : List NodeId :=
  match t.root with
  | some root => root :: t.descendants root
  | none => []

def binds (t : Tree) : List NodeId := t.walk.filter fun id => (t.bind? id).isSome

def controls (t : Tree) : List NodeId := t.walk.filter fun id => (t.control? id).isSome

def findById (t : Tree) (id : String) : Option NodeId :=
  t.walk.find? fun n => (t.kind n).id? == some id

/-- The first control bound to a bind. -/
def findBoundTo (t : Tree) (bindId : String) : Option NodeId :=
  t.walk.find? fun n => ((t.control? n).bind (·.bind)) == some bindId

/-- Every identifier of the form. -/
def identifiers (t : Tree) : List String := t.walk.flatMap fun id => (t.kind id).identifiers

/-- The nodesets from a bind outwards, up to an absolute one; a dot adds nothing to a path. -/
def pathUp (t : Tree) : Nat → Option NodeId → List String
  | 0, _ => []
  | _ + 1, none => []
  | depth + 1, some id =>
    match t.bind? id with
    | none => []
    | some b =>
      let own := if b.nodeset = "." then [] else [b.nodeset]
      if b.nodeset.startsWith "/" then own else own ++ pathUp t depth (t.parent id)

/-- The path of a bind in the instance. -/
def absolutePath (t : Tree) (id : NodeId) : Option String :=
  (t.bind? id).map fun _ => String.intercalate "/" (t.pathUp t.size (some id)).reverse

/-! What the operations do to single nodes. -/

@[simp] theorem size_create (t : Tree) (kind : NodeKind) : (t.create kind).2.size = t.size + 1 := by
  simp [create, size]

theorem node_create (t : Tree) (kind : NodeKind) (id : NodeId) :
    (t.create kind).2.node id =
      if id = (t.create kind).1 then { kind := kind } else t.node id := by
  obtain ⟨i⟩ := id
  simp only [create, node, Array.getD_eq_getD_getElem?, Array.getElem?_push, NodeId.mk.injEq]
  split <;> rfl

@[simp] theorem size_update (t : Tree) (id : NodeId) (f : Node → Node) :
    (t.update id f).size = t.size := by
  simp [update, size]

theorem node_update (t : Tree) (id other : NodeId) (f : Node → Node) :
    (t.update id f).node other =
      if id = other ∧ id.index < t.size then f (t.node other) else t.node other := by
  obtain ⟨i⟩ := id
  obtain ⟨j⟩ := other
  simp only [update, node, size, Array.getD_eq_getD_getElem?, Array.getElem?_modify,
    NodeId.mk.injEq]
  by_cases h : i = j
  · subst h
    by_cases hi : i < t.nodes.size <;> simp [hi]
  · simp [h]

/-- An update that keeps kinds keeps the kind of every node. -/
theorem kind_update (t : Tree) (id other : NodeId) {f : Node → Node}
    (h : ∀ n, (f n).kind = n.kind) : (t.update id f).kind other = t.kind other := by
  simp only [kind, node_update]
  split <;> simp [h]

@[simp] theorem size_detach (t : Tree) (child : NodeId) : (t.detach child).size = t.size := by
  unfold detach
  split <;> simp

theorem kind_detach (t : Tree) (child id : NodeId) : (t.detach child).kind id = t.kind id := by
  unfold detach
  split
  · exact kind_update _ _ _ fun _ => rfl
  · rfl

@[simp] theorem size_append (t : Tree) (parent child : NodeId) :
    (t.append parent child).size = t.size := by
  unfold append
  split <;> simp

/-- Appending changes where nodes hang and nothing else. -/
theorem kind_append (t : Tree) (parent child id : NodeId) :
    (t.append parent child).kind id = t.kind id := by
  unfold append
  split
  · rfl
  · refine (kind_update _ _ _ fun _ => by rfl).trans ?_
    exact (kind_update _ _ _ fun _ => by rfl).trans (kind_detach t child id)

theorem parent_append (t : Tree) {parent child : NodeId} (hne : parent ≠ child)
    (hc : child.index < t.size) : (t.append parent child).parent child = some parent := by
  simp [append, Tree.parent, hne, hc, node_update]

end Tree

end SchemaForms
