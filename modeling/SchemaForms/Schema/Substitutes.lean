import SchemaForms.Schema.Chain

/-!
Substitutes: for each complex type the named, non-abstract types that are derived from it and may
stand in for it, those nearer to the root of the derivation first.
-/

namespace SchemaForms

open Schema

/-- Base types with their substitutes, in the order of discovery. -/
structure Substitutes where
  table : Table TypeId (List TypeId)
  deriving Inhabited

namespace Substitutes

/-- The base that a type hands its descendants on to: one of the same category, not `anyType`. -/
def parent (s : Schema) (id : TypeId) : Option TypeId :=
  match s.base? id with
  | some base =>
    if base = anyType then none
    else if s.category base = s.category id then some base
    else none
  | none => none

/-- Whether a type can stand in for its ancestors: a non-abstract extension. -/
def canSubstitute (s : Schema) (id : TypeId) : Bool :=
  match s.complex? id with
  | some t => t.derivation == .extension && !t.isAbstract
  | none => false

/-- Adds what is not there yet, at the end. -/
def addNew (known : List TypeId) : List TypeId → List TypeId
  | [] => known
  | id :: ids => addNew (if known.contains id then known else known ++ [id]) ids

/-- Records along a chain the types that came before each one. -/
def ascend (s : Schema) (table : Table TypeId (List TypeId)) (below : List TypeId) :
    List TypeId → Table TypeId (List TypeId)
  | [] => table
  | id :: above =>
    let table :=
      if below.isEmpty then table else table.put id (addNew ((table.get? id).getD []) below)
    ascend s table (if canSubstitute s id then below ++ [id] else below) above

/-- The base of a derived complex type, when it is complex and not `anyType`. -/
def derivedFrom (s : Schema) (id : TypeId) : Option TypeId :=
  match s.complex? id with
  | some t =>
    match t.derivation, t.base with
    | .none, _ | _, none => none
    | _, some base =>
      if base = anyType then none else if (s.complex? base).isSome then some base else none
  | none => none

/-- The number of derivation steps above a type. -/
def depth (s : Schema) (id : TypeId) : Nat := (s.chain (derivedFrom s) id).length - 1

/-- Sorts by depth; types of one depth keep their order. -/
def sortByDepth (s : Schema) (ids : List TypeId) : List TypeId :=
  ids.mergeSort fun a b => depth s a ≤ depth s b

/-- The substitutes of all types of a schema. -/
def ofSchema (s : Schema) : Substitutes :=
  let table := s.namedTypes.foldl
    (fun table id => ascend s table [] (s.chain (parent s) id)) Table.empty
  ⟨⟨table.entries.map fun (id, ids) => (id, sortByDepth s ids)⟩⟩

/-- The types that can stand in for a type. -/
def of (subs : Substitutes) (id : TypeId) : List TypeId := (subs.table.get? id).getD []

def entries (subs : Substitutes) : List (TypeId × List TypeId) := subs.table.entries

/-- The name of a type in reports. -/
def reportName (s : Schema) (id : TypeId) : String :=
  match (s.typeDef id).name? with
  | some name => name.text
  | none => s.displayName id

/-- The entries by name, for reports; of two types of one name the later one counts. -/
def named (subs : Substitutes) (s : Schema) : Table String (List String) :=
  subs.entries.foldl (fun t (id, ids) => t.put (reportName s id) (ids.map (reportName s))) .empty

end Substitutes

end SchemaForms
