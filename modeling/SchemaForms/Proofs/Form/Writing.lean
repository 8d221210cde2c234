import SchemaForms.Proofs.Form.Adornment
import SchemaForms.Proofs.Form.Marks
import SchemaForms.Proofs.Form.Reading

/-!
Writing groves: in the scope of a form's document, the pieces of a grove say what its nodes ask for.
-/

namespace SchemaForms

open Forest (tree leaf)
open Grove (ids tops erase)
open Xml (Element Piece LegibleTag Renders Begins declarationsIn othersIn)

/-! Markup. -/

theorem Scope.Serves.setDefault {scope : Scope} {bound : List String} (h : scope.Serves bound)
    {ns : String} (hns : ns ≠ formsNamespace) : (scope.setDefault ns).Serves bound where
  forms := h.forms
  events := h.events
  foreign := by
    rw [Scope.setDefault]
    split
    · exact Option.some_ne_none _ |>.symm
    · exact fun he => hns (Option.some.inj he)
  bound := h.bound

theorem Markup.Plain.splitName_key {m : Markup} (hm : m.Plain) {a : String × String}
    (ha : a ∈ m.attributes) : splitName a.1 = (none, a.1) :=
  Xml.splitName_written (p := none) (fun _ h => nomatch h)
    (IsNCName.not_mem (hm.keys a ha) (by decide))

/-- The declarations in the tag of plain markup leave a scope as good as it was. -/
theorem Markup.Plain.serves {m : Markup} (hm : m.Plain) {scope : Scope} {bound : List String}
    (h : scope.Serves bound) :
    ((declarationsIn m.attributes).foldl Scope.declare scope).Serves bound := by
  have hdeclared : ∀ d ∈ declarationsIn m.attributes, d = (none, Layout.xhtmlNamespace) := by
    intro d hd
    obtain ⟨a, ha, hdeclares⟩ := List.mem_filterMap.1 hd
    rw [Xml.declarationOf] at hdeclares
    split at hdeclares
    · next hkey => rw [← Option.some.inj hdeclares, hm.nspace a ha hkey]
    · rw [hm.splitName_key ha] at hdeclares
      cases hdeclares
  generalize declarationsIn m.attributes = ds at hdeclared
  induction ds generalizing scope with
  | nil => exact h
  | cons d ds ih =>
    rw [List.forall_mem_cons] at hdeclared
    rw [List.foldl_cons, hdeclared.1]
    exact ih (h.setDefault (by decide)) hdeclared.2

/-- Markup is one element, and says what is said inside it. -/
theorem renders_markup {m : Markup} (hname : IsNCName m.name = true) {scope : Scope}
    {bound : List String} {attributes : List (String × String)} (tag : LegibleTag m.name attributes)
    (hserves : ((declarationsIn attributes).foldl Scope.declare scope).Serves bound)
    (hothers : ∀ a ∈ othersIn attributes, ∀ p, (splitName a.1).1 = some p → p ∈ bound)
    {ps : List Piece} {marks : Forest Mark}
    (h : Tells ((declarationsIn attributes).foldl Scope.declare scope) ps marks) :
    ∃ e, Renders scope (enclosedOrEmpty m.name attributes
      (m.text.elim [] (fun t => [Piece.text t]) ++ ps)) [e] ∧ e.marks = marks := by
  have hsplit : splitName m.name = (none, m.name) :=
    Xml.splitName_written (p := none) (fun _ h => nomatch h) (IsNCName.not_mem hname (by decide))
  obtain ⟨e, hbegins⟩ : ∃ e, Begins scope m.name attributes e :=
    Xml.begins_of_bound (fun p hp => by rw [hsplit] at hp; cases hp)
      fun a ha p hp => hserves.bound p (hothers a ha p hp)
  have hscope : e.scope = (declarationsIn attributes).foldl Scope.declare scope := by
    rw [hbegins.scope, hbegins.declarations]
  have hforeign : e.name.nspace ≠ some formsNamespace := by
    have hresolved := hbegins.name
    rw [Scope.resolve, hsplit] at hresolved
    rw [← Except.ok.inj hresolved, hscope]
    exact hserves.foreign
  obtain ⟨es, hes, rfl⟩ := h
  have hmarks (e' : Element) (hsame : e'.name = e.name) : e'.marks = Element.marksOf e'.children := by
    rw [Element.marks_eq, Element.marksNamed, hsame, if_pos (.inl hforeign)]
  have henclosed := Renders.enclosed tag hbegins m.text (hscope ▸ hes)
  by_cases hempty : m.text = none ∧ ps = []
  · obtain ⟨htext, rfl⟩ := hempty
    rw [htext, eq_nil_of_renders hes]
    refine ⟨e, Renders.empty tag hbegins, ?_⟩
    rw [hmarks e rfl, hbegins.children]
  · refine ⟨{ e with text := m.text.bind Xml.readText, children := es }, ?_, hmarks _ rfl⟩
    cases htext : m.text with
    | some t =>
      rw [htext] at henclosed
      exact henclosed
    | none =>
      cases ps with
      | nil => exact absurd ⟨htext, rfl⟩ hempty
      | cons p ps =>
        rw [htext] at henclosed
        exact henclosed

theorem Markup.Plain.legibleTag {m : Markup} (hm : m.Plain) : LegibleTag m.name m.attributes where
  name := Xml.isTagName_of_nameParts (Xml.isNamePart_of_ncName hm.name)
    (Xml.written_ne_nil none hm.name)
  keys a ha := Xml.isTagKey_of_nameParts (Xml.isNamePart_of_ncName (hm.keys a ha))
    (Xml.written_ne_nil none (hm.keys a ha))
  distinct := hm.distinct

theorem Markup.Plain.tells {m : Markup} (hm : m.Plain) {scope : Scope} {bound : List String}
    (hscope : scope.Serves bound) {ps : List Piece} {marks : Forest Mark}
    (h : ∀ scope : Scope, scope.Serves bound → Tells scope ps marks) :
    Tells scope (enclosedOrEmpty m.name m.attributes
      (m.text.elim [] (fun t => [Piece.text t]) ++ ps)) marks := by
  have hinner := hm.serves hscope
  obtain ⟨e, hrenders, rfl⟩ := renders_markup hm.name hm.legibleTag hinner (fun a ha p hp => by
    rw [hm.splitName_key (List.mem_filter.1 ha).1] at hp
    cases hp) (h _ hinner)
  exact tells_one hrenders

/-! Nodes. -/

/-- A node that can be written wherever some prefixes are bound. -/
def NodeKind.Writable (bound : List String) : NodeKind → Prop
  | .markup m => m.Plain
  | .instanceData _ root => ∀ e ∈ root, e.Readable bound
  | _ => True

/-- Nodes that have nothing below them. -/
def NodeKind.isEnd : NodeKind → Bool
  | .instanceData _ _ | .submission _ _ _ => true
  | _ => false

/-- Whatever the data are, an instance is one element. -/
theorem tells_instance {scope : Scope} {bound : List String} (hscope : scope.Serves bound)
    {id : String} {root : Option Element} (hroot : ∀ e ∈ root, e.Readable bound) :
    Tells scope (enclosedOrEmpty "xforms:instance" [("id", id)] (root.elim [] Element.pieces))
      (leaf ⟨"instance", { id := id }⟩) := by
  have hkeys : Keyed [("id", id)] := keyed ["id"] rfl (by decide)
  have hmarks (traits : Traits) (below : Forest Mark) :
      Element.marksNamed ⟨some formsNamespace, "instance"⟩ traits below =
        leaf ⟨"instance", traits⟩ := by
    rw [Element.marksNamed, if_neg (by decide), if_pos rfl]
  have hempty := tells_empty hscope (by decide : IsNCName "instance" = true) hkeys
  rw [hmarks] at hempty
  cases root with
  | none => exact hempty
  | some e =>
    obtain ⟨e', hrenders⟩ := (hroot e rfl).renders hscope.bound
    have henclosed := tells_enclosed hscope (by decide : IsNCName "instance" = true) hkeys none
      (tells_one hrenders)
    rw [hmarks] at henclosed
    rw [Option.elim_some]
    cases hpieces : e.pieces with
    | nil => exact hempty
    | cons p ps =>
      rw [hpieces] at henclosed
      exact henclosed

/-- A node says what it asks for, around what is below it. -/
theorem NodeKind.tells {k : NodeKind} {scope : Scope} {bound : List String} (hk : k.Writable bound)
    (hscope : scope.Serves bound) {ps : List Piece} {below : Forest Mark}
    (h : ∀ scope : Scope, scope.Serves bound → Tells scope ps below) (hend : k.isEnd → below = .nil) :
    Tells scope (k.pieces [] ps) (k.marks below) := by
  cases k with
  | markup m => exact hk.tells hscope h
  | model id schema =>
    refine tells_part hscope (by decide : IsPart "model") ?_ (by simp [Traits.of]) (h scope hscope)
    exact ((keys_optional "schema" schema).cons_cons "id").trans (by decide)
  | instanceData id root =>
    obtain rfl := hend rfl
    exact tells_instance hscope hk
  | bind b =>
    exact tells_partOrEmpty hscope (by decide : IsPart "bind") b.keyed_attributes b.traits_attributes
      (h scope hscope)
  | submission id action method =>
    obtain rfl := hend rfl
    exact tells_leaf hscope (by decide : IsPart "submission")
      (keyed ["id", "action", "method"] rfl (by decide)) rfl
  | control c => exact c.tells hscope (h scope hscope)

/-! Groves. -/

namespace Grove

/-- The pieces of all nodes, each around those of the nodes below it. -/
def pieces : Grove → List Piece
  | .nil => []
  | .cons a below after => a.2.pieces [] (pieces below) ++ pieces after

/-- What an arena links is written as the grove has it, if the depth suffices. -/
theorem pieces_eq {t : Tree} {parent : Option NodeId} {f : Grove} (h : t.Links parent f) (depth : Nat)
    (hd : (ids f).length ≤ depth) : (tops f).flatMap (t.pieces depth []) = pieces f := by
  induction f generalizing parent depth with
  | nil => rfl
  | cons a b r ihb ihr =>
    obtain ⟨ha, hb, hr⟩ := h
    simp only [ids_cons, List.length_cons, List.length_append] at hd
    obtain ⟨d, rfl⟩ := Nat.exists_eq_add_one_of_ne_zero (n := depth) (by omega)
    rw [tops_cons, List.flatMap_cons, ihr hr _ (by omega), Tree.pieces, Tree.kind, Tree.children, ha,
      ihb hb d (by omega), pieces]

/-- A grove says what its nodes ask for. -/
theorem tells {f : Grove} {bound : List String} (hf : ∀ a ∈ f.labels, a.2.Writable bound)
    (hends : ∀ p ∈ (erase f).parts, p.1.isEnd → p.2 = .nil) {scope : Scope}
    (hscope : scope.Serves bound) : Tells scope (pieces f) (erase f).marks := by
  induction f generalizing scope with
  | nil => exact .nil
  | cons a b r ihb ihr =>
    simp only [Forest.labels_cons, List.mem_cons, List.mem_append] at hf
    have hmarks : (erase (.cons a b r)).marks = a.2.marks (erase b).marks ++ (erase r).marks := by
      obtain ⟨x, k⟩ := a
      cases k with
      | markup m => exact Forest.marks_append ..
      | _ => rfl
    have hparts : ∀ p ∈ (erase b).parts ++ (erase r).parts, p ∈ (erase (.cons a b r)).parts := by
      intro p hp
      rw [erase]
      split
      · rwa [Forest.parts_append]
      · exact List.mem_cons_of_mem _ hp
    have hend : a.2.isEnd → (erase b).marks = .nil := by
      intro hend
      have hpart : (a.2, erase b) ∈ (erase (.cons a b r)).parts := by
        obtain ⟨x, k⟩ := a
        cases k with
        | markup m => cases hend
        | _ => exact List.mem_cons_self
      have hbelow : erase b = .nil := hends _ hpart hend
      rw [hbelow]
      rfl
    rw [hmarks, pieces]
    refine (NodeKind.tells (hf a (.inl rfl)) hscope (fun scope hscope => ?_) hend).append ?_
    · exact ihb (fun c hc => hf c (.inr (.inl hc)))
        (fun p hp => hends p (hparts p (List.mem_append_left _ hp))) hscope
    · exact ihr (fun c hc => hf c (.inr (.inr hc)))
        (fun p hp => hends p (hparts p (List.mem_append_right _ hp))) hscope

end Grove

end SchemaForms
