import SchemaForms.Form.Document
import SchemaForms.Proofs.Form.Erasure
import SchemaForms.Proofs.Xml.Readable

/-!
Marks: what the document of a form says.  A form asks for an element for each node, choice, toggle
and action; a document has elements of the namespace of forms.  Both are forests of marks: the names
of elements with the attributes that bind the form together.
-/

namespace SchemaForms

open Forest (tree leaf)
open Xml (Element Attribute Piece Begins LegibleTag Renders)

def formsNamespace : String := "http://www.w3.org/2002/xforms"

def eventsNamespace : String := "http://www.w3.org/2001/xml-events"

/-- The attributes of an element, as far as the form depends on them. -/
structure Traits where
  id : Option String := none
  nodeset : Option String := none
  datatype : Option String := none
  required : Option String := none
  constraint : Option String := none
  relevant : Option String := none
  bind : Option String := none
  appearance : Option String := none
  caseId : Option String := none
  target : Option String := none
  position : Option String := none
  index : Option String := none
  action : Option String := none
  method : Option String := none
  deriving DecidableEq, Repr

/-- The traits that a way of looking up attributes gives. -/
def Traits.of (attribute? : String → Option String) : Traits where
  id := attribute? "id"
  nodeset := attribute? "nodeset"
  datatype := attribute? "type"
  required := attribute? "required"
  constraint := attribute? "constraint"
  relevant := attribute? "relevant"
  bind := attribute? "bind"
  appearance := attribute? "appearance"
  caseId := attribute? "case"
  target := attribute? "target"
  position := attribute? "position"
  index := attribute? "at"
  action := attribute? "action"
  method := attribute? "method"

/-- An element of a form. -/
structure Mark where
  name : String
  traits : Traits
  deriving DecidableEq, Repr

/-! What a form asks for. -/

def Toggle.marks (t : Toggle) : Forest Mark :=
  tree ⟨"action", { id := t.actionId }⟩ (leaf ⟨"toggle", { id := t.id, caseId := t.caseId }⟩)

def Choice.marks (c : Choice) : Forest Mark :=
  tree ⟨"item", { id := c.id }⟩ (c.toggle.elim .nil Toggle.marks)

def Action.marks : Action → Forest Mark
  | .insert id bind position index =>
    leaf ⟨"insert", { id := id, bind := bind, position := position.text, index := index }⟩
  | .delete id bind index => leaf ⟨"delete", { id := id, bind := bind, index := index }⟩
  | .dispatch actionId id _ target =>
    tree ⟨"action", { id := actionId }⟩ (leaf ⟨"dispatch", { id := id, target := target }⟩)

/-- The choices and the action of a control. -/
def ControlKind.marks : ControlKind → Forest Mark
  | .selectOne choices | .selectMany choices =>
    choices.foldr (fun c marks => c.marks ++ marks) .nil
  | .trigger (some action) => action.marks
  | _ => .nil

def Bind.traits (b : Bind) : Traits where
  id := b.id
  nodeset := b.nodeset
  datatype := b.datatype
  required := if b.required then some "true()" else none
  constraint := b.constraint
  relevant := b.relevant

/-- A node, around what is below it. -/
def NodeKind.marks (below : Forest Mark) : NodeKind → Forest Mark
  | .markup _ => below
  | .model id _ => tree ⟨"model", { id := id }⟩ below
  | .instanceData id _ => tree ⟨"instance", { id := id }⟩ below
  | .bind b => tree ⟨"bind", b.traits⟩ below
  | .submission id action method =>
    tree ⟨"submission", { id := id, action := action, method := method }⟩ below
  | .control c =>
    tree ⟨c.kind.elementName, { id := c.id, bind := c.bind, appearance := c.appearance }⟩
      (c.kind.marks ++ below)

/-- All nodes of a form, with their choices and actions. -/
def Forest.marks : Forest NodeKind → Forest Mark
  | .nil => .nil
  | .cons k below after => k.marks (marks below) ++ marks after

theorem Forest.marks_cons (k : NodeKind) (below after : Forest NodeKind) :
    Forest.marks (.cons k below after) = k.marks below.marks ++ after.marks := rfl

@[simp] theorem Forest.marks_append (f g : Forest NodeKind) : (f ++ g).marks = f.marks ++ g.marks := by
  induction f with
  | nil => rfl
  | cons k b r _ ih => rw [cons_append, marks_cons, marks_cons, ih, append_assoc]

/-! What a document says. -/

namespace Xml.Element

def traits (e : Element) : Traits := .of e.attribute?

/-- Elements of forms that only carry the texts and the choices of others. -/
def carriers : List String := ["label", "hint", "value", "choices"]

/-- An element of a name, around others: what is in an instance is not looked at. -/
def marksNamed (name : QName) (traits : Traits) (below : Forest Mark) : Forest Mark :=
  if name.nspace ≠ some formsNamespace ∨ name.localName ∈ carriers then below
  else if name.localName = "instance" then leaf ⟨name.localName, traits⟩
  else tree ⟨name.localName, traits⟩ below

mutual

/-- The elements of a form in a document: those of the namespace of forms, wherever they stand. -/
def marks : Element → Forest Mark
  | ⟨name, nsPrefix, attributes, text, children, declarations, scope⟩ =>
    marksNamed name (traits ⟨name, nsPrefix, attributes, text, [], declarations, scope⟩)
      (marksOf children)

def marksOf : List Element → Forest Mark
  | [] => .nil
  | e :: es => marks e ++ marksOf es

end

theorem marks_eq (e : Element) : e.marks = marksNamed e.name e.traits (marksOf e.children) := by
  obtain ⟨name, nsPrefix, attributes, text, children, declarations, scope⟩ := e
  rw [marks]
  rfl

theorem marksOf_append (es es' : List Element) : marksOf (es ++ es') = marksOf es ++ marksOf es' := by
  induction es with
  | nil => rfl
  | cons e es ih => rw [List.cons_append, marksOf, marksOf, ih, Forest.append_assoc]

end Xml.Element

/-! Tags of forms. -/

/-- The attributes of the elements of forms, in an order in which all of them are written. -/
def formKeys : List String :=
  ["id", "ev:event", "nodeset", "type", "required", "constraint", "relevant", "bind", "appearance",
    "start", "end", "selected", "submission", "position", "at", "case", "name", "target", "schema",
    "action", "method"]

/-- An attribute of a form, as it is read. -/
def formAttribute (a : String × String) : Attribute :=
  if a.1 = "ev:event" then ⟨⟨some eventsNamespace, "event"⟩, some "ev", a.2⟩
  else ⟨.unqualified a.1, none, a.2⟩

/-- The value of the first attribute with a key. -/
def valueOf (attributes : List (String × String)) (key : String) : Option String :=
  (attributes.find? fun a => a.1 == key).map (·.2)

theorem find_formAttribute (attributes : List (String × String)) {key : String}
    (hkey : key ≠ "ev:event") :
    ((attributes.map formAttribute).find? fun a => a.name == .unqualified key).map (·.value) =
      valueOf attributes key := by
  induction attributes with
  | nil => rfl
  | cons a rest ih =>
    rw [List.map_cons, List.find?_cons, valueOf, List.find?_cons]
    by_cases hevent : a.1 = "ev:event"
    · have hname : ((formAttribute a).name == .unqualified key) = false := by
        simp [formAttribute, hevent, QName.unqualified]
      have hother : (a.1 == key) = false := beq_eq_false_iff_ne.2 fun he => hkey (he ▸ hevent)
      rw [hname, hother]
      exact ih
    · have hname : ((formAttribute a).name == .unqualified key) = (a.1 == key) := by
        simp [formAttribute, hevent, QName.unqualified]
      rw [hname]
      cases hsame : a.1 == key with
      | false => exact ih
      | true => simp [formAttribute, hevent]

/-- A scope inside the document of a form: the prefixes of forms mean what they should, and names
without prefixes are none of forms. -/
structure Scope.Serves (scope : Scope) (bound : List String) : Prop where
  forms : scope.lookup "xforms" = some formsNamespace
  events : scope.lookup "ev" = some eventsNamespace
  foreign : scope.defaultNamespace ≠ some formsNamespace
  bound : Xml.Binds scope bound

/-- The keys of a tag are those of a form, in their order. -/
def Keyed (attributes : List (String × String)) : Prop := (attributes.map (·.1)).Sublist formKeys

theorem keyed {attributes : List (String × String)} (keys : List String)
    (hkeys : attributes.map (·.1) = keys) (h : keys.Sublist formKeys) : Keyed attributes := by
  rwa [Keyed, hkeys]

section Tags

variable {scope : Scope} {bound : List String} {name : String} {attributes : List (String × String)}

/-- The tag of an element of a form. -/
theorem legibleTag_form (hname : IsNCName name = true) (hkeys : Keyed attributes) :
    LegibleTag ("xforms:" ++ name) attributes where
  name := by
    have hwritten : "xforms:" ++ name = writtenName (some "xforms") name := rfl
    rw [hwritten]
    refine Xml.isTagName_of_nameParts (Xml.isNamePart_written (fun q hq => ?_) hname)
      (Xml.written_ne_nil _ hname)
    obtain rfl := Option.some.inj hq
    decide
  keys a ha := by
    have hall : ∀ key ∈ formKeys, key.toList ≠ [] ∧ ∀ c ∈ key.toList, Xml.isNamePart c = true := by
      decide +kernel
    obtain ⟨hne, hchars⟩ := hall a.1 (hkeys.subset (List.mem_map_of_mem ha))
    exact Xml.isTagKey_of_nameParts hchars hne
  distinct := hkeys.nodup (by decide +kernel)

/-- The element that such a tag begins. -/
def formElement (scope : Scope) (name : String) (attributes : List (String × String)) : Element :=
  ⟨⟨some formsNamespace, name⟩, some "xforms", attributes.map formAttribute, none, [], [], scope⟩

theorem traits_formElement (scope : Scope) (name : String) (attributes : List (String × String)) :
    (formElement scope name attributes).traits = .of (valueOf attributes) := by
  have hkey {key : String} (h : key ≠ "ev:event") :
      (formElement scope name attributes).attribute? key = valueOf attributes key :=
    find_formAttribute attributes h
  rw [Element.traits, Traits.of, Traits.of]
  congr 1 <;> exact hkey (by decide)

theorem begins_form (hscope : scope.Serves bound) (hname : IsNCName name = true)
    (hkeys : Keyed attributes) :
    Begins scope ("xforms:" ++ name) attributes (formElement scope name attributes) := by
  have hsplit : splitName ("xforms:" ++ name) = (some "xforms", name) :=
    Xml.splitName_written (p := some "xforms") (fun q hq => Option.some.inj hq ▸ by decide)
      (IsNCName.not_mem hname (by decide))
  have hplain (a : String × String) (ha : a ∈ attributes) :
      Xml.declarationOf a.1 a.2 = none ∧
        Xml.resolveAttribute scope a.1 a.2 = .ok (formAttribute a) := by
    have hall : ∀ key ∈ formKeys, key = "ev:event" ∨
        key ≠ "ev:event" ∧ key ≠ "xmlns" ∧ splitName key = (none, key) := by
      decide +kernel
    rcases hall a.1 (hkeys.subset (List.mem_map_of_mem ha)) with hevent | ⟨hevent, hxmlns, hkey⟩
    · have hkey : splitName "ev:event" = (some "ev", "event") := by decide
      refine ⟨?_, ?_⟩
      · rw [hevent, Xml.declarationOf, if_neg (by decide), hkey]
        rfl
      · rw [hevent, Xml.resolveAttribute, hkey]
        simp only [Scope.resolve, hkey, hscope.events, formAttribute, hevent]
        rfl
    · refine ⟨?_, ?_⟩
      · rw [Xml.declarationOf, if_neg hxmlns, hkey]
      · rw [Xml.resolveAttribute, hkey]
        simp [formAttribute, hevent]
  have hothers : Xml.othersIn attributes = attributes := by
    refine List.filter_eq_self.2 fun a ha => ?_
    rw [(hplain a ha).1]
    rfl
  have hdeclarations : Xml.declarationsIn attributes = [] :=
    List.filterMap_eq_nil_iff.2 fun a ha => (hplain a ha).1
  have hresolve : ∀ as : List (String × String), (∀ a ∈ as, Xml.resolveAttribute scope a.1 a.2 =
      .ok (formAttribute a)) → Xml.resolveAttributes scope as = .ok (as.map formAttribute) := by
    intro as has
    induction as with
    | nil => rfl
    | cons a as ih =>
      rw [List.forall_mem_cons] at has
      rw [Xml.resolveAttributes, has.1, ih has.2]
      rfl
  refine ⟨?_, ?_, ?_, rfl, rfl, hdeclarations.symm, rfl⟩
  · simp only [formElement, Scope.resolve, hsplit, hscope.forms]
    rfl
  · rw [hsplit]
    rfl
  · rw [hothers]
    exact hresolve attributes fun a ha => (hplain a ha).2

end Tags

/-! What pieces of markup say. -/

/-- In a scope, pieces are read as elements with some marks. -/
def Tells (scope : Scope) (ps : List Piece) (marks : Forest Mark) : Prop :=
  ∃ es, Renders scope ps es ∧ Element.marksOf es = marks

section Tells

variable {scope : Scope} {bound : List String} {name : String} {attributes : List (String × String)}
  {ps ps' : List Piece} {below marks marks' : Forest Mark}

theorem Tells.nil : Tells scope [] .nil := ⟨[], .nil, rfl⟩

theorem Tells.append (h : Tells scope ps marks) (h' : Tells scope ps' marks') :
    Tells scope (ps ++ ps') (marks ++ marks') := by
  obtain ⟨es, hes, rfl⟩ := h
  obtain ⟨es', hes', rfl⟩ := h'
  exact ⟨es ++ es', hes.append hes', Element.marksOf_append es es'⟩

theorem tells_one {e : Element} (h : Renders scope ps [e]) : Tells scope ps e.marks :=
  ⟨[e], h, by rw [Element.marksOf, Element.marksOf, Forest.append_nil]⟩

/-- An element of a form around others. -/
theorem tells_enclosed (hscope : scope.Serves bound) (hname : IsNCName name = true)
    (hkeys : Keyed attributes) (text : Option String) (h : Tells scope ps below) :
    Tells scope (Renders.enclose ("xforms:" ++ name) attributes text ps)
      (Element.marksNamed ⟨some formsNamespace, name⟩ (.of (valueOf attributes)) below) := by
  obtain ⟨es, hes, rfl⟩ := h
  have hrenders := Renders.enclosed (legibleTag_form hname hkeys)
    (begins_form hscope hname hkeys) text hes
  have htells := tells_one hrenders
  rw [Element.marks_eq] at htells
  rw [← traits_formElement scope name attributes]
  exact htells

theorem tells_empty (hscope : scope.Serves bound) (hname : IsNCName name = true)
    (hkeys : Keyed attributes) :
    Tells scope [.empty ("xforms:" ++ name) attributes]
      (Element.marksNamed ⟨some formsNamespace, name⟩ (.of (valueOf attributes)) .nil) := by
  have htells := tells_one
    (Renders.empty (legibleTag_form hname hkeys) (begins_form hscope hname hkeys))
  rw [Element.marks_eq, traits_formElement] at htells
  exact htells

/-- Nothing is read where nothing is written. -/
theorem eq_nil_of_renders {es : List Element} (h : Renders scope [] es) : es = [] := by
  let e : Element := { Element.ofName default with scope := scope }
  have hrun := h.run ⟨[([], e)], none⟩ rfl []
  rw [Xml.Reading.finish_children] at hrun
  exact (congrArg Element.children (congrArg Prod.snd (List.cons.inj
    (congrArg Xml.Reading.stack (Except.ok.inj hrun))).1)).symm

theorem Tells.eq_nil (h : Tells scope [] marks) : marks = .nil := by
  obtain ⟨es, hes, rfl⟩ := h
  rw [eq_nil_of_renders hes]
  rfl

/-- Names of elements that count as parts of a form, with all inside them. -/
def IsPart (name : String) : Prop :=
  IsNCName name = true ∧ name ∉ Element.carriers ∧ name ≠ "instance"

instance : DecidablePred IsPart := fun _ => inferInstanceAs (Decidable (_ ∧ _ ∧ _))

theorem marksNamed_part (h : IsPart name) (traits : Traits) (below : Forest Mark) :
    Element.marksNamed ⟨some formsNamespace, name⟩ traits below = tree ⟨name, traits⟩ below := by
  rw [Element.marksNamed, if_neg (by simpa using h.2.1), if_neg h.2.2]

theorem marksNamed_carrier (h : name ∈ Element.carriers) (traits : Traits) (below : Forest Mark) :
    Element.marksNamed ⟨some formsNamespace, name⟩ traits below = below := by
  rw [Element.marksNamed, if_pos (.inr h)]

section Part

variable {traits : Traits} (hscope : scope.Serves bound) (hname : IsPart name)
  (hkeys : Keyed attributes) (htraits : .of (valueOf attributes) = traits)

include hscope hname hkeys htraits

theorem tells_part (h : Tells scope ps below) :
    Tells scope (enclosed ("xforms:" ++ name) attributes ps) (tree ⟨name, traits⟩ below) := by
  rw [← marksNamed_part hname, ← htraits]
  exact tells_enclosed hscope hname.1 hkeys none h

theorem tells_leaf : Tells scope [.empty ("xforms:" ++ name) attributes] (leaf ⟨name, traits⟩) := by
  have htells := tells_empty hscope hname.1 hkeys
  rwa [marksNamed_part hname, htraits] at htells

theorem tells_partOrEmpty (h : Tells scope ps below) :
    Tells scope (enclosedOrEmpty ("xforms:" ++ name) attributes ps) (tree ⟨name, traits⟩ below) := by
  cases ps with
  | nil =>
    obtain rfl := h.eq_nil
    exact tells_leaf hscope hname hkeys htraits
  | cons p ps => exact tells_part hscope hname hkeys htraits h

end Part

section Carrier

variable (hscope : scope.Serves bound) (hname : name ∈ Element.carriers)

include hscope hname

theorem tells_carrier (text : Option String) (h : Tells scope ps below) :
    Tells scope (Renders.enclose ("xforms:" ++ name) [] text ps) below := by
  have hnc : ∀ name ∈ Element.carriers, IsNCName name = true := by decide
  have hkeys : Keyed [] := keyed [] rfl (by decide)
  have htells := tells_enclosed hscope (hnc name hname) hkeys text h
  rwa [marksNamed_carrier hname] at htells

theorem tells_text (text : String) : Tells scope (textElement ("xforms:" ++ name) text) .nil :=
  tells_carrier hscope hname (some text) .nil

end Carrier

end Tells

/-! The nodes of a form. -/

@[simp] theorem valueOf_nil (key : String) : valueOf [] key = none := rfl

@[simp] theorem valueOf_cons (a : String × String) (rest : List (String × String)) (key : String) :
    valueOf (a :: rest) key = if a.1 = key then some a.2 else valueOf rest key := by
  by_cases h : a.1 = key <;> simp [valueOf, h]

@[simp] theorem valueOf_append (l r : List (String × String)) (key : String) :
    valueOf (l ++ r) key = (valueOf l key).or (valueOf r key) := by
  rw [valueOf, List.find?_append, Option.map_or]
  rfl

@[simp] theorem valueOf_optional (k : String) (v : Option String) (key : String) :
    valueOf (optionalAttribute k v) key = if k = key then v else none := by
  cases v <;> simp [optionalAttribute]

theorem keys_optional (k : String) (v : Option String) :
    ((optionalAttribute k v).map (·.1)).Sublist [k] := by
  cases v with
  | none => exact List.nil_sublist _
  | some v => exact .refl _

theorem Bind.keyed_attributes (b : Bind) : Keyed b.attributes := by
  have hrequired : ((if b.required then [("required", "true()")] else []).map (·.1)).Sublist
      ["required"] := by
    cases b.required with
    | false => exact List.nil_sublist _
    | true => exact .refl _
  have hkeys : (b.attributes.map (·.1)).Sublist (["id", "nodeset"] ++ ["type"] ++ ["required"] ++
      ["constraint"] ++ ["relevant"]) := by
    simp only [Bind.attributes, List.map_append]
    exact ((((List.Sublist.refl _).append (keys_optional ..)).append hrequired).append
      (keys_optional ..)).append (keys_optional ..)
  exact hkeys.trans (by decide)

theorem Bind.traits_attributes (b : Bind) : .of (valueOf b.attributes) = b.traits := by
  cases h : b.required <;> simp [Traits.of, Bind.attributes, Bind.traits, h]

theorem ControlKind.isPart (k : ControlKind) : IsPart k.elementName := by
  have hall : ∀ name ∈ ["input", "textarea", "upload", "select1", "select", "range", "group",
      "repeat", "switch", "case", "trigger", "submit"], IsPart name := by
    decide +kernel
  refine hall _ ?_
  cases k <;> simp [elementName]

theorem ControlKind.keys_attributes (k : ControlKind) :
    (k.attributes.map (·.1)).Sublist ["start", "end", "selected", "submission"] := by
  have hsome : ∀ keys ∈ [[], ["start", "end"], ["submission"], ["selected"]],
      keys.Sublist ["start", "end", "selected", "submission"] := by
    decide +kernel
  refine hsome _ ?_
  cases k <;> simp [attributes]

theorem Control.keyed (c : Control) : Keyed (("id", c.id) :: optionalAttribute "bind" c.bind ++
    optionalAttribute "appearance" c.appearance ++ c.kind.attributes) := by
  rw [Keyed, List.map_append, List.map_append, List.map_cons]
  exact ((((keys_optional "bind" c.bind).cons_cons "id").append
    (keys_optional "appearance" c.appearance)).append c.kind.keys_attributes).trans (by decide)

section Controls

variable {scope : Scope} {bound : List String} {ps : List Piece} {below : Forest Mark}
  (hscope : scope.Serves bound)

include hscope

theorem Toggle.tells (t : Toggle) : Tells scope t.pieces t.marks :=
  tells_part hscope (by decide : IsPart "action") (keyed ["id", "ev:event"] rfl (by decide)) rfl
    (tells_leaf hscope (by decide : IsPart "toggle") (keyed ["id", "case"] rfl (by decide)) rfl)

theorem Choice.tells (c : Choice) : Tells scope c.pieces c.marks := by
  refine tells_part hscope (by decide : IsPart "item") (keyed ["id"] rfl (by decide)) rfl ?_
  have hlabel := tells_text hscope (by decide : "label" ∈ Element.carriers) c.label
  have hvalue := tells_text hscope (by decide : "value" ∈ Element.carriers) c.value
  have hcaption := hlabel.append hvalue
  cases c.toggle with
  | none => exact hcaption.append .nil
  | some t => exact hcaption.append (t.tells hscope)

theorem tells_choices (cs : List Choice) : Tells scope (cs.flatMap Choice.pieces)
    (cs.foldr (fun c marks => c.marks ++ marks) .nil) := by
  induction cs with
  | nil => exact .nil
  | cons c cs ih => exact (c.tells hscope).append ih

theorem Action.tells (a : Action) : Tells scope a.pieces a.marks := by
  cases a with
  | insert id bind position index =>
    refine tells_leaf hscope (by decide : IsPart "insert") ?_ (by simp [Traits.of])
    rw [Keyed, List.map_append, List.map_append]
    exact (((List.Sublist.refl ["id", "ev:event"]).append (keys_optional "bind" bind)).append
      (.refl ["position", "at"])).trans (by decide)
  | delete id bind index =>
    refine tells_leaf hscope (by decide : IsPart "delete") ?_ (by simp [Traits.of])
    rw [Keyed, List.map_append, List.map_append]
    exact (((List.Sublist.refl ["id", "ev:event"]).append (keys_optional "bind" bind)).append
      (.refl ["at"])).trans (by decide)
  | dispatch actionId id event target =>
    exact tells_part hscope (by decide : IsPart "action") (keyed ["id", "ev:event"] rfl (by decide)) rfl
      (tells_leaf hscope (by decide : IsPart "dispatch")
        (keyed ["id", "name", "target"] rfl (by decide)) rfl)

theorem ControlKind.tells (k : ControlKind) : Tells scope k.pieces k.marks := by
  have hchoices (cs : List Choice) := tells_carrier hscope (by decide : "choices" ∈ Element.carriers) none
    (tells_choices hscope cs)
  cases k with
  | selectOne cs => exact hchoices cs
  | selectMany cs => exact hchoices cs
  | trigger action =>
    cases action with
    | none => exact .nil
    | some a => exact a.tells hscope
  | _ => exact .nil

theorem Control.tells (c : Control) (h : Tells scope ps below) :
    Tells scope (c.pieces ps) ((NodeKind.control c).marks below) := by
  refine tells_part hscope c.kind.isPart c.keyed ?_ ?_
  · cases c.kind <;> simp [Traits.of, ControlKind.attributes]
  · have hlabel : Tells scope (c.label.elim [] (textElement "xforms:label")) .nil := by
      cases c.label with
      | none => exact .nil
      | some text => exact tells_text hscope (by decide : "label" ∈ Element.carriers) text
    have hhint : Tells scope (c.hint.elim [] (textElement "xforms:hint")) .nil := by
      cases c.hint with
      | none => exact .nil
      | some text => exact tells_text hscope (by decide : "hint" ∈ Element.carriers) text
    exact ((hlabel.append hhint).append (c.kind.tells hscope)).append h

end Controls

end SchemaForms
