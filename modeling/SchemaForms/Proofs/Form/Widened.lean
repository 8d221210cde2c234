import SchemaForms.Proofs.Form.Pruned
import SchemaForms.Proofs.Schema.Loaded
import SchemaForms.Proofs.Schema.Widening

/-!
Forms of a graph that has been loaded.  Whatever lies beyond the range of the graph, the same form
is made of it: the generator never looks there.
-/

namespace SchemaForms

open Synthesis
open Xml (Element)

namespace Generator

/-- A generator for a closed graph, and a graph with more behind it. -/
structure Widened (g : Generator) (s' : Schema) : Prop where
  widens : g.schema.Widens s'
  closed : g.schema.Closed
  derived : g.substitutes = Substitutes.ofSchema g.schema

/-- Two ways to add children are the same for the elements of a graph. -/
def SameChildren (s : Schema) (child child' : ChildAdder) : Prop :=
  ∀ spot e id path occurs, s.HasElement id → child' spot e id path occurs = child spot e id path occurs

namespace Widened

variable {g : Generator} {s' : Schema} {type : TypeId} (h : g.Widened s')
include h

/-! The types that a type leads to. -/

theorem hasType_of_substitute {t : TypeId} (ht : t ∈ g.substitutes.of type) : g.schema.HasType t := by
  rw [h.derived] at ht
  exact Substitutes.hasType_of_canSubstitute (Substitutes.canSubstitute_of_mem ht)

theorem hasType_of_candidate (htype : g.schema.HasType type) {t : TypeId}
    (ht : t ∈ g.candidates type) : g.schema.HasType t := by
  rcases List.mem_append.1 ht with ht | ht
  · split at ht
    · cases ht
    · exact List.mem_singleton.1 ht ▸ htype
  · exact h.hasType_of_substitute ht

theorem candidates_eq (htype : g.schema.HasType type) :
    (g.withSchema s').candidates type = g.candidates type := by
  rw [candidates, candidates, schema_withSchema, substitutes_withSchema, h.widens.complex?_eq htype]

/-! Fields. -/

theorem addField_eq (htype : g.schema.HasType type) (spot : Spot) (owner : Owner) (path : String)
    (occurs : Occurs) :
    (g.withSchema s').addField spot type owner path occurs = g.addField spot type owner path occurs := by
  have hlist := h.widens.isList_eq htype
  have hbuiltin := h.widens.builtinKind_eq h.closed htype
  have hdatatype : (g.withSchema s').datatype type = g.datatype type := by
    rw [datatype, datatype, schema_withSchema, hlist, hbuiltin]
  have hkind : (g.withSchema s').valueKind type = g.valueKind type := by
    rw [valueKind, valueKind, schema_withSchema, hbuiltin, h.widens.range_eq h.closed htype]
  have hitems : (g.schema.listItem type).map s'.enumeration =
      (g.schema.listItem type).map g.schema.enumeration :=
    Option.map_congr fun item hitem => h.widens.enumeration_eq h.closed (h.closed.listItem hitem)
  have hcontrol (bind : String) :
      (g.withSchema s').fieldControl type bind = g.fieldControl type bind := by
    rw [fieldControl, fieldControl, schema_withSchema, hlist, h.widens.listItem_eq htype, hitems,
      h.widens.enumeration_eq h.closed htype, hkind]
    rfl
  unfold addField
  simp only [hdatatype, hcontrol]
  rfl

theorem typeValue_eq (htype : g.schema.HasType type) :
    (g.withSchema s').typeValue type = g.typeValue type := by
  rw [typeValue, typeValue, schema_withSchema, h.widens.typeDef type htype,
    h.widens.displayName_eq htype]

theorem typeChoices_eq {types : List TypeId} (htypes : ∀ t ∈ types, g.schema.HasType t) :
    (g.withSchema s').typeChoices types = g.typeChoices types := by
  induction types with
  | nil => rfl
  | cons t types ih =>
    have ht := htypes t List.mem_cons_self
    rw [typeChoices, typeChoices, schema_withSchema, h.typeValue_eq ht, h.widens.displayName_eq ht,
      ih fun other hother => htypes other (List.mem_cons_of_mem _ hother)]

theorem applyRelevance_eq (htype : g.schema.HasType type) (bind : NodeId)
    (existing reused : List NodeId) :
    (g.withSchema s').applyRelevance bind existing reused type =
      g.applyRelevance bind existing reused type := by
  have hconditions : ∀ types : List TypeId, (∀ t ∈ types, g.schema.HasType t) →
      (g.withSchema s').typeConditions types = g.typeConditions types := by
    intro types htypes
    induction types with
    | nil => rfl
    | cons t types ih =>
      rw [typeConditions, typeConditions, h.typeValue_eq (htypes t List.mem_cons_self),
        ih fun other hother => htypes other (List.mem_cons_of_mem _ hother)]
  rw [applyRelevance, applyRelevance, substitutes_withSchema, hconditions]
  intro t ht
  rcases List.mem_cons.1 ht with rfl | ht
  · exact htype
  · exact h.hasType_of_substitute ht

/-! Content. -/

section Content

variable {child child' : ChildAdder} (hchild : SameChildren g.schema child child') {f : Filling}
  (howner : g.schema.HasElement f.owner) (htype : g.schema.HasType f.type) (area : NodeId)
  (e : Element)

include howner htype in
theorem addText_eq (t : ComplexType) : (g.withSchema s').addText f t area = g.addText f t area := by
  unfold addText
  rw [schema_withSchema, h.widens.element f.owner howner, h.widens.simpleContent_eq h.closed htype]
  cases hvalue : g.schema.simpleContent f.type with
  | none => cases t.content <;> rfl
  | some value =>
    have hfield := h.addField_eq (h.closed.simpleContent hvalue) ⟨f.bind, area⟩
    cases t.content with
    | simple => exact hfield _ _ _
    | mixed => exact hfield _ _ _
    | empty => rfl
    | elementOnly => rfl

omit h in
theorem reuses_withSchema : (g.withSchema s').reuses = g.reuses := rfl

include htype in
theorem addUse_eq {id : UseId} (hid : g.schema.HasUse id) :
    (g.withSchema s').addUse f area e id = g.addUse f area e id := by
  unfold addUse
  simp only [schema_withSchema, h.widens.use id hid, h.widens.inheritsUse_eq h.closed htype,
    reuses_withSchema]
  cases hvalue : (g.schema.use id).decl.type with
  | none => rfl
  | some value => simp only [h.addField_eq (h.closed.useType hvalue)]

include htype in
theorem addUses_eq {ids : List UseId} (hids : ∀ id ∈ ids, g.schema.HasUse id) :
    (g.withSchema s').addUses f area e ids = g.addUses f area e ids := by
  induction ids generalizing e with
  | nil => rfl
  | cons id ids ih =>
    rw [addUses, addUses, h.addUse_eq htype area e (hids id List.mem_cons_self)]
    exact bind_congr fun e => ih e fun other hother => hids other (List.mem_cons_of_mem _ hother)

include hchild htype in
theorem addChildElement_eq {id : ElementId} (hid : g.schema.HasElement id) (occurs : Occurs) :
    (g.withSchema s').addChildElement child' f area e id occurs =
      g.addChildElement child f area e id occurs := by
  unfold addChildElement
  simp only [schema_withSchema, h.widens.element id hid, h.widens.inheritsElement_eq h.closed htype,
    reuses_withSchema, hchild _ _ id _ _ hid]

omit hchild howner htype h area e in
mutual

theorem addParticle_eq (h : g.Widened s') (hchild : SameChildren g.schema child child')
    (howner : g.schema.HasElement f.owner) (htype : g.schema.HasType f.type) (area : NodeId)
    (e : Element) (p : Particle) (hp : ∀ id ∈ p.elementIds, g.schema.HasElement id) :
    addParticle (g.withSchema s') child' f area e p = addParticle g child f area e p := by
  cases p with
  | element occurs id =>
    rw [addParticle, addParticle]
    exact h.addChildElement_eq hchild htype area e (hp id (by simp [Particle.elementIds])) occurs
  | group occurs compositor members =>
    rw [Particle.elementIds] at hp
    rw [addParticle, addParticle]
    exact bind_congr fun area => addParticles_eq h hchild howner htype area e members hp
  | wildcard occurs w =>
    rw [addParticle, addParticle, schema_withSchema, h.widens.element f.owner howner]

theorem addParticles_eq (h : g.Widened s') (hchild : SameChildren g.schema child child')
    (howner : g.schema.HasElement f.owner) (htype : g.schema.HasType f.type) (area : NodeId)
    (e : Element) (ps : List Particle)
    (hps : ∀ id ∈ Particle.elementIdsOf ps, g.schema.HasElement id) :
    addParticles (g.withSchema s') child' f area e ps = addParticles g child f area e ps := by
  cases ps with
  | nil => rw [addParticles, addParticles]
  | cons p ps =>
    rw [Particle.elementIdsOf] at hps
    rw [addParticles, addParticles, addParticle_eq h hchild howner htype area e p fun id hid =>
      hps id (List.mem_append_left _ hid)]
    exact bind_congr fun e => addParticles_eq h hchild howner htype area e ps fun id hid =>
      hps id (List.mem_append_right _ hid)

end

include hchild howner htype in
theorem addComplex_eq (occurs : Occurs) :
    (g.withSchema s').addComplex child' f area e occurs = g.addComplex child f area e occurs := by
  unfold addComplex
  rw [schema_withSchema, h.widens.complex?_eq htype, h.widens.element f.owner howner]
  cases ht : g.schema.complex? f.type with
  | none => rfl
  | some t =>
    have helements := h.closed.complexElements ht
    have hmodel (area : NodeId) (e : Element) :
        (g.withSchema s').addContentModel child' f area e t = g.addContentModel child f area e t := by
      unfold addContentModel
      cases hparticle : t.particle with
      | none => rfl
      | some p =>
        rw [hparticle] at helements
        cases p with
        | element => rfl
        | wildcard => rfl
        | group occurs compositor members =>
          exact h.addParticle_eq hchild howner htype area e _ helements
    dsimp only
    simp only [h.addText_eq howner htype, h.addUses_eq htype _ _ (h.closed.complexUses ht), hmodel]
    rfl

end Content

/-! Elements. -/

section Expansion

variable {child child' : ChildAdder} (hchild : SameChildren g.schema child child')
  {owner : ElementId} (howner : g.schema.HasElement owner) {declared : TypeId}
  (hdeclared : g.schema.HasType declared) (spot : Spot) (e : Element) (path : String)
  (occurs : Occurs)
include hchild howner

theorem addCase_eq {switch bind : NodeId} (isFirst : Bool) {t : TypeId} (ht : g.schema.HasType t)
    (caseId : String) :
    (g.withSchema s').addCase child' switch bind owner declared isFirst e t caseId =
      g.addCase child switch bind owner declared isFirst e t caseId := by
  unfold addCase
  rw [schema_withSchema, h.widens.displayName_eq ht, h.widens.element owner howner]
  simp only [h.addComplex_eq hchild (f := ⟨bind, t, owner, decide (t ≠ declared)⟩) howner ht,
    h.applyRelevance_eq ht]
  rfl

theorem addCases_eq {switch bind : NodeId} (isFirst : Bool) {cases : List (TypeId × String)}
    (hcases : ∀ c ∈ cases, g.schema.HasType c.1) :
    (g.withSchema s').addCases child' switch bind owner declared isFirst e cases =
      g.addCases child switch bind owner declared isFirst e cases := by
  induction cases generalizing isFirst e with
  | nil => rfl
  | cons c cases ih =>
    obtain ⟨t, caseId⟩ := c
    rw [addCases, addCases, h.addCase_eq hchild howner e isFirst (hcases _ List.mem_cons_self)]
    exact bind_congr fun e => ih e false fun other hother => hcases other (List.mem_cons_of_mem _ hother)

include hdeclared

theorem addSwitch_eq {types : List TypeId} (htypes : ∀ t ∈ types, g.schema.HasType t) :
    (g.withSchema s').addSwitch child' spot e owner declared types path occurs =
      g.addSwitch child spot e owner declared types path occurs := by
  have hfirst : g.schema.HasType (types.headD declared) := by
    cases types with
    | nil => exact hdeclared
    | cons t types => exact htypes t List.mem_cons_self
  have hcases {switch bind : NodeId} (e : Element) (ids : List String) :
      (g.withSchema s').addCases child' switch bind owner declared true e (types.zip ids) =
        g.addCases child switch bind owner declared true e (types.zip ids) :=
    h.addCases_eq hchild howner e true fun c hc => htypes c.1 (List.of_mem_zip hc).1
  unfold addSwitch
  simp only [schema_withSchema, h.widens.element owner howner, h.typeChoices_eq htypes,
    h.typeValue_eq hfirst, hcases]
  rfl

omit hdeclared in
theorem addPlain_eq {resolved : TypeId} (hresolved : g.schema.HasType resolved) :
    (g.withSchema s').addPlain child' spot e owner declared resolved path occurs =
      g.addPlain child spot e owner declared resolved path occurs := by
  have hcomplex (bind : NodeId) (e : Element) :=
    h.addComplex_eq hchild (f := ⟨bind, resolved, owner, false⟩) howner hresolved spot.area e occurs
  unfold addPlain
  simp only [h.typeValue_eq hresolved, hcomplex]

end Expansion

theorem addTyped_eq {child child' : ChildAdder} (hchild : SameChildren g.schema child child')
    {owner : ElementId} (howner : g.schema.HasElement owner) {declared : TypeId}
    (hdeclared : g.schema.HasType declared) (spot : Spot) (e : Element) (path : String)
    (occurs : Occurs) :
    (g.withSchema s').addTyped child' spot e owner declared path occurs =
      g.addTyped child spot e owner declared path occurs := by
  have hcandidate (t : TypeId) (ht : t ∈ g.candidates declared) := h.hasType_of_candidate hdeclared ht
  unfold addTyped
  rw [h.candidates_eq hdeclared]
  split
  · exact h.addPlain_eq hchild howner spot e path occurs hdeclared
  · next resolved hone =>
    exact h.addPlain_eq hchild howner spot e path occurs
      (hcandidate resolved (hone ▸ List.mem_cons_self))
  · exact h.addSwitch_eq hchild howner hdeclared spot e path occurs hcandidate

theorem expand_eq {child child' : ChildAdder} (hchild : SameChildren g.schema child child') :
    SameChildren g.schema (g.expand child) ((g.withSchema s').expand child') := by
  intro spot e id path occurs hid
  have helement := h.widens.element id hid
  cases htype : (g.schema.element id).type with
  | none =>
    unfold expand
    simp only [schema_withSchema, helement, htype]
  | some t =>
    have ht := h.closed.elementType htype
    have htype' : ((g.withSchema s').schema.element id).type = some t := by
      rw [schema_withSchema, helement, htype]
    cases hcomplex : (g.schema.complex? t).isNone with
    | true =>
      unfold expand
      simp only [schema_withSchema, helement, htype, h.widens.complex?_eq ht, hcomplex,
        h.addField_eq ht, if_true]
    | false =>
      have hcomplex' : ((g.withSchema s').schema.complex? t).isNone = false := by
        rw [schema_withSchema, h.widens.complex?_eq ht, hcomplex]
      rw [expand_typed _ spot e path occurs htype hcomplex,
        expand_typed _ spot e path occurs htype' hcomplex', h.addTyped_eq hchild hid ht]
      simp only [recursion, schema_withSchema, helement, h.widens.displayName_eq ht]

theorem addElement_eq (openings : Nat) :
    SameChildren g.schema (g.addElement openings) ((g.withSchema s').addElement openings) := by
  induction openings with
  | zero => exact fun _ _ _ _ _ _ => rfl
  | succ openings ih => exact h.expand_eq ih

/-- The openings that a graph has more with more behind it are never used. -/
theorem addElement_widens : SameChildren g.schema (g.addElement (g.schema.elements.size + 1))
    ((g.withSchema s').addElement (s'.elements.size + 1)) := by
  obtain ⟨extra, hextra⟩ := Nat.exists_eq_add_of_le h.widens.elements
  have hbudget := g.addWithin_eq (fun _ _ _ _ _ => return none) extra
  rw [addWithin_none, Nat.add_right_comm, ← hextra] at hbudget
  rw [← hbudget]
  exact h.addElement_eq _

theorem build_eq (r : Request) {root : ElementId} (hroot : g.schema.HasElement root)
    (nsPrefix : Option String) (rootName : String) :
    (g.withSchema s').build r root nsPrefix rootName = g.build r root nsPrefix rootName := by
  unfold build
  simp only [schema_withSchema, h.widens.element root hroot, h.addElement_widens _ _ root _ _ hroot]
  rfl

theorem generate_eq (time : String) (r : Request) :
    (g.withSchema s').generate time r = g.generate time r := by
  unfold generate
  simp only [schema_withSchema, Schema.findElement, h.widens.elementNames, h.widens.target]
  cases hroot : g.schema.elementNames.get? (QName.of g.schema.target r.root) with
  | none => rfl
  | some root =>
    have hhas := h.closed.findElement hroot
    simp only [h.widens.element root hhas, h.build_eq r hhas]

end Widened

end Generator

namespace Schema

open Loader

/-- A document that loads gives a well-formed graph.  All numbers in it, at any depth, are those of
something in it.  Each type that is declared, with a name or without one, is built, and its
definition is what its declaration gives; no complex type is there but such a one.  An element that
is declared in the content of a type is governed by a particle of its own.  And neither the
substitutes nor any form ever depend on a number that leads out of the graph: whatever lies beyond
its range, they are the same. -/
theorem well_formed_of_loaded {document : Option Element} {s : Schema}
    (h : Schema.ofDocument document = .ok s) :
    s.Closed ∧ s.HasType anyType ∧
    (∃ root c s₀ p, document = some root ∧ declarations root = .ok (c, s₀) ∧ run root = .ok p ∧
      p.schema = s ∧
      (∀ id e, Loader.Declares c p id e → (id, .built) ∈ p.notes ∧ MadeFrom c e id (s.typeDef id)) ∧
      ∀ id, (s.complex? id).isSome → ∃ e, Loader.Declares c p id e) ∧
    (∀ id type, s.HasElement id → (s.element id).enclosing = some type →
      ∃ occurs, s.governingParticle id = some (.element occurs id)) ∧
    ∀ s', s.Widens s' → Substitutes.ofSchema s' = Substitutes.ofSchema s ∧
      ∀ settings layout time r, (Generator.ofSchema s' settings layout).generate time r =
        (Generator.ofSchema s settings layout).generate time r := by
  obtain ⟨root, p, hdocument, hrun, rfl⟩ := run_of_document h
  obtain ⟨c, s₀, hd⟩ := declarations_of_run hrun
  have hregular := regular_run hd hrun
  refine ⟨hregular.closed, hregular.pos, ⟨root, c, s₀, p, hdocument, hd, hrun, rfl,
    fun id e he => ⟨built_of_declares hd hrun he, made_of_declares hd hrun he⟩, fun id hid => ?_⟩,
    fun id type hid htype => (placed_run hd hrun hid).governed htype, fun s' hs' => ?_⟩
  · exact declared_of_complex hd hrun hid
  · have hsubstitutes := Substitutes.ofSchema_widens hs' hregular.closed
    refine ⟨hsubstitutes, fun settings layout time r => ?_⟩
    have hgenerate := Generator.Widened.generate_eq
      (g := Generator.ofSchema p.schema settings layout) ⟨hs', hregular.closed, rfl⟩ time r
    rw [← hgenerate, Generator.ofSchema, hsubstitutes]
    rfl

/-- An element of a type without a name, whose content is an extension of the type `B` of its child
element. -/
def nestedDocument : Element :=
  xsd "schema" [] [
    xsd "complexType" [("name", "B")] [
      xsd "sequence" [] [xsd "element" [("name", "a"), ("type", "B"), ("minOccurs", "0")] []]],
    xsd "element" [("name", "root")] [
      xsd "complexType" [] [
        xsd "complexContent" [] [
          xsd "extension" [("base", "B")] [
            xsd "sequence" [] [xsd "element" [("name", "b"), ("type", "B")] []]]]]]]

/-- A type and an element that refer to numbers of nothing. -/
def strayType : TypeDef :=
  .complex { base := some ⟨99⟩, uses := [⟨99⟩], particle := some (.element .once ⟨99⟩) }

def strayElement : ElementDecl := { name := ⟨none, "a"⟩, type := some ⟨99⟩, enclosing := some ⟨99⟩ }

set_option maxRecDepth 100000 in
theorem well_formed_of_loaded_nested : ∃ s, Schema.ofDocument (some nestedDocument) = .ok s ∧
    s.Closed ∧ (s.element ⟨2⟩).name = ⟨none, "b"⟩ ∧
    (∃ occurs, s.governingParticle ⟨2⟩ = some (.element occurs ⟨2⟩)) ∧
    ∀ settings layout time r, (Generator.ofSchema (s.extended strayType strayElement default)
      settings layout).generate time r =
        (Generator.ofSchema s settings layout).generate time r := by
  have hload : ((Schema.ofDocument (some nestedDocument)).toOption.bind fun s =>
      some (s.types.size, s.elements.size, (s.element ⟨2⟩).name, (s.element ⟨2⟩).enclosing)) =
      some (48, 3, ⟨none, "b"⟩, some ⟨47⟩) := by
    decide +kernel
  obtain ⟨s, hs, hfacts⟩ := Loader.exists_ok hload
  simp only [Option.some.injEq, Prod.mk.injEq] at hfacts
  obtain ⟨htypes, helements, hname, henclosing⟩ := hfacts
  obtain ⟨hclosed, -, -, hgoverned, hbeyond⟩ := well_formed_of_loaded hs
  refine ⟨s, hs, hclosed, hname, hgoverned ⟨2⟩ ⟨47⟩ ?_ henclosing, (hbeyond _ ?_).2⟩
  · change 2 < s.elements.size
    omega
  · refine Widens.of_extended ?_ rfl _ _
    rw [htypes]
    decide

end Schema

end SchemaForms
