import SchemaForms.Proofs.Schema.Bounds
import SchemaForms.Proofs.Schema.Loaded

/-!
Bounds in loaded schemas.  Each step of loading that gives a particle gives one of which all bounds
are in order, at every depth, and leaves only such particles in the graph: the bounds are read in
order, a reference to a group puts its own in their place, and an extension puts the particles of the
base and its own into a sequence that stands once.  Main statement: bounds are read as they are
written, and no particle of a loaded schema has its least number above its greatest.
-/

namespace SchemaForms

open SchemaForms.Xml
open SchemaForms.Source (parts part?)
open Loader (xsd)

namespace Occurs

theorem ordered_once : once.Ordered := fun _ h => by
  cases h
  exact Nat.le_refl 1

/-- Bounds that can be read are in order. -/
theorem ordered_of_parse {minOccurs maxOccurs : Option String} {o : Occurs}
    (h : parse minOccurs maxOccurs = .ok o) : o.Ordered := by
  intro n hn
  have hmax := (parse_eq_ok_iff.1 h).2
  rw [hn] at hmax
  cases maxOccurs with
  | none =>
    cases hmax.2
    exact hmax.1
  | some text => exact hmax.2

end Occurs

namespace Particle

mutual

/-- A particle and all that are nested in it. -/
def nested : Particle → List Particle
  | .element o id => [.element o id]
  | .group o c members => .group o c members :: nestedIn members
  | .wildcard o w => [.wildcard o w]

def nestedIn : List Particle → List Particle
  | [] => []
  | p :: ps => nested p ++ nestedIn ps

end

theorem mem_nestedIn {x : Particle} {ps : List Particle} :
    x ∈ nestedIn ps ↔ ∃ p ∈ ps, x ∈ p.nested := by
  induction ps with
  | nil => simp [nestedIn]
  | cons p ps ih => simp [nestedIn, ih]

/-- All bounds are in order, at every depth. -/
def Ordered (p : Particle) : Prop := ∀ x ∈ p.nested, x.occurs.Ordered

theorem ordered_element {o : Occurs} (h : o.Ordered) (id : ElementId) :
    (Particle.element o id).Ordered := fun x hx => by
  rw [List.mem_singleton.1 hx]
  exact h

theorem ordered_wildcard {o : Occurs} (h : o.Ordered) (w : Wildcard) :
    (Particle.wildcard o w).Ordered := fun x hx => by
  rw [List.mem_singleton.1 hx]
  exact h

theorem ordered_group_iff {o : Occurs} {c : Compositor} {members : List Particle} :
    (Particle.group o c members).Ordered ↔ o.Ordered ∧ ∀ p ∈ members, p.Ordered := by
  simp only [Ordered, nested, List.forall_mem_cons, mem_nestedIn, occurs, forall_exists_index,
    and_imp]
  exact and_congr_right fun _ => ⟨fun h p hp x => h x p hp, fun h x p hp => h p hp x⟩

/-- Other bounds may be put in the place of those of the particle itself. -/
theorem Ordered.withOccurs {p : Particle} (h : p.Ordered) {o : Occurs} (ho : o.Ordered) :
    (p.withOccurs o).Ordered := by
  cases p with
  | element _ id => exact ordered_element ho id
  | group _ c members => exact ordered_group_iff.2 ⟨ho, (ordered_group_iff.1 h).2⟩
  | wildcard _ w => exact ordered_wildcard ho w

end Particle

/-- All bounds in the content model of a complex type are in order. -/
def ComplexType.Ordered (t : ComplexType) : Prop := ∀ p ∈ t.particle, p.Ordered

def TypeDef.Ordered (t : TypeDef) : Prop := ∀ c ∈ t.complex?, c.Ordered

theorem TypeDef.Ordered.simple (t : SimpleType) : (TypeDef.simple t).Ordered := fun _ hc => by
  cases hc

theorem TypeDef.Ordered.complex {t : ComplexType} (h : t.Ordered) : (TypeDef.complex t).Ordered :=
  fun _ hc => Option.some.inj hc ▸ h

/-- All bounds in the content models of a graph are in order. -/
def Schema.Ordered (s : Schema) : Prop := ∀ id, ∀ t ∈ s.complex? id, t.Ordered

namespace Schema

theorem Ordered.of_types_eq {s s' : Schema} (h : s.Ordered) (htypes : s'.types = s.types) :
    s'.Ordered := by
  intro id t ht
  rw [complex?, typeDef, htypes] at ht
  exact h id t ht

theorem Ordered.addType {s : Schema} (h : s.Ordered) {t : TypeDef}
    (ht : t.Ordered) : (s.addType t).2.Ordered := by
  intro id c hc
  rw [complex?, Loader.typeDef_addType] at hc
  split at hc
  · exact ht c hc
  · exact h id c hc

theorem Ordered.setType {s : Schema} (h : s.Ordered) (id : TypeId) {t : TypeDef}
    (ht : t.Ordered) : (s.setType id t).Ordered := by
  by_cases hid : id.index < s.types.size
  · intro other c hc
    rw [complex?, Loader.typeDef_setType s t hid] at hc
    split at hc
    · exact ht c hc
    · exact h other c hc
  · exact h.of_types_eq (Array.setIfInBounds_eq_of_size_le (Nat.not_lt.1 hid))

end Schema

namespace Loader

/-- The step keeps all bounds in order, and of its answer `Q` holds. -/
def Orders {α : Type} (f : Load α) (Q : α → Prop) : Prop :=
  ∀ ⦃p : Progress⦄ ⦃a : α⦄ ⦃q : Progress⦄, p.schema.Ordered → f p = .ok (a, q) →
    q.schema.Ordered ∧ Q a

/-- Of the answer nothing more is said. -/
def Any {α : Type} (_ : α) : Prop := True

namespace Orders

variable {α β : Type} {P Q : α → Prop} {R : β → Prop}

theorem pure {a : α} (ha : Q a) : Orders (pure a : Load α) Q := by
  intro p b q hp h
  obtain ⟨rfl, rfl⟩ := pure_ok h
  exact ⟨hp, ha⟩

theorem fail (problem : SchemaProblem) : Orders (Loader.fail problem : Load α) Q := by
  intro p a q _ h
  cases h

theorem lift {x : Except Fault α} (hx : ∀ a, x = .ok a → Q a) : Orders (liftM x : Load α) Q := by
  intro p a q hp h
  obtain ⟨ha, rfl⟩ := lift_ok h
  exact ⟨hp, hx a ha⟩

theorem get : Orders (get : Load Progress) (·.schema.Ordered) := by
  intro p s q hp h
  obtain ⟨rfl, rfl⟩ := get_ok h
  exact ⟨hp, hp⟩

theorem bind {f : Load α} {k : α → Load β} (hf : Orders f P) (hk : ∀ a, P a → Orders (k a) R) :
    Orders (f >>= k) R := by
  intro p b r hp h
  obtain ⟨a, q, hfq, hkr⟩ := bind_ok h
  obtain ⟨hq, ha⟩ := hf hp hfq
  exact hk a ha hq hkr

/-- After a step whose answer does not matter. -/
theorem after {f : Load α} {k : α → Load β} (hf : Orders f P) (hk : ∀ a, Orders (k a) R) :
    Orders (f >>= k) R :=
  hf.bind fun a _ => hk a

theorem modify {g : Progress → Progress} (hg : ∀ p, p.schema.Ordered → (g p).schema.Ordered) :
    Orders (modify g : Load Unit) Any := by
  intro p a q hp h
  cases h
  exact ⟨hg p hp, trivial⟩

theorem addType {t : TypeDef} (ht : t.Ordered) :
    Orders (Loader.addType t) Any := by
  intro p id q hp h
  cases h
  exact ⟨hp.addType ht, trivial⟩

theorem setType (id : TypeId) {t : TypeDef} (ht : t.Ordered) :
    Orders (Loader.setType id t) Any :=
  modify fun _ hp => hp.setType id ht

theorem note (id : TypeId) (state : BuildState) : Orders (Loader.note id state) Any :=
  modify fun _ hp => hp

theorem declare (id : TypeId) (e : Element) : Orders (Loader.declare id e) Any :=
  modify fun _ hp => hp

theorem addElement (decl : ElementDecl) : Orders (Loader.addElement decl) Any := by
  intro p id q hp h
  cases h
  exact ⟨hp.of_types_eq rfl, trivial⟩

theorem addUse (use : AttributeUse) : Orders (Loader.addUse use) Any := by
  intro p id q hp h
  cases h
  exact ⟨hp.of_types_eq rfl, trivial⟩

end Orders

/-- All bounds in a content model, if there is one, are in order. -/
def OrderedModel (model : Option Particle) : Prop := ∀ p ∈ model, p.Ordered

theorem orderedModel_none : OrderedModel none := fun _ hp => by cases hp

/-- Builders all of whose steps keep bounds in order. -/
structure OrderingBuilders (b : Builders) : Prop where
  ensure : ∀ ctx id, Orders (b.ensure ctx id) Any
  complexType : ∀ ctx e id name, Orders (b.complexType ctx e id name) ComplexType.Ordered
  simpleType : ∀ ctx e name, Orders (b.simpleType ctx e name) Any
  particle : ∀ ctx enclosing e, Orders (b.particle ctx enclosing e) OrderedModel
  uses : ∀ ctx e, Orders (b.uses ctx e) Any

section Steps

variable {b : Builders} (hb : OrderingBuilders b) (ctx : Context)
include hb

theorem orders_resolveType (e : Element) (reference : String) :
    Orders (resolveType b ctx e reference) Any := by
  unfold resolveType
  split
  · exact .pure trivial
  · refine Orders.get.after fun p => ?_
    split
    · exact .pure trivial
    · exact (hb.ensure ctx _).after fun _ => .pure trivial

theorem orders_anonymousSimple (e : Element) : Orders (anonymousSimple b ctx e) Any :=
  (hb.simpleType ctx e none).after fun t => .addType (.simple t)

theorem orders_anonymousComplex (e : Element) : Orders (anonymousComplex b ctx e) Any := by
  have hbare : ComplexType.Ordered {} := fun _ hp => by cases hp
  exact (Orders.addType (.complex hbare)).after fun id => (Orders.declare id e).after fun _ =>
    (Orders.note id _).after fun _ => (hb.complexType ctx e id none).bind fun _ ht =>
      (Orders.setType id (.complex ht)).after fun _ =>
        (Orders.note id _).after fun _ => .pure trivial

theorem orders_globalDef (e : Element) (id : TypeId) (name : Option QName) :
    Orders (globalDef b ctx e id name) TypeDef.Ordered := by
  unfold globalDef
  split
  · exact (hb.complexType ctx e id name).bind fun _ ht => .pure (.complex ht)
  · exact (hb.simpleType ctx e name).after fun t => .pure (.simple t)

theorem orders_ensureType (id : TypeId) : Orders (ensureType b ctx id) Any := by
  refine Orders.get.after fun p => ?_
  split
  · exact .pure trivial
  · split
    · exact .pure trivial
    · exact (Orders.note id _).after fun _ => (orders_globalDef hb ctx _ id _).bind fun t ht =>
        (Orders.setType id ht).after fun _ => .note id _

theorem orders_namedOrInline (e : Element) (key : String) :
    Orders (namedOrInline b ctx e key) Any := by
  unfold namedOrInline
  split
  · exact orders_resolveType hb ctx e _
  · split
    · exact (orders_anonymousSimple hb ctx _).after fun _ => .pure trivial
    · exact .pure trivial

omit hb in
theorem orders_anySimpleType : Orders anySimpleType Any :=
  Orders.get.after fun _ => .pure trivial

theorem orders_unionMembers (e : Element) (references : List String) :
    Orders (unionMembers b ctx e references) Any := by
  induction references with
  | nil => exact .pure trivial
  | cons reference rest ih =>
    exact (orders_resolveType hb ctx e reference).after fun _ => ih.after fun _ => .pure trivial

theorem orders_inlineMembers (es : List Element) : Orders (inlineMembers b ctx es) Any := by
  induction es with
  | nil => exact .pure trivial
  | cons e es ih =>
    exact (orders_anonymousSimple hb ctx e).after fun _ => ih.after fun _ => .pure trivial

theorem orders_simpleType (e : Element) (name : Option QName) :
    Orders (simpleType b ctx e name) Any := by
  unfold simpleType
  split
  · next d _ =>
    split
    · exact (orders_namedOrInline hb ctx d _).after fun _ => Orders.get.after fun _ => .pure trivial
    · split
      · exact orders_anySimpleType.after fun _ =>
          (orders_namedOrInline hb ctx d _).after fun _ => .pure trivial
      · exact orders_anySimpleType.after fun _ => (orders_unionMembers hb ctx d _).after fun _ =>
          (orders_inlineMembers hb ctx _).after fun _ => .pure trivial
  · exact .fail _

theorem orders_elementType (e : Element) : Orders (elementType b ctx e) Any := by
  unfold elementType
  split
  · exact orders_resolveType hb ctx e _
  · split
    · exact (orders_anonymousComplex hb ctx _).after fun _ => .pure trivial
    · split
      · exact (orders_anonymousSimple hb ctx _).after fun _ => .pure trivial
      · exact .pure trivial

theorem orders_elementDecl (e : Element) (name : QName) (enclosing : Option TypeId) :
    Orders (elementDecl b ctx e name enclosing) Any :=
  (orders_elementType hb ctx e).after fun _ => .pure trivial

theorem orders_localElement (enclosing : TypeId) (e : Element) :
    Orders (localElement b ctx enclosing e) Any := by
  unfold localElement
  split
  · exact Orders.get.after fun _ => .pure trivial
  · split
    · exact .fail _
    · exact (orders_elementDecl hb ctx e _ _).after fun _ =>
        (Orders.addElement _).after fun _ => .pure trivial

/-! Particles. -/

theorem orders_members (enclosing : TypeId) (es : List Element) :
    Orders (members b ctx enclosing es) fun ps => ∀ p ∈ ps, p.Ordered := by
  induction es with
  | nil => exact .pure fun _ hp => by cases hp
  | cons e es ih =>
    refine (hb.particle ctx enclosing e).bind fun first hfirst => ih.bind fun ps hps => .pure ?_
    intro p hp
    rcases List.mem_append.1 hp with hp | hp
    · exact hfirst p (Option.mem_toList.1 hp)
    · exact hps p hp

theorem orders_groupReference (enclosing : TypeId) {bounds : Occurs} (hbounds : bounds.Ordered)
    (e : Element) : Orders (groupReference b ctx enclosing bounds e) OrderedModel := by
  unfold groupReference
  split
  · exact .fail _
  · split
    · exact .pure orderedModel_none
    · split
      · exact .pure orderedModel_none
      · split
        · exact .pure orderedModel_none
        · split
          · exact .pure orderedModel_none
          · refine (hb.particle _ enclosing _).bind fun model hmodel => .pure fun p hp => ?_
            obtain ⟨content, hcontent, rfl⟩ := Option.map_eq_some_iff.1 hp
            exact (hmodel content hcontent).withOccurs hbounds

omit hb in
/-- The bounds of an element are in order, wherever loading goes on from them. -/
theorem orders_occurs (e : Element) :
    Orders (liftM (Source.occurs e) : Load Occurs) Occurs.Ordered := by
  refine .lift fun bounds h => ?_
  unfold Source.occurs at h
  cases hparse : Occurs.parse (e.attribute? "minOccurs") (e.attribute? "maxOccurs") with
  | error problem =>
    rw [hparse] at h
    cases h
  | ok o =>
    rw [hparse] at h
    cases h
    exact Occurs.ordered_of_parse hparse

theorem orders_particle (enclosing : TypeId) (e : Element) :
    Orders (particle b ctx enclosing e) OrderedModel := by
  refine (orders_occurs e).bind fun bounds hbounds => ?_
  split
  · refine (orders_members hb ctx enclosing _).bind fun ps hps => .pure ?_
    rintro p ⟨⟩
    exact Particle.ordered_group_iff.2 ⟨hbounds, hps⟩
  · split
    · refine (orders_localElement hb ctx enclosing e).after fun id => .pure fun p hp => ?_
      obtain ⟨id, -, rfl⟩ := Option.map_eq_some_iff.1 hp
      exact Particle.ordered_element hbounds id
    · split
      · exact orders_groupReference hb ctx enclosing hbounds e
      · split
        · refine .pure ?_
          rintro p ⟨⟩
          exact Particle.ordered_wildcard hbounds _
        · exact .pure orderedModel_none

theorem orders_contentModel (enclosing : TypeId) (e : Element) :
    Orders (contentModel b ctx enclosing e) OrderedModel := by
  unfold contentModel
  split
  · exact hb.particle ctx enclosing _
  · exact .pure orderedModel_none

/-! Attributes. -/

theorem orders_attributeDecl (e : Element) (isGlobal : Bool) :
    Orders (attributeDecl b ctx e isGlobal) Any := by
  unfold attributeDecl
  split
  · exact .fail _
  · dsimp only
    split
    · exact orders_anySimpleType.after fun _ => .pure trivial
    · exact (orders_namedOrInline hb ctx e _).after fun _ => .pure trivial

theorem orders_attributeUse (e : Element) : Orders (attributeUse b ctx e) Any := by
  unfold attributeUse
  dsimp only
  split
  · split
    · exact .pure trivial
    · split
      · exact .pure trivial
      · split
        · exact .pure trivial
        · exact (orders_attributeDecl hb ctx _ true).after fun _ =>
            (Orders.addUse _).after fun _ => .pure trivial
  · refine (orders_attributeDecl hb ctx e false).after fun _ => ?_
    split
    · exact .pure trivial
    · exact (Orders.addUse _).after fun _ => .pure trivial

theorem orders_attributeGroup (e : Element) : Orders (attributeGroup b ctx e) Any := by
  unfold attributeGroup
  split
  · exact .pure trivial
  · split
    · exact .pure trivial
    · split
      · exact .pure trivial
      · exact hb.uses _ _

theorem orders_usesOf (es : List Element) : Orders (usesOf b ctx es) Any := by
  induction es with
  | nil => exact .pure trivial
  | cons e es ih =>
    unfold usesOf
    dsimp only
    split
    · exact (orders_attributeUse hb ctx e).after fun _ => ih.after fun _ => .pure trivial
    · split
      · exact (orders_attributeGroup hb ctx e).after fun _ => ih.after fun _ => .pure trivial
      · exact ih.after fun _ => .pure trivial

theorem orders_attributeUses (e : Element) : Orders (attributeUses b ctx e) Any :=
  orders_usesOf hb ctx _

/-! Complex types. -/

theorem orders_derivationOf (d : Element) : Orders (derivationOf b ctx d) Any := by
  unfold derivationOf
  dsimp only
  split
  · exact .fail _
  · exact (orders_resolveType hb ctx d _).after fun _ => .pure trivial

omit hb in
theorem ordered_extendParticle {inherited own : Option Particle}
    (hinherited : OrderedModel inherited) (hown : OrderedModel own) :
    OrderedModel (extendParticle inherited own) := by
  cases inherited with
  | none => exact hown
  | some p =>
    cases own with
    | none => exact hinherited
    | some q =>
      rintro r ⟨⟩
      refine Particle.ordered_group_iff.2 ⟨Occurs.ordered_once, ?_⟩
      simpa using ⟨hinherited p rfl, hown q rfl⟩

theorem orders_simpleContent {bare : ComplexType} (hbare : bare.Ordered) (content : Element) :
    Orders (simpleContent b ctx bare content) ComplexType.Ordered :=
  (Orders.lift fun _ _ => trivial).after fun d => (orders_derivationOf hb ctx d).after fun _ =>
    (orders_attributeUses hb ctx d).after fun _ => Orders.get.after fun _ => .pure hbare

theorem orders_complexContent (id : TypeId) (bare : ComplexType) (mixed : Bool)
    (content : Element) :
    Orders (complexContent b ctx id bare mixed content) ComplexType.Ordered := by
  refine (Orders.lift fun _ _ => trivial).after fun d =>
    (orders_derivationOf hb ctx d).after fun x => (orders_contentModel hb ctx id d).bind
      fun own hown => (orders_attributeUses hb ctx d).after fun _ =>
        Orders.get.bind fun p hp => .pure ?_
  have hinherited : OrderedModel ((x.2.bind p.schema.complex?).bind (·.particle)) := by
    intro q hq
    obtain ⟨c, hc, hq⟩ := Option.mem_bind_iff.1 hq
    obtain ⟨base, -, hc⟩ := Option.mem_bind_iff.1 hc
    exact hp base c hc q hq
  intro q hq
  dsimp only at hq
  split at hq
  · exact ordered_extendParticle hinherited hown q hq
  · exact hown q hq

theorem orders_plainContent (id : TypeId) (bare : ComplexType) (mixed : Bool) (e : Element) :
    Orders (plainContent b ctx id bare mixed e) ComplexType.Ordered :=
  (orders_contentModel hb ctx id e).bind fun _ hmodel =>
    (orders_attributeUses hb ctx e).after fun _ => .pure hmodel

theorem orders_complexType (e : Element) (id : TypeId) (name : Option QName) :
    Orders (complexType b ctx e id name) ComplexType.Ordered := by
  unfold complexType
  split
  · exact orders_simpleContent hb ctx (fun _ hp => by cases hp) _
  · exact orders_complexContent hb ctx id _ _ _
  · exact orders_plainContent hb ctx id _ _ e

end Steps

/-- The builders of every depth keep bounds in order. -/
theorem orderingBuilders (depth : Nat) : OrderingBuilders (builders depth) := by
  induction depth with
  | zero => exact ⟨fun _ _ => .fail _, fun _ _ _ _ => .fail _, fun _ _ _ => .fail _,
      fun _ _ _ => .fail _, fun _ _ => .fail _⟩
  | succ depth ih => exact ⟨orders_ensureType ih, orders_complexType ih, orders_simpleType ih,
      orders_particle ih, orders_attributeUses ih⟩

theorem orders_ensureAll {b : Builders} (hb : OrderingBuilders b) (ctx : Context)
    (types : List (TypeId × Element)) : Orders (ensureAll b ctx types) Any := by
  induction types with
  | nil => exact .pure trivial
  | cons x rest ih => exact (hb.ensure ctx x.1).after fun _ => ih

theorem orders_buildElements {b : Builders} (hb : OrderingBuilders b) (ctx : Context)
    (elements : List (ElementId × Element)) : Orders (buildElements b ctx elements) Any := by
  induction elements with
  | nil => exact .pure trivial
  | cons x rest ih =>
    refine Orders.get.after fun _ => (orders_elementDecl hb ctx x.2 _ none).after fun _ =>
      Orders.after (P := Any) ?_ fun _ => ih
    exact .modify fun _ hp => hp.of_types_eq rfl

theorem orders_buildAll {b : Builders} (hb : OrderingBuilders b) (ctx : Context) :
    Orders (buildAll b ctx) Any :=
  (orders_ensureAll hb ctx _).after fun _ => orders_buildElements hb ctx _

/-- All bounds of a loaded schema are in order. -/
theorem ordered_of_document {document : Option Element} {s : Schema}
    (h : Schema.ofDocument document = .ok s) : s.Ordered := by
  obtain ⟨root, p, -, hrun, rfl⟩ := run_of_document h
  obtain ⟨c, s, hd⟩ := declarations_of_run hrun
  have hstart : s.Ordered := fun id t ht q hq => by
    rw [((takenUp_declarations hd).bare id t ht).1] at hq
    cases hq
  exact (orders_buildAll (orderingBuilders _) c hstart (run_ok hd hrun)).1

end Loader

namespace Schema

/-- Reading a pair of bounds succeeds exactly if they are written as bounds are, with the least number
not above the greatest, and gives what is written; and in every schema that is loaded each particle,
at every depth of the content of every type, has its least number not above its greatest. -/
theorem bounds_in_order :
    (∀ minOccurs maxOccurs o, Occurs.parse minOccurs maxOccurs = .ok o ↔
      Occurs.IsMin minOccurs o.min ∧ Occurs.IsMax o.min maxOccurs o.max) ∧
    ∀ document s, ofDocument document = .ok s → ∀ id t, s.complex? id = some t →
      ∀ p, t.particle = some p → ∀ x ∈ p.nested, x.occurs.Ordered :=
  ⟨fun _ _ _ => Occurs.parse_eq_ok_iff, fun _ _ h => Loader.ordered_of_document h⟩

/-- A type with a reference to a group, under bounds of its own, and an extension of this type. -/
def boundedDocument : Element :=
  xsd "schema" [] [
    xsd "group" [("name", "G")] [
      xsd "choice" [] [xsd "element" [("name", "x"), ("type", "B"), ("minOccurs", " +0 ")] []]],
    xsd "complexType" [("name", "B")] [
      xsd "sequence" [] [xsd "group" [("ref", "G"), ("minOccurs", "2"), ("maxOccurs", "5")] []]],
    xsd "complexType" [("name", "D")] [
      xsd "complexContent" [] [
        xsd "extension" [("base", "B")] [
          xsd "sequence" [] [
            xsd "element" [("name", "y"), ("type", "B"), ("maxOccurs", "unbounded")] []]]]]]

set_option maxRecDepth 100000 in
theorem bounds_in_order_extended :
    (Occurs.parse (some " +2 ") (some "5") = .ok ⟨2, some 5⟩ ∧
      Occurs.IsMin (some " +2 ") 2 ∧ Occurs.IsMax 2 (some "5") (some 5)) ∧
    ∃ s t p, ofDocument (some boundedDocument) = .ok s ∧ s.complex? ⟨47⟩ = some t ∧
      t.particle = some p ∧
      p.nested.map (·.occurs) =
        [.once, .once, ⟨2, some 5⟩, ⟨0, some 1⟩, .once, ⟨1, none⟩] ∧
      ∃ x ∈ p.nested, x.occurs = ⟨2, some 5⟩ ∧ x.occurs.Ordered := by
  have hparse : Occurs.parse (some " +2 ") (some "5") = .ok ⟨2, some 5⟩ := by rfl
  have hload : ((ofDocument (some boundedDocument)).toOption.bind fun s =>
      (s.complex? ⟨47⟩).bind fun t => t.particle.map fun p => p.nested.map (·.occurs)) =
      some [.once, .once, ⟨2, some 5⟩, ⟨0, some 1⟩, .once, ⟨1, none⟩] := by
    decide +kernel
  obtain ⟨s, hs, hfacts⟩ := Loader.exists_ok hload
  obtain ⟨t, ht, hfacts⟩ := Option.bind_eq_some_iff.1 hfacts
  obtain ⟨p, hp, hbounds⟩ := Option.map_eq_some_iff.1 hfacts
  have hmem : (⟨2, some 5⟩ : Occurs) ∈ p.nested.map (·.occurs) := by
    rw [hbounds]
    simp
  obtain ⟨x, hx, hxbounds⟩ := List.mem_map.1 hmem
  obtain ⟨hwritten, hordered⟩ := bounds_in_order
  exact ⟨⟨hparse, (hwritten _ _ _).1 hparse⟩, s, t, p, hs, ht, hp, hbounds, x, hx, hxbounds,
    hordered _ s hs ⟨47⟩ t ht p hp x hx⟩

end Schema

end SchemaForms
