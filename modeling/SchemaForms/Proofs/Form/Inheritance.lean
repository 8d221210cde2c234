import SchemaForms.Proofs.Form.Outline
import SchemaForms.Proofs.Schema.Descent

/-!
Inheritance: which names a type lists, and which of them it has from the types that it is derived
from.  In a type graph where extensions hold the content of their bases, the test for inherited
declarations finds them.
-/

namespace SchemaForms

open Relation (TransGen ReflTransGen)

/-- An extension holds the attributes of its base first, and its content is that of the base or
begins with it. -/
structure ComplexType.Extends (t base : ComplexType) : Prop where
  derivation : t.derivation = .extension
  uses : base.uses <+: t.uses
  particle : t.particle = base.particle ∨ base.particle = none ∨
    ∃ p own, base.particle = some p ∧ t.particle = some (.sequence (p :: own))

/-- A type graph with acyclic base chains and distinct type names, in which complex types extend
their complex bases, and content models are groups in which no name comes twice. -/
structure Schema.Regular (s : Schema) : Prop where
  /-- Number zero is the root of all types. -/
  rooted : s.complex? Schema.anyType = none
  acyclic : s.Acyclic
  distinct : ∀ a b name, (s.complex? a).isSome → (s.complex? b).isSome →
    (s.typeDef a).name? = some name → (s.typeDef b).name? = some name → a = b
  grouped : ∀ t c p, s.complex? t = some c → c.particle = some p →
    ∃ occurs compositor members, p = .group occurs compositor members
  once : ∀ t c, s.complex? t = some c →
    ((Generator.modelChildren c).map fun e => (s.element e.1).name).Nodup
  extending : ∀ t c base d, s.complex? t = some c → c.base = some base →
    s.complex? base = some d → c.Extends d

/-- No content model lists an element name twice. -/
def Schema.ElementsOnce (s : Schema) : Prop :=
  ∀ t c, s.complex? t = some c →
    ((Generator.modelChildren c).map fun e => (s.element e.1).name).Nodup

/-- No type lists an attribute name twice. -/
def Schema.AttributesOnce (s : Schema) : Prop :=
  ∀ t c, s.complex? t = some c → (c.uses.map fun u => (s.use u).decl.name).Nodup

theorem Schema.Regular.substitutes {s : Schema} (hs : s.Regular) : Substitutes.Extending s := by
  intro a b c hc hbase hb
  obtain ⟨d, hd⟩ := Option.isSome_iff_exists.1 hb
  refine ⟨(hs.extending a c b d hc hbase hd).derivation, ?_⟩
  rintro rfl
  rw [hs.rooted] at hd
  cases hd

namespace Particle

mutual

theorem children_subset : ∀ (p : Particle) (c : ElementId × Occurs),
    c ∈ p.children → c.1 ∈ p.elementIds
  | .element occurs id, c, hc => by
    rw [children] at hc
    split at hc
    · cases hc
    · rw [List.mem_singleton.1 hc]
      exact List.mem_singleton_self id
  | .group _ _ members, c, hc => childrenOf_subset members c hc
  | .wildcard _ _, _, hc => nomatch hc

theorem childrenOf_subset : ∀ (ps : List Particle) (c : ElementId × Occurs),
    c ∈ childrenOf ps → c.1 ∈ elementIdsOf ps
  | p :: ps, c, hc => by
    rw [childrenOf, List.mem_append] at hc
    rw [elementIdsOf, List.mem_append]
    exact hc.imp (children_subset p c) (childrenOf_subset ps c)

end

end Particle

/-- The name that a member of a content stands for. -/
def Member.step (s : Schema) : Member → Option PathStep
  | .value => none
  | .use id => some (.attr (s.use id).decl.name)
  | .child id _ => some (.child (s.element id).name)

namespace Generator

variable (g : Generator)

/-- The names of the attributes and elements that a type lists. -/
def listed (t : TypeId) : List PathStep := (g.members t).filterMap (Member.step g.schema)

variable {g} {t base : TypeId} {c : ComplexType}

theorem use_mem_members {id : UseId} :
    Member.use id ∈ g.members t ↔ ∃ c, g.schema.complex? t = some c ∧ id ∈ c.uses := by
  unfold members
  cases g.schema.complex? t with
  | none => simp
  | some c =>
    have hvalue : Member.use id ∉ g.valueMembers t c := by
      unfold valueMembers
      split <;> simp
    simp [hvalue]

theorem child_mem_members {id : ElementId} {occurs : Occurs} :
    Member.child id occurs ∈ g.members t ↔
      ∃ c, g.schema.complex? t = some c ∧ (id, occurs) ∈ modelChildren c := by
  unfold members
  cases g.schema.complex? t with
  | none => simp
  | some c =>
    have hvalue : Member.child id occurs ∉ g.valueMembers t c := by
      unfold valueMembers
      split <;> simp
    simp [hvalue]

theorem attr_mem_listed {name : QName} :
    PathStep.attr name ∈ g.listed t ↔
      ∃ id, Member.use id ∈ g.members t ∧ (g.schema.use id).decl.name = name := by
  rw [listed, List.mem_filterMap]
  constructor
  · rintro ⟨m, hm, hstep⟩
    cases m with
    | value => cases hstep
    | use id => exact ⟨id, hm, by cases hstep; rfl⟩
    | child => cases hstep
  · rintro ⟨id, hm, rfl⟩
    exact ⟨_, hm, rfl⟩

theorem child_mem_listed {name : QName} :
    PathStep.child name ∈ g.listed t ↔
      ∃ id occurs, Member.child id occurs ∈ g.members t ∧ (g.schema.element id).name = name := by
  rw [listed, List.mem_filterMap]
  constructor
  · rintro ⟨m, hm, hstep⟩
    cases m with
    | value => cases hstep
    | use => cases hstep
    | child id occurs => exact ⟨id, occurs, hm, by cases hstep; rfl⟩
  · rintro ⟨id, occurs, hm, rfl⟩
    exact ⟨_, hm, rfl⟩

theorem xsiType_not_mem_listed : PathStep.xsiType ∉ g.listed t := by
  rw [listed, List.mem_filterMap]
  rintro ⟨m, -, hstep⟩
  cases m <;> cases hstep

/-- A type lists no name twice. -/
theorem nodup_listed (hchildren : g.schema.ElementsOnce) (huses : g.schema.AttributesOnce)
    (t : TypeId) :
    (g.listed t).Nodup := by
  unfold listed members
  cases hc : g.schema.complex? t with
  | none => exact List.nodup_nil
  | some c =>
    have hvalue : (g.valueMembers t c).filterMap (Member.step g.schema) = [] := by
      unfold valueMembers
      split <;> rfl
    have hattrs : (c.uses.map Member.use).filterMap (Member.step g.schema) =
        (c.uses.map fun u => (g.schema.use u).decl.name).map .attr := by
      rw [List.filterMap_map, List.map_map]
      exact congrFun List.filterMap_eq_map _
    have hmodel : ((modelChildren c).map fun e => Member.child e.1 e.2).filterMap
        (Member.step g.schema) =
          ((modelChildren c).map fun e => (g.schema.element e.1).name).map .child := by
      rw [List.filterMap_map, List.map_map]
      exact congrFun List.filterMap_eq_map _
    rw [List.filterMap_append, List.filterMap_append, hvalue, hattrs, List.nil_append]
    refine List.nodup_append.2 ⟨(huses t c hc).map fun _ _ h => by cases h; rfl, ?_, ?_⟩
    · rw [hmodel]
      exact (hchildren t c hc).map fun _ _ h => by cases h; rfl
    · rintro a ha b hb rfl
      rw [hmodel] at hb
      obtain ⟨n, -, rfl⟩ := List.mem_map.1 ha
      obtain ⟨n', -, h⟩ := List.mem_map.1 hb
      cases h

section Derived

variable (hs : g.schema.Regular)

/-- An extension lists what its base lists. -/
theorem extends_members {d : ComplexType} (h : c.Extends d) (hgroup : ∀ p, d.particle = some p →
      ∃ occurs compositor members, p = .group occurs compositor members) :
    d.uses ⊆ c.uses ∧ modelChildren d ⊆ modelChildren c := by
  refine ⟨h.uses.subset, ?_⟩
  unfold modelChildren
  rcases h.particle with heq | hnone | ⟨p, own, hp, hc⟩
  · rw [heq]
    exact List.Subset.refl _
  · rw [hnone]
    exact List.nil_subset _
  · obtain ⟨occurs, compositor, members, rfl⟩ := hgroup p hp
    rw [hp, hc]
    exact List.subset_append_left ..

include hs in
/-- A type has all attributes and elements of the types that it is derived from. -/
theorem members_of_derives (h : g.schema.Derives t base) :
    (∀ id, Member.use id ∈ g.members base → Member.use id ∈ g.members t) ∧
      ∀ id occurs, Member.child id occurs ∈ g.members base →
        Member.child id occurs ∈ g.members t := by
  have hstep {a b : TypeId} (hab : g.schema.complexBase a = some b)
      (hb : (g.schema.complex? b).isSome) :
      (∀ id, Member.use id ∈ g.members b → Member.use id ∈ g.members a) ∧
        ∀ id occurs, Member.child id occurs ∈ g.members b →
          Member.child id occurs ∈ g.members a := by
    unfold Schema.complexBase at hab
    obtain ⟨c, hc, hbase⟩ := Option.bind_eq_some_iff.1 hab
    obtain ⟨d, hd⟩ := Option.isSome_iff_exists.1 hb
    obtain ⟨huses, hchildren⟩ := extends_members (hs.extending a c b d hc hbase hd)
      fun p hp => hs.grouped b d p hd hp
    constructor
    · intro id hid
      obtain ⟨d', hd', hid⟩ := use_mem_members.1 hid
      cases hd.symm.trans hd'
      exact use_mem_members.2 ⟨c, hc, huses hid⟩
    · intro id occurs hid
      obtain ⟨d', hd', hid⟩ := child_mem_members.1 hid
      cases hd.symm.trans hd'
      exact child_mem_members.2 ⟨c, hc, hchildren hid⟩
  induction h with
  | single h => exact hstep h.1 h.2
  | tail _ h ih =>
    obtain ⟨huses, hchildren⟩ := hstep h.1 h.2
    exact ⟨fun id hid => ih.1 id (huses id hid), fun id o hid => ih.2 id o (hchildren id o hid)⟩

include hs in
/-- A type lists what the types list that it is derived from. -/
theorem listed_of_derives (h : g.schema.Derives t base) : g.listed base ⊆ g.listed t := by
  obtain ⟨huses, hchildren⟩ := members_of_derives hs h
  intro step hstep
  cases step with
  | attr name =>
    obtain ⟨id, hid, hname⟩ := attr_mem_listed.1 hstep
    exact attr_mem_listed.2 ⟨id, huses id hid, hname⟩
  | child name =>
    obtain ⟨id, occurs, hid, hname⟩ := child_mem_listed.1 hstep
    exact child_mem_listed.2 ⟨id, occurs, hchildren id occurs hid, hname⟩
  | xsiType => exact absurd hstep xsiType_not_mem_listed

/-- A name comes from a type that a type is derived from. -/
def Inherits (g : Generator) (t : TypeId) (step : PathStep) : Prop :=
  ∃ base, g.schema.Derives t base ∧ step ∈ g.listed base

include hs in
/-- An attribute whose name a type inherits is the one that it inherits. -/
theorem inheritsUse_of_inherits (huses : g.schema.AttributesOnce) {id : UseId}
    (hid : Member.use id ∈ g.members t)
    (h : g.Inherits t (.attr (g.schema.use id).decl.name)) : inheritsUse g.schema t id = true := by
  obtain ⟨base, hderives, hstep⟩ := h
  obtain ⟨id', hid', hname⟩ := attr_mem_listed.1 hstep
  obtain ⟨c, hc, huse⟩ := use_mem_members.1 hid
  obtain ⟨c', hc', huse'⟩ := use_mem_members.1 ((members_of_derives hs hderives).1 id' hid')
  cases hc.symm.trans hc'
  obtain rfl := List.inj_on_of_nodup_map (huses t c hc) huse' huse hname
  obtain ⟨d, hd, hmem⟩ := use_mem_members.1 hid'
  refine List.any_eq_true.2 ⟨base, (Schema.mem_ancestors hs.acyclic hderives.complex.1).2 hderives, ?_⟩
  rw [hd]
  simpa using hmem

include hs in
theorem inheritsElement_of_inherits {name : QName} (h : g.Inherits t (.child name)) :
    inheritsElement g.schema t name = true := by
  obtain ⟨base, hderives, hstep⟩ := h
  obtain ⟨id, occurs, hid, rfl⟩ := child_mem_listed.1 hstep
  obtain ⟨d, hd, hmem⟩ := child_mem_members.1 hid
  refine List.any_eq_true.2 ⟨base, (Schema.mem_ancestors hs.acyclic hderives.complex.1).2 hderives, ?_⟩
  unfold modelChildren at hmem
  rw [hd]
  cases hp : d.particle with
  | none =>
    rw [hp] at hmem
    cases hmem
  | some p =>
    obtain ⟨o, k, members, rfl⟩ := hs.grouped base d p hd hp
    rw [hp] at hmem
    have hids := Particle.childrenOf_subset members (id, occurs) hmem
    simp only [Option.bind_some, Option.any_some, hp]
    exact List.any_eq_true.2 ⟨id, hids, beq_self_eq_true _⟩

end Derived

/-- A type has what it lists from a type that it is derived from: an attribute that is used there
already, or an element of a name that is listed there. -/
def Inherited (g : Generator) (t : TypeId) : Member → Prop
  | .value => False
  | .use id => ∃ base, base ≠ t ∧ g.schema.Derives t base ∧ Member.use id ∈ g.members base
  | .child id _ => ∃ base, base ≠ t ∧ g.schema.Derives t base ∧
      PathStep.child (g.schema.element id).name ∈ g.listed base

/-- A type lists a name for an attribute or an element that it does not inherit. -/
def Adds (g : Generator) (t : TypeId) (step : PathStep) : Prop :=
  ∃ m ∈ g.members t, m.step g.schema = some step ∧ ¬ g.Inherited t m

theorem not_inherited_use {id : UseId} (h : inheritsUse g.schema t id = false) :
    ¬ g.Inherited t (.use id) := by
  rintro ⟨base, hne, hderives, hid⟩
  obtain ⟨d, hd, hmem⟩ := use_mem_members.1 hid
  have hnone := List.any_eq_false.1 h base (Schema.mem_ancestors_of_derives hderives hne)
  rw [hd] at hnone
  exact hnone (by simpa using hmem)

theorem not_inherited_child {id : ElementId} {occurs : Occurs}
    (h : inheritsElement g.schema t (g.schema.element id).name = false) :
    ¬ g.Inherited t (.child id occurs) := by
  rintro ⟨base, hne, hderives, hstep⟩
  obtain ⟨id', occurs', hid', hname⟩ := child_mem_listed.1 hstep
  obtain ⟨d, hd, hmem⟩ := child_mem_members.1 hid'
  have hnone := List.any_eq_false.1 h base (Schema.mem_ancestors_of_derives hderives hne)
  unfold modelChildren at hmem
  rw [hd] at hnone
  split at hmem
  · next occurs compositor members hparticle =>
    have hids := Particle.childrenOf_subset members _ hmem
    simp only [Option.bind_some, Option.any_some, hparticle] at hnone
    exact hnone (List.any_eq_true.2 ⟨id', hids, by simp [hname]⟩)
  · cases hmem

/-! Switches. -/

/-- The types that an element of a type may have, where there are several: what two of them list
under one name they have from one type, and no element that they list has several types itself. -/
structure Clear (g : Generator) (t : TypeId) : Prop where
  shared : ∀ a ∈ g.candidates t, ∀ b ∈ g.candidates t, ∀ step ∈ g.listed a, step ∈ g.listed b →
    ∃ c, (c = a ∨ c ∈ ancestors g.schema a) ∧ (c = b ∨ c ∈ ancestors g.schema b) ∧
      step ∈ g.listed c
  plain : ∀ a ∈ g.candidates t, ∀ id occurs, Member.child id occurs ∈ g.members a → g.Plain id

/-- Of the types that an element of a type may have, at most one is nameless. -/
def OneNameless (g : Generator) (t : TypeId) : Prop :=
  ∀ a ∈ g.candidates t, ∀ b ∈ g.candidates t, (g.schema.typeDef a).name? = none →
    (g.schema.typeDef b).name? = none → a = b

/-- What an earlier type lists under the same name is inherited. -/
theorem Clear.inherits {u : TypeId} (h : g.Clear t) (hs : g.schema.Regular)
    (hg : g.substitutes = Substitutes.ofSchema g.schema) (ht : (g.schema.complex? t).isSome)
    {a : TypeId} (ha : a ∈ g.candidates t) (hu : u ∈ g.candidates t)
    (horder : u ≠ a ∧ ¬ g.schema.Derives u a) {step : PathStep} (hstep : step ∈ g.listed u)
    (hstep' : step ∈ g.listed a) : g.Inherits a step := by
  obtain ⟨c, hcu, hca, hc⟩ := h.shared u hu a ha step hstep hstep'
  have hcomplex {x : TypeId} (hx : x ∈ g.candidates t) := complex_of_mem_candidates hg hx ht
  rcases hca with rfl | hca
  · rcases hcu with rfl | hcu
    · exact absurd rfl horder.1
    · exact absurd ((Schema.mem_ancestors hs.acyclic (hcomplex hu)).1 hcu) horder.2
  · exact ⟨c, (Schema.mem_ancestors hs.acyclic (hcomplex ha)).1 hca, hc⟩

/-- The types that an element may have differ in name. -/
theorem name?_injOn_candidates (hs : g.schema.Regular) (hnameless : g.OneNameless t)
    (hg : g.substitutes = Substitutes.ofSchema g.schema) (ht : (g.schema.complex? t).isSome)
    {a b : TypeId} (ha : a ∈ g.candidates t) (hb : b ∈ g.candidates t)
    (h : (g.schema.typeDef a).name? = (g.schema.typeDef b).name?) : a = b := by
  cases hname : (g.schema.typeDef a).name? with
  | none => exact hnameless a ha b hb hname (h.symm.trans hname)
  | some name =>
    exact hs.distinct a b name (complex_of_mem_candidates hg ha ht)
      (complex_of_mem_candidates hg hb ht) hname (h.symm.trans hname)

end Generator

end SchemaForms
