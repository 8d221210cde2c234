import SchemaForms.Proofs.Schema.Alike

/-!
Pruning: leaving wildcards, elements and attribute uses out of the content of complex types.  The
pruned schema declares what it did before; it differs in what the contents hold and in nothing else.
-/

namespace SchemaForms

/-- A list from which some entries have been left out, each of the others replaced. -/
inductive Thins {α : Type} (lost : α → Prop) (R : α → α → Prop) : List α → List α → Prop
  | nil : Thins lost R [] []
  | keep {a b : α} {as bs : List α} (h : R a b) (rest : Thins lost R as bs) :
    Thins lost R (a :: as) (b :: bs)
  | drop {a : α} {as bs : List α} (h : lost a) (rest : Thins lost R as bs) :
    Thins lost R (a :: as) bs

namespace Thins

variable {α : Type} {lost : α → Prop} {R : α → α → Prop} {as bs : List α}

theorem refl (h : ∀ a ∈ as, R a a) : Thins lost R as as := by
  induction as with
  | nil => exact .nil
  | cons a as ih =>
    exact .keep (h a List.mem_cons_self) (ih fun a ha => h a (List.mem_cons_of_mem _ ha))

theorem subset (h : Thins lost Eq as bs) : bs ⊆ as := by
  induction h with
  | nil => exact List.Subset.refl _
  | keep h _ ih => exact h ▸ List.cons_subset_cons _ ih
  | drop _ _ ih => exact List.subset_cons_of_subset _ ih

/-- What is not lost is kept. -/
theorem mem (h : Thins lost Eq as bs) {a : α} (ha : a ∈ as) (hlost : ¬ lost a) : a ∈ bs := by
  induction h with
  | nil => exact ha
  | keep h _ ih =>
    rcases List.mem_cons.1 ha with rfl | ha
    · exact h ▸ List.mem_cons_self
    · exact List.mem_cons_of_mem _ (ih ha)
  | drop h _ ih =>
    rcases List.mem_cons.1 ha with rfl | ha
    · exact absurd h hlost
    · exact ih ha

end Thins

/-- The declarations whose particles and uses may be left out. -/
structure Losses where
  elements : ElementId → Prop
  uses : UseId → Prop

namespace Particle

/-- The particles that may be left out: wildcards, and elements that are lost. -/
def IsLost (L : Losses) : Particle → Prop
  | .element _ id => L.elements id
  | .group _ _ _ => False
  | .wildcard _ _ => True

/-- A particle with some of the particles nested in it left out. -/
inductive Pruned (L : Losses) : Particle → Particle → Prop
  | element (occurs : Occurs) (id : ElementId) : Pruned L (.element occurs id) (.element occurs id)
  | group (occurs : Occurs) (compositor : Compositor) {ps ps' : List Particle}
    (h : Thins (IsLost L) (Pruned L) ps ps') :
    Pruned L (.group occurs compositor ps) (.group occurs compositor ps')
  | wildcard (occurs : Occurs) (w : Wildcard) : Pruned L (.wildcard occurs w) (.wildcard occurs w)

variable {L : Losses}

mutual

theorem Pruned.elementIds_subset {p p' : Particle} (h : Pruned L p p') :
    p'.elementIds ⊆ p.elementIds := by
  cases p with
  | element => cases h; exact List.Subset.refl _
  | wildcard => cases h; exact List.Subset.refl _
  | group occurs compositor ps =>
    cases h with
    | group _ _ h =>
      rw [elementIds, elementIds]
      exact elementIdsOf_subset h

theorem elementIdsOf_subset {ps ps' : List Particle} (h : Thins (IsLost L) (Pruned L) ps ps') :
    elementIdsOf ps' ⊆ elementIdsOf ps := by
  cases ps with
  | nil => cases h; exact List.Subset.refl _
  | cons p ps =>
    rw [elementIdsOf]
    cases h with
    | keep h rest =>
      rw [elementIdsOf]
      exact List.append_subset.2 ⟨List.subset_append_of_subset_left _ h.elementIds_subset,
        List.subset_append_of_subset_right _ (elementIdsOf_subset rest)⟩
    | drop _ rest => exact List.subset_append_of_subset_right _ (elementIdsOf_subset rest)

end

mutual

/-- Elements that are not lost are kept. -/
theorem Pruned.mem_elementIds {p p' : Particle} (h : Pruned L p p') {id : ElementId}
    (hid : id ∈ p.elementIds) (hlost : ¬ L.elements id) : id ∈ p'.elementIds := by
  cases p with
  | element => cases h; exact hid
  | wildcard => cases h; exact hid
  | group occurs compositor ps =>
    cases h with
    | group _ _ h =>
      rw [elementIds] at hid ⊢
      exact mem_elementIdsOf h hid hlost

theorem mem_elementIdsOf {ps ps' : List Particle} (h : Thins (IsLost L) (Pruned L) ps ps')
    {id : ElementId} (hid : id ∈ elementIdsOf ps) (hlost : ¬ L.elements id) :
    id ∈ elementIdsOf ps' := by
  cases ps with
  | nil => cases h; exact hid
  | cons p ps =>
    rw [elementIdsOf, List.mem_append] at hid
    cases h with
    | keep h rest =>
      rw [elementIdsOf, List.mem_append]
      exact hid.imp (h.mem_elementIds · hlost) (mem_elementIdsOf rest · hlost)
    | drop hp rest =>
      rcases hid with hid | hid
      · cases p with
        | element => exact absurd hp (List.mem_singleton.1 hid ▸ hlost)
        | group => exact hp.elim
        | wildcard => cases hid
      · exact mem_elementIdsOf rest hid hlost

end

mutual

theorem Pruned.refl (p : Particle) : Pruned L p p := by
  cases p with
  | element => exact .element ..
  | wildcard => exact .wildcard ..
  | group occurs compositor ps => exact .group _ _ (thins_refl ps)

theorem thins_refl (ps : List Particle) : Thins (IsLost L) (Pruned L) ps ps := by
  cases ps with
  | nil => exact .nil
  | cons p ps => exact .keep (.refl p) (thins_refl ps)

end

end Particle

open Particle (IsLost)

/-- The content of a type may be lost as a whole, when it is one particle that may be left out. -/
inductive ContentPruned (L : Losses) : Option Particle → Option Particle → Prop
  | none : ContentPruned L none none
  | some {p p' : Particle} (h : p.Pruned L p') : ContentPruned L (some p) (some p')
  | lost {p : Particle} (h : IsLost L p) : ContentPruned L (some p) none

/-- A complex type with less in its content. -/
structure ComplexType.Pruned (L : Losses) (c c' : ComplexType) : Prop where
  rest : c' = { c with uses := c'.uses, particle := c'.particle }
  uses : Thins L.uses Eq c.uses c'.uses
  content : ContentPruned L c.particle c'.particle

inductive TypeDef.Pruned (L : Losses) : TypeDef → TypeDef → Prop
  | any : Pruned L .any .any
  | simple (t : SimpleType) : Pruned L (.simple t) (.simple t)
  | complex {c c' : ComplexType} (h : c.Pruned L c') : Pruned L (.complex c) (.complex c')

theorem TypeDef.Pruned.refl {L : Losses} (t : TypeDef) : t.Pruned L t := by
  cases t with
  | any => exact .any
  | simple t => exact .simple t
  | complex c =>
    refine .complex ⟨rfl, .refl fun _ _ => rfl, ?_⟩
    cases c.particle with
    | none => exact .none
    | some p => exact .some (.refl p)

namespace Schema

/-- A schema with less in the contents of its complex types. -/
structure Pruned (L : Losses) (s s' : Schema) : Prop where
  target : s'.target = s.target
  elements : s'.elements = s.elements
  uses : s'.uses = s.uses
  typeNames : s'.typeNames = s.typeNames
  elementNames : s'.elementNames = s.elementNames
  size : s'.types.size = s.types.size
  types : ∀ t, (s.typeDef t).Pruned L (s'.typeDef t)

theorem Pruned.refl {L : Losses} (s : Schema) : s.Pruned L s :=
  ⟨rfl, rfl, rfl, rfl, rfl, rfl, fun _ => .refl _⟩

namespace Pruned

variable {L : Losses} {s s' : Schema}

theorem alike (h : s.Pruned L s') : s.Alike s' where
  target := h.target
  elements := h.elements
  uses := h.uses
  elementNames := h.elementNames
  size := h.size
  bare t := by
    have ht := h.types t
    generalize s.typeDef t = d at ht
    generalize s'.typeDef t = d' at ht
    cases ht with
    | any => rfl
    | simple => rfl
    | complex hc =>
      rw [hc.rest]
      rfl

/-- A complex type of the one schema is, with less in its content, one of the other. -/
theorem complex? (h : s.Pruned L s') (t : TypeId) :
    (s.complex? t = none ∧ s'.complex? t = none) ∨
      ∃ c c', s.complex? t = some c ∧ s'.complex? t = some c' ∧ c.Pruned L c' := by
  have ht := h.types t
  unfold Schema.complex?
  generalize s.typeDef t = d at ht
  generalize s'.typeDef t = d' at ht
  cases ht with
  | any => exact .inl ⟨rfl, rfl⟩
  | simple => exact .inl ⟨rfl, rfl⟩
  | complex hc => exact .inr ⟨_, _, rfl, rfl, hc⟩

/-- An attribute use is inherited as before, unless it may be lost. -/
theorem inheritsUse_eq (h : s.Pruned L s') (t : TypeId) {use : UseId} (hlost : ¬ L.uses use) :
    Generator.inheritsUse s' t use = Generator.inheritsUse s t use := by
  have huse : (fun b => (s'.complex? b).any (·.uses.contains use)) =
      fun b => (s.complex? b).any (·.uses.contains use) := by
    funext b
    rcases h.complex? b with ⟨hc, hc'⟩ | ⟨c, c', hc, hc', hpruned⟩
    · rw [hc, hc']
    · rw [hc, hc', Option.any_some, Option.any_some, Bool.eq_iff_iff, List.contains_iff_mem,
        List.contains_iff_mem]
      exact ⟨fun hm => hpruned.uses.subset hm, fun hm => hpruned.uses.mem hm hlost⟩
  unfold Generator.inheritsUse
  rw [h.alike.ancestors_eq, huse]

/-- An element of a name is inherited as before, unless one of this name may be lost. -/
theorem inheritsElement_eq (h : s.Pruned L s') (t : TypeId) {name : QName}
    (hlost : ∀ id, L.elements id → (s.element id).name ≠ name) :
    Generator.inheritsElement s' t name = Generator.inheritsElement s t name := by
  have hcontent {p p' : Option Particle} (hp : ContentPruned L p p') :
      p'.any (fun p => p.elementIds.any fun e => (s.element e).name == name) =
        p.any fun p => p.elementIds.any fun e => (s.element e).name == name := by
    cases hp with
    | none => rfl
    | some hp =>
      rw [Option.any_some, Option.any_some, Bool.eq_iff_iff]
      simp only [List.any_eq_true, beq_iff_eq]
      constructor
      · rintro ⟨id, hid, hname⟩
        exact ⟨id, hp.elementIds_subset hid, hname⟩
      · rintro ⟨id, hid, hname⟩
        exact ⟨id, hp.mem_elementIds hid fun hid => hlost id hid hname, hname⟩
    | @lost p hp =>
      cases p with
      | element occurs id => simp [Particle.elementIds, hlost id hp]
      | group => exact hp.elim
      | wildcard => rfl
  have helement : (fun b => ((s'.complex? b).bind (·.particle)).any fun p =>
        p.elementIds.any fun e => (s'.element e).name == name) =
      fun b => ((s.complex? b).bind (·.particle)).any fun p =>
        p.elementIds.any fun e => (s.element e).name == name := by
    funext b
    rw [h.alike.element_eq]
    rcases h.complex? b with ⟨hc, hc'⟩ | ⟨c, c', hc, hc', hpruned⟩
    · rw [hc, hc']
    · rw [hc, hc']
      exact hcontent hpruned.content
  unfold Generator.inheritsElement
  rw [h.alike.ancestors_eq, helement]

end Pruned

end Schema

end SchemaForms
