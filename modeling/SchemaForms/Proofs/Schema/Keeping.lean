import SchemaForms.Proofs.Schema.Closure
import SchemaForms.Proofs.Schema.Extension

/-!
What loading keeps of a graph.  Between the steps of building, the graph is closed, names lead to
types of that name, bases are named types, and an element that was declared in the content of a type
is in the particle of that type, unless the type is still under way.
-/

namespace SchemaForms

open SchemaForms.Xml

/-- The base of a complex type has a name; and it is the root of all types where the type does not
say how it comes from it. -/
def Schema.Rests (s : Schema) (t : TypeDef) : Prop :=
  ∀ ct base, t = .complex ct → ct.base = some base →
    (s.typeDef base).name?.isSome ∧ (ct.derivation = .none → base = anyType)

structure Schema.Fits (s : Schema) (t : TypeDef) : Prop extends s.Holds t where
  rests : s.Rests t

theorem Schema.Grows.fits {s s' : Schema} (h : s.Grows s') {t : TypeDef} (ht : s.Fits t) :
    s'.Fits t where
  toHolds := h.holds ht.toHolds
  rests ct base hct hbase := by
    have hid : s.HasType base := by
      refine ht.types base ?_
      rw [hct]
      simp [TypeDef.typeRefs, hbase]
    rw [h.name base hid]
    exact ht.rests ct base hct hbase

/-- The element is in the particle of the type that declares it, if one does. -/
def Schema.Placed (s : Schema) (id : ElementId) : Prop :=
  ∀ type, (s.element id).enclosing = some type → id ∈ (s.typeDef type).elementRefs

namespace Schema

/-- A closed graph on the ground of the built-in types, in which each name leads to a type of that
name. -/
structure Grounded (s : Schema) : Prop where
  closed : s.Closed
  fits : ∀ t ∈ s.types, s.Fits t
  names : ∀ name id, s.findType name = some id → (s.typeDef id).name? = some name
  root : s.typeDef anyType = .any
  own : ∀ id, (s.complex? id).isSome → builtinCount ≤ id.index

theorem findType_addType (s : Schema) (t : TypeDef) (name : QName) :
    (s.addType t).2.findType name =
      if t.name? = some name then some ⟨s.types.size⟩ else s.findType name := by
  unfold addType findType
  cases ht : t.name? with
  | none => simp
  | some own => simp [Table.get?_put]

theorem findType_setType (s : Schema) (id : TypeId) (t : TypeDef) (name : QName) :
    (s.setType id t).findType name =
      if t.name? = some name then some id else s.findType name := by
  unfold setType findType
  cases ht : t.name? with
  | none => simp
  | some own => simp [Table.get?_put]

namespace Grounded

variable {s s' : Schema}

theorem addType (h : s.Grounded) {t : TypeDef} (hpos : 0 < s.types.size) (ht : s.Fits t)
    (hkind : t.complex?.isSome → builtinCount ≤ s.types.size) : (s.addType t).2.Grounded := by
  have hg := grows_addType s t
  refine ⟨h.closed.addType ht.toHolds, ?_, ?_, ?_, ?_⟩
  · intro t' ht'
    rcases Array.mem_push.1 ht' with ht' | rfl
    · exact hg.fits (h.fits t' ht')
    · exact hg.fits ht
  · intro name id hid
    rw [findType_addType] at hid
    split at hid
    · next hown =>
      cases hid
      rw [Loader.typeDef_addType, if_pos rfl, hown]
    · rw [hg.name id (h.closed.findType hid), h.names name id hid]
  · have hne : anyType.index ≠ s.types.size := Nat.ne_of_lt hpos
    rw [Loader.typeDef_addType, if_neg hne, h.root]
  · intro id hid
    rw [Loader.complex?_addType] at hid
    split at hid
    · next he => exact he ▸ hkind hid
    · exact h.own id hid

theorem setType (h : s.Grounded) {id : TypeId} {t : TypeDef} (hid : s.HasType id)
    (hname : t.name? = (s.typeDef id).name?) (hlarge : builtinCount ≤ id.index)
    (ht : s.Fits t) : (s.setType id t).Grounded := by
  have hg := grows_setType hid hname
  refine ⟨h.closed.setType hid hname ht.toHolds, ?_, ?_, ?_, ?_⟩
  · intro t' ht'
    rcases Array.mem_or_eq_of_mem_setIfInBounds ht' with ht' | rfl
    · exact hg.fits (h.fits t' ht')
    · exact hg.fits ht
  · intro name other hfound
    rw [findType_setType] at hfound
    split at hfound
    · next hown =>
      cases hfound
      rw [Loader.typeDef_setType s t hid, if_pos rfl, hown]
    · rw [hg.name other (h.closed.findType hfound), h.names name other hfound]
  · rw [Loader.typeDef_setType s t hid, if_neg ?_, h.root]
    rintro rfl
    simp [anyType, builtinCount] at hlarge
  · intro other hcomplex
    by_cases he : id = other
    · exact he ▸ hlarge
    · rw [complex?, Loader.typeDef_setType s t hid, if_neg he] at hcomplex
      exact h.own other hcomplex

/-- What does not touch the types. -/
theorem of_frame (h : s.Grounded) (hg : s.Grows s') (hclosed : s'.Closed)
    (ht : s'.types = s.types) (hnames : s'.typeNames = s.typeNames) : s'.Grounded := by
  have hdef (id : TypeId) : s'.typeDef id = s.typeDef id := by simp [Schema.typeDef, ht]
  refine ⟨hclosed, fun t hm => hg.fits (h.fits t (ht ▸ hm)), fun name id hid => ?_, ?_, ?_⟩
  · rw [findType, hnames] at hid
    rw [hdef]
    exact h.names name id hid
  · rw [hdef, h.root]
  · intro id hid
    rw [complex?, hdef] at hid
    exact h.own id hid

end Grounded

end Schema

namespace Loader

/-- The definition is what the declaration of the type gives when it is read. -/
def MadeFrom (c : Context) (e : Element) (id : TypeId) (t : TypeDef) : Prop :=
  ∃ depth ctx name p q, c.Same ctx ∧ globalDef (builders depth) ctx e id name p = .ok (t, q)

/-- A graph that holds what has been declared. -/
structure Registered (c : Context) (s : Schema) : Prop extends s.Grounded where
  large : Schema.builtinCount ≤ s.types.size
  globals : ∀ id e, Table.find id c.types = some e → Schema.builtinCount ≤ id.index
  elements : ∀ x ∈ c.elements, s.HasElement x.1 ∧ (s.element x.1).enclosing = none

/-- A graph under way that is as regular as a finished one. -/
structure Regular (c : Context) (p : Progress) : Prop extends Registered c p.schema where
  anonymous : ∀ id e, Table.find id p.anonymous = some e →
    (id, .building) ∈ p.notes ∧ Table.find id c.types = none
  made : ∀ id, (id, .built) ∈ p.notes →
    ∃ e, Declares c p id e ∧ MadeFrom c e id (p.schema.typeDef id)

/-- A whole step: it leads to later progress, and all that was regular is so still. -/
structure Step (c : Context) (p q : Progress) : Prop where
  later : Later p q
  order : InOrder c q
  regular : Regular c q
  grows : p.schema.Grows q.schema

/-- All elements that are new are in their places, but for some that `type` has declared and does
not hold yet. -/
def Settles (type : TypeId) (pending : List ElementId) (p q : Progress) : Prop :=
  ∀ id, q.schema.HasElement id → p.schema.HasElement id ∨ q.schema.Placed id ∨
    (q.schema.element id).enclosing = some type ∧ id ∈ pending

variable {c : Context} {p q r : Progress}

/-- A type that holds elements is built. -/
theorem built_of_holds (h : InOrder c p) {type : TypeId} {id : ElementId}
    (hid : id ∈ (p.schema.typeDef type).elementRefs) :
    p.schema.HasType type ∧ (type, .built) ∈ p.notes := by
  cases hdef : p.schema.typeDef type with
  | any => simp [hdef, TypeDef.elementRefs] at hid
  | simple t => simp [hdef, TypeDef.elementRefs] at hid
  | complex t =>
    have ht : p.schema.complex? type = some t := by simp [Schema.complex?, hdef, TypeDef.complex?]
    refine ⟨Schema.hasType_of_complex (by rw [ht]; rfl), Decidable.byContradiction fun hn => ?_⟩
    have hnone := (h.bare type t ht hn).1
    simp [hdef, TypeDef.elementRefs, hnone] at hid

theorem placed_mono (h : InOrder c p) (hk : Keeps p q) (hg : p.schema.Grows q.schema)
    {id : ElementId} (hid : p.schema.HasElement id) (hplaced : p.schema.Placed id) :
    q.schema.Placed id := by
  intro type htype
  rw [hg.enclosing id hid] at htype
  have hmem := hplaced type htype
  obtain ⟨hlt, hbuilt⟩ := built_of_holds h hmem
  rwa [hk.built type hlt hbuilt]

namespace Settles

variable {type : TypeId} {pending more : List ElementId}

theorem of_same (h : q.schema.elements.size = p.schema.elements.size) :
    Settles type pending p q := by
  intro id hid
  left
  rw [Schema.HasElement, h] at hid
  exact hid

theorem mono (h : Settles type pending p q) (hsub : pending ⊆ more) : Settles type more p q :=
  fun id hid => (h id hid).imp_right (Or.imp_right (And.imp_right fun hm => hsub hm))

theorem trans (h : Settles type pending p q) (h' : Settles type pending q r) (ho : InOrder c q)
    (hk : Keeps q r) (hg : q.schema.Grows r.schema) : Settles type pending p r := by
  intro id hid
  rcases h' id hid with hq | hplaced | hpending
  · rcases h id hq with hp | hplaced | ⟨henclosing, hmem⟩
    · exact .inl hp
    · exact .inr (.inl (placed_mono ho hk hg hq hplaced))
    · exact .inr (.inr ⟨(hg.enclosing id hq).trans henclosing, hmem⟩)
  · exact .inr (.inl hplaced)
  · exact .inr (.inr hpending)

end Settles

namespace Step

theorem refl (ho : InOrder c p) (hr : Regular c p) : Step c p p :=
  ⟨.refl p, ho, hr, .refl _⟩

theorem trans (h : Step c p q) (h' : Step c q r) : Step c p r :=
  ⟨h.later.trans h'.later, h'.order, h'.regular, h.grows.trans h'.grows⟩

end Step

/-! What keeps a graph under way regular. -/

namespace Registered

variable {s s' : Schema}

theorem mono (h : Registered c s) (hg : s.Grows s') (hgrounded : s'.Grounded) :
    Registered c s' where
  toGrounded := hgrounded
  large := Nat.le_trans h.large hg.types
  globals := h.globals
  elements x hx := by
    obtain ⟨hid, henclosing⟩ := h.elements x hx
    exact ⟨hg.hasElement hid, (hg.enclosing x.1 hid).trans henclosing⟩

theorem pos (h : Registered c s) : 0 < s.types.size := Nat.lt_of_lt_of_le (Nat.succ_pos _) h.large

end Registered

namespace Regular

/-- A type has one declaration. -/
theorem declares_unique (h : Regular c p) {id : TypeId} {e e' : Element} (he : Declares c p id e)
    (he' : Declares c p id e') : e' = e := by
  rcases he with he | he <;> rcases he' with he' | he'
  · exact Option.some.inj (he'.symm.trans he)
  · rw [(h.anonymous id e' he').2] at he
    cases he
  · rw [(h.anonymous id e he).2] at he'
    cases he'
  · exact Option.some.inj (he'.symm.trans he)

/-- A graph that has grown is regular when all that is new in it is. -/
theorem mono (h : Regular c p) (ho : InOrder c p) (hk : Keeps p q)
    (hg : p.schema.Grows q.schema) (hgrounded : q.schema.Grounded)
    (hanonymous : ∀ id e, Table.find id q.anonymous = some e →
      Table.find id p.anonymous = some e ∨
        (id, .building) ∈ q.notes ∧ Table.find id c.types = none)
    (hmade : ∀ id, (id, .built) ∈ q.notes → (id, .built) ∈ p.notes ∨
      ∃ e, Declares c q id e ∧ MadeFrom c e id (q.schema.typeDef id)) : Regular c q where
  toRegistered := h.toRegistered.mono hg hgrounded
  anonymous id e he :=
    (hanonymous id e he).elim (fun he => (h.anonymous id e he).imp_left hk.mem_notes) fun he => he
  made id hid := by
    rcases hmade id hid with hold | hnew
    · obtain ⟨e, he, hmade⟩ := h.made id hold
      refine ⟨e, hk.declares he, ?_⟩
      rwa [hk.built id (ho.noted id _ hold) hold]
    · exact hnew

/-- A step that touches neither types nor notes. -/
theorem of_frame (h : Regular c p) (ho : InOrder c p) (hg : p.schema.Grows q.schema)
    (hclosed : q.schema.Closed) (ht : q.schema.types = p.schema.types)
    (hnames : q.schema.typeNames = p.schema.typeNames) (hn : q.notes = p.notes)
    (ha : q.anonymous = p.anonymous) : Regular c q := by
  refine h.mono ho (Later.of_eq ht hn ha).toKeeps hg (h.toGrounded.of_frame hg hclosed ht hnames)
    (fun id e he => .inl (ha ▸ he)) (fun id hid => .inl (hn ▸ hid))

/-- A simple type is added. -/
theorem added (h : Regular c p) (ho : InOrder c p) {t : SimpleType}
    (ht : p.schema.Fits (.simple t)) : Regular c (p.added (.simple t)) :=
  h.mono ho (later_added p _).toKeeps (Schema.grows_addType _ _)
    (h.toGrounded.addType h.pos ht fun hkind => by cases hkind)
    (fun _ _ he => .inl he) fun _ hid => .inl hid

/-- The beginning of the building of an anonymous type. -/
theorem placed_begun (h : Regular c p) (ho : InOrder c p) (e : Element) :
    Regular c ((p.placed e).begun ⟨p.schema.types.size⟩) := by
  have hnew (state : BuildState) : ((⟨p.schema.types.size⟩ : TypeId), state) ∉ p.notes := fun hm =>
    Nat.lt_irrefl _ (ho.noted _ state hm)
  have hfits : p.schema.Fits (.complex {}) :=
    ⟨⟨by simp [TypeDef.typeRefs], by simp [TypeDef.elementRefs], by simp [TypeDef.useRefs]⟩,
      fun ct base hct hbase => by cases hct; cases hbase⟩
  refine h.mono ho ((later_placed ho e).toKeeps.trans (keeps_begun _ hnew))
    (Schema.grows_addType _ _) (h.toGrounded.addType h.pos hfits fun _ => h.large) ?_ ?_
  · intro id e' he
    simp only [Progress.begun, Progress.placed, Table.find] at he
    split at he
    · next heq =>
      refine .inr ⟨by simp [Progress.begun, heq], ?_⟩
      cases hfind : Table.find id c.types with
      | none => rfl
      | some e => exact absurd (ho.globals id e hfind).1 (heq ▸ Nat.lt_irrefl _)
    · exact .inl he
  · intro id hid
    left
    simpa [Progress.begun, Progress.placed] using hid

/-- The beginning of the building of a global type. -/
theorem begun (h : Regular c p) (ho : InOrder c p) {id : TypeId}
    (hnew : ∀ state, (id, state) ∉ p.notes) : Regular c (p.begun id) := by
  refine h.mono ho (keeps_begun p hnew) (.refl _) h.toGrounded (fun _ _ he => .inl he) ?_
  intro other hid
  left
  simpa [Progress.begun] using hid

/-- The end of the building of a type. -/
theorem done (h : Regular c q) (ho : InOrder c q) {id : TypeId} {t : TypeDef}
    (hk : Keeps q (q.done id t)) (hid : q.schema.HasType id)
    (hname : t.name? = (q.schema.typeDef id).name?) (hlarge : Schema.builtinCount ≤ id.index)
    (ht : q.schema.Fits t) (hmade : ∃ e, Declares c q id e ∧ MadeFrom c e id t) :
    Regular c (q.done id t) := by
  refine h.mono ho hk (Schema.grows_setType hid hname) (h.toGrounded.setType hid hname hlarge ht)
    (fun _ _ he => .inl he) fun other hbuilt => ?_
  by_cases he : id = other
  · subst he
    obtain ⟨e, he, hmade⟩ := hmade
    refine .inr ⟨e, hk.declares he, ?_⟩
    simpa [Progress.done, typeDef_setType _ t hid] using hmade
  · left
    simpa [Progress.done, Ne.symm he] using hbuilt

end Regular

/-- With the end of the building of a type the elements that were waiting for it are placed. -/
theorem Settles.done {id : TypeId} {t : TypeDef} (h : Settles id t.elementRefs p q)
    (ho : InOrder c q) (hid : q.schema.HasType id) (hunbuilt : (id, .built) ∉ q.notes)
    (type : TypeId) : Settles type [] p (q.done id t) := by
  intro e he
  rcases h e he with hp | hplaced | ⟨henclosing, hmem⟩
  · exact .inl hp
  · refine .inr (.inl fun other hother => ?_)
    have hin := hplaced other hother
    have hne : id ≠ other := fun heq => hunbuilt (heq ▸ (built_of_holds ho hin).2)
    simpa [Progress.done, typeDef_setType _ t hid, hne] using hin
  · refine .inr (.inl fun other hother => ?_)
    obtain rfl : id = other := Option.some.inj (henclosing.symm.trans hother)
    simpa [Progress.done, typeDef_setType _ t hid] using hmem

end Loader

end SchemaForms
