import SchemaForms.Schema.Loader

/-!
What the building of types does to a graph under way.  Every step leads from progress in good order
to later progress in good order: a type that is built keeps its definition, a type whose building
goes on stays a bare placeholder, and all that a step begins it also ends.
-/

namespace SchemaForms.Loader

open SchemaForms.Xml
open SchemaForms.Source (parts part?)

abbrev Notes := List (TypeId × BuildState)

/-- The building of a type has begun and has not ended. -/
def Underway (notes : Notes) (id : TypeId) : Prop :=
  (id, .building) ∈ notes ∧ (id, .built) ∉ notes

/-- The building of `inner` began while that of `outer` was under way. -/
def BegunWithin (inner outer : TypeId) : Notes → Prop
  | [] => False
  | note :: earlier =>
    if note = (inner, .building) then Underway (note :: earlier) outer
    else BegunWithin inner outer earlier

theorem begunWithin_append {inner outer : TypeId} {new earlier : Notes}
    (h : (inner, .building) ∉ new) :
    BegunWithin inner outer (new ++ earlier) ↔ BegunWithin inner outer earlier := by
  induction new with
  | nil => rfl
  | cons note new ih =>
    have hne : note ≠ (inner, .building) := fun he => h (by simp [he])
    have hnew : (inner, .building) ∉ new := fun hm => h (List.mem_cons_of_mem _ hm)
    simp [BegunWithin, hne, ih hnew]

/-- What no step of building takes back. -/
structure Keeps (p q : Progress) : Prop where
  notes : ∃ new : Notes, q.notes = new ++ p.notes ∧
    ∀ id, (id, .building) ∈ new → (id, .building) ∉ p.notes
  size_le : p.schema.types.size ≤ q.schema.types.size
  kind : ∀ id, id.index < p.schema.types.size →
    (q.schema.complex? id).isSome = (p.schema.complex? id).isSome
  built : ∀ id, id.index < p.schema.types.size → (id, .built) ∈ p.notes →
    q.schema.typeDef id = p.schema.typeDef id
  anonymous : ∀ id e, Table.find id p.anonymous = some e → Table.find id q.anonymous = some e

/-- What lies between the beginning and the end of a whole step: nothing that was under way before
has ended, all that began has ended, and only what ended has changed. -/
structure Later (p q : Progress) : Prop extends Keeps p q where
  untouched : ∀ id, (id, .building) ∈ p.notes → (id, .built) ∈ q.notes → (id, .built) ∈ p.notes
  ended : ∀ id, (id, .building) ∈ q.notes → (id, .building) ∈ p.notes ∨ (id, .built) ∈ q.notes
  kept : ∀ id, id.index < p.schema.types.size → (id, .built) ∉ q.notes →
    q.schema.typeDef id = p.schema.typeDef id

namespace Keeps

variable {p q r : Progress}

theorem mem_notes (h : Keeps p q) {n : TypeId × BuildState} (hn : n ∈ p.notes) : n ∈ q.notes := by
  obtain ⟨new, hq, _⟩ := h.notes
  exact hq ▸ List.mem_append_right new hn

theorem begunWithin_iff (h : Keeps p q) {inner : TypeId} (hi : (inner, .building) ∈ p.notes)
    (outer : TypeId) : BegunWithin inner outer q.notes ↔ BegunWithin inner outer p.notes := by
  obtain ⟨new, hq, hnew⟩ := h.notes
  rw [hq]
  exact begunWithin_append fun hm => hnew inner hm hi

theorem refl (p : Progress) : Keeps p p :=
  ⟨⟨[], rfl, by simp⟩, Nat.le_refl _, fun _ _ => rfl, fun _ _ _ => rfl, fun _ _ h => h⟩

theorem trans (h : Keeps p q) (h' : Keeps q r) : Keeps p r where
  notes := by
    obtain ⟨new, hq, hnew⟩ := h.notes
    obtain ⟨new', hr, hnew'⟩ := h'.notes
    refine ⟨new' ++ new, by simp [hr, hq], fun id hid => ?_⟩
    rcases List.mem_append.1 hid with hid | hid
    · exact fun hp => hnew' id hid (h.mem_notes hp)
    · exact hnew id hid
  size_le := Nat.le_trans h.size_le h'.size_le
  kind id hid := (h'.kind id (Nat.lt_of_lt_of_le hid h.size_le)).trans (h.kind id hid)
  built id hid hp :=
    (h'.built id (Nat.lt_of_lt_of_le hid h.size_le) (h.mem_notes hp)).trans (h.built id hid hp)
  anonymous id e hp := h'.anonymous id e (h.anonymous id e hp)

end Keeps

namespace Later

variable {p q r : Progress}

theorem refl (p : Progress) : Later p p :=
  { Keeps.refl p with
    untouched := fun _ _ h => h
    ended := fun _ h => .inl h
    kept := fun _ _ _ => rfl }

theorem underway_iff (h : Later p q) (id : TypeId) :
    Underway q.notes id ↔ Underway p.notes id := by
  constructor
  · rintro ⟨hbegun, hbuilt⟩
    have hp := (h.ended id hbegun).resolve_right hbuilt
    exact ⟨hp, fun hb => hbuilt (h.mem_notes hb)⟩
  · rintro ⟨hbegun, hbuilt⟩
    exact ⟨h.mem_notes hbegun, fun hb => hbuilt (h.untouched id hbegun hb)⟩

theorem trans (h : Later p q) (h' : Later q r) : Later p r :=
  { h.toKeeps.trans h'.toKeeps with
    untouched := fun id hp hr => h.untouched id hp (h'.untouched id (h.mem_notes hp) hr)
    ended := fun id hr => by
      rcases h'.ended id hr with hq | hb
      · exact (h.ended id hq).imp_right h'.mem_notes
      · exact .inr hb
    kept := fun id hid hr =>
      (h'.kept id (Nat.lt_of_lt_of_le hid h.size_le) hr).trans
        (h.kept id hid fun hq => hr (h'.mem_notes hq)) }

/-- A step that leaves types, notes and anonymous declarations alone. -/
theorem of_eq (ht : q.schema.types = p.schema.types) (hn : q.notes = p.notes)
    (ha : q.anonymous = p.anonymous) : Later p q where
  notes := ⟨[], by simp [hn], by simp⟩
  size_le := by simp [ht]
  kind id _ := by simp [Schema.complex?, Schema.typeDef, ht]
  built id _ _ := by simp [Schema.typeDef, ht]
  anonymous id e he := ha ▸ he
  untouched id _ hb := hn ▸ hb
  ended id hb := .inl (hn ▸ hb)
  kept id _ _ := by simp [Schema.typeDef, ht]

end Later

/-! What a type that extends another one owes to it. -/

/-- The same declarations, whichever groups are being expanded. -/
def Context.Same (c ctx : Context) : Prop :=
  ∃ groups attributeGroups,
    ctx = { c with openGroups := groups, openAttributeGroups := attributeGroups }

/-- `e` is the declaration of a type, a global or an anonymous one. -/
def Declares (c : Context) (p : Progress) (id : TypeId) (e : Element) : Prop :=
  Table.find id c.types = some e ∨ Table.find id p.anonymous = some e

/-- The content that reading the extension in the declaration of a type gives, and the attribute
uses: all that the type declares itself. -/
def ReadsOwn (c : Context) (p : Progress) (id : TypeId) (own : Option Particle)
    (uses : List UseId) : Prop :=
  ∃ e content d depth ctx p₁ p₂ p₃ prohibited, Declares c p id e ∧ c.Same ctx ∧
    part? e ["complexContent"] = some content ∧ Source.derivation content = .ok d ∧
    d.localName = "extension" ∧
    contentModel (builders depth) ctx id d p₁ = .ok (own, p₂) ∧
    attributeUses (builders depth) ctx d p₂ = .ok ((uses, prohibited), p₃)

/-- An extension holds what its base holds when it is built, and then its own.  A base that is
under way when the building of the extension begins has nothing to hand on. -/
def Extends (c : Context) (p : Progress) (id : TypeId) (t : ComplexType) : Prop :=
  t.derivation = .extension → t.content ≠ .simple → ∀ base, t.base = some base →
    base.index < p.schema.types.size ∧ ∀ b, p.schema.complex? base = some b →
      ∃ own uses, ReadsOwn c p id own uses ∧
        (BegunWithin id base p.notes ∧ t.particle = own ∧ t.uses = uses ∨
          ¬ BegunWithin id base p.notes ∧ (base, .built) ∈ p.notes ∧
            t.particle = extendParticle b.particle own ∧ t.uses = b.uses ++ uses)

theorem Keeps.declares {c : Context} {p q : Progress} (h : Keeps p q) {id : TypeId} {e : Element}
    (he : Declares c p id e) : Declares c q id e :=
  he.imp_right (h.anonymous id e)

theorem Keeps.readsOwn {c : Context} {p q : Progress} (h : Keeps p q) {id : TypeId}
    {own : Option Particle} {uses : List UseId} (ho : ReadsOwn c p id own uses) :
    ReadsOwn c q id own uses := by
  obtain ⟨e, content, d, depth, ctx, p₁, p₂, p₃, prohibited, he, hread⟩ := ho
  exact ⟨e, content, d, depth, ctx, p₁, p₂, p₃, prohibited, h.declares he, hread⟩

theorem Keeps.extends {c : Context} {p q : Progress} (h : Keeps p q) {id : TypeId}
    {t : ComplexType} (hid : (id, .building) ∈ p.notes) (ht : Extends c p id t) :
    Extends c q id t := by
  intro hx hc base hbase
  obtain ⟨hlt, hb⟩ := ht hx hc base hbase
  refine ⟨Nat.lt_of_lt_of_le hlt h.size_le, fun b' hb' => ?_⟩
  have hkind := h.kind base hlt
  rw [hb'] at hkind
  obtain ⟨b, hpb⟩ := Option.isSome_iff_exists.1 hkind.symm
  obtain ⟨own, uses, hown, hcase⟩ := hb b hpb
  refine ⟨own, uses, h.readsOwn hown, ?_⟩
  rw [h.begunWithin_iff hid]
  refine hcase.imp_right fun ⟨hn, hbuilt, hp, hu⟩ => ?_
  have hdef := h.built base hlt hbuilt
  have hbb : b' = b := by
    simp only [Schema.complex?, hdef] at hb' hpb
    exact Option.some.inj (hb'.symm.trans hpb)
  exact ⟨hn, h.mem_notes hbuilt, hbb ▸ hp, hbb ▸ hu⟩

/-- Progress in good order.  The context gives the global types. -/
structure InOrder (c : Context) (p : Progress) : Prop where
  noted : ∀ id state, (id, state) ∈ p.notes → id.index < p.schema.types.size
  anonymous : ∀ id e, Table.find id p.anonymous = some e → id.index < p.schema.types.size
  globals : ∀ id e, Table.find id c.types = some e → id.index < p.schema.types.size ∧
    ((p.schema.complex? id).isSome ↔ e.localName = "complexType")
  complexes : ∀ id, (p.schema.complex? id).isSome →
    (id, .building) ∈ p.notes ∨ (Table.find id c.types).isSome
  names : ∀ name id, p.schema.findType name = some id → id.index < p.schema.types.size
  /-- A complex type that is not built is a placeholder. -/
  bare : ∀ id t, p.schema.complex? id = some t → (id, .built) ∉ p.notes →
    t.particle = none ∧ t.uses = [] ∧ t.derivation = .none
  built : ∀ id, (id, .built) ∈ p.notes → (id, .building) ∈ p.notes
  extensions : ∀ id t, p.schema.complex? id = some t → (id, .built) ∈ p.notes → Extends c p id t

/-! Adding types, and beginning and ending the building of one. -/

theorem typeDef_addType (s : Schema) (t : TypeDef) (id : TypeId) :
    (s.addType t).2.typeDef id = if id.index = s.types.size then t else s.typeDef id := by
  simp only [Schema.addType, Schema.typeDef, Array.getD_eq_getD_getElem?, Array.getElem?_push]
  split <;> rfl

theorem typeDef_setType (s : Schema) {id : TypeId} (t : TypeDef) (hid : id.index < s.types.size)
    (other : TypeId) : (s.setType id t).typeDef other = if id = other then t else s.typeDef other := by
  obtain ⟨i⟩ := id
  obtain ⟨j⟩ := other
  simp only [Schema.setType, Schema.typeDef, Array.getD_eq_getD_getElem?,
    Array.getElem?_setIfInBounds, TypeId.mk.injEq]
  by_cases h : i = j
  · subst h
    simp [show i < s.types.size from hid]
  · simp [h]

theorem size_addType (s : Schema) (t : TypeDef) :
    (s.addType t).2.types.size = s.types.size + 1 := by
  simp [Schema.addType]

theorem size_setType (s : Schema) (id : TypeId) (t : TypeDef) :
    (s.setType id t).types.size = s.types.size := by
  simp [Schema.setType]

theorem findType_addType {s : Schema} {t : TypeDef} {name : QName} {id : TypeId}
    (h : (s.addType t).2.findType name = some id) :
    id.index = s.types.size ∨ s.findType name = some id := by
  unfold Schema.addType Schema.findType at h
  split at h
  · simp only [Table.get?_put] at h
    split at h
    · exact .inl (by rw [← Option.some.inj h])
    · exact .inr h
  · exact .inr h

theorem findType_setType {s : Schema} {t : TypeDef} {name : QName} {id other : TypeId}
    (h : (s.setType id t).findType name = some other) :
    other = id ∨ s.findType name = some other := by
  unfold Schema.setType Schema.findType at h
  split at h
  · simp only [Table.get?_put] at h
    split at h
    · exact .inl (Option.some.inj h).symm
    · exact .inr h
  · exact .inr h

theorem complex?_of_size_le {s : Schema} {id : TypeId} (h : s.types.size ≤ id.index) :
    s.complex? id = none := by
  simp [Schema.complex?, Schema.typeDef, Array.getD_eq_getD_getElem?, Array.getElem?_eq_none h,
    TypeDef.complex?]

/-- The progress once a type has been added. -/
def Progress.added (p : Progress) (t : TypeDef) : Progress :=
  { p with schema := (p.schema.addType t).2 }

/-- The progress once an anonymous complex type has its number. -/
def Progress.placed (p : Progress) (e : Element) : Progress where
  schema := (p.schema.addType (.complex {})).2
  notes := p.notes
  anonymous := (⟨p.schema.types.size⟩, e) :: p.anonymous

/-- The progress once the building of a type has begun. -/
def Progress.begun (p : Progress) (id : TypeId) : Progress :=
  { p with notes := (id, .building) :: p.notes }

/-- The progress once the building of a type has ended with a definition. -/
def Progress.done (p : Progress) (id : TypeId) (t : TypeDef) : Progress where
  schema := p.schema.setType id t
  notes := (id, .built) :: p.notes
  anonymous := p.anonymous

theorem later_added (p : Progress) (t : TypeDef) : Later p (p.added t) where
  notes := ⟨[], by simp [Progress.added], by simp⟩
  size_le := by simp [Progress.added, size_addType]
  kind id hid := by
    simp [Progress.added, Schema.complex?, typeDef_addType, Nat.ne_of_lt hid]
  built id hid _ := by simp [Progress.added, typeDef_addType, Nat.ne_of_lt hid]
  anonymous _ _ he := he
  untouched _ _ hb := hb
  ended _ hb := .inl hb
  kept id hid _ := by simp [Progress.added, typeDef_addType, Nat.ne_of_lt hid]

section Building

variable {c : Context} {p q : Progress} {id : TypeId}

theorem later_placed (h : InOrder c p) (e : Element) : Later p (p.placed e) :=
  { later_added p (.complex {}) with
    anonymous := fun id e' he => by
      have hne : (⟨p.schema.types.size⟩ : TypeId) ≠ id := fun heq =>
        Nat.lt_irrefl _ (heq ▸ h.anonymous id e' he)
      simpa [Progress.placed, Table.find, hne] using he }

theorem keeps_begun (p : Progress) (hnew : ∀ state, (id, state) ∉ p.notes) :
    Keeps p (p.begun id) where
  notes := ⟨[(id, .building)], rfl, by simpa using hnew .building⟩
  size_le := Nat.le_refl _
  kind _ _ := rfl
  built _ _ _ := rfl
  anonymous _ _ he := he

theorem keeps_done (h : InOrder c q) (hid : (id, .building) ∈ q.notes)
    (hunbuilt : (id, .built) ∉ q.notes) {t : TypeDef}
    (hkind : t.complex?.isSome = (q.schema.complex? id).isSome) : Keeps q (q.done id t) where
  notes := ⟨[(id, .built)], rfl, by simp⟩
  size_le := by simp [Progress.done, size_setType]
  kind other _ := by
    simp only [Progress.done, Schema.complex?, typeDef_setType _ t (h.noted id _ hid)]
    split
    · next he => exact he ▸ hkind
    · rfl
  built other _ hb := by
    have hne : id ≠ other := fun he => hunbuilt (he ▸ hb)
    simp [Progress.done, typeDef_setType _ t (h.noted id _ hid), hne]
  anonymous _ _ he := he

/-- A whole building, from its beginning to its end. -/
theorem Later.build (h : InOrder c q) (hnew : ∀ state, (id, state) ∉ p.notes)
    (hq : Later (p.begun id) q) {t : TypeDef}
    (hkind : t.complex?.isSome = (q.schema.complex? id).isSome) : Later p (q.done id t) := by
  have hid : (id, BuildState.building) ∈ q.notes := hq.mem_notes (by simp [Progress.begun])
  have hunbuilt : (id, BuildState.built) ∉ q.notes := fun hb =>
    hnew .built (by simpa [Progress.begun] using hq.untouched id (by simp [Progress.begun]) hb)
  refine { (keeps_begun p hnew).trans (hq.toKeeps.trans (keeps_done h hid hunbuilt hkind)) with
    untouched := ?_, ended := ?_, kept := ?_ }
  · intro other hp hb
    have hne : other ≠ id := fun he => hnew .building (he ▸ hp)
    have hqb : (other, BuildState.built) ∈ q.notes := by
      simpa [Progress.done, hne] using hb
    have := hq.untouched other (List.mem_cons_of_mem _ hp) hqb
    simpa [Progress.begun] using this
  · intro other hb
    have hqb : (other, BuildState.building) ∈ q.notes := by
      simpa [Progress.done] using hb
    rcases hq.ended other hqb with hp | hbuilt
    · rcases List.mem_cons.1 hp with he | hp
      · cases he
        exact .inr (by simp [Progress.done])
      · exact .inl hp
    · exact .inr (List.mem_cons_of_mem _ hbuilt)
  · intro other hlt hb
    have hne : id ≠ other := fun he => hb (by simp [Progress.done, he])
    have hqb : (other, BuildState.built) ∉ q.notes := fun hm => hb (List.mem_cons_of_mem _ hm)
    simp only [Progress.done, typeDef_setType _ t (h.noted id _ hid), hne, if_false]
    exact hq.kept other hlt hqb

theorem InOrder.begun (h : InOrder c p) (hid : id.index < p.schema.types.size)
    (hnew : ∀ state, (id, state) ∉ p.notes) : InOrder c (p.begun id) where
  noted other state hm := by
    rcases List.mem_cons.1 hm with he | hm
    · cases he
      exact hid
    · exact h.noted other state hm
  anonymous := h.anonymous
  globals := h.globals
  complexes other ho := (h.complexes other ho).imp_left (List.mem_cons_of_mem _)
  names := h.names
  bare other t ht hb := h.bare other t ht fun hm => hb (List.mem_cons_of_mem _ hm)
  built other hb := by
    have hb : (other, BuildState.built) ∈ p.notes := by simpa [Progress.begun] using hb
    exact List.mem_cons_of_mem _ (h.built other hb)
  extensions other t ht hb := by
    have hb : (other, BuildState.built) ∈ p.notes := by simpa [Progress.begun] using hb
    exact (keeps_begun p hnew).extends (h.built other hb) (h.extensions other t ht hb)

theorem InOrder.done (h : InOrder c q) (hid : (id, .building) ∈ q.notes)
    (hunbuilt : (id, .built) ∉ q.notes) {t : TypeDef}
    (hkind : t.complex?.isSome = (q.schema.complex? id).isSome)
    (ht : ∀ ct, t = .complex ct → Extends c q id ct) : InOrder c (q.done id t) := by
  have hk := keeps_done h hid hunbuilt hkind
  have hlt := h.noted id _ hid
  have hsize : (q.done id t).schema.types.size = q.schema.types.size := by
    simp [Progress.done, size_setType]
  have hother (other : TypeId) (hne : id ≠ other) :
      (q.done id t).schema.complex? other = q.schema.complex? other := by
    simp [Progress.done, Schema.complex?, typeDef_setType _ t hlt, hne]
  have hself : (q.done id t).schema.complex? id = t.complex? := by
    simp [Progress.done, Schema.complex?, typeDef_setType _ t hlt]
  refine ⟨?_, hsize ▸ h.anonymous, ?_, ?_, ?_, ?_, ?_, ?_⟩
  · intro other state hm
    rw [hsize]
    rcases List.mem_cons.1 hm with he | hm
    · cases he
      exact hlt
    · exact h.noted other state hm
  · intro other e he
    obtain ⟨ho, hkind⟩ := h.globals other e he
    rw [hsize, hk.kind other ho]
    exact ⟨ho, hkind⟩
  · intro other ho
    by_cases he : id = other
    · subst he
      exact .inl (hk.mem_notes hid)
    · rw [hother other he] at ho
      exact (h.complexes other ho).imp_left hk.mem_notes
  · intro name other ho
    rw [hsize]
    rcases findType_setType ho with rfl | ho
    · exact hlt
    · exact h.names name other ho
  · intro other ct hct hb
    have hne : id ≠ other := fun he => hb (by simp [Progress.done, he])
    rw [hother other hne] at hct
    exact h.bare other ct hct fun hm => hb (hk.mem_notes hm)
  · intro other hb
    by_cases he : id = other
    · subst he
      exact hk.mem_notes hid
    · have hq : (other, BuildState.built) ∈ q.notes := by
        simpa [Progress.done, Ne.symm he] using hb
      exact hk.mem_notes (h.built other hq)
  · intro other ct hct hb
    by_cases he : id = other
    · subst he
      rw [hself] at hct
      cases t with
      | complex ct' =>
        cases hct
        exact hk.extends hid (ht ct rfl)
      | simple _ => cases hct
      | any => cases hct
    · rw [hother other he] at hct
      have hq : (other, BuildState.built) ∈ q.notes := by
        simpa [Progress.done, Ne.symm he] using hb
      exact hk.extends (h.built other hq) (h.extensions other ct hct hq)

/-- Adding a simple type. -/
theorem InOrder.added (h : InOrder c p) (t : SimpleType) : InOrder c (p.added (.simple t)) := by
  have hl := later_added p (.simple t)
  have hsize : (p.added (.simple t)).schema.types.size = p.schema.types.size + 1 := by
    simp [Progress.added, size_addType]
  have hcomplex (id : TypeId) : (p.added (.simple t)).schema.complex? id = p.schema.complex? id := by
    simp only [Progress.added, Schema.complex?, typeDef_addType]
    split
    · next he => exact (complex?_of_size_le (Nat.le_of_eq he.symm)).symm
    · rfl
  refine ⟨?_, ?_, ?_, ?_, ?_, ?_, ?_, ?_⟩
  · intro id state hm
    rw [hsize]
    exact Nat.lt_succ_of_lt (h.noted id state hm)
  · intro id e he
    rw [hsize]
    exact Nat.lt_succ_of_lt (h.anonymous id e he)
  · intro id e he
    rw [hsize, hcomplex]
    exact (h.globals id e he).imp_left Nat.lt_succ_of_lt
  · intro id hid
    exact h.complexes id (hcomplex id ▸ hid)
  · intro name id hid
    rw [hsize]
    rcases findType_addType hid with he | hid
    · omega
    · exact Nat.lt_succ_of_lt (h.names name id hid)
  · intro id ct hct
    exact h.bare id ct (hcomplex id ▸ hct)
  · exact h.built
  · intro id ct hct hb
    exact hl.extends (h.built id hb) (h.extensions id ct (hcomplex id ▸ hct) hb)

/-- Placing a type whose building begins at once. -/
theorem InOrder.placed_begun (h : InOrder c p) (e : Element) :
    InOrder c ((p.placed e).begun ⟨p.schema.types.size⟩) := by
  have hnew (state : BuildState) : ((⟨p.schema.types.size⟩ : TypeId), state) ∉ p.notes := fun hm =>
    Nat.lt_irrefl _ (h.noted _ state hm)
  have hk : Keeps p ((p.placed e).begun ⟨p.schema.types.size⟩) :=
    (later_placed h e).toKeeps.trans (keeps_begun _ hnew)
  have hsize : (p.placed e).schema.types.size = p.schema.types.size + 1 := by
    simp [Progress.placed, size_addType]
  have hcomplex (id : TypeId) : (p.placed e).schema.complex? id =
      if id.index = p.schema.types.size then some {} else p.schema.complex? id := by
    simp only [Progress.placed, Schema.complex?, typeDef_addType]
    split <;> rfl
  refine ⟨?_, ?_, ?_, ?_, ?_, ?_, ?_, ?_⟩
  · intro id state hm
    simp only [Progress.begun, hsize]
    rcases List.mem_cons.1 hm with he | hm
    · cases he
      exact Nat.lt_succ_self _
    · exact Nat.lt_succ_of_lt (h.noted id state hm)
  · intro id e' he
    simp only [Progress.begun, Progress.placed, Table.find] at he
    split at he
    · next heq =>
      simp only [Progress.begun, hsize, ← heq]
      exact Nat.lt_succ_self _
    · simp only [Progress.begun, hsize]
      exact Nat.lt_succ_of_lt (h.anonymous id e' he)
  · intro id e' he
    obtain ⟨hlt, hkind⟩ := h.globals id e' he
    simp only [Progress.begun, hsize, hcomplex, Nat.ne_of_lt hlt, if_false]
    exact ⟨Nat.lt_succ_of_lt hlt, hkind⟩
  · intro id hid
    simp only [Progress.begun, hcomplex] at hid
    split at hid
    · next he => exact .inl (by simp [Progress.begun, ← he])
    · exact (h.complexes id hid).imp_left hk.mem_notes
  · intro name id hid
    simp only [Progress.begun, hsize]
    rcases findType_addType hid with he | hid
    · omega
    · exact Nat.lt_succ_of_lt (h.names name id hid)
  · intro id ct hct hb
    simp only [Progress.begun, hcomplex] at hct
    split at hct
    · cases hct
      exact ⟨rfl, rfl, rfl⟩
    · exact h.bare id ct hct fun hm => hb (hk.mem_notes hm)
  · intro id hb
    have hb : (id, BuildState.built) ∈ p.notes := by
      simpa [Progress.begun, Progress.placed] using hb
    exact hk.mem_notes (h.built id hb)
  · intro id ct hct hb
    have hb : (id, BuildState.built) ∈ p.notes := by
      simpa [Progress.begun, Progress.placed] using hb
    have hne := Nat.ne_of_lt (h.noted id _ hb)
    simp only [Progress.begun, hcomplex, hne, if_false] at hct
    exact hk.extends (h.built id hb) (h.extensions id ct hct hb)

end Building

end SchemaForms.Loader
