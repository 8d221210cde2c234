import SchemaForms.Proofs.Schema.Building

/-!
Closed graphs.  Every number that is stored in a graph is that of a type, an element or an attribute
use of the graph; it stays so when components are added and definitions are put in their place,
because a graph only grows.
-/

namespace SchemaForms

/-- The types of items or members. -/
def Variety.refs : Variety → List TypeId
  | .atomic => []
  | .list item => item.toList
  | .union members => members

namespace TypeDef

/-- The types that a definition refers to. -/
def typeRefs : TypeDef → List TypeId
  | .any => []
  | .simple t => t.base.toList ++ t.variety.refs
  | .complex t => t.base.toList

/-- The elements that a definition refers to, at any depth of its particle. -/
def elementRefs : TypeDef → List ElementId
  | .complex t => (t.particle.map Particle.elementIds).getD []
  | _ => []

/-- The attribute uses that a definition refers to. -/
def useRefs : TypeDef → List UseId
  | .complex t => t.uses
  | _ => []

end TypeDef

namespace Schema

def HasType (s : Schema) (id : TypeId) : Prop := id.index < s.types.size

def HasElement (s : Schema) (id : ElementId) : Prop := id.index < s.elements.size

def HasUse (s : Schema) (id : UseId) : Prop := id.index < s.uses.size

/-- Whatever a definition refers to is in the graph. -/
structure Holds (s : Schema) (t : TypeDef) : Prop where
  types : ∀ id ∈ t.typeRefs, s.HasType id
  elements : ∀ id ∈ t.elementRefs, s.HasElement id
  uses : ∀ id ∈ t.useRefs, s.HasUse id

/-- The type of a declaration and the type that encloses it are in the graph. -/
def HoldsDecl (s : Schema) (d : ElementDecl) : Prop :=
  ∀ id, d.type = some id ∨ d.enclosing = some id → s.HasType id

/-- The type of the attribute is in the graph. -/
def HoldsUse (s : Schema) (u : AttributeUse) : Prop := ∀ id, u.decl.type = some id → s.HasType id

/-- Every number in the graph is that of something in the graph. -/
structure Closed (s : Schema) : Prop where
  types : ∀ t ∈ s.types, s.Holds t
  elements : ∀ d ∈ s.elements, s.HoldsDecl d
  uses : ∀ u ∈ s.uses, s.HoldsUse u
  typeNames : ∀ e ∈ s.typeNames.entries, s.HasType e.2
  elementNames : ∀ e ∈ s.elementNames.entries, s.HasElement e.2

/-- A graph that has grown: nothing is gone, types keep their names and elements their places. -/
structure Grows (s s' : Schema) : Prop where
  types : s.types.size ≤ s'.types.size
  elements : s.elements.size ≤ s'.elements.size
  uses : s.uses.size ≤ s'.uses.size
  name : ∀ id, s.HasType id → (s'.typeDef id).name? = (s.typeDef id).name?
  enclosing : ∀ id, s.HasElement id → (s'.element id).enclosing = (s.element id).enclosing

variable {s s' s'' : Schema}

namespace Grows

theorem refl (s : Schema) : s.Grows s where
  types := Nat.le_refl _
  elements := Nat.le_refl _
  uses := Nat.le_refl _
  name _ _ := rfl
  enclosing _ _ := rfl

theorem hasType (h : s.Grows s') {id : TypeId} (hid : s.HasType id) : s'.HasType id :=
  Nat.lt_of_lt_of_le hid h.types

theorem hasElement (h : s.Grows s') {id : ElementId} (hid : s.HasElement id) : s'.HasElement id :=
  Nat.lt_of_lt_of_le hid h.elements

theorem hasUse (h : s.Grows s') {id : UseId} (hid : s.HasUse id) : s'.HasUse id :=
  Nat.lt_of_lt_of_le hid h.uses

theorem trans (h : s.Grows s') (h' : s'.Grows s'') : s.Grows s'' where
  types := Nat.le_trans h.types h'.types
  elements := Nat.le_trans h.elements h'.elements
  uses := Nat.le_trans h.uses h'.uses
  name id hid := (h'.name id (h.hasType hid)).trans (h.name id hid)
  enclosing id hid := (h'.enclosing id (h.hasElement hid)).trans (h.enclosing id hid)

theorem holds (h : s.Grows s') {t : TypeDef} (ht : s.Holds t) : s'.Holds t where
  types id hid := h.hasType (ht.types id hid)
  elements id hid := h.hasElement (ht.elements id hid)
  uses id hid := h.hasUse (ht.uses id hid)

theorem holdsDecl (h : s.Grows s') {d : ElementDecl} (hd : s.HoldsDecl d) : s'.HoldsDecl d :=
  fun id hid => h.hasType (hd id hid)

theorem holdsUse (h : s.Grows s') {u : AttributeUse} (hu : s.HoldsUse u) : s'.HoldsUse u :=
  fun id hid => h.hasType (hu id hid)

end Grows

/-! What the numbers lead to. -/

theorem getD_mem {α : Type} {xs : Array α} {i : Nat} (h : i < xs.size) (d : α) : xs.getD i d ∈ xs := by
  rw [Array.getD_eq_getD_getElem?, Array.getElem?_eq_getElem h]
  exact Array.getElem_mem h

theorem typeDef_mem {id : TypeId} (h : s.HasType id) : s.typeDef id ∈ s.types := getD_mem h _

theorem element_mem_of_has {id : ElementId} (h : s.HasElement id) : s.element id ∈ s.elements :=
  getD_mem h _

theorem use_mem_of_has {id : UseId} (h : s.HasUse id) : s.use id ∈ s.uses := getD_mem h _

theorem typeDef_of_not_hasType {id : TypeId} (h : ¬ s.HasType id) : s.typeDef id = .any := by
  simp [typeDef, Array.getD_eq_getD_getElem?, Array.getElem?_eq_none (Nat.not_lt.1 h)]

theorem hasType_of_complex {id : TypeId} (h : (s.complex? id).isSome) : s.HasType id := by
  refine Nat.lt_of_not_le fun hid => ?_
  rw [Loader.complex?_of_size_le hid] at h
  cases h

namespace Closed

/-- Beyond the types of a graph there is nothing that refers to anything. -/
theorem typeDef (h : s.Closed) (id : TypeId) : s.Holds (s.typeDef id) := by
  by_cases hid : s.HasType id
  · exact h.types _ (typeDef_mem hid)
  · rw [typeDef_of_not_hasType hid]
    exact ⟨by simp [TypeDef.typeRefs], by simp [TypeDef.elementRefs], by simp [TypeDef.useRefs]⟩

theorem base (h : s.Closed) {a b : TypeId} (hab : s.base? a = some b) : s.HasType b := by
  refine (h.typeDef a).types b ?_
  unfold base? at hab
  cases hdef : s.typeDef a with
  | any => simp [hdef, TypeDef.base?] at hab
  | simple t =>
    have hbase : t.base = some b := by simpa [hdef, TypeDef.base?] using hab
    simp [TypeDef.typeRefs, hbase]
  | complex t =>
    have hbase : t.base = some b := by simpa [hdef, TypeDef.base?] using hab
    simp [TypeDef.typeRefs, hbase]

theorem complexUses (h : s.Closed) {a : TypeId} {t : ComplexType} (ht : s.complex? a = some t) :
    ∀ id ∈ t.uses, s.HasUse id := by
  have huses := (h.typeDef a).uses
  unfold complex? at ht
  cases hdef : s.typeDef a with
  | any => simp [hdef, TypeDef.complex?] at ht
  | simple _ => simp [hdef, TypeDef.complex?] at ht
  | complex t' =>
    simp only [hdef, TypeDef.complex?, Option.some.injEq] at ht
    simpa [hdef, TypeDef.useRefs, ht] using huses

theorem complexElements (h : s.Closed) {a : TypeId} {t : ComplexType} (ht : s.complex? a = some t) :
    ∀ id ∈ (t.particle.map Particle.elementIds).getD [], s.HasElement id := by
  have helements := (h.typeDef a).elements
  unfold complex? at ht
  cases hdef : s.typeDef a with
  | any => simp [hdef, TypeDef.complex?] at ht
  | simple _ => simp [hdef, TypeDef.complex?] at ht
  | complex t' =>
    simp only [hdef, TypeDef.complex?, Option.some.injEq] at ht
    simpa only [hdef, TypeDef.elementRefs, ht] using helements

theorem findType (h : s.Closed) {name : QName} {id : TypeId} (hid : s.findType name = some id) :
    s.HasType id :=
  h.typeNames _ (Table.mem_entries_of_get? hid)

theorem findElement (h : s.Closed) {name : QName} {id : ElementId}
    (hid : s.findElement name = some id) : s.HasElement id :=
  h.elementNames _ (Table.mem_entries_of_get? hid)

end Closed

/-! How a graph grows. -/

theorem grows_addType (s : Schema) (t : TypeDef) : s.Grows (s.addType t).2 where
  types := by simp [Loader.size_addType]
  elements := Nat.le_refl _
  uses := Nat.le_refl _
  name id hid := by rw [Loader.typeDef_addType, if_neg (Nat.ne_of_lt hid)]
  enclosing _ _ := rfl

theorem grows_setType {id : TypeId} {t : TypeDef} (hid : s.HasType id)
    (hname : t.name? = (s.typeDef id).name?) : s.Grows (s.setType id t) where
  types := by simp [Loader.size_setType]
  elements := Nat.le_refl _
  uses := Nat.le_refl _
  name other _ := by
    rw [Loader.typeDef_setType s t hid]
    split
    · next he => rw [hname, he]
    · rfl
  enclosing _ _ := rfl

theorem element_addElement (s : Schema) (d : ElementDecl) (id : ElementId) :
    (s.addElement d).2.element id = if id.index = s.elements.size then d else s.element id := by
  simp only [addElement, element, Array.getD_eq_getD_getElem?, Array.getElem?_push]
  split <;> rfl

theorem grows_addElement (s : Schema) (d : ElementDecl) : s.Grows (s.addElement d).2 where
  types := Nat.le_refl _
  elements := by simp [addElement]
  uses := Nat.le_refl _
  name _ _ := rfl
  enclosing id hid := by rw [element_addElement, if_neg (Nat.ne_of_lt hid)]

theorem element_setElement {id : ElementId} (d : ElementDecl) (hid : s.HasElement id)
    (other : ElementId) :
    (s.setElement id d).element other = if id = other then d else s.element other := by
  obtain ⟨i⟩ := id
  obtain ⟨j⟩ := other
  simp only [setElement, element, Array.getD_eq_getD_getElem?, Array.getElem?_setIfInBounds,
    ElementId.mk.injEq]
  by_cases h : i = j
  · subst h
    simp [show i < s.elements.size from hid]
  · simp [h]

theorem grows_setElement {id : ElementId} {d : ElementDecl} (hid : s.HasElement id)
    (hplace : d.enclosing = (s.element id).enclosing) : s.Grows (s.setElement id d) where
  types := Nat.le_refl _
  elements := by simp [setElement]
  uses := Nat.le_refl _
  name _ _ := rfl
  enclosing other _ := by
    rw [element_setElement d hid]
    split
    · next he => rw [hplace, he]
    · rfl

theorem grows_addUse (s : Schema) (u : AttributeUse) : s.Grows (s.addUse u).2 where
  types := Nat.le_refl _
  elements := Nat.le_refl _
  uses := by simp [addUse]
  name _ _ := rfl
  enclosing _ _ := rfl

namespace Closed

/-- What is the same of a graph that has grown stays closed. -/
theorem mono (h : s.Closed) (hg : s.Grows s')
    (htypes : ∀ t ∈ s'.types, t ∈ s.types ∨ s'.Holds t)
    (helements : ∀ d ∈ s'.elements, d ∈ s.elements ∨ s'.HoldsDecl d)
    (huses : ∀ u ∈ s'.uses, u ∈ s.uses ∨ s'.HoldsUse u)
    (htypeNames : ∀ e ∈ s'.typeNames.entries, e ∈ s.typeNames.entries ∨ s'.HasType e.2)
    (helementNames : ∀ e ∈ s'.elementNames.entries,
      e ∈ s.elementNames.entries ∨ s'.HasElement e.2) : s'.Closed where
  types t ht := (htypes t ht).elim (fun ht => hg.holds (h.types t ht)) id
  elements d hd := (helements d hd).elim (fun hd => hg.holdsDecl (h.elements d hd)) id
  uses u hu := (huses u hu).elim (fun hu => hg.holdsUse (h.uses u hu)) id
  typeNames e he := (htypeNames e he).elim (fun he => hg.hasType (h.typeNames e he)) id
  elementNames e he := (helementNames e he).elim (fun he => hg.hasElement (h.elementNames e he)) id

theorem addType (h : s.Closed) {t : TypeDef} (ht : s.Holds t) : (s.addType t).2.Closed := by
  have hg := grows_addType s t
  refine h.mono hg ?_ (fun _ hd => .inl hd) (fun _ hu => .inl hu) ?_ (fun _ he => .inl he)
  · intro t' ht'
    rcases Array.mem_push.1 ht' with ht' | rfl
    · exact .inl ht'
    · exact .inr (hg.holds ht)
  · intro e he
    simp only [Schema.addType] at he
    split at he
    · rcases Table.mem_entries_put he with he | rfl
      · exact .inl he
      · exact .inr (by simp [HasType, Loader.size_addType])
    · exact .inl he

theorem setType (h : s.Closed) {id : TypeId} {t : TypeDef} (hid : s.HasType id)
    (hname : t.name? = (s.typeDef id).name?) (ht : s.Holds t) : (s.setType id t).Closed := by
  have hg := grows_setType hid hname
  refine h.mono hg ?_ (fun _ hd => .inl hd) (fun _ hu => .inl hu) ?_ (fun _ he => .inl he)
  · intro t' ht'
    rcases Array.mem_or_eq_of_mem_setIfInBounds ht' with ht' | rfl
    · exact .inl ht'
    · exact .inr (hg.holds ht)
  · intro e he
    simp only [Schema.setType] at he
    split at he
    · rcases Table.mem_entries_put he with he | rfl
      · exact .inl he
      · exact .inr (hg.hasType hid)
    · exact .inl he

theorem addElement (h : s.Closed) {d : ElementDecl} (hd : s.HoldsDecl d) :
    (s.addElement d).2.Closed := by
  have hg := grows_addElement s d
  refine h.mono hg (fun _ ht => .inl ht) ?_ (fun _ hu => .inl hu) (fun _ he => .inl he)
    (fun _ he => .inl he)
  intro d' hd'
  rcases Array.mem_push.1 hd' with hd' | rfl
  · exact .inl hd'
  · exact .inr (hg.holdsDecl hd)

theorem addGlobalElement (h : s.Closed) {d : ElementDecl} (hd : s.HoldsDecl d) :
    (s.addGlobalElement d).2.Closed := by
  have hg : s.Grows (s.addGlobalElement d).2 :=
    { grows_addElement s d with }
  have hadded := h.addElement hd
  refine h.mono hg (fun _ ht => .inl ht) (fun d' hd' => .inr ?_) (fun _ hu => .inl hu)
    (fun _ he => .inl he) ?_
  · exact fun id hid => hadded.elements d' hd' id hid
  · intro e he
    rcases Table.mem_entries_put he with he | rfl
    · exact .inl he
    · exact .inr (by simp [HasElement, Schema.addGlobalElement, Schema.addElement])

theorem setElement (h : s.Closed) {id : ElementId} {d : ElementDecl} (hid : s.HasElement id)
    (hplace : d.enclosing = (s.element id).enclosing) (hd : s.HoldsDecl d) :
    (s.setElement id d).Closed := by
  have hg := grows_setElement hid hplace
  refine h.mono hg (fun _ ht => .inl ht) ?_ (fun _ hu => .inl hu) (fun _ he => .inl he)
    (fun _ he => .inl he)
  intro d' hd'
  rcases Array.mem_or_eq_of_mem_setIfInBounds hd' with hd' | rfl
  · exact .inl hd'
  · exact .inr (hg.holdsDecl hd)

theorem addUse (h : s.Closed) {u : AttributeUse} (hu : s.HoldsUse u) : (s.addUse u).2.Closed := by
  have hg := grows_addUse s u
  refine h.mono hg (fun _ ht => .inl ht) (fun _ hd => .inl hd) ?_ (fun _ he => .inl he)
    (fun _ he => .inl he)
  intro u' hu'
  rcases Array.mem_push.1 hu' with hu' | rfl
  · exact .inl hu'
  · exact .inr (hg.holdsUse hu)

end Closed

end Schema

end SchemaForms
