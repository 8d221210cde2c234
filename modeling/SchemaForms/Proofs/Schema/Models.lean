import SchemaForms.Proofs.Schema.Surrounding

/-!
Content models.  Which particles the content model of a declaration stands for depends on the groups
that are open when it is read: a reference to one of these is left out, and any other reference
stands for what the group contains, read with the group open.
-/

namespace SchemaForms

namespace Schema

/-- Elements keep their names, and names lead to the same elements. -/
structure KeepsElements (s s' : Schema) : Prop where
  name : ∀ id, s.HasElement id → (s'.element id).name = (s.element id).name
  found : s'.elementNames = s.elementNames

namespace KeepsElements

variable {s s' s'' : Schema}

theorem refl (s : Schema) : s.KeepsElements s := ⟨fun _ _ => rfl, rfl⟩

theorem trans (h : s.KeepsElements s') (h' : s'.KeepsElements s'') (hg : s.Grows s') :
    s.KeepsElements s'' where
  name id hid := (h'.name id (hg.hasElement hid)).trans (h.name id hid)
  found := h'.found.trans h.found

theorem of_eq (he : s'.elements = s.elements) (hn : s'.elementNames = s.elementNames) :
    s.KeepsElements s' where
  name id _ := by rw [element, element, he]
  found := hn

theorem findElement (h : s.KeepsElements s') : s'.findElement = s.findElement := by
  funext name
  rw [Schema.findElement, Schema.findElement, h.found]

theorem addElement (s : Schema) (d : ElementDecl) : s.KeepsElements (s.addElement d).2 where
  name id hid := by rw [element_addElement, if_neg (Nat.ne_of_lt hid)]
  found := rfl

theorem setElement {id : ElementId} {d : ElementDecl} (hid : s.HasElement id)
    (hname : d.name = (s.element id).name) : s.KeepsElements (s.setElement id d) where
  name other _ := by
    rw [element_setElement d hid]
    split
    · next he => rw [hname, he]
    · rfl
  found := rfl

end KeepsElements

end Schema

namespace Loader

open SchemaForms.Xml
open SchemaForms.Source (parts part? groupNames)

/-- The content model of a declaration, if it has one; where the type is derived, it is that of the
extension or the restriction. -/
def model? (e : Element) : Option Element :=
  match part? e ["simpleContent"], part? e ["complexContent"] with
  | some _, _ => none
  | none, some content =>
    (Source.derivation content).toOption.bind (part? · (groupNames ++ ["group"]))
  | none, none => part? e (groupNames ++ ["group"])

/-- An element of a content model stands for the global element that it refers to, or for the one
that is declared there for the type. -/
def Denotes (c : Context) (s : Schema) (type : TypeId) (e : Element) (id : ElementId) : Prop :=
  match e.attribute? "ref" with
  | some reference => (nameOf? e reference).bind s.findElement = some id
  | none => s.HasElement id ∧ (s.element id).enclosing = some type ∧
    ∃ name, e.attribute? "name" = some name ∧
      (s.element id).name = localName c.target e c.qualifiedElements name

/-- What stands for nothing in a content model, whatever groups are open: a reference that leads to
no element or to no content of a group, and elements of other kinds. -/
inductive Blank (c : Context) (s : Schema) (e : Element) : Prop
  | element {reference : String} (hname : e.localName = "element")
    (href : e.attribute? "ref" = some reference)
    (hlost : (nameOf? e reference).bind s.findElement = none)
  | group (hname : e.localName = "group") (hlost : expansion? c e = none)
  | other (hname : e.localName ∉ groupNames ++ ["element", "group", "any"])

/-- The particles that elements of the content model of a type stand for, read with some groups
open.  A reference to a group stands for the content of the group under its own bounds, unless the
group is open. -/
inductive Reads (c : Context) (s : Schema) (type : TypeId) :
    List QName → List Element → List Particle → Prop
  | nil {opens : List QName} : Reads c s type opens [] []
  | group {opens : List QName} {e : Element} {es : List Element} {ps qs : List Particle}
    {bounds : Occurs} {compositor : Compositor}
    (hname : Compositor.ofName? e.localName = some compositor)
    (hbounds : Source.occurs e = .ok bounds) (hmembers : Reads c s type opens (parts e) ps)
    (hrest : Reads c s type opens es qs) :
    Reads c s type opens (e :: es) (.group bounds compositor ps :: qs)
  | element {opens : List QName} {e : Element} {es : List Element} {qs : List Particle}
    {bounds : Occurs} {id : ElementId} (hname : e.localName = "element")
    (hbounds : Source.occurs e = .ok bounds) (hid : Denotes c s type e id)
    (hrest : Reads c s type opens es qs) :
    Reads c s type opens (e :: es) (.element bounds id :: qs)
  | expansion {opens : List QName} {e model : Element} {es : List Element} {ps qs : List Particle}
    {bounds : Occurs} {name : QName} {compositor : Compositor} (hname : e.localName = "group")
    (hbounds : Source.occurs e = .ok bounds) (hgroup : expansion? c e = some (name, model))
    (hopen : name ∉ opens) (hmodel : Compositor.ofName? model.localName = some compositor)
    (hmembers : Reads c s type (name :: opens) (parts model) ps)
    (hrest : Reads c s type opens es qs) :
    Reads c s type opens (e :: es) (.group bounds compositor ps :: qs)
  | circular {opens : List QName} {e model : Element} {es : List Element} {qs : List Particle}
    {name : QName} (hname : e.localName = "group") (hgroup : expansion? c e = some (name, model))
    (hopen : name ∈ opens) (hrest : Reads c s type opens es qs) : Reads c s type opens (e :: es) qs
  | wildcard {opens : List QName} {e : Element} {es : List Element} {qs : List Particle}
    {bounds : Occurs} (hname : e.localName = "any") (hbounds : Source.occurs e = .ok bounds)
    (hrest : Reads c s type opens es qs) :
    Reads c s type opens (e :: es) (.wildcard bounds (Source.wildcard e) :: qs)
  | blank {opens : List QName} {e : Element} {es : List Element} {qs : List Particle}
    (hblank : Blank c s e) (hrest : Reads c s type opens es qs) : Reads c s type opens (e :: es) qs

/-- The type holds its own content; an extension holds that of its base in front of it, if the base
has been built by then. -/
def HoldsOwn (p : Progress) (t : ComplexType) (own : Option Particle) : Prop :=
  if t.derivation = .extension then
    ∃ inherited, t.particle = extendParticle inherited own ∧ (inherited = none ∨
      ∃ base b, t.base = some base ∧ (base, .built) ∈ p.notes ∧ p.schema.complex? base = some b ∧
        inherited = b.particle)
  else t.particle = own

/-- The content of the type is what its declaration says, read with some groups open. -/
def ReadAs (c : Context) (p : Progress) (id : TypeId) (opens : List QName) (e : Element)
    (t : ComplexType) : Prop :=
  ∃ own, Reads c p.schema id opens (model? e).toList own.toList ∧ HoldsOwn p t own

/-- The content of every complex type that is built is what its declaration says, read with the
groups open that are open around the building of the type. -/
def Accounted (c : Context) (p : Progress) : Prop :=
  ∀ id, (id, .built) ∈ p.notes → ∃ e opens, Declares c p id e ∧ OpenAround c p id opens ∧
    ∀ t, p.schema.complex? id = some t → ReadAs c p id opens e t

/-! What lasts. -/

section Lasting

variable {c : Context} {s s' : Schema} {type : TypeId}

theorem Denotes.mono {e : Element} {id : ElementId} (h : Denotes c s type e id) (hg : s.Grows s')
    (hk : s.KeepsElements s') : Denotes c s' type e id := by
  unfold Denotes at h ⊢
  split
  · next reference href =>
    rw [href] at h
    rwa [hk.findElement]
  · next href =>
    rw [href] at h
    obtain ⟨hid, henclosing, name, hattribute, hname⟩ := h
    exact ⟨hg.hasElement hid, (hg.enclosing id hid).trans henclosing, name, hattribute,
      (hk.name id hid).trans hname⟩

theorem Blank.mono {e : Element} (h : Blank c s e) (hk : s.KeepsElements s') : Blank c s' e := by
  cases h with
  | element hname href hlost =>
    refine .element hname href ?_
    rwa [hk.findElement]
  | group hname hlost => exact .group hname hlost
  | other hname => exact .other hname

theorem Reads.mono {opens : List QName} {es : List Element} {ps : List Particle}
    (h : Reads c s type opens es ps) (hg : s.Grows s') (hk : s.KeepsElements s') :
    Reads c s' type opens es ps := by
  induction h with
  | nil => exact .nil
  | group hname hbounds _ _ ihmembers ihrest => exact .group hname hbounds ihmembers ihrest
  | element hname hbounds hid _ ihrest => exact .element hname hbounds (hid.mono hg hk) ihrest
  | expansion hname hbounds hgroup hopen hmodel _ _ ihmembers ihrest =>
    exact .expansion hname hbounds hgroup hopen hmodel ihmembers ihrest
  | circular hname hgroup hopen _ ihrest => exact .circular hname hgroup hopen ihrest
  | wildcard hname hbounds _ ihrest => exact .wildcard hname hbounds ihrest
  | blank hblank _ ihrest => exact .blank (hblank.mono hk) ihrest

/-- The particles of one element, and then those of the ones behind it. -/
theorem Reads.append {opens : List QName} {e : Element} {es : List Element} {ps qs : List Particle}
    (h : Reads c s type opens [e] ps) (hrest : Reads c s type opens es qs) :
    Reads c s type opens (e :: es) (ps ++ qs) := by
  cases h with
  | group hname hbounds hmembers hnil =>
    cases hnil
    exact .group hname hbounds hmembers hrest
  | element hname hbounds hid hnil =>
    cases hnil
    exact .element hname hbounds hid hrest
  | expansion hname hbounds hgroup hopen hmodel hmembers hnil =>
    cases hnil
    exact .expansion hname hbounds hgroup hopen hmodel hmembers hrest
  | circular hname hgroup hopen hnil =>
    cases hnil
    exact .circular hname hgroup hopen hrest
  | wildcard hname hbounds hnil =>
    cases hnil
    exact .wildcard hname hbounds hrest
  | blank hblank hnil =>
    cases hnil
    exact .blank hblank hrest

omit c s type in
theorem isSome_ofName?_iff {name : String} :
    (Compositor.ofName? name).isSome ↔ name ∈ groupNames := by
  unfold Compositor.ofName?
  repeat' split
  all_goals simp_all [groupNames]

/-- What a group contains is a model group. -/
theorem ofName?_of_expansion? {e model : Element} {name : QName}
    (h : expansion? c e = some (name, model)) :
    ∃ compositor, Compositor.ofName? model.localName = some compositor := by
  simp only [expansion?, Option.bind_eq_bind, Option.bind_eq_some_iff, Option.pure_def,
    Option.some.injEq, Prod.mk.injEq] at h
  obtain ⟨_, _, _, _, definition, _, _, hmodel, -, rfl⟩ := h
  exact Option.isSome_iff_exists.1 (isSome_ofName?_iff.2 (by simpa using List.find?_some hmodel))

/-- A model group stands for one particle, whichever groups are open. -/
theorem Reads.of_compositor {opens : List QName} {e : Element} {ps : List Particle}
    {compositor : Compositor} (h : Reads c s type opens [e] ps)
    (hc : Compositor.ofName? e.localName = some compositor) :
    ∃ bounds qs, ps = [.group bounds compositor qs] ∧ Reads c s type opens (parts e) qs := by
  have hne (name : String) (hnone : Compositor.ofName? name = none) : e.localName ≠ name :=
    fun he => by rw [he, hnone] at hc; cases hc
  cases h with
  | group hname hbounds hmembers hnil =>
    cases hnil
    cases hname.symm.trans hc
    exact ⟨_, _, rfl, hmembers⟩
  | element hname => exact absurd hname (hne "element" rfl)
  | expansion hname => exact absurd hname (hne "group" rfl)
  | circular hname => exact absurd hname (hne "group" rfl)
  | wildcard hname => exact absurd hname (hne "any" rfl)
  | blank hblank =>
    cases hblank with
    | element hname => exact absurd hname (hne "element" rfl)
    | group hname => exact absurd hname (hne "group" rfl)
    | other hname =>
      have hmem : e.localName ∈ groupNames := isSome_ofName?_iff.1 (by rw [hc]; rfl)
      exact absurd (List.mem_append_left _ hmem) hname

/-- A reference to a group that has content stands for nothing exactly if the group is open; else it
stands for that content, under its own bounds. -/
theorem Reads.reference {opens : List QName} {e model : Element} {name : QName} {ps : List Particle}
    (h : Reads c s type opens [e] ps) (he : e.localName = "group")
    (hgroup : expansion? c e = some (name, model)) :
    name ∈ opens ∧ ps = [] ∨ name ∉ opens ∧ ∃ bounds compositor qs,
      Source.occurs e = .ok bounds ∧ Compositor.ofName? model.localName = some compositor ∧
        Reads c s type (name :: opens) (parts model) qs ∧ ps = [.group bounds compositor qs] := by
  cases h with
  | group hname =>
    rw [he] at hname
    cases hname
  | element hname => simp [he] at hname
  | expansion hname hbounds hgroup' hopen hmodel hmembers hnil =>
    cases hnil
    cases hgroup.symm.trans hgroup'
    exact .inr ⟨hopen, _, _, _, hbounds, hmodel, hmembers, rfl⟩
  | circular hname hgroup' hopen hnil =>
    cases hnil
    cases hgroup.symm.trans hgroup'
    exact .inl ⟨hopen, rfl⟩
  | wildcard hname => simp [he] at hname
  | blank hblank =>
    cases hblank with
    | element hname => simp [he] at hname
    | group hname hlost => cases hgroup.symm.trans hlost
    | other hname => simp [he] at hname

/-- An element that is declared in a content model stands for a particle that holds just it. -/
theorem Reads.declared {opens : List QName} {e : Element} {ps : List Particle}
    (h : Reads c s type opens [e] ps) (he : e.localName = "element")
    (href : e.attribute? "ref" = none) :
    ∃ bounds id, ps = [.element bounds id] ∧ Denotes c s type e id := by
  cases h with
  | group hname =>
    rw [he] at hname
    cases hname
  | element hname hbounds hid hnil =>
    cases hnil
    exact ⟨_, _, rfl, hid⟩
  | expansion hname => simp [he] at hname
  | circular hname => simp [he] at hname
  | wildcard hname => simp [he] at hname
  | blank hblank =>
    cases hblank with
    | element hname href' => cases href.symm.trans href'
    | group hname => simp [he] at hname
    | other hname => simp [he] at hname

variable {p q : Progress}

theorem HoldsOwn.mono {t : ComplexType} {own : Option Particle} (h : HoldsOwn p t own)
    (ho : InOrder c p) (hk : Keeps p q) : HoldsOwn q t own := by
  unfold HoldsOwn at h ⊢
  split
  · next hx =>
    rw [if_pos hx] at h
    obtain ⟨inherited, hparticle, hinherited⟩ := h
    refine ⟨inherited, hparticle, hinherited.imp_right ?_⟩
    rintro ⟨base, b, hbase, hbuilt, hb, rfl⟩
    refine ⟨base, b, hbase, hk.mem_notes hbuilt, ?_, rfl⟩
    rw [Schema.complex?, hk.built base (ho.noted base _ hbuilt) hbuilt]
    exact hb
  · next hx =>
    rw [if_neg hx] at h
    exact h

theorem ReadAs.mono {id : TypeId} {opens : List QName} {e : Element} {t : ComplexType}
    (h : ReadAs c p id opens e t) (ho : InOrder c p) (hk : Keeps p q)
    (hg : p.schema.Grows q.schema) (hkeeps : p.schema.KeepsElements q.schema) :
    ReadAs c q id opens e t := by
  obtain ⟨own, hreads, hown⟩ := h
  exact ⟨own, hreads.mono hg hkeeps, hown.mono ho hk⟩

/-- Of a graph that has grown, only the types that are newly built need to be accounted for. -/
theorem Accounted.mono (h : Accounted c p) (ho : InOrder c p) (hk : Keeps p q)
    (hg : p.schema.Grows q.schema) (hkeeps : p.schema.KeepsElements q.schema)
    (hnew : ∀ id, (id, .built) ∈ q.notes → (id, .built) ∈ p.notes ∨
      ∃ e opens, Declares c q id e ∧ OpenAround c q id opens ∧
        ∀ t, q.schema.complex? id = some t → ReadAs c q id opens e t) : Accounted c q := by
  intro id hid
  rcases hnew id hid with hold | hnew
  · obtain ⟨e, opens, he, hopen, hread⟩ := h id hold
    refine ⟨e, opens, hk.declares he, hopen.mono ho hk hg, fun t ht => ?_⟩
    rw [Schema.complex?, hk.built id (ho.noted id _ hold) hold] at ht
    exact (hread t ht).mono ho hk hg hkeeps
  · exact hnew

end Lasting

end Loader

end SchemaForms
