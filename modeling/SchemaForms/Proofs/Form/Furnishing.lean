import SchemaForms.Proofs.Form.Drawing
import SchemaForms.Proofs.Form.Expanding
import SchemaForms.Proofs.Form.Wording

/-!
Furnishing the instance: all names in the instance data of a form are names of declarations, with
the prefixes that the run has given out for them, and no element has two attributes of one name.
-/

namespace SchemaForms

open Synthesis
open Xml (Element Attribute)

namespace PrefixTable

variable {t t' : PrefixTable} {name : QName} {nsPrefix : Option String}

/-- A name is written with the prefix that its namespace has been given. -/
inductive Spells (t : PrefixTable) : QName → Option String → Prop
  | bare (localName : String) : Spells t ⟨none, localName⟩ none
  | prefixed {nspace p : String} (h : t.entries.get? nspace = some p) (localName : String) :
    Spells t ⟨some nspace, localName⟩ (some p)

theorem Spells.mono (h : t.Spells name nsPrefix) (ht : t.Extends t') : t'.Spells name nsPrefix := by
  cases h with
  | bare l => exact .bare l
  | prefixed hp l => exact .prefixed (ht.get? hp) l

theorem spells_qualified (name : QName) (s : Synthesis) :
    (qualified name s).2.prefixes.Spells name (qualified name s).1.1 := by
  obtain ⟨nspace, l⟩ := name
  unfold qualified
  cases nspace with
  | none => exact .bare l
  | some ns =>
    refine .prefixed ?_ l
    simp only [PrefixTable.prefixFor]
    cases hentry : s.prefixes.entries.get? ns with
    | some p => simp [hentry]
    | none => simp

end PrefixTable

namespace Schema

variable {s : Schema}

/-- An element that has a type is one of those declared. -/
theorem element_mem {id : ElementId} (h : (s.element id).type.isSome) : s.element id ∈ s.elements := by
  by_cases hi : id.index < s.elements.size
  · have hget : s.element id = s.elements[id.index] := by simp [element, Array.getD, hi]
    rw [hget]
    exact Array.getElem_mem hi
  · have hget : s.element id = default := by simp [element, Array.getD, hi]
    rw [hget] at h
    cases h

theorem use_mem {id : UseId} (h : (s.use id).decl.type.isSome) : s.use id ∈ s.uses := by
  by_cases hi : id.index < s.uses.size
  · have hget : s.use id = s.uses[id.index] := by simp [use, Array.getD, hi]
    rw [hget]
    exact Array.getElem_mem hi
  · have hget : s.use id = default := by simp [use, Array.getD, hi]
    rw [hget] at h
    cases h

end Schema

namespace Xml

/-- An attribute of instance data: a declared one, or the one that names a type. -/
inductive Attribute.Declared (g : Generator) (t : PrefixTable) (a : Attribute) : Prop
  | use {use : AttributeUse} (h : use ∈ g.schema.uses) (name : a.name = use.decl.name)
    (spelled : t.Spells a.name a.nsPrefix)
  | type (name : a.name = Generator.xsiType) (spelled : a.nsPrefix = some "xsi")
    (value : g.IsTypeValue t a.value)

theorem Attribute.Declared.mono {g : Generator} {t t' : PrefixTable} {a : Attribute}
    (h : a.Declared g t) (ht : t.Extends t') : a.Declared g t' := by
  cases h with
  | use h name spelled => exact .use h name (spelled.mono ht)
  | type name spelled value => exact .type name spelled (value.mono ht)

namespace Element

/-- The tag of an element in instance data: its name is declared. -/
structure Declared (g : Generator) (t : PrefixTable) (e : Element) : Prop where
  name : ∃ decl ∈ g.schema.elements, e.name = decl.name
  spelled : t.Spells e.name e.nsPrefix

/-- The attributes of an element and all that is inside it are instance data. -/
inductive Furnished (g : Generator) (t : PrefixTable) : Element → Prop
  | intro {e : Element} (attributes : ∀ a ∈ e.attributes, a.Declared g t)
    (distinct : (e.attributes.map (·.name)).Nodup)
    (tags : ∀ c ∈ e.children, c.Declared g t ∧ c.declarations = [])
    (inner : ∀ c ∈ e.children, c.Furnished g t) : e.Furnished g t

/-- Two elements have the same name and declare the same. -/
structure Alike (e e' : Element) : Prop where
  name : e'.name = e.name
  nsPrefix : e'.nsPrefix = e.nsPrefix
  declarations : e'.declarations = e.declarations

theorem Alike.refl (e : Element) : e.Alike e := ⟨rfl, rfl, rfl⟩

theorem Alike.trans {e e' e'' : Element} (h : e.Alike e') (h' : e'.Alike e'') : e.Alike e'' :=
  ⟨h'.name.trans h.name, h'.nsPrefix.trans h.nsPrefix, h'.declarations.trans h.declarations⟩

theorem Alike.declared {g : Generator} {t : PrefixTable} {e e' : Element} (h : e.Alike e')
    (he : e.Declared g t) : e'.Declared g t := by
  refine ⟨?_, ?_⟩
  · rw [h.name]
    exact he.name
  · rw [h.name, h.nsPrefix]
    exact he.spelled

section Furnished

variable {g : Generator} {t t' : PrefixTable} {e c data : Element}

theorem Declared.mono (h : e.Declared g t) (ht : t.Extends t') : e.Declared g t' :=
  ⟨h.name, h.spelled.mono ht⟩

theorem Furnished.mono (h : e.Furnished g t) (ht : t.Extends t') : e.Furnished g t' := by
  induction h with
  | intro attributes distinct tags inner ih =>
    exact .intro (fun a ha => (attributes a ha).mono ht) distinct
      (fun c hc => ⟨(tags c hc).1.mono ht, (tags c hc).2⟩) ih

theorem furnished_bare (hattributes : e.attributes = []) (hchildren : e.children = []) :
    e.Furnished g t := by
  refine .intro (fun a ha => ?_) ?_ (fun c hc => ?_) fun c hc => ?_
  · rw [hattributes] at ha
    cases ha
  · rw [hattributes]
    exact .nil
  · rw [hchildren] at hc
    cases hc
  · rw [hchildren] at hc
    cases hc

/-- Only attributes and children matter. -/
theorem Furnished.congr {e' : Element} (h : e.Furnished g t)
    (hattributes : e'.attributes = e.attributes) (hchildren : e'.children = e.children) :
    e'.Furnished g t := by
  obtain ⟨attributes, distinct, tags, inner⟩ := h
  exact .intro (hattributes ▸ attributes) (hattributes ▸ distinct) (hchildren ▸ tags)
    (hchildren ▸ inner)

theorem Furnished.addAttribute {a : Attribute} (h : e.Furnished g t) (ha : a.Declared g t) :
    (Generator.addAttribute e a.name a.nsPrefix a.value).Furnished g t := by
  unfold Generator.addAttribute
  split
  · exact h
  · next hnew =>
    obtain ⟨attributes, distinct, tags, inner⟩ := h
    refine .intro (fun b hb => ?_) ?_ tags inner
    · rcases List.mem_append.1 hb with hb | hb
      · exact attributes b hb
      · rw [List.mem_singleton.1 hb]
        exact ha
    · rw [List.map_append, List.nodup_append]
      refine ⟨distinct, List.nodup_singleton _, fun name hname name' hname' => ?_⟩
      rw [List.map_singleton, List.mem_singleton] at hname'
      obtain ⟨b, hb, rfl⟩ := List.mem_map.1 hname
      rintro rfl
      exact hnew (List.any_eq_true.2 ⟨b, hb, beq_iff_eq.2 hname'⟩)

theorem Furnished.addChild (h : e.Furnished g t) (hc : c.Declared g t ∧ c.declarations = [])
    (hinner : c.Furnished g t) : (e.addChild c).Furnished g t := by
  obtain ⟨attributes, distinct, tags, inner⟩ := h
  refine .intro attributes distinct (fun c' hc' => ?_) fun c' hc' => ?_
  · rcases List.mem_append.1 hc' with hc' | hc'
    · exact tags c' hc'
    · rw [List.mem_singleton.1 hc']
      exact hc
  · rcases List.mem_append.1 hc' with hc' | hc'
    · exact inner c' hc'
    · rw [List.mem_singleton.1 hc']
      exact hinner

theorem alike_addAttribute (e : Element) (name : QName) (nsPrefix : Option String) (value : String) :
    e.Alike (Generator.addAttribute e name nsPrefix value) := by
  unfold Generator.addAttribute
  split <;> exact ⟨rfl, rfl, rfl⟩

/-- Merging the data of a case keeps an element furnished. -/
theorem Furnished.mergeCase (h : e.Furnished g t) (hdata : data.Furnished g t) :
    e.Alike (Generator.mergeCase e data) ∧ (Generator.mergeCase e data).Furnished g t := by
  have hattributes (as : List Attribute) (has : ∀ a ∈ as, a.Declared g t) {e : Element}
      (h : e.Furnished g t) :
      let merged := as.foldl (fun e a => Generator.addAttribute e a.name a.nsPrefix a.value) e
      e.Alike merged ∧ merged.Furnished g t := by
    induction as generalizing e with
    | nil => exact ⟨.refl e, h⟩
    | cons a as ih =>
      rw [List.forall_mem_cons] at has
      obtain ⟨halike, hmerged⟩ := ih has.2 (h.addAttribute has.1)
      exact ⟨(alike_addAttribute ..).trans halike, hmerged⟩
  have hchildren (cs : List Element) (htags : ∀ c ∈ cs, c.Declared g t ∧ c.declarations = [])
      (hinner : ∀ c ∈ cs, c.Furnished g t) {e : Element} (h : e.Furnished g t) :
      e.Alike (cs.foldl Generator.addNewChild e) ∧
        (cs.foldl Generator.addNewChild e).Furnished g t := by
    induction cs generalizing e with
    | nil => exact ⟨.refl e, h⟩
    | cons c cs ih =>
      rw [List.forall_mem_cons] at htags hinner
      have hadd : e.Alike (Generator.addNewChild e c) ∧
          (Generator.addNewChild e c).Furnished g t := by
        unfold Generator.addNewChild
        split
        · exact ⟨.refl e, h⟩
        · exact ⟨⟨rfl, rfl, rfl⟩, h.addChild htags.1 hinner.1⟩
      obtain ⟨halike, hmerged⟩ := ih htags.2 hinner.2 hadd.2
      exact ⟨hadd.1.trans halike, hmerged⟩
  obtain ⟨attributes, distinct, tags, inner⟩ := hdata
  obtain ⟨halike, hfields⟩ := hattributes data.attributes attributes h
  have hmerged : (Generator.mergeFields e data).Furnished g t := hfields.congr rfl rfl
  have hsame : e.Alike (Generator.mergeFields e data) :=
    ⟨halike.name, halike.nsPrefix, halike.declarations⟩
  obtain ⟨halike', hall⟩ := hchildren data.children tags inner hmerged
  rw [Generator.mergeCase_eq]
  exact ⟨hsame.trans halike', hall⟩

end Furnished

end Element

end Xml

/-- An element has been added to, and is furnished still. -/
structure Furnishes (g : Generator) (e : Element) (t : PrefixTable) (e' : Element) (t' : PrefixTable) :
    Prop where
  prefixes : t.Extends t'
  alike : e.Alike e'
  furnished : e'.Furnished g t'

namespace Furnishes

variable {g : Generator} {e e' e'' : Element} {t t' t'' : PrefixTable}

theorem still (h : e.Furnished g t) (ht : t.Extends t') : Furnishes g e t e t' :=
  ⟨ht, .refl e, h.mono ht⟩

theorem trans (h : Furnishes g e t e' t') (h' : Furnishes g e' t' e'' t'') :
    Furnishes g e t e'' t'' :=
  ⟨h.prefixes.trans h'.prefixes, h.alike.trans h'.alike, h'.furnished⟩

end Furnishes

/-- A sketch adds to an element, and furnishes what it adds. -/
def Furnishing (g : Generator) (e : Element) (p : Sketch Element) : Prop :=
  ∀ (d : Draft) (s : Synthesis), e.Furnished g s.prefixes →
    p.Ends d s fun e' _ s' => Furnishes g e s.prefixes e' s'.prefixes

/-- A sketch keeps the prefixes that have been given out. -/
def Retains {α : Type} (p : Sketch α) : Prop :=
  ∀ (d : Draft) (s : Synthesis), p.Ends d s fun _ _ s' => s.prefixes.Extends s'.prefixes

namespace Retains

variable {α : Type}

theorem lift {f : Synth α} (hf : Calm f) : Retains (liftM f) := fun _ s => (hf s).prefixes

theorem of_lays {p : Sketch α} {f : Forest String} (hp : Sketch.Lays p f) : Retains p := fun d s =>
  (hp d s).mono fun _ _ _ h => h.1.prefixes

theorem reuses (f : Sketch.Role) (isInherited : Bool) (nodeset : String) :
    Retains (Sketch.reuses f isInherited nodeset) := fun d s =>
  (Sketch.reuses_ends f isInherited nodeset d s).mono fun _ _ _ h => h.1.prefixes

end Retains

namespace Furnishing

variable {α : Type} {g : Generator} {e : Element} {p : Sketch Element}

theorem pure (e : Element) : Furnishing g e (Pure.pure e) := fun _ _ h => .still h .refl

theorem bind (hp : Furnishing g e p) {q : Element → Sketch Element}
    (hq : ∀ e', Furnishing g e' (q e')) : Furnishing g e (p >>= q) := by
  intro d s h
  rw [Sketch.ends_bind]
  have hfirst := hp d s h
  exact hfirst.trans (hq _ _ _ hfirst.furnished)

theorem behind {p : Sketch α} (hp : Retains p) {q : α → Sketch Element}
    (hq : ∀ a, Furnishing g e (q a)) : Furnishing g e (p >>= q) := by
  intro d s h
  rw [Sketch.ends_bind]
  have hfirst := hp d s
  have hrest := hq (p d s).1.1 (p d s).1.2 (p d s).2 (h.mono hfirst)
  exact ⟨hfirst.trans hrest.prefixes, hrest.alike, hrest.furnished⟩

theorem after {f : Synth α} (hf : Calm f) {q : α → Sketch Element}
    (hq : ∀ a, Furnishing g e (q a)) : Furnishing g e (liftM f >>= q) :=
  behind (.lift hf) hq

theorem look {q : Draft → Sketch Element} (hq : ∀ d, Furnishing g e (q d)) :
    Furnishing g e (get >>= q) := fun d => hq d d

theorem within (hp : Furnishing g e p) (before : List Control) (c : Control) :
    Furnishing g e (Sketch.within before c p) := fun d s h => hp { d with controls := .nil } s h

theorem withKid (hp : Furnishing g e p) (b : Bind) (nodeset : String) :
    Furnishing g e (Sketch.withKid b nodeset p) := by
  intro d s h
  rw [Sketch.ends_withKid]
  have hs := (Calm.allocate "bind" s).prefixes
  refine (hp _ _ (h.mono hs)).mono fun e' _ _ h' => ?_
  exact ⟨hs.trans h'.prefixes, h'.alike, h'.furnished⟩

theorem repeatOf (hp : Furnishing g e p) (id : String) (bind : Option String) :
    Furnishing g e (Sketch.repeatOf id bind p) :=
  .after (Calm.reportUngoverned id bind) fun _ => .after (Calm.repeatActions id bind) fun _ =>
    hp.within _ _

theorem items (hp : Furnishing g e p) (bind : Option String) (occurs : Occurs) :
    Furnishing g e (Sketch.items bind occurs p) := by
  unfold Sketch.items
  split
  · exact .after (Calm.allocate "repeat") fun id => hp.repeatOf id bind
  · exact hp

theorem groupItems (hp : Furnishing g e p) (occurs : Occurs) :
    Furnishing g e (Sketch.groupItems occurs p) := by
  unfold Sketch.groupItems
  split
  · exact .after (Calm.allocate "repeat") fun id => .look fun d => hp.repeatOf id d.governing
  · exact hp

end Furnishing

/-- Elements are added with what they are declared to be. -/
def Sketch.ChildSketch.Furnishes (g : Generator) (child : Sketch.ChildSketch) : Prop :=
  ∀ (e : Element) (id : ElementId) (path : String) (occurs : Occurs) (d : Draft) (s : Synthesis),
    e.Furnished g s.prefixes → (child e id path occurs).Ends d s fun r _ s' =>
      s.prefixes.Extends s'.prefixes ∧ ∀ c, r = some c →
        (g.schema.element id).type.isSome ∧ SchemaForms.Furnishes g e s.prefixes c s'.prefixes

namespace Sketch

open Generator (Owner bareInstance addAttribute mergeCase xsiType)

variable {g : Generator} {child : ChildSketch} {f : Role}

theorem retains_field (t : TypeId) (owner : Owner) (path : String) (occurs : Occurs) :
    Retains (slot (field g t owner path occurs)) := .of_lays (lays_field g t owner path occurs).slot

theorem retains_text (t : ComplexType) : Retains (text g f t) := by
  unfold text
  dsimp only
  split
  · exact retains_field _ _ _ _
  · exact retains_field _ _ _ _
  · exact fun _ _ => .refl

theorem furnishing_use (e : Element) (id : UseId) : Furnishing g e (use g f e id) := by
  intro d s h
  have hcalm := (Calm.qualified (g.schema.use id).decl.name s).prefixes
  have hspelled := PrefixTable.spells_qualified (g.schema.use id).decl.name s
  unfold use
  rw [ends_bind, ends_lift]
  generalize qualified (g.schema.use id).decl.name s = named at hcalm hspelled
  obtain ⟨⟨nsPrefix, name⟩, s₁⟩ := named
  dsimp only at hcalm hspelled ⊢
  rw [ends_bind]
  refine (Retains.reuses f _ _ d s₁).mono fun shared d₁ s₂ hs₂ => ?_
  have hbefore := hcalm.trans hs₂
  cases shared with
  | true =>
    rw [if_pos rfl, ends_pure]
    exact .still h hbefore
  | false =>
    rw [if_neg (by simp)]
    cases htype : (g.schema.use id).decl.type with
    | none =>
      dsimp only
      rw [ends_bind, ends_lift, ends_pure]
      exact .still h (hbefore.trans (Calm.report _ s₂).prefixes)
    | some t =>
      dsimp only
      rw [ends_bind]
      refine (retains_field t _ _ _ d₁ s₂).mono fun _ d₂ s₃ hs₃ => ?_
      rw [ends_pure]
      have hall := hbefore.trans hs₃
      have hmem : g.schema.use id ∈ g.schema.uses := Schema.use_mem (by rw [htype]; rfl)
      exact ⟨hall, Element.alike_addAttribute .., (h.mono hall).addAttribute
        (a := ⟨_, nsPrefix, _⟩) (.use hmem rfl (hspelled.mono (hs₂.trans hs₃)))⟩

theorem furnishing_uses (e : Element) (ids : List UseId) :
    Furnishing g e (uses g f e ids) := by
  induction ids generalizing e with
  | nil => exact .pure e
  | cons id ids ih => exact (furnishing_use e id).bind ih

theorem furnished_bareInstance (g : Generator) (t : PrefixTable) (decl : ElementDecl)
    (nsPrefix : Option String) : (bareInstance decl nsPrefix).Furnished g t ∧
      (bareInstance decl nsPrefix).name = decl.name ∧
      (bareInstance decl nsPrefix).nsPrefix = nsPrefix ∧
      (bareInstance decl nsPrefix).declarations = [] := by
  unfold bareInstance
  cases decl.value <;> exact ⟨Element.furnished_bare rfl rfl, rfl, rfl, rfl⟩

theorem furnishing_childElement (hchild : child.Furnishes g) (e : Element) (id : ElementId)
    (occurs : Occurs) : Furnishing g e (childElement g child f e id occurs) := by
  unfold childElement
  split
  · exact .pure e
  · intro d s h
    have hcalm := (Calm.qualified (g.schema.element id).name s).prefixes
    have hspelled := PrefixTable.spells_qualified (g.schema.element id).name s
    rw [ends_bind, ends_lift]
    generalize qualified (g.schema.element id).name s = named at hcalm hspelled
    obtain ⟨⟨nsPrefix, name⟩, s₁⟩ := named
    dsimp only at hcalm hspelled ⊢
    rw [ends_bind]
    refine (Retains.reuses f _ _ d s₁).mono fun shared d₁ s₂ hs₂ => ?_
    have hbefore := hcalm.trans hs₂
    cases shared with
    | true =>
      rw [if_pos rfl, ends_pure]
      exact .still h hbefore
    | false =>
      rw [if_neg (by simp), ends_bind, ends_slot]
      obtain ⟨hbare, hname, hprefix, hdeclarations⟩ :=
        furnished_bareInstance g s₂.prefixes (g.schema.element id) nsPrefix
      refine (hchild _ id name occurs { d₁ with controls := .nil } s₂ hbare).mono
        fun r d₂ s₃ ⟨hs₃, hr⟩ => ?_
      have hall := hbefore.trans hs₃
      cases r with
      | none => exact .still h hall
      | some c =>
        obtain ⟨htype, hc⟩ := hr c rfl
        have hdeclared : (bareInstance (g.schema.element id) nsPrefix).Declared g
            s₃.prefixes := by
          refine ⟨⟨_, Schema.element_mem htype, hname⟩, ?_⟩
          rw [hname, hprefix]
          exact hspelled.mono (hs₂.trans hs₃)
        exact ⟨hall, ⟨rfl, rfl, rfl⟩, (h.mono hall).addChild
          ⟨hc.alike.declared hdeclared, hc.alike.declarations.trans hdeclarations⟩ hc.furnished⟩

mutual

theorem furnishing_particle (hchild : child.Furnishes g) (e : Element) :
    ∀ p : Particle, Furnishing g e (particle g child f e p)
  | .element occurs id => furnishing_childElement hchild e id occurs
  | .group occurs _ members => (furnishing_particles hchild e members).groupItems occurs
  | .wildcard _ _ => .after (Calm.report _) fun _ => .pure e

theorem furnishing_particles (hchild : child.Furnishes g) (e : Element) :
    ∀ ps : List Particle, Furnishing g e (particles g child f e ps)
  | [] => .pure e
  | p :: ps => (furnishing_particle hchild e p).bind fun e' => furnishing_particles hchild e' ps

end

theorem furnishing_complex (hchild : child.Furnishes g) (e : Element) (occurs : Occurs) :
    Furnishing g e (complex g child f e occurs) := by
  unfold complex
  cases g.schema.complex? f.type with
  | none => exact .pure e
  | some t =>
    have hmodel (e : Element) : Furnishing g e (contentModel g child f e t) := by
      unfold contentModel
      split
      · exact furnishing_particle hchild e _
      · exact .pure e
    have hcontent : Furnishing g e (content g child f e t) :=
      .behind (retains_text t) fun _ => (furnishing_uses e t.uses).bind hmodel
    exact .look fun d => .after (Calm.allocate "group") fun id =>
      (hcontent.items d.around occurs).within _ _

/-- The data of a case is merged into that of the element. -/
theorem furnishing_typeCase (hchild : child.Furnishes g) (owner : ElementId) (declared : TypeId)
    (isFirst : Bool) (e : Element) (t : TypeId) (caseId : String) :
    Furnishing g e (typeCase g child owner declared isFirst e t caseId) := by
  intro d s h
  unfold typeCase
  rw [ends_within, ends_bind, ends_get, ends_bind]
  refine (furnishing_complex hchild _ .once { d with controls := .nil } s
    (Element.furnished_bare rfl rfl)).mono fun data d₁ s₁ hdata => ?_
  rw [ends_bind]
  refine (guardCase_ends _ t declared d₁ s₁).mono fun _ d₂ s₂ ⟨hs₂, _⟩ => ?_
  rw [ends_bind]
  refine (unshare_ends d₂ s₂).mono fun _ d₃ s₃ ⟨hs₃, _⟩ => ?_
  rw [ends_pure]
  have hlater := hs₂.prefixes.trans hs₃.prefixes
  have hall := hdata.prefixes.trans hlater
  obtain ⟨halike, hmerged⟩ := (h.mono hall).mergeCase (hdata.furnished.mono hlater)
  exact ⟨hall, halike, hmerged⟩

theorem furnishing_typeCases (hchild : child.Furnishes g) (owner : ElementId) (declared : TypeId)
    (isFirst : Bool) (e : Element) (cases : List (TypeId × String)) :
    Furnishing g e (typeCases g child owner declared isFirst e cases) := by
  induction cases generalizing isFirst e with
  | nil => exact .pure e
  | cons c cases ih =>
    exact (furnishing_typeCase hchild owner declared isFirst e c.1 c.2).bind fun e' => ih false e'

/-- An element may name its type, before more is added. -/
theorem furnishing_typed (e : Element) {t : TypeId} (htype : (g.schema.complex? t).isSome)
    {p : Element → Sketch Element} (hp : ∀ e, Furnishing g e (p e)) :
    Furnishing g e (do p (addAttribute e xsiType (some "xsi") (← g.typeValue t))) := by
  intro d s h
  have hcalm : s.prefixes.Extends (g.typeValue t s).2.prefixes := (Calm.typeValue t s).prefixes
  have hvalue := typeText_typeValue g t s
  rw [ends_bind, ends_lift]
  generalize g.typeValue t s = typed at hcalm hvalue
  have hnamed := (h.mono hcalm).addAttribute (a := ⟨xsiType, some "xsi", typed.1⟩)
    (.type rfl rfl ⟨t, htype, hvalue⟩)
  refine (hp _ d typed.2 hnamed).mono fun e' _ _ h' => ?_
  exact ⟨hcalm.trans h'.prefixes, (Element.alike_addAttribute ..).trans h'.alike, h'.furnished⟩

theorem furnishing_switch (hchild : child.Furnishes g) (e : Element) (owner : ElementId)
    (declared : TypeId) (types : List TypeId)
    (hfirst : (g.schema.complex? (types.headD declared)).isSome) (path : String) (occurs : Occurs) :
    Furnishing g e (switch g child e owner declared types path occurs) := by
  refine .after (Calm.allocate "select1") fun selectId => ?_
  refine .behind (.of_lays (.withKid (.look fun d => .pure _) _ _)) fun typeBindId => ?_
  refine Furnishing.withKid (.look fun d => Furnishing.items ?_ _ _) _ _
  refine .after (Calm.promptChoice _ _) fun prompt => .after (Calm.typeChoices _) fun choices => ?_
  refine .behind (.of_lays (.leaves _)) fun _ => ?_
  refine .after (Calm.allocate _) fun _ => .after (Calm.allocate _) fun _ =>
    .after (Calm.allocate _) fun _ => .behind (.of_lays (.leaves _)) fun _ => ?_
  refine .after (Calm.allocate _) fun _ => Furnishing.within ?_ _ _
  exact furnishing_typed e hfirst fun e => furnishing_typeCases hchild owner declared true e _

theorem furnishing_plain (hchild : child.Furnishes g) (e : Element) (owner : ElementId)
    (declared : TypeId) {resolved : TypeId} (htype : (g.schema.complex? resolved).isSome) (path : String) (occurs : Occurs) :
    Furnishing g e (plain g child e owner declared resolved path occurs) := by
  have hrest (e : Element) : Furnishing g e
      (withKid {} path (complex g child ⟨resolved, owner, false⟩ e occurs)) :=
    (furnishing_complex hchild e occurs).withKid _ _
  unfold plain
  split
  · exact hrest e
  · exact furnishing_typed e htype hrest

theorem furnishes_expand (hsubstitutes : g.substitutes = Substitutes.ofSchema g.schema)
    (hchild : child.Furnishes g) : ChildSketch.Furnishes g (expand g child) := by
  intro e id path occurs d s h
  unfold expand
  dsimp only
  cases htype : (g.schema.element id).type with
  | none =>
    dsimp only
    rw [ends_bind, ends_lift, ends_pure]
    exact ⟨(Calm.report _ s).prefixes, nofun⟩
  | some t =>
    have hmade {p : Sketch Element} (hp : Furnishing g e p) (d : Draft) (s : Synthesis)
        (h : e.Furnished g s.prefixes) : Ends (do
          let data ← p
          leave
          return some data : Sketch (Option Element)) d s fun r _ s' =>
        s.prefixes.Extends s'.prefixes ∧ ∀ c, r = some c →
          (some t : Option TypeId).isSome ∧ SchemaForms.Furnishes g e s.prefixes c s'.prefixes := by
      rw [ends_bind]
      refine (hp d s h).mono fun e' d' s' h' => ?_
      rw [ends_bind, ends_lift, ends_pure]
      refine ⟨h'.prefixes, ?_⟩
      rintro c ⟨⟩
      exact ⟨rfl, h'.prefixes, h'.alike, h'.furnished⟩
    dsimp only
    split
    · rw [ends_bind]
      refine (Retains.of_lays (lays_field g t _ path occurs) d s).mono fun _ d' s' hs' => ?_
      rw [ends_pure]
      refine ⟨hs', ?_⟩
      rintro c ⟨⟩
      exact ⟨rfl, .still h hs'⟩
    · next hcomplex =>
      have hcomplex : (g.schema.complex? t).isSome := by
        rwa [Bool.not_eq_true, Option.isNone_eq_false_iff] at hcomplex
      have hcandidate {u : TypeId} (hu : u ∈ g.candidates t) : (g.schema.complex? u).isSome :=
        Generator.complex_of_mem_candidates hsubstitutes hu hcomplex
      rw [ends_bind, ends_lift]
      unfold enter
      split
      · rw [if_neg (by simp), ends_bind, ends_lift, ends_pure]
        exact ⟨(Calm.report _ s).prefixes, nofun⟩
      · rw [if_pos rfl]
        rcases hcandidates : g.candidates t with _ | ⟨resolved, _ | ⟨other, rest⟩⟩
        · exact hmade (furnishing_plain hchild e id t hcomplex path occurs) d _ h
        · have hresolved := hcandidate (hcandidates ▸ List.mem_singleton_self _)
          exact hmade (furnishing_plain hchild e id t hresolved path occurs) d _ h
        · have hfirst := hcandidate (hcandidates ▸ List.mem_cons_self)
          exact hmade (furnishing_switch hchild e id t (resolved :: other :: rest) hfirst path
            occurs) d _ h

/-- Elements are added with what they are declared to be, however many expansions can be opened. -/
theorem furnishes_element (hsubstitutes : g.substitutes = Substitutes.ofSchema g.schema)
    (openings : Nat) : ChildSketch.Furnishes g (element g openings) := by
  induction openings with
  | zero => exact fun _ _ _ _ _ _ _ => ⟨.refl, nofun⟩
  | succ openings ih => exact furnishes_expand hsubstitutes ih

end Sketch

end SchemaForms
