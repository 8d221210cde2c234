import SchemaForms.Proofs.Schema.Building

/-!
Soundness of the steps of loading.  Each of them, run on builders that are sound, leads from progress
in good order to later progress in good order, so the builders of every depth are sound.
-/

namespace SchemaForms.Loader

open SchemaForms.Xml
open SchemaForms.Source (parts part? groupNames)

/-! Running one step after another. -/

theorem bind_ok {α β : Type} {f : Load α} {k : α → Load β} {p r : Progress} {b : β}
    (h : (f >>= k) p = .ok (b, r)) : ∃ a q, f p = .ok (a, q) ∧ k a q = .ok (b, r) := by
  change (f p).bind (fun x => k x.1 x.2) = .ok (b, r) at h
  cases hf : f p with
  | error e => simp [hf, Except.bind] at h
  | ok x => exact ⟨x.1, x.2, rfl, by simpa [hf, Except.bind] using h⟩

theorem pure_ok {α : Type} {a b : α} {p q : Progress} (h : (pure a : Load α) p = .ok (b, q)) :
    a = b ∧ p = q := by
  cases h
  exact ⟨rfl, rfl⟩

theorem get_ok {p q s : Progress} (h : (get : Load Progress) p = .ok (s, q)) : p = s ∧ p = q := by
  cases h
  exact ⟨rfl, rfl⟩

theorem get_bind {α : Type} (k : Progress → Load α) (p : Progress) : (get >>= k) p = k p p := rfl

theorem lift_ok {α : Type} {x : Except Fault α} {a : α} {p q : Progress}
    (h : (liftM x : Load α) p = .ok (a, q)) : x = .ok a ∧ p = q := by
  cases x with
  | error e => cases h
  | ok b =>
    cases h
    exact ⟨rfl, rfl⟩

theorem addType_ok {t : TypeDef} {p q : Progress} {id : TypeId}
    (h : addType t p = .ok (id, q)) : id = ⟨p.schema.types.size⟩ ∧ q = p.added t := by
  cases h
  exact ⟨rfl, rfl⟩

/-- The step leads from progress in good order to later progress in good order. -/
def Sound {α : Type} (c : Context) (f : Load α) : Prop :=
  ∀ ⦃p : Progress⦄ ⦃a : α⦄ ⦃q : Progress⦄, InOrder c p → f p = .ok (a, q) →
    Later p q ∧ InOrder c q

namespace Sound

variable {α β : Type} {c : Context}

theorem pure (a : α) : Sound c (pure a : Load α) := by
  intro p b q hp h
  obtain ⟨rfl, rfl⟩ := pure_ok h
  exact ⟨.refl p, hp⟩

theorem fail (problem : SchemaProblem) : Sound c (Loader.fail problem : Load α) := by
  intro p a q _ h
  cases h

theorem lift (x : Except Fault α) : Sound c (liftM x : Load α) := by
  intro p a q hp h
  obtain ⟨-, rfl⟩ := lift_ok h
  exact ⟨.refl p, hp⟩

theorem get : Sound c (get : Load Progress) := by
  intro p s q hp h
  obtain ⟨-, rfl⟩ := get_ok h
  exact ⟨.refl p, hp⟩

theorem bind {f : Load α} {k : α → Load β} (hf : Sound c f) (hk : ∀ a, Sound c (k a)) :
    Sound c (f >>= k) := by
  intro p b r hp h
  obtain ⟨a, q, hfq, hkr⟩ := bind_ok h
  obtain ⟨hpq, hq⟩ := hf hp hfq
  obtain ⟨hqr, hr⟩ := hk a hq hkr
  exact ⟨hpq.trans hqr, hr⟩

theorem map {f : Load α} (g : α → β) (hf : Sound c f) : Sound c (g <$> f) :=
  hf.bind fun a => .pure (g a)

theorem addSimple (t : SimpleType) : Sound c (addType (.simple t)) := by
  intro p id q hp h
  obtain ⟨-, rfl⟩ := addType_ok h
  exact ⟨later_added p _, hp.added t⟩

/-- A step that leaves the types, their names and all that is noted of them alone. -/
theorem of_frame {f : Load α}
    (h : ∀ p a q, f p = .ok (a, q) → q.schema.types = p.schema.types ∧
      q.schema.typeNames = p.schema.typeNames ∧ q.notes = p.notes ∧ q.anonymous = p.anonymous) :
    Sound c f := by
  intro p a q hp hf
  obtain ⟨ht, hnames, hn, ha⟩ := h p a q hf
  have hl := Later.of_eq ht hn ha
  have hcomplex (id : TypeId) : q.schema.complex? id = p.schema.complex? id := by
    simp [Schema.complex?, Schema.typeDef, ht]
  refine ⟨hl, ?_⟩
  refine ⟨?_, ?_, ?_, ?_, ?_, ?_, ?_, ?_⟩
  · simpa [hn, ht] using hp.noted
  · simpa [ha, ht] using hp.anonymous
  · simpa [ht, hcomplex] using hp.globals
  · simpa [hn, hcomplex] using hp.complexes
  · simpa [ht, Schema.findType, hnames] using hp.names
  · simpa [hn, hcomplex] using hp.bare
  · simpa [hn] using hp.built
  · intro id t hid hb
    rw [hn] at hb
    exact hl.extends (hp.built id hb) (hp.extensions id t (hcomplex id ▸ hid) hb)

theorem addElement (decl : ElementDecl) : Sound c (Loader.addElement decl) := by
  refine of_frame fun p a q h => ?_
  cases h
  exact ⟨rfl, rfl, rfl, rfl⟩

theorem addUse (use : AttributeUse) : Sound c (Loader.addUse use) := by
  refine of_frame fun p a q h => ?_
  cases h
  exact ⟨rfl, rfl, rfl, rfl⟩

end Sound

/-- Builders all of whose steps are sound. -/
structure SoundBuilders (c : Context) (b : Builders) : Prop where
  ensure : ∀ ctx id, c.Same ctx → Sound c (b.ensure ctx id)
  /-- Afterwards the building of a global type has begun at least. -/
  begins : ∀ ctx id p q, c.Same ctx → InOrder c p → b.ensure ctx id p = .ok ((), q) →
    (Table.find id c.types).isSome → (id, .building) ∈ q.notes
  complexType : ∀ ctx e id name, c.Same ctx → Sound c (b.complexType ctx e id name)
  /-- The definition of the type whose building has just begun. -/
  extended : ∀ ctx e id name p t q earlier, c.Same ctx → Declares c p id e → InOrder c p →
    p.notes = (id, .building) :: earlier → b.complexType ctx e id name p = .ok (t, q) →
    Extends c q id t
  simpleType : ∀ ctx e name, c.Same ctx → Sound c (b.simpleType ctx e name)
  particle : ∀ ctx enclosing e, c.Same ctx → Sound c (b.particle ctx enclosing e)
  uses : ∀ ctx e, c.Same ctx → Sound c (b.uses ctx e)

section Steps

variable {c ctx : Context} {b : Builders} (hb : SoundBuilders c b) (hc : c.Same ctx)
include hb hc

theorem sound_resolveType (e : Element) (reference : String) :
    Sound c (resolveType b ctx e reference) := by
  unfold resolveType
  split
  · exact .pure _
  · refine Sound.get.bind fun p => ?_
    split
    · exact .pure _
    · exact (hb.ensure ctx _ hc).bind fun _ => .pure _

theorem sound_anonymousSimple (e : Element) : Sound c (anonymousSimple b ctx e) :=
  (hb.simpleType ctx e none hc).bind fun t => .addSimple t

theorem sound_namedOrInline (e : Element) (key : String) :
    Sound c (namedOrInline b ctx e key) := by
  unfold namedOrInline
  split
  · exact sound_resolveType hb hc e _
  · split
    · exact (sound_anonymousSimple hb hc _).bind fun _ => .pure _
    · exact .pure _

omit hb hc in
theorem sound_anySimpleType : Sound c anySimpleType :=
  Sound.get.bind fun _ => .pure _

theorem sound_unionMembers (e : Element) (references : List String) :
    Sound c (unionMembers b ctx e references) := by
  induction references with
  | nil => exact .pure _
  | cons reference rest ih =>
    exact (sound_resolveType hb hc e reference).bind fun _ => ih.bind fun _ => .pure _

theorem sound_inlineMembers (es : List Element) : Sound c (inlineMembers b ctx es) := by
  induction es with
  | nil => exact .pure _
  | cons e es ih =>
    exact (sound_anonymousSimple hb hc e).bind fun _ => ih.bind fun _ => .pure _

theorem sound_simpleType (e : Element) (name : Option QName) :
    Sound c (simpleType b ctx e name) := by
  unfold simpleType
  split
  · next d _ =>
    split
    · exact (sound_namedOrInline hb hc d _).bind fun _ => Sound.get.bind fun _ => .pure _
    · split
      · exact sound_anySimpleType.bind fun _ =>
          (sound_namedOrInline hb hc d _).bind fun _ => .pure _
      · exact sound_anySimpleType.bind fun _ => (sound_unionMembers hb hc d _).bind fun _ =>
          (sound_inlineMembers hb hc _).bind fun _ => .pure _
  · exact .fail _

omit hb hc in
/-- The whole building of a type: what lies between its beginning and its end is one step. -/
theorem finish {p q : Progress} {id : TypeId} {t : TypeDef}
    (hnew : ∀ state, (id, state) ∉ p.notes) (hq : InOrder c q) (hl : Later (p.begun id) q)
    (hkind : t.complex?.isSome = (q.schema.complex? id).isSome)
    (ht : ∀ ct, t = .complex ct → Extends c q id ct) :
    Later p (q.done id t) ∧ InOrder c (q.done id t) := by
  have hid : (id, BuildState.building) ∈ q.notes := hl.mem_notes (by simp [Progress.begun])
  have hunbuilt : (id, BuildState.built) ∉ q.notes := fun hm =>
    hnew .built (by simpa [Progress.begun] using hl.untouched id (by simp [Progress.begun]) hm)
  exact ⟨.build hq hnew hl hkind, hq.done hid hunbuilt hkind ht⟩

theorem sound_anonymousComplex (e : Element) : Sound c (anonymousComplex b ctx e) := by
  intro p id r hp h
  obtain ⟨id, p₁, hadd, h⟩ := bind_ok h
  obtain ⟨rfl, rfl⟩ := addType_ok hadd
  obtain ⟨_, p₂, hdeclare, h⟩ := bind_ok h
  obtain ⟨_, p₃, hnote, h⟩ := bind_ok h
  cases hdeclare
  cases hnote
  obtain ⟨t, q, htype, h⟩ := bind_ok h
  cases h
  let id : TypeId := ⟨p.schema.types.size⟩
  have hp₃ : InOrder c ((p.placed e).begun id) := hp.placed_begun e
  have hnew (state : BuildState) : (id, state) ∉ (p.placed e).notes := fun hm =>
    Nat.lt_irrefl _ (hp.noted _ state hm)
  have hdeclares : Declares c ((p.placed e).begun id) id e :=
    .inr (by simp [Progress.begun, Progress.placed, Table.find, id])
  obtain ⟨hl, hq⟩ := hb.complexType ctx e id none hc hp₃ htype
  have hkind : (TypeDef.complex t).complex?.isSome = (q.schema.complex? id).isSome := by
    rw [hl.kind id (hp₃.noted id .building (by simp [Progress.begun]))]
    simp [Progress.begun, Progress.placed, Schema.complex?, typeDef_addType, id, TypeDef.complex?]
  have hext : ∀ ct, TypeDef.complex t = .complex ct → Extends c q id ct := fun ct hct => by
    cases hct
    exact hb.extended ctx e id none _ t q _ hc hdeclares hp₃ rfl htype
  obtain ⟨hlater, hdone⟩ := finish hnew hq hl hkind hext
  exact ⟨(later_placed hp e).trans hlater, hdone⟩

theorem sound_elementType (e : Element) : Sound c (elementType b ctx e) := by
  unfold elementType
  split
  · exact sound_resolveType hb hc e _
  · split
    · exact (sound_anonymousComplex hb hc _).bind fun _ => .pure _
    · split
      · exact (sound_anonymousSimple hb hc _).bind fun _ => .pure _
      · exact .pure _

theorem sound_elementDecl (e : Element) (name : QName) (enclosing : Option TypeId) :
    Sound c (elementDecl b ctx e name enclosing) :=
  (sound_elementType hb hc e).bind fun _ => .pure _

theorem sound_localElement (enclosing : TypeId) (e : Element) :
    Sound c (localElement b ctx enclosing e) := by
  unfold localElement
  split
  · exact Sound.get.bind fun _ => .pure _
  · split
    · exact .fail _
    · exact (sound_elementDecl hb hc e _ _).bind fun _ => (Sound.addElement _).bind fun _ => .pure _

theorem sound_members (enclosing : TypeId) (es : List Element) :
    Sound c (members b ctx enclosing es) := by
  induction es with
  | nil => exact .pure _
  | cons e es ih =>
    exact (hb.particle ctx enclosing e hc).bind fun _ => ih.bind fun _ => .pure _

theorem sound_groupReference (enclosing : TypeId) (bounds : Occurs) (e : Element) :
    Sound c (groupReference b ctx enclosing bounds e) := by
  have hinner (name : QName) : c.Same { ctx with openGroups := name :: ctx.openGroups } := by
    obtain ⟨groups, attributeGroups, rfl⟩ := hc
    exact ⟨_, _, rfl⟩
  unfold groupReference
  split
  · exact .fail _
  · split
    · exact .pure _
    · split
      · exact .pure _
      · split
        · exact .pure _
        · split
          · exact .pure _
          · exact (hb.particle _ enclosing _ (hinner _)).map _

theorem sound_particle (enclosing : TypeId) (e : Element) :
    Sound c (particle b ctx enclosing e) := by
  unfold particle
  refine (Sound.lift _).bind fun bounds => ?_
  split
  · exact (sound_members hb hc enclosing _).bind fun _ => .pure _
  · split
    · exact (sound_localElement hb hc enclosing e).bind fun _ => .pure _
    · split
      · exact sound_groupReference hb hc enclosing bounds e
      · split
        · exact .pure _
        · exact .pure _

theorem sound_contentModel (enclosing : TypeId) (e : Element) :
    Sound c (contentModel b ctx enclosing e) := by
  unfold contentModel
  split
  · exact hb.particle ctx enclosing _ hc
  · exact .pure _

theorem sound_attributeDecl (e : Element) (isGlobal : Bool) :
    Sound c (attributeDecl b ctx e isGlobal) := by
  unfold attributeDecl
  split
  · exact .fail _
  · dsimp only
    split
    · exact sound_anySimpleType.bind fun _ => .pure _
    · exact (sound_namedOrInline hb hc e _).bind fun _ => .pure _

theorem sound_attributeUse (e : Element) : Sound c (attributeUse b ctx e) := by
  unfold attributeUse
  dsimp only
  split
  · split
    · exact .pure _
    · split
      · exact .pure _
      · split
        · exact .pure _
        · exact (sound_attributeDecl hb hc _ true).bind fun _ =>
            (Sound.addUse _).bind fun _ => .pure _
  · refine (sound_attributeDecl hb hc e false).bind fun _ => ?_
    split
    · exact .pure _
    · exact (Sound.addUse _).bind fun _ => .pure _

theorem sound_attributeGroup (e : Element) : Sound c (attributeGroup b ctx e) := by
  have hinner (name : QName) :
      c.Same { ctx with openAttributeGroups := name :: ctx.openAttributeGroups } := by
    obtain ⟨groups, attributeGroups, rfl⟩ := hc
    exact ⟨_, _, rfl⟩
  unfold attributeGroup
  split
  · exact .pure _
  · split
    · exact .pure _
    · split
      · exact .pure _
      · exact hb.uses _ _ (hinner _)

theorem sound_usesOf (es : List Element) : Sound c (usesOf b ctx es) := by
  induction es with
  | nil => exact .pure _
  | cons e es ih =>
    unfold usesOf
    dsimp only
    split
    · exact (sound_attributeUse hb hc e).bind fun _ => ih.bind fun _ => .pure _
    · split
      · exact (sound_attributeGroup hb hc e).bind fun _ => ih.bind fun _ => .pure _
      · exact (Sound.pure _).bind fun _ => ih.bind fun _ => .pure _

theorem sound_attributeUses (e : Element) : Sound c (attributeUses b ctx e) :=
  sound_usesOf hb hc _

theorem sound_derivationOf (d : Element) : Sound c (derivationOf b ctx d) := by
  unfold derivationOf
  dsimp only
  split
  · exact .fail _
  · exact (sound_resolveType hb hc d _).bind fun _ => .pure _

theorem sound_simpleContent (bare : ComplexType) (content : Element) :
    Sound c (simpleContent b ctx bare content) :=
  (Sound.lift _).bind fun d => (sound_derivationOf hb hc d).bind fun _ =>
    (sound_attributeUses hb hc d).bind fun _ => Sound.get.bind fun _ => .pure _

theorem sound_complexContent (id : TypeId) (bare : ComplexType) (mixed : Bool)
    (content : Element) : Sound c (complexContent b ctx id bare mixed content) :=
  (Sound.lift _).bind fun d => (sound_derivationOf hb hc d).bind fun _ =>
    (sound_contentModel hb hc id d).bind fun _ => (sound_attributeUses hb hc d).bind fun _ =>
      Sound.get.bind fun _ => .pure _

theorem sound_plainContent (id : TypeId) (bare : ComplexType) (mixed : Bool) (e : Element) :
    Sound c (plainContent b ctx id bare mixed e) :=
  (sound_contentModel hb hc id e).bind fun _ =>
    (sound_attributeUses hb hc e).bind fun _ => .pure _

theorem sound_complexType (e : Element) (id : TypeId) (name : Option QName) :
    Sound c (complexType b ctx e id name) := by
  unfold complexType
  split
  · exact sound_simpleContent hb hc _ _
  · exact sound_complexContent hb hc id _ _ _
  · exact sound_plainContent hb hc id _ _ e

theorem sound_globalDef (e : Element) (id : TypeId) (name : Option QName) :
    Sound c (globalDef b ctx e id name) := by
  unfold globalDef
  split
  · exact (hb.complexType ctx e id name hc).bind fun _ => .pure _
  · exact (hb.simpleType ctx e name hc).bind fun _ => .pure _

/-- The definition that a global declaration gives to the type whose building has just begun. -/
theorem globalDef_ok {e : Element} {id : TypeId} {name : Option QName} {p q : Progress}
    {t : TypeDef} {earlier : Notes} (hp : InOrder c p) (hn : p.notes = (id, .building) :: earlier)
    (he : Table.find id c.types = some e) (h : globalDef b ctx e id name p = .ok (t, q)) :
    (t.complex?.isSome ↔ e.localName = "complexType") ∧
      ∀ ct, t = .complex ct → Extends c q id ct := by
  have hdeclares : Declares c p id e := .inl he
  unfold globalDef at h
  split at h
  · next hname =>
    obtain ⟨ct, r, hct, h⟩ := bind_ok h
    obtain ⟨rfl, rfl⟩ := pure_ok h
    refine ⟨by simp [TypeDef.complex?, hname], fun ct' hct' => ?_⟩
    cases hct'
    exact hb.extended ctx e id name p ct _ earlier hc hdeclares hp hn hct
  · next hname =>
    obtain ⟨st, r, -, h⟩ := bind_ok h
    obtain ⟨rfl, rfl⟩ := pure_ok h
    exact ⟨by simp [TypeDef.complex?, hname], fun ct' hct' => by cases hct'⟩

omit hb in
theorem find_types (id : TypeId) : Table.find id ctx.types = Table.find id c.types := by
  obtain ⟨groups, attributeGroups, rfl⟩ := hc
  rfl

omit hb hc in
theorem hasBegun_iff {p : Progress} {id : TypeId} :
    p.hasBegun id = true ↔ ∃ state, (id, state) ∈ p.notes := by
  simp [Progress.hasBegun]

theorem ensureType_ok {id : TypeId} {p r : Progress} (hp : InOrder c p)
    (h : ensureType b ctx id p = .ok ((), r)) :
    Later p r ∧ InOrder c r ∧
      ((Table.find id c.types).isSome → (id, .building) ∈ r.notes) := by
  unfold ensureType at h
  rw [get_bind] at h
  by_cases hbegun : p.hasBegun id = true
  · rw [if_pos hbegun] at h
    obtain ⟨-, rfl⟩ := pure_ok h
    obtain ⟨state, hm⟩ := hasBegun_iff.1 hbegun
    refine ⟨.refl p, hp, fun _ => ?_⟩
    cases state with
    | building => exact hm
    | built => exact hp.built id hm
  · have hnew (state : BuildState) : (id, state) ∉ p.notes := fun hm =>
      hbegun (hasBegun_iff.2 ⟨state, hm⟩)
    rw [if_neg hbegun, find_types hc] at h
    cases he : Table.find id c.types with
    | none =>
      rw [he] at h
      obtain ⟨-, rfl⟩ := pure_ok h
      exact ⟨.refl p, hp, fun hsome => by simp at hsome⟩
    | some e =>
      rw [he] at h
      obtain ⟨_, p₁, hnote, h⟩ := bind_ok h
      cases hnote
      obtain ⟨t, p₂, hdef, h⟩ := bind_ok h
      cases h
      obtain ⟨hlt, hkind⟩ := hp.globals id e he
      have hp₁ : InOrder c (p.begun id) := hp.begun hlt hnew
      obtain ⟨hl, hp₂⟩ := sound_globalDef hb hc e id _ hp₁ hdef
      obtain ⟨htkind, hext⟩ := globalDef_ok hb hc hp₁ rfl he hdef
      have hk : t.complex?.isSome = (p₂.schema.complex? id).isSome := by
        rw [hl.kind id hlt]
        exact Bool.eq_iff_iff.2 (htkind.trans hkind.symm)
      obtain ⟨hlater, hdone⟩ := finish hnew hp₂ hl hk hext
      refine ⟨hlater, hdone, fun _ => ?_⟩
      have hm : (id, BuildState.building) ∈ p₂.notes := hl.mem_notes (by simp [Progress.begun])
      exact List.mem_cons_of_mem _ hm

end Steps

/-! The type that extends another one. -/

section Extension

variable {c ctx : Context} {b : Builders} (hb : SoundBuilders c b) (hc : c.Same ctx)
include hb hc

/-- A type that a reference leads to is begun, if it is complex. -/
theorem resolveType_begins {e : Element} {reference : String} {p q : Progress} {id : TypeId}
    (hp : InOrder c p) (h : resolveType b ctx e reference p = .ok (some id, q)) :
    id.index < q.schema.types.size ∧
      ((q.schema.complex? id).isSome → (id, .building) ∈ q.notes) := by
  unfold resolveType at h
  cases hname : nameOf? e reference with
  | none =>
    rw [hname] at h
    cases h
  | some name =>
    rw [hname] at h
    dsimp only at h
    rw [get_bind] at h
    cases hfound : p.schema.findType name with
    | none =>
      rw [hfound] at h
      cases h
    | some found =>
      rw [hfound] at h
      obtain ⟨_, q', hensure, h⟩ := bind_ok h
      obtain ⟨hsome, rfl⟩ := pure_ok h
      cases hsome
      obtain ⟨hl, hq⟩ := hb.ensure ctx id hc hp hensure
      refine ⟨Nat.lt_of_lt_of_le (hp.names name id hfound) hl.size_le, fun hcomplex => ?_⟩
      rcases hq.complexes id hcomplex with hbegun | hglobal
      · exact hbegun
      · exact hb.begins ctx id p _ hc hp hensure hglobal

theorem derivationOf_ok {d : Element} {p q : Progress} {method : Derivation} {id : TypeId}
    (hp : InOrder c p) (h : derivationOf b ctx d p = .ok ((method, some id), q)) :
    (method = .extension → d.localName = "extension") ∧ id.index < q.schema.types.size ∧
      ((q.schema.complex? id).isSome → (id, .building) ∈ q.notes) := by
  unfold derivationOf at h
  cases hd : d.attribute? "base" with
  | none =>
    rw [hd] at h
    cases h
  | some reference =>
    rw [hd] at h
    obtain ⟨found, q', hres, h⟩ := bind_ok h
    obtain ⟨heq, rfl⟩ := pure_ok h
    obtain ⟨hmethod, rfl⟩ := Prod.mk.inj heq
    refine ⟨fun hx => ?_, resolveType_begins hb hc hp hres⟩
    by_cases he : d.localName = "extension"
    · exact he
    · rw [if_neg he, hx] at hmethod
      cases hmethod

end Extension

/-- The base is read after all of the extension's own content, and what it holds then it keeps. -/
theorem extends_of_complexContent {c ctx : Context} {depth : Nat} {e content : Element}
    {id : TypeId} {bare t : ComplexType} {mixed : Bool} {p r : Progress} {earlier : Notes}
    (hb : SoundBuilders c (builders depth)) (hc : c.Same ctx) (hdeclares : Declares c p id e)
    (hcontent : part? e ["complexContent"] = some content) (hp : InOrder c p)
    (hn : p.notes = (id, .building) :: earlier)
    (h : complexContent (builders depth) ctx id bare mixed content p = .ok (t, r)) :
    Extends c r id t := by
  obtain ⟨d, p₀, hlift, h⟩ := bind_ok h
  obtain ⟨hd, rfl⟩ := lift_ok hlift
  obtain ⟨⟨method, base⟩, p₁, hbase, h⟩ := bind_ok h
  obtain ⟨own, p₂, hown, h⟩ := bind_ok h
  obtain ⟨⟨uses, prohibited⟩, p₃, huses, h⟩ := bind_ok h
  dsimp only at h
  rw [get_bind] at h
  obtain ⟨rfl, rfl⟩ := pure_ok h
  obtain ⟨hl₁, hp₁⟩ := sound_derivationOf hb hc d hp hbase
  obtain ⟨hl₂, hp₂⟩ := sound_contentModel hb hc id d hp₁ hown
  obtain ⟨hl₃, hp₃⟩ := sound_attributeUses hb hc d hp₂ huses
  have hl : Later p₁ p₃ := hl₂.trans hl₃
  intro hx _ outer houter
  dsimp only at hx houter ⊢
  subst houter hx
  obtain ⟨hmethod, hlt, hbegins⟩ := derivationOf_ok hb hc hp hbase
  refine ⟨Nat.lt_of_lt_of_le hlt hl.size_le, fun b hbc => ?_⟩
  refine ⟨own, uses, ⟨e, content, d, depth, ctx, p₁, p₂, p₃, prohibited,
    (hl₁.trans hl).declares hdeclares, hc, hcontent, hd,
    hmethod rfl, hown, huses⟩, ?_⟩
  have hbegun : (outer, BuildState.building) ∈ p₃.notes := by
    refine hl.mem_notes (hbegins ?_)
    rw [← hl.kind outer hlt, hbc]
    rfl
  have hwithin : BegunWithin id outer p₃.notes ↔ Underway p₃.notes outer := by
    rw [(hl₁.trans hl).begunWithin_iff (by simp [hn]), (hl₁.trans hl).underway_iff, hn]
    simp [BegunWithin]
  rw [hwithin]
  by_cases hbuilt : (outer, BuildState.built) ∈ p₃.notes
  · refine .inr ⟨fun hu => hu.2 hbuilt, hbuilt, ?_, ?_⟩
    · simp [hbc]
    · simp [mergeUses, hbc]
  · obtain ⟨hparticle, hbuses, -⟩ := hp₃.bare outer b hbc hbuilt
    refine .inl ⟨⟨hbegun, hbuilt⟩, ?_, ?_⟩
    · simp [hbc, hparticle, extendParticle]
    · simp [mergeUses, hbc, hbuses]

theorem extends_of_complexType {c ctx : Context} {depth : Nat} {e : Element} {id : TypeId}
    {name : Option QName} {t : ComplexType} {p q : Progress} {earlier : Notes}
    (hb : SoundBuilders c (builders depth)) (hc : c.Same ctx) (hdeclares : Declares c p id e)
    (hp : InOrder c p) (hn : p.notes = (id, .building) :: earlier)
    (h : complexType (builders depth) ctx e id name p = .ok (t, q)) : Extends c q id t := by
  cases hs : part? e ["simpleContent"] with
  | some content =>
    simp only [complexType, hs] at h
    obtain ⟨d, p₁, -, h⟩ := bind_ok h
    obtain ⟨_, p₂, -, h⟩ := bind_ok h
    obtain ⟨_, p₃, -, h⟩ := bind_ok h
    dsimp only at h
    rw [get_bind] at h
    obtain ⟨rfl, -⟩ := pure_ok h
    exact fun _ hcontent => absurd rfl hcontent
  | none =>
    cases hcontent : part? e ["complexContent"] with
    | some content =>
      simp only [complexType, hs, hcontent] at h
      exact extends_of_complexContent hb hc hdeclares hcontent hp hn h
    | none =>
      simp only [complexType, hs, hcontent] at h
      obtain ⟨own, p₁, -, h⟩ := bind_ok h
      obtain ⟨_, p₂, -, h⟩ := bind_ok h
      obtain ⟨rfl, -⟩ := pure_ok h
      exact fun hx => by cases hx

/-- The builders of every depth are sound. -/
theorem sound_builders (c : Context) (depth : Nat) : SoundBuilders c (builders depth) := by
  induction depth with
  | zero =>
    refine ⟨?_, ?_, ?_, ?_, ?_, ?_, ?_⟩
    · exact fun _ _ _ => .fail _
    · exact fun _ _ _ _ _ _ h => by cases h
    · exact fun _ _ _ _ _ => .fail _
    · exact fun _ _ _ _ _ _ _ _ _ _ _ _ h => by cases h
    · exact fun _ _ _ _ => .fail _
    · exact fun _ _ _ _ => .fail _
    · exact fun _ _ _ => .fail _
  | succ depth ih =>
    refine ⟨?_, ?_, ?_, ?_, ?_, ?_, ?_⟩
    · intro ctx id hc p _ q hp h
      obtain ⟨hl, hq, -⟩ := ensureType_ok ih hc hp h
      exact ⟨hl, hq⟩
    · intro ctx id p q hc hp h
      exact (ensureType_ok ih hc hp h).2.2
    · exact fun ctx e id name hc => sound_complexType ih hc e id name
    · intro ctx e id name p t q earlier hc hdeclares hp hn h
      exact extends_of_complexType ih hc hdeclares hp hn h
    · exact fun ctx e name hc => sound_simpleType ih hc e name
    · exact fun ctx enclosing e hc => sound_particle ih hc enclosing e
    · exact fun ctx e hc => sound_attributeUses ih hc e

end SchemaForms.Loader
