import SchemaForms.Proofs.Schema.Keeping

/-!
The steps of loading keep a graph regular.  A step that reads part of the content of a type leaves
the elements that it declares to that type waiting; its answer says which, and the end of the
building of the type puts them in their places.
-/

namespace SchemaForms.Loader

open SchemaForms.Xml
open SchemaForms.Source (parts part? groupNames)

/-- A fact about a graph that lasts while the graph grows. -/
def Lasting (P : Schema → Prop) : Prop := ∀ s s', s.Grows s' → P s → P s'

/-- Run on a regular graph of which `P` holds, the step is a whole step; of its answer and the graph
after it `Q` holds, and of the elements that are new those that the answer names may be waiting for
`type` to be built. -/
def Places {α : Type} (c : Context) (type : TypeId) (P : Schema → Prop) (f : Load α)
    (pending : α → List ElementId) (Q : α → Schema → Prop) : Prop :=
  ∀ ⦃p : Progress⦄ ⦃a : α⦄ ⦃q : Progress⦄, InOrder c p → Regular c p → P p.schema →
    f p = .ok (a, q) → Step c p q ∧ Settles type (pending a) p q ∧ Q a q.schema

/-- No element waits. -/
def nothing {α : Type} (_ : α) : List ElementId := []

/-- The graph has a type of that number, and the type has a name. -/
def HasNamed (s : Schema) (id : TypeId) : Prop := s.HasType id ∧ (s.typeDef id).name?.isSome

theorem lasting_hasType (id : TypeId) : Lasting (·.HasType id) := fun _ _ hg hid => hg.hasType hid

theorem lasting_hasNamed (id : TypeId) : Lasting (HasNamed · id) := fun _ _ hg hid =>
  ⟨hg.hasType hid.1, by rw [hg.name id hid.1]; exact hid.2⟩

theorem lasting_all {ι : Type} {P : ι → Schema → Prop} (hP : ∀ i, Lasting (P i)) (here : ι → Prop) :
    Lasting fun s => ∀ i, here i → P i s := fun s s' hg h i hi => hP i s s' hg (h i hi)

theorem lasting_and {P Q : Schema → Prop} (hP : Lasting P) (hQ : Lasting Q) :
    Lasting fun s => P s ∧ Q s := fun s s' hg h => ⟨hP s s' hg h.1, hQ s s' hg h.2⟩

theorem lasting_grows (s : Schema) : Lasting s.Grows := fun _ _ hg h => h.trans hg

theorem addElement_ok {d : ElementDecl} {p q : Progress} {id : ElementId}
    (h : addElement d p = .ok (id, q)) :
    id = ⟨p.schema.elements.size⟩ ∧ q = { p with schema := (p.schema.addElement d).2 } := by
  cases h
  exact ⟨rfl, rfl⟩

theorem addUse_ok {u : AttributeUse} {p q : Progress} {id : UseId}
    (h : addUse u p = .ok (id, q)) :
    id = ⟨p.schema.uses.size⟩ ∧ q = { p with schema := (p.schema.addUse u).2 } := by
  cases h
  exact ⟨rfl, rfl⟩

theorem bind_eq_ok {α β : Type} {f : Load α} {k : α → Load β} {p q r : Progress} {a : α} {b : β}
    (hf : f p = .ok (a, q)) (hk : k a q = .ok (b, r)) : (f >>= k) p = .ok (b, r) := by
  change (f p).bind (fun x => k x.1 x.2) = .ok (b, r)
  rw [hf]
  exact hk

namespace Places

variable {α β : Type} {c : Context} {type : TypeId} {P R : Schema → Prop} {f : Load α}
  {pending more : α → List ElementId} {Q Q' : α → Schema → Prop} {later : β → List ElementId}
  {S : β → Schema → Prop}

theorem pure {a : α} (h : ∀ p, Regular c p → P p.schema → Q a p.schema) :
    Places c type P (pure a) pending Q := by
  intro p b q ho hr hp hrun
  obtain ⟨rfl, rfl⟩ := pure_ok hrun
  exact ⟨.refl ho hr, .of_same rfl, h p hr hp⟩

theorem fail (problem : SchemaProblem) : Places c type P (Loader.fail problem) pending Q := by
  intro p a q _ _ _ hrun
  cases hrun

theorem lift (x : Except Fault α) :
    Places c type P (liftM x) pending fun a s => x = .ok a ∧ P s := by
  intro p a q ho hr hp hrun
  obtain ⟨hx, rfl⟩ := lift_ok hrun
  exact ⟨.refl ho hr, .of_same rfl, hx, hp⟩

theorem weaken (h : Places c type P f pending Q) (hP : ∀ s, R s → P s)
    (hQ : ∀ a s, Q a s → Q' a s) : Places c type R f pending Q' := by
  intro p a q ho hr hp hrun
  obtain ⟨hstep, hsettles, hq⟩ := h ho hr (hP _ hp) hrun
  exact ⟨hstep, hsettles, hQ a _ hq⟩

/-- What lasts is still there after the step. -/
theorem frame (h : Places c type P f pending Q) (hR : Lasting R) :
    Places c type (fun s => R s ∧ P s) f pending fun a s => R s ∧ Q a s := by
  intro p a q ho hr hp hrun
  obtain ⟨hstep, hsettles, hq⟩ := h ho hr hp.2 hrun
  exact ⟨hstep, hsettles, hR _ _ hstep.grows hp.1, hq⟩

/-- The elements that wait after the first step must wait after the second one too. -/
theorem bind {k : α → Load β} (h : Places c type P f pending Q)
    (hk : ∀ a, Places c type (Q a) (k a) later fun b s => pending a ⊆ later b ∧ S b s) :
    Places c type P (f >>= k) later S := by
  intro p b r ho hr hp hrun
  obtain ⟨a, q, hf, hrest⟩ := bind_ok hrun
  obtain ⟨hstep, hsettles, hq⟩ := h ho hr hp hf
  obtain ⟨hstep', hsettles', hsub, hs⟩ := hk a hstep.order hstep.regular hq hrest
  exact ⟨hstep.trans hstep', (hsettles.mono hsub).trans hsettles' hstep.order
    hstep'.later.toKeeps hstep'.grows, hs⟩

theorem next {k : α → Load β} (h : Places c type P f nothing Q)
    (hk : ∀ a, Places c type (Q a) (k a) later S) : Places c type P (f >>= k) later S :=
  h.bind fun a => (hk a).weaken (fun _ hs => hs) fun _ _ hs => ⟨List.nil_subset _, hs⟩

/-- A step that looks at the graph. -/
theorem get {k : Progress → Load α}
    (hk : ∀ p, Regular c p → P p.schema → Places c type p.schema.Grows (k p) pending Q) :
    Places c type P (get >>= k) pending Q := by
  intro p a q ho hr hp hrun
  rw [get_bind] at hrun
  exact hk p hr hp ho hr (.refl _) hrun

/-- A step that is sound needs to be shown regular only. -/
theorem of_sound (hf : Sound c f)
    (h : ∀ p a q, InOrder c p → Regular c p → P p.schema → f p = .ok (a, q) →
      Regular c q ∧ p.schema.Grows q.schema ∧ Settles type (pending a) p q ∧ Q a q.schema) :
    Places c type P f pending Q := by
  intro p a q ho hr hp hrun
  obtain ⟨hl, hq⟩ := hf ho hrun
  obtain ⟨hregular, hg, hsettles, hpost⟩ := h p a q ho hr hp hrun
  exact ⟨⟨hl, hq, hregular, hg⟩, hsettles, hpost⟩

theorem addSimple (t : SimpleType) :
    Places c type (·.Fits (.simple t)) (addType (.simple t)) nothing fun id s => s.HasType id := by
  refine of_sound (Sound.addSimple t) fun p id q ho hr ht hrun => ?_
  obtain ⟨rfl, rfl⟩ := addType_ok hrun
  refine ⟨hr.added ho ht, Schema.grows_addType _ _, .of_same rfl, ?_⟩
  simp [Schema.HasType, Progress.added, size_addType]

theorem addElement {d : ElementDecl} (htype : d.enclosing = some type) :
    Places c type (·.HoldsDecl d) (addElement d) (fun id => [id]) fun id s => s.HasElement id := by
  refine of_sound (Sound.addElement d) fun p id q ho hr hd hrun => ?_
  obtain ⟨rfl, rfl⟩ := addElement_ok hrun
  have hg := Schema.grows_addElement p.schema d
  refine ⟨hr.of_frame ho hg (hr.closed.addElement hd) rfl rfl rfl rfl, hg, fun id hid => ?_, ?_⟩
  · simp only [Schema.HasElement, Schema.addElement, Array.size_push] at hid
    by_cases hlast : id.index = p.schema.elements.size
    · refine .inr (.inr ⟨?_, ?_⟩)
      · rw [Schema.element_addElement, if_pos hlast, htype]
      · cases id
        simpa using hlast
    · left
      rw [Schema.HasElement]
      omega
  · simp [Schema.HasElement, Schema.addElement]

theorem addUse (u : AttributeUse) :
    Places c type (·.HoldsUse u) (addUse u) nothing fun id s => s.HasUse id := by
  refine of_sound (Sound.addUse u) fun p id q ho hr hu hrun => ?_
  obtain ⟨rfl, rfl⟩ := addUse_ok hrun
  have hg := Schema.grows_addUse p.schema u
  refine ⟨hr.of_frame ho hg (hr.closed.addUse hu) rfl rfl rfl rfl, hg, .of_same rfl, ?_⟩
  simp [Schema.HasUse, Schema.addUse]

end Places

/-- Builders all of whose steps keep a graph regular. -/
structure RegularBuilders (c : Context) (b : Builders) : Prop where
  deep : ∃ depth, b = builders depth
  ensure : ∀ ctx id type, c.Same ctx →
    Places c type (fun _ => True) (b.ensure ctx id) nothing fun _ _ => True
  complexType : ∀ ctx e type name, c.Same ctx →
    Places c type (·.HasType type) (b.complexType ctx e type name)
      (fun t => (TypeDef.complex t).elementRefs)
      fun t s => t.name = name ∧ s.Fits (.complex t)
  simpleType : ∀ ctx e name type, c.Same ctx →
    Places c type (fun _ => True) (b.simpleType ctx e name) nothing
      fun t s => t.name = name ∧ s.Fits (.simple t)
  particle : ∀ ctx e type, c.Same ctx →
    Places c type (·.HasType type) (b.particle ctx type e) elementsOf
      fun r s => ∀ id ∈ elementsOf r, s.HasElement id
  uses : ∀ ctx e type, c.Same ctx →
    Places c type (fun _ => True) (b.uses ctx e) nothing fun r s => ∀ id ∈ r.1, s.HasUse id

theorem RegularBuilders.sound {c : Context} {b : Builders} (hb : RegularBuilders c b) :
    SoundBuilders c b := by
  obtain ⟨depth, rfl⟩ := hb.deep
  exact sound_builders c depth

section Steps

variable {c ctx : Context} {b : Builders} {type : TypeId} (hb : RegularBuilders c b)
  (hc : c.Same ctx)
include hb hc

theorem places_resolveType (e : Element) (reference : String) :
    Places c type (fun _ => True) (resolveType b ctx e reference) nothing
      fun r s => ∀ id ∈ r, HasNamed s id := by
  unfold resolveType
  split
  · exact .pure fun _ _ _ _ hid => by cases hid
  · next name _ =>
    refine .get fun p hr _ => ?_
    split
    · exact .pure fun _ _ _ _ hid => by cases hid
    · next id hid =>
      have hnamed : HasNamed p.schema id := by
        refine ⟨hr.closed.findType hid, ?_⟩
        rw [hr.names name id hid]
        rfl
      have hensure := ((hb.ensure ctx id type hc).frame (lasting_grows p.schema)).weaken
        (R := p.schema.Grows) (fun _ hg => ⟨hg, trivial⟩) fun _ _ hq => hq.1
      refine hensure.next fun _ => .pure fun q _ hg other hother => ?_
      cases hother
      exact lasting_hasNamed id _ _ hg hnamed

theorem places_anonymousSimple (e : Element) :
    Places c type (fun _ => True) (anonymousSimple b ctx e) nothing fun id s => s.HasType id := by
  exact (hb.simpleType ctx e none type hc).next fun t =>
    (Places.addSimple t).weaken (fun _ ht => ht.2) fun _ _ hid => hid

theorem places_namedOrInline (e : Element) (key : String) :
    Places c type (fun _ => True) (namedOrInline b ctx e key) nothing
      fun r s => ∀ id ∈ r, s.HasType id := by
  unfold namedOrInline
  split
  · exact (places_resolveType hb hc e _).weaken (fun _ h => h) fun _ _ h id hid => (h id hid).1
  · split
    · refine (places_anonymousSimple hb hc _).next fun id => .pure fun _ _ hid other hother => ?_
      cases hother
      exact hid
    · exact .pure fun _ _ _ _ hid => by cases hid

omit hb hc in
theorem places_anySimpleType :
    Places c type (fun _ => True) anySimpleType nothing fun r s => ∀ id ∈ r, s.HasType id :=
  .get fun _ hr _ => .pure fun _ _ hg _ hid => hg.hasType (hr.closed.findType hid)

theorem places_unionMembers (e : Element) (references : List String) :
    Places c type (fun _ => True) (unionMembers b ctx e references) nothing
      fun ids s => ∀ id ∈ ids, s.HasType id := by
  induction references with
  | nil => exact .pure fun _ _ _ _ hid => by cases hid
  | cons reference rest ih =>
    refine (places_resolveType hb hc e reference).next fun member => ?_
    have hrest := (ih.frame (lasting_all lasting_hasNamed (· ∈ member))).weaken
      (fun _ h => ⟨h, trivial⟩) fun _ _ h => h
    refine hrest.next fun members => .pure fun _ _ ⟨hmember, hmembers⟩ id hid => ?_
    rcases List.mem_append.1 hid with hid | hid
    · exact (hmember id (Option.mem_toList.1 hid)).1
    · exact hmembers id hid

theorem places_inlineMembers (es : List Element) :
    Places c type (fun _ => True) (inlineMembers b ctx es) nothing
      fun ids s => ∀ id ∈ ids, s.HasType id := by
  induction es with
  | nil => exact .pure fun _ _ _ _ hid => by cases hid
  | cons e es ih =>
    refine (places_anonymousSimple hb hc e).next fun member => ?_
    have hrest := (ih.frame (lasting_hasType member)).weaken (fun _ h => ⟨h, trivial⟩)
      fun _ _ h => h
    refine hrest.next fun members => .pure fun _ _ ⟨hmember, hmembers⟩ id hid => ?_
    rcases List.mem_cons.1 hid with rfl | hid
    · exact hmember
    · exact hmembers id hid

omit hb hc in
theorem fits_simple {s : Schema} {t : SimpleType} (hbase : ∀ id ∈ t.base, s.HasType id)
    (hrefs : ∀ id ∈ t.variety.refs, s.HasType id) : s.Fits (.simple t) where
  types id hid := by
    rcases List.mem_append.1 hid with hid | hid
    · exact hbase id (Option.mem_toList.1 hid)
    · exact hrefs id hid
  elements _ hid := by cases hid
  uses _ hid := by cases hid
  rests _ _ hct := by cases hct

omit hb hc in
/-- The variety that a restriction takes from its base. -/
theorem refs_inherited {s : Schema} (hs : s.Closed) (base : Option TypeId) :
    ∀ id ∈ (((base.bind s.simple?).map SimpleType.variety).getD .atomic).refs, s.HasType id := by
  intro id hid
  cases ht : base.bind s.simple? with
  | none => simp [ht, Variety.refs] at hid
  | some t =>
    obtain ⟨parent, -, hparent⟩ := Option.bind_eq_some_iff.1 ht
    have hdef : s.typeDef parent = .simple t := by
      unfold Schema.simple? at hparent
      cases hdef : s.typeDef parent with
      | any => simp [hdef, TypeDef.simple?] at hparent
      | complex _ => simp [hdef, TypeDef.simple?] at hparent
      | simple t' => simpa [hdef, TypeDef.simple?] using hparent
    have hall := (hs.typeDef parent).types
    simp only [hdef, TypeDef.typeRefs] at hall
    exact hall id (List.mem_append_right _ (by simpa [ht] using hid))

theorem places_simpleType (e : Element) (name : Option QName) :
    Places c type (fun _ => True) (simpleType b ctx e name) nothing
      fun t s => t.name = name ∧ s.Fits (.simple t) := by
  have hframe (base : Option TypeId) : Lasting fun s => ∀ id ∈ base, s.HasType id :=
    lasting_all lasting_hasType (· ∈ base)
  unfold simpleType
  split
  · next d _ =>
    split
    · refine (places_namedOrInline hb hc d _).next fun base => ?_
      refine .get fun p hr hbase => .pure fun q _ hg => ⟨rfl, ?_⟩
      refine hg.fits (fits_simple hbase (refs_inherited hr.closed base))
    · split
      · refine places_anySimpleType.next fun base => ?_
        have hitem := ((places_namedOrInline hb hc d "itemType" : Places c type _ _ _ _).frame
          (hframe base)).weaken (fun _ h => ⟨h, trivial⟩) fun _ _ h => h
        refine hitem.next fun item => .pure fun q _ ⟨hbase, hitem⟩ => ⟨rfl, ?_⟩
        exact fits_simple hbase fun id hid => hitem id (Option.mem_toList.1 hid)
      · refine places_anySimpleType.next fun base => ?_
        have hnamed := ((places_unionMembers hb hc d
          (Text.wordsOf ((d.attribute? "memberTypes").getD "")) : Places c type _ _ _ _).frame
          (hframe base)).weaken (fun _ h => ⟨h, trivial⟩) fun _ _ h => h
        refine hnamed.next fun named => ?_
        have hinline := ((places_inlineMembers hb hc
          ((parts d).filter (·.localName == "simpleType")) : Places c type _ _ _ _).frame
          (lasting_and (hframe base) (lasting_all lasting_hasType (· ∈ named)))).weaken
          (fun _ h => ⟨h, trivial⟩) fun _ _ h => h
        refine hinline.next fun inline => .pure fun q _ ⟨⟨hbase, hnamed⟩, hinline⟩ => ⟨rfl, ?_⟩
        refine fits_simple hbase fun id hid => ?_
        exact (List.mem_append.1 hid).elim (hnamed id) (hinline id)
  · exact .fail _

omit hb hc in
/-- The end of a whole building, of what its definition is known to fit. -/
theorem Step.finish {p q : Progress} {id : TypeId} {t : TypeDef} (hstep : Step c p q)
    (type : TypeId) (hsettles : Settles id t.elementRefs p q) (hbegun : (id, .building) ∈ p.notes)
    (hunbuilt : (id, .built) ∉ p.notes) (hid : p.schema.HasType id)
    (hkind : t.complex?.isSome = (p.schema.complex? id).isSome)
    (hname : t.name? = (p.schema.typeDef id).name?) (hlarge : Schema.builtinCount ≤ id.index)
    (hfits : q.schema.Fits t) (hmade : ∃ e, Declares c p id e ∧ MadeFrom c e id t) :
    Regular c (q.done id t) ∧ p.schema.Grows (q.done id t).schema ∧
      Settles type [] p (q.done id t) := by
  have hq : q.schema.HasType id := hstep.grows.hasType hid
  have hopen : (id, BuildState.built) ∉ q.notes := fun hb =>
    hunbuilt (hstep.later.untouched id hbegun hb)
  have hname' : t.name? = (q.schema.typeDef id).name? := by rw [hname, hstep.grows.name id hid]
  have hk : Keeps q (q.done id t) := keeps_done hstep.order (hstep.later.mem_notes hbegun) hopen
    (hkind.trans (hstep.later.kind id hid).symm)
  obtain ⟨e, he, hmade⟩ := hmade
  refine ⟨?_, hstep.grows.trans (Schema.grows_setType hq hname'),
    hsettles.done hstep.order hq hopen type⟩
  exact hstep.regular.done hstep.order hk hq hname' hlarge hfits
    ⟨e, hstep.later.toKeeps.declares he, hmade⟩

theorem places_anonymousComplex {e : Element} (he : e.localName = "complexType") :
    Places c type (fun _ => True) (anonymousComplex b ctx e) nothing
      fun id s => s.HasType id := by
  refine .of_sound (sound_anonymousComplex hb.sound hc e) fun p id r ho hr _ h => ?_
  obtain ⟨id, p₁, hadd, h⟩ := bind_ok h
  obtain ⟨rfl, rfl⟩ := addType_ok hadd
  obtain ⟨_, p₂, hdeclare, h⟩ := bind_ok h
  obtain ⟨_, p₃, hnote, h⟩ := bind_ok h
  cases hdeclare
  cases hnote
  obtain ⟨t, q, htype, h⟩ := bind_ok h
  cases h
  let id : TypeId := ⟨p.schema.types.size⟩
  have ho₃ : InOrder c ((p.placed e).begun id) := ho.placed_begun e
  have hr₃ : Regular c ((p.placed e).begun id) := hr.placed_begun ho e
  have hid : ((p.placed e).begun id).schema.HasType id := ho₃.noted id .building
    (by simp [Progress.begun])
  have hunbuilt : (id, BuildState.built) ∉ ((p.placed e).begun id).notes := fun hm => by
    have hm : (id, BuildState.built) ∈ p.notes := by
      simpa [Progress.begun, Progress.placed] using hm
    exact Nat.lt_irrefl _ (ho.noted _ _ hm)
  have hdef : ((p.placed e).begun id).schema.typeDef id = .complex {} := by
    simp [Progress.begun, Progress.placed, typeDef_addType, id]
  have hdeclares : Declares c ((p.placed e).begun id) id e :=
    .inr (by simp [Progress.begun, Progress.placed, Table.find, id])
  obtain ⟨hstep, hsettles, hname, hfits⟩ := hb.complexType ctx e id none hc ho₃ hr₃ hid htype
  have hmade : MadeFrom c e id (.complex t) := by
    obtain ⟨depth, rfl⟩ := hb.deep
    refine ⟨depth, ctx, none, (p.placed e).begun id, q, hc, ?_⟩
    unfold globalDef
    rw [if_pos he]
    exact bind_eq_ok htype rfl
  obtain ⟨hdone, hg, hend⟩ := hstep.finish type (t := .complex t) hsettles
    (by simp [Progress.begun]) hunbuilt hid (by simp [Schema.complex?, hdef, TypeDef.complex?])
    (by simp [hdef, TypeDef.name?, hname]) hr.large hfits ⟨e, hdeclares, hmade⟩
  exact ⟨hdone, (Schema.grows_addType p.schema _).trans hg, hend, hg.hasType hid⟩

theorem places_elementType (e : Element) :
    Places c type (fun _ => True) (elementType b ctx e) nothing
      fun r s => ∀ id ∈ r, s.HasType id := by
  unfold elementType
  split
  · exact (places_resolveType hb hc e _).weaken (fun _ h => h) fun _ _ h id hid => (h id hid).1
  · split
    · next inline hinline =>
      have hname : inline.localName = "complexType" := by
        simpa using List.find?_some hinline
      refine (places_anonymousComplex hb hc hname).next fun id => .pure fun _ _ hid o ho => ?_
      cases ho
      exact hid
    · split
      · refine (places_anonymousSimple hb hc _).next fun id => .pure fun _ _ hid o ho => ?_
        cases ho
        exact hid
      · refine .pure fun p hr _ id hid => ?_
        cases hid
        exact Nat.lt_of_lt_of_le (Nat.succ_pos _) hr.large

theorem places_elementDecl (e : Element) (name : QName) (enclosing : Option TypeId) :
    Places c type (fun s => ∀ id ∈ enclosing, s.HasType id) (elementDecl b ctx e name enclosing)
      nothing fun d s => d.enclosing = enclosing ∧ s.HoldsDecl d := by
  have htype := ((places_elementType hb hc e : Places c type _ _ _ _).frame
    (lasting_all lasting_hasType (· ∈ enclosing))).weaken (fun _ h => ⟨h, trivial⟩)
    fun _ _ h => h
  refine htype.next fun t => .pure fun _ _ ⟨henclosing, ht⟩ => ⟨rfl, fun id hid => ?_⟩
  exact hid.elim (ht id) (henclosing id)

/-- An element that is declared here waits for the type. -/
theorem places_localElement (e : Element) :
    Places c type (·.HasType type) (localElement b ctx type e) Option.toList
      fun r s => ∀ id ∈ r, s.HasElement id := by
  unfold localElement
  split
  · refine .get fun p hr _ => .pure fun _ _ hg id hid => ?_
    obtain ⟨name, -, hfound⟩ := Option.bind_eq_some_iff.1 hid
    exact hg.hasElement (hr.closed.findElement hfound)
  · split
    · exact .fail _
    · refine ((places_elementDecl hb hc e _ (some type)).weaken
        (fun _ h id hid => Option.some.inj hid ▸ h) fun _ _ h => h).next fun d => ?_
      by_cases hd : d.enclosing = some type
      · refine ((Places.addElement hd).weaken (fun _ h => h.2) fun _ _ h => h).bind fun id => ?_
        refine .pure fun _ _ hid => ⟨by simp, fun o ho => ?_⟩
        cases ho
        exact hid
      · exact fun _ _ _ _ _ h => absurd h.1 hd

omit hb hc in
theorem elementIdsOf_toList_append (p : Option Particle) (ps : List Particle) :
    Particle.elementIdsOf (p.toList ++ ps) = elementsOf p ++ Particle.elementIdsOf ps := by
  cases p with
  | none => rfl
  | some p => rfl

omit hb hc in
theorem lasting_hasElement (id : ElementId) : Lasting (·.HasElement id) :=
  fun _ _ hg hid => hg.hasElement hid

omit hb hc in
theorem lasting_hasUse (id : UseId) : Lasting (·.HasUse id) :=
  fun _ _ hg hid => hg.hasUse hid

theorem places_members (es : List Element) :
    Places c type (·.HasType type) (members b ctx type es) Particle.elementIdsOf
      fun ps s => ∀ id ∈ Particle.elementIdsOf ps, s.HasElement id := by
  induction es with
  | nil => exact .pure fun _ _ _ _ hid => by cases hid
  | cons e es ih =>
    have hfirst := ((hb.particle ctx e type hc).frame (lasting_hasType type)).weaken
      (R := (·.HasType type)) (fun _ h => ⟨h, h⟩) fun _ _ h => h
    refine hfirst.bind fun p => ?_
    have hrest := (ih.frame (lasting_all lasting_hasElement (· ∈ elementsOf p))).weaken
      (R := fun s => s.HasType type ∧ ∀ id ∈ elementsOf p, s.HasElement id)
      (fun _ h => ⟨h.2, h.1⟩) fun _ _ h => h
    refine hrest.bind fun ps => .pure fun _ _ ⟨hp, hps⟩ => ?_
    rw [elementIdsOf_toList_append]
    refine ⟨List.subset_append_right _ _, List.subset_append_left _ _, fun id hid => ?_⟩
    exact (List.mem_append.1 hid).elim (hp id) (hps id)

omit hb hc in
theorem elementsOf_withOccurs (bounds : Occurs) (r : Option Particle) :
    elementsOf (r.map (·.withOccurs bounds)) = elementsOf r := by
  cases r with
  | none => rfl
  | some p => cases p <;> rfl

theorem places_groupReference (bounds : Occurs) (e : Element) :
    Places c type (·.HasType type) (groupReference b ctx type bounds e) elementsOf
      fun r s => ∀ id ∈ elementsOf r, s.HasElement id := by
  have hinner (name : QName) : c.Same { ctx with openGroups := name :: ctx.openGroups } := by
    obtain ⟨groups, attributeGroups, rfl⟩ := hc
    exact ⟨_, _, rfl⟩
  have hnone : Places c type (·.HasType type) (pure none : Load (Option Particle)) elementsOf
      fun r s => ∀ id ∈ elementsOf r, s.HasElement id :=
    .pure fun _ _ _ _ hid => by cases hid
  unfold groupReference
  split
  · exact .fail _
  · split
    · exact hnone
    · split
      · exact hnone
      · split
        · exact hnone
        · split
          · exact hnone
          · refine (hb.particle _ _ type (hinner _)).bind fun r => .pure fun _ _ hr => ?_
            rw [elementsOf_withOccurs]
            exact ⟨List.Subset.refl _, hr⟩

theorem places_particle (e : Element) :
    Places c type (·.HasType type) (particle b ctx type e) elementsOf
      fun r s => ∀ id ∈ elementsOf r, s.HasElement id := by
  unfold particle
  refine Places.next (Places.lift _) fun bounds => ?_
  refine Places.weaken (P := (·.HasType type)) ?_ (fun _ h => h.2) fun _ _ h => h
  split
  · refine (places_members hb hc _).bind fun ps => .pure fun _ _ hps => ?_
    exact ⟨List.Subset.refl _, hps⟩
  · split
    · refine (places_localElement hb hc e).bind fun r => .pure fun _ _ hr => ?_
      cases r with
      | none => exact ⟨List.nil_subset _, fun id hid => by cases hid⟩
      | some id =>
        refine ⟨List.Subset.refl _, fun o ho => hr o ?_⟩
        rw [Option.mem_def, List.mem_singleton.1 ho]
    · split
      · exact places_groupReference hb hc bounds e
      · split
        · exact .pure fun _ _ _ _ hid => by cases hid
        · exact .pure fun _ _ _ _ hid => by cases hid

theorem places_contentModel (e : Element) :
    Places c type (·.HasType type) (contentModel b ctx type e) elementsOf
      fun r s => ∀ id ∈ elementsOf r, s.HasElement id := by
  unfold contentModel
  split
  · exact hb.particle ctx _ type hc
  · exact .pure fun _ _ _ _ hid => by cases hid

theorem places_attributeDecl (e : Element) (isGlobal : Bool) :
    Places c type (fun _ => True) (attributeDecl b ctx e isGlobal) nothing
      fun d s => ∀ id ∈ d.type, s.HasType id := by
  unfold attributeDecl
  split
  · exact .fail _
  · dsimp only
    split
    · exact places_anySimpleType.next fun _ => .pure fun _ _ h => h
    · exact (places_namedOrInline hb hc e _).next fun _ => .pure fun _ _ h => h

theorem places_attributeUse (e : Element) :
    Places c type (fun _ => True) (attributeUse b ctx e) nothing
      fun r s => ∀ id ∈ r.1, s.HasUse id := by
  have hnone (names : List QName) : Places c type (fun _ => True)
      (pure ([], names) : Load (List UseId × List QName)) nothing
      fun r s => ∀ id ∈ r.1, s.HasUse id := .pure fun _ _ _ _ hid => by cases hid
  have hadd (u : AttributeUse) : Places c type (fun s => ∀ id ∈ u.decl.type, s.HasType id)
      (do return ([← addUse u], []) : Load (List UseId × List QName)) nothing
      fun r s => ∀ id ∈ r.1, s.HasUse id :=
    (Places.addUse u).next fun _ => .pure fun _ _ hid o ho => List.mem_singleton.1 ho ▸ hid
  unfold attributeUse
  dsimp only
  split
  · split
    · exact hnone _
    · split
      · exact hnone _
      · split
        · exact hnone _
        · exact (places_attributeDecl hb hc _ true).next fun d => hadd ⟨_, d, _⟩
  · refine (places_attributeDecl hb hc e false).next fun d => ?_
    split
    · exact .pure fun _ _ _ _ hid => by cases hid
    · exact hadd ⟨_, d, _⟩

theorem places_attributeGroup (e : Element) :
    Places c type (fun _ => True) (attributeGroup b ctx e) nothing
      fun r s => ∀ id ∈ r.1, s.HasUse id := by
  have hinner (name : QName) :
      c.Same { ctx with openAttributeGroups := name :: ctx.openAttributeGroups } := by
    obtain ⟨groups, attributeGroups, rfl⟩ := hc
    exact ⟨_, _, rfl⟩
  have hnone : Places c type (fun _ => True)
      (pure ([], []) : Load (List UseId × List QName)) nothing
      fun r s => ∀ id ∈ r.1, s.HasUse id := .pure fun _ _ _ _ hid => by cases hid
  unfold attributeGroup
  split
  · exact hnone
  · split
    · exact hnone
    · split
      · exact hnone
      · exact hb.uses _ _ type (hinner _)

theorem places_usesOf (es : List Element) :
    Places c type (fun _ => True) (usesOf b ctx es) nothing
      fun r s => ∀ id ∈ r.1, s.HasUse id := by
  induction es with
  | nil => exact .pure fun _ _ _ _ hid => by cases hid
  | cons e es ih =>
    have hrest (uses : List UseId) (prohibited : List QName) :
        Places c type (fun s => ∀ id ∈ uses, s.HasUse id) (do
          let more ← usesOf b ctx es
          return (uses ++ more.1, prohibited ++ more.2)) nothing
        fun r s => ∀ id ∈ r.1, s.HasUse id := by
      have hmore := (ih.frame (lasting_all lasting_hasUse (· ∈ uses))).weaken
        (fun _ h => ⟨h, trivial⟩) fun _ _ h => h
      refine hmore.next fun r => .pure fun _ _ ⟨huses, hr⟩ id hid => ?_
      exact (List.mem_append.1 hid).elim (huses id) (hr id)
    unfold usesOf
    dsimp only
    split
    · exact (places_attributeUse hb hc e).next fun r => hrest r.1 r.2
    · split
      · exact (places_attributeGroup hb hc e).next fun r => hrest r.1 r.2
      · refine Places.next (Q := fun r s => ∀ id ∈ r.1, s.HasUse id)
          (.pure fun _ _ _ _ hid => by cases hid) fun r => hrest r.1 r.2

theorem places_attributeUses (e : Element) :
    Places c type (fun _ => True) (attributeUses b ctx e) nothing
      fun r s => ∀ id ∈ r.1, s.HasUse id :=
  places_usesOf hb hc _

omit hb hc in
theorem mem_mergeUses {s : Schema} {base : Option TypeId} {method : Derivation}
    {own : List UseId} {prohibited : List QName} (hs : s.Closed) (hown : ∀ id ∈ own, s.HasUse id) :
    ∀ id ∈ mergeUses s base method own prohibited, s.HasUse id := by
  have hinherited : ∀ id ∈ ((base.bind s.complex?).map (·.uses)).getD [], s.HasUse id := by
    intro id hid
    cases ht : base.bind s.complex? with
    | none => simp [ht] at hid
    | some t =>
      obtain ⟨parent, -, hparent⟩ := Option.bind_eq_some_iff.1 ht
      exact hs.complexUses hparent id (by simpa [ht] using hid)
  intro id hid
  unfold mergeUses at hid
  dsimp only at hid
  split at hid
  · exact (List.mem_append.1 hid).elim (hinherited id) (hown id)
  · rcases List.mem_append.1 hid with hid | hid
    · exact hinherited id (List.mem_filter.1 hid).1
    · exact hown id hid

theorem places_derivationOf (d : Element) :
    Places c type (fun _ => True) (derivationOf b ctx d) nothing
      fun r s => r.1 ≠ .none ∧ ∀ id ∈ r.2, HasNamed s id := by
  unfold derivationOf
  dsimp only
  split
  · exact .fail _
  · refine (places_resolveType hb hc d _).next fun base => .pure fun _ _ hbase => ⟨?_, hbase⟩
    dsimp only
    split <;> simp

omit hb hc in
theorem fits_complex {s : Schema} {t : ComplexType} (hbase : ∀ id ∈ t.base, HasNamed s id)
    (hmethod : t.derivation ≠ .none ∨ ∀ id ∈ t.base, id = Schema.anyType)
    (hparticle : ∀ id ∈ elementsOf t.particle, s.HasElement id)
    (huses : ∀ id ∈ t.uses, s.HasUse id) : s.Fits (.complex t) where
  types id hid := (hbase id (Option.mem_toList.1 hid)).1
  elements := hparticle
  uses := huses
  rests ct base hct hb := by
    cases hct
    exact ⟨(hbase base hb).2, fun hnone => hmethod.elim (absurd hnone) fun hany => hany base hb⟩

theorem places_simpleContent {bare : ComplexType} (hbare : bare.particle = none)
    (content : Element) :
    Places c type (·.HasType type) (simpleContent b ctx bare content)
      (fun t => elementsOf t.particle) fun t s => t.name = bare.name ∧ s.Fits (.complex t) := by
  refine Places.next (Places.lift _) fun d => ?_
  refine ((places_derivationOf hb hc d).weaken (fun _ _ => trivial) fun _ _ h => h).next
    fun (method, base) => ?_
  have huses := ((places_attributeUses hb hc d : Places c type _ _ _ _).frame (lasting_and
    (P := fun _ => method ≠ .none) (fun _ _ _ h => h)
    (lasting_all lasting_hasNamed (· ∈ base)))).weaken (fun _ h => ⟨h, trivial⟩) fun _ _ h => h
  refine huses.next fun (own, prohibited) => .get fun p hr ⟨⟨hmethod, hbase⟩, hown⟩ => ?_
  refine .pure fun q _ hg => ⟨rfl, hg.fits (fits_complex hbase (.inl hmethod) ?_ ?_)⟩
  · simp [hbare, elementsOf]
  · exact mem_mergeUses hr.closed hown

theorem places_complexContent (bare : ComplexType) (mixed : Bool) (content : Element) :
    Places c type (·.HasType type) (complexContent b ctx type bare mixed content)
      (fun t => elementsOf t.particle) fun t s => t.name = bare.name ∧ s.Fits (.complex t) := by
  refine Places.next (Places.lift _) fun d => ?_
  have hderivation := ((places_derivationOf hb hc d : Places c type _ _ _ _).frame
    (lasting_hasType type)).weaken (R := fun s => Source.derivation content = .ok d ∧
    s.HasType type) (fun _ h => ⟨h.2, trivial⟩) fun _ _ h => h
  refine hderivation.next fun (method, base) => ?_
  have hfacts : Lasting fun s => method ≠ .none ∧ ∀ id ∈ base, HasNamed s id :=
    lasting_and (fun _ _ _ h => h) (lasting_all lasting_hasNamed (· ∈ base))
  have hmodel := ((places_contentModel hb hc d : Places c type _ _ _ _).frame hfacts).weaken
    (R := fun s => s.HasType type ∧ method ≠ .none ∧ ∀ id ∈ base, HasNamed s id)
    (fun _ h => ⟨h.2, h.1⟩) fun _ _ h => h
  refine hmodel.bind fun ownParticle => ?_
  have huses := ((places_attributeUses hb hc d : Places c type _ _ _ _).frame (lasting_and hfacts
    (lasting_all lasting_hasElement (· ∈ elementsOf ownParticle)))).weaken
    (fun _ h => ⟨h, trivial⟩) fun _ _ h => h
  refine huses.next fun (own, prohibited) => ?_
  refine .get fun p hr ⟨⟨⟨hmethod, hbase⟩, hparticle⟩, hown⟩ => .pure fun q _ hg => ?_
  have hinherited : ∀ id ∈ elementsOf ((base.bind p.schema.complex?).bind (·.particle)),
      p.schema.HasElement id := by
    intro id hid
    cases ht : base.bind p.schema.complex? with
    | none => simp [ht, elementsOf] at hid
    | some t =>
      obtain ⟨parent, -, hparent⟩ := Option.bind_eq_some_iff.1 ht
      exact hr.closed.complexElements hparent id (by simpa [ht, elementsOf] using hid)
  refine ⟨?_, rfl, hg.fits (fits_complex hbase (.inl hmethod) ?_ (mem_mergeUses hr.closed hown))⟩
  · dsimp only
    split
    · rw [elementsOf_extendParticle]
      exact List.subset_append_right _ _
    · exact List.Subset.refl _
  · dsimp only
    split
    · rw [elementsOf_extendParticle]
      exact fun id hid => (List.mem_append.1 hid).elim (hinherited id) (hparticle id)
    · exact hparticle

omit hb hc in
theorem Regular.hasNamed_anyType {p : Progress} (h : Regular c p) :
    HasNamed p.schema Schema.anyType := by
  refine ⟨Nat.lt_of_lt_of_le (Nat.succ_pos _) h.large, ?_⟩
  rw [h.root]
  rfl

theorem places_plainContent {bare : ComplexType} (hbase : bare.base = some Schema.anyType)
    (mixed : Bool) (e : Element) :
    Places c type (·.HasType type) (plainContent b ctx type bare mixed e)
      (fun t => elementsOf t.particle) fun t s => t.name = bare.name ∧ s.Fits (.complex t) := by
  refine (places_contentModel hb hc e).bind fun particle => ?_
  have huses := ((places_attributeUses hb hc e : Places c type _ _ _ _).frame
    (lasting_all lasting_hasElement (· ∈ elementsOf particle))).weaken
    (fun _ h => ⟨h, trivial⟩) fun _ _ h => h
  refine huses.next fun (own, prohibited) => .pure fun p hr ⟨hparticle, hown⟩ => ?_
  have hany : ∀ id ∈ bare.base, id = Schema.anyType := fun id hid =>
    (Option.some.inj (hbase.symm.trans hid)).symm
  refine ⟨List.Subset.refl _, rfl, fits_complex ?_ (.inr hany) hparticle hown⟩
  exact fun id hid => hany id hid ▸ hr.hasNamed_anyType

theorem places_complexType (e : Element) (name : Option QName) :
    Places c type (·.HasType type) (complexType b ctx e type name)
      (fun t => elementsOf t.particle) fun t s => t.name = name ∧ s.Fits (.complex t) := by
  unfold complexType
  split
  · exact places_simpleContent hb hc rfl _
  · exact places_complexContent hb hc _ _ _
  · exact places_plainContent hb hc rfl _ e

theorem places_globalDef (e : Element) (name : Option QName) :
    Places c type (·.HasType type) (globalDef b ctx e type name) TypeDef.elementRefs
      fun t s => t.name? = name ∧ s.Fits t := by
  unfold globalDef
  split
  · refine (hb.complexType ctx e type name hc).bind fun t => .pure fun _ _ ht => ?_
    exact ⟨List.Subset.refl _, ht⟩
  · refine ((hb.simpleType ctx e name type hc).weaken (fun _ _ => trivial) fun _ _ h => h).next
      fun t => .pure fun _ _ ht => ht

theorem places_ensureType (id : TypeId) :
    Places c type (fun _ => True) (ensureType b ctx id) nothing fun _ _ => True := by
  refine .of_sound (fun p _ r ho h => ?_) fun p _ r ho hr _ h => ?_
  · obtain ⟨hl, hq, -⟩ := ensureType_ok hb.sound hc ho h
    exact ⟨hl, hq⟩
  · unfold ensureType at h
    rw [get_bind] at h
    by_cases hbegun : p.hasBegun id = true
    · rw [if_pos hbegun] at h
      obtain ⟨-, rfl⟩ := pure_ok h
      exact ⟨hr, .refl _, .of_same rfl, trivial⟩
    · have hnew (state : BuildState) : (id, state) ∉ p.notes := fun hm =>
        hbegun (hasBegun_iff.2 ⟨state, hm⟩)
      rw [if_neg hbegun, find_types hc] at h
      cases he : Table.find id c.types with
      | none =>
        rw [he] at h
        obtain ⟨-, rfl⟩ := pure_ok h
        exact ⟨hr, .refl _, .of_same rfl, trivial⟩
      | some e =>
        rw [he] at h
        obtain ⟨_, p₁, hnote, h⟩ := bind_ok h
        cases hnote
        obtain ⟨t, q, hdef, h⟩ := bind_ok h
        cases h
        obtain ⟨hlt, hkind⟩ := ho.globals id e he
        have ho₁ : InOrder c (p.begun id) := ho.begun hlt hnew
        have hr₁ : Regular c (p.begun id) := hr.begun ho hnew
        obtain ⟨hstep, hsettles, hname, hfits⟩ :=
          places_globalDef hb hc e _ ho₁ hr₁ (show p.schema.HasType id from hlt) hdef
        have htkind := (globalDef_ok hb.sound hc ho₁ rfl he hdef).1
        have hmade : MadeFrom c e id t := by
          obtain ⟨depth, rfl⟩ := hb.deep
          exact ⟨depth, ctx, _, _, q, hc, hdef⟩
        obtain ⟨hdone, hg, hend⟩ := hstep.finish type hsettles
          (by simp [Progress.begun]) (by simpa [Progress.begun] using hnew .built) hlt
          (Bool.eq_iff_iff.2 (htkind.trans hkind.symm)) hname (hr.globals id e he) hfits
          ⟨e, .inl he, hmade⟩
        exact ⟨hdone, hg, hend, trivial⟩

end Steps

/-- The builders of every depth keep a graph regular. -/
theorem regular_builders (c : Context) (depth : Nat) : RegularBuilders c (builders depth) := by
  induction depth with
  | zero =>
    refine ⟨⟨0, rfl⟩, ?_, ?_, ?_, ?_, ?_⟩
    · exact fun _ _ _ _ => .fail _
    · exact fun _ _ _ _ _ => .fail _
    · exact fun _ _ _ _ _ => .fail _
    · exact fun _ _ _ _ => .fail _
    · exact fun _ _ _ _ => .fail _
  | succ depth ih =>
    refine ⟨⟨depth + 1, rfl⟩, ?_, ?_, ?_, ?_, ?_⟩
    · exact fun ctx id type hc => places_ensureType ih hc id
    · exact fun ctx e type name hc => places_complexType ih hc e name
    · exact fun ctx e name type hc => places_simpleType ih hc e name
    · exact fun ctx e type hc => places_particle ih hc e
    · exact fun ctx e type hc => places_attributeUses ih hc e

end SchemaForms.Loader
