import SchemaForms.Proofs.Schema.Accounting

/-!
Every step of loading knows where reading stands, and so do the builders of every depth: what they
build is accounted for.
-/

namespace SchemaForms.Loader

open SchemaForms.Xml
open SchemaForms.Source (parts part? groupNames)

/-- Builders all of whose steps account for what they build. -/
structure FollowingBuilders (c : Context) (b : Builders) : Prop where
  regular : RegularBuilders c b
  ensure : ∀ ctx id, c.Same ctx →
    Follows c (Asked c ctx.openGroups id) (b.ensure ctx id) fun _ _ => True
  complexType : ∀ ctx e id name, c.Same ctx → Follows c (Reading c id ctx.openGroups e)
    (b.complexType ctx e id name) fun t q => ReadAs c q id ctx.openGroups e t
  simpleType : ∀ ctx e name, c.Same ctx →
    Follows c (Standing c ctx.openGroups e) (b.simpleType ctx e name) fun _ _ => True
  particle : ∀ ctx e type, c.Same ctx → Follows c (Reading c type ctx.openGroups e)
    (b.particle ctx type e) fun r q => Reads c q.schema type ctx.openGroups [e] r.toList
  uses : ∀ ctx e, c.Same ctx →
    Follows c (Standing c ctx.openGroups e) (b.uses ctx e) fun _ _ => True

theorem mem_typeReferences {e : Element} {key reference : String}
    (hkey : key ∈ ["type", "base", "itemType"]) (h : e.attribute? key = some reference) :
    reference ∈ typeReferences e :=
  List.mem_append_left _ (List.mem_filterMap.2 ⟨key, hkey, h⟩)

theorem follows_addSimple (c : Context) (t : SimpleType) :
    Follows c (·.schema.Fits (.simple t)) (addType (.simple t))
      fun id q => q.schema.HasType id := by
  refine .of_places (Places.addSimple t : Places c Schema.anyType _ _ _ _) fun p id q h => ?_
  obtain ⟨-, rfl⟩ := addType_ok h
  exact ⟨.of_eq rfl rfl, rfl⟩

theorem follows_addElement {c : Context} {d : ElementDecl} {type : TypeId}
    (htype : d.enclosing = some type) :
    Follows c (·.schema.HoldsDecl d) (addElement d) fun id q => q.schema.HasElement id := by
  refine .of_places (Places.addElement htype) fun p id q h => ?_
  obtain ⟨-, rfl⟩ := addElement_ok h
  exact ⟨.addElement _ d, rfl⟩

theorem follows_addUse (c : Context) (u : AttributeUse) :
    Follows c (·.schema.HoldsUse u) (addUse u) fun id q => q.schema.HasUse id := by
  refine .of_places (Places.addUse u : Places c Schema.anyType _ _ _ _) fun p id q h => ?_
  obtain ⟨-, rfl⟩ := addUse_ok h
  exact ⟨.of_eq rfl rfl, rfl⟩

section Steps

variable {c ctx : Context} {b : Builders} {type : TypeId} (hb : FollowingBuilders c b)
  (hc : c.Same ctx)
include hb hc

theorem follows_resolveType {e : Element} {reference : String}
    (hmem : reference ∈ typeReferences e) : Follows c (Standing c ctx.openGroups e)
      (resolveType b ctx e reference) fun _ _ => True := by
  unfold resolveType
  split
  · exact .pure fun _ _ => trivial
  · next name hname =>
    intro p r q hp hstanding h
    rw [get_bind] at h
    cases hfound : p.schema.findType name with
    | none =>
      rw [hfound] at h
      obtain ⟨-, rfl⟩ := pure_ok h
      exact ⟨.refl hp, trivial⟩
    | some id =>
      rw [hfound] at h
      have hasked := hstanding.asked hmem hname (hp.regular.names name id hfound)
      exact (hb.ensure ctx id hc).bind (S := fun _ _ => True) (fun _ => .pure fun _ _ => trivial)
        hp hasked h

theorem follows_anonymousSimple (e : Element) : Follows c (Standing c ctx.openGroups e)
    (anonymousSimple b ctx e) fun _ _ => True := by
  refine ((hb.simpleType ctx e none hc).also
    (hb.regular.simpleType ctx e none Schema.anyType hc) fun _ _ _ => trivial).bind fun t => ?_
  exact (follows_addSimple c t).weaken (fun _ h => h.2.2) fun _ _ _ => trivial

theorem follows_namedOrInline {e : Element} {key : String}
    (hkey : key ∈ ["type", "base", "itemType"]) :
    Follows c (Standing c ctx.openGroups e) (namedOrInline b ctx e key) fun _ _ => True := by
  unfold namedOrInline
  split
  · next reference href => exact follows_resolveType hb hc (mem_typeReferences hkey href)
  · split
    · next inline hinline =>
      refine ((follows_anonymousSimple hb hc inline).bind fun _ => .pure fun _ _ => trivial).weaken
        (fun p h => h.onward (readsOn_part? hinline (by simp))) fun _ _ h => h
    · exact .pure fun _ _ => trivial

omit hb hc in
theorem follows_anySimpleType (P : Progress → Prop) :
    Follows c P anySimpleType fun _ _ => True :=
  .get fun _ _ => .pure fun _ _ => trivial

theorem follows_unionMembers (e : Element) {references : List String}
    (hsub : references ⊆ typeReferences e) : Follows c (Standing c ctx.openGroups e)
      (unionMembers b ctx e references) fun _ _ => True := by
  induction references with
  | nil => exact .pure fun _ _ => trivial
  | cons reference rest ih =>
    obtain ⟨hmem, hsub⟩ := List.cons_subset.1 hsub
    exact (follows_resolveType hb hc hmem).next (stays_standing c _ e) fun _ =>
      (ih hsub).bind fun _ => .pure fun _ _ => trivial

theorem follows_inlineMembers {e : Element} {es : List Element}
    (hon : ∀ d ∈ es, ReadsOn c (ctx.openGroups, e) (ctx.openGroups, d)) :
    Follows c (Standing c ctx.openGroups e) (inlineMembers b ctx es) fun _ _ => True := by
  induction es with
  | nil => exact .pure fun _ _ => trivial
  | cons d es ih =>
    obtain ⟨hd, hon⟩ := List.forall_mem_cons.1 hon
    refine .next (stays_standing c _ e) ((follows_anonymousSimple hb hc d).weaken
      (fun p h => h.onward hd) fun _ _ h => h) fun _ => ?_
    exact (ih hon).bind fun _ => .pure fun _ _ => trivial

theorem follows_simpleType (e : Element) (name : Option QName) :
    Follows c (Standing c ctx.openGroups e) (simpleType b ctx e name) fun _ _ => True := by
  unfold simpleType
  split
  · next d hd =>
    refine Follows.weaken (P := Standing c ctx.openGroups d) ?_
      (fun p h => h.onward (readsOn_part? hd (by simp))) fun _ _ h => h
    have hstays := stays_standing c ctx.openGroups d
    split
    · exact (follows_namedOrInline hb hc (by simp)).next hstays fun _ =>
        .get fun _ _ => .pure fun _ _ => trivial
    · split
      · exact (follows_anySimpleType _).next hstays fun _ =>
          (follows_namedOrInline hb hc (by simp)).bind fun _ => .pure fun _ _ => trivial
      · have hon : ∀ inline ∈ (parts d).filter (·.localName == "simpleType"),
            ReadsOn c (ctx.openGroups, d) (ctx.openGroups, inline) := fun inline hm => by
          obtain ⟨hpart, hname⟩ := List.mem_filter.1 hm
          refine .part hpart fun _ hcomplex => ?_
          simp [hcomplex] at hname
        exact (follows_anySimpleType _).next hstays fun _ =>
          (follows_unionMembers hb hc d (List.subset_append_right _ _)).next hstays fun _ =>
            (follows_inlineMembers hb hc hon).bind fun _ => .pure fun _ _ => trivial
  · exact .fail _

theorem follows_anonymousComplex {outer e : Element}
    (hinline : part? outer ["complexType"] = some e) :
    Follows c (Standing c ctx.openGroups outer) (anonymousComplex b ctx e) fun _ _ => True := by
  have he : e.localName = "complexType" := by simpa using List.find?_some hinline
  have hplaces : Places c Schema.anyType _ (anonymousComplex b ctx e) _ _ :=
    places_anonymousComplex hb.regular hc he
  intro p id r hp hstanding h
  obtain ⟨hstep, -, -⟩ := hplaces hp.order hp.regular trivial h
  obtain ⟨id, p₁, hadd, h⟩ := bind_ok h
  obtain ⟨rfl, rfl⟩ := addType_ok hadd
  obtain ⟨_, p₂, hdeclare, h⟩ := bind_ok h
  obtain ⟨_, p₃, hnote, h⟩ := bind_ok h
  cases hdeclare
  cases hnote
  obtain ⟨t, q, htype, h⟩ := bind_ok h
  cases h
  let id : TypeId := ⟨p.schema.types.size⟩
  have hnew (state : BuildState) : (id, state) ∉ p.notes := fun hm =>
    Nat.lt_irrefl _ (hp.order.noted _ state hm)
  have hk : Keeps p ((p.placed e).begun id) :=
    (later_placed hp.order e).toKeeps.trans (keeps_begun _ hnew)
  have hg : p.schema.Grows ((p.placed e).begun id).schema := Schema.grows_addType _ _
  have hfind : Table.find id ((p.placed e).begun id).anonymous = some e := by
    simp [Progress.begun, Progress.placed, Table.find, id]
  have hdef : ((p.placed e).begun id).schema.typeDef id = .complex {} := by
    simp [Progress.begun, Progress.placed, typeDef_addType, id]
  have hopen : OpenAround c ((p.placed e).begun id) id ctx.openGroups :=
    hstanding.openAround hp.order hk hg rfl (.inr ⟨e, hinline, hfind⟩)
  have hp₃ : Consistent c ((p.placed e).begun id) :=
    ⟨hp.order.placed_begun e, hp.regular.placed_begun hp.order e,
      hp.accounted.mono hp.order hk hg (.of_eq rfl rfl)
        fun other ho => .inl (by simpa [Progress.begun, Progress.placed] using ho)⟩
  obtain ⟨hq, hread⟩ := hb.complexType ctx e id none hc hp₃
    (hopen.reading (.inr hfind) (hnew .built)) htype
  have hname := (hb.regular.complexType ctx e id none hc hp₃.order hp₃.regular
    (hp₃.order.noted id .building (by simp [Progress.begun])) htype).2.2.1
  obtain ⟨hkeeps, haccounted⟩ := hq.finish (t := .complex t) hp₃.order (by simp [Progress.begun])
    (by simpa [Progress.begun, Progress.placed] using hnew .built)
    (by simp [Schema.complex?, hdef, TypeDef.complex?]) (by simp [hdef, TypeDef.name?, hname])
    (.inr hfind) hopen fun ct hct => by cases hct; exact hread
  have hplaced : p.schema.KeepsElements ((p.placed e).begun id).schema := .of_eq rfl rfl
  exact ⟨{ hstep with keeps := hplaced.trans hkeeps hg, accounted := haccounted }, trivial⟩

theorem follows_elementType (e : Element) : Follows c (Standing c ctx.openGroups e)
    (elementType b ctx e) fun _ _ => True := by
  unfold elementType
  split
  · next reference href => exact follows_resolveType hb hc (mem_typeReferences (by simp) href)
  · split
    · next inline hinline =>
      exact (follows_anonymousComplex hb hc hinline).bind fun _ => .pure fun _ _ => trivial
    · split
      · next inline hinline =>
        exact ((follows_anonymousSimple hb hc inline).bind fun _ => .pure fun _ _ => trivial).weaken
          (fun p h => h.onward (readsOn_part? hinline (by simp))) fun _ _ h => h
      · exact .pure fun _ _ => trivial

theorem follows_elementDecl (e : Element) (name : QName) (enclosing : Option TypeId) :
    Follows c (fun p => Standing c ctx.openGroups e p ∧ ∀ id ∈ enclosing, p.schema.HasType id)
      (elementDecl b ctx e name enclosing)
      fun d q => d.name = name ∧ d.enclosing = enclosing ∧ q.schema.HoldsDecl d := by
  have hplaces : Places c Schema.anyType _ (elementDecl b ctx e name enclosing) _ _ :=
    places_elementDecl hb.regular hc e name enclosing
  intro p d q hp ⟨hstanding, hid⟩ h
  obtain ⟨-, -, henclosing, hholds⟩ := hplaces hp.order hp.regular hid h
  obtain ⟨t, q', htype, h⟩ := bind_ok h
  obtain ⟨rfl, rfl⟩ := pure_ok h
  exact ⟨(follows_elementType hb hc e hp hstanding htype).1, rfl, henclosing, hholds⟩

theorem follows_localElement (e : Element) : Follows c (Reading c type ctx.openGroups e)
    (localElement b ctx type e) fun r q => (∀ id ∈ r, Denotes c q.schema type e id) ∧
      (r = none → ∃ reference, e.attribute? "ref" = some reference ∧
        (nameOf? e reference).bind q.schema.findElement = none) := by
  unfold localElement
  split
  · next reference href =>
    intro p r q hp _ h
    rw [get_bind] at h
    obtain ⟨rfl, rfl⟩ := pure_ok h
    refine ⟨.refl hp, fun id hid => ?_, fun hnone => ⟨reference, href, hnone⟩⟩
    rw [Denotes, href]
    exact hid
  · next href =>
    split
    · exact .fail _
    · next name hattribute =>
      intro p r s hp hreading h
      obtain ⟨d, q, hd, h⟩ := bind_ok h
      obtain ⟨id, q', hadd, h⟩ := bind_ok h
      obtain ⟨rfl, rfl⟩ := pure_ok h
      obtain ⟨hq, hname, henclosing, hholds⟩ := follows_elementDecl hb hc e _ (some type) hp
        ⟨hreading.standing, fun id hid => Option.some.inj hid ▸ hreading.hasType hp.order⟩ hd
      obtain ⟨hq', hid⟩ := follows_addElement henclosing hq.consistent hholds hadd
      obtain ⟨rfl, rfl⟩ := addElement_ok hadd
      refine ⟨hq.trans hq', fun other hother => ?_, fun hnone => by cases hnone⟩
      cases hother
      rw [Denotes, href]
      refine ⟨hid, ?_, name, hattribute, ?_⟩
      · rw [Schema.element_addElement, if_pos rfl, henclosing]
      · obtain ⟨groups, attributeGroups, rfl⟩ := hc
        rw [Schema.element_addElement, if_pos rfl, hname]

theorem follows_members {e : Element} {es : List Element}
    (hon : ∀ d ∈ es, ReadsOn c (ctx.openGroups, e) (ctx.openGroups, d)) :
    Follows c (Reading c type ctx.openGroups e) (members b ctx type es)
      fun ps q => Reads c q.schema type ctx.openGroups es ps := by
  induction es with
  | nil => exact .pure fun _ _ => .nil
  | cons d es ih =>
    obtain ⟨hd, hon⟩ := List.forall_mem_cons.1 hon
    intro p ps s hp hreading h
    obtain ⟨r, q, hfirst, h⟩ := bind_ok h
    obtain ⟨rs, q', hrest, h⟩ := bind_ok h
    obtain ⟨rfl, rfl⟩ := pure_ok h
    obtain ⟨hq, hr⟩ := hb.particle ctx d type hc hp (hreading.onward hd) hfirst
    obtain ⟨hq', hrs⟩ := ih hon hq.consistent
      (stays_reading c type _ e hp.order hq.toStep hreading) hrest
    exact ⟨hq.trans hq', (hq'.reads hr).append hrs⟩

omit hb hc in
/-- What a reference stands for depends on where it leads to and on what is open. -/
theorem groupReference_eq (bounds : Occurs) {e : Element} {reference : String}
    (href : e.attribute? "ref" = some reference) :
    groupReference b ctx type bounds e = match expansion? ctx e with
      | none => pure none
      | some (name, model) =>
        if ctx.openGroups.contains name then pure none
        else do
          let inner := { ctx with openGroups := name :: ctx.openGroups }
          return (← b.particle inner type model).map (·.withOccurs bounds) := by
  unfold groupReference expansion?
  simp only [href, Option.bind_eq_bind, Option.bind_some, Option.pure_def]
  cases nameOf? e reference with
  | none => rfl
  | some name =>
    cases hfound : ctx.groups.get? name with
    | none => simp [hfound]
    | some definition =>
      cases hmodel : part? definition groupNames <;> simp [hfound, hmodel]

theorem follows_groupReference {bounds : Occurs} {e : Element} (he : e.localName = "group")
    (hbounds : Source.occurs e = .ok bounds) : Follows c (Reading c type ctx.openGroups e)
      (groupReference b ctx type bounds e)
      fun r q => Reads c q.schema type ctx.openGroups [e] r.toList := by
  cases href : e.attribute? "ref" with
  | none =>
    unfold groupReference
    rw [href]
    exact .fail _
  | some reference =>
    rw [groupReference_eq bounds href]
    obtain ⟨opens, attributeGroups, rfl⟩ := hc
    split
    · next hlost => exact .pure fun _ _ => .blank (.group he hlost) .nil
    · next name model hgroup =>
      split
      · next hopen =>
        exact .pure fun _ _ => .circular he hgroup (List.contains_iff_mem.1 hopen) .nil
      · next hopen =>
        have hclosed : name ∉ opens := fun hm => hopen (List.contains_iff_mem.2 hm)
        obtain ⟨compositor, hmodel⟩ := ofName?_of_expansion? hgroup
        refine ((hb.particle _ model type ⟨_, _, rfl⟩).weaken
          (fun p h => h.onward (.group he hgroup hclosed)) fun _ _ h => h).bind fun r =>
            .pure fun q hread => ?_
        obtain ⟨own, ps, hps, hmembers⟩ := hread.of_compositor hmodel
        obtain ⟨particle, rfl⟩ : ∃ particle, r = some particle := by
          cases r with
          | none => cases hps
          | some particle => exact ⟨particle, rfl⟩
        cases hps
        exact .expansion he hbounds hgroup hclosed hmodel hmembers .nil

theorem follows_particle (e : Element) : Follows c (Reading c type ctx.openGroups e)
    (particle b ctx type e) fun r q => Reads c q.schema type ctx.openGroups [e] r.toList := by
  intro p r s hp hreading h
  obtain ⟨bounds, _, hlift, h⟩ := bind_ok h
  obtain ⟨hbounds, rfl⟩ := lift_ok hlift
  refine (show Follows c (Reading c type ctx.openGroups e) _
    fun r q => Reads c q.schema type ctx.openGroups [e] r.toList from ?_) hp hreading h
  split
  · next compositor hname =>
    have hon : ∀ d ∈ parts e, ReadsOn c (ctx.openGroups, e) (ctx.openGroups, d) := fun d hpart =>
      .part hpart fun he => by
        rw [he] at hname
        cases hname
    exact (follows_members hb hc hon).bind fun ps =>
      .pure fun _ hps => .group hname hbounds hps .nil
  · next hnone =>
    split
    · next he =>
      refine (follows_localElement hb hc e).bind fun found => .pure fun q ⟨hdenotes, hlost⟩ => ?_
      cases found with
      | none =>
        obtain ⟨reference, href, hlost⟩ := hlost rfl
        exact .blank (.element he href hlost) .nil
      | some id => exact .element he hbounds (hdenotes id rfl) .nil
    · next helement =>
      split
      · next he => exact follows_groupReference hb hc he hbounds
      · next hgroup =>
        split
        · next he => exact .pure fun _ _ => .wildcard he hbounds .nil
        · next hany =>
          refine .pure fun _ _ => .blank (.other ?_) .nil
          have hmodel : e.localName ∉ groupNames := fun hm => by
            simpa [hnone] using isSome_ofName?_iff.2 hm
          simp [hmodel, helement, hgroup, hany]

theorem follows_contentModel (e : Element) : Follows c (Reading c type ctx.openGroups e)
    (contentModel b ctx type e) fun r q => Reads c q.schema type ctx.openGroups
      (part? e (groupNames ++ ["group"])).toList r.toList := by
  unfold contentModel
  split
  · next model hmodel =>
    rw [hmodel]
    exact (hb.particle ctx model type hc).weaken
      (fun p h => h.onward (readsOn_part? hmodel (by simp [groupNames]))) fun _ _ h => h
  · next hnone =>
    rw [hnone]
    exact .pure fun _ _ => .nil

theorem follows_attributeDecl (e : Element) (isGlobal : Bool) :
    Follows c (Standing c ctx.openGroups e) (attributeDecl b ctx e isGlobal)
      fun d q => ∀ id ∈ d.type, q.schema.HasType id := by
  have hplaces : Places c Schema.anyType _ (attributeDecl b ctx e isGlobal) _ _ :=
    places_attributeDecl hb.regular hc e isGlobal
  refine (Follows.also (Q := fun _ _ => True) ?_ hplaces fun _ _ _ => trivial).weaken
    (fun _ h => h) fun _ _ h => h.2
  unfold attributeDecl
  split
  · exact .fail _
  · dsimp only
    split
    · exact (follows_anySimpleType _).bind fun _ => .pure fun _ _ => trivial
    · exact (follows_namedOrInline hb hc (by simp)).bind fun _ => .pure fun _ _ => trivial

theorem follows_attributeUse {e : Element} (he : e.localName = "attribute") :
    Follows c (Standing c ctx.openGroups e) (attributeUse b ctx e) fun _ _ => True := by
  have hadd (u : AttributeUse) :
      Follows c (fun p => ∀ id ∈ u.decl.type, p.schema.HasType id)
        (do return ([← addUse u], []) : Load (List UseId × List QName)) fun _ _ => True :=
    (follows_addUse c u).bind fun _ => .pure fun _ _ => trivial
  have hattributes : c.attributes = ctx.attributes := by
    obtain ⟨groups, attributeGroups, rfl⟩ := hc
    rfl
  unfold attributeUse
  dsimp only
  split
  · next reference href =>
    split
    · exact .pure fun _ _ => trivial
    · next name hname =>
      split
      · exact .pure fun _ _ => trivial
      · split
        · exact .pure fun _ _ => trivial
        · next definition hfound =>
          refine ((follows_attributeDecl hb hc definition true).weaken (fun p h => h.onward
            (.attribute he href hname (hattributes ▸ hfound))) fun _ _ h => h).bind fun d => ?_
          exact hadd ⟨_, d, _⟩
  · refine (follows_attributeDecl hb hc e false).bind fun d => ?_
    split
    · exact .pure fun _ _ => trivial
    · exact hadd ⟨_, d, _⟩

theorem follows_attributeGroup {e : Element} (he : e.localName = "attributeGroup") :
    Follows c (Standing c ctx.openGroups e) (attributeGroup b ctx e) fun _ _ => True := by
  obtain ⟨opens, attributeGroups, rfl⟩ := hc
  unfold attributeGroup
  split
  · exact .pure fun _ _ => trivial
  · next name hname =>
    split
    · exact .pure fun _ _ => trivial
    · next definition hfound =>
      split
      · exact .pure fun _ _ => trivial
      · obtain ⟨reference, href, hname⟩ := Option.bind_eq_some_iff.1 hname
        exact (hb.uses _ definition ⟨_, _, rfl⟩).weaken
          (fun p h => h.onward (.attributeGroup he href hname hfound)) fun _ _ h => h

theorem follows_usesOf (e : Element) {es : List Element} (hsub : es ⊆ parts e) :
    Follows c (Standing c ctx.openGroups e) (usesOf b ctx es) fun _ _ => True := by
  have hstays := stays_standing c ctx.openGroups e
  induction es with
  | nil => exact .pure fun _ _ => trivial
  | cons d es ih =>
    obtain ⟨hpart, hsub⟩ := List.cons_subset.1 hsub
    have hrest (uses : List UseId) (prohibited : List QName) :
        Follows c (Standing c ctx.openGroups e) (do
          let more ← usesOf b ctx es
          return (uses ++ more.1, prohibited ++ more.2)) fun _ _ => True :=
      (ih hsub).bind fun _ => .pure fun _ _ => trivial
    have hone {f : Load (List UseId × List QName)} (hd : d.localName ≠ "complexType")
        (h : Follows c (Standing c ctx.openGroups d) f fun _ _ => True) :
        Follows c (Standing c ctx.openGroups e) f fun _ _ => True :=
      h.weaken (fun p h => h.onward (.part hpart fun _ => hd)) fun _ _ h => h
    unfold usesOf
    dsimp only
    split
    · next hd =>
      exact (hone (by simp [hd]) (follows_attributeUse hb hc hd)).next hstays fun r => hrest r.1 r.2
    · split
      · next hd =>
        exact (hone (by simp [hd]) (follows_attributeGroup hb hc hd)).next hstays
          fun r => hrest r.1 r.2
      · exact Follows.next (Q := fun _ _ => True) hstays (.pure fun _ _ => trivial)
          fun r => hrest r.1 r.2

theorem follows_attributeUses (e : Element) : Follows c (Standing c ctx.openGroups e)
    (attributeUses b ctx e) fun _ _ => True :=
  follows_usesOf hb hc e (List.Subset.refl _)

theorem follows_derivationOf (d : Element) : Follows c (Standing c ctx.openGroups d)
    (derivationOf b ctx d) fun _ _ => True := by
  unfold derivationOf
  dsimp only
  split
  · exact .fail _
  · next reference href =>
    exact (follows_resolveType hb hc (mem_typeReferences (by simp) href)).bind fun _ =>
      .pure fun _ _ => trivial

omit hb hc in
theorem readsOn_derivation {content d : Element} {opens : List QName}
    (h : Source.derivation content = .ok d) : ReadsOn c (opens, content) (opens, d) := by
  unfold Source.derivation at h
  split at h
  · next hd =>
    cases h
    exact readsOn_part? hd (by simp)
  · cases h

/-- A type with simple content has no particle, whatever it is derived from. -/
theorem follows_simpleContent {bare : ComplexType} (hbare : bare.particle = none)
    (content : Element) : Follows c (Standing c ctx.openGroups content)
      (simpleContent b ctx bare content) fun t q => HoldsOwn q t none := by
  intro p t s hp hstanding h
  obtain ⟨d, _, hlift, h⟩ := bind_ok h
  obtain ⟨hd, rfl⟩ := lift_ok hlift
  obtain ⟨⟨method, base⟩, p₁, hbase, h⟩ := bind_ok h
  obtain ⟨⟨own, prohibited⟩, p₂, huses, h⟩ := bind_ok h
  dsimp only at h
  rw [get_bind] at h
  obtain ⟨rfl, rfl⟩ := pure_ok h
  have hstanding := hstanding.onward (readsOn_derivation hd)
  obtain ⟨h₁, -⟩ := follows_derivationOf hb hc d hp hstanding hbase
  obtain ⟨h₂, -⟩ := follows_attributeUses hb hc d h₁.consistent
    (stays_standing c _ d hp.order h₁.toStep hstanding) huses
  refine ⟨h₁.trans h₂, ?_⟩
  simp only [HoldsOwn]
  split
  · exact ⟨none, by simp [hbare, extendParticle], .inl rfl⟩
  · exact hbare

/-- The content of the base is read last of all; a base under way has none yet. -/
theorem follows_complexContent (bare : ComplexType) (mixed : Bool) (content : Element) :
    Follows c (Reading c type ctx.openGroups content) (complexContent b ctx type bare mixed content)
      fun t q => ∃ d own, Source.derivation content = .ok d ∧
        Reads c q.schema type ctx.openGroups (part? d (groupNames ++ ["group"])).toList
          own.toList ∧ HoldsOwn q t own := by
  intro p t s hp hreading h
  obtain ⟨d, _, hlift, h⟩ := bind_ok h
  obtain ⟨hd, rfl⟩ := lift_ok hlift
  obtain ⟨⟨method, base⟩, p₁, hbase, h⟩ := bind_ok h
  obtain ⟨own, p₂, hown, h⟩ := bind_ok h
  obtain ⟨⟨uses, prohibited⟩, p₃, huses, h⟩ := bind_ok h
  dsimp only at h
  rw [get_bind] at h
  obtain ⟨rfl, rfl⟩ := pure_ok h
  have hreading := hreading.onward (readsOn_derivation hd)
  have hstays := stays_reading c type ctx.openGroups d
  obtain ⟨h₁, -⟩ := follows_derivationOf hb hc d hp hreading.standing hbase
  have hreading₁ := hstays hp.order h₁.toStep hreading
  obtain ⟨h₂, hread⟩ := follows_contentModel hb hc d h₁.consistent hreading₁ hown
  obtain ⟨h₃, -⟩ := follows_attributeUses hb hc d h₂.consistent
    (hstays h₁.order h₂.toStep hreading₁).standing huses
  refine ⟨h₁.trans (h₂.trans h₃), d, own, hd, h₃.reads hread, ?_⟩
  unfold HoldsOwn
  split
  · refine ⟨(base.bind p₃.schema.complex?).bind (·.particle), rfl, ?_⟩
    cases hfound : base.bind p₃.schema.complex? with
    | none => exact .inl rfl
    | some parent =>
      obtain ⟨outer, rfl, hparent⟩ := Option.bind_eq_some_iff.1 hfound
      by_cases hbuilt : (outer, BuildState.built) ∈ p₃.notes
      · exact .inr ⟨outer, parent, rfl, hbuilt, hparent, rfl⟩
      · exact .inl (h₃.order.bare outer parent hparent hbuilt).1
  · rfl

theorem follows_plainContent {bare : ComplexType} (hbare : bare.derivation = .none) (mixed : Bool)
    (e : Element) : Follows c (Reading c type ctx.openGroups e)
      (plainContent b ctx type bare mixed e) fun t q => ∃ own,
        Reads c q.schema type ctx.openGroups (part? e (groupNames ++ ["group"])).toList
          own.toList ∧ HoldsOwn q t own := by
  intro p t s hp hreading h
  obtain ⟨own, p₁, hown, h⟩ := bind_ok h
  obtain ⟨⟨uses, prohibited⟩, p₂, huses, h⟩ := bind_ok h
  obtain ⟨rfl, rfl⟩ := pure_ok h
  obtain ⟨h₁, hread⟩ := follows_contentModel hb hc e hp hreading hown
  obtain ⟨h₂, -⟩ := follows_attributeUses hb hc e h₁.consistent
    (stays_reading c type _ e hp.order h₁.toStep hreading).standing huses
  refine ⟨h₁.trans h₂, own, h₂.reads hread, ?_⟩
  simp [HoldsOwn, hbare]

theorem follows_complexType (e : Element) (name : Option QName) :
    Follows c (Reading c type ctx.openGroups e) (complexType b ctx e type name)
      fun t q => ReadAs c q type ctx.openGroups e t := by
  unfold complexType
  split
  · next content hcontent =>
    refine (follows_simpleContent hb hc rfl content).weaken
      (fun p h => (h.onward (readsOn_part? hcontent (by simp))).standing)
      fun t q hown => ⟨none, ?_, hown⟩
    simp only [model?, hcontent]
    exact .nil
  · next content hsimple hcontent =>
    refine (follows_complexContent hb hc _ _ content).weaken
      (fun p h => h.onward (readsOn_part? hcontent (by simp))) fun t q ⟨d, own, hd, hread, hown⟩ =>
        ⟨own, ?_, hown⟩
    simpa only [model?, hsimple, hcontent, hd, Except.toOption, Option.bind_some] using hread
  · next hsimple hcontent =>
    refine (follows_plainContent hb hc rfl _ e).weaken (fun _ h => h)
      fun t q ⟨own, hread, hown⟩ => ⟨own, ?_, hown⟩
    simpa only [model?, hsimple, hcontent] using hread

theorem follows_globalDef (e : Element) (name : Option QName) :
    Follows c (Reading c type ctx.openGroups e) (globalDef b ctx e type name)
      fun t q => ∀ ct, t = .complex ct → ReadAs c q type ctx.openGroups e ct := by
  unfold globalDef
  split
  · exact (hb.complexType ctx e type name hc).bind fun t => .pure fun _ hread ct hct =>
      TypeDef.complex.inj hct ▸ hread
  · exact ((hb.simpleType ctx e name hc).weaken (fun _ h => h.standing) fun _ _ h => h).bind
      fun t => .pure fun _ _ ct hct => by cases hct

theorem follows_ensureType (id : TypeId) : Follows c (Asked c ctx.openGroups id)
    (ensureType b ctx id) fun _ _ => True := by
  have hplaces : Places c Schema.anyType _ (ensureType b ctx id) _ _ :=
    places_ensureType hb.regular hc id
  intro p _ r hp hasked h
  obtain ⟨hstep, -⟩ := hplaces hp.order hp.regular trivial h
  unfold ensureType at h
  rw [get_bind] at h
  by_cases hbegun : p.hasBegun id = true
  · rw [if_pos hbegun] at h
    obtain ⟨-, rfl⟩ := pure_ok h
    exact ⟨.refl hp, trivial⟩
  · have hnew (state : BuildState) : (id, state) ∉ p.notes := fun hm =>
      hbegun (hasBegun_iff.2 ⟨state, hm⟩)
    rw [if_neg hbegun, find_types hc] at h
    cases he : Table.find id c.types with
    | none =>
      rw [he] at h
      obtain ⟨-, rfl⟩ := pure_ok h
      exact ⟨.refl hp, trivial⟩
    | some e =>
      rw [he] at h
      obtain ⟨_, p₁, hnote, h⟩ := bind_ok h
      cases hnote
      obtain ⟨t, q, hdef, h⟩ := bind_ok h
      cases h
      obtain ⟨hlt, hkind⟩ := hp.order.globals id e he
      have hp₁ : Consistent c (p.begun id) :=
        ⟨hp.order.begun hlt hnew, hp.regular.begun hp.order hnew,
          hp.accounted.mono hp.order (keeps_begun p hnew) (.refl _) (.refl _)
            fun other ho => .inl (by simpa [Progress.begun] using ho)⟩
      have hopen := hasked.openAround hp.order hnew
      obtain ⟨hq, hread⟩ := follows_globalDef hb hc e _ hp₁
        (hopen.reading (.inl he) (hnew .built)) hdef
      have hname := (places_globalDef hb.regular hc e _ hp₁.order hp₁.regular
        (show p.schema.HasType id from hlt) hdef).2.2.1
      have htkind := (globalDef_ok hb.regular.sound hc hp₁.order rfl he hdef).1
      obtain ⟨hkeeps, haccounted⟩ := hq.finish hp₁.order (by simp [Progress.begun])
        (by simpa [Progress.begun] using hnew .built) (Bool.eq_iff_iff.2 (htkind.trans hkind.symm))
        hname (.inl he) hopen hread
      exact ⟨{ hstep with keeps := hkeeps, accounted := haccounted }, trivial⟩

end Steps

/-- The builders of every depth account for what they build. -/
theorem following_builders (c : Context) (depth : Nat) : FollowingBuilders c (builders depth) := by
  induction depth with
  | zero =>
    refine ⟨regular_builders c 0, ?_, ?_, ?_, ?_, ?_⟩
    · exact fun _ _ _ => .fail _
    · exact fun _ _ _ _ _ => .fail _
    · exact fun _ _ _ _ => .fail _
    · exact fun _ _ _ _ => .fail _
    · exact fun _ _ _ => .fail _
  | succ depth ih =>
    refine ⟨regular_builders c (depth + 1), ?_, ?_, ?_, ?_, ?_⟩
    · exact fun ctx id hc => follows_ensureType ih hc id
    · exact fun ctx e id name hc => follows_complexType ih hc e name
    · exact fun ctx e name hc => follows_simpleType ih hc e name
    · exact fun ctx e type hc => follows_particle ih hc e
    · exact fun ctx e hc => follows_attributeUses ih hc e

end SchemaForms.Loader
