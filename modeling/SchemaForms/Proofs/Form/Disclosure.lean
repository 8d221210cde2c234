import SchemaForms.Proofs.Form.Advancing

/-!
Disclosure: the cases of a switch, made one after the other.  Between two of them, each case that is
made shows every bind that is relevant for its type; and a bind is relevant for a type only if that
is, or is derived from, a type with a case that lists what the bind is for.
-/

namespace SchemaForms

open Synthesis
open Forest (tree)
open Xml (Element)

/-- An element that may have several types, which can be told apart. -/
structure Generator.Choosing (g : Generator) (t : TypeId) : Prop where
  sound : g.Sound
  complex : (g.schema.complex? t).isSome
  clear : g.Clear t
  nameless : g.OneNameless t

/-- A value of `xsi:type` stands for no type of an element but one, and those derived from it. -/
def Generator.Covered (g : Generator) (t : TypeId) (prefixes : PrefixTable) (of : TypeId)
    (value : String) : Prop :=
  ∀ u ∈ g.candidates t, g.typeText prefixes u = some value → u = of ∨ g.schema.Derives u of

/-- The bind of a kid, when the cases of some types are made: it is for a name that one of them
lists, and relevant for those that list it alone, and for types derived from these. -/
structure Bind.Known (g : Generator) (t : TypeId) (prefixes : PrefixTable) (done : List TypeId)
    (b : Bind) : Prop where
  guarded : b.Guarded
  origin : b.nodeset ≠ "." → ∃ step : PathStep, step.Clean ∧ step.text prefixes = some b.nodeset ∧
    (∃ a ∈ done, step ∈ g.listed a) ∧
    ∀ u ∈ g.candidates t, ∀ value, g.typeText prefixes u = some value → b.Concerns value →
      ∃ a ∈ done, step ∈ g.listed a ∧ (u = a ∨ g.schema.Derives u a)

/-- The relevance of a kid is stated anew, for values that `R` holds for. -/
structure Kid.Restated (R : String → Prop) (kid kid' : Kid) : Prop where
  holding : kid'.holding = kid.holding
  source : kid'.source = kid.source
  guarded : kid'.bind.Guarded
  concerns : kid.bind.nodeset ≠ "." → ∀ value, kid'.bind.Concerns value → R value

theorem Kid.Restated.unshare {R : String → Prop} {kid kid' : Kid} (h : kid.Restated R kid') :
    kid.Restated R { kid' with shared := false } :=
  ⟨h.holding, h.source, h.guarded, h.concerns⟩

theorem Kid.Distinct.of_holding {kids kids' : List Kid} (h : Kid.Distinct kids)
    (heq : kids'.map Kid.holding = kids.map Kid.holding) : Kid.Distinct kids' := by
  have hiff (kids : List Kid) : Kid.Distinct kids ↔ (kids.map Kid.holding).Pairwise
      fun a b => a.2.1 = b.2.1 → a.2.1 = "." := by
    rw [List.pairwise_map]
    rfl
  rw [hiff, heq]
  exact (hiff kids).1 h

theorem Kid.Drawn.of_holding {g : Generator} {prefixes : PrefixTable} {holdings : List Holding}
    {kid kid' : Kid} (h : kid.Drawn g prefixes holdings) (hholding : kid'.holding = kid.holding)
    (hsource : kid'.source = kid.source) : kid'.Drawn g prefixes holdings := by
  obtain ⟨k, below, hkid, hbound, hexposing⟩ := h
  have hid : kid'.bind.id = kid.bind.id := congrArg (·.1) hholding
  exact ⟨k, below, hsource.trans hkid, hid ▸ hbound, hexposing⟩

/-- A kid after the case of a type, where `kids` are those before it: if the bind is relevant for the
type then the case has a control of it, and for other types it is so only if it has been before. -/
structure Kid.Through (g : Generator) (t : TypeId) (prefixes : PrefixTable) (done : List TypeId)
    (a : TypeId) (kids : List Kid) (controls : Forest NodeKind) (kid : Kid) : Prop where
  known : kid.bind.Known g t prefixes (done ++ [a])
  bound : kid.bind.nodeset ≠ "." → ∀ value, g.typeText prefixes a = some value →
    kid.bind.Concerns value → controls.Binds kid.bind.id
  before : kid.bind.nodeset ≠ "." → ∀ value, kid.bind.Concerns value →
    (∃ kid₀ ∈ kids, kid₀.holding = kid.holding ∧ kid₀.bind.Concerns value) ∨
      g.Covered t prefixes a value

namespace Sketch

variable {g : Generator} {t a : TypeId} {d : Draft} {s : Synthesis}

/-- The values that the binds of a case are relevant for. -/
theorem typeConditions_covered (ht : g.Choosing t) (ha : a ∈ g.candidates t)
    (hs : s.prefixes.Apart) :
    ∃ values, (g.typeConditions (a :: g.substitutes.of a) s).1 = values.map typeCondition ∧
      values ≠ [] ∧ Unspaced values ∧ ∀ value ∈ values, g.Covered t
        (g.typeConditions (a :: g.substitutes.of a) s).2.prefixes a value := by
  obtain ⟨values, hvalues, htexts⟩ := Generator.typeConditions_values g (a :: g.substitutes.of a) s
  have hapart := (Calm.typeConditions (g := g) (a :: g.substitutes.of a) s).prefixes.apart hs
  have hfrom {value : String} (hvalue : value ∈ values) : ∃ b ∈ a :: g.substitutes.of a,
      g.typeText (g.typeConditions (a :: g.substitutes.of a) s).2.prefixes b = some value := by
    obtain ⟨n, hn, rfl⟩ := List.getElem_of_mem hvalue
    have hlength := htexts.length_eq
    exact ⟨_, List.getElem_mem (hlength ▸ hn), htexts.get (hlength ▸ hn) hn⟩
  refine ⟨values, hvalues, ?_, fun value hvalue => ?_, fun value hvalue u hu htext => ?_⟩
  · rintro rfl
    cases htexts
  · obtain ⟨b, -, hb⟩ := hfrom hvalue
    exact Generator.typeText_unspaced ht.sound.typesNamed hapart hb
  · obtain ⟨b, hb, hbtext⟩ := hfrom hvalue
    have hbmem : b ∈ g.candidates t := by
      rcases List.mem_cons.1 hb with rfl | hb
      · exact ha
      · exact Generator.mem_candidates_of_mem_of ht.sound.substitutes ht.sound.regular.acyclic ha hb
    obtain rfl := Generator.name?_injOn_candidates ht.sound.regular ht.nameless
      ht.sound.substitutes ht.complex hu hbmem
      (Generator.typeText_injective ht.sound.typesNamed hapart htext hbtext)
    rcases List.mem_cons.1 hb with rfl | hb
    · exact .inl rfl
    · rw [ht.sound.substitutes] at hb
      exact .inr (Substitutes.derives_of_mem ht.sound.regular.acyclic
        (Generator.complex_of_mem_candidates ht.sound.substitutes ha ht.complex) hb)

/-- After a case, the binds that it has made are relevant for its type, and those that it shares
for that type too. -/
theorem guardCase_restates (ht : g.Choosing t) (ha : a ∈ g.candidates t) {old new : List Kid}
    (hkids : d.kids = old ++ new) (hold : ∀ kid ∈ old, kid.bind.Guarded)
    (hnew : ∀ kid ∈ new, kid.bind.relevant = none) (hs : s.prefixes.Apart) :
    (guardCase g old.length a t).Ends d s fun _ d' s' => s.Abides s' ∧ ∃ F G : Kid → Kid,
      d' = { d with kids := old.map F ++ new.map G } ∧
      (∀ kid ∈ old, kid.Restated (fun value => kid.bind.Concerns value ∨
        kid.shared = true ∧ g.Covered t s'.prefixes a value) (F kid)) ∧
      ∀ kid ∈ new, kid.Restated (g.Covered t s'.prefixes a) (G kid) := by
  unfold guardCase
  split
  · unfold applyRelevance
    rw [ends_bind, ends_lift, ends_modify]
    obtain ⟨values, hvalues, hne, hunspaced, hcovered⟩ := typeConditions_covered ht ha hs
    rw [hvalues]
    refine ⟨Calm.typeConditions _ s, guardKid false (values.map typeCondition),
      guardKid true (values.map typeCondition), ?_, fun kid hkid => ?_, fun kid hkid => ?_⟩
    · rw [guardKids, hkids, List.take_left', List.drop_left'] <;> rfl
    · unfold guardKid
      split
      · next hdot => exact ⟨rfl, rfl, hold kid hkid, fun hne => absurd hdot hne⟩
      · rw [if_neg Bool.false_ne_true]
        split
        · next hshared =>
          obtain ⟨hguarded, hconcerns⟩ := (hold kid hkid).widenRelevance hunspaced
          refine ⟨rfl, rfl, hguarded, fun _ value hvalue => ?_⟩
          exact ((hconcerns value).1 hvalue).imp_right fun h => ⟨hshared, hcovered value h.2⟩
        · exact ⟨rfl, rfl, hold kid hkid, fun _ value hvalue => .inl hvalue⟩
    · unfold guardKid
      split
      · next hdot => exact ⟨rfl, rfl, .inl (hnew kid hkid), fun hne => absurd hdot hne⟩
      · rw [if_pos rfl]
        obtain ⟨hguarded, hconcerns⟩ := Bind.guarded_addRelevance (hnew kid hkid) hne hunspaced
        exact ⟨rfl, rfl, hguarded, fun _ value hvalue =>
          hcovered value ((hconcerns value).1 hvalue)⟩
  · next hsame =>
    obtain rfl : a = t := not_not.1 hsame
    rw [ends_pure]
    refine ⟨.refl s, id, id, by simp [← hkids], fun kid hkid => ⟨rfl, rfl, hold kid hkid,
      fun _ value => .inl⟩, fun kid hkid => ⟨rfl, rfl, .inl (hnew kid hkid), ?_⟩⟩
    exact fun _ value _ u hu _ => Generator.eq_or_derives_of_mem_candidates ht.sound.substitutes
      ht.sound.regular.acyclic ht.complex hu

/-- At the end of a case, all kids have their relevance stated anew. -/
theorem closeCase_restates (ht : g.Choosing t) (ha : a ∈ g.candidates t) {old new : List Kid}
    (hkids : d.kids = old ++ new) (hold : ∀ kid ∈ old, kid.bind.Guarded)
    (hnew : ∀ kid ∈ new, kid.bind.relevant = none) (hs : s.prefixes.Apart) :
    (guardCase g old.length a t).Ends d s fun _ d' s' => unshare.Ends d' s' fun _ d' s' =>
      s.Abides s' ∧ (d'.own = d.own ∧ d'.controls = d.controls) ∧
      d'.kids.map Kid.holding = d.kids.map Kid.holding ∧
      ∀ kid' ∈ d'.kids, kid'.shared = false ∧
        ((∃ kid ∈ old, kid.Restated (fun value => kid.bind.Concerns value ∨
          kid.shared = true ∧ g.Covered t s'.prefixes a value) kid') ∨
        ∃ kid ∈ new, kid.Restated (g.Covered t s'.prefixes a) kid') := by
  refine (guardCase_restates ht ha hkids hold hnew hs).mono fun _ d' s' ⟨hs', F, G, hd', hF, hG⟩ => ?_
  subst hd'
  rw [unshare, ends_modify]
  refine ⟨hs', ⟨rfl, rfl⟩, ?_, fun kid' hkid' => ?_⟩
  · rw [hkids]
    simp only [List.map_append, List.map_map]
    congr 1
    · exact List.map_congr_left fun kid hkid => (hF kid hkid).holding
    · exact List.map_congr_left fun kid hkid => (hG kid hkid).holding
  · obtain ⟨kid'', hkid'', rfl⟩ := List.mem_map.1 hkid'
    refine ⟨rfl, (List.mem_append.1 hkid'').imp (fun hkid'' => ?_) fun hkid'' => ?_⟩
    · obtain ⟨kid, hkid, rfl⟩ := List.mem_map.1 hkid''
      exact ⟨kid, hkid, (hF kid hkid).unshare⟩
    · obtain ⟨kid, hkid, rfl⟩ := List.mem_map.1 hkid''
      exact ⟨kid, hkid, (hG kid hkid).unshare⟩

/-! Cases. -/

/-- The cases of some of the types are made that an element may have, whose bind is `owner`. -/
structure Between (g : Generator) (t : TypeId) (owner : String) (done : List TypeId) (d : Draft)
    (s : Synthesis) : Prop where
  apart : s.prefixes.Apart
  valued : ∀ u ∈ g.candidates t, ∃ value, g.typeText s.prefixes u = some value
  own : d.own = some owner
  unshared : ∀ kid ∈ d.kids, kid.shared = false
  known : ∀ kid ∈ d.kids, kid.bind.Known g t s.prefixes done
  distinct : Kid.Distinct d.kids
  drawn : ∀ kid ∈ d.kids, kid.Drawn g s.prefixes (Kid.holdings d.kids)
  shown : List.Forall₂ (fun u p => Exposes g s.prefixes owner (d.kids.map (·.bind)) u p.1 p.2) done
    d.controls.trees
  exposing : Exposing g s.prefixes (Kid.holdings d.kids) d.controls

namespace Between

variable {owner : String} {done rest : List TypeId} {d : Draft} {s : Synthesis}

variable (ht : g.Choosing t) (hcandidates : done ++ a :: rest = g.candidates t)

include hcandidates in
theorem mem_candidates : a ∈ g.candidates t ∧ done ⊆ g.candidates t := by
  rw [← hcandidates]
  exact ⟨by simp, List.subset_append_left ..⟩

include ht hcandidates in
theorem earlier {u : TypeId} (hu : u ∈ done) : u ≠ a ∧ ¬ g.schema.Derives u a := by
  have hordered := Generator.candidates_ordered ht.sound.substitutes ht.sound.regular.acyclic
    ht.sound.regular.substitutes ht.complex
  rw [← hcandidates] at hordered
  exact (List.pairwise_append.1 hordered).2.2 u hu a (List.mem_cons_self ..)

include ht hcandidates in
/-- A case begins with the kids of the cases before it. -/
theorem midway (h : Between g t owner done d s) (id : ElementId) :
    Midway g ⟨a, id, decide (a ≠ t)⟩ True { d with controls := .nil } .nil []
      { d with controls := .nil } s := by
  refine ⟨h.apart, rfl, .inl trivial, ?_, fun _ => h.distinct, h.drawn, .nil⟩
  obtain ⟨ha, hdone⟩ := mem_candidates hcandidates
  refine ⟨d.kids, [], (List.append_nil _).symm, rfl, fun kid hkid => ⟨?_, ?_⟩,
    fun kid hkid => absurd hkid List.not_mem_nil⟩
  · by_cases hdot : kid.bind.nodeset = "."
    · exact .inl ⟨hdot, h.unshared kid hkid⟩
    obtain ⟨step, hclean, hat, ⟨u, hu, hstep⟩, -⟩ := (h.known kid hkid).origin hdot
    refine .inr ⟨step, hclean, hat, fun hlisted => ⟨decide_eq_true ?_, ?_⟩, ?_⟩
    · rintro rfl
      obtain ⟨hne, hnot⟩ := earlier ht hcandidates hu
      exact (Generator.eq_or_derives_of_mem_candidates ht.sound.substitutes
        ht.sound.regular.acyclic ht.complex (hdone hu)).elim hne hnot
    · exact ht.clear.inherits ht.sound.regular ht.sound.substitutes ht.complex
        ha (hdone hu) (earlier ht hcandidates hu) hstep hlisted
    · simp [h.unshared kid hkid]
  · intro hshared
    rw [h.unshared kid hkid] at hshared
    cases hshared

include ht hcandidates in
/-- A kid of an earlier case, after this one. -/
theorem through_kept (h : Between g t owner done d s) {kid kid₁ kid' : Kid} (hkid : kid ∈ d.kids)
    (hbind : kid₁.bind = kid.bind) (hbelow : kid₁.below = kid.below) {s₁ s₂ : Synthesis}
    (hs₁ : s.Abides s₁) (hs₂ : s₁.Abides s₂) {id : ElementId} {inherits : Bool}
    {controls : Forest NodeKind}
    (hkept : kid₁.Kept g ⟨a, id, inherits⟩ s₁.prefixes (g.listed a) controls)
    (hrestated : kid₁.Restated (fun value => kid₁.bind.Concerns value ∨
      kid₁.shared = true ∧ g.Covered t s₂.prefixes a value) kid') :
    kid'.Through g t s₂.prefixes done a d.kids controls := by
  have hholding : kid'.holding = kid.holding := by
    rw [hrestated.holding, Kid.holding, Kid.holding, hbind, hbelow]
  have hid : kid'.bind.id = kid.bind.id := congrArg (·.1) hholding
  have hnodeset : kid'.bind.nodeset = kid.bind.nodeset := congrArg (·.2.1) hholding
  have hconcerns (hdot : kid.bind.nodeset ≠ ".") (value : String)
      (hvalue : kid'.bind.Concerns value) : kid.bind.Concerns value ∨
        kid₁.shared = true ∧ g.Covered t s₂.prefixes a value := by
    rw [← hbind]
    exact hrestated.concerns (hbind ▸ hdot) value hvalue
  obtain ⟨ha, hdone⟩ := mem_candidates hcandidates
  have hvalued {u : TypeId} (hu : u ∈ g.candidates t) {value : String}
      (hvalue : g.typeText s₂.prefixes u = some value) : g.typeText s.prefixes u = some value := by
    obtain ⟨value', hvalue'⟩ := h.valued u hu
    have hlater := (hs₁.trans hs₂).prefixes.typeText hvalue'
    rwa [hvalue.symm.trans hlater]
  have horigin (hdot : kid.bind.nodeset ≠ ".") : ∃ step : PathStep, step.Clean ∧
      step.text s₂.prefixes = some kid.bind.nodeset ∧ (∃ b ∈ done, step ∈ g.listed b) ∧
      (kid₁.shared = true ↔ step ∈ g.listed a) ∧
      ∀ u ∈ g.candidates t, ∀ value, g.typeText s₂.prefixes u = some value →
        kid.bind.Concerns value → ∃ b ∈ done, step ∈ g.listed b ∧ (u = b ∨ g.schema.Derives u b) := by
    obtain ⟨step, hclean, hat, hlisted, hall⟩ := (h.known kid hkid).origin hdot
    have hat₁ := PathStep.text_mono hs₁.prefixes hat
    refine ⟨step, hclean, PathStep.text_mono hs₂.prefixes hat₁, hlisted, ?_, fun u hu value hvalue =>
      hall u hu value (hvalued hu hvalue)⟩
    rcases hkept.origin with ⟨h', -⟩ | ⟨step', hclean', hat', -, hshared⟩
    · exact absurd (hbind ▸ h') hdot
    · have hat' : step'.text s₁.prefixes = some kid.bind.nodeset := hbind ▸ hat'
      obtain rfl := hclean'.eq_of_text hclean (hs₁.prefixes.apart h.apart) hat' hat₁
      exact hshared
  refine ⟨⟨hrestated.guarded, fun hdot => ?_⟩, fun hdot value htext hvalue => ?_,
    fun hdot value hvalue => ?_⟩
  · rw [hnodeset] at hdot
    obtain ⟨step, hclean, hat, ⟨b, hb, hstep⟩, hshared, hall⟩ := horigin hdot
    refine ⟨step, hclean, hnodeset ▸ hat, ⟨b, List.mem_append_left _ hb, hstep⟩,
      fun u hu value htext hvalue => ?_⟩
    rcases hconcerns hdot value hvalue with hvalue | ⟨hs, hcovered⟩
    · obtain ⟨b, hb, hstep, hu⟩ := hall u hu value htext hvalue
      exact ⟨b, List.mem_append_left _ hb, hstep, hu⟩
    · exact ⟨a, by simp, hshared.1 hs, hcovered u hu htext⟩
  · rw [hnodeset] at hdot
    rw [hid, ← hbind]
    refine hkept.bound ?_
    rcases hconcerns hdot value hvalue with hvalue | ⟨hs, -⟩
    · obtain ⟨step, -, -, -, hshared, hall⟩ := horigin hdot
      obtain ⟨b, -, hstep, rfl | hderives⟩ := hall a ha value htext hvalue
      · exact hshared.2 hstep
      · exact hshared.2 (Generator.listed_of_derives ht.sound.regular hderives hstep)
    · exact hs
  · rw [hnodeset] at hdot
    exact (hconcerns hdot value hvalue).imp (fun hvalue => ⟨kid, hkid, hholding.symm, hvalue⟩) (·.2)

/-- A kid that this case has made. -/
theorem through_made {kid kid' : Kid} {s₁ s₂ : Synthesis} (hs₂ : s₁.Abides s₂)
    {controls : Forest NodeKind}
    (hmade : kid.Made True s₁.prefixes (g.listed a) controls)
    (hrestated : kid.Restated (g.Covered t s₂.prefixes a) kid') (kids : List Kid) :
    kid'.Through g t s₂.prefixes done a kids controls := by
  have hid : kid'.bind.id = kid.bind.id := congrArg (·.1) hrestated.holding
  have hnodeset : kid'.bind.nodeset = kid.bind.nodeset := congrArg (·.2.1) hrestated.holding
  refine ⟨⟨hrestated.guarded, fun hdot => ?_⟩, fun _ _ _ _ => hid ▸ hmade.bound,
    fun hdot value hvalue => .inr (hrestated.concerns (hnodeset ▸ hdot) value hvalue)⟩
  rw [hnodeset] at hdot
  obtain ⟨step, hstep, hclean, hat⟩ := (hmade.origin trivial).resolve_left hdot
  refine ⟨step, hclean, hnodeset ▸ PathStep.text_mono hs₂.prefixes hat, ⟨a, by simp, hstep⟩, ?_⟩
  exact fun u hu value htext hvalue =>
    ⟨a, by simp, hstep, hrestated.concerns hdot value hvalue u hu htext⟩

include ht hcandidates in
/-- The next case is made. -/
theorem next (h : Between g t owner done d s) {d' : Draft} {s' : Synthesis} (hs : s.Abides s')
    (hown : d'.own = some owner) {k group : NodeKind} {inner : Forest NodeKind}
    (hcontrols : d'.controls = d.controls ++ tree k (tree group inner))
    (hlabel : k.caseLabel? = some (caption (g.schema.displayName a))) (hk : k.isSwitch = false)
    (hgroup : group.isBoundTo owner = true) (hunshared : ∀ kid ∈ d'.kids, kid.shared = false)
    (hthrough : ∀ kid ∈ d'.kids, kid.Through g t s'.prefixes done a d.kids (tree group inner))
    (hdistinct : Kid.Distinct d'.kids)
    (hdrawn : ∀ kid ∈ d'.kids, kid.Drawn g s'.prefixes (Kid.holdings d'.kids))
    (hsub : Kid.holdings d.kids ⊆ Kid.holdings d'.kids)
    (hexposing : Exposing g s'.prefixes (Kid.holdings d'.kids) (tree group inner)) :
    Between g t owner (done ++ [a]) d' s' := by
  obtain ⟨ha, hdone⟩ := mem_candidates hcandidates
  have hvalued : ∀ u ∈ g.candidates t, ∃ value, g.typeText s'.prefixes u = some value :=
    fun u hu => (h.valued u hu).imp fun value hvalue => hs.prefixes.typeText hvalue
  have hold {u : TypeId} {p : NodeKind × Forest NodeKind} (hu : u ∈ done)
      (hp : Exposes g s.prefixes owner (d.kids.map (·.bind)) u p.1 p.2) :
      Exposes g s'.prefixes owner (d'.kids.map (·.bind)) u p.1 p.2 := by
    refine ⟨hp.labelled, hp.boxed, ?_⟩
    obtain ⟨value, hvalue, hall⟩ := hp.shown
    have hvalue' := hs.prefixes.typeText hvalue
    refine ⟨value, hvalue', fun b hb hdot hconcerns => ?_⟩
    obtain ⟨kid, hkid, rfl⟩ := List.mem_map.1 hb
    rcases (hthrough kid hkid).before hdot value hconcerns with ⟨kid₀, hkid₀, hsame, hbefore⟩ | hcov
    · have hid : kid₀.bind.id = kid.bind.id := congrArg (·.1) hsame
      have hnodeset : kid₀.bind.nodeset = kid.bind.nodeset := congrArg (·.2.1) hsame
      rw [← hid]
      exact hall _ (List.mem_map_of_mem hkid₀) (hnodeset ▸ hdot) hbefore
    · -- the case of a type derived from this one comes later
      obtain ⟨hne, hnot⟩ := earlier ht hcandidates hu
      exact ((hcov u (hdone hu) hvalue').elim hne hnot).elim
  have hnew : Exposes g s'.prefixes owner (d'.kids.map (·.bind)) a k (tree group inner) := by
    refine ⟨hlabel, ⟨group, inner, rfl, hgroup⟩, ?_⟩
    obtain ⟨value, hvalue⟩ := hvalued a ha
    refine ⟨value, hvalue, fun b hb hdot hconcerns => ?_⟩
    obtain ⟨kid, hkid, rfl⟩ := List.mem_map.1 hb
    exact (hthrough kid hkid).bound hdot value hvalue hconcerns
  refine ⟨hs.prefixes.apart h.apart, hvalued, hown, hunshared, fun kid hkid =>
    (hthrough kid hkid).known, hdistinct, hdrawn, ?_, ?_⟩
  · rw [hcontrols, Forest.trees_append]
    refine List.rel_append ?_ (.cons hnew .nil)
    exact ((List.forall₂_and_left _ _).2 ⟨fun u hu => hu, h.shown⟩).imp fun u p hp => hold hp.1 hp.2
  · rw [hcontrols]
    refine (h.exposing.mono hs.prefixes hsub).append (hexposing.tree fun hswitch => ?_)
    rw [hk] at hswitch
    cases hswitch

variable {child : ChildSketch} {Good : ElementId → Prop}

include ht hcandidates in
theorem typeCase (h : Between g t owner done d s) (hchild : Sprouting g Good child)
    (hgood : ∀ id occurs, Member.child id occurs ∈ g.members a → Good id) (id : ElementId)
    (isFirst : Bool) (e : Element) (caseId : String) :
    (Sketch.typeCase g child id t isFirst e a caseId).Ends d s fun _ d' s' =>
      s.Abides s' ∧ Between g t owner (done ++ [a]) d' s' := by
  obtain ⟨ha, -⟩ := mem_candidates hcandidates
  have hcomplex := Generator.complex_of_mem_candidates ht.sound.substitutes ha ht.complex
  have hrole : Role.Sound g ⟨a, id, decide (a ≠ t)⟩ True :=
    ⟨ht.sound, fun _ => trivial, fun _ => ht.clear.plain a ha⟩
  unfold Sketch.typeCase
  rw [ends_within, ends_bind, ends_get, ends_bind]
  refine (complex_midway hrole hchild hgood hcomplex _ .once (midway ht hcandidates h id) rfl).mono
    fun data d₁ s₁ ⟨hs₁, hmid, c, inner, hcontrols, _, hbound⟩ => ?_
  obtain ⟨old, new, hkids, hface, hold, hnew⟩ := hmid.split
  have hlength : d.kids.length = old.length := by
    simpa using (congrArg List.length hface).symm
  have hfrom {kid₁ : Kid} (hkid₁ : kid₁ ∈ old) :
      ∃ kid ∈ d.kids, kid₁.bind = kid.bind ∧ kid₁.below = kid.below := by
    have hmem : kid₁.face ∈ d.kids.map Kid.face := hface ▸ List.mem_map_of_mem hkid₁
    obtain ⟨kid, hkid, heq⟩ := List.mem_map.1 hmem
    exact ⟨kid, hkid, (congrArg (·.1) heq).symm, (congrArg (·.2.1) heq).symm⟩
  have hguarded : ∀ kid₁ ∈ old, kid₁.bind.Guarded := fun kid₁ hkid₁ => by
    obtain ⟨kid, hkid, hbind, -⟩ := hfrom hkid₁
    rw [hbind]
    exact (h.known kid hkid).guarded
  have hbefore : Kid.holdings d.kids = Kid.holdings old := by
    refine Kid.holdings_congr ?_
    have hpick (kids : List Kid) : kids.map Kid.holding =
        (kids.map Kid.face).map fun c => (c.1.id, c.1.nodeset, c.2.1) := by
      rw [List.map_map]
      rfl
    rw [hpick, hpick, hface]
  rw [ends_bind]
  dsimp only
  rw [hlength]
  refine (closeCase_restates ht ha hkids hguarded (fun kid hkid => (hnew kid hkid).irrelevant)
    hmid.apart).mono fun _ d₂ s₂ hclosed => ?_
  rw [ends_bind]
  refine hclosed.mono fun _ d₃ s₃ ⟨hs₃, hrest, hholding, hkids'⟩ => ?_
  rw [ends_pure]
  have habides := hs₁.trans hs₃
  have hholdings : Kid.holdings d₃.kids = Kid.holdings d₁.kids := Kid.holdings_congr hholding
  let box : NodeKind := .control
    { id := caseId, kind := .switchCase isFirst, label := some (caption (g.schema.displayName a)) }
  have hcontrols' : d.controls ++ (.leaves ([].map NodeKind.control) ++ tree box d₃.controls) =
      d.controls ++ tree box (tree (.control c) inner) := by
    rw [hrest.2, hcontrols]
    rfl
  refine ⟨habides, next ht hcandidates h habides
    (hrest.1.trans (hmid.own.trans h.own)) hcontrols' rfl rfl ?_
    (fun kid' hkid' => (hkids' kid' hkid').1) (fun kid' hkid' => ?_)
    ((hmid.distinct trivial).of_holding hholding) (fun kid' hkid' => ?_) ?_ ?_⟩
  · simp [NodeKind.isBoundTo, NodeKind.control?, hbound, h.own]
  · rw [← hcontrols]
    rcases (hkids' kid' hkid').2 with ⟨kid₁, hkid₁, hrestated⟩ | ⟨kid₁, hkid₁, hrestated⟩
    · obtain ⟨kid, hkid, hbind, hbelow⟩ := hfrom hkid₁
      exact through_kept ht hcandidates h hkid hbind hbelow hs₁ hs₃ (hold kid₁ hkid₁) hrestated
    · exact through_made hs₃ (hnew kid₁ hkid₁) hrestated d.kids
  · have hsame : ∃ kid₁ ∈ d₁.kids, kid'.holding = kid₁.holding ∧ kid'.source = kid₁.source := by
      rw [hkids]
      rcases (hkids' kid' hkid').2 with ⟨kid₁, hkid₁, hrestated⟩ | ⟨kid₁, hkid₁, hrestated⟩
      · exact ⟨kid₁, List.mem_append_left _ hkid₁, hrestated.holding, hrestated.source⟩
      · exact ⟨kid₁, List.mem_append_right _ hkid₁, hrestated.holding, hrestated.source⟩
    obtain ⟨kid₁, hkid₁, heq, hsource⟩ := hsame
    have hdrawn := ((hmid.drawn kid₁ hkid₁).of_holding heq hsource).mono hs₃.prefixes
      (List.Subset.refl _)
    rwa [← hholdings] at hdrawn
  · change Kid.holdings d.kids ⊆ Kid.holdings d₃.kids
    rw [hholdings, hkids, Kid.holdings_append, hbefore]
    exact List.subset_append_left ..
  · change Exposing g s₃.prefixes (Kid.holdings d₃.kids) _
    rw [hholdings, ← hcontrols]
    exact hmid.exposing.mono hs₃.prefixes (List.Subset.refl _)

include ht in
/-- All cases are made, those of the earlier types being there. -/
theorem typeCases (hchild : Sprouting g Good child)
    (hgood : ∀ u ∈ g.candidates t, ∀ id occurs, Member.child id occurs ∈ g.members u → Good id)
    (id : ElementId) {cases : List (TypeId × String)} {done : List TypeId} {d : Draft}
    {s : Synthesis} (hcases : done ++ cases.map (·.1) = g.candidates t)
    (h : Between g t owner done d s) (isFirst : Bool) (e : Element) :
    (Sketch.typeCases g child id t isFirst e cases).Ends d s fun _ d' s' =>
      s.Abides s' ∧ Between g t owner (g.candidates t) d' s' := by
  induction cases generalizing done d s isFirst e with
  | nil =>
    rw [List.map_nil, List.append_nil] at hcases
    subst hcases
    exact ⟨.refl s, h⟩
  | cons c cases ih =>
    rw [List.map_cons] at hcases
    rw [Sketch.typeCases, ends_bind]
    refine (typeCase ht hcases h hchild (hgood c.1 (mem_candidates hcases).1) id isFirst e c.2).mono
      fun e' d' s' hfirst => ?_
    obtain ⟨hs', h'⟩ := hfirst
    have hcases' : (done ++ [c.1]) ++ cases.map (·.1) = g.candidates t := by
      rw [List.append_assoc]
      exact hcases
    exact (ih hcases' h' false e').mono fun _ _ _ hrest => ⟨hs'.trans hrest.1, hrest.2⟩

end Between

/-- Items are drawn as they are, or with a repeat and its triggers around them. -/
theorem items_ends_around {α : Type} {p : Sketch α} {bind : Option String} {occurs : Occurs}
    {Q : α → Draft → Synthesis → Prop} (hd : d.controls = .nil)
    (hp : ∀ s₁, s.Abides s₁ → p.Ends d s₁ fun a d' s' => ∀ controls,
      (∀ id, d'.controls.Binds id → controls.Binds id) →
      (∀ holdings, Exposing g s'.prefixes holdings d'.controls →
        Exposing g s'.prefixes holdings controls) → Q a { d' with controls := controls } s') :
    (items bind occurs p).Ends d s Q := by
  unfold items
  split
  · unfold repeated
    rw [ends_bind, ends_lift]
    refine repeatOf_ends fun s₁ hs₁ => ?_
    have hsame : { d with controls := .nil } = d := by rw [← hd]
    rw [hsame, hd]
    refine (hp s₁ ((Calm.allocate "repeat" s).trans hs₁)).mono
      fun a d' s' h before rep hbefore hrep => h _ (fun id hid => ?_) fun holdings hexposing => ?_
    · exact ((hid.tree _).append_right _).append_right _
    · refine Exposing.append .nil ((Exposing.leaves hbefore).append (hexposing.tree fun hs => ?_))
      exact absurd (by simpa [NodeKind.isSwitch] using hs) hrep
  · exact (hp s (.refl s)).mono fun a d' s' h => h d'.controls (fun _ h => h) fun _ h => h

end Sketch

end SchemaForms
