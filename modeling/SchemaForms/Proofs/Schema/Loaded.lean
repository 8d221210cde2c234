import SchemaForms.Proofs.Schema.Placing
import SchemaForms.Schema.Chain

/-!
Loaded graphs.  A graph that has been loaded is closed, every type that was declared has the
definition that its declaration gives, and every element declared in the content of a type is found
in the particle of that type.
-/

namespace SchemaForms

open SchemaForms.Xml

namespace Schema

/-! The built-in types. -/

theorem fits_builtinType {s : Schema} (h : s.Grounded) (hpos : 0 < s.types.size) (b : Builtin) :
    s.Fits (.simple (s.builtinType b)) := by
  have hbuiltin (b : Builtin) {id : TypeId} (hid : s.builtin b = some id) : s.HasType id :=
    h.closed.findType hid
  refine Loader.fits_simple (fun id hid => ?_) fun id hid => ?_
  · rw [builtinType] at hid
    dsimp only at hid
    split at hid
    · exact hbuiltin _ hid
    · cases hid
      exact hpos
  · rw [builtinType] at hid
    dsimp only at hid
    split at hid
    · next item hitem =>
      obtain ⟨b', -, hb'⟩ := Option.bind_eq_some_iff.1 hitem
      rw [Variety.refs, Option.toList_some, List.mem_singleton] at hid
      exact hid ▸ hbuiltin b' hb'
    · cases hid

/-- The schema with nothing but the root of all types. -/
theorem grounded_bare (target : Option String) :
    Grounded ⟨target, #[.any], #[], #[], Table.empty.put TypeDef.anyName anyType, .empty⟩ := by
  have hdef (id : TypeId) : typeDef ⟨target, #[.any], #[], #[],
      Table.empty.put TypeDef.anyName anyType, .empty⟩ id = .any := by
    obtain ⟨i⟩ := id
    cases i <;> rfl
  have hany : ∀ t ∈ #[TypeDef.any], t = .any := fun t ht => by simpa using ht
  have hfits : Fits ⟨target, #[.any], #[], #[], Table.empty.put TypeDef.anyName anyType, .empty⟩
      .any :=
    ⟨⟨by simp [TypeDef.typeRefs], by simp [TypeDef.elementRefs], by simp [TypeDef.useRefs]⟩,
      fun ct base hct _ => by cases hct⟩
  refine ⟨⟨?_, ?_, ?_, ?_, ?_⟩, ?_, ?_, ?_, ?_⟩
  · exact fun t ht => hany t ht ▸ hfits.toHolds
  · exact fun d hd => by simp at hd
  · exact fun u hu => by simp at hu
  · intro e he
    rcases Table.mem_entries_put he with he | rfl
    · cases he
    · exact Nat.succ_pos _
  · exact fun e he => by cases he
  · exact fun t ht => hany t ht ▸ hfits
  · intro name id hid
    rw [findType, Table.get?_put] at hid
    split at hid
    · next hname => rw [hdef, ← hname]; rfl
    · cases hid
  · exact hdef _
  · intro id hid
    rw [complex?, hdef] at hid
    cases hid

theorem grounded_empty (target : Option String) :
    (empty target).Grounded ∧ (empty target).types.size = builtinCount := by
  have hfold : ∀ (builtins : List Builtin) (s : Schema), s.Grounded → 0 < s.types.size →
      (builtins.foldl (fun s b => (s.addType (.simple (s.builtinType b))).2) s).Grounded ∧
      (builtins.foldl (fun s b => (s.addType (.simple (s.builtinType b))).2) s).types.size =
        builtins.length + s.types.size := by
    intro builtins
    induction builtins with
    | nil => exact fun s hs _ => ⟨hs, (Nat.zero_add _).symm⟩
    | cons b builtins ih =>
      intro s hs hpos
      have hadded := hs.addType hpos (fits_builtinType hs hpos b) fun hkind => by cases hkind
      obtain ⟨hgrounded, hsize⟩ := ih _ hadded (by simp [Loader.size_addType])
      refine ⟨hgrounded, hsize.trans ?_⟩
      rw [Loader.size_addType, List.length_cons]
      omega
  exact hfold _ _ (grounded_bare _) Nat.zero_lt_one

end Schema

namespace Loader

open SchemaForms.Source (parts)

/-! Taking up the global declarations. -/

namespace Registered

variable {c c' : Context} {s s' : Schema}

theorem of_eq (h : Registered c s) (ht : c'.types = c.types) (he : c'.elements = c.elements) :
    Registered c' s where
  toGrounded := h.toGrounded
  large := h.large
  globals := ht ▸ h.globals
  elements := he ▸ h.elements

/-- A placeholder for a global type. -/
theorem global (h : Registered c s) {t : TypeDef} (ht : s.Fits t) (e : Element) :
    Registered { c with types := c.types ++ [((s.addType t).1, e)] } (s.addType t).2 := by
  have hadded := h.mono (Schema.grows_addType s t)
    (h.toGrounded.addType h.pos ht fun _ => h.large)
  refine ⟨hadded.toGrounded, hadded.large, fun id e' he => ?_, hadded.elements⟩
  rw [find_append, Option.or_eq_some_iff] at he
  rcases he with he | ⟨-, he⟩
  · exact h.globals id e' he
  · simp only [Table.find] at he
    split at he
    · next hid => exact hid ▸ h.large
    · cases he

/-- A placeholder for a global element. -/
theorem globalElement (h : Registered c s) (name : QName) (e : Element) :
    Registered { c with elements := c.elements ++ [((s.addGlobalElement { name := name }).1, e)] }
      (s.addGlobalElement { name := name }).2 := by
  have hg : s.Grows (s.addGlobalElement { name := name }).2 :=
    { Schema.grows_addElement s { name := name } with }
  have hdecl : s.HoldsDecl { name := name } := fun id hid => by
    rcases hid with hid | hid
    · cases hid
    · cases hid
  have hadded := h.mono hg (h.toGrounded.of_frame hg (h.closed.addGlobalElement hdecl) rfl rfl)
  refine ⟨hadded.toGrounded, hadded.large, hadded.globals, fun x hx => ?_⟩
  rcases List.mem_append.1 hx with hx | hx
  · exact hadded.elements x hx
  · obtain rfl := List.mem_singleton.1 hx
    refine ⟨by simp [Schema.HasElement, Schema.addGlobalElement, Schema.addElement], ?_⟩
    change ((s.addElement { name := name }).2.element ⟨s.elements.size⟩).enclosing = none
    rw [Schema.element_addElement, if_pos rfl]

theorem register {e : Element} (h : Registered c s) (hr : Loader.register c s e = .ok (c', s')) :
    Registered c' s' := by
  have hcomplex (name : QName) : s.Fits (.complex { name := some name }) :=
    fits_complex (by simp) (.inr (by simp)) (by simp [elementsOf]) (by simp)
  have hsimple (name : QName) : s.Fits (.simple { name := some name }) :=
    fits_simple (by simp) (by simp [Variety.refs])
  unfold Loader.register at hr
  cases hname : globalName c e with
  | error fault =>
    simp only [hname] at hr
    repeat' split at hr
    all_goals cases hr
    exact h
  | ok name =>
    simp only [hname] at hr
    repeat' split at hr
    all_goals cases hr
    · exact h.global (hcomplex name) e
    · exact h.global (hsimple name) e
    · exact h.globalElement name e
    all_goals exact h.of_eq rfl rfl

theorem registerAll {es : List Element} (h : Registered c s)
    (hr : Loader.registerAll c s es = .ok (c', s')) : Registered c' s' := by
  induction es generalizing c s with
  | nil =>
    cases hr
    exact h
  | cons e es ih =>
    unfold Loader.registerAll at hr
    cases hone : Loader.register c s e with
    | error fault =>
      rw [hone] at hr
      cases hr
    | ok next =>
      rw [hone] at hr
      exact ih (h.register hone) hr

theorem start (h : Registered c s) : Regular c { schema := s } where
  toRegistered := h
  anonymous _ _ he := by cases he
  made _ hid := by cases hid

end Registered

theorem registered_declarations {root : Element} {c : Context} {s : Schema}
    (h : declarations root = .ok (c, s)) : Registered c s := by
  obtain ⟨hgrounded, hsize⟩ :=
    Schema.grounded_empty ((root.attribute? "targetNamespace").filter (· ≠ ""))
  refine Registered.registerAll ⟨hgrounded, Nat.le_of_eq hsize.symm, ?_, ?_⟩ h
  · exact fun id e he => by cases he
  · exact fun x hx => by cases hx

/-- No element that is taken up is enclosed by a type. -/
theorem enclosing_register {c c' : Context} {s s' : Schema} {e : Element}
    (h : ∀ id, (s.element id).enclosing = none) (hr : register c s e = .ok (c', s')) (id : ElementId) :
    (s'.element id).enclosing = none := by
  unfold register at hr
  cases hname : globalName c e with
  | error fault =>
    simp only [hname] at hr
    repeat' split at hr
    all_goals cases hr
    exact h id
  | ok name =>
    simp only [hname] at hr
    repeat' split at hr
    all_goals cases hr
    · exact h id
    · exact h id
    · change ((s.addElement { name := name }).2.element id).enclosing = none
      rw [Schema.element_addElement]
      split
      · rfl
      · exact h id
    all_goals exact h id

theorem enclosing_declarations {root : Element} {c : Context} {s : Schema}
    (h : declarations root = .ok (c, s)) (id : ElementId) : (s.element id).enclosing = none := by
  have hall : ∀ (es : List Element) (c c' : Context) (s s' : Schema),
      (∀ id, (s.element id).enclosing = none) → registerAll c s es = .ok (c', s') →
      ∀ id, (s'.element id).enclosing = none := by
    intro es
    induction es with
    | nil =>
      intro c c' s s' hs hr
      cases hr
      exact hs
    | cons e es ih =>
      intro c c' s s' hs hr
      unfold registerAll at hr
      cases hone : register c s e with
      | error fault =>
        rw [hone] at hr
        cases hr
      | ok next =>
        rw [hone] at hr
        exact ih _ _ _ _ (enclosing_register hs hone) hr
  have hempty : (Schema.empty ((root.attribute? "targetNamespace").filter (· ≠ ""))).elements = #[] := by
    have hfold : ∀ (builtins : List Builtin) (s : Schema), s.elements = #[] →
        (builtins.foldl (fun s b => (s.addType (.simple (s.builtinType b))).2) s).elements = #[] := by
      intro builtins
      induction builtins with
      | nil => exact fun _ hs => hs
      | cons b builtins ih => exact fun s hs => ih _ hs
    exact hfold _ _ rfl
  refine hall _ _ _ _ _ (fun id => ?_) h id
  rw [Schema.element, hempty]
  rfl

/-- A global element takes the place of its placeholder. -/
theorem Step.setElement {c : Context} {q : Progress} {x : ElementId × Element} {d : ElementDecl}
    (ho : InOrder c q) (hr : Regular c q) (hx : x ∈ c.elements) (hd : d.enclosing = none)
    (hholds : q.schema.HoldsDecl d) :
    Step c q { q with schema := q.schema.setElement x.1 d } := by
  obtain ⟨hid, henclosing⟩ := hr.elements x hx
  have hplace : d.enclosing = (q.schema.element x.1).enclosing := hd.trans henclosing.symm
  have hg := Schema.grows_setElement hid hplace
  have hsound : Sound c (modify fun p => { p with schema := p.schema.setElement x.1 d }) :=
    .of_frame fun p _ q h => by
      cases h
      exact ⟨rfl, rfl, rfl, rfl⟩
  obtain ⟨hlater, horder⟩ := hsound ho rfl
  exact ⟨hlater, horder,
    hr.of_frame ho hg (hr.closed.setElement hid hplace hholds) rfl rfl rfl rfl, hg⟩

/-! Building everything. -/

section Building

variable {c ctx : Context} {b : Builders} (hb : RegularBuilders c b) (hc : c.Same ctx)
include hb hc

theorem places_ensureAll (type : TypeId) (types : List (TypeId × Element)) :
    Places c type (fun _ => True) (ensureAll b ctx types) nothing fun _ _ => True := by
  induction types with
  | nil => exact .pure fun _ _ _ => trivial
  | cons t types ih => exact (hb.ensure ctx t.1 type hc).next fun _ => ih

theorem places_buildElements (type : TypeId) {elements : List (ElementId × Element)}
    (hsub : elements ⊆ c.elements) :
    Places c type (fun _ => True) (buildElements b ctx elements) nothing fun _ _ => True := by
  induction elements with
  | nil => exact .pure fun _ _ _ => trivial
  | cons x elements ih =>
    have hx : x ∈ c.elements := hsub (List.mem_cons_self ..)
    refine .get fun p _ _ => ?_
    have hdecl := (places_elementDecl hb hc x.2 (p.schema.element x.1).name none :
      Places c type _ _ _ _).weaken (R := p.schema.Grows) (fun _ _ id hid => by cases hid) fun _ _ h => h
    refine hdecl.next fun d => Places.next (Q := fun _ _ => True) ?_ fun _ =>
      ih (List.subset_of_cons_subset hsub)
    intro q _ r ho hr hd h
    cases h
    exact ⟨.setElement ho hr hx hd.1 hd.2, .of_same (by simp [Schema.setElement]), trivial⟩

theorem places_buildAll (hall : ctx.elements = c.elements) (type : TypeId) :
    Places c type (fun _ => True) (buildAll b ctx) nothing fun _ _ => True :=
  (places_ensureAll hb hc type _).next fun _ =>
    places_buildElements hb hc type (hall ▸ List.Subset.refl _)

/-- All types are begun when they are built one after another. -/
theorem begun_ensureAll {types : List (TypeId × Element)} {p q : Progress} (ho : InOrder c p)
    (h : ensureAll b ctx types p = .ok ((), q)) {id : TypeId} {e : Element} (hid : (id, e) ∈ types)
    (hfind : (Table.find id c.types).isSome) : (id, .building) ∈ q.notes := by
  induction types generalizing p with
  | nil => cases hid
  | cons t types ih =>
    obtain ⟨_, p₁, hensure, hrest⟩ := bind_ok h
    obtain ⟨-, ho₁⟩ := hb.sound.ensure ctx t.1 hc ho hensure
    rcases List.mem_cons.1 hid with rfl | hid
    · exact (sound_ensureAll hb.sound hc types ho₁ hrest).1.mem_notes
        (hb.sound.begins ctx id p p₁ hc ho hensure hfind)
    · exact ih ho₁ hrest hid

end Building

theorem mem_of_find {κ α : Type} [DecidableEq κ] {key : κ} {entries : List (κ × α)} {value : α}
    (h : Table.find key entries = some value) : (key, value) ∈ entries :=
  Table.mem_entries_of_get? (t := ⟨entries⟩) h

section Run

variable {root : Element} {c : Context} {s : Schema} {p : Progress}
  (hd : declarations root = .ok (c, s)) (hrun : run root = .ok p)
include hd hrun

theorem step_run : Step c { schema := s } p ∧ Settles Schema.anyType [] { schema := s } p := by
  obtain ⟨hstep, hsettles, -⟩ := places_buildAll (regular_builders c _) ⟨_, _, rfl⟩ rfl
    Schema.anyType (takenUp_declarations hd).inOrder (registered_declarations hd).start trivial
    (run_ok hd hrun)
  exact ⟨hstep, hsettles⟩

theorem regular_run : Regular c p := (step_run hd hrun).1.regular

/-- Every type that is declared is built. -/
theorem built_of_declares {id : TypeId} {e : Element} (he : Declares c p id e) :
    (id, .built) ∈ p.notes := by
  obtain ⟨hstep, -⟩ := step_run hd hrun
  have hbegun : (id, BuildState.building) ∈ p.notes := by
    rcases he with he | he
    · obtain ⟨_, p₁, hensure, helements⟩ := bind_ok (run_ok hd hrun)
      have hsound := sound_builders c (depthBound root)
      have hc : c.Same c := ⟨_, _, rfl⟩
      have ho := (takenUp_declarations hd).inOrder
      have ho₁ := (sound_ensureAll hsound hc _ ho hensure).2
      refine (sound_buildElements hsound hc _ ho₁ helements).1.mem_notes ?_
      exact begun_ensureAll (regular_builders c _) hc ho hensure (mem_of_find he) (by rw [he]; rfl)
    · exact (hstep.regular.anonymous id e he).1
  rcases hstep.later.ended id hbegun with hnone | hbuilt
  · cases hnone
  · exact hbuilt

/-- The definition of a type is the one that its declaration gives. -/
theorem made_of_declares {id : TypeId} {e : Element} (he : Declares c p id e) :
    MadeFrom c e id (p.schema.typeDef id) := by
  have hr := regular_run hd hrun
  obtain ⟨e', he', hmade⟩ := hr.made id (built_of_declares hd hrun he)
  exact hr.declares_unique he he' ▸ hmade

/-- Every complex type has a declaration. -/
theorem declared_of_complex {id : TypeId} (hid : (p.schema.complex? id).isSome) :
    ∃ e, Declares c p id e := by
  obtain ⟨hstep, -⟩ := step_run hd hrun
  rcases hstep.order.complexes id hid with hbegun | hglobal
  · rcases hstep.later.ended id hbegun with hnone | hbuilt
    · cases hnone
    · obtain ⟨e, he, -⟩ := hstep.regular.made id hbuilt
      exact ⟨e, he⟩
  · obtain ⟨e, he⟩ := Option.isSome_iff_exists.1 hglobal
    exact ⟨e, .inl he⟩

/-- Every element is in the particle of the type that declares it, if one does. -/
theorem placed_run {id : ElementId} (hid : p.schema.HasElement id) : p.schema.Placed id := by
  obtain ⟨hstep, hsettles⟩ := step_run hd hrun
  rcases hsettles id hid with hold | hplaced | ⟨-, hpending⟩
  · intro type htype
    rw [hstep.grows.enclosing id hold] at htype
    rw [show (({ schema := s } : Progress).schema.element id).enclosing = none from
      enclosing_declarations hd id] at htype
    cases htype
  · exact hplaced
  · cases hpending

end Run

/-- A run begins with the declarations. -/
theorem declarations_of_run {root : Element} {p : Progress} (h : run root = .ok p) :
    ∃ c s, declarations root = .ok (c, s) := by
  unfold run at h
  split at h
  · cases h
  · cases hd : declarations root with
    | error fault =>
      rw [hd] at h
      cases h
    | ok x => exact ⟨x.1, x.2, rfl⟩

/-- The schema of a document is what has been built of its root. -/
theorem run_of_document {document : Option Element} {s : Schema}
    (h : Schema.ofDocument document = .ok s) :
    ∃ root p, document = some root ∧ run root = .ok p ∧ s = p.schema := by
  cases document with
  | none => cases h
  | some root =>
    change (run root).map (·.schema) = .ok s at h
    cases hrun : run root with
    | error fault =>
      rw [hrun] at h
      cases h
    | ok p =>
      rw [hrun] at h
      cases h
      exact ⟨root, p, rfl, hrun, rfl⟩

/-- A schema that has been loaded stands on the ground of the built-in types. -/
theorem grounded_of_document {document : Option Element} {s : Schema}
    (h : Schema.ofDocument document = .ok s) : s.Grounded := by
  obtain ⟨root, p, -, hrun, rfl⟩ := run_of_document h
  obtain ⟨c, s₀, hd⟩ := declarations_of_run hrun
  exact (regular_run hd hrun).toGrounded

end Loader

/-! Finding an element in a particle. -/

namespace Particle

mutual

/-- What is found for an element of a particle is a particle that holds just it. -/
theorem find_of_mem {id : ElementId} {p : Particle} (h : id ∈ p.elementIds) :
    ∃ o, p.find id = some (.element o id) := by
  cases p with
  | element o other =>
    rw [elementIds, List.mem_singleton] at h
    subst h
    exact ⟨o, by simp [find]⟩
  | group o compositor members =>
    rw [elementIds] at h
    rw [find]
    exact findIn_of_mem h
  | wildcard o w => cases h

theorem findIn_of_mem {id : ElementId} {ps : List Particle} (h : id ∈ elementIdsOf ps) :
    ∃ o, findIn id ps = some (.element o id) := by
  cases ps with
  | nil => cases h
  | cons p ps =>
    rw [elementIdsOf, List.mem_append] at h
    rw [findIn]
    cases hfirst : find id p with
    | some found =>
      obtain ⟨o, ho⟩ := find_of_mem (mem_of_find hfirst)
      exact ⟨o, by rw [← ho, hfirst]⟩
    | none =>
      rcases h with h | h
      · obtain ⟨o, ho⟩ := find_of_mem h
        rw [hfirst] at ho
        cases ho
      · exact findIn_of_mem h

/-- What is found is among the elements of the particle. -/
theorem mem_of_find {id : ElementId} {p found : Particle} (h : p.find id = some found) :
    id ∈ p.elementIds := by
  cases p with
  | element o other =>
    rw [find] at h
    split at h
    · next he => exact List.mem_singleton.2 he.symm
    · cases h
  | group o compositor members =>
    rw [find] at h
    exact mem_of_findIn h
  | wildcard o w => cases h

theorem mem_of_findIn {id : ElementId} {ps : List Particle} {found : Particle}
    (h : findIn id ps = some found) : id ∈ elementIdsOf ps := by
  cases ps with
  | nil => cases h
  | cons p ps =>
    rw [findIn] at h
    rw [elementIdsOf, List.mem_append]
    split at h
    · next first hfirst => exact .inl (mem_of_find hfirst)
    · exact .inr (mem_of_findIn h)

end

end Particle

/-- A particle of the element itself governs it, where the type that encloses it holds it. -/
theorem Schema.Placed.governed {s : Schema} {id : ElementId} (h : s.Placed id) {type : TypeId}
    (htype : (s.element id).enclosing = some type) :
    ∃ o, s.governingParticle id = some (.element o id) := by
  have hmem := h type htype
  unfold governingParticle complex?
  cases hdef : s.typeDef type with
  | any => simp [hdef, TypeDef.elementRefs] at hmem
  | simple t => simp [hdef, TypeDef.elementRefs] at hmem
  | complex t =>
    cases hparticle : t.particle with
    | none => simp [hdef, TypeDef.elementRefs, hparticle] at hmem
    | some particle =>
      obtain ⟨o, ho⟩ := Particle.find_of_mem
        (show id ∈ particle.elementIds by simpa [hdef, TypeDef.elementRefs, hparticle] using hmem)
      exact ⟨o, by simp [htype, hdef, TypeDef.complex?, hparticle, ho]⟩

end SchemaForms
