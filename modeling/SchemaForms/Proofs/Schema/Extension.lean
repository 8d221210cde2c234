import SchemaForms.Proofs.Schema.Steps

/-!
Extensions in a schema that has been loaded.  An extension holds all of its base and then its own,
except for a base that was under way when the building of the extension began: of that one it holds
nothing.
-/

namespace SchemaForms.Loader

open SchemaForms.Xml
open SchemaForms.Source (parts)

/-- Global declarations taken up: each type has a placeholder of its kind, and there are no other
complex types. -/
structure TakenUp (c : Context) (s : Schema) : Prop where
  globals : ∀ id e, Table.find id c.types = some e → id.index < s.types.size ∧
    ((s.complex? id).isSome ↔ e.localName = "complexType")
  complexes : ∀ id, (s.complex? id).isSome → (Table.find id c.types).isSome
  names : ∀ name id, s.findType name = some id → id.index < s.types.size
  bare : ∀ id t, s.complex? id = some t → t.particle = none ∧ t.uses = [] ∧ t.derivation = .none

theorem complex?_addType (s : Schema) (t : TypeDef) (id : TypeId) :
    (s.addType t).2.complex? id = if id.index = s.types.size then t.complex? else s.complex? id := by
  simp only [Schema.complex?, typeDef_addType]
  split <;> rfl

theorem find_append {κ α : Type} [DecidableEq κ] (key : κ) (xs ys : List (κ × α)) :
    Table.find key (xs ++ ys) = (Table.find key xs).or (Table.find key ys) := by
  induction xs with
  | nil => simp [Table.find]
  | cons x xs ih =>
    obtain ⟨k, v⟩ := x
    by_cases hk : k = key
    · simp [Table.find, hk]
    · simp [Table.find, hk, ih]

namespace TakenUp

variable {c : Context} {s : Schema}

theorem simple (h : TakenUp c s) (t : SimpleType) : TakenUp c (s.addType (.simple t)).2 where
  globals id e he := by
    obtain ⟨hlt, hkind⟩ := h.globals id e he
    rw [complex?_addType, if_neg (Nat.ne_of_lt hlt), size_addType]
    exact ⟨Nat.lt_succ_of_lt hlt, hkind⟩
  complexes id hid := by
    rw [complex?_addType] at hid
    split at hid
    · cases hid
    · exact h.complexes id hid
  names name id hid := by
    rw [size_addType]
    rcases findType_addType hid with he | hid
    · omega
    · exact Nat.lt_succ_of_lt (h.names name id hid)
  bare id t ht := by
    rw [complex?_addType] at ht
    split at ht
    · cases ht
    · exact h.bare id t ht

theorem empty (target : Option String) (hc : c.types = []) : TakenUp c (Schema.empty target) := by
  have hbare : TakenUp c ⟨target.filter (· ≠ ""), #[.any], #[], #[],
      Table.empty.put TypeDef.anyName Schema.anyType, .empty⟩ := by
    have hcomplex (id : TypeId) : Schema.complex? ⟨target.filter (· ≠ ""), #[.any], #[], #[],
        Table.empty.put TypeDef.anyName Schema.anyType, .empty⟩ id = none := by
      obtain ⟨i⟩ := id
      cases i <;> rfl
    refine ⟨?_, ?_, ?_, ?_⟩
    · intro id e he
      rw [hc] at he
      cases he
    · intro id hid
      rw [hcomplex] at hid
      cases hid
    · intro name id hid
      simp only [Schema.findType, Table.get?_put] at hid
      split at hid
      · rw [← Option.some.inj hid]
        exact Nat.zero_lt_one
      · cases hid
    · intro id t ht
      rw [hcomplex] at ht
      cases ht
  suffices h : ∀ (builtins : List Builtin) (s : Schema), TakenUp c s →
      TakenUp c (builtins.foldl (fun s b => (s.addType (.simple (s.builtinType b))).2) s) from
    h _ _ hbare
  intro builtins
  induction builtins with
  | nil => exact fun _ hs => hs
  | cons b builtins ih => exact fun s hs => ih _ (hs.simple _)

/-- A placeholder for a global type. -/
theorem global (h : TakenUp c s) {e : Element} {t : TypeDef}
    (hkind : t.complex?.isSome ↔ e.localName = "complexType")
    (hbare : ∀ ct, t.complex? = some ct →
      ct.particle = none ∧ ct.uses = [] ∧ ct.derivation = .none) :
    TakenUp { c with types := c.types ++ [((s.addType t).1, e)] } (s.addType t).2 where
  globals id e' he := by
    rw [find_append, Option.or_eq_some_iff] at he
    rw [complex?_addType, size_addType]
    rcases he with he | ⟨-, he⟩
    · obtain ⟨hlt, hk⟩ := h.globals id e' he
      rw [if_neg (Nat.ne_of_lt hlt)]
      exact ⟨Nat.lt_succ_of_lt hlt, hk⟩
    · simp only [Table.find] at he
      split at he
      · next hid =>
        subst hid
        cases he
        rw [if_pos (show (s.addType t).1.index = s.types.size from rfl)]
        exact ⟨Nat.lt_succ_self _, hkind⟩
      · cases he
  complexes id hid := by
    rw [find_append, Option.isSome_or]
    rw [complex?_addType] at hid
    split at hid
    · next hlast =>
      have : (s.addType t).1 = id := by
        cases id
        simp_all [Schema.addType]
      simp [Table.find, this]
    · simp [h.complexes id hid]
  names name id hid := by
    rw [size_addType]
    rcases findType_addType hid with he | hid
    · omega
    · exact Nat.lt_succ_of_lt (h.names name id hid)
  bare id ct hct := by
    rw [complex?_addType] at hct
    split at hct
    · exact hbare ct hct
    · exact h.bare id ct hct

theorem of_eq {c' : Context} {s' : Schema} (h : TakenUp c s) (hc : c'.types = c.types)
    (hs : s'.types = s.types) (hn : s'.typeNames = s.typeNames) : TakenUp c' s' := by
  have hcomplex (id : TypeId) : s'.complex? id = s.complex? id := by
    simp [Schema.complex?, Schema.typeDef, hs]
  refine ⟨?_, ?_, ?_, ?_⟩
  · simpa [hc, hs, hcomplex] using h.globals
  · simpa [hc, hcomplex] using h.complexes
  · simpa [hs, Schema.findType, hn] using h.names
  · simpa [hcomplex] using h.bare

theorem register {e : Element} {c' : Context} {s' : Schema} (h : TakenUp c s)
    (hr : Loader.register c s e = .ok (c', s')) : TakenUp c' s' := by
  unfold Loader.register at hr
  cases hname : globalName c e with
  | error fault =>
    simp only [hname] at hr
    repeat' split at hr
    all_goals cases hr
    exact h
  | ok name =>
    simp only [hname] at hr
    split at hr
    · next he =>
      cases hr
      exact h.global (by simp [TypeDef.complex?, he]) fun ct hct => by cases hct; exact ⟨rfl, rfl, rfl⟩
    · next hne =>
      repeat' split at hr
      all_goals cases hr
      · exact h.global (by simp [TypeDef.complex?, hne]) fun ct hct => by cases hct
      all_goals exact h.of_eq rfl rfl rfl

theorem registerAll {es : List Element} {c' : Context} {s' : Schema} (h : TakenUp c s)
    (hr : Loader.registerAll c s es = .ok (c', s')) : TakenUp c' s' := by
  induction es generalizing c s with
  | nil =>
    cases hr
    exact h
  | cons e es ih =>
    unfold Loader.registerAll at hr
    cases hone : Loader.register c s e with
    | error fault =>
      rw [hone] at hr
      cases hr
    | ok next =>
      rw [hone] at hr
      exact ih (h.register hone) hr

theorem inOrder (h : TakenUp c s) : InOrder c { schema := s } where
  noted _ _ hm := by cases hm
  anonymous _ _ he := by cases he
  globals := h.globals
  complexes id hid := .inr (h.complexes id hid)
  names := h.names
  bare id t ht _ := h.bare id t ht
  built _ hb := by cases hb
  extensions _ _ _ hb := by cases hb

end TakenUp

theorem takenUp_declarations {root : Element} {c : Context} {s : Schema}
    (h : declarations root = .ok (c, s)) : TakenUp c s :=
  (TakenUp.empty _ rfl).registerAll h

section Building

variable {c ctx : Context} {b : Builders} (hb : SoundBuilders c b) (hc : c.Same ctx)
include hb hc

theorem sound_ensureAll (types : List (TypeId × Element)) : Sound c (ensureAll b ctx types) := by
  induction types with
  | nil => exact .pure _
  | cons t types ih => exact (hb.ensure ctx t.1 hc).bind fun _ => ih

theorem sound_buildElements (elements : List (ElementId × Element)) :
    Sound c (buildElements b ctx elements) := by
  induction elements with
  | nil => exact .pure _
  | cons e elements ih =>
    refine Sound.get.bind fun _ => (sound_elementDecl hb hc e.2 _ none).bind fun decl => ?_
    refine Sound.bind (Sound.of_frame fun p _ q h => ?_) fun _ => ih
    cases h
    exact ⟨rfl, rfl, rfl, rfl⟩

theorem sound_buildAll : Sound c (buildAll b ctx) :=
  (sound_ensureAll hb hc _).bind fun _ => sound_buildElements hb hc _

end Building

/-- A run builds all that is declared. -/
theorem run_ok {root : Element} {c : Context} {s : Schema} {p : Progress}
    (hd : declarations root = .ok (c, s)) (h : run root = .ok p) :
    buildAll (builders (depthBound root)) c { schema := s } = .ok ((), p) := by
  unfold run at h
  split at h
  · cases h
  · rw [hd] at h
    change ((buildAll (builders (depthBound root)) c { schema := s }).bind
      fun x => Except.ok x.2) = .ok p at h
    cases hbuild : buildAll (builders (depthBound root)) c { schema := s } with
    | error fault =>
      rw [hbuild] at h
      cases h
    | ok x =>
      rw [hbuild] at h
      cases h
      rfl

/-- What has been built in the end is in good order. -/
theorem inOrder_run {root : Element} {c : Context} {s : Schema} {p : Progress}
    (hd : declarations root = .ok (c, s)) (h : run root = .ok p) : InOrder c p := by
  exact (sound_buildAll (sound_builders c _) ⟨_, _, rfl⟩ (takenUp_declarations hd).inOrder
    (run_ok hd h)).2

/-- The elements of a content model, in order. -/
def elementsOf (particle : Option Particle) : List ElementId :=
  (particle.map Particle.elementIds).getD []

theorem elementsOf_extendParticle (inherited own : Option Particle) :
    elementsOf (extendParticle inherited own) = elementsOf inherited ++ elementsOf own := by
  cases inherited <;> cases own <;>
    simp [elementsOf, extendParticle, Particle.sequence, Particle.elementIds,
      Particle.elementIdsOf]

/-- An extension holds the elements and the attribute uses of its base in front of its own exactly
when the base was not under way as the building of the extension began, or holds nothing itself. -/
theorem extension_holds_base_iff {root : Element} {c : Context} {s : Schema} {p : Progress}
    {id base : TypeId} {t b : ComplexType} (hd : declarations root = .ok (c, s))
    (hrun : run root = .ok p) (ht : p.schema.complex? id = some t)
    (hx : t.derivation = .extension) (hcontent : t.content ≠ .simple)
    (hbase : t.base = some base) (hb : p.schema.complex? base = some b) :
    ∃ own uses, ReadsOwn c p id own uses ∧
      (elementsOf t.particle = elementsOf b.particle ++ elementsOf own ∧
          t.uses = b.uses ++ uses ↔
        (BegunWithin id base p.notes → elementsOf b.particle = [] ∧ b.uses = [])) := by
  have hp := inOrder_run hd hrun
  have hbuilt : (id, BuildState.built) ∈ p.notes := Decidable.byContradiction fun hn => by
    have hnone := (hp.bare id t ht hn).2.2
    rw [hx] at hnone
    cases hnone
  obtain ⟨-, hext⟩ := hp.extensions id t ht hbuilt hx hcontent base hbase
  obtain ⟨own, uses, hown, hcase⟩ := hext b hb
  refine ⟨own, uses, hown, ?_⟩
  rcases hcase with ⟨hwithin, hparticle, huses⟩ | ⟨hnot, -, hparticle, huses⟩
  · rw [hparticle, huses]
    constructor
    · rintro ⟨he, hu⟩ -
      exact ⟨List.self_eq_append_left.1 he, List.self_eq_append_left.1 hu⟩
    · intro h
      obtain ⟨he, hu⟩ := h hwithin
      simp [he, hu]
  · rw [hparticle, huses, elementsOf_extendParticle]
    exact ⟨fun _ hwithin => absurd hwithin hnot, fun _ => ⟨rfl, rfl⟩⟩

/-- An element of a schema document. -/
def xsd (name : String) (attributes : List (String × String)) (children : List Element) :
    Element :=
  { Element.ofName ⟨some schemaNamespace, name⟩ with
    attributes := attributes.map fun (key, value) => ⟨.unqualified key, none, value⟩
    children := children }

/-- A base with an element `x` of the given type, and an extension of it with an element `y`. -/
def extensionWith (typeOfX : String) : Element :=
  xsd "schema" [] [
    xsd "complexType" [("name", "B")] [
      xsd "sequence" [] [xsd "element" [("name", "x"), ("type", typeOfX)] []]],
    xsd "complexType" [("name", "T")] [
      xsd "complexContent" [] [
        xsd "extension" [("base", "B")] [
          xsd "sequence" [] [xsd "element" [("name", "y")] []]]]]]

theorem exists_ok {ε α β : Type} {x : Except ε α} {f : α → Option β} {b : β}
    (h : x.toOption.bind f = some b) : ∃ a, x = .ok a ∧ f a = some b := by
  cases x with
  | error e => cases h
  | ok a => exact ⟨a, rfl, h⟩

set_option maxRecDepth 100000 in
theorem extension_holds_built_base : ∃ c s p t b, declarations (extensionWith "B") = .ok (c, s) ∧
    run (extensionWith "B") = .ok p ∧ p.schema.complex? ⟨47⟩ = some t ∧
    t.derivation = .extension ∧ t.content ≠ .simple ∧ t.base = some ⟨46⟩ ∧
    p.schema.complex? ⟨46⟩ = some b ∧ ∃ own uses, ReadsOwn c p ⟨47⟩ own uses ∧
      (elementsOf t.particle = elementsOf b.particle ++ elementsOf own ∧ t.uses = b.uses ++ uses ↔
        (BegunWithin ⟨47⟩ ⟨46⟩ p.notes → elementsOf b.particle = [] ∧ b.uses = [])) := by
  have hdecl : ((declarations (extensionWith "B")).toOption.bind fun _ => some ()) = some () := by
    decide +kernel
  have hrun : ((run (extensionWith "B")).toOption.bind fun p =>
      (p.schema.complex? ⟨47⟩).bind fun t => (p.schema.complex? ⟨46⟩).map fun _ =>
        (t.derivation, t.content, t.base)) = some (.extension, .elementOnly, some ⟨46⟩) := by
    decide +kernel
  obtain ⟨⟨c, s⟩, hd, -⟩ := exists_ok hdecl
  obtain ⟨p, hp, htypes⟩ := exists_ok hrun
  simp only [Option.bind_eq_some_iff, Option.map_eq_some_iff, Prod.mk.injEq] at htypes
  obtain ⟨t, ht, b, hb, hx, hcontent, hbase⟩ := htypes
  have hne : t.content ≠ .simple := by simp [hcontent]
  exact ⟨c, s, p, t, b, hd, hp, ht, hx, hne, hbase, hb,
    extension_holds_base_iff hd hp ht hx hne hbase hb⟩

set_option maxRecDepth 100000 in
/-- Here `x` has the type `T`, so that the building of `T` begins within that of its base. -/
theorem extension_within_base : ∃ p t b, run (extensionWith "T") = .ok p ∧
    p.schema.complex? ⟨47⟩ = some t ∧ t.derivation = .extension ∧ t.base = some ⟨46⟩ ∧
    p.schema.complex? ⟨46⟩ = some b ∧ b.base = some Schema.anyType ∧
    ∀ own, elementsOf t.particle ≠ elementsOf b.particle ++ own := by
  have hrun : ((run (extensionWith "T")).toOption.bind fun p =>
      (p.schema.complex? ⟨47⟩).bind fun t => (p.schema.complex? ⟨46⟩).map fun b =>
        ((t.derivation, t.base, elementsOf t.particle), b.base, elementsOf b.particle)) =
      some ((.extension, some ⟨46⟩, [⟨0⟩]), some Schema.anyType, [⟨1⟩]) := by
    decide +kernel
  obtain ⟨p, hp, htypes⟩ := exists_ok hrun
  simp only [Option.bind_eq_some_iff, Option.map_eq_some_iff, Prod.mk.injEq] at htypes
  obtain ⟨t, ht, b, hb, ⟨hx, hbase, helements⟩, hroot, hbelements⟩ := htypes
  refine ⟨p, t, b, hp, ht, hx, hbase, hb, hroot, fun own => ?_⟩
  simp [helements, hbelements]

end SchemaForms.Loader
