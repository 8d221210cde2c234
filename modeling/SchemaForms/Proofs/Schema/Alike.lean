import SchemaForms.Form.Reuse

/-!
Schemas alike: they differ in what the contents of complex types hold and in nothing else.  All that
does not look into contents is the same in both: chains, substitutes, what a name means and what a
value may be.
-/

namespace SchemaForms

/-- A definition without its content. -/
def TypeDef.bare : TypeDef → TypeDef
  | .complex c => .complex { c with uses := [], particle := none }
  | t => t

namespace Schema

structure Alike (s s' : Schema) : Prop where
  target : s'.target = s.target
  elements : s'.elements = s.elements
  uses : s'.uses = s.uses
  elementNames : s'.elementNames = s.elementNames
  size : s'.types.size = s.types.size
  bare : ∀ t, (s'.typeDef t).bare = (s.typeDef t).bare

namespace Alike

variable {s s' : Schema}

theorem element_eq (h : s.Alike s') : s'.element = s.element := by
  funext id
  rw [element, element, h.elements]

theorem use_eq (h : s.Alike s') : s'.use = s.use := by
  funext id
  rw [use, use, h.uses]

theorem findElement_eq (h : s.Alike s') : s'.findElement = s.findElement := by
  funext name
  rw [findElement, findElement, h.elementNames]

/-- What definitions say apart from their contents. -/
theorem typeDef_eq (h : s.Alike s') {α : Type} {f : TypeDef → α}
    (hf : ∀ (c : ComplexType) uses particle,
      f (.complex { c with uses := uses, particle := particle }) = f (.complex c)) (t : TypeId) :
    f (s'.typeDef t) = f (s.typeDef t) := by
  have hbare (d : TypeDef) : f d.bare = f d := by
    cases d with
    | complex c => exact hf c [] none
    | _ => rfl
  rw [← hbare, h.bare, hbare]

theorem name?_eq (h : s.Alike s') (t : TypeId) : (s'.typeDef t).name? = (s.typeDef t).name? :=
  h.typeDef_eq (fun _ _ _ => rfl) t

theorem simple?_eq (h : s.Alike s') : s'.simple? = s.simple? :=
  funext fun t => h.typeDef_eq (f := TypeDef.simple?) (fun _ _ _ => rfl) t

theorem base?_eq (h : s.Alike s') : s'.base? = s.base? :=
  funext fun t => h.typeDef_eq (f := TypeDef.base?) (fun _ _ _ => rfl) t

theorem category_eq (h : s.Alike s') : s'.category = s.category :=
  funext fun t => h.typeDef_eq (f := TypeDef.category) (fun _ _ _ => rfl) t

theorem displayName_eq (h : s.Alike s') : s'.displayName = s.displayName :=
  funext fun t => h.typeDef_eq (f := TypeDef.displayName) (fun _ _ _ => rfl) t

/-- What complex types say apart from their contents. -/
theorem complex?_eq (h : s.Alike s') {α : Type} {f : Option ComplexType → α}
    (hf : ∀ (c : ComplexType) uses particle,
      f (some { c with uses := uses, particle := particle }) = f (some c)) (t : TypeId) :
    f (s'.complex? t) = f (s.complex? t) :=
  h.typeDef_eq (f := fun d => f d.complex?) hf t

theorem isSome_complex? (h : s.Alike s') (t : TypeId) :
    (s'.complex? t).isSome = (s.complex? t).isSome :=
  h.complex?_eq (f := Option.isSome) (fun _ _ _ => rfl) t

theorem complexBase_eq (h : s.Alike s') : s'.complexBase = s.complexBase :=
  funext fun t => h.complex?_eq (f := fun c => c.bind (·.base)) (fun _ _ _ => rfl) t

theorem chain_eq (h : s.Alike s') : s'.chain = s.chain := by
  funext next t
  rw [chain, chain, h.size]

theorem simplesOn_eq (h : s.Alike s') : s'.simplesOn = s.simplesOn := by
  funext ids
  rw [simplesOn, simplesOn, h.simple?_eq]

theorem itemOrBase_eq (h : s.Alike s') : s'.itemOrBase = s.itemOrBase := by
  funext t
  rw [itemOrBase, itemOrBase, h.simple?_eq]

theorem simpleBase_eq (h : s.Alike s') : s'.simpleBase = s.simpleBase := by
  funext t
  rw [simpleBase, simpleBase, h.simple?_eq]

theorem builtinKind_eq (h : s.Alike s') : s'.builtinKind = s.builtinKind := by
  funext t
  rw [builtinKind, builtinKind, h.simplesOn_eq, h.chain_eq, h.itemOrBase_eq]

theorem isList_eq (h : s.Alike s') : s'.isList = s.isList := by
  funext t
  rw [isList, isList, h.simple?_eq]

theorem listItem_eq (h : s.Alike s') : s'.listItem = s.listItem := by
  funext t
  rw [listItem, listItem, h.simple?_eq]

theorem enumeration_eq (h : s.Alike s') : s'.enumeration = s.enumeration := by
  funext t
  rw [enumeration, enumeration, h.simplesOn_eq, h.chain_eq, h.simpleBase_eq]

theorem range_eq (h : s.Alike s') : s'.range = s.range := by
  funext t
  rw [range, range, h.simplesOn_eq, h.chain_eq, h.simpleBase_eq]

theorem simpleContent_eq (h : s.Alike s') : s'.simpleContent = s.simpleContent := by
  funext t
  rw [simpleContent, simpleContent, h.simple?_eq, h.complexBase_eq, h.size, h.base?_eq]

/-! Substitutes. -/

theorem namedTypes_eq (h : s.Alike s') : s'.namedTypes = s.namedTypes := by
  unfold namedTypes
  rw [h.size]
  exact List.filter_congr fun t _ => by rw [h.name?_eq]

theorem parent_eq (h : s.Alike s') : Substitutes.parent s' = Substitutes.parent s := by
  funext t
  unfold Substitutes.parent
  rw [h.base?_eq, h.category_eq]

/-- How complex types are derived. -/
theorem derivation_cases (h : s.Alike s') (t : TypeId) :
    s'.complex? t = none ∧ s.complex? t = none ∨
    ∃ c' c, s'.complex? t = some c' ∧ s.complex? t = some c ∧
      c'.derivation = c.derivation ∧ c'.base = c.base ∧ c'.isAbstract = c.isAbstract := by
  have hsame := h.complex?_eq (f := Option.map fun c => (c.derivation, c.base, c.isAbstract))
    (fun _ _ _ => rfl) t
  cases hc : s.complex? t with
  | none =>
    rw [hc, Option.map_none, Option.map_eq_none_iff] at hsame
    exact .inl ⟨hsame, rfl⟩
  | some c =>
    rw [hc, Option.map_some, Option.map_eq_some_iff] at hsame
    obtain ⟨c', hc', heq⟩ := hsame
    simp only [Prod.mk.injEq] at heq
    exact .inr ⟨c', c, hc', rfl, heq⟩

theorem canSubstitute_eq (h : s.Alike s') :
    Substitutes.canSubstitute s' = Substitutes.canSubstitute s := by
  funext t
  unfold Substitutes.canSubstitute
  obtain ⟨hc', hc⟩ | ⟨c', c, hc', hc, hderivation, -, habstract⟩ := h.derivation_cases t
  · rw [hc', hc]
  · simp only [hc', hc, hderivation, habstract]

theorem ascend_eq (h : s.Alike s') (table : Table TypeId (List TypeId)) (below above : List TypeId) :
    Substitutes.ascend s' table below above = Substitutes.ascend s table below above := by
  induction above generalizing table below with
  | nil => rfl
  | cons t above ih =>
    rw [Substitutes.ascend, Substitutes.ascend, h.canSubstitute_eq]
    exact ih ..

theorem derivedFrom_eq (h : s.Alike s') :
    Substitutes.derivedFrom s' = Substitutes.derivedFrom s := by
  funext t
  unfold Substitutes.derivedFrom
  simp only [h.isSome_complex?]
  obtain ⟨hc', hc⟩ | ⟨c', c, hc', hc, hderivation, hbase, -⟩ := h.derivation_cases t
  · rw [hc', hc]
  · simp only [hc', hc, hderivation, hbase]

theorem sortByDepth_eq (h : s.Alike s') :
    Substitutes.sortByDepth s' = Substitutes.sortByDepth s := by
  have hdepth : Substitutes.depth s' = Substitutes.depth s := by
    funext t
    rw [Substitutes.depth, Substitutes.depth, h.chain_eq, h.derivedFrom_eq]
  funext ids
  rw [Substitutes.sortByDepth, Substitutes.sortByDepth, hdepth]

theorem substitutes_eq (h : s.Alike s') : Substitutes.ofSchema s' = Substitutes.ofSchema s := by
  have hascend (table : Table TypeId (List TypeId)) (t : TypeId) :
      Substitutes.ascend s' table [] (s'.chain (Substitutes.parent s') t) =
        Substitutes.ascend s table [] (s.chain (Substitutes.parent s) t) := by
    rw [h.chain_eq, h.parent_eq]
    exact h.ascend_eq ..
  unfold Substitutes.ofSchema
  simp only [hascend, h.namedTypes_eq, h.sortByDepth_eq]

/-! What is inherited. -/

theorem ancestors_eq (h : s.Alike s') (t : TypeId) :
    Generator.ancestors s' t = Generator.ancestors s t := by
  have hsome : (fun b => (s'.complex? b).isSome) = fun b => (s.complex? b).isSome :=
    funext h.isSome_complex?
  unfold Generator.ancestors
  rw [h.base?_eq, h.size, hsome]

end Alike

end Schema

end SchemaForms
