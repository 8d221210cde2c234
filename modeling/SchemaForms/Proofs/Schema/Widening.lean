import Mathlib.Data.List.Find
import SchemaForms.Form.Reuse
import SchemaForms.Proofs.Schema.Closure
import SchemaForms.Proofs.Schema.Descent

/-!
What lies beyond the range of a graph.  A number that leads nowhere in one graph leads anywhere in
another one that has more behind it.  All that is found in a closed graph from a number in its range
is found in the other graph too: no chain, no list of substitutes and no look-up in the declarations
ever gets beyond the range.
-/

namespace SchemaForms

/-! Tests that agree on the members of a list. -/

section Lists

variable {α : Type} {p q : α → Bool} {l : List α} (h : ∀ a ∈ l, p a = q a)
include h

theorem any_congr_of_mem : l.any p = l.any q := by
  induction l with
  | nil => rfl
  | cons a l ih =>
    rw [List.any_cons, List.any_cons, h a List.mem_cons_self,
      ih fun b hb => h b (List.mem_cons_of_mem _ hb)]

theorem takeWhile_congr_of_mem : l.takeWhile p = l.takeWhile q := by
  induction l with
  | nil => rfl
  | cons a l ih =>
    rw [List.takeWhile_cons, List.takeWhile_cons, h a List.mem_cons_self,
      ih fun b hb => h b (List.mem_cons_of_mem _ hb)]

end Lists

namespace Schema

/-- A graph that has something behind what another one holds.  It declares the same names, and the
types in front of it are the only ones that have a name of their own. -/
structure Widens (s s' : Schema) : Prop where
  target : s'.target = s.target
  elementNames : s'.elementNames = s.elementNames
  namedTypes : s'.namedTypes = s.namedTypes
  types : s.types.size ≤ s'.types.size
  elements : s.elements.size ≤ s'.elements.size
  typeDef : ∀ id, s.HasType id → s'.typeDef id = s.typeDef id
  element : ∀ id, s.HasElement id → s'.element id = s.element id
  use : ∀ id, s.HasUse id → s'.use id = s.use id

/-- A graph with one more of everything behind its own. -/
def extended (s : Schema) (t : TypeDef) (d : ElementDecl) (u : AttributeUse) : Schema :=
  { s with types := s.types.push t, elements := s.elements.push d, uses := s.uses.push u }

/-! What the numbers in a closed graph lead to. -/

variable {s s' : Schema} {id : TypeId}

namespace Closed

theorem elementType (h : s.Closed) {id : ElementId} {type : TypeId}
    (htype : (s.element id).type = some type) : s.HasType type := by
  by_cases hid : s.HasElement id
  · exact h.elements _ (element_mem_of_has hid) type (.inl htype)
  · rw [Schema.element, Array.getD_eq_getD_getElem?, Array.getElem?_eq_none (Nat.not_lt.1 hid)]
      at htype
    cases htype

theorem useType (h : s.Closed) {id : UseId} {type : TypeId}
    (htype : (s.use id).decl.type = some type) : s.HasType type := by
  by_cases hid : s.HasUse id
  · exact h.uses _ (use_mem_of_has hid) type htype
  · rw [Schema.use, Array.getD_eq_getD_getElem?, Array.getElem?_eq_none (Nat.not_lt.1 hid)] at htype
    cases htype

theorem simple (h : s.Closed) {t : SimpleType} (ht : s.simple? id = some t) :
    ∀ other ∈ t.base.toList ++ t.variety.refs, s.HasType other := by
  have htypes := (h.typeDef id).types
  unfold simple? at ht
  cases hdef : s.typeDef id with
  | any => simp [hdef, TypeDef.simple?] at ht
  | complex _ => simp [hdef, TypeDef.simple?] at ht
  | simple t' =>
    simp only [hdef, TypeDef.simple?, Option.some.injEq] at ht
    simpa only [hdef, TypeDef.typeRefs, ht] using htypes

theorem listItem (h : s.Closed) {item : TypeId} (hitem : s.listItem id = some item) :
    s.HasType item := by
  obtain ⟨t, ht, hvariety⟩ := Option.bind_eq_some_iff.1 hitem
  refine h.simple ht item (List.mem_append_right _ ?_)
  split at hvariety
  · next hlist => simp [hlist, Variety.refs, hvariety]
  · cases hvariety

end Closed

/-! Walks. -/

/-- A way to go on from type to type that is the same in two graphs and stays in the range of the
first. -/
structure Ranges (s : Schema) (next next' : TypeId → Option TypeId) : Prop where
  same : ∀ id, s.HasType id → next' id = next id
  leaves : ∀ id, (next id).isSome → s.HasType id
  leads : ∀ id other, next id = some other → s.HasType other

namespace Ranges

variable {next next' : TypeId → Option TypeId} {current : Option TypeId}

theorem mem_walk (h : Ranges s next next') (hcurrent : ∀ id ∈ current, s.HasType id) {budget : Nat}
    {visited : List TypeId} (hid : id ∈ walk next budget visited current) : s.HasType id := by
  induction budget generalizing visited current with
  | zero => cases hid
  | succ budget ih =>
    cases current with
    | none => cases hid
    | some first =>
      rw [walk] at hid
      split at hid
      · cases hid
      · rcases List.mem_cons.1 hid with rfl | hid
        · exact hcurrent id rfl
        · exact ih (fun other hother => h.leads first other hother) hid

theorem walk_same (h : Ranges s next next') (hcurrent : ∀ id ∈ current, s.HasType id) (budget : Nat)
    (visited : List TypeId) : walk next' budget visited current = walk next budget visited current := by
  induction budget generalizing visited current with
  | zero => rfl
  | succ budget ih =>
    cases current with
    | none => rfl
    | some first =>
      rw [walk, walk, h.same first (hcurrent first rfl),
        ih fun other hother => h.leads first other hother]

/-- The greater budget that a graph has with more behind it makes no difference. -/
theorem walk_eq (h : Ranges s next next') (hw : s.Widens s')
    (hcurrent : ∀ id ∈ current, s.HasType id) (visited : List TypeId) :
    walk next' (s'.types.size + 1) visited current =
      walk next (s.types.size + 1) visited current := by
  have hle := unmet_le s.typeIds visited
  rw [typeIds, List.length_map, List.length_range, ← typeIds] at hle
  have hsize := hw.types
  rw [h.walk_same hcurrent]
  refine Schema.walk_eq (l := s.typeIds) (fun id hid => ?_) (by omega) (by omega) current
  exact List.mem_map.2 ⟨id.index, List.mem_range.2 (h.leaves id hid), rfl⟩

theorem chain_eq (h : Ranges s next next') (hw : s.Widens s') (hid : s.HasType id) :
    s'.chain next' id = s.chain next id :=
  h.walk_eq hw (fun _ hsome => Option.some.inj hsome ▸ hid) []

theorem mem_chain (h : Ranges s next next') (hid : s.HasType id) {other : TypeId}
    (hother : other ∈ s.chain next id) : s.HasType other :=
  h.mem_walk (fun _ hsome => Option.some.inj hsome ▸ hid) hother

end Ranges

namespace Widens

theorem refl (s : Schema) : s.Widens s :=
  ⟨rfl, rfl, rfl, Nat.le_refl _, Nat.le_refl _, fun _ _ => rfl, fun _ _ => rfl, fun _ _ => rfl⟩

/-- A graph with a type without a name behind its own, an element and an attribute use, whatever
they refer to. -/
theorem of_extended (hsize : builtinCount ≤ s.types.size) {t : TypeDef} (ht : t.name? = none)
    (d : ElementDecl) (u : AttributeUse) : s.Widens (s.extended t d u) := by
  have hdef (id : TypeId) : (s.extended t d u).typeDef id =
      if id.index = s.types.size then t else s.typeDef id := by
    simp only [extended, Schema.typeDef, Array.getD_eq_getD_getElem?, Array.getElem?_push]
    split <;> rfl
  refine ⟨rfl, rfl, ?_, by simp [extended], by simp [extended], fun id hid => ?_,
    fun id hid => ?_, fun id hid => ?_⟩
  · have hsize' : (s.extended t d u).types.size = s.types.size + 1 := by simp [extended]
    have hcount : s.types.size + 1 - builtinCount = s.types.size - builtinCount + 1 := by omega
    have hlast : builtinCount + 1 * (s.types.size - builtinCount) = s.types.size := by omega
    rw [Schema.namedTypes, hsize', hcount, List.range'_concat, hlast, List.map_append,
      List.filter_append, Schema.namedTypes]
    rw [show List.filter _ (List.map TypeId.mk [s.types.size]) = [] by simp [hdef, ht],
      List.append_nil]
    refine List.filter_congr fun id hid => ?_
    obtain ⟨i, hi, rfl⟩ := List.mem_map.1 hid
    obtain ⟨k, hk, rfl⟩ := List.mem_range'.1 hi
    rw [hdef, if_neg]
    change builtinCount + 1 * k ≠ s.types.size
    omega
  · rw [hdef, if_neg (Nat.ne_of_lt hid)]
  · simp only [extended, Schema.element, Array.getD_eq_getD_getElem?, Array.getElem?_push,
      if_neg (Nat.ne_of_lt hid)]
  · simp only [extended, Schema.use, Array.getD_eq_getD_getElem?, Array.getElem?_push,
      if_neg (Nat.ne_of_lt hid)]

section Look

variable (h : s.Widens s') (hid : s.HasType id)
include h hid

theorem simple?_eq : s'.simple? id = s.simple? id := by rw [simple?, h.typeDef id hid, simple?]

theorem complex?_eq : s'.complex? id = s.complex? id := by rw [complex?, h.typeDef id hid, complex?]

theorem base?_eq : s'.base? id = s.base? id := by rw [base?, h.typeDef id hid, base?]

theorem displayName_eq : s'.displayName id = s.displayName id := by
  rw [displayName, h.typeDef id hid, displayName]

theorem isList_eq : s'.isList id = s.isList id := by rw [isList, h.simple?_eq hid, isList]

theorem listItem_eq : s'.listItem id = s.listItem id := by
  rw [listItem, h.simple?_eq hid, listItem]

end Look

theorem simplesOn_eq (h : s.Widens s') {ids : List TypeId} (hids : ∀ id ∈ ids, s.HasType id) :
    s'.simplesOn ids = s.simplesOn ids :=
  List.filterMap_congr fun id hid => h.simple?_eq (hids id hid)

/-! The ways to go on from a type to one that its definition refers to. -/

section Ways

variable (h : s.Widens s') (hc : s.Closed)
include h hc

omit h in
theorem ranges_of_refs {next next' : TypeId → Option TypeId}
    (hsame : ∀ id, s.HasType id → next' id = next id)
    (hrefs : ∀ id other, next id = some other → other ∈ (s.typeDef id).typeRefs) :
    Ranges s next next' where
  same := hsame
  leaves id hid := by
    obtain ⟨other, hother⟩ := Option.isSome_iff_exists.1 hid
    have hmem := hrefs id other hother
    refine Nat.lt_of_not_le fun hn => ?_
    rw [typeDef_of_not_hasType (Nat.not_lt.2 hn)] at hmem
    cases hmem
  leads id other hother := (hc.typeDef id).types other (hrefs id other hother)

omit h hc in
theorem mem_refs_of_base {other : TypeId} (hbase : s.base? id = some other) :
    other ∈ (s.typeDef id).typeRefs := by
  unfold base? at hbase
  cases hdef : s.typeDef id with
  | any => simp [hdef, TypeDef.base?] at hbase
  | simple t => simp_all [TypeDef.base?, TypeDef.typeRefs]
  | complex t => simp_all [TypeDef.base?, TypeDef.typeRefs]

omit h hc in
theorem refs_of_simple {t : SimpleType} (ht : s.simple? id = some t) :
    (s.typeDef id).typeRefs = t.base.toList ++ t.variety.refs := by
  unfold simple? at ht
  cases hdef : s.typeDef id with
  | any => simp [hdef, TypeDef.simple?] at ht
  | complex _ => simp [hdef, TypeDef.simple?] at ht
  | simple t' =>
    rw [hdef, TypeDef.simple?, Option.some.injEq] at ht
    rw [TypeDef.typeRefs, ht]

theorem ranges_base : Ranges s s.base? s'.base? :=
  ranges_of_refs hc (fun _ hid => h.base?_eq hid) fun _ _ => mem_refs_of_base

theorem ranges_complexBase : Ranges s s.complexBase s'.complexBase :=
  ranges_of_refs hc (fun id hid => by rw [complexBase, complexBase, h.complex?_eq hid])
    fun _ _ hbase => mem_refs_of_base (base?_of_complexBase hbase)

theorem ranges_simpleBase : Ranges s s.simpleBase s'.simpleBase := by
  refine ranges_of_refs hc (fun id hid => by rw [simpleBase, simpleBase, h.simple?_eq hid])
    fun id other hbase => ?_
  obtain ⟨t, ht, hbase⟩ := Option.bind_eq_some_iff.1 hbase
  simp [refs_of_simple ht, hbase]

theorem ranges_itemOrBase : Ranges s s.itemOrBase s'.itemOrBase := by
  refine ranges_of_refs hc (fun id hid => by rw [itemOrBase, itemOrBase, h.simple?_eq hid])
    fun id other hnext => ?_
  obtain ⟨t, ht, hnext⟩ := Option.bind_eq_some_iff.1 hnext
  rw [refs_of_simple ht, List.mem_append]
  split at hnext
  · next hlist => simp [hlist, Variety.refs, hnext]
  · simp [hnext]

theorem ranges_parent : Ranges s (Substitutes.parent s) (Substitutes.parent s') := by
  refine ranges_of_refs hc (fun id hid => ?_) fun _ _ hbase =>
    mem_refs_of_base (Substitutes.parent_base? hbase)
  rw [Substitutes.parent, Substitutes.parent, h.base?_eq hid]
  cases hbase : s.base? id with
  | none => rfl
  | some base =>
    dsimp only
    rw [category, category, category, category, h.typeDef id hid, h.typeDef base (hc.base hbase)]

theorem ranges_derivedFrom : Ranges s (Substitutes.derivedFrom s) (Substitutes.derivedFrom s') := by
  refine ranges_of_refs hc (fun id hid => ?_) fun _ _ hbase =>
    mem_refs_of_base (Substitutes.derivedFrom_base? hbase)
  rw [Substitutes.derivedFrom, Substitutes.derivedFrom, h.complex?_eq hid]
  cases ht : s.complex? id with
  | none => rfl
  | some t =>
    dsimp only
    split
    · rfl
    · rfl
    · next base hbase _ =>
      have hhas : s.HasType base :=
        hc.base (base?_of_complexBase (Option.bind_eq_some_iff.2 ⟨t, ht, hbase⟩))
      rw [h.complex?_eq hhas]

end Ways

/-! What is looked up along chains. -/

section Values

variable (h : s.Widens s') (hc : s.Closed) (hid : s.HasType id)
include h hc hid

theorem builtinKind_eq : s'.builtinKind id = s.builtinKind id := by
  have hway := h.ranges_itemOrBase hc
  rw [builtinKind, builtinKind, hway.chain_eq h hid,
    h.simplesOn_eq fun _ hother => hway.mem_chain hid hother]

theorem simples_eq : s'.simplesOn (s'.chain s'.simpleBase id) =
    s.simplesOn (s.chain s.simpleBase id) := by
  have hway := h.ranges_simpleBase hc
  rw [hway.chain_eq h hid, h.simplesOn_eq fun _ hother => hway.mem_chain hid hother]

theorem enumeration_eq : s'.enumeration id = s.enumeration id := by
  rw [enumeration, enumeration, h.simples_eq hc hid]

theorem range_eq : s'.range id = s.range id := by rw [range, range, h.simples_eq hc hid]

theorem simpleContent_eq : s'.simpleContent id = s.simpleContent id := by
  have hway := h.ranges_complexBase hc
  have hbase : ∀ other ∈ s.base? id, s.HasType other := fun _ hother => hc.base hother
  rw [simpleContent, simpleContent, h.base?_eq hid, hway.walk_eq h hbase]
  exact List.find?_congr fun other hother => by rw [h.simple?_eq (hway.mem_walk hbase hother)]

theorem ancestors_eq : Generator.ancestors s' id = Generator.ancestors s id := by
  have hway := h.ranges_base hc
  have hbase : ∀ other ∈ s.base? id, s.HasType other := fun _ hother => hc.base hother
  rw [Generator.ancestors, Generator.ancestors, h.base?_eq hid, hway.walk_eq h hbase]
  exact takeWhile_congr_of_mem fun other hother => by rw [h.complex?_eq (hway.mem_walk hbase hother)]

end Values

end Widens

theorem Closed.simpleContent (h : s.Closed) {value : TypeId} (hv : s.simpleContent id = some value) :
    s.HasType value :=
  ((Widens.refl s).ranges_complexBase h).mem_walk (fun _ hother => h.base hother)
    (List.mem_of_find?_eq_some hv)

theorem Closed.ancestors (h : s.Closed) {other : TypeId}
    (hother : other ∈ Generator.ancestors s id) : s.HasType other :=
  ((Widens.refl s).ranges_base h).mem_walk (fun _ hother => h.base hother)
    (List.takeWhile_subset _ hother)

namespace Widens

variable (h : s.Widens s') (hc : s.Closed) (hid : s.HasType id)
include h hc hid

theorem inheritsUse_eq (use : UseId) :
    Generator.inheritsUse s' id use = Generator.inheritsUse s id use := by
  rw [Generator.inheritsUse, Generator.inheritsUse, h.ancestors_eq hc hid]
  exact any_congr_of_mem fun other hother => by rw [h.complex?_eq (hc.ancestors hother)]

theorem inheritsElement_eq (name : QName) :
    Generator.inheritsElement s' id name = Generator.inheritsElement s id name := by
  rw [Generator.inheritsElement, Generator.inheritsElement, h.ancestors_eq hc hid]
  refine any_congr_of_mem fun other hother => ?_
  rw [h.complex?_eq (hc.ancestors hother)]
  cases ht : s.complex? other with
  | none => rfl
  | some t =>
    cases hparticle : t.particle with
    | none => simp [hparticle]
    | some p =>
      have helements := hc.complexElements ht
      rw [hparticle, Option.map_some, Option.getD_some] at helements
      simp only [Option.bind_some, hparticle, Option.any_some]
      exact any_congr_of_mem fun e he => by rw [h.element e (helements e he)]

end Widens

end Schema

namespace Substitutes

open Schema

variable {s s' : Schema} (h : s.Widens s') (hc : s.Closed)

theorem hasType_of_namedTypes {id : TypeId} (hid : id ∈ s.namedTypes) : s.HasType id := by
  obtain ⟨i, hi, rfl⟩ := List.mem_map.1 (List.mem_filter.1 hid).1
  obtain ⟨k, hk, rfl⟩ := List.mem_range'.1 hi
  change builtinCount + 1 * k < s.types.size
  omega

theorem hasType_of_canSubstitute {id : TypeId} (hid : canSubstitute s id = true) : s.HasType id :=
  hasType_of_complex (complex_of_canSubstitute hid)

include h in
theorem ascend_widens {way : List TypeId} (hway : ∀ id ∈ way, s.HasType id)
    (table : Table TypeId (List TypeId)) (below : List TypeId) :
    ascend s' table below way = ascend s table below way := by
  induction way generalizing table below with
  | nil => rfl
  | cons id way ih =>
    have hcan : canSubstitute s' id = canSubstitute s id := by
      rw [canSubstitute, canSubstitute, h.complex?_eq (hway id List.mem_cons_self)]
    rw [ascend, ascend, hcan, ih fun other hother => hway other (List.mem_cons_of_mem _ hother)]

include h hc in
theorem sortByDepth_widens {ids : List TypeId} (hids : ∀ id ∈ ids, s.HasType id) :
    sortByDepth s' ids = sortByDepth s ids := by
  have hdepth (id : TypeId) (hid : id ∈ ids) : depth s' id = depth s id := by
    rw [depth, depth, (h.ranges_derivedFrom hc).chain_eq h (hids id hid)]
  have hmap := List.map_mergeSort (f := id) (l := ids)
    (r := fun a b => decide (depth s' a ≤ depth s' b))
    (s := fun a b => decide (depth s a ≤ depth s b)) fun a ha b hb => by
      rw [hdepth a ha, hdepth b hb]; rfl
  rw [List.map_id, List.map_id] at hmap
  exact hmap

include h hc in
/-- The substitutes do not depend on what lies beyond the range. -/
theorem ofSchema_widens : ofSchema s' = ofSchema s := by
  have htable : tableOf s' = tableOf s := by
    rw [tableOf, tableOf, h.namedTypes]
    refine List.foldl_ext _ _ _ fun table id hid => ?_
    have hhas := hasType_of_namedTypes hid
    have hway := h.ranges_parent hc
    rw [hway.chain_eq h hhas, ascend_widens h fun other hother => hway.mem_chain hhas hother]
  have hentries : (tableOf s).entries.map (fun e => (e.1, sortByDepth s' e.2)) =
      (tableOf s).entries.map fun e => (e.1, sortByDepth s e.2) :=
    List.map_congr_left fun e he => by
      rw [sortByDepth_widens h hc fun id hid =>
        hasType_of_canSubstitute (entered_namedTypes s e he id hid)]
  change (⟨⟨(tableOf s').entries.map fun e => (e.1, sortByDepth s' e.2)⟩⟩ : Substitutes) =
    ⟨⟨(tableOf s).entries.map fun e => (e.1, sortByDepth s e.2)⟩⟩
  rw [htable, hentries]

end Substitutes

end SchemaForms
