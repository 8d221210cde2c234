import Mathlib.Data.List.TakeWhile
import SchemaForms.Proofs.Schema.Descent
import SchemaForms.Proofs.Schema.Loaded

/-!
The hierarchy of a loaded graph.  The substitutes of a complex type are just the named non-abstract
extensions derived from it, each once; a type comes behind those that it is derived from, and types
of one depth come in the order in which the ways up from the named types come to them.
-/

namespace SchemaForms

open Relation (TransGen ReflTransGen)

namespace Substitutes

open Schema

variable {s : Schema} {t u : TypeId}

/-! What one way up adds to the list of a type. -/

theorem addNew_append (known xs ys : List TypeId) :
    addNew known (xs ++ ys) = addNew (addNew known xs) ys := by
  induction xs generalizing known with
  | nil => rfl
  | cons x xs ih => exact ih _

/-- What is new comes behind what is known, each entry where it comes first. -/
theorem addNew_eq (known ids : List TypeId) :
    addNew known ids = known ++ (ids.filter fun id => !known.contains id).eraseDups := by
  induction ids generalizing known with
  | nil => simp [addNew]
  | cons id ids ih =>
    rw [addNew, ih]
    by_cases hid : known.contains id = true
    · rw [if_pos hid, List.filter_cons_of_neg (by rw [hid]; simp)]
    · rw [if_neg hid, List.filter_cons_of_pos (by simpa using hid), List.eraseDups_cons,
        List.filter_filter, List.append_assoc, List.singleton_append]
      refine congrArg (fun rest => known ++ id :: List.eraseDups rest) (List.filter_congr ?_)
      intro x _
      rw [List.contains_append, Bool.not_or, Bool.and_comm, List.contains_cons, List.contains_nil,
        Bool.or_false]

/-- The types that can stand in for others, on a way up as far as a type. -/
def below (s : Schema) (t : TypeId) (way : List TypeId) : List TypeId :=
  (way.takeWhile (· ≠ t)).filter (canSubstitute s)

/-- What the way up from a named type finds for a type on it: the substitutes that it came by. -/
def findings (s : Schema) (t n : TypeId) : List TypeId :=
  if t ∈ s.chain (parent s) n then below s t (s.chain (parent s) n) else []

/-- The substitutes of a type in the order in which they are found first. -/
def discovered (s : Schema) (t : TypeId) : List TypeId :=
  (s.namedTypes.flatMap (findings s t)).eraseDups

/-- A way that meets no type twice adds to a type on it what it has come by before. -/
theorem get?_ascend {table : Table TypeId (List TypeId)} {seen way : List TypeId}
    (hway : way.Nodup) : ((ascend s table seen way).get? t).getD [] =
      if t ∈ way then addNew ((table.get? t).getD []) (seen ++ below s t way)
      else (table.get? t).getD [] := by
  induction way generalizing table seen with
  | nil => rfl
  | cons id way ih =>
    obtain ⟨hid, hway⟩ := List.nodup_cons.1 hway
    let table' := if seen.isEmpty then table else
      table.put id (addNew ((table.get? id).getD []) seen)
    have htable : (table'.get? t).getD [] =
        if id = t then addNew ((table.get? t).getD []) seen else (table.get? t).getD [] := by
      by_cases hempty : seen = []
      · simp [table', hempty, addNew]
      · have hput : table' = table.put id (addNew ((table.get? id).getD []) seen) := by
          simp [table', hempty]
        rw [hput, Table.get?_put]
        split
        · next he => rw [he, Option.getD_some]
        · rfl
    change ((ascend s table' _ way).get? t).getD [] = _
    rw [ih hway, htable]
    by_cases he : id = t
    · subst he
      simp [hid, below]
    · simp only [he, if_false, List.mem_cons, Ne.symm he, false_or]
      refine if_congr Iff.rfl ?_ rfl
      by_cases hcan : canSubstitute s id = true
      · simp [below, he, hcan]
      · simp [below, he, hcan]

/-- The list of a type before it is sorted. -/
theorem get?_tableOf (s : Schema) (t : TypeId) :
    ((tableOf s).get? t).getD [] = discovered s t := by
  have hfold : ∀ (ids : List TypeId) (table : Table TypeId (List TypeId)),
      ((ids.foldl (fun table id => ascend s table [] (s.chain (parent s) id)) table).get? t).getD
        [] = addNew ((table.get? t).getD []) (ids.flatMap (findings s t)) := by
    intro ids
    induction ids with
    | nil => exact fun _ => rfl
    | cons n ids ih =>
      intro table
      have hway : (s.chain (parent s) n).Nodup := nodup_walk _ _ _ _
      rw [List.foldl_cons, ih, get?_ascend hway, List.flatMap_cons, findings]
      by_cases hmem : t ∈ s.chain (parent s) n
      · rw [if_pos hmem, if_pos hmem, List.nil_append, addNew_append]
      · rw [if_neg hmem, if_neg hmem, List.nil_append]
  rw [tableOf, hfold, addNew_eq]
  simp [Table.empty, Table.get?, Table.find, discovered]

/-- No type is among those found for itself. -/
theorem not_mem_discovered (s : Schema) (t : TypeId) : t ∉ discovered s t := by
  intro h
  obtain ⟨n, -, hn⟩ := List.mem_flatMap.1 (List.mem_eraseDups.1 h)
  rw [findings] at hn
  split at hn
  · have htaken := List.mem_takeWhile_imp (List.mem_filter.1 hn).1
    simp at htaken
  · cases hn

theorem not_mem_of_self (s : Schema) (t : TypeId) : t ∉ (ofSchema s).of t := by
  rw [of_ofSchema, sortByDepth, List.mem_mergeSort, get?_tableOf]
  exact not_mem_discovered s t

/-- Types of one depth keep their order. -/
theorem filter_sortByDepth (s : Schema) (ids : List TypeId) (n : Nat) :
    (sortByDepth s ids).filter (fun t => depth s t = n) = ids.filter fun t => depth s t = n := by
  have hsub : (ids.filter fun t => depth s t = n).Sublist (sortByDepth s ids) := by
    refine List.sublist_mergeSort (fun a b c hab hbc => ?_) (fun a b => ?_) ?_
      List.filter_sublist
    · simp only [decide_eq_true_eq] at hab hbc ⊢
      omega
    · simp only [Bool.or_eq_true, decide_eq_true_eq]
      omega
    · refine List.pairwise_of_forall_mem_list fun a ha b hb => ?_
      have ha := of_decide_eq_true (List.mem_filter.1 ha).2
      have hb := of_decide_eq_true (List.mem_filter.1 hb).2
      simp [ha, hb]
  have hfilter := hsub.filter fun t => decide (depth s t = n)
  rw [List.filter_filter] at hfilter
  simp only [Bool.and_self] at hfilter
  refine (hfilter.eq_of_length ?_).symm
  exact ((List.mergeSort_perm ids _).filter _).length_eq.symm

/-! What loading gives. -/

/-- Each base is named, and not the root of all types where it is complex. -/
theorem deriving_of_grounded (h : s.Grounded) : Deriving s := by
  intro a b c hc hbase hb
  have hb0 : b ≠ anyType := by
    rintro rfl
    rw [complex?, h.root] at hb
    cases hb
  have hdef : s.typeDef a = .complex c := by
    unfold complex? at hc
    cases hdef : s.typeDef a with
    | any => simp [hdef, TypeDef.complex?] at hc
    | simple _ => simp [hdef, TypeDef.complex?] at hc
    | complex c' => simpa [hdef, TypeDef.complex?] using hc
  have hfits := h.fits _ (typeDef_mem (hasType_of_complex (by rw [hc]; rfl)))
  exact ⟨fun hnone => hb0 ((hfits.rests c b hdef hbase).2 hnone), hb0⟩

theorem named_of_parent (h : s.Grounded) {a b : TypeId} (ha : (s.complex? a).isSome)
    (hab : parent s a = some b) : (s.typeDef b).name?.isSome := by
  have hbase := parent_base? hab
  have hfits := h.fits _ (typeDef_mem (hasType_of_complex ha))
  unfold complex? at ha
  unfold base? at hbase
  cases hdef : s.typeDef a with
  | any => simp [hdef, TypeDef.complex?] at ha
  | simple _ => simp [hdef, TypeDef.complex?] at ha
  | complex c => exact (hfits.rests c b hdef (by simpa [hdef, TypeDef.base?] using hbase)).1

theorem mem_namedTypes (h : s.Grounded) (ht : (s.complex? t).isSome)
    (hname : (s.typeDef t).name?.isSome) : t ∈ s.namedTypes := by
  obtain ⟨i⟩ := t
  have hlow : builtinCount ≤ i := h.own ⟨i⟩ ht
  have hhigh : i < s.types.size := hasType_of_complex ht
  refine List.mem_filter.2 ⟨List.mem_map.2 ⟨i, List.mem_range'.2 ⟨i - builtinCount, ?_, ?_⟩, rfl⟩,
    hname⟩
  · omega
  · omega

theorem above_iff_derives (h : s.Grounded) (hu : (s.complex? u).isSome)
    (ht : (s.complex? t).isSome) : Above s u t ↔ s.Derives u t := by
  constructor
  · intro habove
    induction habove using TransGen.head_induction_on with
    | single hut => exact .single ⟨(complexBase_of_isSome hu).trans (parent_base? hut), ht⟩
    | @head a b hab hbt ih =>
      obtain ⟨c, hbc, -⟩ := TransGen.head'_iff.1 hbt
      have hb : (s.complex? b).isSome := complex_of_category
        ((parent_category hab).trans (category_of_complex hu)) (parent_base? hbc)
      exact TransGen.head ⟨(complexBase_of_isSome hu).trans (parent_base? hab), hb⟩ (ih hb)
  · refine fun hd => TransGen.mono (fun a b hab => ?_) _ _ hd
    obtain ⟨hbase, hb⟩ := hab
    obtain ⟨c, hc, hcbase⟩ := Option.bind_eq_some_iff.1 hbase
    have hb0 := (deriving_of_grounded h a b c hc hcbase hb).2
    have hsame : s.category b = s.category a := by
      rw [category_of_complex hb, category_of_complex (by rw [hc]; rfl)]
    rw [Leads, parent, base?_of_complexBase hbase]
    simp [hb0, hsame]

/-- A way up from a named type meets named types only. -/
theorem named_of_way (h : s.Grounded) {n : TypeId} (hn : (s.typeDef n).name?.isSome)
    (hu : (s.complex? u).isSome) (hway : ReflTransGen (Leads (parent s)) n u) :
    (s.typeDef u).name?.isSome := by
  rcases ReflTransGen.cases_tail hway with rfl | ⟨a, -, hau⟩
  · exact hn
  · refine named_of_parent h (complex_of_category ?_ (parent_base? hau)) hau
    rw [← parent_category hau, category_of_complex hu]

theorem mem_iff_derives (h : s.Grounded) (hs : s.Acyclic) (ht : (s.complex? t).isSome) :
    u ∈ (ofSchema s).of t ↔ (s.typeDef u).name?.isSome ∧ canSubstitute s u = true ∧
      s.Derives u t := by
  rw [mem_of_ofSchema hs]
  constructor
  · rintro ⟨hcan, habove, n, hn, hway⟩
    have hu := complex_of_canSubstitute hcan
    exact ⟨named_of_way h (List.mem_filter.1 hn).2 hu hway, hcan,
      (above_iff_derives h hu ht).1 habove⟩
  · rintro ⟨hname, hcan, hd⟩
    have hu := complex_of_canSubstitute hcan
    exact ⟨hcan, (above_iff_derives h hu ht).2 hd, u, mem_namedTypes h hu hname, .refl⟩

theorem canSubstitute_iff : canSubstitute s u = true ↔
    ∃ c, s.complex? u = some c ∧ c.derivation = .extension ∧ c.isAbstract = false := by
  unfold canSubstitute
  cases hc : s.complex? u with
  | none => simp
  | some c => simp

/-- The types above a type are its base and the types above that. -/
theorem ancestors_of_base (hs : s.Acyclic) {a b : TypeId} (hab : s.complexBase a = some b)
    (hb : (s.complex? b).isSome) :
    Generator.ancestors s a = b :: Generator.ancestors s b := by
  have hup : s.Upward s.base? := hs.upward fun _ _ h => h
  rw [Generator.ancestors, Generator.ancestors, hup.walk_eq_chain, hup.walk_eq_chain,
    base?_of_complexBase hab, Option.elim_some, hup.chain_eq, List.takeWhile_cons, if_pos hb]

theorem ancestors_of_top (hs : s.Acyclic) {a : TypeId} (ha : (s.complex? a).isSome)
    (htop : ∀ b, s.complexBase a = some b → ¬ (s.complex? b).isSome) :
    Generator.ancestors s a = [] := by
  refine List.eq_nil_iff_forall_not_mem.2 fun b hb => ?_
  rw [mem_ancestors hs ha] at hb
  obtain ⟨c, hc, -⟩ := TransGen.head'_iff.1 hb
  exact htop c hc.1 hc.2

/-- The depth of a complex type is the number of complex types above it. -/
theorem depth_eq (h : s.Grounded) (hs : s.Acyclic) (ht : (s.complex? t).isSome) :
    depth s t = (Generator.ancestors s t).length := by
  have hup : s.Upward s.complexBase := hs.upward fun _ _ h => base?_of_complexBase h
  induction t using hup.induction with
  | step a ih =>
    by_cases htop : ∃ b, s.complexBase a = some b ∧ (s.complex? b).isSome
    · obtain ⟨b, hab, hb⟩ := htop
      rw [depth_of_base hs (deriving_of_grounded h) hab hb, ancestors_of_base hs hab hb,
        ih b hab hb, List.length_cons]
    · have hnone : derivedFrom s a = none := by
        cases hstep : derivedFrom s a with
        | none => rfl
        | some b => exact absurd ⟨b, complex_of_derivedFrom hstep⟩ htop
      rw [ancestors_of_top hs ht fun b hab hb => htop ⟨b, hab, hb⟩, depth,
        (upward_derivedFrom hs).chain_eq, hnone]
      rfl

theorem name?_of_complex {c : ComplexType} (hc : s.complex? t = some c) :
    (s.typeDef t).name? = c.name := by
  unfold complex? at hc
  cases hdef : s.typeDef t with
  | any => simp [hdef, TypeDef.complex?] at hc
  | simple _ => simp [hdef, TypeDef.complex?] at hc
  | complex c' =>
    rw [hdef] at hc
    rw [Option.some.inj hc]
    rfl

/-- The budget of a chain is never used up, on cyclic chains either. -/
theorem walk_up_budget {next : TypeId → Option TypeId}
    (hnext : ∀ a b, next a = some b → s.base? a = some b) (extra : Nat) (visited : List TypeId)
    (current : Option TypeId) : walk next (s.types.size + 1 + extra) visited current =
      walk next (s.types.size + 1) visited current := by
  have hle := unmet_le s.typeIds visited
  rw [typeIds, List.length_map, List.length_range, ← typeIds] at hle
  refine walk_eq (l := s.typeIds) (fun id hid => ?_) (by omega) (by omega) current
  obtain ⟨b, hb⟩ := Option.isSome_iff_exists.1 hid
  have hbase : s.base? ∈ s.nexts := List.mem_cons_self ..
  exact mem_typeIds hbase (by rw [hnext id b hb]; rfl)

/-- The substitutes of the types of a loaded schema.  Without cycles they are, each once, the named
non-abstract extensions that are derived from the type; none comes before one that it is derived
from, and those of one depth come in the order of their discovery.  With cycles every way up ends
too, before its budget does, and no type is a substitute of itself. -/
theorem substitutes_of_loaded {document : Option Xml.Element} {s : Schema}
    (h : Schema.ofDocument document = .ok s) :
    (s.Acyclic → ∀ b, (s.complex? b).isSome →
      ((ofSchema s).of b).Nodup ∧
      (∀ t, t ∈ (ofSchema s).of b ↔
        ∃ c, s.complex? t = some c ∧ c.name.isSome ∧ c.isAbstract = false ∧
          c.derivation = .extension ∧ s.Derives t b) ∧
      (∀ t, (s.complex? t).isSome → (s.Derives t b ↔ b ∈ Generator.ancestors s t)) ∧
      ((ofSchema s).of b).Pairwise (fun t u => ¬ s.Derives t u) ∧
      (∀ n, ((ofSchema s).of b).filter (fun t => depth s t = n) =
        (discovered s b).filter fun t => depth s t = n) ∧
      depth s b = (Generator.ancestors s b).length) ∧
    (∀ t, t ∉ (ofSchema s).of t) ∧
    ∀ next ∈ [parent s, derivedFrom s, s.base?], ∀ extra visited current,
      walk next (s.types.size + 1 + extra) visited current =
        walk next (s.types.size + 1) visited current := by
  have hgrounded : s.Grounded := Loader.grounded_of_document h
  refine ⟨fun hs b hb => ⟨nodup_of s b, fun t => ?_, fun t ht => (mem_ancestors hs ht).symm, ?_,
    fun n => ?_, depth_eq hgrounded hs hb⟩, not_mem_of_self s, ?_⟩
  · rw [mem_iff_derives hgrounded hs hb, canSubstitute_iff]
    constructor
    · rintro ⟨hname, ⟨c, hc, hx, habstract⟩, hd⟩
      exact ⟨c, hc, name?_of_complex hc ▸ hname, habstract, hx, hd⟩
    · rintro ⟨c, hc, hname, habstract, hx, hd⟩
      exact ⟨(name?_of_complex hc).symm ▸ hname, ⟨c, hc, hx, habstract⟩, hd⟩
  · exact (sorted_of s b).imp fun hle hd =>
      Nat.not_lt.2 hle (depth_lt hs (deriving_of_grounded hgrounded) hd)
  · rw [of_ofSchema, filter_sortByDepth, get?_tableOf]
  · intro next hnext
    simp only [List.mem_cons, List.not_mem_nil, or_false] at hnext
    rcases hnext with rfl | rfl | rfl
    · exact walk_up_budget fun _ _ => parent_base?
    · exact walk_up_budget fun _ _ => derivedFrom_base?
    · exact walk_up_budget fun _ _ h => h

/-- A type derived from a base by a method. -/
def derivedType (name method base abstract : String) : Xml.Element :=
  Loader.xsd "complexType" [("name", name), ("abstract", abstract)] [
    Loader.xsd "complexContent" [] [Loader.xsd method [("base", base)] []]]

/-- A restriction `R` and an abstract extension `A` of a type `B`, extensions `E` and `F` of these,
and an extension `G` of `B`. -/
def mixedHierarchy : Xml.Element :=
  Loader.xsd "schema" [] [
    Loader.xsd "complexType" [("name", "B")] [],
    derivedType "R" "restriction" "B" "false",
    derivedType "E" "extension" "R" "false",
    derivedType "A" "extension" "B" "true",
    derivedType "F" "extension" "A" "false",
    derivedType "G" "extension" "B" "false"]

theorem acyclic_of_lt (h : ∀ a b, s.base? a = some b → b.index < a.index) : s.Acyclic := by
  have hlt : ∀ {a b : TypeId}, TransGen (Leads s.base?) a b → b.index < a.index := by
    intro a b hab
    induction hab with
    | single hab => exact h _ _ hab
    | tail _ hbc ih => exact Nat.lt_trans (h _ _ hbc) ih
  exact fun t ht => Nat.lt_irrefl _ (hlt ht)

set_option maxRecDepth 100000 in
theorem substitutes_of_loaded_mixed : ∃ s, Schema.ofDocument (some mixedHierarchy) = .ok s ∧
    s.Acyclic ∧ (s.complex? ⟨46⟩).isSome ∧ (ofSchema s).of ⟨46⟩ = [⟨51⟩, ⟨48⟩, ⟨50⟩] ∧
    ((ofSchema s).of ⟨46⟩).Nodup ∧
    (∀ t, t ∈ (ofSchema s).of ⟨46⟩ ↔
      ∃ c, s.complex? t = some c ∧ c.name.isSome ∧ c.isAbstract = false ∧
        c.derivation = .extension ∧ s.Derives t ⟨46⟩) ∧
    ((ofSchema s).of ⟨46⟩).Pairwise (fun t u => ¬ s.Derives t u) ∧
    ∀ n, ((ofSchema s).of ⟨46⟩).filter (fun t => depth s t = n) =
      (discovered s ⟨46⟩).filter fun t => depth s t = n := by
  have hload : ((Schema.ofDocument (some mixedHierarchy)).toOption.bind fun s =>
      some (((List.range s.types.size).all fun i => (s.base? ⟨i⟩).all (·.index < i)) &&
        (s.complex? ⟨46⟩).isSome, discovered s ⟨46⟩,
        depth s ⟨48⟩, depth s ⟨50⟩, depth s ⟨51⟩)) =
      some (true, [⟨48⟩, ⟨50⟩, ⟨51⟩], 2, 2, 1) := by
    decide +kernel
  obtain ⟨s, hs, hfacts⟩ := Loader.exists_ok hload
  simp only [Option.some.injEq, Prod.mk.injEq, Bool.and_eq_true, List.all_eq_true,
    List.mem_range] at hfacts
  obtain ⟨⟨hdown, hcomplex⟩, hfound, hE, hF, hG⟩ := hfacts
  have hacyclic : s.Acyclic := acyclic_of_lt fun a b hab => by
    have ha : a.index < s.types.size := Nat.lt_of_not_le fun hn => by
      simp [base?, typeDef_of_not_hasType (Nat.not_lt.2 hn), TypeDef.base?] at hab
    simpa [hab] using hdown a.index ha
  have hof : (ofSchema s).of ⟨46⟩ = [⟨51⟩, ⟨48⟩, ⟨50⟩] := by
    rw [of_ofSchema, get?_tableOf, hfound, sortByDepth]
    simp [List.mergeSort, hE, hF, hG]
  obtain ⟨hnodup, hmem, -, hpairwise, horder, -⟩ :=
    (substitutes_of_loaded hs).1 hacyclic ⟨46⟩ hcomplex
  exact ⟨s, hs, hacyclic, hcomplex, hof, hnodup, hmem, hpairwise, horder⟩

end Substitutes

end SchemaForms
