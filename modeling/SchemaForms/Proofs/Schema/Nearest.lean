import SchemaForms.Proofs.Schema.Chains

/-!
The nearest answer along a chain.  What a type graph is asked about a type is answered by the first
type that can, on the way from this type to its base or its items, from there again, and so on.
Main statement: each query gives that answer, and none if the way ends, or comes to a type again,
before there is one.  The graph may be cyclic in any way.
-/

namespace SchemaForms.Schema

variable {α : Type} {next : TypeId → Option TypeId} {first : TypeId}

/-- A way along a chain, which passes some types and comes to one that it has not passed. -/
inductive Trail (next : TypeId → Option TypeId) (first : TypeId) : List TypeId → TypeId → Prop
  | start : Trail next first [] first
  | step {passed : List TypeId} {t u : TypeId} (h : Trail next first passed t)
      (hnext : next t = some u) (hnew : u ∉ passed ++ [t]) : Trail next first (passed ++ [t]) u

/-- The first answer that a type on the way gives. -/
def FirstOn (next : TypeId → Option TypeId) (first : TypeId) (ask : TypeId → Option α) (a : α) :
    Prop :=
  ∃ passed t, Trail next first passed t ∧ (∀ u ∈ passed, ask u = none) ∧ ask t = some a

/-- No type on the way gives an answer before the way ends or comes to a type again. -/
def NoneOn (next : TypeId → Option TypeId) (first : TypeId) (ask : TypeId → Option α) : Prop :=
  ∃ passed t, Trail next first passed t ∧ (∀ u ∈ passed ++ [t], ask u = none) ∧
    ∀ u, next t = some u → u ∈ passed ++ [t]

/-- What the way answers: the first answer, or that there is none. -/
def Answered (next : TypeId → Option TypeId) (first : TypeId) (ask : TypeId → Option α) :
    Option α → Prop
  | some a => FirstOn next first ask a
  | none => NoneOn next first ask

namespace Trail

variable {passed passed' : List TypeId} {t t' u : TypeId}

theorem not_mem (h : Trail next first passed t) : t ∉ passed := by
  cases h with
  | start => exact List.not_mem_nil
  | step _ _ hnew => exact hnew

theorem first_mem (h : Trail next first passed t) : first ∈ passed ++ [t] := by
  induction h with
  | start => exact List.mem_singleton_self _
  | step _ _ _ ih => exact List.mem_append_left _ ih

/-- From a type that was passed the way went on. -/
theorem next_mem (h : Trail next first passed t) (hmem : u ∈ passed) (hnext : next u = some t') :
    t' ∈ passed ++ [t] := by
  induction h with
  | start => cases hmem
  | step _ hstep _ ih =>
    rcases List.mem_append.1 hmem with hmem | hmem
    · exact List.mem_append_left _ (ih hmem)
    · rw [List.mem_singleton.1 hmem] at hnext
      cases hstep.symm.trans hnext
      exact List.mem_append_right _ (List.mem_singleton_self _)

/-- Of two ways one goes along the other. -/
theorem compare (h : Trail next first passed t) (h' : Trail next first passed' t') :
    t = t' ∨ t ∈ passed' ∨ t' ∈ passed := by
  induction h' with
  | start =>
    rcases List.mem_append.1 h.first_mem with hmem | hmem
    · exact .inr (.inr hmem)
    · exact .inl (List.mem_singleton.1 hmem).symm
  | step _ hnext _ ih =>
    rcases ih with rfl | hmem | hmem
    · exact .inr (.inl (List.mem_append_right _ (List.mem_singleton_self _)))
    · exact .inr (.inl (List.mem_append_left _ hmem))
    · rcases List.mem_append.1 (h.next_mem hmem hnext) with hmem | hmem
      · exact .inr (.inr hmem)
      · exact .inl (List.mem_singleton.1 hmem).symm

/-- A way that cannot go on to a new type has passed all there is. -/
theorem mem_of_closed (h : Trail next first passed t)
    (hclosed : ∀ u, next t = some u → u ∈ passed ++ [t]) (h' : Trail next first passed' t') :
    t' ∈ passed ++ [t] := by
  induction h' with
  | start => exact h.first_mem
  | step _ hnext _ ih =>
    rcases List.mem_append.1 ih with hmem | hmem
    · exact h.next_mem hmem hnext
    · rw [List.mem_singleton.1 hmem] at hnext
      exact hclosed _ hnext

end Trail

theorem FirstOn.unique {ask : TypeId → Option α} {a a' : α} (h : FirstOn next first ask a)
    (h' : FirstOn next first ask a') : a = a' := by
  obtain ⟨passed, t, htrail, hnone, ht⟩ := h
  obtain ⟨passed', t', htrail', hnone', ht'⟩ := h'
  rcases htrail.compare htrail' with rfl | hmem | hmem
  · exact Option.some.inj (ht.symm.trans ht')
  · cases (hnone' t hmem).symm.trans ht
  · cases (hnone t' hmem).symm.trans ht'

theorem NoneOn.not_first {ask : TypeId → Option α} {a : α} (h : NoneOn next first ask) :
    ¬ FirstOn next first ask a := by
  obtain ⟨passed, t, htrail, hnone, hclosed⟩ := h
  rintro ⟨passed', t', htrail', -, ht'⟩
  cases (hnone t' (htrail.mem_of_closed hclosed htrail')).symm.trans ht'

/-! Walks follow the way. -/

/-- What is asked of the types on a walk is answered by the first that can, or by none. -/
theorem findSome?_walk {l : List TypeId} (hnext : ∀ id, (next id).isSome → id ∈ l)
    (ask : TypeId → Option α) {budget : Nat} {visited passed : List TypeId} {t : TypeId}
    (hbudget : unmet l visited < budget) (hvisited : ∀ u, u ∈ visited ↔ u ∈ passed)
    (htrail : Trail next first passed t) (hnone : ∀ u ∈ passed, ask u = none) :
    Answered next first ask ((walk next budget visited (some t)).findSome? ask) := by
  induction budget generalizing visited passed t with
  | zero => exact absurd hbudget (Nat.not_lt_zero _)
  | succ budget ih =>
    have hnew : t ∉ visited := fun hmem => htrail.not_mem ((hvisited t).1 hmem)
    rw [walk, if_neg (by simpa using hnew), List.findSome?_cons]
    cases hask : ask t with
    | some a => exact ⟨passed, t, htrail, hnone, hask⟩
    | none =>
      have hall : ∀ u ∈ passed ++ [t], ask u = none := by
        intro u hu
        rcases List.mem_append.1 hu with hu | hu
        · exact hnone u hu
        · rw [List.mem_singleton.1 hu, hask]
      cases hstep : next t with
      | none =>
        have hnil : walk next budget (t :: visited) none = [] := by cases budget <;> rfl
        rw [hnil]
        exact ⟨passed, t, htrail, hall, fun u hu => by cases hstep.symm.trans hu⟩
      | some u =>
        have hmem (v : TypeId) : v ∈ t :: visited ↔ v ∈ passed ++ [t] := by
          rw [List.mem_cons, hvisited, List.mem_append, List.mem_singleton, or_comm]
        by_cases hu : u ∈ passed ++ [t]
        · have hnil : walk next budget (t :: visited) (some u) = [] := by
            cases budget with
            | zero => rfl
            | succ budget => exact if_pos (List.contains_iff_mem.2 ((hmem u).2 hu))
          rw [hnil]
          exact ⟨passed, t, htrail, hall, fun v hv => by cases hstep.symm.trans hv; exact hu⟩
        · have hless := unmet_cons_lt (hnext t (by rw [hstep]; rfl)) hnew
          exact ih (Nat.lt_of_lt_of_le hless (Nat.le_of_lt_succ hbudget)) hmem
            (htrail.step hstep hu) hall

section Chain

variable {s : Schema} (hnext : next ∈ s.nexts) (id : TypeId) (ask : TypeId → Option α)
include hnext

theorem findSome?_chain : Answered next id ask ((s.chain next id).findSome? ask) := by
  have hle := unmet_le s.typeIds []
  rw [typeIds, List.length_map, List.length_range] at hle
  exact findSome?_walk (fun _ => mem_typeIds hnext) ask (Nat.lt_succ_of_le hle)
    (fun _ => Iff.rfl) .start fun _ hu => absurd hu List.not_mem_nil

theorem findSome?_chain_eq_some_iff {a : α} :
    (s.chain next id).findSome? ask = some a ↔ FirstOn next id ask a := by
  have hchain := findSome?_chain hnext id ask
  constructor
  · intro h
    rwa [h] at hchain
  · intro h
    cases hfound : (s.chain next id).findSome? ask with
    | some b =>
      rw [hfound] at hchain
      rw [hchain.unique h]
    | none =>
      rw [hfound] at hchain
      exact absurd h hchain.not_first

theorem findSome?_chain_eq_none_iff :
    (s.chain next id).findSome? ask = none ↔ NoneOn next id ask := by
  have hchain := findSome?_chain hnext id ask
  constructor
  · intro h
    rwa [h] at hchain
  · intro h
    cases hfound : (s.chain next id).findSome? ask with
    | some a =>
      rw [hfound] at hchain
      exact absurd hchain h.not_first
    | none => rfl

end Chain

/-! What types are asked. -/

/-- The values that a simple type lists itself, if it lists any. -/
def listed (t : SimpleType) : Option (List String) :=
  Option.guard (· ≠ []) t.facets.enumeration

/-- What a type says if it is simple. -/
def ofSimple (s : Schema) (f : SimpleType → Option α) (id : TypeId) : Option α :=
  (s.simple? id).bind f

/-- The type itself, if it is simple. -/
def asSimple (s : Schema) (id : TypeId) : Option TypeId :=
  Option.guard (fun t => (s.simple? t).isSome) id

variable (s : Schema) (id : TypeId)

theorem findSome?_simplesOn (ids : List TypeId) (f : SimpleType → Option α) :
    (s.simplesOn ids).findSome? f = ids.findSome? (s.ofSimple f) := by
  rw [simplesOn, ← List.head?_filterMap, List.filterMap_filterMap, List.head?_filterMap]
  rfl

theorem enumeration_eq :
    s.enumeration id = ((s.chain s.simpleBase id).findSome? (s.ofSimple listed)).getD [] := by
  rw [enumeration, List.find?_eq_findSome?_guard, List.findSome?_map, findSome?_simplesOn]
  rfl

theorem range_eq {low high : Option String}
    (hlow : (s.chain s.simpleBase id).findSome? (s.ofSimple (·.facets.minInclusive)) = low)
    (hhigh : (s.chain s.simpleBase id).findSome? (s.ofSimple (·.facets.maxInclusive)) = high) :
    s.range id = low.bind fun l => high.map fun h => (l, h) := by
  simp only [range, List.findSome?_map, Function.comp_def, findSome?_simplesOn, hlow, hhigh]
  cases low <;> cases high <;> rfl

/-- A complex type is not simple, so the first simple type on its chain lies below its base. -/
theorem simpleContent_eq (hcomplex : (s.complex? id).isSome) :
    s.simpleContent id = (s.chain s.complexBase id).findSome? s.asSimple := by
  obtain ⟨c, hc⟩ := Option.isSome_iff_exists.1 hcomplex
  have hdef : s.typeDef id = .complex c := by
    cases hdef : s.typeDef id <;> simp_all [complex?, TypeDef.complex?]
  have hsimple : s.simple? id = none := by rw [simple?, hdef]; rfl
  have hbase : s.base? id = s.complexBase id := by rw [base?, complexBase, hc, hdef]; rfl
  have hself : s.asSimple id = none := by simp [asSimple, hsimple]
  have hchain : s.chain s.complexBase id =
      id :: walk s.complexBase s.types.size [id] (s.complexBase id) := by simp [chain, walk]
  rw [hchain, List.findSome?_cons, hself, simpleContent, hbase, List.find?_eq_findSome?_guard]
  cases hnext : s.complexBase id with
  | none =>
    have hnil (budget : Nat) : walk s.complexBase budget [id] none = [] := by
      cases budget <;> rfl
    rw [hnil, hnil]
    rfl
  | some base =>
    have hknown : s.complexBase ∈ s.nexts := by simp [nexts]
    have hmem : id ∈ s.typeIds := mem_typeIds hknown (by rw [hnext]; rfl)
    have hless := unmet_cons_lt hmem List.not_mem_nil
    have hle := unmet_le s.typeIds []
    rw [typeIds, List.length_map, List.length_range] at hle
    have hbudget := Nat.lt_of_lt_of_le hless hle
    rw [walk_eq (fun _ => mem_typeIds hknown) (Nat.lt_succ_of_lt hbudget) hbudget]
    rfl

/-- Each query gives what the nearest type on the way says, or nothing if the way ends or comes to a
type again before: the values that a type lists, along the bases of simple types; the least and the
greatest value, both along the bases of simple types; the built-in type, along the items of lists and
the bases of others, or its items if it is a list itself; and, for a complex type, the simple type
below its bases. -/
theorem queries_answered :
    (∀ values, s.enumeration id = values ↔
      FirstOn s.simpleBase id (s.ofSimple listed) values ∨
        NoneOn s.simpleBase id (s.ofSimple listed) ∧ values = []) ∧
    (∀ low high, s.range id = some (low, high) ↔
      FirstOn s.simpleBase id (s.ofSimple (·.facets.minInclusive)) low ∧
        FirstOn s.simpleBase id (s.ofSimple (·.facets.maxInclusive)) high) ∧
    (s.range id = none ↔
      NoneOn s.simpleBase id (s.ofSimple (·.facets.minInclusive)) ∨
        NoneOn s.simpleBase id (s.ofSimple (·.facets.maxInclusive))) ∧
    (∀ kind, s.builtinKind id = some kind ↔
      ∃ b, FirstOn s.itemOrBase id (s.ofSimple (·.builtin)) b ∧ b.item?.getD b = kind) ∧
    (s.builtinKind id = none ↔ NoneOn s.itemOrBase id (s.ofSimple (·.builtin))) ∧
    ((s.complex? id).isSome →
      (∀ t, s.simpleContent id = some t ↔ FirstOn s.complexBase id s.asSimple t) ∧
      (s.simpleContent id = none ↔ NoneOn s.complexBase id s.asSimple)) := by
  have hsimple : s.simpleBase ∈ s.nexts := by simp [nexts]
  have hitem : s.itemOrBase ∈ s.nexts := by simp [nexts]
  have hcomplex : s.complexBase ∈ s.nexts := by simp [nexts]
  simp only [← findSome?_chain_eq_some_iff hsimple, ← findSome?_chain_eq_none_iff hsimple,
    ← findSome?_chain_eq_some_iff hitem, ← findSome?_chain_eq_none_iff hitem,
    ← findSome?_chain_eq_some_iff hcomplex, ← findSome?_chain_eq_none_iff hcomplex]
  generalize hlow : (s.chain s.simpleBase id).findSome? (s.ofSimple (·.facets.minInclusive)) = low
  generalize hhigh : (s.chain s.simpleBase id).findSome? (s.ofSimple (·.facets.maxInclusive)) = high
  have hrange := range_eq s id hlow hhigh
  refine ⟨fun values => ?_, fun l h => ?_, ?_, fun kind => ?_, ?_, fun h => ?_⟩
  · rw [enumeration_eq]
    cases (s.chain s.simpleBase id).findSome? (s.ofSimple listed) <;> simp [eq_comm]
  · rw [hrange]
    cases low <;> cases high <;> simp
  · rw [hrange]
    cases low <;> cases high <;> simp
  · rw [builtinKind, findSome?_simplesOn, Option.map_eq_some_iff]
  · rw [builtinKind, findSome?_simplesOn, Option.map_eq_none_iff]
  · rw [simpleContent_eq s id h]
    exact ⟨fun _ => Iff.rfl, Iff.rfl⟩

/-- A schema with two simple types that are each the base of the other, a complex type above them, and
a complex type that is its own base. -/
def winding : Schema where
  target := none
  types := #[.any, .complex { base := some ⟨2⟩ }, .complex { base := some ⟨3⟩ },
    .simple { base := some ⟨4⟩, facets := { minInclusive := some "1" } },
    .simple { base := some ⟨3⟩, facets := { minInclusive := some "0", maxInclusive := some "9" } },
    .complex { base := some ⟨5⟩ }]
  elements := #[]
  uses := #[]
  typeNames := .empty
  elementNames := .empty

theorem queries_answered_winding :
    ((winding.complex? ⟨1⟩).isSome ∧ FirstOn winding.complexBase ⟨1⟩ winding.asSimple ⟨3⟩) ∧
    ((winding.complex? ⟨5⟩).isSome ∧ NoneOn winding.complexBase ⟨5⟩ winding.asSimple) ∧
    FirstOn winding.simpleBase ⟨3⟩ (winding.ofSimple (·.facets.minInclusive)) "1" ∧
    FirstOn winding.simpleBase ⟨3⟩ (winding.ofSimple (·.facets.maxInclusive)) "9" ∧
    NoneOn winding.itemOrBase ⟨3⟩ (winding.ofSimple (·.builtin)) := by
  obtain ⟨-, -, -, -, -, hcontent⟩ := queries_answered winding ⟨1⟩
  obtain ⟨-, -, -, -, -, hloop⟩ := queries_answered winding ⟨5⟩
  obtain ⟨-, hrange, -, -, hkind, -⟩ := queries_answered winding ⟨3⟩
  have hbounds : winding.range ⟨3⟩ = some ("1", "9") := by decide +kernel
  obtain ⟨hlow, hhigh⟩ := (hrange "1" "9").1 hbounds
  exact ⟨⟨rfl, ((hcontent rfl).1 ⟨3⟩).1 (by decide +kernel)⟩,
    ⟨rfl, (hloop rfl).2.1 (by decide +kernel)⟩, hlow, hhigh, hkind.1 (by decide +kernel)⟩

end SchemaForms.Schema
