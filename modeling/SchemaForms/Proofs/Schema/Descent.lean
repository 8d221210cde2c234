import Mathlib.Data.List.Nodup
import Mathlib.Logic.Relation
import SchemaForms.Proofs.Form.Openings
import SchemaForms.Proofs.Schema.Substituting

/-!
Descent: which types are derived from which.  Where no type is derived from itself, the substitutes
of a type are just the non-abstract extensions that come from it and lead to a named type, and the
types that an element may have are in an order in which no type comes before one that it is derived
from.
-/

namespace SchemaForms

open Relation (TransGen ReflTransGen)

namespace Schema

variable {s : Schema} {next : TypeId → Option TypeId} {a b c : TypeId}

/-- One type leads to another one. -/
def Leads (next : TypeId → Option TypeId) (a b : TypeId) : Prop := next a = some b

/-- No type is its own base, or that of its base, and so on. -/
def Acyclic (s : Schema) : Prop := ∀ t, ¬ TransGen (Leads s.base?) t t

/-- A complex type is derived from another one, directly or through others. -/
def Derives (s : Schema) : TypeId → TypeId → Prop :=
  TransGen fun a b => s.complexBase a = some b ∧ (s.complex? b).isSome

/-- A way up the base chains that comes to no type again. -/
structure Upward (s : Schema) (next : TypeId → Option TypeId) : Prop where
  base : ∀ a b, next a = some b → s.base? a = some b
  acyclic : s.Acyclic

namespace Upward

theorem irrefl (h : s.Upward next) (ha : TransGen (Leads next) a a) : False :=
  h.acyclic a (TransGen.mono (fun x y hxy => h.base x y hxy) _ _ ha)

/-- What cannot be met need not be known as visited. -/
theorem walk_visited (h : s.Upward next) {budget : Nat} {visited : List TypeId}
    {current : Option TypeId}
    (hvisited : ∀ t ∈ current, ∀ v ∈ visited, ¬ ReflTransGen (Leads next) t v) :
    walk next budget visited current = walk next budget [] current := by
  induction budget generalizing visited current with
  | zero => rfl
  | succ budget ih =>
    cases current with
    | none => rfl
    | some c =>
      have hc : c ∉ visited := fun hm => hvisited c rfl c hm .refl
      have hself {t : TypeId} (ht : next c = some t) : ¬ ReflTransGen (Leads next) t c :=
        fun hr => h.irrefl (TransGen.head' ht hr)
      have hfresh : walk next budget [c] (next c) = walk next budget [] (next c) :=
        ih fun t ht v hv => List.mem_singleton.1 hv ▸ hself ht
      have hall : walk next budget (c :: visited) (next c) = walk next budget [] (next c) := by
        refine ih fun t ht v hv => ?_
        rcases List.mem_cons.1 hv with rfl | hv
        · exact hself ht
        · exact fun hr => hvisited c rfl v hv (ReflTransGen.head ht hr)
      simp [walk, hc, hall, hfresh]

/-- The walk that starts at what comes behind a type. -/
theorem walk_eq_chain (h : s.Upward next) :
    walk next (s.types.size + 1) [a] (next a) = (next a).elim [] (s.chain next) := by
  rw [h.walk_visited]
  · cases next a with
    | none => rfl
    | some b => rfl
  · intro t ht v hv
    rw [List.mem_singleton.1 hv]
    exact fun hr => h.irrefl (TransGen.head' ht hr)

/-- A chain goes on with the chain of what comes behind its first type. -/
theorem chain_eq (h : s.Upward next) : s.chain next a = a :: (next a).elim [] (s.chain next) := by
  have hnext (id : TypeId) (hid : (next id).isSome) : id ∈ s.typeIds := by
    obtain ⟨b, hb⟩ := Option.isSome_iff_exists.1 hid
    have hbase : s.base? ∈ s.nexts := List.mem_cons_self ..
    exact mem_typeIds hbase (by rw [h.base id b hb]; rfl)
  have hfirst : s.chain next a = a :: walk next s.types.size [a] (next a) := by
    simp [chain, walk]
  rw [hfirst, ← h.walk_eq_chain]
  congr 1
  cases hstep : next a with
  | none =>
    cases s.types.size <;> rfl
  | some b =>
    have hmem : a ∈ s.typeIds := hnext a (by rw [hstep]; rfl)
    have hless : unmet s.typeIds [a] < unmet s.typeIds [] :=
      unmet_cons_lt hmem List.not_mem_nil
    have hle := unmet_le s.typeIds []
    rw [typeIds, List.length_map, List.length_range, ← typeIds] at hle
    exact walk_eq hnext (by omega) (by omega) _

/-- What holds of the ends of chains, and of a type when it holds of the next one, holds of all. -/
theorem induction (h : s.Upward next) {motive : TypeId → Prop}
    (step : ∀ a, (∀ b, next a = some b → motive b) → motive a) (a : TypeId) : motive a := by
  have hall : ∀ n a, (s.chain next a).length ≤ n → motive a := by
    intro n
    induction n with
    | zero =>
      intro a ha
      rw [h.chain_eq] at ha
      cases ha
    | succ n ih =>
      intro a ha
      refine step a fun b hb => ih b ?_
      rw [h.chain_eq, hb] at ha
      exact Nat.le_of_succ_le_succ ha
  exact hall _ a (Nat.le_refl _)

/-- Where a test holds from a type on, up to another one. -/
theorem mem_takeWhile_chain (h : s.Upward next) {p : TypeId → Bool} :
    b ∈ (s.chain next a).takeWhile p ↔
      p a = true ∧ ReflTransGen (fun x y => next x = some y ∧ p y = true) a b := by
  induction a using h.induction with
  | step a ih =>
    rw [h.chain_eq, List.takeWhile_cons]
    by_cases hp : p a = true
    · rw [if_pos hp, List.mem_cons, ReflTransGen.cases_head_iff, eq_comm (a := b)]
      simp only [hp, true_and]
      refine or_congr_right ?_
      cases hstep : next a with
      | none => simp
      | some c =>
        rw [Option.elim_some, ih c hstep]
        exact ⟨fun ⟨hc, hr⟩ => ⟨c, ⟨rfl, hc⟩, hr⟩,
          fun ⟨_, ⟨rfl, hc⟩, hr⟩ => ⟨hc, hr⟩⟩
    · simp [hp]

end Upward

theorem Acyclic.upward (h : s.Acyclic) (hbase : ∀ a b, next a = some b → s.base? a = some b) :
    s.Upward next := ⟨hbase, h⟩

theorem base?_of_complexBase (h : s.complexBase a = some b) : s.base? a = some b := by
  unfold complexBase complex? at h
  unfold base?
  cases hdef : s.typeDef a with
  | any => simp [hdef, TypeDef.complex?] at h
  | simple => simp [hdef, TypeDef.complex?] at h
  | complex t => simpa [hdef, TypeDef.complex?, TypeDef.base?] using h

theorem complexBase_of_isSome (h : (s.complex? a).isSome) : s.complexBase a = s.base? a := by
  unfold complexBase base?
  unfold complex? at h ⊢
  cases hdef : s.typeDef a with
  | any => simp [hdef, TypeDef.complex?] at h
  | simple => simp [hdef, TypeDef.complex?] at h
  | complex t => rfl

namespace Derives

theorem complex (h : s.Derives a b) : (s.complex? a).isSome ∧ (s.complex? b).isSome := by
  have hfirst {x y : TypeId} (hxy : s.complexBase x = some y) : (s.complex? x).isSome := by
    unfold complexBase at hxy
    cases hx : s.complex? x with
    | none => simp [hx] at hxy
    | some _ => rfl
  induction h with
  | single hab => exact ⟨hfirst hab.1, hab.2⟩
  | tail _ hbc ih => exact ⟨ih.1, hbc.2⟩

theorem leads (h : s.Derives a b) : TransGen (Leads s.base?) a b :=
  TransGen.mono (fun _ _ hxy => base?_of_complexBase hxy.1) _ _ h

theorem irrefl (hs : s.Acyclic) (h : s.Derives a a) : False := hs a h.leads

end Derives

/-- The complex types above a type are those that it is derived from. -/
theorem mem_ancestors (hs : s.Acyclic) (ha : (s.complex? a).isSome) :
    b ∈ Generator.ancestors s a ↔ s.Derives a b := by
  have hup : s.Upward s.base? := hs.upward fun _ _ h => h
  have hfirst : ∀ x y, ReflTransGen (fun x y => s.base? x = some y ∧ (s.complex? y).isSome) x y →
      (s.complex? x).isSome →
      ReflTransGen (fun x y => s.complexBase x = some y ∧ (s.complex? y).isSome) x y := by
    intro x y h
    induction h with
    | refl => exact fun _ => .refl
    | @tail y z hxy hyz ih =>
      intro hx
      have hy : (s.complex? y).isSome := by
        rcases ReflTransGen.cases_tail hxy with rfl | ⟨_, -, -, hy⟩
        · exact hx
        · exact hy
      exact (ih hx).tail ⟨(complexBase_of_isSome hy).trans hyz.1, hyz.2⟩
  rw [Generator.ancestors, hup.walk_eq_chain]
  cases hbase : s.base? a with
  | none =>
    refine ⟨fun h => (by cases h), fun h => ?_⟩
    obtain ⟨c, ⟨hc, -⟩, -⟩ := TransGen.head'_iff.1 h
    rw [base?_of_complexBase hc] at hbase
    cases hbase
  | some c =>
    rw [Option.elim_some, hup.mem_takeWhile_chain]
    constructor
    · rintro ⟨hc, hr⟩
      exact TransGen.head' ⟨(complexBase_of_isSome ha).trans hbase, hc⟩ (hfirst c b hr hc)
    · intro h
      obtain ⟨c', ⟨hc', hcomplex⟩, hr⟩ := TransGen.head'_iff.1 h
      obtain rfl := Option.some.inj (hbase.symm.trans (base?_of_complexBase hc'))
      exact ⟨hcomplex, ReflTransGen.mono (fun _ _ hxy => ⟨base?_of_complexBase hxy.1, hxy.2⟩) _ _ hr⟩

/-- What a walk meets up to the first type that fails a test: the type that it starts at, and with
each type the next one, if this passes the test and was not visited before. -/
theorem takeWhile_walk {l : List TypeId} (hnext : ∀ id, (next id).isSome → id ∈ l)
    (p : TypeId → Bool) {n : Nat} {visited : List TypeId} (hn : unmet l visited < n)
    (current : Option TypeId) :
    (∀ x ∈ current, x ∉ visited → p x → x ∈ (walk next n visited current).takeWhile p) ∧
      ∀ x ∈ (walk next n visited current).takeWhile p, ∀ y ∈ next x, y ∉ visited → p y →
        y ∈ (walk next n visited current).takeWhile p := by
  induction n generalizing visited current with
  | zero => exact absurd hn (Nat.not_lt_zero _)
  | succ n ih =>
    cases current with
    | none => simp [walk]
    | some id =>
      rw [walk]
      split
      · next hid =>
        refine ⟨fun x hx hvisited => ?_, by simp⟩
        obtain rfl := Option.some.inj hx
        exact absurd (List.contains_iff_mem.1 hid) hvisited
      · next hid =>
        have hrest : (next id).isSome → unmet l (id :: visited) < n := fun hsome => by
          have := unmet_cons_lt (hnext id hsome) (by simpa using hid)
          omega
        rw [List.takeWhile_cons]
        split
        · refine ⟨fun x hx _ _ => ?_, fun x hx y hy hvisited hpy => ?_⟩
          · rw [← Option.some.inj hx]
            exact List.mem_cons_self ..
          · by_cases hne : y = id
            · exact hne ▸ List.mem_cons_self ..
            · have hfresh : y ∉ id :: visited := by simp [hne, hvisited]
              refine List.mem_cons_of_mem _ ?_
              rcases List.mem_cons.1 hx with rfl | hx
              · exact (ih (hrest (Option.isSome_of_mem hy)) (next x)).1 y hy hfresh hpy
              · cases hstep : next id with
                | none =>
                  rw [hstep] at hx
                  cases n <;> simp [walk] at hx
                | some id' =>
                  rw [hstep] at hx
                  exact (ih (hrest (by simp [hstep])) (some id')).2 x hx y hy hfresh hpy
        · next hfails =>
          refine ⟨fun x hx _ hpx => ?_, by simp⟩
          rw [← Option.some.inj hx] at hpx
          exact absurd hpx hfails

/-- The types that a type is derived from are above it, also where the bases come round. -/
theorem mem_ancestors_of_derives (h : s.Derives a b) (hne : b ≠ a) :
    b ∈ Generator.ancestors s a := by
  have hbases (id : TypeId) (hid : (s.base? id).isSome) : id ∈ s.typeIds :=
    mem_typeIds (by simp [nexts]) hid
  have hbudget : unmet s.typeIds [a] < s.types.size + 1 := by
    have hle := unmet_le s.typeIds [a]
    rw [typeIds, List.length_map, List.length_range] at hle
    exact Nat.lt_succ_of_le hle
  obtain ⟨hfirst, honward⟩ :=
    takeWhile_walk hbases (fun t => (s.complex? t).isSome) hbudget (s.base? a)
  induction h with
  | single hab => exact hfirst _ (base?_of_complexBase hab.1) (by simpa using hne) hab.2
  | @tail x y _ hxy ih =>
    have hbase := base?_of_complexBase hxy.1
    by_cases hx : x = a
    · exact hfirst y (hx ▸ hbase) (by simpa using hne) hxy.2
    · exact honward x (ih hx) y hbase (by simpa using hne) hxy.2

end Schema

namespace Substitutes

open Schema

variable {s : Schema} {t u : TypeId}

theorem parent_base? {a b : TypeId} (h : parent s a = some b) : s.base? a = some b := by
  unfold parent at h
  cases hbase : s.base? a with
  | none => simp [hbase] at h
  | some c =>
    simp only [hbase] at h
    split at h
    · cases h
    · split at h
      · exact h
      · cases h

theorem parent_category {a b : TypeId} (h : parent s a = some b) : s.category b = s.category a := by
  have hbase := parent_base? h
  unfold parent at h
  simp only [hbase] at h
  split at h
  · cases h
  · split at h
    · next hc => exact hc
    · cases h

/-- The depth is counted along complex types. -/
theorem complex_of_derivedFrom {a b : TypeId} (h : derivedFrom s a = some b) :
    s.complexBase a = some b ∧ (s.complex? b).isSome := by
  unfold derivedFrom at h
  unfold complexBase
  cases hc : s.complex? a with
  | none => simp [hc] at h
  | some c =>
    simp only [hc] at h
    split at h
    · cases h
    · cases h
    · next hbase _ =>
      split at h
      · cases h
      · split at h
        · next hb =>
          cases h
          exact ⟨hbase, hb⟩
        · cases h

theorem derivedFrom_base? {a b : TypeId} (h : derivedFrom s a = some b) : s.base? a = some b :=
  base?_of_complexBase (complex_of_derivedFrom h).1

/-- A type stands in the way up from another one. -/
abbrev Above (s : Schema) (a b : TypeId) : Prop := TransGen (Leads (parent s)) a b

theorem upward_parent (hs : s.Acyclic) : s.Upward (parent s) := hs.upward fun _ _ => parent_base?

theorem upward_derivedFrom (hs : s.Acyclic) : s.Upward (derivedFrom s) :=
  hs.upward fun _ _ => derivedFrom_base?

theorem mem_addNew_iff {known ids : List TypeId} : t ∈ addNew known ids ↔ t ∈ known ∨ t ∈ ids := by
  refine ⟨mem_addNew, ?_⟩
  induction ids generalizing known with
  | nil => simp [addNew]
  | cons id ids ih =>
    intro h
    rw [addNew]
    refine ih ?_
    rw [List.mem_cons] at h
    rcases h with h | rfl | h
    · left
      split
      · exact h
      · exact List.mem_append_left _ h
    · left
      split
      · next hknown => simpa using hknown
      · exact List.mem_append_right _ (List.mem_singleton_self _)
    · exact .inr h

theorem nodup_addNew {known ids : List TypeId} (h : known.Nodup) : (addNew known ids).Nodup := by
  induction ids generalizing known with
  | nil => exact h
  | cons id ids ih =>
    refine ih ?_
    split
    · exact h
    · next hid =>
      refine List.nodup_append.2 ⟨h, List.nodup_singleton _, ?_⟩
      rintro x hx y hy rfl
      rw [List.mem_singleton.1 hy] at hx
      exact hid (List.contains_iff_mem.2 hx)

/-- What the way up from a type adds: to each type on it those that came before it. -/
theorem mem_ascend (hs : s.Acyclic) {table : Table TypeId (List TypeId)} {below : List TypeId}
    (n : TypeId) : u ∈ ((ascend s table below (s.chain (parent s) n)).get? t).getD [] ↔
      u ∈ (table.get? t).getD [] ∨ ReflTransGen (Leads (parent s)) n t ∧
        (u ∈ below ∨ canSubstitute s u = true ∧ ReflTransGen (Leads (parent s)) n u ∧
          Above s u t) := by
  have hup := upward_parent hs
  induction n using hup.induction generalizing table below with
  | step n ih =>
    let table' := if below.isEmpty then table else
      table.put n (addNew ((table.get? n).getD []) below)
    let below' := if canSubstitute s n then below ++ [n] else below
    have htable : u ∈ (table'.get? t).getD [] ↔
        u ∈ (table.get? t).getD [] ∨ n = t ∧ u ∈ below := by
      by_cases hempty : below = []
      · simp [table', hempty]
      · have hput : table' = table.put n (addNew ((table.get? n).getD []) below) := by
          simp [table', hempty]
        rw [hput, Table.get?_put]
        split
        · next hn =>
          rw [← hn, Option.getD_some, mem_addNew_iff]
          simp
        · next hn => simp [hn]
    have hstart : u ∈ below' ↔ u ∈ below ∨ canSubstitute s u = true ∧ u = n := by
      unfold below'
      split
      · next hcan =>
        rw [List.mem_append, List.mem_singleton]
        refine or_congr_right ⟨?_, fun h => h.2⟩
        rintro rfl
        exact ⟨hcan, rfl⟩
      · next hcan =>
        refine ⟨.inl, fun h => h.resolve_right ?_⟩
        rintro ⟨hu, rfl⟩
        exact hcan hu
    rw [hup.chain_eq]
    change u ∈ ((ascend s table' below' _).get? t).getD [] ↔ _
    cases hstep : parent s n with
    | none =>
      have hstay {x : TypeId} : ReflTransGen (Leads (parent s)) n x ↔ n = x := by
        rw [ReflTransGen.cases_head_iff]
        refine ⟨fun h => h.resolve_right ?_, .inl⟩
        rintro ⟨c, hc, -⟩
        rw [Leads, hstep] at hc
        cases hc
      rw [Option.elim_none, ascend, htable, hstay]
      refine or_congr_right (and_congr_right fun hn => ⟨.inl, fun h => h.resolve_right ?_⟩)
      rintro ⟨-, hu, hut⟩
      rw [← hstay.1 hu, ← hn] at hut
      exact hup.irrefl hut
    | some m =>
      have hgo {x : TypeId} : ReflTransGen (Leads (parent s)) n x ↔
          n = x ∨ ReflTransGen (Leads (parent s)) m x := by
        rw [ReflTransGen.cases_head_iff]
        refine or_congr_right ⟨?_, fun h => ⟨m, hstep, h⟩⟩
        rintro ⟨c, hc, hr⟩
        rwa [← Option.some.inj (hstep.symm.trans hc)] at hr
      have hback : ¬ ReflTransGen (Leads (parent s)) m n := fun h =>
        hup.irrefl (TransGen.head' hstep h)
      refine Iff.trans (ih m hstep) ?_
      rw [htable, hstart, or_assoc, hgo, hgo]
      refine or_congr_right ?_
      by_cases hn : n = t
      · subst hn
        simp only [true_and, hback, false_and, or_false]
        refine ⟨.inl, fun h => h.resolve_right ?_⟩
        rintro ⟨-, hu, hut⟩
        rcases hu with rfl | hu
        · exact hup.irrefl hut
        · exact hback (hu.trans hut.to_reflTransGen)
      · simp only [hn, false_and, false_or]
        refine and_congr_right fun hm => ?_
        rw [or_assoc]
        refine or_congr_right ⟨?_, ?_⟩
        · rintro (⟨hcan, rfl⟩ | ⟨hcan, hu, hut⟩)
          · exact ⟨hcan, .inl rfl, TransGen.head' hstep hm⟩
          · exact ⟨hcan, .inr hu, hut⟩
        · rintro ⟨hcan, rfl | hu, hut⟩
          · exact .inl ⟨hcan, rfl⟩
          · exact .inr ⟨hcan, hu, hut⟩

theorem nodup_ascend {table : Table TypeId (List TypeId)}
    (h : ∀ t, ((table.get? t).getD []).Nodup) (below above : List TypeId) (t : TypeId) :
    (((ascend s table below above).get? t).getD []).Nodup := by
  induction above generalizing table below with
  | nil => exact h t
  | cons id above ih =>
    refine ih (fun x => ?_) _
    split
    · exact h x
    · rw [Table.get?_put]
      split
      · exact nodup_addNew (h id)
      · exact h x

/-- The table that the substitutes are taken from. -/
def tableOf (s : Schema) : Table TypeId (List TypeId) :=
  s.namedTypes.foldl (fun table id => ascend s table [] (s.chain (parent s) id)) Table.empty

theorem of_ofSchema (s : Schema) (t : TypeId) :
    (ofSchema s).of t = sortByDepth s (((tableOf s).get? t).getD []) := by
  rw [of, ofSchema, Table.get?_map]
  cases h : (tableOf s).get? t with
  | none =>
    rw [show (s.namedTypes.foldl _ Table.empty : Table TypeId (List TypeId)).get? t = none from h]
    simp [sortByDepth]
  | some ids =>
    rw [show (s.namedTypes.foldl _ Table.empty : Table TypeId (List TypeId)).get? t = some ids
      from h]
    rfl

/-- The substitutes of a type: the non-abstract extensions that come from it and lead to a named
type. -/
theorem mem_of_ofSchema (hs : s.Acyclic) : u ∈ (ofSchema s).of t ↔
    canSubstitute s u = true ∧ Above s u t ∧
      ∃ n ∈ s.namedTypes, ReflTransGen (Leads (parent s)) n u := by
  have hfold : ∀ (ids : List TypeId) (table : Table TypeId (List TypeId)),
      u ∈ ((ids.foldl (fun table id => ascend s table [] (s.chain (parent s) id)) table).get? t).getD
        [] ↔ u ∈ (table.get? t).getD [] ∨ ∃ n ∈ ids, canSubstitute s u = true ∧
          ReflTransGen (Leads (parent s)) n u ∧ Above s u t := by
    intro ids
    induction ids with
    | nil => simp
    | cons n ids ih =>
      intro table
      rw [List.foldl_cons, ih, mem_ascend hs, or_assoc]
      refine or_congr_right ?_
      simp only [List.not_mem_nil, false_or, List.exists_mem_cons_iff]
      refine or_congr_left ⟨fun h => h.2, fun h => ⟨?_, h⟩⟩
      exact h.2.1.trans h.2.2.to_reflTransGen
  rw [of_ofSchema, sortByDepth, List.mem_mergeSort, tableOf, hfold]
  simp only [Table.empty, Table.get?, Table.find, Option.getD_none, List.not_mem_nil, false_or]
  constructor
  · rintro ⟨n, hn, hcan, hr, habove⟩
    exact ⟨hcan, habove, n, hn, hr⟩
  · rintro ⟨hcan, habove, n, hn, hr⟩
    exact ⟨n, hn, hcan, hr, habove⟩

theorem nodup_of (s : Schema) (t : TypeId) : ((ofSchema s).of t).Nodup := by
  have hfold : ∀ (ids : List TypeId) (table : Table TypeId (List TypeId)),
      (∀ t, ((table.get? t).getD []).Nodup) → ∀ t,
      (((ids.foldl (fun table id => ascend s table [] (s.chain (parent s) id)) table).get? t).getD
        []).Nodup := by
    intro ids
    induction ids with
    | nil => exact fun _ h => h
    | cons n ids ih => exact fun table h => ih _ (nodup_ascend h _ _)
  rw [of_ofSchema, sortByDepth, (List.mergeSort_perm _ _).nodup_iff]
  exact hfold _ Table.empty (fun _ => List.nodup_nil) t

theorem sorted_of (s : Schema) (t : TypeId) :
    ((ofSchema s).of t).Pairwise fun a b => depth s a ≤ depth s b := by
  rw [of_ofSchema, sortByDepth]
  have hsorted := @List.pairwise_mergeSort _ (fun a b => decide (depth s a ≤ depth s b))
    (fun a b c hab hbc => by simp only [decide_eq_true_eq] at hab hbc ⊢; omega)
    (fun a b => by simp only [Bool.or_eq_true, decide_eq_true_eq]; omega)
    (((tableOf s).get? t).getD [])
  exact hsorted.imp fun h => of_decide_eq_true h

/-- A substitute of a substitute is a substitute. -/
theorem of_trans (hs : s.Acyclic) {v : TypeId} (hu : u ∈ (ofSchema s).of v)
    (hv : v ∈ (ofSchema s).of t) : u ∈ (ofSchema s).of t := by
  rw [mem_of_ofSchema hs] at hu hv ⊢
  exact ⟨hu.1, hu.2.1.trans hv.2.1, hu.2.2⟩

theorem category_of_complex {a : TypeId} (h : (s.complex? a).isSome) :
    s.category a = .complex := by
  unfold complex? at h
  unfold category
  cases hdef : s.typeDef a with
  | any => simp [hdef, TypeDef.complex?] at h
  | simple => simp [hdef, TypeDef.complex?] at h
  | complex => rfl

theorem complex_of_category {a b : TypeId} (h : s.category a = .complex)
    (hbase : s.base? a = some b) : (s.complex? a).isSome := by
  unfold category at h
  unfold base? at hbase
  unfold complex?
  cases hdef : s.typeDef a with
  | any => simp [hdef, TypeDef.base?] at hbase
  | simple => simp [hdef, TypeDef.category] at h
  | complex => rfl

/-- A substitute is derived from the type. -/
theorem derives_of_mem (hs : s.Acyclic) (ht : (s.complex? t).isSome) (h : u ∈ (ofSchema s).of t) :
    s.Derives u t := by
  obtain ⟨hcan, habove, -⟩ := (mem_of_ofSchema hs).1 h
  have hu := complex_of_canSubstitute hcan
  clear h hcan
  induction habove using TransGen.head_induction_on with
  | single hut => exact .single ⟨(complexBase_of_isSome hu).trans (parent_base? hut), ht⟩
  | @head a b hab hbt ih =>
    obtain ⟨c, hbc, -⟩ := TransGen.head'_iff.1 hbt
    have hb : (s.complex? b).isSome :=
      complex_of_category ((parent_category hab).trans (category_of_complex hu)) (parent_base? hbc)
    exact TransGen.head ⟨(complexBase_of_isSome hu).trans (parent_base? hab), hb⟩ (ih hb)

/-- Every complex type with a complex base is an extension of it, and that base is not the root of
all types. -/
def Extending (s : Schema) : Prop :=
  ∀ a b c, s.complex? a = some c → c.base = some b → (s.complex? b).isSome →
    c.derivation = .extension ∧ b ≠ anyType

/-- Every complex type with a complex base says how it comes from it, and that base is not the root
of all types. -/
def Deriving (s : Schema) : Prop :=
  ∀ a b c, s.complex? a = some c → c.base = some b → (s.complex? b).isSome →
    c.derivation ≠ .none ∧ b ≠ anyType

theorem Extending.deriving (h : Extending s) : Deriving s := fun a b c hc hbase hb =>
  (h a b c hc hbase hb).imp_left fun hx => by simp [hx]

/-- A complex base is met on the way that the depth is counted by. -/
theorem Deriving.derivedFrom (h : Deriving s) {a b : TypeId} (hab : s.complexBase a = some b)
    (hb : (s.complex? b).isSome) : derivedFrom s a = some b := by
  unfold complexBase at hab
  obtain ⟨c, hc, hbase⟩ := Option.bind_eq_some_iff.1 hab
  obtain ⟨hderivation, hany⟩ := h a b c hc hbase hb
  unfold Substitutes.derivedFrom
  simp only [hc]
  cases hd : c.derivation with
  | none => exact absurd hd hderivation
  | extension => simp [hbase, hany, hb]
  | restriction => simp [hbase, hany, hb]

/-- A type is one step deeper than the complex type that it is derived from. -/
theorem depth_of_base (hs : s.Acyclic) (hderiving : Deriving s) {a b : TypeId}
    (hab : s.complexBase a = some b) (hb : (s.complex? b).isSome) : depth s a = depth s b + 1 := by
  have hup := upward_derivedFrom hs
  have hlength : (s.chain (derivedFrom s) a).length =
      (s.chain (derivedFrom s) b).length + 1 := by
    rw [hup.chain_eq, hderiving.derivedFrom hab hb, Option.elim_some, List.length_cons]
  have hpos : 0 < (s.chain (derivedFrom s) b).length := by
    rw [hup.chain_eq]
    exact Nat.succ_pos _
  unfold depth
  omega

/-- Derived types are deeper than those that they are derived from. -/
theorem depth_lt (hs : s.Acyclic) (hderiving : Deriving s) (h : s.Derives u t) :
    depth s t < depth s u := by
  have hstep {a b : TypeId} (hab : s.complexBase a = some b) (hb : (s.complex? b).isSome) :
      depth s b < depth s a := by
    rw [depth_of_base hs hderiving hab hb]
    exact Nat.lt_succ_self _
  induction h with
  | single h => exact hstep h.1 h.2
  | tail _ h ih => exact Nat.lt_trans (hstep h.1 h.2) ih

end Substitutes

namespace Generator

open Schema Substitutes

variable {g : Generator} {t : TypeId}

/-- The types that an element may have are its own and types derived from that. -/
theorem eq_or_derives_of_mem_candidates (hg : g.substitutes = Substitutes.ofSchema g.schema)
    (hs : g.schema.Acyclic) (ht : (g.schema.complex? t).isSome) {u : TypeId}
    (hu : u ∈ g.candidates t) : u = t ∨ g.schema.Derives u t := by
  rw [candidates, List.mem_append, hg] at hu
  rcases hu with hu | hu
  · split at hu
    · cases hu
    · exact .inl (List.mem_singleton.1 hu)
  · exact .inr (derives_of_mem hs ht hu)

/-- The substitutes of one of the types that an element may have are among these types. -/
theorem mem_candidates_of_mem_of (hg : g.substitutes = Substitutes.ofSchema g.schema)
    (hs : g.schema.Acyclic) {u v : TypeId} (hv : v ∈ g.candidates t)
    (hu : u ∈ g.substitutes.of v) : u ∈ g.candidates t := by
  rw [candidates, List.mem_append] at hv ⊢
  right
  rcases hv with hv | hv
  · split at hv
    · cases hv
    · rwa [List.mem_singleton.1 hv] at hu
  · rw [hg] at hu hv ⊢
    exact of_trans hs hu hv

/-- The types that an element may have come in an order in which none is derived from a later one,
each once. -/
theorem candidates_ordered (hg : g.substitutes = Substitutes.ofSchema g.schema)
    (hs : g.schema.Acyclic) (hextending : Extending g.schema) (ht : (g.schema.complex? t).isSome) :
    (g.candidates t).Pairwise fun a b => a ≠ b ∧ ¬ g.schema.Derives a b := by
  have hof : (g.substitutes.of t).Pairwise fun a b => a ≠ b ∧ ¬ g.schema.Derives a b := by
    rw [hg]
    refine ((nodup_of g.schema t).and (sorted_of g.schema t)).imp ?_
    exact fun ⟨hne, hle⟩ => ⟨hne, fun h => Nat.not_lt.2 hle (depth_lt hs hextending.deriving h)⟩
  rw [candidates]
  split
  · exact hof
  · refine List.pairwise_cons.2 ⟨fun b hb => ?_, hof⟩
    rw [hg] at hb
    have hderives := derives_of_mem hs ht hb
    refine ⟨?_, fun h => Derives.irrefl hs (TransGen.trans h hderives)⟩
    rintro rfl
    exact hderives.irrefl hs

end Generator

end SchemaForms
