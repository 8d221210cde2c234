import SchemaForms.Schema.Loader
import Mathlib.Data.List.Lex

/-!
Addresses in a content model.  The numbers of the members that lead to a particle are its address,
and lexicographic order of addresses is document order.  Main statement: the elements of a content
model are listed in document order, each as often as it stands there, and the search for an element
finds the first place of it.
-/

namespace SchemaForms.Particle

/-- The particle at an address. -/
def at? : Particle → List Nat → Option Particle
  | p, [] => some p
  | .group _ _ members, i :: a => members[i]?.bind fun m => m.at? a
  | .element .., _ :: _ => none
  | .wildcard .., _ :: _ => none

/-- The element that a particle holds itself, not in a group. -/
def element? : Particle → Option ElementId
  | .element _ id => some id
  | .group .. => none
  | .wildcard .. => none

def elementAt? (p : Particle) (a : List Nat) : Option ElementId := (p.at? a).bind element?

/-- A particle holds the element and stands before all others that do. -/
def IsFirst (p : Particle) (e : ElementId) (q : Particle) : Prop :=
  ∃ a, p.at? a = some q ∧ q.element? = some e ∧ ∀ b < a, p.elementAt? b ≠ some e

/-- A list names the element at each address that has one, in document order. -/
def ListsElements (p : Particle) (ids : List ElementId) : Prop :=
  ∃ places : List (List Nat), places.Pairwise (· < ·) ∧
    (∀ a, a ∈ places ↔ (p.elementAt? a).isSome) ∧ ids.map some = places.map p.elementAt?

mutual

/-- The particles that hold elements, with their addresses, in document order. -/
def placed : Particle → List (List Nat × Particle)
  | .element o id => [([], .element o id)]
  | .group _ _ members => placedFrom 0 members
  | .wildcard _ _ => []

/-- The same for members that are numbered from `i` on. -/
def placedFrom (i : Nat) : List Particle → List (List Nat × Particle)
  | [] => []
  | p :: ps => p.placed.map (fun x => (i :: x.1, x.2)) ++ placedFrom (i + 1) ps

end

mutual

theorem mem_placed : ∀ (p : Particle) (a : List Nat) (q : Particle),
    (a, q) ∈ p.placed ↔ p.at? a = some q ∧ q.element?.isSome
  | .element o id, [], q => by
    simp only [placed, at?, List.mem_singleton, Prod.mk.injEq, true_and, Option.some.injEq]
    constructor
    · rintro rfl
      exact ⟨rfl, rfl⟩
    · exact fun h => h.1.symm
  | .element o id, i :: a, q => by simp [placed, at?]
  | .wildcard o w, [], q => by
    simp only [placed, at?, List.not_mem_nil, Option.some.injEq, false_iff, not_and]
    rintro rfl
    exact nofun
  | .wildcard o w, i :: a, q => by simp [placed, at?]
  | .group o c members, [], q => by
    simp only [placed, mem_placedFrom, at?, Option.some.injEq]
    constructor
    · rintro ⟨k, b, m, ha, -⟩
      cases ha
    · rintro ⟨rfl, h⟩
      cases h
  | .group o c members, i :: a, q => by
    simp only [placed, mem_placedFrom, at?, Option.bind_eq_some_iff, Nat.zero_add, List.cons.injEq]
    constructor
    · rintro ⟨k, b, m, ⟨rfl, rfl⟩, hm, hq, he⟩
      exact ⟨⟨m, hm, hq⟩, he⟩
    · rintro ⟨⟨m, hm, hq⟩, he⟩
      exact ⟨i, a, m, ⟨rfl, rfl⟩, hm, hq, he⟩

theorem mem_placedFrom : ∀ (ps : List Particle) (i : Nat) (a : List Nat) (q : Particle),
    (a, q) ∈ placedFrom i ps ↔ ∃ k b m, a = (i + k) :: b ∧ ps[k]? = some m ∧
      m.at? b = some q ∧ q.element?.isSome
  | [], i, a, q => by simp [placedFrom]
  | p :: ps, i, a, q => by
    simp only [placedFrom, List.mem_append, List.mem_map, Prod.mk.injEq, Prod.exists, mem_placedFrom]
    constructor
    · rintro (⟨b, q, hmem, rfl, rfl⟩ | ⟨k, b, m, rfl, hm, hq⟩)
      · exact ⟨0, b, p, rfl, rfl, (mem_placed p b q).1 hmem⟩
      · exact ⟨k + 1, b, m, by rw [Nat.add_right_comm, Nat.add_assoc], hm, hq⟩
    · rintro ⟨k, b, m, rfl, hm, hq⟩
      cases k with
      | zero =>
        cases hm
        exact .inl ⟨b, q, (mem_placed p b q).2 hq, rfl, rfl⟩
      | succ k => exact .inr ⟨k, b, m, by rw [Nat.add_right_comm, Nat.add_assoc], hm, hq⟩

end

mutual

theorem pairwise_placed : ∀ p : Particle, p.placed.Pairwise fun x y => x.1 < y.1
  | .element .. => List.pairwise_singleton ..
  | .group _ _ members => pairwise_placedFrom members 0
  | .wildcard .. => .nil

theorem pairwise_placedFrom : ∀ (ps : List Particle) (i : Nat),
    (placedFrom i ps).Pairwise fun x y => x.1 < y.1
  | [], _ => .nil
  | p :: ps, i => by
    rw [placedFrom, List.pairwise_append, List.pairwise_map]
    refine ⟨(pairwise_placed p).imp fun h => List.cons_lt_cons_iff.2 (.inr ⟨rfl, h⟩),
      pairwise_placedFrom ps (i + 1), fun x hx y hy => ?_⟩
    obtain ⟨z, -, rfl⟩ := List.mem_map.1 hx
    obtain ⟨k, b, m, hy, -⟩ := (mem_placedFrom ps (i + 1) y.1 y.2).1 hy
    rw [hy]
    exact List.cons_lt_cons_iff.2 (.inl (by omega))

end

mutual

theorem elementIds_eq_placed : ∀ p : Particle,
    p.elementIds = p.placed.filterMap fun x => x.2.element?
  | .element .. => rfl
  | .group _ _ members => elementIdsOf_eq_placedFrom members 0
  | .wildcard .. => rfl

theorem elementIdsOf_eq_placedFrom : ∀ (ps : List Particle) (i : Nat),
    elementIdsOf ps = (placedFrom i ps).filterMap fun x => x.2.element?
  | [], _ => rfl
  | p :: ps, i => by
    rw [elementIdsOf, placedFrom, List.filterMap_append, List.filterMap_map,
      elementIds_eq_placed p, elementIdsOf_eq_placedFrom ps (i + 1)]
    rfl

end

mutual

theorem find_eq_placed (e : ElementId) : ∀ p : Particle,
    p.find e = (p.placed.find? fun x => x.2.element? == some e).map (·.2)
  | .element o id => by
    by_cases h : id = e <;> simp [find, placed, element?, h]
  | .group _ _ members => findIn_eq_placedFrom e members 0
  | .wildcard .. => rfl

theorem findIn_eq_placedFrom (e : ElementId) : ∀ (ps : List Particle) (i : Nat),
    findIn e ps = ((placedFrom i ps).find? fun x => x.2.element? == some e).map (·.2)
  | [], _ => rfl
  | p :: ps, i => by
    rw [findIn, placedFrom, List.find?_append, List.find?_map, Function.comp_def,
      find_eq_placed e p, findIn_eq_placedFrom e ps (i + 1)]
    cases p.placed.find? fun x => x.2.element? == some e with
    | none => simp
    | some x => simp

end

theorem mem_elementIds_iff (p : Particle) (e : ElementId) :
    e ∈ p.elementIds ↔ ∃ a, p.elementAt? a = some e := by
  simp only [elementIds_eq_placed, List.mem_filterMap, Prod.exists, mem_placed, elementAt?,
    Option.bind_eq_some_iff]
  constructor
  · rintro ⟨a, q, ⟨hq, -⟩, he⟩
    exact ⟨a, q, hq, he⟩
  · rintro ⟨a, q, hq, he⟩
    exact ⟨a, q, ⟨hq, Option.isSome_of_eq_some he⟩, he⟩

theorem isSome_find_iff (p : Particle) (e : ElementId) : (p.find e).isSome ↔ e ∈ p.elementIds := by
  simp [find_eq_placed, elementIds_eq_placed]

theorem isFirst_of_find {p q : Particle} {e : ElementId} (h : p.find e = some q) :
    p.IsFirst e q := by
  rw [find_eq_placed, Option.map_eq_some_iff] at h
  obtain ⟨⟨a, q⟩, hfind, rfl⟩ := h
  obtain ⟨he, before, after, hsplit, hbefore⟩ := List.find?_eq_some_iff_append.1 hfind
  have hsorted := pairwise_placed p
  have hat : p.at? a = some q := ((mem_placed p a q).1 (by simp [hsplit])).1
  refine ⟨a, hat, by simpa using he, fun b hb hholds => ?_⟩
  obtain ⟨r, hr, her⟩ := Option.bind_eq_some_iff.1 hholds
  have hmem := (mem_placed p b r).2 ⟨hr, Option.isSome_of_eq_some her⟩
  rw [hsplit] at hmem hsorted
  rcases List.mem_append.1 hmem with hmem | hmem
  · simpa [her] using hbefore _ hmem
  · rcases List.mem_cons.1 hmem with heq | hmem
    · cases heq
      exact lt_irrefl a hb
    · have hlater := List.rel_of_pairwise_cons (List.pairwise_append.1 hsorted).2.1 hmem
      exact lt_asymm hb hlater

theorem IsFirst.unique {p q q' : Particle} {e : ElementId} (h : p.IsFirst e q)
    (h' : p.IsFirst e q') : q = q' := by
  obtain ⟨a, ha, hq, hfirst⟩ := h
  obtain ⟨b, hb, hq', hfirst'⟩ := h'
  rcases lt_trichotomy a b with hlt | rfl | hlt
  · exact absurd (Option.bind_eq_some_iff.2 ⟨q, ha, hq⟩) (hfirst' a hlt)
  · exact Option.some.inj (ha.symm.trans hb)
  · exact absurd (Option.bind_eq_some_iff.2 ⟨q', hb, hq'⟩) (hfirst b hlt)

theorem find_eq_some_iff {p q : Particle} {e : ElementId} :
    p.find e = some q ↔ p.IsFirst e q := by
  refine ⟨isFirst_of_find, fun h => ?_⟩
  have hlisted : e ∈ p.elementIds := by
    obtain ⟨a, ha, he, -⟩ := h
    exact (mem_elementIds_iff p e).2 ⟨a, Option.bind_eq_some_iff.2 ⟨q, ha, he⟩⟩
  obtain ⟨q', hq'⟩ := Option.isSome_iff_exists.1 ((isSome_find_iff p e).2 hlisted)
  rw [hq', (isFirst_of_find hq').unique h]

theorem listsElements_elementIds (p : Particle) : p.ListsElements p.elementIds := by
  refine ⟨p.placed.map (·.1), List.pairwise_map.2 (pairwise_placed p), fun a => ?_, ?_⟩
  · rw [elementAt?, Option.isSome_bind, List.mem_map]
    constructor
    · rintro ⟨⟨a, q⟩, hmem, rfl⟩
      obtain ⟨hq, he⟩ := (mem_placed p a q).1 hmem
      simpa [hq] using he
    · intro h
      obtain ⟨q, hq, he⟩ := (Option.any_eq_true _ _).1 h
      exact ⟨(a, q), (mem_placed p a q).2 ⟨hq, he⟩, rfl⟩
  · have hplaced : ∀ x ∈ p.placed, p.elementAt? x.1 = x.2.element? ∧ x.2.element?.isSome := by
      intro x hx
      obtain ⟨hq, he⟩ := (mem_placed p x.1 x.2).1 hx
      exact ⟨by rw [elementAt?, hq, Option.bind_some], he⟩
    rw [elementIds_eq_placed, List.map_filterMap_some_eq_filter_map_isSome, List.map_map,
      List.filter_eq_self.2 (List.forall_mem_map.2 fun x hx => (hplaced x hx).2)]
    exact List.map_congr_left fun x hx => (hplaced x hx).1.symm

/-- The search for an element succeeds exactly if it is listed, and finds the particle that holds it
first in document order; the list names the elements in document order, each as often as it stands
there, so that in an extension the elements of the base come first and then its own. -/
theorem find_and_elementIds (p : Particle) :
    (∀ e, (p.find e).isSome ↔ e ∈ p.elementIds) ∧
    (∀ e q, p.find e = some q ↔ p.IsFirst e q) ∧
    p.ListsElements p.elementIds ∧
    ∀ base own, Loader.extendParticle (some base) (some own) = some (sequence [base, own]) ∧
      (sequence [base, own]).elementIds = base.elementIds ++ own.elementIds := by
  refine ⟨isSome_find_iff p, fun e q => find_eq_some_iff, listsElements_elementIds p,
    fun base own => ⟨rfl, ?_⟩⟩
  simp [sequence, elementIds, elementIdsOf]

/-- An element that stands in two places is listed twice, and found in the first. -/
example :
    let inner := Particle.group .once .choice [.element .once ⟨1⟩, .element ⟨0, some 3⟩ ⟨2⟩]
    let p := sequence [.element .once ⟨0⟩, inner, .wildcard .once {}, .element .once ⟨2⟩]
    (p.find ⟨2⟩).map occurs = some ⟨0, some 3⟩ ∧ p.elementIds = [⟨0⟩, ⟨1⟩, ⟨2⟩, ⟨2⟩] := by
  decide

end SchemaForms.Particle
