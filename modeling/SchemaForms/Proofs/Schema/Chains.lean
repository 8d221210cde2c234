import SchemaForms.Schema.Chain

/-!
Chains end.  A walk meets no type twice, so it never takes more steps than there are types, and the
budget that it is given is never used up.
-/

namespace SchemaForms

/-- How many entries of a list have not been met. -/
def unmet {α : Type} [BEq α] (all met : List α) : Nat :=
  (all.filter fun x => !met.contains x).length

theorem unmet_le {α : Type} [BEq α] (all met : List α) : unmet all met ≤ all.length :=
  List.length_filter_le ..

/-- Meeting an entry leaves fewer of them. -/
theorem unmet_cons_lt {α : Type} [BEq α] [LawfulBEq α] {all met : List α} {x : α} (hx : x ∈ all)
    (hnew : x ∉ met) : unmet all (x :: met) < unmet all met := by
  have hsplit : (all.filter fun y => !(x :: met).contains y) =
      (all.filter fun y => !met.contains y).filter fun y => y != x := by
    rw [List.filter_filter]
    apply List.filter_congr
    intro y _
    rw [List.contains_cons, Bool.not_or]
    rfl
  rw [unmet, unmet, hsplit]
  apply List.length_filter_lt_length_iff_exists.2
  exact ⟨x, List.mem_filter.2 ⟨hx, by simpa using hnew⟩, by simp⟩

/-! Chains of types. -/

namespace Schema

/-- A walk along types of which only so many lead on does not use up a greater budget. -/
theorem walk_eq {next : TypeId → Option TypeId} {l : List TypeId}
    (hnext : ∀ id, (next id).isSome → id ∈ l) {n m : Nat} {visited : List TypeId}
    (hn : unmet l visited < n) (hm : unmet l visited < m) (current : Option TypeId) :
    walk next n visited current = walk next m visited current := by
  induction n generalizing m visited current with
  | zero => exact absurd hn (Nat.not_lt_zero _)
  | succ n ih =>
    cases m with
    | zero => exact absurd hm (Nat.not_lt_zero _)
    | succ m =>
      cases current with
      | none => simp [walk]
      | some id =>
        simp only [walk]
        split
        · rfl
        · next hid =>
          congr 1
          cases hstep : next id with
          | none => cases n <;> cases m <;> simp [walk]
          | some id' =>
            have hmem : id ∈ l := hnext id (by simp [hstep])
            have hless := unmet_cons_lt hmem (by simpa using hid)
            have hn' : unmet l (id :: visited) < n := by omega
            have hm' : unmet l (id :: visited) < m := by omega
            exact ih hn' hm' (some id')

def typeIds (s : Schema) : List TypeId := (List.range s.types.size).map TypeId.mk

/-- The ways to go on from a type: to its base, or to its items. -/
def nexts (s : Schema) : List (TypeId → Option TypeId) :=
  [s.base?, s.complexBase, s.simpleBase, s.itemOrBase]

theorem mem_typeIds {s : Schema} {next : TypeId → Option TypeId} (hnext : next ∈ s.nexts)
    {id : TypeId} (h : (next id).isSome) : id ∈ s.typeIds := by
  obtain ⟨i⟩ := id
  have hi : i < s.types.size := by
    apply Nat.lt_of_not_le
    intro hi
    have hany : s.typeDef ⟨i⟩ = .any := by
      simp [typeDef, Array.getD_eq_getD_getElem?, Array.getElem?_eq_none hi]
    have hnone : next ⟨i⟩ = none := by
      simp only [nexts, List.mem_cons, List.not_mem_nil, or_false] at hnext
      rcases hnext with rfl | rfl | rfl | rfl
      · simp [base?, hany, TypeDef.base?]
      · simp [complexBase, complex?, hany, TypeDef.complex?]
      · simp [simpleBase, simple?, hany, TypeDef.simple?]
      · simp [itemOrBase, simple?, hany, TypeDef.simple?]
    simp [hnone] at h
  exact List.mem_map_of_mem (List.mem_range.2 hi)

/-- Every chain ends within the budget that chains have, cyclic or not. -/
theorem walk_budget {s : Schema} {next : TypeId → Option TypeId} (hnext : next ∈ s.nexts)
    (extra : Nat) (visited : List TypeId) (current : Option TypeId) :
    walk next (s.types.size + 1 + extra) visited current =
      walk next (s.types.size + 1) visited current := by
  have hle := unmet_le s.typeIds visited
  rw [typeIds, List.length_map, List.length_range] at hle
  have hlt : unmet s.typeIds visited < s.types.size + 1 := Nat.lt_succ_of_le hle
  exact walk_eq (fun id => mem_typeIds hnext) (Nat.lt_of_lt_of_le hlt (Nat.le_add_right ..)) hlt
    current

end Schema

end SchemaForms
