import Mathlib.Data.List.Perm.Basic
import SchemaForms.Form.Generate

/-!
Which types are substitutes: non-abstract extensions, and so complex types.
-/

namespace SchemaForms

namespace Table

variable {κ α β : Type} [DecidableEq κ]

theorem get?_map (t : Table κ α) (f : α → β) (key : κ) :
    (⟨t.entries.map fun e => (e.1, f e.2)⟩ : Table κ β).get? key = (t.get? key).map f := by
  obtain ⟨entries⟩ := t
  simp only [get?]
  induction entries with
  | nil => rfl
  | cons e rest ih =>
    simp only [List.map_cons, find]
    split
    · rfl
    · exact ih

end Table

namespace Substitutes

variable {s : Schema}

/-- Only types that can stand in for others stand anywhere in a table. -/
def Entered (s : Schema) (table : Table TypeId (List TypeId)) : Prop :=
  ∀ e ∈ table.entries, ∀ id ∈ e.2, canSubstitute s id = true

theorem mem_addNew {known ids : List TypeId} {t : TypeId} (h : t ∈ addNew known ids) :
    t ∈ known ∨ t ∈ ids := by
  induction ids generalizing known with
  | nil => exact .inl h
  | cons id ids ih =>
    rcases ih h with h | h
    · split at h
      · exact .inl h
      · rw [List.mem_append, List.mem_singleton] at h
        rcases h with h | rfl
        · exact .inl h
        · exact .inr (List.mem_cons_self ..)
    · exact .inr (List.mem_cons_of_mem _ h)

theorem Entered.ascend {table : Table TypeId (List TypeId)} (ht : Entered s table)
    {below : List TypeId} (hbelow : ∀ id ∈ below, canSubstitute s id = true) (way : List TypeId) :
    Entered s (ascend s table below way) := by
  induction way generalizing table below with
  | nil => exact ht
  | cons id way ih =>
    refine ih ?_ fun other hother => ?_
    · split
      · exact ht
      · intro e he other hother
        rcases Table.mem_entries_put he with he | rfl
        · exact ht e he other hother
        · rcases mem_addNew hother with hknown | hnew
          · obtain ⟨ids, hids, hmem⟩ : ∃ ids, table.get? id = some ids ∧ other ∈ ids := by
              cases hlist : table.get? id with
              | none => simp [hlist] at hknown
              | some ids => exact ⟨ids, rfl, by simpa [hlist] using hknown⟩
            exact ht _ (Table.mem_entries_of_get? hids) other hmem
          · exact hbelow other hnew
    · split at hother
      · next hcan =>
        rcases List.mem_append.1 hother with hother | hother
        · exact hbelow other hother
        · exact List.mem_singleton.1 hother ▸ hcan
      · exact hbelow other hother

/-- So it is with the table that the substitutes are taken from. -/
theorem entered_namedTypes (s : Schema) : Entered s
    (s.namedTypes.foldl (fun table id => ascend s table [] (s.chain (parent s) id)) .empty) := by
  have hfold : ∀ (ids : List TypeId) (table : Table TypeId (List TypeId)), Entered s table →
      Entered s (ids.foldl (fun table id => ascend s table [] (s.chain (parent s) id)) table) := by
    intro ids
    induction ids with
    | nil => exact fun _ ht => ht
    | cons id ids ih => exact fun table ht => ih _ (ht.ascend (fun _ hid => by cases hid) _)
  exact hfold s.namedTypes Table.empty fun _ he => by cases he

theorem canSubstitute_of_mem {t t' : TypeId} (h : t' ∈ (ofSchema s).of t) :
    canSubstitute s t' = true := by
  rw [of, ofSchema, Table.get?_map] at h
  cases htable : (Table.get? _ t) with
  | none =>
    rw [htable] at h
    cases h
  | some ids =>
    rw [htable] at h
    exact entered_namedTypes s _ (Table.mem_entries_of_get? htable) t' (List.mem_mergeSort.1 h)

theorem complex_of_canSubstitute {t : TypeId} (h : canSubstitute s t = true) :
    (s.complex? t).isSome := by
  unfold canSubstitute at h
  cases hc : s.complex? t with
  | none =>
    rw [hc] at h
    cases h
  | some _ => rfl

theorem sortByDepth_of_pairwise {ids : List TypeId}
    (h : ids.Pairwise fun a b => depth s a ≤ depth s b) : sortByDepth s ids = ids := by
  refine (List.Sublist.eq_of_length (List.sublist_mergeSort ?_ ?_ ?_ (List.Sublist.refl _)) ?_).symm
  · intro a b c hab hbc
    simp only [decide_eq_true_eq] at *
    omega
  · intro a b
    simp only [Bool.or_eq_true, decide_eq_true_eq]
    omega
  · simpa using h
  · simp

/-- The substitutes of a schema, where they are found in the order of their depths. -/
theorem ofSchema_of_table {id : TypeId} {ids : List TypeId}
    (htable : s.namedTypes.foldl (fun table id => ascend s table [] (s.chain (parent s) id))
      Table.empty = ⟨[(id, ids)]⟩)
    (h : ids.Pairwise fun a b => depth s a ≤ depth s b) : ofSchema s = ⟨⟨[(id, ids)]⟩⟩ := by
  rw [ofSchema, htable]
  simp [sortByDepth_of_pairwise h]

end Substitutes

namespace Generator

/-- The types that an element of a complex type may have are complex. -/
theorem complex_of_mem_candidates {g : Generator}
    (hg : g.substitutes = Substitutes.ofSchema g.schema) {t t' : TypeId}
    (h : t' ∈ g.candidates t) (ht : (g.schema.complex? t).isSome) :
    (g.schema.complex? t').isSome := by
  rw [candidates, List.mem_append, hg] at h
  rcases h with h | h
  · split at h
    · cases h
    · rwa [List.mem_singleton.1 h]
  · exact Substitutes.complex_of_canSubstitute (Substitutes.canSubstitute_of_mem h)

end Generator

end SchemaForms
