/-!
Tables: keys with values, in the order in which the keys were first put.
-/

namespace SchemaForms

structure Table (κ α : Type) where
  entries : List (κ × α)
  deriving DecidableEq, Repr

namespace Table

variable {κ α : Type} [DecidableEq κ]

def empty : Table κ α := ⟨[]⟩

instance : Inhabited (Table κ α) := ⟨empty⟩

def find (key : κ) : List (κ × α) → Option α
  | [] => none
  | (k, v) :: rest => if k = key then some v else find key rest

def get? (t : Table κ α) (key : κ) : Option α := find key t.entries

/-- Gives the key a value where it stands, or at the end when it is new. -/
def insert (key : κ) (value : α) : List (κ × α) → List (κ × α)
  | [] => [(key, value)]
  | (k, v) :: rest => if k = key then (k, value) :: rest else (k, v) :: insert key value rest

def put (t : Table κ α) (key : κ) (value : α) : Table κ α := ⟨insert key value t.entries⟩

def keys (t : Table κ α) : List κ := t.entries.map (·.1)

def values (t : Table κ α) : List α := t.entries.map (·.2)

def size (t : Table κ α) : Nat := t.entries.length

theorem find_insert (key other : κ) (value : α) (entries : List (κ × α)) :
    find other (insert key value entries) =
      if key = other then some value else find other entries := by
  induction entries with
  | nil => simp [insert, find]
  | cons e rest ih =>
    obtain ⟨k, v⟩ := e
    by_cases hk : k = key
    · subst hk
      by_cases ho : k = other <;> simp [insert, find, ho]
    · by_cases ho : k = other
      · subst ho
        simp [insert, find, hk, Ne.symm hk]
      · simp [insert, find, hk, ho, ih]

@[simp] theorem get?_put (t : Table κ α) (key other : κ) (value : α) :
    (t.put key value).get? other = if key = other then some value else t.get? other :=
  find_insert key other value t.entries

@[simp] theorem get?_empty (key : κ) : (empty : Table κ α).get? key = none := rfl

theorem find_eq_none_iff (key : κ) (entries : List (κ × α)) :
    find key entries = none ↔ key ∉ entries.map (·.1) := by
  induction entries with
  | nil => simp [find]
  | cons e rest ih =>
    obtain ⟨k, v⟩ := e
    by_cases hk : k = key
    · simp [find, hk]
    · simp [find, hk, ih, Ne.symm hk]

theorem insert_of_find_eq_none {key : κ} {entries : List (κ × α)} (value : α)
    (h : find key entries = none) : insert key value entries = entries ++ [(key, value)] := by
  induction entries with
  | nil => rfl
  | cons e rest ih =>
    obtain ⟨k, v⟩ := e
    by_cases hk : k = key
    · simp [find, hk] at h
    · simp [find, hk] at h
      simp [insert, hk, ih h]

/-- A new key goes to the end. -/
theorem entries_put_of_new {t : Table κ α} {key : κ} (value : α) (h : t.get? key = none) :
    (t.put key value).entries = t.entries ++ [(key, value)] :=
  insert_of_find_eq_none value h

/-- A key keeps its place when it is given another value. -/
theorem keys_put (t : Table κ α) (key : κ) (value : α) :
    (t.put key value).keys = if key ∈ t.keys then t.keys else t.keys ++ [key] := by
  obtain ⟨entries⟩ := t
  simp only [put, keys]
  induction entries with
  | nil => simp [insert]
  | cons e rest ih =>
    obtain ⟨k, v⟩ := e
    by_cases hk : k = key
    · simp [insert, hk]
    · simp only [insert, hk, if_false, List.map_cons, ih, List.mem_cons, Ne.symm hk, false_or]
      split <;> simp_all

/-- What is found stands in the table. -/
theorem mem_entries_of_get? {t : Table κ α} {key : κ} {value : α} (h : t.get? key = some value) :
    (key, value) ∈ t.entries := by
  obtain ⟨entries⟩ := t
  simp only [get?] at h
  induction entries with
  | nil => cases h
  | cons e entries ih =>
    rw [find] at h
    split at h
    · next hkey =>
      cases h
      rw [← hkey]
      exact List.mem_cons_self ..
    · exact List.mem_cons_of_mem _ (ih h)

theorem mem_entries_put {t : Table κ α} {key : κ} {value : α} {e : κ × α}
    (h : e ∈ (t.put key value).entries) : e ∈ t.entries ∨ e = (key, value) := by
  obtain ⟨entries⟩ := t
  simp only [put] at h
  induction entries with
  | nil => exact .inr (List.mem_singleton.1 h)
  | cons e' entries ih =>
    rw [insert] at h
    split at h
    · next hkey =>
      rcases List.mem_cons.1 h with rfl | h
      · exact .inr (by rw [hkey])
      · exact .inl (List.mem_cons_of_mem _ h)
    · rcases List.mem_cons.1 h with rfl | h
      · exact .inl (List.mem_cons_self ..)
      · exact (ih h).imp_left (List.mem_cons_of_mem _)

end Table

end SchemaForms
