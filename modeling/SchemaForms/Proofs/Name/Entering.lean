import Mathlib.Data.List.Induction
import Mathlib.Data.List.Nodup

/-!
Lists in which a name is entered once: what is entered first under a name stays, and the names stand
in the order in which they were entered first.
-/

namespace SchemaForms

variable {α β : Type} [DecidableEq α]

theorem eraseDups_concat (xs : List α) (x : α) :
    (xs ++ [x]).eraseDups = if x ∈ xs then xs.eraseDups else xs.eraseDups ++ [x] := by
  rw [List.eraseDups_append]
  by_cases hx : x ∈ xs <;> simp [List.removeAll, hx, List.eraseDups_cons]

theorem nodup_eraseDups (xs : List α) : xs.eraseDups.Nodup := by
  induction xs using List.reverseRecOn with
  | nil => exact .nil
  | append_singleton xs x ih =>
    rw [eraseDups_concat]
    split
    case isTrue => exact ih
    case isFalse hx =>
      rw [← List.concat_eq_append]
      exact ih.concat fun h => hx (List.mem_eraseDups.1 h)

theorem eraseDups_of_nodup {xs : List α} (h : xs.Nodup) : xs.eraseDups = xs := by
  induction xs using List.reverseRecOn with
  | nil => rfl
  | append_singleton xs x ih =>
    have hx : x ∉ xs := fun hx => (List.nodup_append.1 h).2.2 x hx x (List.mem_singleton_self x) rfl
    rw [eraseDups_concat, if_neg hx, ih (List.nodup_append.1 h).1]

/-- A list is kept in front exactly if nothing in it is repeated. -/
theorem prefix_eraseDups_iff {xs ys : List α} : xs <+: (xs ++ ys).eraseDups ↔ xs.Nodup := by
  constructor
  · exact fun h => (nodup_eraseDups (xs ++ ys)).sublist h.sublist
  · intro h
    rw [List.eraseDups_append, eraseDups_of_nodup h]
    exact List.prefix_append ..

def insertName (names : List α) (name : α) : List α :=
  if name ∈ names then names else names ++ [name]

theorem foldl_insertName (known names : List α) :
    names.foldl insertName known.eraseDups = (known ++ names).eraseDups := by
  induction names generalizing known with
  | nil => rw [List.append_nil]; rfl
  | cons name names ih =>
    have hstep : insertName known.eraseDups name = (known ++ [name]).eraseDups := by
      rw [eraseDups_concat, insertName]
      simp only [List.mem_eraseDups]
    rw [List.foldl_cons, hstep, ih, List.append_assoc, List.singleton_append]

/-- Enters a name with its value, unless it is there. -/
def insertField (fields : List (α × β)) (field : α × β) : List (α × β) :=
  if fields.any (·.1 == field.1) then fields else fields ++ [field]

theorem lookup_insertField (fields : List (α × β)) (field : α × β) (name : α) :
    (insertField fields field).lookup name = (fields.lookup name).or ([field].lookup name) := by
  unfold insertField
  split
  case isTrue h =>
    by_cases hname : name = field.1
    · obtain ⟨other, hother, heq⟩ := List.any_eq_true.1 h
      have hsome : (fields.lookup name).isSome := by
        rw [List.lookup_isSome_iff]
        exact ⟨other, hother, by simp_all⟩
      rw [Option.or_of_isSome hsome]
    · have hnone : [field].lookup name = none := by simp [hname]
      rw [hnone, Option.or_none]
  case isFalse => rw [List.lookup_append]

theorem lookup_foldl_insertField (fields xs : List (α × β)) (name : α) :
    (xs.foldl insertField fields).lookup name = (fields.lookup name).or (xs.lookup name) := by
  induction xs generalizing fields with
  | nil => simp
  | cons x xs ih =>
    rw [List.foldl_cons, ih, lookup_insertField, Option.or_assoc, ← List.lookup_append,
      List.singleton_append]

theorem any_eq_false_iff_lookup (fields : List (α × β)) (name : α) :
    fields.any (·.1 == name) = false ↔ fields.lookup name = none := by
  rw [List.any_eq_false, List.lookup_eq_none_iff]
  refine forall₂_congr fun field _ => ?_
  rw [beq_iff_eq, bne_iff_ne]
  exact ne_comm

theorem mem_insertField (fields : List (α × β)) (field x : α × β) :
    x ∈ insertField fields field ↔ x ∈ fields ∨ fields.lookup x.1 = none ∧ x = field := by
  unfold insertField
  split
  case isTrue h =>
    refine ⟨.inl, fun hx => hx.resolve_right ?_⟩
    rintro ⟨hnone, rfl⟩
    rw [(any_eq_false_iff_lookup fields x.1).2 hnone] at h
    cases h
  case isFalse h =>
    rw [List.mem_append, List.mem_singleton]
    refine or_congr_right ⟨?_, fun hx => hx.2⟩
    rintro rfl
    exact ⟨(any_eq_false_iff_lookup fields x.1).1 (Bool.eq_false_iff.2 h), rfl⟩

/-- What is there first stays, and of all that is entered under a new name the first. -/
theorem mem_foldl_insertField (fields xs : List (α × β)) (x : α × β) :
    x ∈ xs.foldl insertField fields ↔
      x ∈ fields ∨ fields.lookup x.1 = none ∧ xs.lookup x.1 = some x.2 := by
  induction xs generalizing fields with
  | nil => simp
  | cons y xs ih =>
    rw [List.foldl_cons, ih, lookup_insertField, Option.or_eq_none_iff, mem_insertField]
    obtain ⟨a, b⟩ := x
    obtain ⟨a', b'⟩ := y
    by_cases ha : a = a'
    · subst ha
      simp [eq_comm (a := b)]
    · have hne : (a == a') = false := beq_eq_false_iff_ne.2 ha
      simp [List.lookup_cons, ha, hne]

end SchemaForms
