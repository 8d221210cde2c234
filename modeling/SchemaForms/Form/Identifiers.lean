import SchemaForms.Table

/-!
Identifiers: one counter per name gives `name_0`, `name_1`, and so on.
-/

namespace SchemaForms

/-- The number of identifiers given out for each name. -/
structure Identifiers where
  counters : Table String Nat
  deriving DecidableEq, Repr, Inhabited

namespace Identifiers

def empty : Identifiers := ⟨.empty⟩

def count (ids : Identifiers) (name : String) : Nat := (ids.counters.get? name).getD 0

/-- The identifier that a counter value stands for. -/
def identifier (name : String) (n : Nat) : String := name ++ "_" ++ toString n

/-- The next identifier of a name. -/
def allocate (ids : Identifiers) (name : String) : String × Identifiers :=
  (identifier name (ids.count name), ⟨ids.counters.put name (ids.count name + 1)⟩)

/-- An identifier given from outside, or else the next one of the name. -/
def assign (ids : Identifiers) (name : String) : Option String → String × Identifiers
  | some id => (id, ids)
  | none => ids.allocate name

/-- Identifiers of one name differ when their numbers do. -/
theorem identifier_inj {name : String} {n m : Nat} (h : identifier name n = identifier name m) :
    n = m := by
  simp only [identifier, String.append_assoc, String.append_right_inj] at h
  have hrepr : n.repr = m.repr := by simpa using h
  have hdigits : Nat.toDigits 10 n = Nat.toDigits 10 m := by
    rw [← Nat.toList_repr, ← Nat.toList_repr, hrepr]
  rw [← @Nat.ofDigitChars_ten_toDigits n, hdigits, Nat.ofDigitChars_ten_toDigits]

/-- Allocating counts once for the name and leaves every other counter alone. -/
@[simp] theorem count_allocate (ids : Identifiers) (name other : String) :
    (ids.allocate name).2.count other =
      if name = other then ids.count name + 1 else ids.count other := by
  by_cases h : name = other <;> simp [count, allocate, h]

end Identifiers

end SchemaForms
