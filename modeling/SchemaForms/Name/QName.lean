/-!
Qualified names: a local name and the namespace it belongs to, if any.
-/

namespace SchemaForms

structure QName where
  nspace : Option String
  localName : String
  deriving DecidableEq, Repr, Inhabited

namespace QName

/-- A name in no namespace. -/
def unqualified (localName : String) : QName := ⟨none, localName⟩

/-- A name in the given namespace; the empty namespace is none. -/
def of (nspace : Option String) (localName : String) : QName :=
  ⟨nspace.filter (· ≠ ""), localName⟩

/-- The namespace in braces, then the local name. -/
def text (q : QName) : String :=
  match q.nspace with
  | some ns => "\x7b" ++ ns ++ "\x7d" ++ q.localName
  | none => q.localName

/-- Names in no namespace first, then by namespace, then by local name; texts by code point. -/
def order (a b : QName) : Ordering :=
  let byLocal := compare a.localName b.localName
  match a.nspace, b.nspace with
  | none, none => byLocal
  | none, some _ => .lt
  | some _, none => .gt
  | some x, some y => (compare x y).then byLocal

end QName

/-- Splits a written name at its first colon: the part before it, if there is one, and the rest. -/
def splitChars : List Char → Option (List Char) × List Char
  | [] => (none, [])
  | c :: cs =>
    if c = ':' then (some [], cs)
    else
      match splitChars cs with
      | (some p, rest) => (some (c :: p), rest)
      | (none, rest) => (none, c :: rest)

/-- The prefix and the local part of a written name. -/
def splitName (written : String) : Option String × String :=
  let (p, rest) := splitChars written.toList
  (p.map String.ofList, String.ofList rest)

/-- A name as it is written: prefix, colon and local name, or the local name alone. -/
def writtenName (nsPrefix : Option String) (localName : String) : String :=
  match nsPrefix with
  | some p => p ++ ":" ++ localName
  | none => localName

/-- Splitting a written name gives its parts back, as long as the prefix holds no colon. -/
theorem splitChars_append {p : List Char} (h : ':' ∉ p) (rest : List Char) :
    splitChars (p ++ ':' :: rest) = (some p, rest) := by
  induction p with
  | nil => simp [splitChars]
  | cons c p ih =>
    obtain ⟨hc, hp⟩ : ¬ ':' = c ∧ ':' ∉ p := by simpa using h
    simp [splitChars, Ne.symm hc, ih hp]

theorem splitChars_eq_none_iff (cs : List Char) : (splitChars cs).1 = none ↔ ':' ∉ cs := by
  induction cs with
  | nil => simp [splitChars]
  | cons c cs ih =>
    by_cases hc : c = ':'
    · simp [splitChars, hc]
    · rw [List.mem_cons, not_or, ← ih, splitChars, if_neg hc]
      cases splitChars cs with
      | mk p rest => cases p <;> simp [Ne.symm hc]

end SchemaForms
