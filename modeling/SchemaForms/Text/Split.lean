/-!
Splitting a text at a separator, and looking for a text inside another one.
-/

namespace SchemaForms.Text

/-- Cuts at each occurrence of the separator, left to right without overlaps; `skip` characters
still belong to the separator found last. -/
def splitFrom (separator : List Char) : Nat → List Char → List (List Char)
  | _, [] => [[]]
  | skip + 1, _ :: cs => splitFrom separator skip cs
  | 0, c :: cs =>
    if separator.isPrefixOf (c :: cs) then [] :: splitFrom separator (separator.length - 1) cs
    else
      match splitFrom separator 0 cs with
      | part :: parts => (c :: part) :: parts
      | [] => [[c]]

/-- The parts of a text between the occurrences of a separator. -/
def splitAt (separator text : String) : List String :=
  (splitFrom separator.toList 0 text.toList).map String.ofList

/-- Whether a text occurs somewhere in another one. -/
def occursIn (needle : List Char) : List Char → Bool
  | [] => needle.isEmpty
  | c :: cs => needle.isPrefixOf (c :: cs) || occursIn needle cs

/-- What follows a text at the start of another one. -/
def afterPrefix : List Char → List Char → Option (List Char)
  | [], cs => some cs
  | _ :: _, [] => none
  | p :: ps, c :: cs => if p = c then afterPrefix ps cs else none

/-- What stands between two texts that begin and end another one. -/
def between (opening closing text : List Char) : Option (List Char) :=
  ((afterPrefix opening text).bind fun rest => afterPrefix closing.reverse rest.reverse).map
    List.reverse

theorem afterPrefix_append (p cs : List Char) : afterPrefix p (p ++ cs) = some cs := by
  induction p with
  | nil => rfl
  | cons c p ih => simp [afterPrefix, ih]

theorem between_append (opening closing cs : List Char) :
    between opening closing (opening ++ (cs ++ closing)) = some cs := by
  simp [between, afterPrefix_append]

theorem eq_append_of_afterPrefix {p cs rest : List Char} (h : afterPrefix p cs = some rest) :
    cs = p ++ rest := by
  induction p generalizing cs with
  | nil => exact Option.some.inj h
  | cons c p ih =>
    cases cs with
    | nil => cases h
    | cons d cs =>
      simp only [afterPrefix, Option.ite_none_right_eq_some] at h
      obtain ⟨rfl, h⟩ := h
      rw [List.cons_append, ← ih h]

theorem eq_append_of_between {opening closing text inner : List Char}
    (h : between opening closing text = some inner) : text = opening ++ (inner ++ closing) := by
  obtain ⟨reversed, hbind, rfl⟩ := Option.map_eq_some_iff.1 h
  obtain ⟨rest, hrest, hclosing⟩ := Option.bind_eq_some_iff.1 hbind
  have hreversed := congrArg List.reverse (eq_append_of_afterPrefix hclosing)
  rw [List.reverse_reverse, List.reverse_append, List.reverse_reverse] at hreversed
  rw [eq_append_of_afterPrefix hrest, hreversed]

end SchemaForms.Text
