import SchemaForms.Text.CaseTable

/-!
Letter case.  ASCII letters are decided directly; for other characters the tables are searched.
A case mapping may give several characters, and a capital sigma at the end of a word becomes the
final form.
-/

namespace SchemaForms.Text

def inRuns (runs : List CharRun) (c : Char) : Bool := runs.any (·.holds c.toNat)

/-- The property Uppercase. -/
def isUpper (c : Char) : Bool :=
  if c.toNat < 0x80 then c.isUpper else inRuns upperRuns c

/-- The property Lowercase. -/
def isLower (c : Char) : Bool :=
  if c.toNat < 0x80 then c.isLower else inRuns lowerRuns c

/-- The property Cased: upper-case, lower-case or title-case. -/
def isCased (c : Char) : Bool :=
  isUpper c || isLower c || inRuns titleRuns c

/-- The property Case_Ignorable; in ASCII the apostrophe, full stop, colon, circumflex and grave. -/
def isCaseIgnorable (c : Char) : Bool :=
  if c.toNat < 0x80 then [0x27, 0x2E, 0x3A, 0x5E, 0x60].contains c.toNat
  else inRuns ignorableRuns c

/-- The mapping of one character: by a sequence, else by a run, else to itself. -/
def mapCase (sequences : List (Nat × List Nat)) (runs : List CaseRun) (c : Char) : List Char :=
  match sequences.lookup c.toNat with
  | some code => code.map Char.ofNat
  | none =>
    match runs.find? (·.run.holds c.toNat) with
    | some r => [Char.ofNat (c.toNat + r.distance).toNat]
    | none => [c]

/-- The upper-case form of a character. -/
def upperOf (c : Char) : List Char :=
  if c.toNat < 0x80 then [c.toUpper] else mapCase toUpperSequences toUpperRuns c

/-- The lower-case form of a character, wherever it stands. -/
def lowerOf (c : Char) : List Char :=
  if c.toNat < 0x80 then [c.toLower] else mapCase toLowerSequences toLowerRuns c

/-- Whether the first character that is not ignored is a cased one. -/
def meetsCased (cs : List Char) : Bool :=
  match cs.dropWhile isCaseIgnorable with
  | [] => false
  | c :: _ => isCased c

def capitalSigma : Char := 'Σ'

/-- Lower-cases what follows `before`, which holds the text so far from its end backwards. -/
def lowerAfter (before : List Char) : List Char → List Char
  | [] => []
  | c :: cs =>
    let image :=
      if c == capitalSigma then
        if meetsCased before && !meetsCased cs then ['ς'] else ['σ']
      else lowerOf c
    image ++ lowerAfter (c :: before) cs

/-- The lower-case form of a text. -/
def toLower (cs : List Char) : List Char := lowerAfter [] cs

theorem isUpper_of_ascii {c : Char} (h : c.toNat < 0x80) : isUpper c = c.isUpper := by
  simp [isUpper, h]

theorem isLower_of_ascii {c : Char} (h : c.toNat < 0x80) : isLower c = c.isLower := by
  simp [isLower, h]

theorem upperOf_of_ascii {c : Char} (h : c.toNat < 0x80) : upperOf c = [c.toUpper] := by
  simp [upperOf, h]

theorem lowerOf_of_ascii {c : Char} (h : c.toNat < 0x80) : lowerOf c = [c.toLower] := by
  simp [lowerOf, h]

/-- On ASCII text lower-casing goes character by character. -/
theorem lowerAfter_of_ascii {cs : List Char} (h : ∀ c ∈ cs, c.toNat < 0x80)
    (before : List Char) : lowerAfter before cs = cs.map Char.toLower := by
  induction cs generalizing before with
  | nil => rfl
  | cons c cs ih =>
    have hc : c.toNat < 0x80 := h c (by simp)
    have hs : (c == capitalSigma) = false := by
      apply beq_eq_false_iff_ne.2
      rintro rfl
      exact absurd hc (by decide)
    simp [lowerAfter, hs, lowerOf_of_ascii hc, ih (fun d hd => h d (by simp [hd]))]

end SchemaForms.Text
