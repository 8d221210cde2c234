import SchemaForms.Text.Utf8

/-!
Lexing: a document is a sequence of tokens.  Comments, processing instructions and document types
are recognised and then ignored; what is no token ends the sequence.
-/

namespace SchemaForms.Xml

open SchemaForms.Utf8 (Bytes)

namespace Byte

def less : UInt8 := 0x3C
def greater : UInt8 := 0x3E
def slash : UInt8 := 0x2F
def bang : UInt8 := 0x21
def question : UInt8 := 0x3F
def dash : UInt8 := 0x2D
def equals : UInt8 := 0x3D
def apostrophe : UInt8 := 0x27
def quote : UInt8 := 0x22
def openBracket : UInt8 := 0x5B
def closeBracket : UInt8 := 0x5D

/-- Space, tab, carriage return and line feed. -/
def isBlank (b : UInt8) : Bool := b == 0x20 || b == 0x09 || b == 0x0D || b == 0x0A

/-- The small letter of an ASCII capital, and any other byte itself. -/
def toLower (b : UInt8) : UInt8 := if 0x41 ≤ b && b ≤ 0x5A then b + 0x20 else b

end Byte

open Byte

inductive Token where
  | text (bytes : Bytes)
  | cdata (bytes : Bytes)
  /-- A start tag: its name, and the rest of it, which holds the attributes. -/
  | opening (name attributes : Bytes)
  | empty (name attributes : Bytes)
  | closing (name : Bytes)
  | ignored
  | malformed
  deriving DecidableEq, Repr

def dropBlank (bs : Bytes) : Bytes := bs.dropWhile isBlank

def trimBlankEnd (bs : Bytes) : Bytes := (bs.reverse.dropWhile isBlank).reverse

/-- What stands before the first `>`, and what follows it; all and nothing when there is none. -/
def splitGreater (bs : Bytes) : Bytes × Bytes :=
  (bs.takeWhile (· != greater), (bs.dropWhile (· != greater)).drop 1)

/-- Splits a tag at the first `>` outside quotes. -/
def splitTag : Option UInt8 → Bytes → Bytes × Bytes
  | _, [] => ([], [])
  | none, b :: bs =>
    if b = greater then ([], bs)
    else
      let within := if b = quote ∨ b = apostrophe then some b else none
      let (tag, rest) := splitTag within bs
      (b :: tag, rest)
  | some q, b :: bs =>
    let within := if b = q then none else some q
    let (tag, rest) := splitTag within bs
    (b :: tag, rest)

/-- Splits at the first `>` at which the bytes before it, given backwards, satisfy a test. -/
def splitWhere (test : Bytes → Bool) : Bytes → Bytes → Option (Bytes × Bytes)
  | _, [] => none
  | before, b :: bs =>
    if b = greater && test before then some (before.reverse, bs)
    else splitWhere test (b :: before) bs

/-- Whether bytes start with a word in any letter case; the word is given in small letters. -/
def startsLike (word bs : Bytes) : Bool := (bs.take word.length).map toLower == word

def endsComment (before : Bytes) : Bool := 4 ≤ before.length && before.take 2 == [dash, dash]

def endsCdata (before : Bytes) : Bool := before.take 2 == [closeBracket, closeBracket]

/-- As many opening as closing angle brackets. -/
def endsDoctype (before : Bytes) : Bool :=
  before.count less == before.count greater

def cdataWord : Bytes := [0x5B, 0x63, 0x64, 0x61, 0x74, 0x61, 0x5B]

def doctypeWord : Bytes := [0x64, 0x6F, 0x63, 0x74, 0x79, 0x70, 0x65]

def commentToken (body : Bytes) : Token :=
  if body.take 2 == [dash, dash] then .ignored else .malformed

def cdataToken (body : Bytes) : Token :=
  if startsLike cdataWord body then
    .cdata ((body.drop cdataWord.length).take (body.length - cdataWord.length - 2))
  else .malformed

def doctypeToken (body : Bytes) : Token :=
  if startsLike doctypeWord body && dropBlank (body.drop doctypeWord.length) != [] then .ignored
  else .malformed

/-- What follows `<!`: a comment, a CDATA section or a document type. -/
def declaration (bs : Bytes) : Token × Bytes :=
  let finish (test : Bytes → Bool) (token : Bytes → Token) : Token × Bytes :=
    match splitWhere test [] bs with
    | some (body, rest) => (token body, rest)
    | none => (.malformed, [])
  match bs with
  | [] => (.malformed, [])
  | b :: _ =>
    if b = dash then finish endsComment commentToken
    else if b = openBracket then finish endsCdata cdataToken
    else if toLower b = 0x64 then finish endsDoctype doctypeToken
    else (.malformed, [])

/-- The name of an end tag; white space after it does not count, unless there is nothing else. -/
def closingName (bs : Bytes) : Bytes :=
  if trimBlankEnd bs = [] then bs else trimBlankEnd bs

/-- The token of a tag: its name ends at white space, and a slash at its end makes it empty. -/
def tagToken (tag : Bytes) : Token :=
  let splitName (body : Bytes) : Bytes × Bytes :=
    (body.takeWhile (!isBlank ·), body.dropWhile (!isBlank ·))
  if tag.getLast? = some slash then
    let (name, attributes) := splitName tag.dropLast
    .empty name attributes
  else
    let (name, attributes) := splitName tag
    .opening name attributes

/-- A processing instruction starts and ends with a question mark and holds something. -/
def instructionToken (body : Bytes) : Token :=
  if 2 ≤ body.length && body.getLast? == some question then .ignored else .malformed

/-- What follows `<`, of which `b` is the first byte. -/
def markup (b : UInt8) (bs : Bytes) : Token × Bytes :=
  if b = bang then declaration bs
  else if b = slash then
    let (name, rest) := splitGreater bs
    (.closing (closingName name), rest)
  else if b = question then
    let (body, rest) := splitGreater bs
    (instructionToken body, rest)
  else
    let (tag, rest) := splitTag none (b :: bs)
    (tagToken tag, rest)

/-- The next token and what follows it; none at the end, before which a lone `<` may stand. -/
def next (bs : Bytes) : Option (Token × Bytes) :=
  match dropBlank bs with
  | [] => none
  | b :: rest =>
    if b = less then
      match rest with
      | [] => none
      | c :: cs => some (markup c cs)
    else
      some (.text (trimBlankEnd (b :: rest.takeWhile (· != less))), rest.dropWhile (· != less))

/-! Each token takes something away from the input. -/

theorem length_dropBlank_le (bs : Bytes) : (dropBlank bs).length ≤ bs.length :=
  (List.dropWhile_suffix _).length_le

theorem length_dropWhile_le (p : UInt8 → Bool) (bs : Bytes) :
    (bs.dropWhile p).length ≤ bs.length :=
  (List.dropWhile_suffix _).length_le

theorem length_splitGreater_le (bs : Bytes) : (splitGreater bs).2.length ≤ bs.length := by
  have := length_dropWhile_le (· != greater) bs
  simp only [splitGreater, List.length_drop]
  omega

theorem length_splitTag_le (within : Option UInt8) (bs : Bytes) :
    (splitTag within bs).2.length ≤ bs.length := by
  induction bs generalizing within with
  | nil => cases within <;> simp [splitTag]
  | cons b bs ih =>
    cases within with
    | none =>
      simp only [splitTag]
      split
      · simp
      · exact Nat.le_succ_of_le (ih _)
    | some q => exact Nat.le_succ_of_le (ih _)

theorem length_of_splitWhere {test : Bytes → Bool} {before bs body rest : Bytes}
    (h : splitWhere test before bs = some (body, rest)) : rest.length ≤ bs.length := by
  induction bs generalizing before with
  | nil => simp [splitWhere] at h
  | cons b bs ih =>
    simp only [splitWhere] at h
    split at h
    · simp only [Option.some.injEq, Prod.mk.injEq] at h
      simp [← h.2]
    · exact Nat.le_succ_of_le (ih h)

theorem length_declaration_le (bs : Bytes) : (declaration bs).2.length ≤ bs.length := by
  have finish (test : Bytes → Bool) (token : Bytes → Token) :
      (match splitWhere test [] bs with
        | some (body, rest) => (token body, rest)
        | none => (Token.malformed, [])).2.length ≤ bs.length := by
    cases h : splitWhere test [] bs with
    | none => simp
    | some split => exact length_of_splitWhere h
  cases bs with
  | nil => simp [declaration]
  | cons b bs =>
    simp only [declaration]
    split
    · exact finish _ _
    split
    · exact finish _ _
    split
    · exact finish _ _
    · simp

theorem length_markup_le (b : UInt8) (bs : Bytes) : (markup b bs).2.length ≤ bs.length + 1 := by
  unfold markup
  split
  · exact Nat.le_succ_of_le (length_declaration_le bs)
  split
  · exact Nat.le_succ_of_le (length_splitGreater_le bs)
  split
  · exact Nat.le_succ_of_le (length_splitGreater_le bs)
  · exact length_splitTag_le none (b :: bs)

theorem length_of_next {bs rest : Bytes} {t : Token} (h : next bs = some (t, rest)) :
    rest.length < bs.length := by
  have hb := length_dropBlank_le bs
  unfold next at h
  split at h
  · simp at h
  · next b tail hd =>
    rw [hd, List.length_cons] at hb
    split at h
    · cases tail with
      | nil => simp at h
      | cons c cs =>
        simp only [Option.some.injEq] at h
        have hm := length_markup_le c cs
        rw [h] at hm
        simp only [List.length_cons] at hb hm
        omega
    · simp only [Option.some.injEq, Prod.mk.injEq] at h
      have := length_dropWhile_le (· != less) tail
      rw [h.2] at this
      omega

/-- The tokens of a document, up to and with the first malformed one. -/
def tokens (bs : Bytes) : List Token :=
  match _h : next bs with
  | none => []
  | some (.malformed, _) => [.malformed]
  | some (token, rest) => token :: tokens rest
termination_by bs.length
decreasing_by exact length_of_next _h

end SchemaForms.Xml
