import SchemaForms.Proofs.Text.Bytes
import SchemaForms.Xml.Lexer

/-!
Scanning: what the bytes of a text are to the lexer.  White space is found at the same places in a
text and in its bytes, and a tag ends at the first closing bracket outside quotes.
-/

namespace SchemaForms.Xml

open Byte
open Utf8 (Bytes bytes utf8EncodeChar_cases utf8EncodeChar_ne_nil)

/-! White space. -/

/-- Space, tab, carriage return and line feed. -/
def isSpace (c : Char) : Bool := c == ' ' || c == '\t' || c == '\r' || c == '\n'

def trimSpaceEnd (cs : List Char) : List Char := (cs.reverse.dropWhile isSpace).reverse

/-- A text without the white space at its ends. -/
def trimSpace (cs : List Char) : List Char := trimSpaceEnd (cs.dropWhile isSpace)

section FlatMap

variable {α β : Type} {p : α → Bool} {q : β → Bool} {f : α → List β} (hne : ∀ a, f a ≠ [])
  (h : ∀ a, ∀ b ∈ f a, q b = p a)

include hne h

/-- What is dropped of things that each stand for one or more others. -/
theorem dropWhile_flatMap (as : List α) : (as.flatMap f).dropWhile q = (as.dropWhile p).flatMap f := by
  induction as with
  | nil => rfl
  | cons a as ih =>
    rw [List.flatMap_cons]
    cases ha : p a with
    | true =>
      rw [List.dropWhile_append_of_pos fun b hb => (h a b hb).trans ha, ih,
        List.dropWhile_cons_of_pos ha]
    | false =>
      cases hfa : f a with
      | nil => exact absurd hfa (hne a)
      | cons b bs =>
        have hb : q b = false := (h a b (hfa ▸ List.mem_cons_self ..)).trans ha
        rw [List.cons_append, List.dropWhile_cons_of_neg (by simp [hb]),
          List.dropWhile_cons_of_neg (by simp [ha]), List.flatMap_cons, hfa, List.cons_append]

theorem dropWhileEnd_flatMap (as : List α) :
    ((as.flatMap f).reverse.dropWhile q).reverse =
      ((as.reverse.dropWhile p).reverse).flatMap f := by
  have hdrop := dropWhile_flatMap (f := List.reverse ∘ f) (fun a => by simpa using hne a)
    (fun a b hb => h a b (List.mem_reverse.1 hb)) as.reverse
  rw [List.reverse_flatMap, hdrop, List.reverse_flatMap]
  simp [Function.comp_def]

end FlatMap

theorem isBlank_of_mem (c : Char) : ∀ b ∈ String.utf8EncodeChar c, isBlank b = isSpace c := by
  intro b hb
  rcases utf8EncodeChar_cases c with ⟨hascii, he⟩ | ⟨hhigh, -, hbytes⟩
  · rw [he, List.mem_singleton] at hb
    have hall : ∀ n < 0x80, isBlank (UInt8.ofNat (Char.ofNat n).toNat) = isSpace (Char.ofNat n) := by
      decide
    rw [hb]
    simpa using hall c.toNat hascii
  · have hb := hbytes b hb
    have hblank : isBlank b = false := by
      unfold isBlank
      simp only [Bool.or_eq_false_iff, beq_eq_false_iff_ne]
      refine ⟨⟨⟨?_, ?_⟩, ?_⟩, ?_⟩ <;> rintro rfl <;> exact absurd hb (by decide)
    have hspace : isSpace c = false := by
      unfold isSpace
      simp only [Bool.or_eq_false_iff, beq_eq_false_iff_ne]
      refine ⟨⟨⟨?_, ?_⟩, ?_⟩, ?_⟩ <;> rintro rfl <;> exact absurd hhigh (by decide)
    rw [hblank, hspace]

theorem isBlank_of_mem_bytes {p : Bool} {cs : List Char} (h : ∀ c ∈ cs, isSpace c = p) {b : UInt8}
    (hb : b ∈ bytes cs) : isBlank b = p := by
  obtain ⟨c, hc, hbc⟩ := List.mem_flatMap.1 hb
  rw [isBlank_of_mem c b hbc, h c hc]

theorem dropBlank_append {cs : List Char} (h : ∀ c ∈ cs, isSpace c = true) (rest : Bytes) :
    dropBlank (bytes cs ++ rest) = dropBlank rest :=
  List.dropWhile_append_of_pos fun _ hb => isBlank_of_mem_bytes h hb

/-- White space goes at the front of a text where it goes at the front of its bytes. -/
theorem dropBlank_bytes {cs : List Char} (h : cs.dropWhile isSpace ≠ []) (rest : Bytes) :
    dropBlank (bytes cs ++ rest) = bytes (cs.dropWhile isSpace) ++ rest := by
  have hdrop : (bytes cs).dropWhile isBlank = bytes (cs.dropWhile isSpace) :=
    dropWhile_flatMap utf8EncodeChar_ne_nil isBlank_of_mem cs
  rw [dropBlank, List.dropWhile_append, hdrop, if_neg]
  rw [List.isEmpty_iff, Utf8.bytes_eq_nil]
  exact h

theorem dropBlank_cons {c : Char} (hc : isSpace c = false) (cs : List Char) (rest : Bytes) :
    dropBlank (bytes (c :: cs) ++ rest) = bytes (c :: cs) ++ rest := by
  have hdrop : (c :: cs).dropWhile isSpace = c :: cs := List.dropWhile_cons_of_neg (by simp [hc])
  rw [dropBlank_bytes (by simp [hdrop]), hdrop]

theorem trimBlankEnd_bytes (cs : List Char) : trimBlankEnd (bytes cs) = bytes (trimSpaceEnd cs) :=
  dropWhileEnd_flatMap utf8EncodeChar_ne_nil isBlank_of_mem cs

/-! Quotes. -/

/-- The quote that is open behind some bytes of a tag; nothing when the tag has ended in them. -/
def quoteAfter : Option UInt8 → Bytes → Option (Option UInt8)
  | within, [] => some within
  | none, b :: bs =>
    if b = greater then none
    else quoteAfter (if b = quote ∨ b = apostrophe then some b else none) bs
  | some q, b :: bs => quoteAfter (if b = q then none else some q) bs

theorem quoteAfter_append {within after : Option UInt8} {bs : Bytes}
    (h : quoteAfter within bs = some after) (rest : Bytes) :
    quoteAfter within (bs ++ rest) = quoteAfter after rest := by
  induction bs generalizing within with
  | nil =>
    have hsame : within = after := by cases within <;> exact Option.some.inj h
    rw [hsame]
    rfl
  | cons b bs ih =>
    cases within with
    | none =>
      rw [quoteAfter] at h
      split at h
      · cases h
      · next hb =>
        rw [List.cons_append, quoteAfter, if_neg hb]
        exact ih h
    | some q => exact ih h

/-- A tag goes on where it has not ended. -/
theorem splitTag_append {within after : Option UInt8} {bs : Bytes}
    (h : quoteAfter within bs = some after) (rest : Bytes) :
    splitTag within (bs ++ rest) = (bs ++ (splitTag after rest).1, (splitTag after rest).2) := by
  induction bs generalizing within with
  | nil =>
    have hsame : within = after := by cases within <;> exact Option.some.inj h
    rw [hsame]
    rfl
  | cons b bs ih =>
    cases within with
    | none =>
      rw [quoteAfter] at h
      split at h
      · cases h
      · next hb =>
        rw [List.cons_append, splitTag, if_neg hb]
        dsimp only
        rw [ih h]
        rfl
    | some q =>
      rw [List.cons_append, splitTag]
      dsimp only
      rw [ih h]
      rfl

/-- A tag that is read does not end before its end. -/
theorem quoteAfter_splitTag (within : Option UInt8) (bs : Bytes) :
    (quoteAfter within (splitTag within bs).1).isSome := by
  induction bs generalizing within with
  | nil => cases within <;> rfl
  | cons b bs ih =>
    cases within with
    | none =>
      rw [splitTag]
      split
      · rfl
      · next hb =>
        rw [quoteAfter, if_neg hb]
        exact ih _
    | some q => exact ih _

/-- Where no quote begins and no bracket stands, nothing changes. -/
theorem quoteAfter_plain {bs : Bytes} (hgreater : greater ∉ bs) (hquote : quote ∉ bs)
    (happos : apostrophe ∉ bs) : quoteAfter none bs = some none := by
  induction bs with
  | nil => rfl
  | cons b bs ih =>
    simp only [List.mem_cons, not_or] at hgreater hquote happos
    rw [quoteAfter, if_neg (Ne.symm hgreater.1),
      if_neg (not_or.2 ⟨Ne.symm hquote.1, Ne.symm happos.1⟩)]
    exact ih hgreater.2 hquote.2 happos.2

/-- A value ends at its quote. -/
theorem quoteAfter_value {q : UInt8} {value : Bytes} (h : q ∉ value) (rest : Bytes) :
    quoteAfter (some q) (value ++ q :: rest) = quoteAfter none rest := by
  induction value with
  | nil => simp [quoteAfter]
  | cons b value ih =>
    rw [List.mem_cons, not_or] at h
    rw [List.cons_append, quoteAfter, if_neg (Ne.symm h.1)]
    exact ih h.2

/-- Bytes without quotes in a tag that goes on hold no bracket. -/
theorem quoteAfter_of_unquoted {bs rest : Bytes} (hquote : quote ∉ bs) (happos : apostrophe ∉ bs)
    (h : (quoteAfter none (bs ++ rest)).isSome) :
    greater ∉ bs ∧ (quoteAfter none rest).isSome := by
  induction bs with
  | nil => exact ⟨List.not_mem_nil, h⟩
  | cons b bs ih =>
    simp only [List.mem_cons, not_or] at hquote happos
    rw [List.cons_append, quoteAfter] at h
    split at h
    · cases h
    · next hb =>
      rw [if_neg (not_or.2 ⟨Ne.symm hquote.1, Ne.symm happos.1⟩)] at h
      obtain ⟨hgreater, hrest⟩ := ih hquote.2 happos.2 h
      exact ⟨by simp [Ne.symm hb, hgreater], hrest⟩

end SchemaForms.Xml
