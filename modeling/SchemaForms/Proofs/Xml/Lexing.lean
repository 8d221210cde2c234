import Mathlib.Data.List.Chain
import Mathlib.Data.List.TakeWhile
import SchemaForms.Proofs.Xml.Tags

/-!
Lexing what is written: the tokens of pieces of markup are the pieces, whatever white space stands
between them.
-/

namespace SchemaForms.Xml

open Byte
open Utf8 (Bytes bytes byteOf byteOf_not_mem)

/-! Single tokens. -/

theorem tokens_of_next {bs rest : Bytes} {t : Token} (h : next bs = some (t, rest))
    (ht : t ≠ .malformed) : tokens bs = t :: tokens rest := by
  rw [tokens]
  split
  · next hnone =>
    rw [h] at hnone
    cases hnone
  · next hsome =>
    rw [h] at hsome
    cases hsome
    exact absurd rfl ht
  · next hsome =>
    rw [h] at hsome
    cases hsome
    rfl

theorem tokens_of_next_none {bs : Bytes} (h : next bs = none) : tokens bs = [] := by
  rw [tokens]
  split
  · rfl
  · next hsome =>
    rw [h] at hsome
    cases hsome
  · next hsome =>
    rw [h] at hsome
    cases hsome

theorem tokens_of_malformed {bs rest : Bytes} (h : next bs = some (.malformed, rest)) :
    tokens bs = [.malformed] := by
  rw [tokens]
  split
  · next hnone =>
    rw [h] at hnone
    cases hnone
  · rfl
  · next hne hsome =>
    rw [h] at hsome
    cases hsome
    exact absurd rfl hne

/-- White space before a token does not matter. -/
theorem tokens_of_dropBlank {bs bs' : Bytes} (h : dropBlank bs = dropBlank bs') :
    tokens bs = tokens bs' := by
  have hnext : next bs = next bs' := by
    unfold next
    rw [h]
  cases hs : next bs' with
  | none => rw [tokens_of_next_none hs, tokens_of_next_none (hnext.trans hs)]
  | some found =>
    obtain ⟨t, rest⟩ := found
    by_cases ht : t = .malformed
    · subst ht
      rw [tokens_of_malformed hs, tokens_of_malformed (hnext.trans hs)]
    · rw [tokens_of_next hs ht, tokens_of_next (hnext.trans hs) ht]

theorem next_markup (b : UInt8) (bs : Bytes) : next (less :: b :: bs) = some (markup b bs) := by
  have hdrop : dropBlank (less :: b :: bs) = less :: b :: bs := List.dropWhile_cons_of_neg (by decide)
  rw [next, hdrop]
  rfl

/-- The first byte of a name makes markup a tag, which ends where its quotes allow it. -/
theorem next_tag {name : List Char} (hname : IsTagName name) {tag : Bytes}
    (htag : quoteAfter none (bytes name ++ tag) = some none) (rest : Bytes) :
    next (less :: (bytes name ++ (tag ++ greater :: rest))) =
      some (tagToken (bytes name ++ tag), rest) := by
  have hsplit : splitTag none (bytes name ++ (tag ++ greater :: rest)) = (bytes name ++ tag, rest) := by
    rw [← List.append_assoc, splitTag_append htag]
    simp [splitTag]
  obtain ⟨c, hc, hbang, hslash, hquestion⟩ := hname.first
  obtain ⟨cs, rfl⟩ : ∃ cs, name = c :: cs := by
    cases name with
    | nil => cases hc
    | cons d cs => exact ⟨cs, by rw [Option.some.inj hc]⟩
  cases hbytes : bytes (c :: cs) with
  | nil => exact absurd (Utf8.bytes_eq_nil.1 hbytes) (by simp)
  | cons b bs =>
    have hb : b ≠ bang := Utf8.byte_ne_of_head hbytes (d := '!') (by decide) hbang
    have hb' : b ≠ slash := Utf8.byte_ne_of_head hbytes (d := '/') (by decide) hslash
    have hb'' : b ≠ question := Utf8.byte_ne_of_head hbytes (d := '?') (by decide) hquestion
    rw [hbytes] at hsplit
    rw [List.cons_append, next_markup, markup, if_neg hb, if_neg hb', if_neg hb'',
      ← List.cons_append, hsplit]

theorem isBlank_attributeText (attributes : List (String × String)) {b : UInt8}
    (hb : (bytes (attributeText attributes)).head? = some b) : isBlank b = true := by
  cases attributes with
  | nil => cases hb
  | cons a rest =>
    obtain ⟨key, value⟩ := a
    rw [bytes_attributeText] at hb
    obtain rfl : (0x20 : UInt8) = b := Option.some.inj hb
    decide

theorem attributeText_cons (a : String × String) (rest : List (String × String)) :
    attributeText (a :: rest) =
      (' ' :: a.1.toList ++ '=' :: '"' :: escapeChars a.2.toList ++ ['"']) ++ attributeText rest := by
  rw [attributeText]
  simp

theorem getLast?_attributeText (a : String × String) (rest : List (String × String)) :
    (attributeText (a :: rest)).getLast? = some '"' := by
  induction rest generalizing a with
  | nil => rw [attributeText_cons, attributeText, List.append_nil, List.getLast?_concat]
  | cons a' rest ih => rw [attributeText_cons, List.getLast?_append, ih, Option.some_or]

section Tags

variable {name : List Char} (hname : IsTagName name) {attributes : List (String × String)}

include hname

theorem takeWhile_name {rest : Bytes} (hrest : ∀ b, rest.head? = some b → isBlank b = true) :
    (bytes name ++ rest).takeWhile (!isBlank ·) = bytes name ∧
      (bytes name ++ rest).dropWhile (!isBlank ·) = rest := by
  have hall : ∀ b ∈ bytes name, (!isBlank b) = true := fun b hb => by
    rw [isBlank_of_tagChars hname.plain hb]
    rfl
  rw [List.takeWhile_append_of_pos hall, List.dropWhile_append_of_pos hall]
  cases rest with
  | nil => exact ⟨List.append_nil _, rfl⟩
  | cons b bs => simp [hrest b rfl]

/-- A tag is split into its name and its attributes. -/
theorem tagToken_opening :
    tagToken (bytes name ++ bytes (attributeText attributes)) =
      .opening (bytes name) (bytes (attributeText attributes)) := by
  have hlast : (bytes name ++ bytes (attributeText attributes)).getLast? ≠ some slash := by
    rw [← Utf8.bytes_append]
    cases attributes with
    | nil =>
      obtain ⟨c, hc⟩ : ∃ c, name.getLast? = some c := by
        obtain ⟨c, hc, -⟩ := hname.first
        cases name with
        | nil => cases hc
        | cons d cs => exact ⟨_, List.getLast?_eq_some_getLast (by simp)⟩
      rw [attributeText, List.append_nil]
      exact Utf8.getLast?_bytes_ne hc (d := '/') (by decide) (hname.last c hc)
    | cons a rest =>
      refine Utf8.getLast?_bytes_ne (c := '"') (d := '/') ?_ (by decide) (by decide)
      rw [List.getLast?_append, getLast?_attributeText, Option.some_or]
  obtain ⟨htake, hdrop⟩ := takeWhile_name hname fun _ => isBlank_attributeText attributes
  simp only [tagToken, if_neg hlast, htake, hdrop]

theorem tagToken_empty :
    tagToken (bytes name ++ (bytes (attributeText attributes) ++ [slash])) =
      .empty (bytes name) (bytes (attributeText attributes)) := by
  have hlast : (bytes name ++ (bytes (attributeText attributes) ++ [slash])).getLast? = some slash := by
    rw [← List.append_assoc, List.getLast?_concat]
  obtain ⟨htake, hdrop⟩ := takeWhile_name hname fun _ => isBlank_attributeText attributes
  rw [tagToken, if_pos hlast, ← List.append_assoc, List.dropLast_concat]
  simp only [htake, hdrop]

theorem next_closing (rest : Bytes) :
    next (less :: slash :: (bytes name ++ greater :: rest)) = some (.closing (bytes name), rest) := by
  have hgreater : ∀ b ∈ bytes name, (b != greater) = true := fun b hb =>
    bne_iff_ne.2 fun he => greater_not_mem hname.plain (he ▸ hb)
  have hsplit : splitGreater (bytes name ++ greater :: rest) = (bytes name, rest) := by
    unfold splitGreater
    rw [List.takeWhile_append_of_pos hgreater, List.dropWhile_append_of_pos hgreater]
    simp
  have htrim : trimBlankEnd (bytes name) = bytes name := by
    rw [trimBlankEnd, List.dropWhile_eq_self_iff.2, List.reverse_reverse]
    intro hlength
    have hb := List.mem_reverse.1 (List.getElem_mem hlength)
    rw [isBlank_of_tagChars hname.plain hb]
    exact Bool.false_ne_true
  rw [next_markup, markup, if_neg (by decide), if_pos rfl, hsplit]
  simp only [closingName, htrim, ite_self]

end Tags

/-- The instruction that begins a document. -/
def declarationBody : Bytes := bytes "xml version=\"1.0\" encoding=\"UTF-8\"?".toList

theorem bytes_declaration :
    bytes Piece.declaration.chars = less :: question :: (declarationBody ++ [greater]) := by
  decide +kernel

theorem next_declaration (rest : Bytes) :
    next (bytes Piece.declaration.chars ++ rest) = some (.ignored, rest) := by
  have hsplit : splitGreater (declarationBody ++ [greater] ++ rest) = (declarationBody, rest) := by
    have hgreater : ∀ b ∈ declarationBody, (b != greater) = true := by decide +kernel
    rw [List.append_assoc, splitGreater, List.takeWhile_append_of_pos hgreater,
      List.dropWhile_append_of_pos hgreater]
    simp
  have htoken : instructionToken declarationBody = .ignored := by decide +kernel
  rw [bytes_declaration, List.cons_append, List.cons_append, next_markup, markup,
    if_neg (by decide), if_neg (by decide), if_pos rfl, hsplit]
  dsimp only
  rw [htoken]

/-- Text ends where markup begins. -/
theorem next_text {cs : List Char} (hless : '<' ∉ cs) (hcs : cs.dropWhile isSpace ≠ [])
    {rest : Bytes} (hrest : rest = [] ∨ ∃ bs, rest = less :: bs) :
    next (bytes cs ++ rest) = some (.text (bytes (trimSpace cs)), rest) := by
  have hless : ∀ b ∈ bytes (cs.dropWhile isSpace), (b != less) = true := by
    intro b hb
    rw [bne_iff_ne]
    rintro rfl
    refine byteOf_not_mem (c := '<') (by decide) ?_ hb
    exact fun hm => hless ((List.dropWhile_suffix _).subset hm)
  rw [next, dropBlank_bytes hcs]
  have hsplit : (bytes (cs.dropWhile isSpace) ++ rest).takeWhile (· != less) =
      bytes (cs.dropWhile isSpace) ∧
      (bytes (cs.dropWhile isSpace) ++ rest).dropWhile (· != less) = rest := by
    rw [List.takeWhile_append_of_pos hless, List.dropWhile_append_of_pos hless]
    rcases hrest with rfl | ⟨bs, rfl⟩
    · exact ⟨List.append_nil _, rfl⟩
    · simp
  cases hfirst : bytes (cs.dropWhile isSpace) with
  | nil => exact absurd (Utf8.bytes_eq_nil.1 hfirst) hcs
  | cons b bs =>
    rw [hfirst] at hsplit hless
    have hb : (b != less) = true := hless b (List.mem_cons_self ..)
    rw [List.cons_append, List.takeWhile_cons_of_pos (p := (· != less)) hb,
      List.dropWhile_cons_of_pos (p := (· != less)) hb] at hsplit
    rw [List.cons_append]
    dsimp only
    rw [if_neg (bne_iff_ne.1 hb), hsplit.1, hsplit.2, ← hfirst, trimBlankEnd_bytes]
    rfl

/-! Pieces. -/

namespace Piece

/-- A piece that is read as what it is. -/
def Legible : Piece → Prop
  | .declaration => True
  | .opening name attributes | .empty name attributes =>
    IsTagName name.toList ∧ ∀ a ∈ attributes, IsTagKey a.1.toList
  | .closing name => IsTagName name.toList
  | .text _ => True
  | .comment s => ¬ "-->".toList <:+: s.toList

/-- What is read of a piece: of text nothing when it is white space. -/
def tokens : Piece → List Token
  | .declaration => [.ignored]
  | .opening name attributes => [.opening (bytes name.toList) (bytes (attributeText attributes))]
  | .empty name attributes => [.empty (bytes name.toList) (bytes (attributeText attributes))]
  | .closing name => [.closing (bytes name.toList)]
  | .text s =>
    if s.toList.dropWhile isSpace = [] then []
    else [.text (bytes (escapeChars (trimSpace s.toList)))]
  | .comment _ => [.ignored]

end Piece

theorem escapeChar_ne_nil (c : Char) : escapeChar c ≠ [] := by
  unfold escapeChar
  split_ifs <;> simp

theorem isSpace_of_mem (c : Char) : ∀ d ∈ escapeChar c, isSpace d = isSpace c := by
  unfold escapeChar
  split_ifs with h₁ h₂ h₃ h₄ h₅
  · rw [h₁]
    decide
  · rw [h₂]
    decide
  · rw [h₃]
    decide
  · rw [h₄]
    decide
  · rw [h₅]
    decide
  · intro d hd
    rw [List.mem_singleton.1 hd]

theorem dropWhile_escapeChars (cs : List Char) :
    (escapeChars cs).dropWhile isSpace = escapeChars (cs.dropWhile isSpace) :=
  dropWhile_flatMap escapeChar_ne_nil isSpace_of_mem cs

theorem escapeChars_eq_nil {cs : List Char} : escapeChars cs = [] ↔ cs = [] := by
  cases cs with
  | nil => exact Iff.rfl
  | cons c cs => simp [escapeChars, escapeChar_ne_nil c]

/-- White space is not escaped. -/
theorem trimSpace_escapeChars (cs : List Char) :
    trimSpace (escapeChars cs) = escapeChars (trimSpace cs) := by
  unfold trimSpace
  rw [dropWhile_escapeChars]
  exact dropWhileEnd_flatMap escapeChar_ne_nil isSpace_of_mem _

/-! Comments. -/

/-- Markup ends at the first bracket that the bytes before it allow. -/
theorem splitWhere_append {test : Bytes → Bool} {before bs : Bytes}
    (hno : ∀ u v, bs = u ++ greater :: v → test (u.reverse ++ before) = false)
    (hend : test (bs.reverse ++ before) = true) (rest : Bytes) :
    splitWhere test before (bs ++ greater :: rest) = some ((bs.reverse ++ before).reverse, rest) := by
  induction bs generalizing before with
  | nil =>
    have hend : test before = true := hend
    rw [List.nil_append, splitWhere]
    simp [hend]
  | cons b bs ih =>
    have hb : (b = greater && test before) = false := by
      rw [Bool.and_eq_false_iff]
      by_cases hb : b = greater
      · exact .inr (hno [] bs (by rw [hb]; rfl))
      · exact .inl (by simpa using hb)
    have hsame (bs : Bytes) : (b :: bs).reverse ++ before = bs.reverse ++ b :: before := by simp
    rw [List.cons_append, splitWhere, if_neg (by simp [hb]), ih, hsame]
    · intro u v huv
      rw [← hsame]
      exact hno (b :: u) v (by rw [huv]; rfl)
    · rw [← hsame]
      exact hend

/-- What would end a comment earlier is not in it. -/
theorem endsComment_eq_false {s : List Char} (h : ¬ "-->".toList <:+: s) {u v : Bytes}
    (huv : dash :: dash :: (bytes s ++ [dash, dash]) = u ++ greater :: v) :
    endsComment u.reverse = false := by
  by_contra hend
  rw [Bool.not_eq_false, endsComment, Bool.and_eq_true] at hend
  obtain ⟨hlength, htake⟩ := hend
  have hlength : 4 ≤ u.length := by simpa using hlength
  have htake : u.reverse.take 2 = [dash, dash] := by simpa using htake
  obtain ⟨w, rfl⟩ : ∃ w, u = w ++ [dash, dash] := by
    refine ⟨(u.reverse.drop 2).reverse, ?_⟩
    have hu := congrArg List.reverse (List.take_append_drop 2 u.reverse)
    rwa [htake, List.reverse_append, List.reverse_reverse, eq_comm] at hu
  obtain ⟨a, b, w, rfl⟩ : ∃ a b w', w = a :: b :: w' := by
    rcases w with _ | ⟨a, _ | ⟨b, w⟩⟩
    · simp at hlength
    · simp at hlength
    · exact ⟨a, b, w, rfl⟩
  have hrest : bytes s ++ [dash, dash] = (w ++ [dash, dash, greater]) ++ v := by
    have hcons := (List.cons.inj (List.cons.inj huv).2).2
    simpa using hcons
  obtain ⟨x, hx⟩ : ∃ x, bytes s = w ++ dash :: dash :: greater :: x := by
    rcases List.append_eq_append_iff.1 hrest with ⟨x, hw, hdashes⟩ | ⟨x, hs, -⟩
    · rcases List.eq_nil_or_concat' x with rfl | ⟨x, b, rfl⟩
      · exact ⟨[], by simpa using hw.symm⟩
      · have hlast := congrArg List.getLast? hw
        have hb : greater = b := by simpa using hlast
        have hmem : b ∈ [dash, dash] := by
          rw [hdashes]
          simp
        rw [← hb] at hmem
        exact absurd hmem (by decide)
    · exact ⟨x, by simpa using hs⟩
  obtain ⟨before, after, rfl, -, hafter⟩ := Utf8.split_at_byte (c := '-') (by decide) hx
  obtain ⟨after, rfl, hbracket⟩ := Utf8.head_of_byte (c := '-') (by decide) hafter
  obtain ⟨after, rfl, -⟩ := Utf8.head_of_byte (c := '>') (by decide) hbracket
  exact h ⟨before, after, by simp⟩

theorem bytes_comment (s : String) : bytes (Piece.comment s).chars =
    less :: bang :: (dash :: dash :: (bytes s.toList ++ [dash, dash]) ++ [greater]) := by
  have hchars : (Piece.comment s).chars = "<!--".toList ++ (s.toList ++ "-->".toList) := by
    rw [← List.append_assoc]
    rfl
  have hbefore : bytes "<!--".toList = [less, bang, dash, dash] := by decide
  have hafter : bytes "-->".toList = [dash, dash, greater] := by decide
  rw [hchars, Utf8.bytes_append, Utf8.bytes_append, hbefore, hafter]
  simp

theorem next_comment {s : String} (h : ¬ "-->".toList <:+: s.toList) (rest : Bytes) :
    next (bytes (Piece.comment s).chars ++ rest) = some (.ignored, rest) := by
  let body := dash :: dash :: (bytes s.toList ++ [dash, dash])
  have hend : endsComment (body.reverse ++ []) = true := by
    simp [body, endsComment]
  have hsplit : splitWhere endsComment [] (body ++ greater :: rest) =
      some ((body.reverse ++ []).reverse, rest) := by
    refine splitWhere_append (fun u v huv => ?_) hend rest
    rw [List.append_nil]
    exact endsComment_eq_false h huv
  rw [List.append_nil, List.reverse_reverse] at hsplit
  have hdeclaration : declaration (body ++ greater :: rest) = (.ignored, rest) := by
    have htoken : commentToken body = .ignored := rfl
    have hfirst : body ++ greater :: rest =
        dash :: (dash :: (bytes s.toList ++ [dash, dash]) ++ greater :: rest) := rfl
    rw [hfirst] at hsplit ⊢
    unfold declaration
    simp only [if_true, hsplit, htoken]
  have happend : bytes (Piece.comment s).chars ++ rest = less :: bang :: (body ++ greater :: rest) := by
    rw [bytes_comment]
    simp [body]
  rw [happend, next_markup, markup, if_pos rfl, hdeclaration]

theorem bytes_less (cs : List Char) : bytes ('<' :: cs) = less :: bytes cs :=
  Utf8.bytes_cons_ascii (by decide) cs

theorem bytes_slash (cs : List Char) : bytes ('/' :: cs) = slash :: bytes cs :=
  Utf8.bytes_cons_ascii (by decide) cs

theorem bytes_greater : bytes ['>'] = [greater] := Utf8.bytes_cons_ascii (by decide) []

section Chars

variable (name : String) (attributes : List (String × String))

theorem bytes_opening : bytes (Piece.opening name attributes).chars =
    less :: (bytes name.toList ++ (bytes (attributeText attributes) ++ [greater])) := by
  have hchars : (Piece.opening name attributes).chars =
      '<' :: (name.toList ++ (attributeText attributes ++ ['>'])) := by
    rw [← List.append_assoc]
    rfl
  rw [hchars, bytes_less, Utf8.bytes_append, Utf8.bytes_append, bytes_greater]

theorem bytes_empty : bytes (Piece.empty name attributes).chars =
    less :: (bytes name.toList ++ (bytes (attributeText attributes) ++ [slash] ++ [greater])) := by
  have hchars : (Piece.empty name attributes).chars =
      '<' :: (name.toList ++ (attributeText attributes ++ '/' :: ['>'])) := by
    rw [← List.append_assoc]
    rfl
  rw [hchars, bytes_less, Utf8.bytes_append, Utf8.bytes_append, bytes_slash, bytes_greater,
    List.append_assoc, List.singleton_append]

theorem bytes_closing : bytes (Piece.closing name).chars =
    less :: slash :: (bytes name.toList ++ [greater]) := by
  have hchars : (Piece.closing name).chars = '<' :: '/' :: (name.toList ++ ['>']) := rfl
  rw [hchars, bytes_less, bytes_slash, Utf8.bytes_append, bytes_greater]

end Chars

/-- A piece other than text is read whatever follows it, and begins with a bracket. -/
theorem tokens_piece {p : Piece} (h : p.Legible) (htext : p.isText = false) (rest : Bytes) :
    tokens (bytes p.chars ++ rest) = p.tokens ++ tokens rest ∧ ∃ bs, bytes p.chars = less :: bs := by
  cases p with
  | declaration => exact ⟨tokens_of_next (next_declaration rest) (by simp), _, bytes_declaration⟩
  | opening name attributes =>
    have hquotes : quoteAfter none (bytes name.toList ++ bytes (attributeText attributes)) =
        some none := by
      rw [quoteAfter_append (quoteAfter_tagChars h.1.plain)]
      exact quoteAfter_attributeText h.2
    have hnext := next_tag h.1 hquotes rest
    rw [tagToken_opening h.1] at hnext
    rw [bytes_opening]
    refine ⟨tokens_of_next ?_ (by simp), _, rfl⟩
    simpa using hnext
  | empty name attributes =>
    have hquotes : quoteAfter none (bytes name.toList ++
        (bytes (attributeText attributes) ++ [slash])) = some none := by
      rw [quoteAfter_append (quoteAfter_tagChars h.1.plain),
        quoteAfter_append (quoteAfter_attributeText h.2)]
      rfl
    have hnext := next_tag h.1 hquotes rest
    rw [tagToken_empty h.1] at hnext
    rw [bytes_empty]
    refine ⟨tokens_of_next ?_ (by simp), _, rfl⟩
    simpa using hnext
  | closing name =>
    rw [bytes_closing]
    refine ⟨tokens_of_next ?_ (by simp), _, rfl⟩
    simpa using next_closing h rest
  | text s => cases htext
  | comment s =>
    exact ⟨tokens_of_next (next_comment h rest) (by simp), _, bytes_comment s⟩

/-- Characters that write pieces one after another, with white space before them and at the end. -/
inductive Written : List Piece → List Char → Prop
  | done {gap : List Char} (h : ∀ c ∈ gap, isSpace c = true) : Written [] gap
  | piece {gap cs : List Char} {p : Piece} {ps : List Piece} (h : ∀ c ∈ gap, isSpace c = true)
      (hrest : Written ps cs) : Written (p :: ps) (gap ++ (p.chars ++ cs))

theorem written_plain (ps : List Piece) : Written ps (writePlain ps) := by
  induction ps with
  | nil => exact .done fun c hc => absurd hc List.not_mem_nil
  | cons p ps ih => exact .piece (fun c hc => absurd hc List.not_mem_nil) ih

theorem isSpace_lineBreak {depth : Nat} {c : Char} (h : c ∈ lineBreak depth) : isSpace c = true := by
  rcases List.mem_cons.1 h with rfl | h
  · decide
  · rw [List.eq_of_mem_replicate h]
    decide

theorem written_indented (depth : Nat) (joined : Bool) (ps : List Piece) :
    Written ps (writeIndented depth joined ps) := by
  induction ps generalizing depth joined with
  | nil => exact .done fun c hc => absurd hc List.not_mem_nil
  | cons p ps ih =>
    rw [writeIndented, List.append_assoc]
    refine .piece (fun c hc => ?_) (ih _ _)
    split at hc
    · cases hc
    · exact isSpace_lineBreak hc

/-- Behind its white space, what is written begins with a bracket unless it begins with text. -/
theorem Written.start {ps : List Piece} {cs : List Char} (h : Written ps cs)
    (hok : ∀ p ∈ ps, p.Legible) (hfirst : ∀ p, ps.head? = some p → p.isText = false) :
    ∃ gap tail, cs = gap ++ tail ∧ (∀ c ∈ gap, isSpace c = true) ∧
      (bytes tail = [] ∨ ∃ bs, bytes tail = less :: bs) := by
  cases h with
  | done hgap => exact ⟨cs, [], (List.append_nil _).symm, hgap, .inl rfl⟩
  | @piece gap cs p ps hgap hrest =>
    obtain ⟨-, bs, hbs⟩ := tokens_piece (hok p (List.mem_cons_self ..)) (hfirst p rfl) []
    exact ⟨gap, _, rfl, hgap, .inr ⟨bs ++ bytes cs, by rw [Utf8.bytes_append, hbs]; rfl⟩⟩

theorem trimSpace_append {cs gap : List Char} (h : ∀ c ∈ gap, isSpace c = true)
    (hcs : cs.dropWhile isSpace ≠ []) : trimSpace (cs ++ gap) = trimSpace cs := by
  unfold trimSpace trimSpaceEnd
  rw [List.dropWhile_append, if_neg (by simpa using hcs), List.reverse_append,
    List.dropWhile_append_of_pos fun c hc => h c (List.mem_reverse.1 hc)]

/-- What is written is read as it is, as long as no text stands directly behind another one. -/
theorem tokens_written {ps : List Piece} {cs : List Char} (h : Written ps cs)
    (hok : ∀ p ∈ ps, p.Legible)
    (hapart : ps.IsChain fun p q => p.isText = false ∨ q.isText = false) :
    tokens (bytes cs) = ps.flatMap Piece.tokens := by
  induction h with
  | @done gap hgap =>
    have hdrop : dropBlank (bytes gap ++ []) = [] := dropBlank_append hgap []
    rw [List.append_nil] at hdrop
    exact tokens_of_next_none (by rw [next, hdrop])
  | @piece gap cs p ps hgap hrest ih =>
    rw [List.forall_mem_cons] at hok
    rw [List.isChain_cons] at hapart
    have ih := ih hok.2 hapart.2
    rw [List.flatMap_cons, Utf8.bytes_append, tokens_of_dropBlank (dropBlank_append hgap _),
      Utf8.bytes_append]
    cases htext : p.isText with
    | false => rw [(tokens_piece hok.1 htext _).1, ih]
    | true =>
      cases p with
      | text s =>
        obtain ⟨gap', tail, rfl, hgap', hstart⟩ := hrest.start hok.2 fun q hq =>
          (hapart.1 q hq).resolve_left (by simp [Piece.isText])
        have htail : tokens (bytes tail) = ps.flatMap Piece.tokens := by
          rw [← ih, Utf8.bytes_append, tokens_of_dropBlank (dropBlank_append hgap' _)]
        rw [Utf8.bytes_append, ← List.append_assoc, ← Utf8.bytes_append]
        change tokens (bytes (escapeChars s.toList ++ gap') ++ bytes tail) = _
        by_cases hblank : s.toList.dropWhile isSpace = []
        · have hspace : ∀ c ∈ escapeChars s.toList ++ gap', isSpace c = true := by
            have hescaped : (escapeChars s.toList).dropWhile isSpace = [] := by
              rw [dropWhile_escapeChars, hblank]
              rfl
            intro c hc
            exact (List.mem_append.1 hc).elim (List.dropWhile_eq_nil_iff.1 hescaped c) (hgap' c)
          rw [tokens_of_dropBlank (dropBlank_append hspace _), htail, Piece.tokens, if_pos hblank,
            List.nil_append]
        · have hne : (escapeChars s.toList).dropWhile isSpace ≠ [] := by
            rw [dropWhile_escapeChars, ne_eq, escapeChars_eq_nil]
            exact hblank
          have hless : '<' ∉ escapeChars s.toList ++ gap' := by
            rw [List.mem_append, not_or]
            exact ⟨not_mem_escapeChars (by simp) _, fun hm => absurd (hgap' _ hm) (by decide)⟩
          have hwhole : (escapeChars s.toList ++ gap').dropWhile isSpace ≠ [] := by
            rw [List.dropWhile_append, if_neg (by simpa using hne)]
            simp [hne]
          rw [tokens_of_next (next_text hless hwhole hstart) (by simp), htail,
            trimSpace_append hgap' hne, trimSpace_escapeChars, Piece.tokens, if_neg hblank,
            List.singleton_append]
      | _ => cases htext

end SchemaForms.Xml
