import Mathlib.Tactic.SplitIfs
import SchemaForms.Proofs.Xml.Scanning
import SchemaForms.Xml.Markup
import SchemaForms.Xml.Reader

/-!
Tags: names and attributes as they are written in a tag, and as they are read back from it.
-/

namespace SchemaForms.Xml

open Byte
open Utf8 (Bytes bytes byteOf byteOf_not_mem)

/-- Characters that do not end a word of a tag, and begin no value. -/
def isTagChar (c : Char) : Bool := !isSpace c && c != '>' && c != '"' && c != '\''

/-- A name that stands in a tag: nothing in it ends the tag or makes it another kind of markup. -/
structure IsTagName (cs : List Char) : Prop where
  plain : ∀ c ∈ cs, isTagChar c = true
  first : ∃ c, cs.head? = some c ∧ c ≠ '!' ∧ c ≠ '/' ∧ c ≠ '?'
  last : ∀ c, cs.getLast? = some c → c ≠ '/'

/-- A key that stands in a tag. -/
structure IsTagKey (cs : List Char) : Prop where
  plain : ∀ c ∈ cs, isTagChar c = true ∧ c ≠ '='
  ne : cs ≠ []

theorem isTagChar_iff {c : Char} :
    isTagChar c = true ↔ isSpace c = false ∧ c ≠ '>' ∧ c ≠ '"' ∧ c ≠ '\'' := by
  simp [isTagChar, and_assoc]

section Plain

variable {cs : List Char} (h : ∀ c ∈ cs, isTagChar c = true)

include h

theorem isBlank_of_tagChars {b : UInt8} (hb : b ∈ bytes cs) : isBlank b = false :=
  isBlank_of_mem_bytes (fun c hc => (isTagChar_iff.1 (h c hc)).1) hb

theorem greater_not_mem : greater ∉ bytes cs :=
  byteOf_not_mem (c := '>') (by decide) fun hm => (isTagChar_iff.1 (h _ hm)).2.1 rfl

theorem quoteAfter_tagChars : quoteAfter none (bytes cs) = some none :=
  quoteAfter_plain (greater_not_mem h)
    (byteOf_not_mem (c := '"') (by decide) fun hm => (isTagChar_iff.1 (h _ hm)).2.2.1 rfl)
    (byteOf_not_mem (c := '\'') (by decide) fun hm => (isTagChar_iff.1 (h _ hm)).2.2.2 rfl)

end Plain

/-! Values. -/

theorem not_mem_escapeChar (d : Char) : ∀ c ∈ ['<', '>', '\'', '"'], c ∉ escapeChar d := by
  unfold escapeChar
  split_ifs with h₁ h₂ h₃ h₄ h₅
  · decide
  · decide
  · decide
  · decide
  · decide
  · simp only [List.mem_cons, List.not_mem_nil, or_false]
    rintro c (rfl | rfl | rfl | rfl)
    · exact Ne.symm h₁
    · exact Ne.symm h₂
    · exact Ne.symm h₄
    · exact Ne.symm h₅

/-- Escaped text has none of the characters that end it. -/
theorem not_mem_escapeChars {c : Char} (hc : c ∈ ['<', '>', '\'', '"']) (cs : List Char) :
    c ∉ escapeChars cs := by
  intro hm
  obtain ⟨d, -, hd⟩ := List.mem_flatMap.1 hm
  exact not_mem_escapeChar d c hc hd

/-- A text is read back from its escaped bytes. -/
theorem textOf_escaped (cs : List Char) : textOf (bytes (escapeChars cs)) = some (String.ofList cs) := by
  have hdecode : Utf8.decode (bytes (escapeChars cs)) = some (String.ofList (escapeChars cs)) := by
    simpa using Utf8.decode_bytes (String.ofList (escapeChars cs))
  rw [textOf, hdecode, Option.bind_some, String.toList_ofList, unescape_escapeChars, Option.map_some]

theorem quote_not_mem (cs : List Char) : quote ∉ bytes (escapeChars cs) :=
  byteOf_not_mem (c := '"') (by decide) (not_mem_escapeChars (by simp) cs)

/-! Attributes. -/

/-- The bytes of attributes, one after another. -/
theorem bytes_attributeText (key value : String) (rest : List (String × String)) :
    bytes (attributeText ((key, value) :: rest)) =
      bytes [' '] ++ (bytes key.toList ++ equals :: quote :: (bytes (escapeChars value.toList) ++
        quote :: bytes (attributeText rest))) := by
  have hequals (cs : List Char) : bytes ('=' :: cs) = equals :: bytes cs :=
    Utf8.bytes_cons_ascii (by decide) cs
  have hquote (cs : List Char) : bytes ('"' :: cs) = quote :: bytes cs :=
    Utf8.bytes_cons_ascii (by decide) cs
  rw [attributeText, ← hquote, ← Utf8.bytes_append, ← hquote, ← hequals, ← Utf8.bytes_append,
    ← Utf8.bytes_append]
  simp

variable {attributes : List (String × String)}

theorem quoteAfter_attributeText (h : ∀ a ∈ attributes, IsTagKey a.1.toList) :
    quoteAfter none (bytes (attributeText attributes)) = some none := by
  induction attributes with
  | nil => rfl
  | cons a rest ih =>
    obtain ⟨key, value⟩ := a
    rw [List.forall_mem_cons] at h
    have hkey : ∀ c ∈ key.toList, isTagChar c = true := fun c hc => (h.1.plain c hc).1
    have hspace : quoteAfter none (bytes [' ']) = some none := by decide
    have hbegin (bs : Bytes) : quoteAfter none (equals :: quote :: bs) = quoteAfter (some quote) bs := rfl
    rw [bytes_attributeText, quoteAfter_append hspace, quoteAfter_append (quoteAfter_tagChars hkey),
      hbegin, quoteAfter_value (quote_not_mem _)]
    exact ih h.2

theorem splitValue_written {value : Bytes} (h : quote ∉ value) (rest : Bytes) :
    splitValue (equals :: quote :: (value ++ quote :: rest)) = some (value, rest) := by
  have hvalue : ∀ b ∈ value, (b != quote) = true := fun b hb =>
    bne_iff_ne.2 fun he => h (he ▸ hb)
  have hequals (bs : Bytes) : dropBlank (equals :: bs) = equals :: bs :=
    List.dropWhile_cons_of_neg (by decide)
  have hquote (bs : Bytes) : dropBlank (quote :: bs) = quote :: bs :=
    List.dropWhile_cons_of_neg (by decide)
  simp only [splitValue, hequals, hquote, if_true, true_or]
  rw [List.dropWhile_append_of_pos hvalue, List.takeWhile_append_of_pos hvalue]
  simp

/-- The first attribute is split off. -/
theorem splitAttribute_written {key : List Char} (hkey : IsTagKey key) {value : Bytes}
    (hvalue : quote ∉ value) (rest : Bytes) :
    splitAttribute (bytes key ++ equals :: quote :: (value ++ quote :: rest)) =
      some (bytes key, value, rest) := by
  have hequals : equals ∉ bytes key :=
    byteOf_not_mem (c := '=') (by decide) fun hm => (hkey.plain _ hm).2 rfl
  have hin : ∀ b ∈ bytes key, (b != equals && !isBlank b) = true := by
    intro b hb
    rw [isBlank_of_tagChars (fun c hc => (hkey.plain c hc).1) hb]
    simpa using fun he : b = equals => hequals (he ▸ hb)
  cases hbytes : bytes key with
  | nil => exact absurd (Utf8.bytes_eq_nil.1 hbytes) hkey.ne
  | cons b bs =>
    rw [hbytes, List.forall_mem_cons] at hin
    have hout : (equals != equals && !isBlank equals) = false := by decide
    have hsplit := splitValue_written hvalue rest
    rw [List.cons_append, splitAttribute]
    dsimp only
    rw [List.dropWhile_append_of_pos hin.2, List.takeWhile_append_of_pos hin.2,
      List.dropWhile_cons_of_neg (by simp), List.takeWhile_cons_of_neg (by simp), hsplit]
    simp

/-- The first attribute of a tag is read back, unless its key has been seen. -/
theorem attributesOf_cons_written {key : String} (hkey : IsTagKey key.toList) (value : String)
    (rest : List (String × String)) (seen : List Bytes) :
    attributesOf seen (bytes (attributeText ((key, value) :: rest))) =
      if seen.contains (bytes key.toList) then .error .badAttribute
      else (attributesOf (bytes key.toList :: seen) (bytes (attributeText rest))).map
        ((key, value) :: ·) := by
  let tail := equals :: quote :: (bytes (escapeChars value.toList) ++ quote :: bytes (attributeText rest))
  have hdrop : dropBlank (bytes (attributeText ((key, value) :: rest))) = bytes key.toList ++ tail := by
    rw [bytes_attributeText, dropBlank_append (by decide)]
    cases hcs : key.toList with
    | nil => exact absurd hcs hkey.ne
    | cons c cs =>
      have hc := (hkey.plain c (by rw [hcs]; exact List.mem_cons_self ..)).1
      exact dropBlank_cons (isTagChar_iff.1 hc).1 cs tail
  have hsplit := splitAttribute_written hkey (quote_not_mem value.toList) (bytes (attributeText rest))
  rw [attributesOf, hdrop, if_neg (by simp [tail])]
  split
  · next hnone =>
    rw [hsplit] at hnone
    cases hnone
  · next key' value' rest' hsome =>
    rw [hsplit] at hsome
    cases hsome
    rw [Utf8.decode_bytes, textOf_escaped]
    cases attributesOf (bytes key.toList :: seen) (bytes (attributeText rest)) <;> simp [Except.map]

/-- The attributes of a tag are read back as they were. -/
theorem attributesOf_written {seen : List Bytes} (h : ∀ a ∈ attributes, IsTagKey a.1.toList)
    (hnodup : (attributes.map (·.1)).Nodup) (hseen : ∀ a ∈ attributes, bytes a.1.toList ∉ seen) :
    attributesOf seen (bytes (attributeText attributes)) = .ok attributes := by
  induction attributes generalizing seen with
  | nil =>
    rw [attributeText, attributesOf]
    rfl
  | cons a rest ih =>
    obtain ⟨key, value⟩ := a
    rw [List.forall_mem_cons] at h hseen
    rw [List.map_cons, List.nodup_cons] at hnodup
    have hrest : attributesOf (bytes key.toList :: seen) (bytes (attributeText rest)) = .ok rest := by
      refine ih h.2 hnodup.2 fun a ha => ?_
      rw [List.mem_cons, not_or]
      exact ⟨fun he => hnodup.1 (List.mem_map.2 ⟨a, ha, Utf8.eq_of_bytes he⟩), hseen.2 a ha⟩
    rw [attributesOf_cons_written h.1, if_neg (by simpa using hseen.1), hrest]
    rfl

/-- Whatever is read of the attributes of a tag is what they were. -/
theorem eq_of_attributesOf_written {seen : List Bytes} {pairs : List (String × String)}
    (h : ∀ a ∈ attributes, IsTagKey a.1.toList)
    (hread : attributesOf seen (bytes (attributeText attributes)) = .ok pairs) : pairs = attributes := by
  induction attributes generalizing seen pairs with
  | nil =>
    rw [attributeText, attributesOf] at hread
    exact (Except.ok.inj hread).symm
  | cons a rest ih =>
    obtain ⟨key, value⟩ := a
    rw [List.forall_mem_cons] at h
    rw [attributesOf_cons_written h.1] at hread
    split at hread
    · cases hread
    · cases hrest : attributesOf (bytes key.toList :: seen) (bytes (attributeText rest)) with
      | error f =>
        rw [hrest] at hread
        cases hread
      | ok pairs' =>
        rw [hrest] at hread
        obtain rfl := ih h.2 hrest
        exact (Except.ok.inj hread).symm

/-! Elements. -/

theorem bind_eq_ok {ε α β : Type} {x : Except ε α} {k : α → Except ε β} {b : β} :
    (x >>= k) = .ok b ↔ ∃ a, x = .ok a ∧ k a = .ok b := by
  cases x with
  | error f =>
    constructor
    · intro h
      cases h
    · rintro ⟨_, h, -⟩
      cases h
  | ok a =>
    constructor
    · exact fun h => ⟨a, rfl, h⟩
    · rintro ⟨_, ha, h⟩
      cases ha
      exact h

/-- The declarations among the attributes of a tag. -/
def declarationsIn (pairs : List (String × String)) : List (Option String × String) :=
  pairs.filterMap fun a => declarationOf a.1 a.2

/-- The attributes of a tag that declare nothing. -/
def othersIn (pairs : List (String × String)) : List (String × String) :=
  pairs.filter fun a => (declarationOf a.1 a.2).isNone

/-- A tag begins an element in a scope. -/
structure Begins (outer : Scope) (written : String) (pairs : List (String × String)) (e : Element) :
    Prop where
  name : e.scope.resolve written = .ok e.name
  nsPrefix : e.nsPrefix = (splitName written).1
  attributes : resolveAttributes e.scope (othersIn pairs) = .ok e.attributes
  text : e.text = none
  children : e.children = []
  declarations : e.declarations = declarationsIn pairs
  scope : e.scope = e.declarations.foldl Scope.declare outer

/-- How the element of a tag comes about. -/
theorem elementOf_eq_ok {outer : Scope} {name attributes : Bytes} {e : Element} :
    elementOf outer name attributes = .ok e ↔
      ∃ written pairs, Utf8.decode name = some written ∧ attributesOf [] attributes = .ok pairs ∧
        Begins outer written pairs e := by
  unfold elementOf
  cases Utf8.decode name with
  | none =>
    constructor
    · intro h
      cases h
    · rintro ⟨_, _, h, -⟩
      cases h
  | some written =>
    rw [bind_eq_ok]
    constructor
    · rintro ⟨pairs, hpairs, h⟩
      obtain ⟨qname, hqname, h⟩ := bind_eq_ok.1 h
      obtain ⟨as, has, h⟩ := bind_eq_ok.1 h
      have hpairs : attributesOf [] attributes = .ok pairs := by
        cases hread : attributesOf [] attributes with
        | error f => rw [hread] at hpairs; cases hpairs
        | ok pairs' => rw [hread] at hpairs; cases hpairs; rfl
      obtain rfl := Except.ok.inj h
      exact ⟨written, pairs, rfl, hpairs, hqname, rfl, has, rfl, rfl, rfl, rfl⟩
    · rintro ⟨_, pairs, hwritten, hpairs, h⟩
      cases hwritten
      obtain ⟨qname, nsPrefix, as, text, children, declarations, scope⟩ := e
      obtain ⟨hqname, hleading, has, htext, hchildren, hdeclarations, hscope⟩ := h
      dsimp only at hqname hleading has htext hchildren hdeclarations hscope
      subst hleading htext hchildren hdeclarations hscope
      exact ⟨pairs, by rw [hpairs]; rfl, bind_eq_ok.2 ⟨qname, hqname, bind_eq_ok.2 ⟨as, has, rfl⟩⟩⟩

end SchemaForms.Xml
