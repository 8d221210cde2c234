import Mathlib.Data.List.TakeWhile
import SchemaForms.Proofs.Xml.Tags

/-!
Parsing: what is known of a document that has been read.  Each of its elements comes from a tag, in
the scope of the element around it, and the tag is one that the lexer finds.
-/

namespace SchemaForms.Xml

open Byte
open Utf8 (Bytes bytes byteOf byteOf_not_mem)

/-! Tags. -/

/-- The name and the attributes in the tag that begins an element. -/
def Token.tag? : Token → Option (Bytes × Bytes)
  | .opening name attributes | .empty name attributes => some (name, attributes)
  | _ => none

/-- A tag as the lexer finds it: it does not end before its end, and is no other markup. -/
structure IsTag (name attributes : Bytes) : Prop where
  goesOn : (quoteAfter none (name ++ attributes)).isSome
  unbroken : ∀ b ∈ name, isBlank b = false
  first : ∀ b, name.head? = some b → b ≠ bang ∧ b ≠ slash ∧ b ≠ question

theorem quoteAfter_left {within : Option UInt8} {bs rest : Bytes}
    (h : (quoteAfter within (bs ++ rest)).isSome) : (quoteAfter within bs).isSome := by
  induction bs generalizing within with
  | nil => cases within <;> rfl
  | cons b bs ih =>
    cases within with
    | none =>
      rw [List.cons_append, quoteAfter] at h
      rw [quoteAfter]
      split at h
      · cases h
      · next hb =>
        rw [if_neg hb]
        exact ih h
    | some q => exact ih h

theorem isTag_of_tagToken {tag name attributes : Bytes} (hon : (quoteAfter none tag).isSome)
    (hfirst : ∀ b, tag.head? = some b → b ≠ bang ∧ b ≠ slash ∧ b ≠ question)
    (h : (tagToken tag).tag? = some (name, attributes)) : IsTag name attributes := by
  have hsplit (body : Bytes) (hon : (quoteAfter none body).isSome)
      (hfirst : ∀ b, body.head? = some b → b ≠ bang ∧ b ≠ slash ∧ b ≠ question) :
      IsTag (body.takeWhile (!isBlank ·)) (body.dropWhile (!isBlank ·)) := by
    refine ⟨by rwa [List.takeWhile_append_dropWhile], fun b hb => ?_, fun b hb => hfirst b ?_⟩
    · simpa using List.mem_takeWhile_imp hb
    · rw [List.head?_takeWhile] at hb
      exact (Option.filter_eq_some_iff.1 hb).1
  unfold tagToken at h
  split at h
  · next hlast =>
    cases h
    obtain ⟨body, rfl⟩ := List.getLast?_eq_some_iff.1 hlast
    rw [List.dropLast_concat]
    refine hsplit body (quoteAfter_left hon) fun b hb => hfirst b ?_
    rw [List.head?_append, hb, Option.some_or]
  · cases h
    exact hsplit tag hon hfirst

theorem tag?_declaration (bs : Bytes) : (declaration bs).1.tag? = none := by
  cases bs with
  | nil => rfl
  | cons b bs =>
    simp only [declaration]
    split_ifs
    · cases splitWhere endsComment [] (b :: bs) with
      | none => rfl
      | some found =>
        simp only [commentToken]
        split_ifs <;> rfl
    · cases splitWhere endsCdata [] (b :: bs) with
      | none => rfl
      | some found =>
        simp only [cdataToken]
        split_ifs <;> rfl
    · cases splitWhere endsDoctype [] (b :: bs) with
      | none => rfl
      | some found =>
        simp only [doctypeToken]
        split_ifs <;> rfl
    · rfl

theorem isTag_of_next {bs rest : Bytes} {t : Token} (h : next bs = some (t, rest))
    {name attributes : Bytes} (ht : t.tag? = some (name, attributes)) : IsTag name attributes := by
  unfold next at h
  split at h
  · cases h
  · next b tail _ =>
    split at h
    · cases tail with
      | nil => cases h
      | cons c cs =>
        have h : markup c cs = (t, rest) := Option.some.inj h
        unfold markup at h
        split_ifs at h with hbang hslash hquestion
        · have hnone := tag?_declaration cs
          rw [h, ht] at hnone
          cases hnone
        · cases h
          cases ht
        · cases h
          unfold instructionToken at ht
          split_ifs at ht
          · cases ht
          · cases ht
        · cases h
          refine isTag_of_tagToken (quoteAfter_splitTag none (c :: cs)) (fun d hd => ?_) ht
          -- the tag begins with the byte behind the bracket, if it is not empty
          obtain rfl : c = d := by
            rw [splitTag] at hd
            split_ifs at hd
            · cases hd
            · exact Option.some.inj hd
            · exact Option.some.inj hd
          exact ⟨hbang, hslash, hquestion⟩
    · cases h
      cases ht

theorem isTag_of_mem {bs : Bytes} {t : Token} (h : t ∈ tokens bs) {name attributes : Bytes}
    (ht : t.tag? = some (name, attributes)) : IsTag name attributes := by
  fun_induction tokens bs with
  | case1 => cases h
  | case2 =>
    rw [List.mem_singleton.1 h] at ht
    cases ht
  | case3 bs token rest _ hnext ih =>
    rcases List.mem_cons.1 h with rfl | h
    · exact isTag_of_next hnext ht
    · exact ih h

/-! Attributes. -/

theorem isSpace_of_bytes {cs : List Char} (h : ∀ b ∈ bytes cs, isBlank b = false) :
    ∀ c ∈ cs, isSpace c = false := by
  intro c hc
  obtain ⟨b, hb⟩ := List.exists_mem_of_ne_nil _ (Utf8.utf8EncodeChar_ne_nil c)
  rw [← isBlank_of_mem c b hb]
  exact h b (List.mem_flatMap.2 ⟨c, hc, hb⟩)

theorem splitValue_eq_some {bs value rest : Bytes} (h : splitValue bs = some (value, rest)) :
    ∃ before between q, bs = before ++ equals :: (between ++ q :: (value ++ q :: rest)) ∧
      (∀ b ∈ before, isBlank b = true) ∧ (∀ b ∈ between, isBlank b = true) ∧
      (q = quote ∨ q = apostrophe) ∧ q ∉ value := by
  have hblank {bs tail : Bytes} {b : UInt8} (h : dropBlank bs = b :: tail) :
      ∃ blank, bs = blank ++ b :: tail ∧ ∀ b ∈ blank, isBlank b = true :=
    ⟨bs.takeWhile isBlank, by rw [← h, dropBlank, List.takeWhile_append_dropWhile],
      fun b hb => List.mem_takeWhile_imp hb⟩
  unfold splitValue at h
  split at h
  · cases h
  · next e tail he =>
    split at h
    · next hequals =>
      split at h
      · cases h
      · next q tail' hq =>
        split at h
        · next hquote =>
          split at h
          · cases h
          · next c after hafter =>
            cases h
            obtain ⟨before, hbefore, hbefore'⟩ := hblank he
            obtain ⟨between, hbetween, hbetween'⟩ := hblank hq
            have hc : c = q := by
              have hhead := List.head?_dropWhile_not (· != q) tail'
              rw [hafter] at hhead
              simpa using hhead
            have htail : tail' = tail'.takeWhile (· != q) ++ q :: rest := by
              rw [← hc, ← hafter, hc, List.takeWhile_append_dropWhile]
            refine ⟨before, between, q, ?_, hbefore', hbetween', hquote, fun hm => ?_⟩
            · rw [← htail, ← hbetween, ← hequals, ← hbefore]
            · simpa using List.mem_takeWhile_imp hm
        · cases h
    · cases h

theorem splitAttribute_eq_some {bs key value rest : Bytes}
    (h : splitAttribute bs = some (key, value, rest)) :
    ∃ b tail after, key = b :: tail ∧ (∀ c ∈ tail, c ≠ equals ∧ isBlank c = false) ∧
      bs = key ++ after ∧ splitValue after = some (value, rest) := by
  cases bs with
  | nil => cases h
  | cons b bs =>
    simp only [splitAttribute, Option.map_eq_some_iff, Prod.exists, Prod.mk.injEq] at h
    obtain ⟨_, _, hvalue, rfl, rfl, rfl⟩ := h
    refine ⟨b, _, _, rfl, fun c hc => ?_, ?_, hvalue⟩
    · simpa using List.mem_takeWhile_imp hc
    · rw [List.cons_append, List.takeWhile_append_dropWhile]

/-- A key that has been read. -/
structure IsReadKey (cs : List Char) : Prop where
  ne : cs ≠ []
  spaceless : ∀ c ∈ cs, isSpace c = false
  equals : '=' ∉ cs.tail

theorem isReadKey_of_bytes {cs : List Char} {b : UInt8} {tail : Bytes} (h : bytes cs = b :: tail)
    (hb : isBlank b = false) (htail : ∀ c ∈ tail, c ≠ Byte.equals ∧ isBlank c = false) :
    IsReadKey cs := by
  refine ⟨?_, isSpace_of_bytes ?_, fun hm => ?_⟩
  · rintro rfl
    cases h
  · rw [h]
    exact List.forall_mem_cons.2 ⟨hb, fun c hc => (htail c hc).2⟩
  · cases cs with
    | nil => cases hm
    | cons c cs =>
      rw [Utf8.bytes_cons] at h
      cases hc : String.utf8EncodeChar c with
      | nil => exact Utf8.utf8EncodeChar_ne_nil c hc
      | cons b' bs =>
        rw [hc, List.cons_append] at h
        have hequals : Byte.equals ∈ tail := by
          rw [← (List.cons.inj h).2]
          exact List.mem_append_right _ (List.mem_flatMap.2 ⟨'=', hm, by decide⟩)
        exact (htail _ hequals).1 rfl

/-- How the first attribute of a tag is read. -/
theorem attributesOf_cons {seen : List Bytes} {bs : Bytes} {a : String × String}
    {pairs : List (String × String)} (h : attributesOf seen bs = .ok (a :: pairs)) :
    ∃ value rest, splitAttribute (dropBlank bs) = some (bytes a.1.toList, value, rest) ∧
      bytes a.1.toList ∉ seen ∧ attributesOf (bytes a.1.toList :: seen) rest = .ok pairs := by
  rw [attributesOf] at h
  split at h
  · cases h
  · split at h
    · cases h
    · next key value rest hsplit =>
      split at h
      · cases h
      · next hseen =>
        split at h
        · cases h
        · cases h
        · next key' value' hkey hvalue =>
          split at h
          · next pairs' hrest =>
            cases h
            rw [Utf8.bytes_of_decode hkey]
            exact ⟨value, rest, hsplit, by simpa using hseen, hrest⟩
          · cases h

section Attributes

variable {seen : List Bytes} {bs : Bytes} {pairs : List (String × String)}
  (h : attributesOf seen bs = .ok pairs)

include h

theorem keys_of_attributesOf : ∀ a ∈ pairs, IsReadKey a.1.toList ∧ bytes a.1.toList ∉ seen := by
  induction pairs generalizing seen bs with
  | nil => exact fun a ha => absurd ha List.not_mem_nil
  | cons a pairs ih =>
    obtain ⟨value, rest, hsplit, hseen, hrest⟩ := attributesOf_cons h
    obtain ⟨b, tail, after, hkey, htail, hafter, -⟩ := splitAttribute_eq_some hsplit
    refine List.forall_mem_cons.2 ⟨⟨isReadKey_of_bytes hkey ?_ htail, hseen⟩, fun a ha => ?_⟩
    · have hhead := List.head?_dropWhile_not isBlank bs
      rw [dropBlank] at hafter
      rw [hafter, hkey] at hhead
      simpa using hhead
    · obtain ⟨hread, hnot⟩ := ih hrest a ha
      exact ⟨hread, fun hm => hnot (List.mem_cons_of_mem _ hm)⟩

theorem nodup_of_attributesOf : (pairs.map (·.1)).Nodup := by
  induction pairs generalizing seen bs with
  | nil => exact List.nodup_nil
  | cons a pairs ih =>
    obtain ⟨value, rest, -, -, hrest⟩ := attributesOf_cons h
    refine List.nodup_cons.2 ⟨fun hm => ?_, ih hrest⟩
    obtain ⟨a', ha', hkey⟩ := List.mem_map.1 hm
    refine (keys_of_attributesOf hrest a' ha').2 ?_
    rw [hkey]
    exact List.mem_cons_self ..

/-- Keys without quotes cannot hold the bracket that would end the tag. -/
theorem greater_of_attributesOf (hon : (quoteAfter none bs).isSome)
    (hquotes : ∀ a ∈ pairs, '"' ∉ a.1.toList ∧ '\'' ∉ a.1.toList) :
    ∀ a ∈ pairs, greater ∉ bytes a.1.toList := by
  induction pairs generalizing seen bs with
  | nil => exact fun a ha => absurd ha List.not_mem_nil
  | cons a pairs ih =>
    rw [List.forall_mem_cons] at hquotes
    obtain ⟨value, rest, hsplit, -, hrest⟩ := attributesOf_cons h
    obtain ⟨b, tail, after, -, -, hafter, hvalue⟩ := splitAttribute_eq_some hsplit
    obtain ⟨before, between, q, rfl, hbefore, hbetween, hq, hnot⟩ := splitValue_eq_some hvalue
    have hblank {bs : Bytes} (hbs : ∀ b ∈ bs, isBlank b = true) : quote ∉ bs ∧ apostrophe ∉ bs :=
      ⟨fun hm => absurd (hbs _ hm) (by decide), fun hm => absurd (hbs _ hm) (by decide)⟩
    have hskip {bs rest : Bytes} (hbs : ∀ b ∈ bs, isBlank b = true)
        (hon : (quoteAfter none (bs ++ rest)).isSome) : (quoteAfter none rest).isSome :=
      (quoteAfter_of_unquoted (hblank hbs).1 (hblank hbs).2 hon).2
    have hstart : (quoteAfter none (bytes a.1.toList ++
        (before ++ equals :: (between ++ q :: (value ++ q :: rest))))).isSome := by
      rw [← hafter, dropBlank]
      have hled : ∀ b ∈ bs.takeWhile isBlank, isBlank b = true := fun b hb =>
        List.mem_takeWhile_imp hb
      refine hskip hled ?_
      rwa [List.takeWhile_append_dropWhile]
    obtain ⟨hgreater, hon⟩ := quoteAfter_of_unquoted
      (byteOf_not_mem (c := '"') (by decide) hquotes.1.1)
      (byteOf_not_mem (c := '\'') (by decide) hquotes.1.2) hstart
    have hon : (quoteAfter none (equals :: (between ++ q :: (value ++ q :: rest)))).isSome :=
      hskip hbefore hon
    have hon : (quoteAfter none (q :: (value ++ q :: rest))).isSome := hskip hbetween hon
    have hopen : quoteAfter none (q :: (value ++ q :: rest)) = quoteAfter none rest := by
      have hne : q ≠ greater := by
        rcases hq with rfl | rfl <;> decide
      rw [quoteAfter, if_neg hne, if_pos hq, quoteAfter_value hnot]
    rw [hopen] at hon
    exact List.forall_mem_cons.2 ⟨hgreater, ih hrest hon hquotes.2⟩

end Attributes

/-! Elements. -/

/-- An element that has been read in a scope. -/
inductive Element.Read : Scope → Element → Prop
  | intro {outer : Scope} {e : Element} {name attributes : Bytes} (tag : IsTag name attributes)
      (made : elementOf outer name attributes = .ok { e with text := none, children := [] })
      (text : ∀ t, e.text = some t → t.toList.all Text.isBlank = false)
      (inner : ∀ c ∈ e.children, c.Read e.scope) : e.Read outer

namespace Reading

/-- The open elements have been read as far as they go, each in the scope of the next one. -/
def Stacked : List (Bytes × Element) → Prop
  | [] => True
  | (_, e) :: rest => e.Read (scope ⟨rest, none⟩) ∧ Stacked rest

/-- Everything has been read. -/
structure Sound (r : Reading) : Prop where
  stacked : Stacked r.stack
  root : ∀ e, r.root = some e → e.Read Scope.initial

variable {r r' : Reading}

theorem Sound.finish (h : r.Sound) {e : Element} (he : e.Read r.scope) : (r.finish e).Sound := by
  obtain ⟨stack, root⟩ := r
  cases stack with
  | nil =>
    refine ⟨trivial, fun e' he' => ?_⟩
    cases he'
    exact he
  | cons top rest =>
    obtain ⟨name, parent⟩ := top
    obtain ⟨hparent, hrest⟩ := h.stacked
    cases hparent with
    | intro tag made text inner =>
      refine ⟨⟨.intro tag made text fun c hc => ?_, hrest⟩, h.root⟩
      rcases List.mem_append.1 hc with hc | hc
      · exact inner c hc
      · rw [List.mem_singleton.1 hc]
        exact he

theorem Sound.addText (h : r.Sound) (text : String) : (r.addText text).Sound := by
  obtain ⟨stack, root⟩ := r
  cases stack with
  | nil => exact h
  | cons top rest =>
    obtain ⟨name, e⟩ := top
    obtain ⟨he, hrest⟩ := h.stacked
    cases hblank : text.toList.all Text.isBlank with
    | true =>
      have hadd : Reading.addText ⟨(name, e) :: rest, root⟩ text = ⟨(name, e) :: rest, root⟩ := by
        simp [Reading.addText, hblank]
      rw [hadd]
      exact h
    | false =>
      have hadd : Reading.addText ⟨(name, e) :: rest, root⟩ text =
          ⟨(name, e.addText text) :: rest, root⟩ := by simp [Reading.addText, hblank]
      rw [hadd]
      cases he with
      | intro tag made text' inner =>
        refine ⟨⟨.intro tag made (fun t ht => ?_) inner, hrest⟩, h.root⟩
        cases ht
        rw [String.toList_append, List.all_append, Bool.and_eq_false_iff]
        exact .inr hblank

theorem read_of_elementOf {outer : Scope} {name attributes : Bytes} {e : Element}
    (tag : IsTag name attributes) (h : elementOf outer name attributes = .ok e) : e.Read outer := by
  obtain ⟨_, _, -, -, hbegins⟩ := elementOf_eq_ok.1 h
  have hbare : { e with text := none, children := [] } = e := by
    cases e
    cases hbegins.text
    cases hbegins.children
    rfl
  refine .intro tag (by rw [hbare]; exact h) (fun t ht => ?_) fun c hc => ?_
  · rw [hbegins.text] at ht
    cases ht
  · rw [hbegins.children] at hc
    cases hc

theorem Sound.step (h : r.Sound) {t : Token} (hstep : r.step t = .ok r')
    (htag : ∀ name attributes, t.tag? = some (name, attributes) → IsTag name attributes) :
    r'.Sound := by
  cases t with
  | opening name attributes =>
    rw [Reading.step] at hstep
    split at hstep
    · next e he =>
      cases hstep
      exact ⟨⟨read_of_elementOf (htag _ _ rfl) he, h.stacked⟩, h.root⟩
    · cases hstep
  | empty name attributes =>
    rw [Reading.step] at hstep
    split at hstep
    · next e he =>
      cases hstep
      exact h.finish (read_of_elementOf (htag _ _ rfl) he)
    · cases hstep
  | closing name =>
    obtain ⟨stack, root⟩ := r
    cases stack with
    | nil => cases hstep
    | cons top rest =>
      obtain ⟨expected, e⟩ := top
      obtain ⟨he, hrest⟩ := h.stacked
      simp only [Reading.step] at hstep
      split at hstep
      · cases hstep
        exact Sound.finish (r := ⟨rest, root⟩) ⟨hrest, h.root⟩ he
      · cases hstep
  | text bytes =>
    rw [Reading.step] at hstep
    split at hstep
    · cases hstep
      exact h
    · split at hstep
      · cases hstep
        exact h.addText _
      · cases hstep
  | cdata bytes =>
    cases hstep
    exact h.addText _
  | ignored =>
    cases hstep
    exact h
  | malformed => cases hstep

theorem Sound.run (h : r.Sound) {ts : List Token} (hrun : r.run ts = .ok r')
    (htags : ∀ t ∈ ts, ∀ name attributes, t.tag? = some (name, attributes) → IsTag name attributes) :
    r'.Sound := by
  induction ts generalizing r with
  | nil =>
    cases hrun
    exact h
  | cons t ts ih =>
    rw [List.forall_mem_cons] at htags
    rw [Reading.run] at hrun
    split at hrun
    · next s hs => exact ih (h.step hs htags.1) hrun htags.2
    · cases hrun

end Reading

/-- The root of a document has been read outside any declaration. -/
theorem read_of_readBytes {bs : Bytes} {r : Element} (h : readBytes bs = .ok (some r)) :
    r.Read Scope.initial := by
  obtain ⟨r', hrun, h⟩ := bind_eq_ok.1 h
  have hsound : Reading.Sound r' := by
    have hinitial : Reading.initial.Sound := ⟨trivial, fun e he => by cases he⟩
    exact hinitial.run hrun fun t ht name attributes => isTag_of_mem ht
  split at h
  · exact hsound.root r (Except.ok.inj h)
  · cases h

end SchemaForms.Xml
