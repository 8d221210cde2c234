import SchemaForms.Proofs.Text.Words
import Mathlib

/-!
Captions.  Main statement: the caption of a name of ASCII letters, digits, separators and white space
consists of words with single spaces between them, has all letters and digits of the name in their
order, and is its own caption.
-/

namespace SchemaForms.Caption

open SchemaForms.Text

/-- ASCII letters and digits, separators, and ASCII white space. -/
def inName (c : Char) : Bool :=
  c.isAlphanum || isSeparator c || (c.toNat < 0x80 && isBlank c)

/-- Letters and digits, of which the first is no small letter. -/
structure IsWord (w : List Char) : Prop where
  nonempty : w ≠ []
  alphanum : ∀ c ∈ w, c.isAlphanum
  start : ∀ c ∈ w.head?, ¬ isLower c

/-- Words with single spaces between them. -/
structure IsCaption (cs : List Char) : Prop where
  joined : ∃ ws, cs = [' '].intercalate ws ∧ ∀ w ∈ ws, IsWord w
  separators : ∀ c ∈ cs, ¬ isSeparator c
  leading : cs.head? ≠ some ' '
  trailing : cs.getLast? ≠ some ' '
  double : ¬ [' ', ' '] <:+: cs

/-! Letters and digits. -/

section Alphanum

variable {c : Char} {w : List Char}

theorem bounds_of_isAlphanum (h : c.isAlphanum) :
    (48 ≤ c.toNat ∧ c.toNat ≤ 57) ∨ (65 ≤ c.toNat ∧ c.toNat ≤ 90) ∨
      (97 ≤ c.toNat ∧ c.toNat ≤ 122) := by
  simp only [Char.isAlphanum, Char.isAlpha, Char.isUpper, Char.isLower, Char.isDigit,
    Bool.or_eq_true, Bool.and_eq_true, decide_eq_true_eq, ge_iff_le, UInt32.le_iff_toNat_le] at h
  have hval : c.val.toNat = c.toNat := rfl
  simp only [hval, UInt32.reduceToNat, Char.reduceVal] at h
  omega

theorem ascii_of_isAlphanum (h : c.isAlphanum) : c.toNat < 0x80 := by
  have := bounds_of_isAlphanum h
  omega

theorem not_blank_of_isAlphanum (h : c.isAlphanum) : isBlank c = false := by
  have := bounds_of_isAlphanum h
  simp only [isBlank, Bool.or_eq_false_iff, Bool.and_eq_false_iff, decide_eq_false_iff_not,
    beq_eq_false_iff_ne]
  omega

theorem not_separator_of_isAlphanum (h : c.isAlphanum) : ¬ isSeparator c := by
  simp only [isSeparator, Bool.or_eq_true, beq_iff_eq]
  rintro ((rfl | rfl) | rfl) <;> exact absurd h (by decide)

theorem isAlphanum_toLower (h : c.isAlphanum) : c.toLower.isAlphanum := by
  by_cases hc : c.isUpper
  · simp [Char.isAlphanum, Char.isAlpha, hc]
  · rwa [Char.toLower_eq_of_not_isUpper hc]

theorem isAlphanum_toUpper (h : c.isAlphanum) : c.toUpper.isAlphanum := by
  by_cases hc : c.isLower
  · simp [Char.isAlphanum, Char.isAlpha, hc]
  · rwa [Char.toUpper_eq_of_not_isLower hc]

theorem space_not_mem (h : ∀ c ∈ w, c.isAlphanum) : ' ' ∉ w :=
  fun hmem => absurd (h ' ' hmem) (by decide)

theorem toLower_eq_map (h : ∀ c ∈ w, c.isAlphanum) : toLower w = w.map Char.toLower :=
  lowerAfter_of_ascii (fun c hc => ascii_of_isAlphanum (h c hc)) []

end Alphanum

/-! Words of a caption. -/

section Word

variable {c : Char} {cs w : List Char}

theorem captionWord_cons (h : ∀ d ∈ c :: cs, d.isAlphanum) :
    captionWord (c :: cs) =
      c.toUpper :: if isAllCaps (c :: cs) then cs.map Char.toLower else cs := by
  have hc : c.isAlphanum := h c List.mem_cons_self
  rw [captionWord]
  split
  · rw [toLower_eq_map h, List.map_cons, capitalize,
      upperOf_of_ascii (ascii_of_isAlphanum (isAlphanum_toLower hc)),
      Char.toUpper_toLower_eq_toUpper, List.singleton_append]
  · rw [capitalize, upperOf_of_ascii (ascii_of_isAlphanum hc), List.singleton_append]

/-- Nothing but the letter case is changed. -/
theorem map_toLower_captionWord (h : ∀ c ∈ w, c.isAlphanum) :
    (captionWord w).map Char.toLower = w.map Char.toLower := by
  cases w with
  | nil => rfl
  | cons c cs =>
    rw [captionWord_cons h, List.map_cons, List.map_cons, Char.toLower_toUpper_eq_toLower]
    split
    · rw [List.map_map]
      exact congrArg _ (List.map_congr_left fun d _ => Char.toLower_toLower_eq_toLower d)
    · rfl

/-- A word of a caption in which no cut is left to be made, and which stays as it is. -/
structure Settled (w : List Char) : Prop extends IsWord w where
  humps : Uncut isHump w
  acronyms : Uncut isAcronymEnd w
  fixed : captionWord w = w

theorem settled_of_no_capital (h : ∀ d ∈ c :: cs, d.isAlphanum) (hc : ¬ c.isLower)
    (hcs : ∀ d ∈ cs, ¬ d.isUpper) : Settled (c :: cs) where
  nonempty := List.cons_ne_nil c cs
  alphanum := h
  start d hd := by
    cases hd
    rwa [isLower_of_ascii (ascii_of_isAlphanum (h c List.mem_cons_self))]
  humps := seam_isHump.uncut_of_no_capital c hcs
  acronyms := seam_isAcronymEnd.uncut_of_no_capital c hcs
  fixed := by
    have hmap : cs.map Char.toLower = cs :=
      (List.map_congr_left fun d hd => Char.toLower_eq_of_not_isUpper (hcs d hd)).trans
        (List.map_id cs)
    rw [captionWord_cons h, hmap, ite_self, Char.toUpper_eq_of_not_isLower hc]

/-- Without a hump no capital follows a character that is none. -/
theorem no_capital_of_uncut (h : ∀ d ∈ c :: cs, d.isAlphanum) (hhumps : Uncut isHump (c :: cs))
    (hc : ¬ c.isUpper) : ∀ d ∈ cs, ¬ d.isUpper := by
  induction cs generalizing c with
  | nil => exact nofun
  | cons d ds ih =>
    obtain ⟨hcalphanum, hds⟩ := List.forall_mem_cons.1 h
    have hnot : ¬ isHump (c :: d :: ds) := hhumps _ List.suffix_rfl
    have hd : ¬ d.isUpper := by
      intro hupper
      have hsmall : c.isLower || c.isDigit := by
        simpa [Char.isAlphanum, Char.isAlpha, hc] using hcalphanum
      exact hnot (Bool.and_eq_true_iff.2 ⟨hsmall, hupper⟩)
    have hlater := ih hds (fun s hs => hhumps s (hs.trans (List.suffix_cons c _))) hd
    exact List.forall_mem_cons.2 ⟨hd, hlater⟩

/-- Capitalising a word that has been cut settles it: a capital in it that is not the first character
stands among capitals at the start of a word that is not lowered. -/
theorem settled_captionWord (hne : w ≠ []) (h : ∀ c ∈ w, c.isAlphanum) (hhumps : Uncut isHump w)
    (hacronyms : Uncut isAcronymEnd w) : Settled (captionWord w) := by
  obtain ⟨c, cs, rfl⟩ := List.exists_cons_of_ne_nil hne
  obtain ⟨hc, hcs⟩ := List.forall_mem_cons.1 h
  have hfirst : ¬ c.toUpper.isLower := by simp
  rw [captionWord_cons h]
  split
  · refine settled_of_no_capital ?_ hfirst (List.forall_mem_map.2 fun d _ => by simp)
    exact List.forall_mem_cons.2 ⟨isAlphanum_toUpper hc,
      List.forall_mem_map.2 fun d hd => isAlphanum_toLower (hcs d hd)⟩
  · next hcaps =>
    by_cases hupper : c.isUpper
    · -- the word is left as it is
      have hlower := Char.not_isLower_of_isUpper hupper
      rw [Char.toUpper_eq_of_not_isLower hlower]
      refine ⟨⟨hne, h, fun d hd => ?_⟩, hhumps, hacronyms, ?_⟩
      · cases hd
        rwa [isLower_of_ascii (ascii_of_isAlphanum hc)]
      · rw [captionWord_cons h, if_neg hcaps, Char.toUpper_eq_of_not_isLower hlower]
    · exact settled_of_no_capital (List.forall_mem_cons.2 ⟨isAlphanum_toUpper hc, hcs⟩) hfirst
        (no_capital_of_uncut h hhumps hupper)

end Word

/-! Joined words. -/

section Joined

variable {ws : List (List Char)}

theorem joinWords_eq_intercalate (ws : List (List Char)) : joinWords ws = [' '].intercalate ws := by
  fun_induction joinWords ws with
  | case1 => rfl
  | case2 w => rw [List.intercalate_singleton]
  | case3 w ws hne ih =>
    obtain ⟨v, vs, rfl⟩ := List.exists_cons_of_ne_nil hne
    rw [List.intercalate_cons_cons, ih, List.append_assoc, List.singleton_append]

theorem mem_joinWords {c : Char} (h : c ∈ joinWords ws) : c = ' ' ∨ ∃ w ∈ ws, c ∈ w := by
  fun_induction joinWords ws with
  | case1 => cases h
  | case2 w => exact .inr ⟨w, List.mem_cons_self, h⟩
  | case3 w ws _ ih =>
    rcases List.mem_append.1 h with h | h
    · exact .inr ⟨w, List.mem_cons_self, h⟩
    · rcases List.mem_cons.1 h with rfl | h
      · exact .inl rfl
      · exact (ih h).imp_right fun ⟨v, hv, hc⟩ => ⟨v, List.mem_cons_of_mem w hv, hc⟩

theorem uncut_joinWords {test : List Char → Bool} (htest : Seam test)
    (h : ∀ w ∈ ws, Uncut test w) : Uncut test (joinWords ws) := by
  fun_induction joinWords ws with
  | case1 =>
    intro s hs
    rw [List.suffix_nil.1 hs]
    exact htest.nil
  | case2 w => exact h w List.mem_cons_self
  | case3 w ws _ ih =>
    obtain ⟨hw, hws⟩ := List.forall_mem_cons.1 h
    exact htest.uncut_append hw (ih hws)

theorem words_joinWords (h : ∀ w ∈ ws, IsWord w) : words (joinWords ws) = ws := by
  have hword (w : List Char) (hw : IsWord w) : words w = [w] :=
    words_of_not_blank hw.nonempty fun c hc => not_blank_of_isAlphanum (hw.alphanum c hc)
  fun_induction joinWords ws with
  | case1 => rfl
  | case2 w => exact hword w (h w List.mem_cons_self)
  | case3 w ws _ ih =>
    obtain ⟨hw, hws⟩ := List.forall_mem_cons.1 h
    rw [words_append_blank rfl, hword w hw, ih hws, List.singleton_append]

/-- Without the spaces the words follow one another. -/
theorem filter_joinWords (h : ∀ w ∈ ws, IsWord w) :
    (joinWords ws).filter (· != ' ') = ws.flatten := by
  have hword (w : List Char) (hw : IsWord w) : w.filter (· != ' ') = w :=
    List.filter_eq_self.2 fun c hc =>
      bne_iff_ne.2 fun hspace => space_not_mem hw.alphanum (hspace ▸ hc)
  fun_induction joinWords ws with
  | case1 => rfl
  | case2 w => rw [hword w (h w List.mem_cons_self), List.flatten_singleton]
  | case3 w ws _ ih =>
    obtain ⟨hw, hws⟩ := List.forall_mem_cons.1 h
    rw [List.filter_append, hword w hw, List.filter_cons_of_neg (by simp), ih hws,
      List.flatten_cons]

theorem head?_joinWords (h : ∀ w ∈ ws, IsWord w) : (joinWords ws).head? ≠ some ' ' := by
  have hword (w : List Char) (hw : IsWord w) : w.head? ≠ some ' ' :=
    fun hspace => space_not_mem hw.alphanum (List.mem_of_mem_head? hspace)
  fun_induction joinWords ws with
  | case1 => exact nofun
  | case2 w => exact hword w (h w List.mem_cons_self)
  | case3 w ws _ _ =>
    have hw := h w List.mem_cons_self
    rw [List.head?_append_of_ne_nil w hw.nonempty]
    exact hword w hw

theorem joinWords_ne_nil (hne : ws ≠ []) (h : ∀ w ∈ ws, IsWord w) : joinWords ws ≠ [] := by
  intro hnil
  have hwords := words_joinWords h
  rw [hnil] at hwords
  exact hne hwords.symm

theorem getLast?_joinWords (h : ∀ w ∈ ws, IsWord w) : (joinWords ws).getLast? ≠ some ' ' := by
  fun_induction joinWords ws with
  | case1 => exact nofun
  | case2 w =>
    exact fun hspace => space_not_mem (h w List.mem_cons_self).alphanum
      (List.mem_of_getLast? hspace)
  | case3 w ws hne ih =>
    obtain ⟨-, hws⟩ := List.forall_mem_cons.1 h
    obtain ⟨c, cs, hjoined⟩ := List.exists_cons_of_ne_nil (joinWords_ne_nil hne hws)
    have hlast := ih hws
    rw [hjoined] at hlast ⊢
    simpa [List.getLast?_append, List.getLast?_cons] using hlast

theorem not_double_joinWords (h : ∀ w ∈ ws, IsWord w) : ¬ [' ', ' '] <:+: joinWords ws := by
  have hword (w : List Char) (hw : IsWord w) (s : List Char) (hs : s <:+ w) :
      ∀ c ∈ s.head?, c ≠ ' ' := by
    rintro c hc rfl
    exact space_not_mem hw.alphanum (hs.subset (List.mem_of_mem_head? hc))
  fun_induction joinWords ws with
  | case1 => exact fun hdouble => nomatch List.infix_nil.1 hdouble
  | case2 w =>
    intro hdouble
    exact space_not_mem (h w List.mem_cons_self).alphanum (hdouble.subset List.mem_cons_self)
  | case3 w ws _ ih =>
    obtain ⟨hw, hws⟩ := List.forall_mem_cons.1 h
    have hjoint : ¬ [' ', ' '] <+: ' ' :: joinWords ws := by
      intro hprefix
      obtain ⟨rest, hrest⟩ := (List.cons_prefix_cons.1 hprefix).2
      exact head?_joinWords hws (hrest ▸ rfl)
    intro hdouble
    obtain ⟨s, hprefix, hsuffix⟩ := List.infix_iff_prefix_suffix.1 hdouble
    rcases suffix_append_cases hsuffix with ⟨s', hs', rfl⟩ | hs
    · cases s' with
      | nil => exact hjoint hprefix
      | cons c s' => exact hword w hw _ hs' c rfl (List.cons_prefix_cons.1 hprefix).1.symm
    · rcases List.suffix_cons_iff.1 hs with rfl | hs
      · exact hjoint hprefix
      · exact ih hws (List.infix_iff_prefix_suffix.2 ⟨s, hprefix, hs⟩)

theorem isCaption_joinWords (h : ∀ w ∈ ws, IsWord w) : IsCaption (joinWords ws) where
  joined := ⟨ws, joinWords_eq_intercalate ws, h⟩
  separators c hc := by
    rcases mem_joinWords hc with rfl | ⟨w, hw, hc⟩
    · exact nofun
    · exact not_separator_of_isAlphanum ((h w hw).alphanum c hc)
  leading := head?_joinWords h
  trailing := getLast?_joinWords h
  double := not_double_joinWords h

end Joined

/-! The caption of a name. -/

section Name

variable {name : List Char}

/-- The words that a name is cut into. -/
def nameWords (name : List Char) : List (List Char) :=
  words (splitHumps (splitAcronyms (spaceSeparators name)))

theorem nameWords_eq (name : List Char) :
    nameWords name = words (cut isHump (cut isAcronymEnd (spaceSeparators name))) := by
  rw [nameWords, splitHumps_eq_cut, splitAcronyms_eq_cut]

theorem filter_spaceSeparators (name : List Char) :
    (spaceSeparators name).filter (!isBlank ·) = name.filter fun c => !isSeparator c && !isBlank c := by
  induction name with
  | nil => rfl
  | cons c cs ih =>
    rw [spaceSeparators] at ih ⊢
    have hspace : isBlank ' ' = true := rfl
    by_cases hc : isSeparator c = true
    · simp [hc, ih, hspace]
    · simp [hc, ih, List.filter_cons]

/-- The words hold all letters and digits of the name, in order. -/
theorem flatten_nameWords (name : List Char) :
    (nameWords name).flatten = name.filter fun c => !isSeparator c && !isBlank c := by
  rw [nameWords_eq, flatten_words, filter_cut, filter_cut, filter_spaceSeparators]

theorem alphanum_nameWords (h : ∀ c ∈ name, inName c) :
    ∀ c ∈ (nameWords name).flatten, c.isAlphanum := by
  intro c hc
  rw [flatten_nameWords, List.mem_filter] at hc
  have hname := h c hc.1
  simp_all [inName]

theorem alphanum_of_mem_nameWords (h : ∀ c ∈ name, inName c) {w : List Char}
    (hw : w ∈ nameWords name) : ∀ c ∈ w, c.isAlphanum :=
  fun c hc => alphanum_nameWords h c (List.mem_flatten.2 ⟨w, hw, hc⟩)

theorem settled_of_mem (h : ∀ c ∈ name, inName c) {w : List Char}
    (hw : w ∈ (nameWords name).map captionWord) : Settled w := by
  obtain ⟨v, hv, rfl⟩ := List.mem_map.1 hw
  have halphanum := alphanum_of_mem_nameWords h hv
  rw [nameWords_eq] at hv
  have hpart := infix_of_mem_words hv
  have hacronyms := seam_isAcronymEnd.uncut_cut (spaceSeparators name)
  refine settled_captionWord (ne_nil_of_mem_words hv) halphanum ?_ ?_
  · exact seam_isHump.uncut_infix (seam_isHump.uncut_cut _) hpart
  · exact seam_isAcronymEnd.uncut_infix (seam_isAcronymEnd.uncut_cut_of hacronyms isHump) hpart

theorem ofChars_eq (name : List Char) : ofChars name = joinWords ((nameWords name).map captionWord) :=
  rfl

/-- Settled words make a caption that is its own caption. -/
theorem ofChars_joinWords {ws : List (List Char)} (h : ∀ w ∈ ws, Settled w) :
    ofChars (joinWords ws) = joinWords ws := by
  have hword : ∀ w ∈ ws, IsWord w := fun w hw => (h w hw).toIsWord
  have hspaced : spaceSeparators (joinWords ws) = joinWords ws := by
    refine (List.map_congr_left fun c hc => ?_).trans (List.map_id _)
    exact if_neg ((isCaption_joinWords hword).separators c hc)
  have hacronyms := uncut_joinWords seam_isAcronymEnd fun w hw => (h w hw).acronyms
  have hhumps := uncut_joinWords seam_isHump fun w hw => (h w hw).humps
  have hwords : nameWords (joinWords ws) = ws := by
    rw [nameWords_eq, hspaced, hacronyms.cut_eq, hhumps.cut_eq, words_joinWords hword]
  have hfixed : ws.map captionWord = ws :=
    (List.map_congr_left fun w hw => (h w hw).fixed).trans (List.map_id ws)
  rw [ofChars_eq, hwords, hfixed]

theorem toLower_ofChars (h : ∀ c ∈ name, inName c) :
    toLower ((ofChars name).filter (· != ' ')) =
      toLower (name.filter fun c => !isSeparator c && !isBlank c) := by
  have hword : ∀ w ∈ (nameWords name).map captionWord, IsWord w :=
    fun w hw => (settled_of_mem h hw).toIsWord
  have hcaption : ∀ c ∈ ((nameWords name).map captionWord).flatten, c.isAlphanum := by
    intro c hc
    obtain ⟨w, hw, hc⟩ := List.mem_flatten.1 hc
    exact (hword w hw).alphanum c hc
  rw [ofChars_eq, filter_joinWords hword, ← flatten_nameWords, toLower_eq_map hcaption,
    toLower_eq_map (alphanum_nameWords h), List.map_flatten, List.map_flatten, List.map_map]
  exact congrArg List.flatten (List.map_congr_left fun w hw =>
    map_toLower_captionWord (alphanum_of_mem_nameWords h hw))

end Name

/-- The caption of a name of ASCII letters, digits, separators and white space consists of words that
begin with no small letter, with single spaces between them; up to letter case it has the letters and
digits of the name, in order; and it is its own caption. -/
theorem caption_of_name (name : String) (h : ∀ c ∈ name.toList, inName c) :
    IsCaption (caption name).toList ∧
    toLower ((caption name).toList.filter (· != ' ')) =
      toLower (name.toList.filter fun c => !isSeparator c && !isBlank c) ∧
    caption (caption name) = caption name := by
  have hsettled := fun w => settled_of_mem h (w := w)
  have hlist : (caption name).toList = ofChars name.toList := String.toList_ofList
  have hself : ofChars (ofChars name.toList) = ofChars name.toList := ofChars_joinWords hsettled
  rw [hlist]
  refine ⟨isCaption_joinWords fun w hw => (hsettled w hw).toIsWord, toLower_ofChars h, ?_⟩
  rw [caption, hlist, hself]
  rfl

/-- A name with acronyms, humps, digits behind capitals, separators at its ends and white space. -/
def mixedName : String := "_XMLHttpRequest2\tURL-AB1c.9Z_"

theorem caption_of_name_mixed :
    (∀ c ∈ mixedName.toList, inName c) ∧
    (caption mixedName).toList = "Xml Http Request2 Url AB1c 9 Z".toList ∧
    IsCaption (caption mixedName).toList ∧
    toLower ((caption mixedName).toList.filter (· != ' ')) =
      toLower (mixedName.toList.filter fun c => !isSeparator c && !isBlank c) ∧
    caption (caption mixedName) = caption mixedName := by
  have hname : ∀ c ∈ mixedName.toList, inName c := List.all_eq_true.1 (by decide +kernel)
  exact ⟨hname, by decide +kernel, caption_of_name mixedName hname⟩

end SchemaForms.Caption
