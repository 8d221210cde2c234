import SchemaForms.Caption
import Mathlib.Data.List.Basic

/-!
Words: how a text falls into words at its white space, and how camel case is cut into words.  A cut
is a space behind a character, made where the text from this character on passes a test.  What has
been cut needs no further cut, and neither do its words.
-/

namespace SchemaForms

namespace Text

@[simp] theorem words_nil : words [] = [] := rfl

theorem words_cons_of_blank {c : Char} (hc : isBlank c = true) (cs : List Char) :
    words (c :: cs) = words cs := by
  rw [words.eq_def (c :: cs)]
  exact if_pos hc

theorem words_cons_of_not_blank {c : Char} (hc : isBlank c = false) (cs : List Char) :
    words (c :: cs) =
      match cs, words cs with
      | d :: _, w :: ws => if isBlank d then [c] :: w :: ws else (c :: w) :: ws
      | _, ws => [c] :: ws := by
  -- the equation lemmas of this match are slow to make, so that the definition is opened as a whole
  rw [words.eq_def (c :: cs)]
  exact if_neg (Bool.eq_false_iff.1 hc)

/-- The words are what is left between white space, less what is empty. -/
theorem words_eq_splitOnP (cs : List Char) :
    words cs = (cs.splitOnP isBlank).filter (!·.isEmpty) := by
  induction cs with
  | nil => rfl
  | cons c cs ih =>
    rw [List.splitOnP_cons_eq_if_modifyHead]
    cases hc : isBlank c with
    | true =>
      rw [words_cons_of_blank hc, ih]
      rfl
    | false =>
      rw [words_cons_of_not_blank hc, ih]
      cases cs with
      | nil => rfl
      | cons d ds =>
        obtain ⟨part, parts, hsplit⟩ := List.exists_cons_of_ne_nil (List.splitOnP_ne_nil isBlank ds)
        rw [List.splitOnP_cons_eq_if_modifyHead, hsplit]
        cases hd : isBlank d with
        | true =>
          change (match d :: ds, (part :: parts).filter (!·.isEmpty) with
            | d :: _, w :: ws => if isBlank d then [c] :: w :: ws else (c :: w) :: ws
            | _, ws => [c] :: ws) = [c] :: (part :: parts).filter (!·.isEmpty)
          cases (part :: parts).filter (!·.isEmpty) with
          | nil => rfl
          | cons w ws => exact if_pos hd
        | false => exact if_neg (Bool.eq_false_iff.1 hd)

theorem words_append_blank {c : Char} (hc : isBlank c = true) (x y : List Char) :
    words (x ++ c :: y) = words x ++ words y := by
  simp only [words_eq_splitOnP, List.splitOnP_append_cons x y hc, List.filter_append]

theorem words_of_not_blank {w : List Char} (hne : w ≠ []) (h : ∀ c ∈ w, isBlank c = false) :
    words w = [w] := by
  rw [words_eq_splitOnP, List.splitOnP_eq_singleton fun c hc => by simpa using h c hc]
  simp [hne]

theorem ne_nil_of_mem_words {cs w : List Char} (h : w ∈ words cs) : w ≠ [] := by
  rw [words_eq_splitOnP] at h
  simpa using (List.mem_filter.1 h).2

/-- A text has no white space in it, or some takes it apart. -/
theorem blank_cases (cs : List Char) : (∀ c ∈ cs, isBlank c = false) ∨
    ∃ x c y, cs = x ++ c :: y ∧ isBlank c = true ∧ x.length < cs.length ∧ y.length < cs.length := by
  by_cases h : ∃ c ∈ cs, isBlank c = true
  · obtain ⟨c, hmem, hc⟩ := h
    obtain ⟨x, y, rfl⟩ := List.append_of_mem hmem
    exact .inr ⟨x, c, y, rfl, hc, by simp, by simp; omega⟩
  · exact .inl fun c hc => by simpa using fun hblank => h ⟨c, hc, hblank⟩

/-- All that is not white space is kept, in order. -/
theorem flatten_words (cs : List Char) : (words cs).flatten = cs.filter (!isBlank ·) := by
  rcases blank_cases cs with h | ⟨x, c, y, rfl, hc, hx, hy⟩
  · rw [List.filter_eq_self.2 fun c hc => by simp [h c hc]]
    cases cs with
    | nil => rfl
    | cons c cs => rw [words_of_not_blank (List.cons_ne_nil c cs) h, List.flatten_singleton]
  · rw [words_append_blank hc, List.flatten_append, List.filter_append, flatten_words x,
      List.filter_cons_of_neg (by simp [hc]), flatten_words y]
termination_by cs.length

/-- Words are parts of the text. -/
theorem infix_of_mem_words {cs w : List Char} (h : w ∈ words cs) : w <:+: cs := by
  rcases blank_cases cs with hcs | ⟨x, c, y, rfl, hc, hx, hy⟩
  · cases cs with
    | nil => simp at h
    | cons c cs =>
      rw [words_of_not_blank (List.cons_ne_nil c cs) hcs, List.mem_singleton] at h
      exact h ▸ List.infix_rfl
  · rw [words_append_blank hc, List.mem_append] at h
    rcases h with h | h
    · exact (infix_of_mem_words h).trans (List.prefix_append x (c :: y)).isInfix
    · exact (infix_of_mem_words h).trans
        ((List.suffix_cons c y).trans (List.suffix_append x (c :: y))).isInfix
termination_by cs.length

end Text

namespace Caption

/-! Cuts. -/

/-- Puts a space behind each character from which on the text passes a test. -/
def cut (test : List Char → Bool) : List Char → List Char
  | [] => []
  | c :: cs => c :: if test (c :: cs) then ' ' :: cut test cs else cut test cs

/-- The text passes the test from none of its characters on. -/
def Uncut (test : List Char → Bool) (cs : List Char) : Prop := ∀ s, s <:+ cs → ¬ test s

theorem Uncut.cut_eq {test : List Char → Bool} {cs : List Char} (h : Uncut test cs) :
    cut test cs = cs := by
  induction cs with
  | nil => rfl
  | cons c cs ih =>
    rw [cut, if_neg (h _ List.suffix_rfl), ih fun s hs => h s (hs.trans (List.suffix_cons c cs))]

/-- Only white space is added. -/
theorem filter_cut (test : List Char → Bool) (cs : List Char) :
    (cut test cs).filter (!Text.isBlank ·) = cs.filter (!Text.isBlank ·) := by
  have hspace : Text.isBlank ' ' = true := rfl
  induction cs with
  | nil => rfl
  | cons c cs ih =>
    rw [cut]
    split <;> simp [List.filter_cons, hspace, ih]

/-- What is cut begins like the text, up to the first cut. -/
theorem cut_cases (test : List Char → Bool) (cs : List Char) :
    cut test cs = cs ∨ ∃ w rest later, cs = w ++ rest ∧ cut test cs = w ++ ' ' :: later := by
  induction cs with
  | nil => exact .inl rfl
  | cons c cs ih =>
    rw [cut]
    split
    · exact .inr ⟨[c], cs, cut test cs, rfl, rfl⟩
    · rcases ih with h | ⟨w, rest, later, rfl, h⟩
      · exact .inl (congrArg (c :: ·) h)
      · exact .inr ⟨c :: w, rest, later, rfl, congrArg (c :: ·) h⟩

theorem suffix_cut {test : List Char → Bool} {cs s : List Char} (h : s <:+ cut test cs) :
    (∃ s', s' <:+ cs ∧ s = cut test s') ∨ ∃ t, s = ' ' :: t := by
  induction cs with
  | nil => exact .inl ⟨[], List.suffix_rfl, List.suffix_nil.1 h⟩
  | cons c cs ih =>
    rcases List.suffix_cons_iff.1 h with rfl | h
    · exact .inl ⟨c :: cs, List.suffix_rfl, rfl⟩
    · have hlater : s <:+ cut test cs ∨ ∃ t, s = ' ' :: t := by
        split at h
        · exact (List.suffix_cons_iff.1 h).symm.imp_right fun heq => ⟨_, heq⟩
        · exact .inl h
      rcases hlater with h | h
      · exact (ih h).imp_left fun ⟨s', hs', heq⟩ => ⟨s', hs'.trans (List.suffix_cons c cs), heq⟩
      · exact .inr h

theorem suffix_append_cases {w r s : List Char} (h : s <:+ w ++ r) :
    (∃ s', s' <:+ w ∧ s = s' ++ r) ∨ s <:+ r := by
  rcases List.suffix_or_suffix_of_suffix h (List.suffix_append w r) with hr | ⟨s', rfl⟩
  · exact .inr hr
  · exact .inl ⟨s', List.suffix_append_self_iff.1 h, rfl⟩

/-- A test for a character that a capital follows, which may ask for more up to the next space. -/
structure Seam (test : List Char → Bool) : Prop where
  nil : ¬ test []
  capital : ∀ c s, test (c :: s) → ∃ d ∈ s.head?, d.isUpper
  extend : ∀ s t, test s → test (s ++ t)
  within : ∀ s t, test (s ++ ' ' :: t) → test s

namespace Seam

variable {test : List Char → Bool} {cs w : List Char}

theorem not_space (h : Seam test) (s : List Char) : ¬ test (' ' :: s) :=
  fun htest => h.nil (h.within [] s htest)

theorem not_cut (h : Seam test) (c : Char) (s : List Char) : ¬ test (c :: ' ' :: s) := by
  intro htest
  obtain ⟨d, hd, -⟩ := h.capital c [] (h.within [c] s htest)
  cases hd

/-- After cuts the test is passed only where it was before, and no cut was made. -/
theorem of_cut (h : Seam test) {other : List Char → Bool} {s : List Char}
    (htest : test (cut other s)) : test s ∧ ¬ other s := by
  constructor
  · rcases cut_cases other s with heq | ⟨w, rest, later, rfl, heq⟩
    · rwa [heq] at htest
    · rw [heq] at htest
      exact h.extend w rest (h.within w later htest)
  · cases s with
    | nil => exact absurd htest h.nil
    | cons c s =>
      intro hother
      rw [cut, if_pos hother] at htest
      exact h.not_cut c _ htest

theorem of_suffix_cut (h : Seam test) {other : List Char → Bool} {s : List Char}
    (hs : s <:+ cut other cs) (htest : test s) : ∃ s', s' <:+ cs ∧ test s' ∧ ¬ other s' := by
  rcases suffix_cut hs with ⟨s', hs', rfl⟩ | ⟨t, rfl⟩
  · exact ⟨s', hs', h.of_cut htest⟩
  · exact absurd htest (h.not_space t)

theorem uncut_cut (h : Seam test) (cs : List Char) : Uncut test (cut test cs) := by
  intro s hs htest
  obtain ⟨s', -, hpassed, hnot⟩ := h.of_suffix_cut hs htest
  exact hnot hpassed

theorem uncut_cut_of (h : Seam test) (hcs : Uncut test cs) (other : List Char → Bool) :
    Uncut test (cut other cs) := by
  intro s hs htest
  obtain ⟨s', hs', hpassed, -⟩ := h.of_suffix_cut hs htest
  exact hcs s' hs' hpassed

theorem uncut_infix (h : Seam test) (hcs : Uncut test cs) (hw : w <:+: cs) : Uncut test w := by
  intro s hs htest
  obtain ⟨before, after, rfl⟩ := hw
  obtain ⟨front, rfl⟩ := hs
  exact hcs (s ++ after) ⟨before ++ front, by simp⟩ (h.extend s after htest)

theorem uncut_append (h : Seam test) (hw : Uncut test w) (hcs : Uncut test cs) :
    Uncut test (w ++ ' ' :: cs) := by
  intro s hs htest
  rcases suffix_append_cases hs with ⟨s', hs', rfl⟩ | hs
  · exact hw s' hs' (h.within s' cs htest)
  · rcases List.suffix_cons_iff.1 hs with rfl | hs
    · exact h.not_space cs htest
    · exact hcs s hs htest

theorem uncut_of_no_capital (h : Seam test) (c : Char) (hcs : ∀ d ∈ cs, ¬ d.isUpper) :
    Uncut test (c :: cs) := by
  intro s hs htest
  cases s with
  | nil => exact h.nil htest
  | cons a s =>
    obtain ⟨d, hd, hupper⟩ := h.capital a s htest
    have hmem := List.mem_of_mem_head? hd
    rcases List.suffix_cons_iff.1 hs with heq | hs
    · cases heq
      exact hcs d hmem hupper
    · exact hcs d (hs.subset (List.mem_cons_of_mem a hmem)) hupper

end Seam

/-- The last capital but one of some that a small letter follows. -/
def isAcronymEnd : List Char → Bool
  | a :: b :: c :: _ => a.isUpper && b.isUpper && c.isLower
  | _ => false

/-- A small letter or digit that a capital follows. -/
def isHump : List Char → Bool
  | a :: b :: _ => (a.isLower || a.isDigit) && b.isUpper
  | _ => false

theorem splitAcronyms_eq_cut (cs : List Char) : splitAcronyms cs = cut isAcronymEnd cs := by
  induction cs with
  | nil => rfl
  | cons a cs ih =>
    match cs, ih with
    | [], _ => rfl
    | [b], _ => rfl
    | b :: c :: cs, ih =>
      rw [splitAcronyms, cut, ih, isAcronymEnd]
      split <;> rfl

theorem splitHumps_eq_cut (cs : List Char) : splitHumps cs = cut isHump cs := by
  induction cs with
  | nil => rfl
  | cons a cs ih =>
    match cs, ih with
    | [], _ => rfl
    | b :: cs, ih =>
      rw [splitHumps, cut, ih, isHump]
      split <;> rfl

theorem seam_isHump : Seam isHump where
  nil := nofun
  capital a s h := by
    match s, h with
    | b :: s, h => exact ⟨b, rfl, (Bool.and_eq_true_iff.1 h).2⟩
  extend s t h := by
    match s, h with
    | a :: b :: s, h => exact h
  within s t h := by
    match s, h with
    | [], h => cases t <;> cases h
    | [a], h => exact absurd (Bool.and_eq_true_iff.1 h).2 (by decide)
    | a :: b :: s, h => exact h

theorem seam_isAcronymEnd : Seam isAcronymEnd where
  nil := nofun
  capital a s h := by
    match s, h with
    | b :: c :: s, h => exact ⟨b, rfl, (Bool.and_eq_true_iff.1 (Bool.and_eq_true_iff.1 h).1).2⟩
  extend s t h := by
    match s, h with
    | a :: b :: c :: s, h => exact h
  within s t h := by
    match s, t, h with
    | [], a :: b :: t, h => cases h
    | [a], c :: t, h =>
      exact absurd (Bool.and_eq_true_iff.1 (Bool.and_eq_true_iff.1 h).1).2 (by decide)
    | [a, b], t, h => exact absurd (Bool.and_eq_true_iff.1 h).2 (by decide)
    | a :: b :: c :: s, t, h => exact h

end Caption

end SchemaForms
