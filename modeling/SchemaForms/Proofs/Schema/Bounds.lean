import SchemaForms.Schema.Occurs

/-!
How occurrence bounds are written.  A bound is a number in decimal digits, which a plus sign may
precede and white space may surround.  Main statement: reading a pair of bounds succeeds exactly if
each is missing or written like that, and the least number is not above the greatest.
-/

namespace SchemaForms

/-! Trimming. -/

namespace Text

/-- A text with white space around a core. -/
def Padded (text core : List Char) : Prop :=
  ∃ before after, text = before ++ core ++ after ∧ (∀ c ∈ before, isBlank c = true) ∧
    ∀ c ∈ after, isBlank c = true

theorem trimRight_append (cs : List Char) :
    ∃ after, cs = trimRight cs ++ after ∧ ∀ c ∈ after, isBlank c = true := by
  induction cs with
  | nil => exact ⟨[], rfl, nofun⟩
  | cons c cs ih =>
    obtain ⟨after, hcs, hblank⟩ := ih
    cases hkept : trimRight cs with
    | nil =>
      have hall := (trimRight_eq_nil_iff cs).1 hkept
      rw [trimRight, hkept]
      by_cases hc : isBlank c = true
      · exact ⟨c :: cs, by simp [hc], List.forall_mem_cons.2 ⟨hc, hall⟩⟩
      · exact ⟨cs, by simp [hc], hall⟩
    | cons d ds =>
      rw [trimRight, hkept]
      exact ⟨after, congrArg (c :: ·) (hkept ▸ hcs), hblank⟩

theorem padded_trim (text : List Char) : Padded text (trim text) := by
  obtain ⟨after, hafter, hblank⟩ := trimRight_append (text.dropWhile isBlank)
  refine ⟨text.takeWhile isBlank, after, ?_,
    fun c hc => List.all_eq_true.1 List.all_takeWhile c hc, hblank⟩
  rw [List.append_assoc, trim, ← hafter, List.takeWhile_append_dropWhile]

theorem trimRight_of_not_blank {core after : List Char} (hcore : ∀ c ∈ core, isBlank c = false)
    (hafter : ∀ c ∈ after, isBlank c = true) : trimRight (core ++ after) = core := by
  induction core with
  | nil => exact (trimRight_eq_nil_iff after).2 hafter
  | cons c core ih =>
    obtain ⟨hc, hcore⟩ := List.forall_mem_cons.1 hcore
    rw [List.cons_append, trimRight, ih hcore]
    cases core with
    | nil => simp [hc]
    | cons d ds => rfl

/-- Text without white space in it is what trimming leaves if there is white space around it. -/
theorem trim_eq_iff {text core : List Char} (hcore : ∀ c ∈ core, isBlank c = false) :
    trim text = core ↔ Padded text core := by
  constructor
  · rintro rfl
    exact padded_trim text
  · rintro ⟨before, after, rfl, hbefore, hafter⟩
    rw [trim, List.append_assoc, List.dropWhile_append_of_pos hbefore]
    cases core with
    | nil =>
      have hall := fun c hc => hafter c ((List.dropWhile_sublist isBlank).subset hc)
      exact (trimRight_eq_nil_iff _).2 hall
    | cons c core =>
      have hc := hcore c List.mem_cons_self
      rw [List.cons_append, List.dropWhile_cons_of_neg (by simp [hc]), ← List.cons_append]
      exact trimRight_of_not_blank hcore hafter

theorem isBlank_of_isDigit {c : Char} (h : c.isDigit = true) : isBlank c = false := by
  simp only [Char.isDigit, Bool.and_eq_true, decide_eq_true_eq, ge_iff_le,
    UInt32.le_iff_toNat_le] at h
  obtain ⟨hlow, hhigh⟩ : 48 ≤ c.toNat ∧ c.toNat ≤ 57 := h
  simp only [isBlank, Bool.or_eq_false_iff, Bool.and_eq_false_iff, decide_eq_false_iff_not,
    beq_eq_false_iff_ne]
  omega

end Text

namespace Occurs

open Text (Padded)

/-- A number in decimal digits, not above the limit of bounds. -/
structure Digits (text : List Char) (n : Nat) : Prop where
  nonempty : text ≠ []
  digits : ∀ c ∈ text, c.isDigit = true
  value : Nat.ofDigitChars 10 text 0 = n
  le : n ≤ 4294967295

/-- A number that a plus sign may precede. -/
def Numeral (text : List Char) (n : Nat) : Prop :=
  ∃ sign digits, text = sign ++ digits ∧ (sign = [] ∨ sign = ['+']) ∧ Digits digits n

theorem digitsValue_eq_some_iff {digits : List Char} {value n : Nat} :
    digitsValue digits value = some n ↔
      (∀ c ∈ digits, c.isDigit = true) ∧ Nat.ofDigitChars 10 digits value = n := by
  induction digits generalizing value with
  | nil => simp [digitsValue]
  | cons c cs ih =>
    rw [digitsValue, Nat.ofDigitChars_cons, List.forall_mem_cons]
    by_cases hc : c.isDigit = true
    · rw [if_pos hc, ih]
      simp [hc]
    · rw [if_neg hc]
      simp [hc]

theorem filter_digitsValue_eq_some_iff {c : Char} {cs : List Char} {n : Nat} :
    (digitsValue (c :: cs) 0).filter (· ≤ limit) = some n ↔ Digits (c :: cs) n := by
  rw [Option.filter_eq_some_iff, digitsValue_eq_some_iff, decide_eq_true_iff]
  constructor
  · rintro ⟨⟨hdigits, hvalue⟩, hle⟩
    exact ⟨List.cons_ne_nil c cs, hdigits, hvalue, hle⟩
  · rintro ⟨-, hdigits, hvalue, hle⟩
    exact ⟨⟨hdigits, hvalue⟩, hle⟩

theorem boundOf_plus {rest : List Char} {n : Nat} :
    boundOf ('+' :: rest) = some n ↔ Digits rest n := by
  cases rest with
  | nil => exact ⟨nofun, fun h => absurd rfl h.nonempty⟩
  | cons c cs => exact filter_digitsValue_eq_some_iff

theorem boundOf_of_ne {c : Char} {cs : List Char} (hc : c ≠ '+') {n : Nat} :
    boundOf (c :: cs) = some n ↔ Digits (c :: cs) n := by
  unfold boundOf
  dsimp only
  split
  · next hnil =>
    split at hnil
    · next heq => exact absurd (List.cons.inj heq).1 hc
    · cases hnil
  · split
    · next heq => exact absurd (List.cons.inj heq).1 hc
    · exact filter_digitsValue_eq_some_iff

theorem boundOf_eq_some_iff {text : List Char} {n : Nat} :
    boundOf text = some n ↔ Numeral text n := by
  cases text with
  | nil =>
    refine ⟨nofun, ?_⟩
    rintro ⟨sign, digits, htext, -, h⟩
    exact absurd (List.append_eq_nil_iff.1 htext.symm).2 h.nonempty
  | cons c cs =>
    by_cases hc : c = '+'
    · subst hc
      rw [boundOf_plus]
      refine ⟨fun h => ⟨['+'], cs, rfl, .inr rfl, h⟩, ?_⟩
      rintro ⟨sign, digits, htext, rfl | rfl, h⟩
      · -- a plus sign is no digit
        obtain rfl : '+' :: cs = digits := htext
        exact absurd (h.digits '+' List.mem_cons_self) (by decide)
      · exact (List.cons.inj htext).2 ▸ h
    · rw [boundOf_of_ne hc]
      refine ⟨fun h => ⟨[], c :: cs, rfl, .inl rfl, h⟩, ?_⟩
      rintro ⟨sign, digits, htext, rfl | rfl, h⟩
      · exact htext ▸ h
      · exact absurd (List.cons.inj htext).1 hc

theorem Numeral.not_blank {text : List Char} {n : Nat} (h : Numeral text n) :
    ∀ c ∈ text, Text.isBlank c = false := by
  obtain ⟨sign, digits, rfl, hsign, hdigits⟩ := h
  intro c hc
  rcases List.mem_append.1 hc with hc | hc
  · rcases hsign with rfl | rfl
    · cases hc
    · rw [List.mem_singleton.1 hc]
      rfl
  · exact Text.isBlank_of_isDigit (hdigits.digits c hc)

/-- The text of an attribute is a number, up to white space around it. -/
def Bound (text : String) (n : Nat) : Prop :=
  ∃ core, Padded text.toList core ∧ Numeral core n

theorem boundOf_trim_eq_some_iff {text : String} {n : Nat} :
    boundOf (Text.trim text.toList) = some n ↔ Bound text n := by
  rw [boundOf_eq_some_iff]
  constructor
  · exact fun h => ⟨_, Text.padded_trim _, h⟩
  · rintro ⟨core, hpadded, h⟩
    rwa [(Text.trim_eq_iff h.not_blank).2 hpadded]

/-- What the least number may be: one where the attribute is missing. -/
def IsMin : Option String → Nat → Prop
  | none, min => min = 1
  | some text, min => Bound text min

/-- What the greatest number may be, given the least: one where the attribute is missing. -/
def IsMax (min : Nat) : Option String → Option Nat → Prop
  | none, max => min ≤ 1 ∧ max = some 1
  | some text, none => Padded text.toList "unbounded".toList
  | some text, some n => Bound text n ∧ min ≤ n

theorem parseMin_eq_ok_iff {minOccurs : Option String} {min : Nat} :
    parseMin minOccurs = .ok min ↔ IsMin minOccurs min := by
  cases minOccurs with
  | none => exact ⟨fun h => by cases h; rfl, fun h => congrArg Except.ok (Eq.symm h)⟩
  | some text =>
    rw [parseMin, IsMin, ← boundOf_trim_eq_some_iff]
    split <;> simp_all

theorem unbounded_not_blank : ∀ c ∈ "unbounded".toList, Text.isBlank c = false := by
  have hall : ("unbounded".toList.all fun c => !Text.isBlank c) = true := by decide
  intro c hc
  simpa using List.all_eq_true.1 hall c hc

/-- A text that says `unbounded` is no number. -/
theorem not_bound_of_unbounded {text : String} {n : Nat}
    (h : Padded text.toList "unbounded".toList) : ¬ Bound text n := by
  have hnone : boundOf "unbounded".toList = none := by decide +kernel
  rw [← boundOf_trim_eq_some_iff, (Text.trim_eq_iff unbounded_not_blank).2 h, hnone]
  nofun

theorem Bound.unique {text : String} {n m : Nat} (h : Bound text n) (h' : Bound text m) :
    n = m := by
  rw [← boundOf_trim_eq_some_iff] at h h'
  exact Option.some.inj (h.symm.trans h')

/-- Where the attribute holds a number, this is the greatest number. -/
theorem Bound.isMax_iff {text : String} {n min : Nat} (h : Bound text n) {max : Option Nat} :
    IsMax min (some text) max ↔ max = some n ∧ min ≤ n := by
  cases max with
  | none => exact ⟨fun hmax => absurd h (not_bound_of_unbounded hmax), fun hmax => by cases hmax.1⟩
  | some m =>
    refine ⟨fun hmax => ?_, fun hmax => ?_⟩
    · obtain rfl := h.unique hmax.1
      exact ⟨rfl, hmax.2⟩
    · cases hmax.1
      exact ⟨h, hmax.2⟩

theorem parseMax_eq_ok_iff {min : Nat} {maxOccurs : Option String} {max : Option Nat} :
    parseMax min maxOccurs = .ok max ↔ IsMax min maxOccurs max := by
  cases maxOccurs with
  | none =>
    rw [parseMax, IsMax]
    split
    · next hlt => exact ⟨nofun, fun h => absurd h.1 (Nat.not_le.2 hlt)⟩
    · next hle =>
      refine ⟨fun h => ?_, fun h => ?_⟩
      · cases h
        exact ⟨Nat.not_lt.1 hle, rfl⟩
      · rw [h.2]
  | some text =>
    have hunbounded : Text.trimmed text = "unbounded" ↔
        Padded text.toList "unbounded".toList := by
      rw [← Text.trim_eq_iff unbounded_not_blank, Text.trimmed, ← String.toList_inj,
        String.toList_ofList]
    have htrimmed : (Text.trimmed text).toList = Text.trim text.toList := String.toList_ofList
    unfold parseMax
    dsimp only
    by_cases h : Padded text.toList "unbounded".toList
    · rw [if_pos (hunbounded.2 h)]
      cases max with
      | none => exact ⟨fun _ => h, fun _ => rfl⟩
      | some n => exact ⟨nofun, fun hbound => absurd hbound.1 (not_bound_of_unbounded h)⟩
    · rw [if_neg fun heq => h (hunbounded.1 heq), htrimmed]
      cases hbound : boundOf (Text.trim text.toList) with
      | none =>
        refine ⟨nofun, fun hmax => ?_⟩
        cases max with
        | none => exact absurd hmax h
        | some n =>
          rw [boundOf_trim_eq_some_iff.2 hmax.1] at hbound
          cases hbound
      | some n =>
        rw [(boundOf_trim_eq_some_iff.1 hbound).isMax_iff]
        dsimp only
        split
        · next hlt => exact ⟨nofun, fun hle => absurd hle.2 (Nat.not_le.2 hlt)⟩
        · next hle =>
          refine ⟨fun hok => ?_, fun hok => by rw [hok.1]⟩
          cases hok
          exact ⟨rfl, Nat.not_lt.1 hle⟩

/-- Reading bounds succeeds exactly on bounds that are written as they should be. -/
theorem parse_eq_ok_iff {minOccurs maxOccurs : Option String} {o : Occurs} :
    parse minOccurs maxOccurs = .ok o ↔ IsMin minOccurs o.min ∧ IsMax o.min maxOccurs o.max := by
  rw [← parseMin_eq_ok_iff, ← parseMax_eq_ok_iff]
  obtain ⟨min, max⟩ := o
  cases hmin : parseMin minOccurs with
  | error problem =>
    rw [parse, hmin]
    exact ⟨nofun, fun h => by cases h.1⟩
  | ok least =>
    have hparse : parse minOccurs maxOccurs = (parseMax least maxOccurs).map (⟨least, ·⟩) := by
      rw [parse, hmin]
      change (parseMax least maxOccurs).bind (fun max => .ok (Occurs.mk least max)) = _
      cases parseMax least maxOccurs <;> rfl
    rw [hparse]
    constructor
    · intro h
      cases hmax : parseMax least maxOccurs with
      | error problem =>
        rw [hmax] at h
        cases h
      | ok greatest =>
        rw [hmax] at h
        cases h
        exact ⟨rfl, hmax⟩
    · rintro ⟨h, hmax⟩
      obtain rfl := Except.ok.inj h
      rw [hmax]
      rfl

end Occurs

end SchemaForms
