import SchemaForms.Proofs.Form.Copying
import SchemaForms.Proofs.Form.Sketch

/-!
Identifiers that are given out.  A counter value stands for one identifier, and for those of the
triggers of a repeat, which are made from it; no two values stand for the same identifier.
-/

namespace SchemaForms

open Identifiers (identifier)

/-- What comes before the last separator, and what comes behind it. -/
theorem append_separator_inj {c : Char} {l l' u v : List Char} (hu : c ∉ u) (hv : c ∉ v)
    (h : l ++ c :: u = l' ++ c :: v) : l = l' ∧ u = v := by
  rcases List.append_eq_append_iff.1 h with ⟨a, rfl, ha⟩ | ⟨a, rfl, ha⟩
  · cases a with
    | nil => simpa using ha
    | cons b a =>
      simp only [List.cons_append, List.cons.injEq] at ha
      exact absurd (by simp [ha.2]) hu
  · cases a with
    | nil => simpa [eq_comm] using ha
    | cons b a =>
      simp only [List.cons_append, List.cons.injEq] at ha
      exact absurd (by simp [ha.2]) hv

namespace Identifiers

theorem toList_identifier (name : String) (n : Nat) :
    (identifier name n).toList = name.toList ++ '_' :: Nat.toDigits 10 n := by
  simp [identifier]

theorem isDigit_of_mem {n : Nat} {c : Char} (h : c ∈ Nat.toDigits 10 n) : c.isDigit = true :=
  Nat.isDigit_of_mem_toDigits (by omega) (by omega) h

theorem identifier_injective {name name' : String} {n n' : Nat}
    (h : identifier name n = identifier name' n') : name = name' ∧ n = n' := by
  have hnot (m : Nat) : '_' ∉ Nat.toDigits 10 m := fun hm => by
    have := isDigit_of_mem hm
    contradiction
  have hlist := congrArg String.toList h
  rw [toList_identifier, toList_identifier] at hlist
  obtain ⟨hname, -⟩ := append_separator_inj (hnot n) (hnot n') hlist
  have hname : name = name' := String.toList_injective hname
  subst hname
  exact ⟨rfl, identifier_inj h⟩

/-- The endings of the identifiers of triggers. -/
def endings : List String := ["insert_before", "insert_after", "delete"]

/-- An identifier made from a counter value. -/
def Bears (x name : String) (n : Nat) : Prop :=
  x = identifier name n ∨ ∃ e ∈ endings, x = identifier name n ++ "-" ++ e

theorem exists_last_identifier (name : String) (n : Nat) :
    ∃ c, (identifier name n).toList.getLast? = some c ∧ c.isDigit = true := by
  have hne : Nat.toDigits 10 n ≠ [] := Nat.toDigits_ne_nil
  refine ⟨(Nat.toDigits 10 n).getLast hne, ?_, isDigit_of_mem (List.getLast_mem hne)⟩
  rw [toList_identifier, List.getLast?_append, List.getLast?_cons, List.getLast?_eq_some_getLast hne]
  rfl

theorem last_ending {e : String} (he : e ∈ endings) :
    ∃ c, e.toList.getLast? = some c ∧ c.isDigit = false ∧ '-' ∉ e.toList := by
  simp only [endings, List.mem_cons, List.not_mem_nil, or_false] at he
  rcases he with rfl | rfl | rfl
  · exact ⟨'e', by decide, by decide, by decide⟩
  · exact ⟨'r', by decide, by decide, by decide⟩
  · exact ⟨'e', by decide, by decide, by decide⟩

theorem identifier_ne_ending {name name' e : String} {n n' : Nat} (he : e ∈ endings) :
    identifier name n ≠ identifier name' n' ++ "-" ++ e := by
  intro heq
  obtain ⟨c, hc, hdigit⟩ := exists_last_identifier name n
  obtain ⟨c', hc', hnot, -⟩ := last_ending he
  have hlast : (identifier name' n' ++ "-" ++ e).toList.getLast? = some c' := by
    rw [String.toList_append, List.getLast?_append, hc']
    rfl
  rw [heq, hlast] at hc
  cases hc
  rw [hnot] at hdigit
  cases hdigit

/-- An identifier shows the counter value that it is made from. -/
theorem Bears.unique {x name name' : String} {n n' : Nat} (h : Bears x name n)
    (h' : Bears x name' n') : name = name' ∧ n = n' := by
  rcases h with rfl | ⟨e, he, rfl⟩
  · rcases h' with h' | ⟨e', he', h'⟩
    · exact identifier_injective h'
    · exact absurd h' (identifier_ne_ending he')
  · rcases h' with h' | ⟨e', he', h'⟩
    · exact absurd h'.symm (identifier_ne_ending he)
    · obtain ⟨-, -, -, hdash⟩ := last_ending he
      obtain ⟨-, -, -, hdash'⟩ := last_ending he'
      have hlist := congrArg String.toList h'
      simp only [String.toList_append, List.append_assoc] at hlist
      exact identifier_injective (String.toList_injective (append_separator_inj hdash hdash' hlist).1)

/-- The identifiers of one counter value are distinct. -/
theorem nodup_endings (name : String) (n : Nat) :
    (identifier name n :: endings.map fun e => identifier name n ++ "-" ++ e).Nodup := by
  rw [List.nodup_cons]
  constructor
  · intro hm
    obtain ⟨e, he, heq⟩ := List.mem_map.1 hm
    exact identifier_ne_ending he heq.symm
  · refine List.Nodup.map ?_ (by decide)
    intro e e' heq
    exact (String.append_right_inj _).1 heq

/-- An identifier has been given out between two states of the counters. -/
def Issued (a b : Identifiers) (x : String) : Prop :=
  ∃ name n, Bears x name n ∧ a.count name ≤ n ∧ n < b.count name

theorem Issued.mono {a a' b b' : Identifiers} {x : String} (h : Issued a b x)
    (ha : Before a' a) (hb : Before b b') : Issued a' b' x := by
  obtain ⟨name, n, hx, hle, hlt⟩ := h
  exact ⟨name, n, hx, Nat.le_trans (ha name) hle, Nat.lt_of_lt_of_le hlt (hb name)⟩

/-- No identifier is given out twice. -/
theorem Issued.not_again {a b c : Identifiers} {x : String} (h : Issued a b x) :
    ¬ Issued b c x := by
  rintro ⟨name', n', hx', hle', -⟩
  obtain ⟨name, n, hx, -, hlt⟩ := h
  obtain ⟨rfl, rfl⟩ := hx.unique hx'
  omega

/-- The number of times that an identifier is there rises only when it is given out, and by one. -/
structure Rises (a b : Identifiers) (x : String) (n n' : Nat) : Prop where
  le : n' ≤ n + 1
  same : ¬ Issued a b x → n' ≤ n

theorem Rises.of_le {a b : Identifiers} {x : String} {n n' : Nat} (h : n' ≤ n) :
    Rises a b x n n' := ⟨Nat.le_succ_of_le h, fun _ => h⟩

theorem Rises.trans {a b c : Identifiers} {x : String} {n n' n'' : Nat} (h : Rises a b x n n')
    (h' : Rises b c x n' n'') (hab : Before a b) (hbc : Before b c) : Rises a c x n n'' := by
  by_cases hissued : Issued a b x
  · have hle := h.le
    have hsame := h'.same hissued.not_again
    constructor
    · omega
    · intro hnot
      exact absurd (hissued.mono (.refl a) hbc) hnot
  · have hsame := h.same hissued
    have hle := h'.le
    constructor
    · omega
    · intro hnot
      have := h'.same fun hi => hnot (hi.mono hab (.refl c))
      omega

theorem Rises.add {a b : Identifiers} {x : String} {n n' : Nat} (h : Rises a b x n n') (k : Nat) :
    Rises a b x (n + k) (n' + k) := by
  have hle := h.le
  constructor
  · omega
  · intro hnot
    have := h.same hnot
    omega

end Identifiers

/-! Prefixes are names: no slash is in them. -/

namespace PrefixTable

/-- No prefix of the table has a slash in it. -/
def Clean (t : PrefixTable) : Prop :=
  ∀ ns p, t.entries.get? ns = some p → '/' ∉ p.toList

theorem not_mem_basePrefix (nspace : String) : '/' ∉ (basePrefix nspace).toList := by
  have hsegment : '/' ∉ (lastSegment nspace.toList).filter isNameChar := fun h =>
    absurd (List.of_mem_filter h) (by decide)
  have hstart {cs : List Char} (h : '/' ∉ cs) : '/' ∉ startAsName cs := by
    cases cs with
    | nil => decide
    | cons c cs =>
      rw [startAsName]
      split
      · exact h
      · rw [List.mem_cons, List.mem_cons, not_or, not_or]
        exact ⟨by decide, by decide, h⟩
  have hxml {cs : List Char} (h : '/' ∉ cs) : '/' ∉ avoidXml cs := by
    unfold avoidXml
    split
    · rw [List.mem_cons, List.mem_cons, not_or, not_or]
      exact ⟨by decide, by decide, h⟩
    · exact h
  rw [basePrefix, String.toList_ofList]
  exact hxml (hstart hsegment)

theorem not_mem_candidate {base : String} (h : '/' ∉ base.toList) (n : Nat) :
    '/' ∉ (candidate base n).toList := by
  cases n with
  | zero => exact h
  | succ n =>
    rw [candidate, String.toList_append, List.mem_append, not_or]
    refine ⟨h, fun hm => ?_⟩
    have hdigit : '/'.isDigit = true := Identifiers.isDigit_of_mem (n := n + 1) (by simpa using hm)
    exact absurd hdigit (by decide)

theorem not_mem_firstFree (taken : List String) {base : String} (h : '/' ∉ base.toList)
    (tries start : Nat) : '/' ∉ (firstFree taken base tries start).toList := by
  induction tries generalizing start with
  | zero => exact not_mem_candidate h start
  | succ tries ih =>
    unfold firstFree
    split
    · exact ih (start + 1)
    · exact not_mem_candidate h start

theorem clean_empty : PrefixTable.empty.Clean := fun _ _ h => nomatch h

theorem Clean.prefixFor {t : PrefixTable} (h : t.Clean) (nspace : String) :
    (t.prefixFor nspace).2.Clean := by
  unfold PrefixTable.prefixFor
  cases hentry : t.entries.get? nspace with
  | some p => exact h
  | none =>
    intro ns p hp
    rw [Table.get?_put] at hp
    split at hp
    · rw [← Option.some.inj hp]
      exact not_mem_firstFree _ (not_mem_basePrefix nspace) _ _
    · exact h ns p hp

end PrefixTable

/-! What has been given out for good use. -/

open Identifiers (Before Issued Rises Bears)

namespace Synthesis

/-- Counters have only moved on, and prefixes have only been added, each of them a name. -/
structure Onward (s s' : Synthesis) : Prop where
  before : s.ids.Before s'.ids
  prefixes : ∀ ns p, s.prefixes.entries.get? ns = some p → s'.prefixes.entries.get? ns = some p
  clean : s.prefixes.Clean → s'.prefixes.Clean

theorem Onward.refl (s : Synthesis) : Onward s s := ⟨.refl _, fun _ _ h => h, id⟩

theorem Onward.trans {s s' s'' : Synthesis} (h : Onward s s') (h' : Onward s' s'') :
    Onward s s'' :=
  ⟨h.before.trans h'.before, fun ns p hp => h'.prefixes ns p (h.prefixes ns p hp),
    fun hs => h'.clean (h.clean hs)⟩

/-- Identifiers have been given out, none of them twice. -/
structure Mints (s s' : Synthesis) (xs : List String) : Prop extends Onward s s' where
  count : ∀ x, Rises s.ids s'.ids x 0 (xs.count x)

theorem Onward.mints {s s' : Synthesis} (h : Onward s s') : Mints s s' [] :=
  ⟨h, fun _ => .of_le (Nat.le_refl _)⟩

theorem Mints.trans {s s' s'' : Synthesis} {xs ys : List String} (h : Mints s s' xs)
    (h' : Mints s' s'' ys) : Mints s s'' (xs ++ ys) := by
  refine ⟨h.toOnward.trans h'.toOnward, fun x => ?_⟩
  have hys := (h'.count x).add (xs.count x)
  rw [Nat.zero_add, Nat.add_comm, ← List.count_append] at hys
  exact (h.count x).trans hys h.before h'.before

theorem Mints.perm {s s' : Synthesis} {xs ys : List String} (h : Mints s s' xs)
    (hperm : xs.Perm ys) : Mints s s' ys :=
  ⟨h.toOnward, fun x => hperm.count_eq x ▸ h.count x⟩

/-- The next identifier of a name, with those that are made from it. -/
theorem mints_allocate_all (s : Synthesis) (name : String) :
    let id := (allocate name s).1
    Mints s (allocate name s).2 (id :: Identifiers.endings.map fun e => id ++ "-" ++ e) := by
  refine ⟨⟨s.ids.before_allocate name, fun _ _ h => h, id⟩, fun x => ?_⟩
  have hnodup := Identifiers.nodup_endings name (s.ids.count name)
  constructor
  · rw [Nat.zero_add]
    exact List.nodup_iff_count_le_one.1 hnodup x
  · intro hnot
    apply Nat.le_of_eq
    apply List.count_eq_zero.2
    intro hm
    apply hnot
    refine ⟨name, s.ids.count name, ?_, Nat.le_refl _, ?_⟩
    · rcases List.mem_cons.1 hm with rfl | hm
      · exact .inl rfl
      · obtain ⟨e, he, rfl⟩ := List.mem_map.1 hm
        exact .inr ⟨e, he, rfl⟩
    · change _ < (s.ids.allocate name).2.count name
      simp

theorem Mints.sublist {s s' : Synthesis} {xs ys : List String} (h : Mints s s' xs)
    (hsub : ys.Sublist xs) : Mints s s' ys := by
  refine ⟨h.toOnward, fun x => ?_⟩
  have hle := hsub.count_le x
  have hrises := h.count x
  constructor
  · have := hrises.le
    omega
  · intro hnot
    have := hrises.same hnot
    omega

theorem mints_allocate (s : Synthesis) (name : String) :
    Mints s (allocate name s).2 [(allocate name s).1] :=
  (mints_allocate_all s name).sublist (by simp)

end Synthesis

end SchemaForms
