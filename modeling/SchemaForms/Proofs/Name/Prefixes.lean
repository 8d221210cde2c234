import SchemaForms.Proofs.Form.Issuing

/-!
Names with prefixes.  The prefixes that a run gives out differ from each other and from those that
every form declares, so a name is known by how it is written.
-/

namespace SchemaForms

/-! Names without colons, as schemas have them. -/

/-- The characters beyond ASCII that a name may begin with, by their numbers. -/
def nameRanges : List (Nat × Nat) :=
  [(0xC0, 0xD6), (0xD8, 0xF6), (0xF8, 0x2FF), (0x370, 0x37D), (0x37F, 0x1FFF), (0x200C, 0x200D),
    (0x2070, 0x218F), (0x2C00, 0x2FEF), (0x3001, 0xD7FF), (0xF900, 0xFDCF), (0xFDF0, 0xFFFD),
    (0x10000, 0xEFFFF)]

/-- The characters beyond ASCII that a name may only go on with. -/
def markRanges : List (Nat × Nat) := [(0xB7, 0xB7), (0x300, 0x36F), (0x203F, 0x2040)]

def inRanges (ranges : List (Nat × Nat)) (c : Char) : Bool :=
  ranges.any fun r => decide (r.1 ≤ c.toNat) && decide (c.toNat ≤ r.2)

def startsNCName (c : Char) : Bool := PrefixTable.isNameStart c || inRanges nameRanges c

def continuesNCName (c : Char) : Bool :=
  PrefixTable.isNameChar c || inRanges nameRanges c || inRanges markRanges c

/-- An NCName: a name of XML without colons. -/
def IsNCName (name : String) : Bool :=
  match name.toList with
  | [] => false
  | c :: cs => startsNCName c && cs.all continuesNCName

theorem continuesNCName_of_starts {c : Char} (h : startsNCName c = true) :
    continuesNCName c = true := by
  simp only [startsNCName, continuesNCName, PrefixTable.isNameStart, PrefixTable.isNameChar,
    Char.isAlphanum, Bool.or_eq_true] at h ⊢
  tauto

/-- An NCName has no character in it that no name goes on with. -/
theorem IsNCName.not_mem {name : String} (h : IsNCName name = true) {c : Char}
    (hc : continuesNCName c = false) : c ∉ name.toList := by
  intro hm
  unfold IsNCName at h
  generalize name.toList = cs at h hm
  have hall : ∀ d ∈ cs, continuesNCName d = true := by
    cases cs with
    | nil => cases h
    | cons d cs =>
      rw [Bool.and_eq_true] at h
      intro d' hd'
      rcases List.mem_cons.1 hd' with rfl | hd'
      · exact continuesNCName_of_starts h.1
      · exact List.all_eq_true.1 h.2 d' hd'
  rw [hall c hm] at hc
  cases hc

/-! Prefix tables. -/

namespace PrefixTable

theorem candidate_injective (base : String) : Function.Injective (candidate base) := by
  have hlength (n : Nat) : (toString (n + 1)).toList ≠ [] := by simp
  intro n m h
  have hlist := congrArg String.toList h
  cases n with
  | zero =>
    cases m with
    | zero => rfl
    | succ m =>
      rw [candidate, candidate, String.toList_append, List.self_eq_append_right] at hlist
      exact absurd hlist (hlength m)
  | succ n =>
    cases m with
    | zero =>
      rw [candidate, candidate, String.toList_append, List.append_right_eq_self] at hlist
      exact absurd hlist (hlength n)
    | succ m =>
      rw [candidate, candidate, String.toList_append, String.toList_append,
        List.append_cancel_left_eq] at hlist
      have hdigits : Nat.toDigits 10 (n + 1) = Nat.toDigits 10 (m + 1) := by simpa using hlist
      rw [← @Nat.ofDigitChars_ten_toDigits (n + 1), hdigits, Nat.ofDigitChars_ten_toDigits]

/-- The search ends at the first candidate that is free, or at the last that it tries. -/
theorem firstFree_eq (taken : List String) (base : String) (tries start : Nat) :
    ∃ n, firstFree taken base tries start = candidate base n ∧
      (∀ m, start ≤ m → m < n → candidate base m ∈ taken) ∧
      (candidate base n ∈ taken → n = start + tries) := by
  induction tries generalizing start with
  | zero => exact ⟨start, rfl, fun m hle hlt => absurd hlt (Nat.not_lt.2 hle), fun _ => rfl⟩
  | succ tries ih =>
    rw [firstFree]
    split
    · next hfirst =>
      obtain ⟨n, hn, htaken, hlast⟩ := ih (start + 1)
      refine ⟨n, hn, fun m hm hlt => ?_, fun hmem => ?_⟩
      · rcases Nat.eq_or_lt_of_le hm with rfl | hm
        · exact List.contains_iff_mem.1 hfirst
        · exact htaken m hm hlt
      · rw [hlast hmem]
        omega
    · next hfirst =>
      exact ⟨start, rfl, fun m hle hlt => absurd hlt (Nat.not_lt.2 hle),
        fun hmem => absurd (List.contains_iff_mem.2 hmem) hfirst⟩

/-- A new prefix is the first candidate that is not taken: there are more candidates than prefixes
taken. -/
theorem freshPrefix_eq (t : PrefixTable) (nspace : String) :
    ∃ n, t.freshPrefix nspace = candidate (basePrefix nspace) n ∧
      candidate (basePrefix nspace) n ∉ t.taken ∧
      ∀ m < n, candidate (basePrefix nspace) m ∈ t.taken := by
  let base := basePrefix nspace
  obtain ⟨n, hn, htaken, hlast⟩ := firstFree_eq t.taken base t.taken.length 0
  refine ⟨n, hn, fun hmem => ?_, fun m => htaken m (Nat.zero_le m)⟩
  have hsubset : (List.range (n + 1)).map (candidate base) ⊆ t.taken := by
    intro p hp
    obtain ⟨m, hm, rfl⟩ := List.mem_map.1 hp
    rcases Nat.eq_or_lt_of_le (Nat.le_of_lt_succ (List.mem_range.1 hm)) with rfl | hm
    · exact hmem
    · exact htaken m (Nat.zero_le m) hm
  have hnodup := List.nodup_range (n := n + 1).map (candidate_injective base)
  have hle := (hnodup.subperm hsubset).length_le
  rw [List.length_map, List.length_range, hlast hmem] at hle
  omega

theorem freshPrefix_not_mem (t : PrefixTable) (nspace : String) :
    t.freshPrefix nspace ∉ t.taken := by
  obtain ⟨n, hn, hfree, -⟩ := t.freshPrefix_eq nspace
  rwa [hn]

theorem isNameChar_basePrefix {nspace : String} {c : Char} (h : c ∈ (basePrefix nspace).toList) :
    isNameChar c = true := by
  have hstart {cs : List Char} (hcs : ∀ d ∈ cs, isNameChar d = true) :
      ∀ d ∈ startAsName cs, isNameChar d = true := by
    cases cs with
    | nil => exact List.forall_mem_cons.2 ⟨rfl, List.forall_mem_singleton.2 rfl⟩
    | cons d cs =>
      rw [startAsName]
      split
      · exact hcs
      · intro d' hd'
        simp only [List.mem_cons] at hd' hcs
        rcases hd' with rfl | rfl | hd'
        · decide
        · decide
        · exact hcs d' hd'
  have hxml {cs : List Char} (hcs : ∀ d ∈ cs, isNameChar d = true) :
      ∀ d ∈ avoidXml cs, isNameChar d = true := by
    unfold avoidXml
    split
    · intro d hd
      simp only [List.mem_cons] at hd
      rcases hd with rfl | rfl | hd
      · decide
      · decide
      · exact hcs d hd
    · exact hcs
  rw [basePrefix, String.toList_ofList] at h
  exact hxml (hstart fun d hd => List.of_mem_filter hd) c h

theorem isNameChar_candidate {base : String} (h : ∀ c ∈ base.toList, isNameChar c = true) (n : Nat) :
    ∀ c ∈ (candidate base n).toList, isNameChar c = true := by
  cases n with
  | zero => exact h
  | succ n =>
    intro c hc
    rw [candidate, String.toList_append, List.mem_append] at hc
    rcases hc with hc | hc
    · exact h c hc
    · have hdigit : c.isDigit = true :=
        Identifiers.isDigit_of_mem (n := n + 1) (by simpa using hc)
      simp [isNameChar, Char.isAlphanum, hdigit]

theorem isNameChar_freshPrefix (t : PrefixTable) (nspace : String) :
    ∀ c ∈ (t.freshPrefix nspace).toList, isNameChar c = true := by
  obtain ⟨n, hn, -⟩ := t.freshPrefix_eq nspace
  rw [hn]
  exact isNameChar_candidate (fun _ hc => isNameChar_basePrefix hc) n

/-- Prefixes are made of the characters of names, they tell namespaces apart, and none of them is
one that every form declares; no namespace is entered twice. -/
structure Apart (t : PrefixTable) : Prop where
  entered : ∀ ns p, (ns, p) ∈ t.entries.entries → t.entries.get? ns = some p
  named : ∀ ns p, t.entries.get? ns = some p → ∀ c ∈ p.toList, isNameChar c = true
  distinct : ∀ ns ns' p, t.entries.get? ns = some p → t.entries.get? ns' = some p → ns = ns'
  unreserved : ∀ ns p, t.entries.get? ns = some p → p ∉ reserved

theorem apart_empty : PrefixTable.empty.Apart :=
  ⟨nofun, nofun, nofun, nofun⟩

theorem Apart.clean {t : PrefixTable} (h : t.Apart) : t.Clean := fun ns p hp hm =>
  absurd (h.named ns p hp '/' hm) (by decide)

theorem Apart.prefixFor {t : PrefixTable} (h : t.Apart) (nspace : String) :
    (t.prefixFor nspace).2.Apart := by
  unfold PrefixTable.prefixFor
  cases hentry : t.entries.get? nspace with
  | some p => exact h
  | none =>
    have hfresh := t.freshPrefix_not_mem nspace
    rw [taken, List.mem_append, not_or] at hfresh
    have hnew {ns p : String} (hp : t.entries.get? ns = some p) : t.freshPrefix nspace ≠ p :=
      fun he => hfresh.2 (he ▸ List.mem_map_of_mem (f := (·.2)) (Table.mem_entries_of_get? hp))
    refine ⟨fun ns p hp => ?_, fun ns p hp => ?_, fun ns ns' p hp hp' => ?_, fun ns p hp => ?_⟩
    · rw [Table.get?_put]
      rcases Table.mem_entries_put hp with hp | hp
      · have hold := h.entered ns p hp
        have hne : nspace ≠ ns := fun he => by
          rw [← he, hentry] at hold
          cases hold
        rw [if_neg hne, hold]
      · cases hp
        rw [if_pos rfl]
    · rw [Table.get?_put] at hp
      split at hp
      · rw [← Option.some.inj hp]
        exact t.isNameChar_freshPrefix nspace
      · exact h.named ns p hp
    · rw [Table.get?_put] at hp hp'
      split at hp <;> split at hp'
      · next hns hns' => exact hns.symm.trans hns'
      · exact absurd (Option.some.inj hp) (hnew hp')
      · exact absurd (Option.some.inj hp') (hnew hp)
      · exact h.distinct ns ns' p hp hp'
    · rw [Table.get?_put] at hp
      split at hp
      · exact Option.some.inj hp ▸ hfresh.1
      · exact h.unreserved ns p hp

/-- A table after another one: more namespaces may have prefixes. -/
def Extends (t t' : PrefixTable) : Prop :=
  Relation.ReflTransGen (fun t t' => ∃ nspace, t' = (t.prefixFor nspace).2) t t'

theorem Extends.trans {t t' t'' : PrefixTable} (h : t.Extends t') (h' : t'.Extends t'') :
    t.Extends t'' := Relation.ReflTransGen.trans h h'

theorem Extends.get? {t t' : PrefixTable} (h : t.Extends t') {ns p : String}
    (hp : t.entries.get? ns = some p) : t'.entries.get? ns = some p := by
  induction h with
  | refl => exact hp
  | @tail u _ _ hstep ih =>
    obtain ⟨nspace, rfl⟩ := hstep
    unfold PrefixTable.prefixFor
    cases hentry : u.entries.get? nspace with
    | some q => exact ih
    | none =>
      have hne : nspace ≠ ns := fun he => by
        rw [← he, hentry] at ih
        cases ih
      rw [Table.get?_put, if_neg hne]
      exact ih

theorem Extends.apart {t t' : PrefixTable} (h : t.Extends t') (ht : t.Apart) : t'.Apart := by
  induction h with
  | refl => exact ht
  | tail _ hstep ih =>
    obtain ⟨nspace, rfl⟩ := hstep
    exact ih.prefixFor nspace

end PrefixTable

end SchemaForms
