import SchemaForms.Proofs.Name.Entering
import SchemaForms.Proofs.Name.Prefixes

/-!
Allotting prefixes: what a prefix table holds after any sequence of inquiries.  Main statement: each
namespace is entered when it is first used and keeps the prefix that it is given then, no two have
the same one, and every prefix is a name that may be declared anywhere.
-/

namespace SchemaForms.PrefixTable

/-- What a table is asked for: the prefix of a namespace, or a local name with the prefix of its
namespace. -/
inductive Inquiry where
  | prefixFor (nspace : String)
  | qualify (localName : String) (nspace : Option String)

namespace Inquiry

/-- The answer, and the table after it. -/
def answer (t : PrefixTable) : Inquiry → String × PrefixTable
  | .prefixFor ns => t.prefixFor ns
  | .qualify localName ns => t.qualify localName ns

/-- The namespace that an inquiry uses.  A local name in the empty namespace needs no prefix. -/
def used : Inquiry → Option String
  | .prefixFor ns => some ns
  | .qualify _ ns => ns.filter (· ≠ "")

/-- The answer, given the prefix of the namespace that is used, if one is. -/
def wording : Inquiry → Option String → String
  | .prefixFor _, p => p.getD ""
  | .qualify localName _, none => localName
  | .qualify localName _, some p => p ++ ":" ++ localName

end Inquiry

/-- The table after some inquiries. -/
def after (inquiries : List Inquiry) : PrefixTable :=
  inquiries.foldl (fun t q => (q.answer t).2) .empty

/-- The namespaces that inquiries use, each where it is used first. -/
def usedBy (inquiries : List Inquiry) : List String := (inquiries.filterMap (·.used)).eraseDups

theorem answer_eq (t : PrefixTable) (q : Inquiry) :
    q.answer t = (match q.used with
      | none => (q.wording none, t)
      | some ns => (q.wording (some (t.prefixFor ns).1), (t.prefixFor ns).2)) := by
  cases q with
  | prefixFor ns => rfl
  | qualify localName ns =>
    cases ns with
    | none => rfl
    | some ns =>
      unfold Inquiry.answer qualify Inquiry.used
      by_cases hempty : ns = ""
      · simp only [hempty, if_true, Option.filter, ne_eq, not_true, decide_false]
        rfl
      · simp only [hempty, if_false, Option.filter, ne_eq, not_false_iff, decide_true]
        rfl

theorem after_concat (inquiries : List Inquiry) (q : Inquiry) :
    after (inquiries ++ [q]) = (q.answer (after inquiries)).2 := by
  rw [after, List.foldl_concat]
  rfl

/-! Which namespaces are entered. -/

theorem keys_prefixFor (t : PrefixTable) (nspace : String) :
    (t.prefixFor nspace).2.entries.keys = insertName t.entries.keys nspace := by
  unfold prefixFor
  cases hentry : t.entries.get? nspace with
  | none => exact Table.keys_put ..
  | some p =>
    have hmem : nspace ∈ t.entries.keys :=
      List.mem_map_of_mem (f := (·.1)) (Table.mem_entries_of_get? hentry)
    exact (if_pos hmem).symm

theorem keys_after (inquiries : List Inquiry) :
    (after inquiries).entries.keys = usedBy inquiries := by
  induction inquiries using List.reverseRecOn with
  | nil => rfl
  | append_singleton inquiries q ih =>
    rw [after_concat, answer_eq, usedBy, List.filterMap_append]
    cases hused : q.used with
    | none =>
      rw [List.filterMap_cons_none hused, List.filterMap_nil, List.append_nil]
      exact ih
    | some ns =>
      rw [List.filterMap_cons_some hused, List.filterMap_nil, eraseDups_concat]
      simp only [keys_prefixFor, insertName, ih, usedBy, List.mem_eraseDups]

/-! Tables grow. -/

theorem extends_answer (t : PrefixTable) (q : Inquiry) : t.Extends (q.answer t).2 := by
  rw [answer_eq]
  cases q.used with
  | none => exact .refl
  | some ns => exact .single ⟨ns, rfl⟩

theorem extends_after (earlier later : List Inquiry) :
    (after earlier).Extends (after (earlier ++ later)) := by
  induction later using List.reverseRecOn with
  | nil =>
    rw [List.append_nil]
    exact .refl
  | append_singleton later q ih =>
    have hstep := after_concat (earlier ++ later) q
    rw [List.append_assoc] at hstep
    rw [hstep]
    exact ih.trans (extends_answer _ q)

theorem get?_prefixFor (t : PrefixTable) (nspace : String) :
    (t.prefixFor nspace).2.entries.get? nspace = some (t.prefixFor nspace).1 := by
  unfold prefixFor
  cases hentry : t.entries.get? nspace with
  | none => simp
  | some p => exact hentry

/-! What prefixes look like. -/

/-- An NCName of ASCII characters that does not start with `xml` in any letter case. -/
structure IsPrefix (p : String) : Prop where
  start : ∃ c cs, p.toList = c :: cs ∧ (c.isAlpha ∨ c = '_') ∧
    ∀ d ∈ cs, d.isAlphanum ∨ d ∈ ['_', '-', '.']
  notXml : ¬ ['x', 'm', 'l'] <+: p.toList.map Char.toLower

theorem startsLikeXml_iff (cs : List Char) :
    startsLikeXml cs = true ↔ ['x', 'm', 'l'] <+: cs.map Char.toLower := by
  rw [startsLikeXml, beq_iff_eq, List.map_take, List.prefix_iff_eq_take, eq_comm]
  rfl

theorem isNameChar_iff (c : Char) :
    isNameChar c = true ↔ c.isAlphanum ∨ c ∈ ['_', '-', '.'] := by
  simp [isNameChar, or_assoc]

theorem startAsName_eq (cs : List Char) :
    ∃ c rest, startAsName cs = c :: rest ∧ isNameStart c = true := by
  cases cs with
  | nil => exact ⟨_, _, rfl, rfl⟩
  | cons c cs =>
    rw [startAsName]
    split
    · next hstart => exact ⟨c, cs, rfl, hstart⟩
    · exact ⟨_, _, rfl, rfl⟩

theorem isPrefix_basePrefix (nspace : String) : IsPrefix (basePrefix nspace) := by
  have hchars : ∀ c ∈ (basePrefix nspace).toList, isNameChar c = true :=
    fun _ hc => isNameChar_basePrefix hc
  obtain ⟨c, rest, hname, hstart⟩ :=
    startAsName_eq ((lastSegment nspace.toList).filter isNameChar)
  have hbase : (basePrefix nspace).toList = avoidXml (c :: rest) := by
    rw [basePrefix, String.toList_ofList, hname]
  rw [avoidXml] at hbase
  split at hbase
  · rw [hbase] at hchars
    refine ⟨⟨'n', 's' :: c :: rest, hbase, .inl rfl, fun d hd => ?_⟩, ?_⟩
    · exact (isNameChar_iff d).1 (hchars d (List.mem_cons_of_mem _ hd))
    · rw [hbase, List.map_cons, List.cons_prefix_cons]
      exact fun hlike => absurd hlike.1 (by decide)
  · next hxml =>
    rw [hbase] at hchars
    refine ⟨⟨c, rest, hbase, by simpa [isNameStart] using hstart, fun d hd => ?_⟩, ?_⟩
    · exact (isNameChar_iff d).1 (hchars d (List.mem_cons_of_mem _ hd))
    · rwa [hbase, ← startsLikeXml_iff]

theorem toLower_of_isDigit {c : Char} (h : c.isDigit = true) : c.toLower = c := by
  simp only [Char.isDigit, Bool.and_eq_true, decide_eq_true_eq] at h
  unfold Char.toLower
  refine dif_neg fun hupper => ?_
  exact absurd (UInt32.le_trans hupper.1 h.2) (by decide)

/-- Digits behind a prefix do not make it start with `xml`. -/
theorem IsPrefix.append_digits {p : String} (h : IsPrefix p) {digits : String}
    (hdigits : ∀ c ∈ digits.toList, c.isDigit = true) : IsPrefix (p ++ digits) := by
  obtain ⟨⟨c, cs, hp, hstart, hrest⟩, hxml⟩ := h
  refine ⟨⟨c, cs ++ digits.toList, by simp [hp], hstart, fun d hd => ?_⟩, fun hlike => ?_⟩
  · rcases List.mem_append.1 hd with hd | hd
    · exact hrest d hd
    · exact .inl (by simp [Char.isAlphanum, hdigits d hd])
  · rw [String.toList_append, List.map_append] at hlike
    rcases List.prefix_or_prefix_of_prefix hlike (List.prefix_append _ _) with hp | ⟨tail, htail⟩
    · exact hxml hp
    · rw [← htail, List.prefix_append_right_inj] at hlike
      cases tail with
      | nil =>
        rw [List.append_nil] at htail
        exact hxml (htail ▸ List.prefix_rfl)
      | cons d tail =>
        obtain ⟨digit, hdigit, rfl⟩ := List.mem_map.1 (hlike.subset List.mem_cons_self)
        have hletter : digit.toLower ∈ ['x', 'm', 'l'] :=
          htail ▸ List.mem_append_right _ List.mem_cons_self
        have hd := hdigits digit hdigit
        rw [toLower_of_isDigit hd] at hletter
        rcases List.mem_cons.1 hletter with rfl | hletter
        · cases hd
        · rcases List.mem_cons.1 hletter with rfl | hletter
          · cases hd
          · rw [List.mem_singleton.1 hletter] at hd
            cases hd

theorem isPrefix_candidate {base : String} (h : IsPrefix base) (n : Nat) :
    IsPrefix (candidate base n) := by
  cases n with
  | zero => exact h
  | succ n =>
    exact h.append_digits fun c hc => Identifiers.isDigit_of_mem (n := n + 1) (by simpa using hc)

theorem isPrefix_freshPrefix (t : PrefixTable) (nspace : String) :
    IsPrefix (t.freshPrefix nspace) := by
  obtain ⟨n, hn, -⟩ := t.freshPrefix_eq nspace
  rw [hn]
  exact isPrefix_candidate (isPrefix_basePrefix nspace) n

/-- Prefixes stay prefixes when a table grows. -/
theorem Extends.isPrefix {t t' : PrefixTable} (h : t.Extends t')
    (ht : ∀ e ∈ t.entries.entries, IsPrefix e.2) : ∀ e ∈ t'.entries.entries, IsPrefix e.2 := by
  induction h with
  | refl => exact ht
  | @tail u _ _ hstep ih =>
    obtain ⟨nspace, rfl⟩ := hstep
    unfold PrefixTable.prefixFor
    cases u.entries.get? nspace with
    | some p => exact ih
    | none =>
      intro e he
      rcases Table.mem_entries_put he with he | rfl
      · exact ih e he
      · dsimp only
        exact isPrefix_freshPrefix u nspace

/-! Tables as a whole. -/

theorem namespaces_eq (t : PrefixTable) : t.declarations.map (·.2) = t.entries.keys := by
  simp [declarations, Table.keys]

theorem extends_empty (inquiries : List Inquiry) :
    PrefixTable.empty.Extends (after inquiries) := by
  have hnil : after [] = .empty := rfl
  rw [← hnil]
  exact extends_after [] inquiries

theorem Apart.nodup_prefixes {t : PrefixTable} (h : t.Apart) (hkeys : t.entries.keys.Nodup) :
    (t.declarations.map (·.1)).Nodup := by
  have hvalues : t.declarations.map (·.1) = t.entries.entries.map (·.2) := by simp [declarations]
  rw [hvalues]
  refine (List.Nodup.of_map _ hkeys).map_on fun e he e' he' hsame => ?_
  obtain ⟨ns, p⟩ := e
  obtain ⟨ns', p'⟩ := e'
  obtain rfl : p = p' := hsame
  rw [h.distinct ns ns' p (h.entered ns p he) (h.entered ns' p he')]

/-- A text answers an inquiry if it is worded with the prefix that is declared for the namespace that
is used, or without a prefix if no namespace is used. -/
def Answers (t : PrefixTable) (q : Inquiry) (text : String) : Prop :=
  match q.used with
  | none => text = q.wording none
  | some ns => ∃ p, (p, ns) ∈ t.declarations ∧ text = q.wording (some p)

theorem answers_of_extends {t t' : PrefixTable} {q : Inquiry} (h : (q.answer t).2.Extends t') :
    t'.Answers q (q.answer t).1 := by
  rw [answer_eq] at h ⊢
  unfold Answers
  cases hused : q.used with
  | none => rfl
  | some ns =>
    rw [hused] at h
    have hentry := h.get? (t.get?_prefixFor ns)
    exact ⟨_, List.mem_map_of_mem (Table.mem_entries_of_get? hentry), rfl⟩

/-- After any inquiries each namespace that was used is declared once, in the order of first use,
with a prefix that no other has, that no form declares itself and that may be declared anywhere; each
inquiry was answered with the prefix that is declared in the end; and the search for a new prefix
ends at the first that is free. -/
theorem prefixes_allotted (inquiries : List Inquiry) :
    let t := after inquiries
    t.declarations.map (·.2) = usedBy inquiries ∧
    (t.declarations.map (·.1)).Nodup ∧
    (∀ e ∈ t.declarations, e.1 ∉ reserved ∧ IsPrefix e.1) ∧
    (∀ earlier q later, inquiries = earlier ++ q :: later →
      t.Answers q (q.answer (after earlier)).1) ∧
    ∀ nspace, ∃ n, t.freshPrefix nspace = candidate (basePrefix nspace) n ∧
      candidate (basePrefix nspace) n ∉ t.taken ∧
      ∀ m < n, candidate (basePrefix nspace) m ∈ t.taken := by
  intro t
  have hextends : PrefixTable.empty.Extends t := extends_empty inquiries
  have hapart : t.Apart := hextends.apart apart_empty
  have hkeys : t.entries.keys = usedBy inquiries := keys_after inquiries
  refine ⟨(namespaces_eq t).trans hkeys, ?_, ?_, ?_, t.freshPrefix_eq⟩
  · exact hapart.nodup_prefixes (hkeys ▸ nodup_eraseDups _)
  · intro e he
    obtain ⟨⟨ns, p⟩, hentry, rfl⟩ := List.mem_map.1 he
    exact ⟨hapart.unreserved ns p (hapart.entered ns p hentry),
      hextends.isPrefix nofun (ns, p) hentry⟩
  · intro earlier q later hsplit
    have hextends := extends_after (earlier ++ [q]) later
    rw [List.append_assoc, List.singleton_append, ← hsplit, after_concat] at hextends
    exact answers_of_extends hextends

/-- Inquiries for namespaces of which the last segments agree. -/
def colliding : List Inquiry :=
  [.prefixFor "urn:a/xml", .qualify "e" (some "urn:b/xml"), .qualify "f" (some ""),
    .prefixFor "urn:a/xml"]

theorem declarations_colliding :
    (after colliding).declarations = [("nsxml", "urn:a/xml"), ("nsxml1", "urn:b/xml")] := by
  decide +kernel

theorem prefixes_allotted_colliding :
    let t := after colliding
    t.declarations.map (·.2) = usedBy colliding ∧
    (t.declarations.map (·.1)).Nodup ∧
    ("nsxml1", "urn:b/xml") ∈ t.declarations ∧ "nsxml1" ∉ reserved ∧ IsPrefix "nsxml1" ∧
    t.Answers (.qualify "e" (some "urn:b/xml")) "nsxml1:e" ∧
    t.freshPrefix "urn:c/xml" = candidate (basePrefix "urn:c/xml") 2 ∧
    candidate (basePrefix "urn:c/xml") 2 ∉ t.taken ∧
    1 < 2 ∧ candidate (basePrefix "urn:c/xml") 1 ∈ t.taken := by
  intro t
  obtain ⟨hnamespaces, hprefixes, hnames, hanswers, hsearch⟩ := prefixes_allotted colliding
  have hmem : ("nsxml1", "urn:b/xml") ∈ t.declarations := by
    rw [declarations_colliding]
    decide
  obtain ⟨hunreserved, hshape⟩ := hnames _ hmem
  have hanswer := hanswers [.prefixFor "urn:a/xml"] (.qualify "e" (some "urn:b/xml")) _ rfl
  have htext : ((Inquiry.qualify "e" (some "urn:b/xml")).answer
      (after [.prefixFor "urn:a/xml"])).1 = "nsxml1:e" := by decide +kernel
  obtain ⟨n, hn, hfree, htaken⟩ := hsearch "urn:c/xml"
  have hfresh : t.freshPrefix "urn:c/xml" = candidate (basePrefix "urn:c/xml") 2 := by
    decide +kernel
  obtain rfl : n = 2 := candidate_injective _ (hn.symm.trans hfresh)
  exact ⟨hnamespaces, hprefixes, hmem, hunreserved, hshape, htext ▸ hanswer, hn, hfree, by decide,
    htaken 1 (by decide)⟩

end SchemaForms.PrefixTable
