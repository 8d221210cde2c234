import SchemaForms.Proofs.Xml.RoundTrip

/-!
Readable elements: an element can be read wherever the prefixes are bound that it uses and does not
declare, whatever these stand for.
-/

namespace SchemaForms.Xml

open Utf8 (bytes)

/-! Names that can stand in tags. -/

/-- Characters that names in tags may have anywhere. -/
def isNamePart (c : Char) : Bool := isTagChar c && c != '=' && c != '!' && c != '/' && c != '?'

section NamePart

variable {cs : List Char} (h : ∀ c ∈ cs, isNamePart c = true)

theorem isNamePart_iff {c : Char} :
    isNamePart c = true ↔ isTagChar c = true ∧ c ≠ '=' ∧ c ≠ '!' ∧ c ≠ '/' ∧ c ≠ '?' := by
  simp [isNamePart, and_assoc]

include h

theorem isTagKey_of_nameParts (hne : cs ≠ []) : IsTagKey cs :=
  ⟨fun c hc => ⟨(isNamePart_iff.1 (h c hc)).1, (isNamePart_iff.1 (h c hc)).2.1⟩, hne⟩

theorem isTagName_of_nameParts (hne : cs ≠ []) : IsTagName cs := by
  obtain ⟨c, cs, rfl⟩ := List.exists_cons_of_ne_nil hne
  refine ⟨fun d hd => (isNamePart_iff.1 (h d hd)).1, ⟨c, rfl, ?_⟩, fun d hd => ?_⟩
  · obtain ⟨-, -, hbang, hslash, hquestion⟩ := isNamePart_iff.1 (h c (List.mem_cons_self ..))
    exact ⟨hbang, hslash, hquestion⟩
  · exact (isNamePart_iff.1 (h d (List.mem_of_getLast? hd))).2.2.2.1

end NamePart

theorem isNamePart_of_continues {c : Char} (h : continuesNCName c = true) : isNamePart c = true := by
  have hne {d : Char} (hd : continuesNCName d = false) : c ≠ d := by
    rintro rfl
    rw [h] at hd
    cases hd
  refine isNamePart_iff.2 ⟨isTagChar_iff.2 ⟨?_, hne (by decide), hne (by decide), hne (by decide)⟩,
    hne (by decide), hne (by decide), hne (by decide), hne (by decide)⟩
  simp only [isSpace, Bool.or_eq_false_iff, beq_eq_false_iff_ne]
  exact ⟨⟨⟨hne (by decide), hne (by decide)⟩, hne (by decide)⟩, hne (by decide)⟩

theorem isNamePart_of_ncName {name : String} (h : IsNCName name = true) :
    ∀ c ∈ name.toList, isNamePart c = true := by
  intro c hc
  cases hcontinues : continuesNCName c with
  | true => exact isNamePart_of_continues hcontinues
  | false => exact absurd hc (IsNCName.not_mem h hcontinues)

theorem isNamePart_of_isNameChar {c : Char} (h : PrefixTable.isNameChar c = true) :
    isNamePart c = true :=
  isNamePart_of_continues (by simp [continuesNCName, h])

/-- A name without colons behind a prefix without colons is split where they meet. -/
theorem splitName_written {p : Option String} {l : String}
    (hp : ∀ q, p = some q → ':' ∉ q.toList) (hl : ':' ∉ l.toList) :
    splitName (writtenName p l) = (p, l) := by
  cases p with
  | none =>
    have hfirst : (splitName l).1 = none := by
      rw [splitName]
      exact Option.map_eq_none_iff.2 ((splitChars_eq_none_iff _).2 hl)
    have hwhole := writtenName_splitName l
    rw [hfirst] at hwhole
    exact Prod.ext hfirst hwhole
  | some q =>
    have hchars : (writtenName (some q) l).toList = q.toList ++ ':' :: l.toList := by
      rw [writtenName, String.toList_append, String.toList_append, List.append_assoc]
      rfl
    rw [splitName, hchars, splitChars_append (hp q rfl)]
    simp

theorem isNamePart_written {p : Option String} {l : String}
    (hp : ∀ q, p = some q → ∀ c ∈ q.toList, PrefixTable.isNameChar c = true)
    (hl : IsNCName l = true) : ∀ c ∈ (writtenName p l).toList, isNamePart c = true := by
  cases p with
  | none => exact isNamePart_of_ncName hl
  | some q =>
    intro c hc
    simp only [writtenName, String.toList_append, List.mem_append] at hc
    rcases hc with (hc | hc) | hc
    · exact isNamePart_of_isNameChar (hp q rfl c hc)
    · obtain rfl : c = ':' := by simpa using hc
      decide
    · exact isNamePart_of_ncName hl c hc

theorem written_ne_nil (p : Option String) {l : String} (hl : IsNCName l = true) :
    (writtenName p l).toList ≠ [] := by
  have hne : l.toList ≠ [] := fun hnil => by
    rw [IsNCName, hnil] at hl
    cases hl
  cases p with
  | none => exact hne
  | some q => simp [writtenName]

/-- What declares nothing is not written as a declaration. -/
theorem of_declarationOf_eq_none {key value : String} (h : declarationOf key value = none) :
    key ≠ "xmlns" ∧ (splitName key).1 ≠ some "xmlns" := by
  unfold declarationOf at h
  split at h
  · cases h
  · next hkey =>
    refine ⟨hkey, fun hp => ?_⟩
    split at h
    · cases h
    · next hother => exact hother _ (Prod.ext hp rfl)

/-! Scopes that bind prefixes. -/

/-- Some prefixes are bound. -/
def Binds (scope : Scope) (bound : List String) : Prop := ∀ p ∈ bound, ∃ ns, scope.lookup p = some ns

/-- The prefixes among declarations. -/
def prefixesOf (ds : List (Option String × String)) : List String := ds.filterMap (·.1)

/-- A prefix is bound behind declarations if it is bound before or declared. -/
theorem lookup_declare {scope : Scope} (ds : List (Option String × String)) (p : String) :
    (∃ ns, (ds.foldl Scope.declare scope).lookup p = some ns) ↔
      p ∈ prefixesOf ds ∨ ∃ ns, scope.lookup p = some ns := by
  induction ds generalizing scope with
  | nil => simp [prefixesOf]
  | cons d ds ih =>
    obtain ⟨q, uri⟩ := d
    rw [List.foldl_cons, ih]
    cases q with
    | none => simp [prefixesOf, Scope.declare, Scope.setDefault, Scope.lookup]
    | some q =>
      have hbind : (∃ ns, (scope.declare (some q, uri)).lookup p = some ns) ↔
          p = q ∨ ∃ ns, scope.lookup p = some ns := by
        rw [Scope.declare, Scope.lookup_bind]
        by_cases hq : q = p
        · simp [hq]
        · simp [hq, Ne.symm hq]
      rw [hbind]
      simp only [prefixesOf, List.filterMap_cons, List.mem_cons]
      tauto

theorem resolve_of_bound {scope : Scope} {written : String}
    (h : ∀ p, (splitName written).1 = some p → ∃ ns, scope.lookup p = some ns) :
    ∃ name, scope.resolve written = .ok name := by
  unfold Scope.resolve
  cases hsplit : splitName written with
  | mk p localName =>
    rw [hsplit] at h
    cases p with
    | none => exact ⟨_, rfl⟩
    | some p =>
      obtain ⟨ns, hns⟩ := h p rfl
      simp only [hns]
      exact ⟨_, rfl⟩

theorem resolveAttribute_of_bound {scope : Scope} {key : String} (value : String)
    (h : ∀ p, (splitName key).1 = some p → ∃ ns, scope.lookup p = some ns) :
    ∃ a, resolveAttribute scope key value = .ok a := by
  unfold resolveAttribute
  obtain ⟨name, hname⟩ := resolve_of_bound h
  split
  · exact ⟨_, rfl⟩
  · rw [hname]
    exact ⟨_, rfl⟩

theorem resolveAttributes_of_bound {scope : Scope} {pairs : List (String × String)}
    (h : ∀ a ∈ pairs, ∀ p, (splitName a.1).1 = some p → ∃ ns, scope.lookup p = some ns) :
    ∃ as, resolveAttributes scope pairs = .ok as := by
  induction pairs with
  | nil => exact ⟨[], rfl⟩
  | cons a pairs ih =>
    rw [List.forall_mem_cons] at h
    obtain ⟨a', ha'⟩ := resolveAttribute_of_bound a.2 h.1
    obtain ⟨as, has⟩ := ih h.2
    exact ⟨a' :: as, bind_eq_ok.2 ⟨a', ha', bind_eq_ok.2 ⟨as, has, rfl⟩⟩⟩

/-- The prefix of an attribute that has been resolved is bound. -/
theorem bound_of_resolveAttribute {scope : Scope} {key value : String} {a : Attribute}
    (h : resolveAttribute scope key value = .ok a) :
    ∀ p, (splitName key).1 = some p → ∃ ns, scope.lookup p = some ns := by
  unfold resolveAttribute at h
  split at h
  · next hsplit =>
    rw [hsplit]
    exact fun p hp => by cases hp
  · split at h
    · next hname => exact (resolve_eq_ok hname).2
    · cases h

/-- A tag begins an element where all its prefixes are bound. -/
theorem begins_of_bound {outer : Scope} {written : String} {pairs : List (String × String)}
    (hname : ∀ p, (splitName written).1 = some p →
      ∃ ns, ((declarationsIn pairs).foldl Scope.declare outer).lookup p = some ns)
    (hothers : ∀ a ∈ othersIn pairs, ∀ p, (splitName a.1).1 = some p →
      ∃ ns, ((declarationsIn pairs).foldl Scope.declare outer).lookup p = some ns) :
    ∃ e, Begins outer written pairs e := by
  obtain ⟨name, hresolve⟩ := resolve_of_bound hname
  obtain ⟨as, has⟩ := resolveAttributes_of_bound hothers
  exact ⟨⟨name, (splitName written).1, as, none, [], declarationsIn pairs, _⟩,
    hresolve, rfl, has, rfl, rfl, rfl, rfl⟩

/-! Elements. -/

namespace Element

/-- An element that can be read wherever some prefixes are bound, with all inside it. -/
inductive Readable : List String → Element → Prop
  | intro {bound : List String} {e : Element} (tag : LegibleTag e.written e.tagAttributes)
      (name : ∀ p, (splitName e.written).1 = some p → p ∈ prefixesOf e.declarations ++ bound)
      (attributes : ∀ a ∈ e.attributes, ∀ p, (splitName a.written).1 = some p →
        p ∈ prefixesOf e.declarations ++ bound)
      (inner : ∀ c ∈ e.children, c.Readable (prefixesOf e.declarations ++ bound)) :
      e.Readable bound

theorem prefixesOf_declarationsIn {e : Element} {p : String} (h : p ∈ prefixesOf e.declarations) :
    p ∈ prefixesOf (declarationsIn e.tagAttributes) := by
  obtain ⟨d, hd, hp⟩ := List.mem_filterMap.1 h
  refine List.mem_filterMap.2 ⟨d, List.mem_filterMap.2 ⟨(declarationKey d.1, d.2), ?_, ?_⟩, hp⟩
  · exact List.mem_append_left _ (List.mem_map.2 ⟨d, hd, rfl⟩)
  · exact declarationOf_key d

theorem Readable.renders {bound : List String} {e : Element} (h : e.Readable bound) {outer : Scope}
    (hbound : Binds outer bound) : ∃ e', Renders outer e.pieces [e'] := by
  induction h generalizing outer with
  | @intro bound e tag name attributes inner ih =>
    have hinner : Binds ((declarationsIn e.tagAttributes).foldl Scope.declare outer)
        (prefixesOf e.declarations ++ bound) := by
      intro p hp
      refine (lookup_declare _ p).2 ?_
      exact (List.mem_append.1 hp).imp prefixesOf_declarationsIn (hbound p)
    obtain ⟨made, hmade⟩ : ∃ made, Begins outer e.written e.tagAttributes made := by
      refine begins_of_bound (fun p hp => hinner p (name p hp)) fun a ha p hp => ?_
      obtain ⟨ha, hplain⟩ := List.mem_filter.1 ha
      rcases List.mem_append.1 ha with ha | ha
      · obtain ⟨d, -, rfl⟩ := List.mem_map.1 ha
        simp [declarationOf_key] at hplain
      · obtain ⟨b, hb, rfl⟩ := List.mem_map.1 ha
        exact hinner p (attributes b hb p hp)
    obtain ⟨es, hes⟩ : ∃ es, Renders made.scope (piecesOf e.children) es := by
      rw [← hmade.declarations, ← hmade.scope] at hinner
      generalize e.children = cs at ih
      induction cs with
      | nil => exact ⟨[], .nil⟩
      | cons c cs ihcs =>
        rw [List.forall_mem_cons] at ih
        obtain ⟨c', hc'⟩ := ih.1 hinner
        obtain ⟨es, hes⟩ := ihcs ih.2
        exact ⟨[c'] ++ es, hc'.append hes⟩
    by_cases hempty : e.text = none ∧ e.children = []
    · rw [pieces_empty hempty.1 hempty.2]
      exact ⟨made, .empty tag hmade⟩
    · rw [pieces_enclose (by tauto)]
      exact ⟨_, .enclosed tag hmade e.text hes⟩

/-- Only names, attributes and declarations matter. -/
theorem Readable.congr {bound : List String} {e e' : Element} (h : e.Readable bound)
    (hname : e'.name = e.name) (hleading : e'.nsPrefix = e.nsPrefix)
    (hattributes : e'.attributes = e.attributes) (hdeclarations : e'.declarations = e.declarations)
    (hchildren : e'.children = e.children) : e'.Readable bound := by
  obtain ⟨tag, name, attributes, inner⟩ := h
  have hwritten : e'.written = e.written := by rw [written, written, hname, hleading]
  have htag : e'.tagAttributes = e.tagAttributes := by
    rw [tagAttributes, tagAttributes, hattributes, hdeclarations]
  refine .intro ?_ ?_ ?_ ?_
  · rw [hwritten, htag]
    exact tag
  · rw [hwritten, hdeclarations]
    exact name
  · rw [hattributes, hdeclarations]
    exact attributes
  · rw [hchildren, hdeclarations]
    exact inner

theorem Readable.mono {bound bound' : List String} {e : Element} (h : e.Readable bound)
    (hsub : bound ⊆ bound') : e.Readable bound' := by
  induction h generalizing bound' with
  | @intro bound e tag name attributes inner ih =>
    have hmore := List.append_subset.2 ⟨List.subset_append_left (prefixesOf e.declarations) bound',
      List.Subset.trans hsub (List.subset_append_right _ _)⟩
    exact .intro tag (fun p hp => hmore (name p hp)) (fun a ha p hp => hmore (attributes a ha p hp))
      fun c hc => ih c hc hmore

/-- Another declaration leaves an element readable, if no attribute is written like it. -/
theorem Readable.declared {bound : List String} {e e' : Element} (h : e.Readable bound)
    (d : Option String × String) (hkey : IsTagKey (declarationKey d.1).toList)
    (hnew : e.declarations.any (·.1 == d.1) = false)
    (hplain : ∀ a ∈ e.attributes, a.written ≠ declarationKey d.1) (hname : e'.name = e.name)
    (hleading : e'.nsPrefix = e.nsPrefix) (hattributes : e'.attributes = e.attributes)
    (hdeclarations : e'.declarations = e.declarations ++ [d]) (hchildren : e'.children = e.children) :
    e'.Readable bound := by
  obtain ⟨tag, name, attributes, inner⟩ := h
  have hwritten : e'.written = e.written := by rw [written, written, hname, hleading]
  have hmore : prefixesOf e.declarations ++ bound ⊆ prefixesOf e'.declarations ++ bound := by
    rw [hdeclarations, prefixesOf, prefixesOf, List.filterMap_append]
    exact List.append_subset.2
      ⟨List.Subset.trans (List.subset_append_left _ _) (List.subset_append_left _ _),
        List.subset_append_right _ _⟩
  have htag : e'.tagAttributes.Perm ((declarationKey d.1, d.2) :: e.tagAttributes) := by
    rw [tagAttributes, tagAttributes, hattributes, hdeclarations, List.map_append, List.append_assoc]
    exact List.perm_middle
  refine .intro ⟨hwritten ▸ tag.name, fun a ha => ?_, ?_⟩ ?_ ?_ ?_
  · rcases List.mem_cons.1 (htag.mem_iff.1 ha) with rfl | ha
    · exact hkey
    · exact tag.keys a ha
  · rw [(htag.map _).nodup_iff, List.map_cons, List.nodup_cons]
    refine ⟨fun hm => ?_, tag.distinct⟩
    obtain ⟨a, ha, hsame⟩ := List.mem_map.1 hm
    rcases List.mem_append.1 ha with ha | ha
    · obtain ⟨d', hd', rfl⟩ := List.mem_map.1 ha
      have hd := declarationOf_key (d'.1, "")
      rw [show declarationKey d'.1 = declarationKey d.1 from hsame] at hd
      have hboth := hd.symm.trans (declarationOf_key (d.1, ""))
      have hprefixes : d'.1 = d.1 := (Prod.mk.inj (Option.some.inj hboth)).1
      have hany : e.declarations.any (·.1 == d.1) = true :=
        List.any_eq_true.2 ⟨d', hd', beq_iff_eq.2 hprefixes⟩
      rw [hany] at hnew
      cases hnew
    · obtain ⟨b, hb, rfl⟩ := List.mem_map.1 ha
      exact hplain b hb hsame
  · rw [hwritten]
    exact fun p hp => hmore (name p hp)
  · rw [hattributes]
    exact fun a ha p hp => hmore (attributes a ha p hp)
  · rw [hchildren]
    exact fun c hc => (inner c hc).mono hmore

theorem Readable.declare {bound : List String} {e : Element} (h : e.Readable bound)
    {p : String} (nspace : String) (hp : ∀ c ∈ p.toList, isNamePart c = true)
    (hplain : ∀ a ∈ e.attributes, (splitName a.written).1 ≠ some "xmlns") :
    (e.declare p nspace).Readable bound := by
  unfold Element.declare
  split
  · exact h
  · next hany =>
    refine h.declared (some p, nspace) ?_ (eq_false_of_ne_true hany) (fun a ha he => ?_) rfl rfl rfl rfl rfl
    · refine isTagKey_of_nameParts (fun c hc => ?_) ?_
      · rw [declarationKey, String.toList_append, List.mem_append] at hc
        rcases hc with hc | hc
        · exact (by decide : ∀ c ∈ "xmlns:".toList, isNamePart c = true) c hc
        · exact hp c hc
      · simp [declarationKey]
    · refine hplain a ha ?_
      rw [he, declarationKey, splitName_declarationKey]

theorem Readable.undeclareDefault {bound : List String} {e : Element} (h : e.Readable bound)
    (hplain : ∀ a ∈ e.attributes, a.written ≠ "xmlns") : e.undeclareDefault.Readable bound := by
  unfold Element.undeclareDefault
  split
  · exact h
  · next hany =>
    exact h.declared (none, "") (isTagKey_of_nameParts (by decide) (by decide)) (eq_false_of_ne_true hany)
      hplain rfl rfl rfl rfl rfl

end Element

/-- No attribute of an element that has been read is a declaration. -/
theorem Element.Legible.plain {outer : Scope} {e : Element} (h : e.Legible outer) :
    ∀ a ∈ e.attributes, a.written ≠ "xmlns" ∧ (splitName a.written).1 ≠ some "xmlns" := by
  obtain ⟨-, begins, -, -⟩ := h
  intro a ha
  have hmem : (a.written, a.value) ∈ othersIn e.tagAttributes := by
    rw [← (resolveAttributes_eq_ok begins.attributes).1]
    exact List.mem_map.2 ⟨a, ha, rfl⟩
  exact of_declarationOf_eq_none (Option.isNone_iff_eq_none.1 (List.mem_filter.1 hmem).2)

/-- An element that has been read can be read again where the prefixes are bound that were. -/
theorem Element.Legible.readable {outer : Scope} {e : Element} (h : e.Legible outer)
    {bound : List String} (hbound : ∀ p ns, outer.lookup p = some ns → p ∈ bound) :
    e.Readable bound := by
  induction h generalizing bound with
  | @intro outer e tag begins text inner ih =>
    have hscope : e.scope = e.declarations.foldl Scope.declare outer := begins.scope
    have hinner : ∀ p ns, e.scope.lookup p = some ns → p ∈ prefixesOf e.declarations ++ bound := by
      intro p ns hns
      rw [hscope] at hns
      rw [List.mem_append]
      exact ((lookup_declare _ p).1 ⟨ns, hns⟩).imp_right fun ⟨ns', hns'⟩ => hbound p ns' hns'
    refine .intro tag (fun p hp => ?_) (fun a ha p hp => ?_) fun c hc => ih c hc hinner
    · obtain ⟨ns, hns⟩ := (resolve_eq_ok begins.name).2 p hp
      exact hinner p ns hns
    · have hresolved := (resolveAttributes_eq_ok begins.attributes).2 a ha
      obtain ⟨ns, hns⟩ := bound_of_resolveAttribute hresolved p hp
      exact hinner p ns hns

/-! Documents that cannot be read. -/

/-- The attributes of a tag. -/
def Piece.attributes : Piece → List (String × String)
  | .opening _ attributes | .empty _ attributes => attributes
  | _ => []

/-- Only a legible tag begins an element. -/
theorem LegibleTag.of_elementOf {outer : Scope} {name : String} {attributes : List (String × String)}
    {e : Element} (hname : IsTagName name.toList) (hkeys : ∀ a ∈ attributes, IsTagKey a.1.toList)
    (h : elementOf outer (bytes name.toList) (bytes (attributeText attributes)) = .ok e) :
    LegibleTag name attributes := by
  obtain ⟨_, pairs, -, hpairs, -⟩ := elementOf_eq_ok.1 h
  obtain rfl := eq_of_attributesOf_written hkeys hpairs
  exact ⟨hname, hkeys, nodup_of_attributesOf hpairs⟩

theorem Reading.nodup_of_step {r r' : Reading} {p : Piece} (hp : p.Legible) {t : Token}
    (ht : t ∈ p.tokens) (h : r.step t = .ok r') : (p.attributes.map (·.1)).Nodup := by
  cases p with
  | opening name attributes =>
    obtain rfl := List.mem_singleton.1 ht
    rw [step] at h
    split at h
    · next he => exact (LegibleTag.of_elementOf hp.1 hp.2 he).distinct
    · cases h
  | empty name attributes =>
    obtain rfl := List.mem_singleton.1 ht
    rw [step] at h
    split at h
    · next he => exact (LegibleTag.of_elementOf hp.1 hp.2 he).distinct
    · cases h
  | _ => exact List.nodup_nil

theorem Reading.step_of_run {r r' : Reading} {ts : List Token} (h : r.run ts = .ok r') :
    ∀ t ∈ ts, ∃ s s' : Reading, s.step t = .ok s' := by
  induction ts generalizing r with
  | nil => exact fun t ht => absurd ht List.not_mem_nil
  | cons t ts ih =>
    rw [run] at h
    split at h
    · next s hs => exact List.forall_mem_cons.2 ⟨⟨r, s, hs⟩, ih h⟩
    · cases h

/-- If a document can be read, no tag of it has a key twice. -/
theorem nodup_of_readString {ps : List Piece} {cs : List Char} (hcs : Written ps cs)
    (hlegible : ∀ p ∈ ps, p.Legible) (hapart : Apart ps) {root : Option Element}
    (h : readString (String.ofList cs) = .ok root) : ∀ p ∈ ps, (p.attributes.map (·.1)).Nodup := by
  intro p hp
  rw [readString_written hcs hlegible hapart] at h
  obtain ⟨r, hrun, -⟩ := bind_eq_ok.1 h
  have hstep (t : Token) (ht : t ∈ p.tokens) : (p.attributes.map (·.1)).Nodup := by
    obtain ⟨s, s', hs⟩ := Reading.step_of_run hrun t (List.mem_flatMap.2 ⟨p, hp, ht⟩)
    exact Reading.nodup_of_step (hlegible p hp) ht hs
  cases p with
  | opening name attributes => exact hstep _ List.mem_cons_self
  | empty name attributes => exact hstep _ List.mem_cons_self
  | _ => exact List.nodup_nil

/-- A name that can be put into tags. -/
def isPlainName (name : String) : Bool := !name.toList.isEmpty && name.toList.all isNamePart

/-- A piece that is legible, as can be seen from its characters. -/
def Piece.isPlain : Piece → Bool
  | .opening name attributes | .empty name attributes =>
    isPlainName name && attributes.all fun a => isPlainName a.1
  | .closing name => isPlainName name
  | .comment s => !s.toList.contains '>'
  | _ => true

theorem isPlainName_iff {name : String} :
    isPlainName name = true ↔ name.toList ≠ [] ∧ ∀ c ∈ name.toList, isNamePart c = true := by
  simp [isPlainName]

theorem Piece.legible_of_isPlain {p : Piece} (h : p.isPlain = true) : p.Legible := by
  have htag {name : String} {attributes : List (String × String)}
      (h : (isPlainName name && attributes.all fun a => isPlainName a.1) = true) :
      IsTagName name.toList ∧ ∀ a ∈ attributes, IsTagKey a.1.toList := by
    rw [Bool.and_eq_true, List.all_eq_true] at h
    obtain ⟨hne, hname⟩ := isPlainName_iff.1 h.1
    refine ⟨isTagName_of_nameParts hname hne, fun a ha => ?_⟩
    obtain ⟨hne, hkey⟩ := isPlainName_iff.1 (h.2 a ha)
    exact isTagKey_of_nameParts hkey hne
  cases p with
  | opening name attributes => exact htag h
  | empty name attributes => exact htag h
  | closing name =>
    obtain ⟨hne, hname⟩ := isPlainName_iff.1 h
    exact isTagName_of_nameParts hname hne
  | comment s =>
    intro hinfix
    have hmem : '>' ∈ s.toList := hinfix.subset (by decide)
    rw [isPlain, List.contains_iff_mem.2 hmem] at h
    cases h
  | _ => trivial

/-- Whether some tag among plain pieces has a key twice. -/
def repeatsKey (ps : List Piece) : Bool :=
  ps.all Piece.isPlain &&
    (ps.head?.all (!·.isText) && ps.getLast?.all (!·.isText) &&
      decide (ps.IsChain fun p q => p.isText = false ∨ q.isText = false)) &&
    ps.any fun p => !decide (p.attributes.map (·.1)).Nodup

theorem readString_of_repeatsKey {ps : List Piece} (h : repeatsKey ps = true) {cs : List Char}
    (hcs : Written ps cs) (root : Option Element) : readString (String.ofList cs) ≠ .ok root := by
  simp only [repeatsKey, Bool.and_eq_true, List.all_eq_true, decide_eq_true_eq, List.any_eq_true,
    Bool.not_eq_true', decide_eq_false_iff_not] at h
  obtain ⟨⟨hplain, ⟨hfirst, hlast⟩, hchain⟩, p, hp, htwice⟩ := h
  have hends {q : Option Piece} (h : q.all (!·.isText) = true) (p : Piece) (hp : q = some p) :
      p.isText = false := by
    rw [hp] at h
    simpa using h
  intro hread
  exact htwice (nodup_of_readString hcs (fun p hp => Piece.legible_of_isPlain (hplain p hp))
    ⟨hends hfirst, hends hlast, hchain⟩ hread p hp)

end SchemaForms.Xml
