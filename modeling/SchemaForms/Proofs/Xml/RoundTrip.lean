import SchemaForms.Proofs.Name.Prefixes
import SchemaForms.Proofs.Xml.Parsing
import SchemaForms.Proofs.Xml.Rendering

/-!
Round trip: a document that has been read, written and read again is the same document, with its
texts trimmed.
-/

namespace SchemaForms.Xml

open Utf8 (Bytes bytes byteOf byteOf_not_mem)

/-! Names as they are written. -/

theorem writtenName_splitName (s : String) : writtenName (splitName s).1 (splitName s).2 = s := by
  have hchars (cs : List Char) :
      (splitChars cs).1.elim [] (fun p => p ++ [':']) ++ (splitChars cs).2 = cs := by
    induction cs with
    | nil => rfl
    | cons c cs ih =>
      rw [splitChars]
      split
      · next hc =>
        rw [hc]
        rfl
      · split
        · next hsplit =>
          rw [hsplit] at ih
          exact congrArg (c :: ·) ih
        · next hsplit =>
          rw [hsplit] at ih
          exact congrArg (c :: ·) ih
  have hs := hchars s.toList
  rw [splitName]
  cases hsplit : splitChars s.toList with
  | mk p rest =>
    rw [hsplit] at hs
    rw [← String.toList_inj]
    cases p with
    | none => simpa [writtenName] using hs
    | some p => simpa [writtenName, String.toList_append] using hs

/-- A character that no value of an attribute begins with or stands behind. -/
def isBare (c : Char) : Bool := c != '=' && c != '"' && c != '\''

theorem isBare_iff {c : Char} : isBare c = true ↔ c ≠ '=' ∧ c ≠ '"' ∧ c ≠ '\'' := by
  simp [isBare, and_assoc]

theorem isBare_of_ncName {name : String} (h : IsNCName name = true) :
    ∀ c ∈ name.toList, isBare c = true := by
  intro c hc
  refine isBare_iff.2 ⟨?_, ?_, ?_⟩
  · rintro rfl
    exact IsNCName.not_mem h (by decide) hc
  · rintro rfl
    exact IsNCName.not_mem h (by decide) hc
  · rintro rfl
    exact IsNCName.not_mem h (by decide) hc

/-- Every prefix of a scope is bare. -/
def BareScope (scope : Scope) : Prop := ∀ b ∈ scope.bindings, ∀ c ∈ b.1.toList, isBare c = true

theorem bareScope_initial : BareScope Scope.initial := by
  intro b hb
  rw [List.mem_singleton.1 hb]
  decide

theorem BareScope.declare {scope : Scope} (h : BareScope scope) {ds : List (Option String × String)}
    (hds : ∀ d ∈ ds, ∀ p, d.1 = some p → ∀ c ∈ p.toList, isBare c = true) :
    BareScope (ds.foldl Scope.declare scope) := by
  induction ds generalizing scope with
  | nil => exact h
  | cons d ds ih =>
    rw [List.forall_mem_cons] at hds
    obtain ⟨p, uri⟩ := d
    refine ih ?_ hds.2
    cases p with
    | none => exact h
    | some p => exact List.forall_mem_cons.2 ⟨hds.1 p rfl, h⟩

theorem BareScope.lookup {scope : Scope} (h : BareScope scope) {p ns : String}
    (hp : scope.lookup p = some ns) : ∀ c ∈ p.toList, isBare c = true := by
  have hmem : p ∈ scope.bindings.map (·.1) := by
    by_contra hnot
    rw [Scope.lookup, (Table.find_eq_none_iff p _).2 hnot] at hp
    cases hp
  obtain ⟨b, hb, rfl⟩ := List.mem_map.1 hmem
  exact h b hb

/-- A name that is resolved is its prefix, which is bound, and its local name. -/
theorem resolve_eq_ok {scope : Scope} {written : String} {name : QName}
    (h : scope.resolve written = .ok name) :
    writtenName (splitName written).1 name.localName = written ∧
      ∀ p, (splitName written).1 = some p → ∃ ns, scope.lookup p = some ns := by
  have hwritten := writtenName_splitName written
  unfold Scope.resolve at h
  split at h
  · next hsplit =>
    cases h
    rw [hsplit] at hwritten ⊢
    exact ⟨hwritten, fun p hp => by cases hp⟩
  · next p localName hsplit =>
    rw [hsplit] at hwritten ⊢
    split at h
    · next ns hns =>
      cases h
      exact ⟨hwritten, fun q hq => ⟨ns, by rw [← Option.some.inj hq]; exact hns⟩⟩
    · cases h

theorem bare_of_resolve {scope : Scope} (hscope : BareScope scope) {written : String} {name : QName}
    (h : scope.resolve written = .ok name) (hname : IsNCName name.localName = true) :
    ∀ c ∈ written.toList, isBare c = true := by
  obtain ⟨hwritten, hbound⟩ := resolve_eq_ok h
  have hlocal := isBare_of_ncName hname
  rw [← hwritten]
  cases hp : (splitName written).1 with
  | none => exact hlocal
  | some p =>
    obtain ⟨ns, hns⟩ := hbound p hp
    have hleading := hscope.lookup hns
    intro c hc
    simp only [writtenName, String.toList_append, List.mem_append] at hc
    rcases hc with (hc | hc) | hc
    · exact hleading c hc
    · obtain rfl : c = ':' := by simpa using hc
      decide
    · exact hlocal c hc

/-! Attributes and declarations as they are written. -/

theorem declarationOf_eq_some {key value : String} {d : Option String × String}
    (h : declarationOf key value = some d) : (declarationKey d.1, d.2) = (key, value) := by
  unfold declarationOf at h
  split at h
  · next hkey =>
    cases h
    rw [hkey]
    rfl
  · split at h
    · next p hsplit =>
      cases h
      have hwritten := writtenName_splitName key
      rw [hsplit] at hwritten
      have hkey : "xmlns:" ++ p = key := hwritten
      rw [← hkey]
      rfl
    · cases h

/-- The declarations among attributes, written again. -/
theorem declared_declarationsIn (pairs : List (String × String)) :
    (declarationsIn pairs).map (fun d => (declarationKey d.1, d.2)) =
      pairs.filter fun a => (declarationOf a.1 a.2).isSome := by
  induction pairs with
  | nil => rfl
  | cons a pairs ih =>
    rw [declarationsIn, List.filterMap_cons, List.filter_cons]
    cases h : declarationOf a.1 a.2 with
    | none => exact ih
    | some d => exact congrArg₂ List.cons (declarationOf_eq_some h) ih

theorem splitName_declarationKey (p : String) : splitName ("xmlns:" ++ p) = (some "xmlns", p) := by
  have hchars : ("xmlns:" ++ p).toList = "xmlns".toList ++ ':' :: p.toList := by
    rw [String.toList_append]
    rfl
  rw [splitName, hchars, splitChars_append (by decide)]
  simp

theorem declarationOf_key (d : Option String × String) :
    declarationOf (declarationKey d.1) d.2 = some d := by
  obtain ⟨p, uri⟩ := d
  cases p with
  | none => rfl
  | some p =>
    have hne : "xmlns:" ++ p ≠ "xmlns" := fun he => by
      have := congrArg (·.toList.length) he
      simp at this
    simp only [declarationKey, declarationOf, if_neg hne, splitName_declarationKey]

section TagAttributes

variable {e : Element} (h : ∀ a ∈ e.attributes, declarationOf a.written a.value = none)

include h

/-- What a tag declares is what its element declares. -/
theorem declarationsIn_tagAttributes : declarationsIn e.tagAttributes = e.declarations := by
  have hdeclared : (e.declarations.map fun d => (declarationKey d.1, d.2)).filterMap
      (fun a => declarationOf a.1 a.2) = e.declarations := by
    rw [List.filterMap_map]
    exact (List.filterMap_congr fun d _ => declarationOf_key d).trans List.filterMap_some
  have hplain : (e.attributes.map fun a => (a.written, a.value)).filterMap
      (fun a => declarationOf a.1 a.2) = [] := by
    rw [List.filterMap_map, List.filterMap_eq_nil_iff]
    exact h
  rw [Element.tagAttributes, declarationsIn, List.filterMap_append, hplain, List.append_nil]
  exact hdeclared

theorem othersIn_tagAttributes :
    othersIn e.tagAttributes = e.attributes.map fun a => (a.written, a.value) := by
  have hdeclared : (e.declarations.map fun d => (declarationKey d.1, d.2)).filter
      (fun a => (declarationOf a.1 a.2).isNone) = [] := by
    rw [List.filter_eq_nil_iff]
    intro a ha
    obtain ⟨d, -, rfl⟩ := List.mem_map.1 ha
    simp [declarationOf_key]
  have hplain : (e.attributes.map fun a => (a.written, a.value)).filter
      (fun a => (declarationOf a.1 a.2).isNone) = e.attributes.map fun a => (a.written, a.value) := by
    rw [List.filter_eq_self]
    intro a ha
    obtain ⟨b, hb, rfl⟩ := List.mem_map.1 ha
    simp [h b hb]
  rw [Element.tagAttributes, othersIn, List.filter_append, hplain]
  exact congrArg (· ++ _) hdeclared

end TagAttributes

theorem resolveAttribute_eq_ok {scope : Scope} {key value : String} {a : Attribute}
    (h : resolveAttribute scope key value = .ok a) :
    (a.written, a.value) = (key, value) ∧
      (BareScope scope → IsNCName a.name.localName = true → ∀ c ∈ key.toList, isBare c = true) := by
  have hwritten := writtenName_splitName key
  unfold resolveAttribute at h
  split at h
  · next localName hsplit =>
    cases h
    rw [hsplit] at hwritten
    refine ⟨by rw [← hwritten]; rfl, fun _ hname => ?_⟩
    rw [← hwritten]
    exact isBare_of_ncName hname
  · next p localName hsplit =>
    split at h
    · next name hname =>
      cases h
      obtain ⟨hkey, -⟩ := resolve_eq_ok hname
      rw [hsplit] at hkey
      exact ⟨by rw [← hkey]; rfl, fun hscope => bare_of_resolve hscope hname⟩
    · cases h

/-- The attributes that are resolved, written again. -/
theorem resolveAttributes_eq_ok {scope : Scope} {pairs : List (String × String)} {as : List Attribute}
    (h : resolveAttributes scope pairs = .ok as) :
    as.map (fun a => (a.written, a.value)) = pairs ∧
      ∀ a ∈ as, resolveAttribute scope a.written a.value = .ok a := by
  induction pairs generalizing as with
  | nil =>
    cases h
    exact ⟨rfl, fun a ha => absurd ha List.not_mem_nil⟩
  | cons p pairs ih =>
    obtain ⟨key, value⟩ := p
    rw [resolveAttributes] at h
    obtain ⟨a, ha, h⟩ := bind_eq_ok.1 h
    obtain ⟨rest, hrest, h⟩ := bind_eq_ok.1 h
    obtain rfl := Except.ok.inj h
    obtain ⟨hmap, hall⟩ := ih hrest
    obtain ⟨hwritten, -⟩ := resolveAttribute_eq_ok ha
    rw [List.map_cons, hmap, hwritten]
    refine ⟨rfl, List.forall_mem_cons.2 ⟨?_, hall⟩⟩
    rw [(Prod.mk.inj hwritten).1, (Prod.mk.inj hwritten).2]
    exact ha

/-! Elements. -/

namespace Element

/-- What holds of an element and of all inside it. -/
inductive Everywhere (P : Element → Prop) : Element → Prop
  | intro {e : Element} (here : P e) (inner : ∀ c ∈ e.children, c.Everywhere P) : e.Everywhere P

/-- Names are NCNames, behind a prefix or without one. -/
def NCNamed (e : Element) : Prop :=
  IsNCName e.localName = true ∧ ∀ a ∈ e.attributes, IsNCName a.name.localName = true

/-- No prefix is declared with a quote in it. -/
def Unquoted (e : Element) : Prop :=
  ∀ d ∈ e.declarations, ∀ p, d.1 = some p → '"' ∉ p.toList ∧ '\'' ∉ p.toList

end Element

theorem isTagName_of_read {written : String} {localName : String} {name attributes : Bytes}
    (tag : IsTag name attributes) (hname : bytes written.toList = name)
    (hbare : ∀ c ∈ written.toList, isBare c = true) {p : Option String}
    (hwritten : writtenName p localName = written) (hlocal : IsNCName localName = true) :
    IsTagName written.toList := by
  obtain ⟨before, hbefore⟩ : ∃ before, written.toList = before ++ localName.toList := by
    rw [← hwritten]
    cases p with
    | none => exact ⟨[], rfl⟩
    | some p => exact ⟨(p ++ ":").toList, by rw [writtenName, String.toList_append]⟩
  have hne : localName.toList ≠ [] := fun hnil => by
    rw [IsNCName, hnil] at hlocal
    cases hlocal
  subst hname
  have hquote {c : Char} (hc : isBare c = false) : c ∉ written.toList := fun hm => by
    rw [hbare c hm] at hc
    cases hc
  have hgreater : Byte.greater ∉ bytes written.toList :=
    (quoteAfter_of_unquoted (byteOf_not_mem (c := '"') (by decide) (hquote (by decide)))
      (byteOf_not_mem (c := '\'') (by decide) (hquote (by decide))) tag.goesOn).1
  refine ⟨fun c hc => isTagChar_iff.2 ⟨isSpace_of_bytes tag.unbroken c hc, ?_,
    (isBare_iff.1 (hbare c hc)).2⟩, ?_, ?_⟩
  · rintro rfl
    exact hgreater (List.mem_flatMap.2 ⟨'>', hc, by decide⟩)
  · cases hcs : written.toList with
    | nil =>
      rw [hcs] at hbefore
      exact absurd (List.append_eq_nil_iff.1 hbefore.symm).2 hne
    | cons c cs =>
      rw [hcs] at tag
      refine ⟨c, rfl, ?_, ?_, ?_⟩
      · rintro rfl
        exact (tag.first Byte.bang rfl).1 rfl
      · rintro rfl
        exact (tag.first Byte.slash rfl).2.1 rfl
      · rintro rfl
        exact (tag.first Byte.question rfl).2.2 rfl
  · rintro c hc rfl
    rw [hbefore, List.getLast?_append_of_ne_nil _ hne] at hc
    exact IsNCName.not_mem hlocal (by decide) (List.mem_of_getLast? hc)

/-- The keys of a tag are bare, if its prefixes are and its names are NCNames. -/
theorem isBare_of_key {scope : Scope} (hscope : BareScope scope) {pairs : List (String × String)}
    {as : List Attribute} (has : resolveAttributes scope (othersIn pairs) = .ok as)
    (hnames : ∀ a ∈ as, IsNCName a.name.localName = true)
    (hprefixes : ∀ d ∈ declarationsIn pairs, ∀ p, d.1 = some p → ∀ c ∈ p.toList, isBare c = true) :
    ∀ a ∈ pairs, ∀ c ∈ a.1.toList, isBare c = true := by
  intro a ha
  cases hd : declarationOf a.1 a.2 with
  | some d =>
    obtain ⟨p, uri⟩ := d
    rw [← (Prod.mk.inj (declarationOf_eq_some hd)).1]
    cases p with
    | none => exact (by decide : ∀ c ∈ "xmlns".toList, isBare c = true)
    | some p =>
      have hp := hprefixes _ (List.mem_filterMap.2 ⟨a, ha, hd⟩) p rfl
      intro c hc
      rw [declarationKey, String.toList_append, List.mem_append] at hc
      rcases hc with hc | hc
      · exact (by decide : ∀ c ∈ "xmlns:".toList, isBare c = true) c hc
      · exact hp c hc
  | none =>
    obtain ⟨hmap, hresolved⟩ := resolveAttributes_eq_ok has
    have hmem : a ∈ othersIn pairs := List.mem_filter.2 ⟨ha, by rw [hd]; rfl⟩
    rw [← hmap] at hmem
    obtain ⟨a', ha', rfl⟩ := List.mem_map.1 hmem
    exact (resolveAttribute_eq_ok (hresolved a' ha')).2 hscope (hnames a' ha')

/-- The prefixes that a tag declares are bare, if they hold no quotes. -/
theorem isBare_of_declared {pairs : List (String × String)}
    (hkeys : ∀ a ∈ pairs, IsReadKey a.1.toList)
    (hquotes : ∀ d ∈ declarationsIn pairs, ∀ p, d.1 = some p → '"' ∉ p.toList ∧ '\'' ∉ p.toList) :
    ∀ d ∈ declarationsIn pairs, ∀ p, d.1 = some p → ∀ c ∈ p.toList, isBare c = true := by
  intro d hd p hp c hc
  obtain ⟨hquote, hapostrophe⟩ := hquotes d hd p hp
  obtain ⟨a, ha, had⟩ := List.mem_filterMap.1 hd
  have hkey := (Prod.mk.inj (declarationOf_eq_some had)).1
  rw [hp, declarationKey] at hkey
  refine isBare_iff.2 ⟨?_, fun he => hquote (he ▸ hc), fun he => hapostrophe (he ▸ hc)⟩
  rintro rfl
  refine (hkeys a ha).equals ?_
  rw [← hkey, String.toList_append]
  exact List.mem_append_right "mlns:".toList hc

theorem isTagKey_of_read {cs : List Char} (h : IsReadKey cs) (hgreater : Byte.greater ∉ bytes cs)
    (hbare : ∀ c ∈ cs, isBare c = true) : IsTagKey cs := by
  refine ⟨fun c hc => ?_, h.ne⟩
  obtain ⟨hequals, hquotes⟩ := isBare_iff.1 (hbare c hc)
  refine ⟨isTagChar_iff.2 ⟨h.spaceless c hc, ?_, hquotes⟩, hequals⟩
  rintro rfl
  exact hgreater (List.mem_flatMap.2 ⟨'>', hc, by decide⟩)

/-- The tag of an element that has been read is read again when it is written. -/
theorem legibleTag_of_elementOf {outer : Scope} {e : Element} {name attributes : Bytes}
    (tag : IsTag name attributes)
    (made : elementOf outer name attributes = .ok { e with text := none, children := [] })
    (hscope : BareScope outer) (hnames : e.NCNamed) (hprefixes : e.Unquoted) :
    LegibleTag e.written e.tagAttributes ∧
      Begins outer e.written e.tagAttributes { e with text := none, children := [] } ∧
      BareScope e.scope := by
  obtain ⟨written, pairs, hname, hpairs, hbegins⟩ := elementOf_eq_ok.1 made
  have hname := Utf8.bytes_of_decode hname
  have hkeys := keys_of_attributesOf hpairs
  have hdeclarations : e.declarations = declarationsIn pairs := hbegins.declarations
  have hdeclared : ∀ d ∈ declarationsIn pairs, ∀ p, d.1 = some p → ∀ c ∈ p.toList, isBare c = true :=
    isBare_of_declared (fun a ha => (hkeys a ha).1) (hdeclarations ▸ hprefixes)
  have hbareScope : BareScope e.scope := by
    have hinner : e.scope = e.declarations.foldl Scope.declare outer := hbegins.scope
    rw [hinner]
    exact hscope.declare (hdeclarations ▸ hdeclared)
  have hbare := isBare_of_key hbareScope hbegins.attributes hnames.2 hdeclared
  have hnamed : ∀ c ∈ written.toList, isBare c = true :=
    bare_of_resolve hbareScope hbegins.name hnames.1
  obtain ⟨hwritten, -⟩ := resolve_eq_ok hbegins.name
  have hleading : e.nsPrefix = (splitName written).1 := hbegins.nsPrefix
  have hunquoted {cs : List Char} (h : ∀ c ∈ cs, isBare c = true) : '"' ∉ cs ∧ '\'' ∉ cs :=
    ⟨fun hm => absurd (h _ hm) (by decide), fun hm => absurd (h _ hm) (by decide)⟩
  have hon : (quoteAfter none attributes).isSome := by
    have hquote : Byte.quote ∉ name :=
      hname ▸ byteOf_not_mem (c := '"') (by decide) (hunquoted hnamed).1
    have happos : Byte.apostrophe ∉ name :=
      hname ▸ byteOf_not_mem (c := '\'') (by decide) (hunquoted hnamed).2
    exact (quoteAfter_of_unquoted hquote happos tag.goesOn).2
  have hgreater := greater_of_attributesOf hpairs hon fun a ha => hunquoted (hbare a ha)
  obtain ⟨hmap, hresolved⟩ := resolveAttributes_eq_ok hbegins.attributes
  have hothers : e.attributes.map (fun a => (a.written, a.value)) = othersIn pairs := hmap
  have hplain : ∀ a ∈ e.attributes, declarationOf a.written a.value = none := by
    intro a ha
    have hmem : (a.written, a.value) ∈ othersIn pairs := hothers ▸ List.mem_map.2 ⟨a, ha, rfl⟩
    exact Option.isNone_iff_eq_none.1 (List.mem_filter.1 hmem).2
  have hperm : e.tagAttributes.Perm pairs := by
    rw [Element.tagAttributes, hothers, hdeclarations, declared_declarationsIn]
    simpa [othersIn] using List.filter_append_perm (fun a => (declarationOf a.1 a.2).isSome) pairs
  obtain rfl : e.written = written := by
    rw [← hwritten, ← hleading]
    rfl
  refine ⟨⟨isTagName_of_read tag hname hnamed hwritten hnames.1, fun a ha => ?_, ?_⟩,
    { hbegins with
      attributes := ?_
      declarations := (declarationsIn_tagAttributes hplain).symm }, hbareScope⟩
  · have ha := hperm.mem_iff.1 ha
    exact isTagKey_of_read (hkeys a ha).1 (hgreater a ha) (hbare a ha)
  · exact (hperm.map _).nodup_iff.2 (nodup_of_attributesOf hpairs)
  · rw [othersIn_tagAttributes hplain, hothers]
    exact hbegins.attributes

/-! Trees. -/

namespace Element

/-- An element that is written legibly, with all inside it. -/
inductive Legible : Scope → Element → Prop
  | intro {outer : Scope} {e : Element} (tag : LegibleTag e.written e.tagAttributes)
      (begins : Begins outer e.written e.tagAttributes { e with text := none, children := [] })
      (text : ∀ t, e.text = some t → t.toList.all Text.isBlank = false)
      (inner : ∀ c ∈ e.children, c.Legible e.scope) : e.Legible outer

mutual

/-- An element without the white space at the ends of its texts. -/
def trimmed : Element → Element
  | ⟨name, nsPrefix, attributes, text, children, declarations, scope⟩ =>
    ⟨name, nsPrefix, attributes, text.map fun t => String.ofList (trimSpace t.toList),
      trimmedOf children, declarations, scope⟩

def trimmedOf : List Element → List Element
  | [] => []
  | e :: es => trimmed e :: trimmedOf es

end

theorem pieces_empty {e : Element} (htext : e.text = none) (hchildren : e.children = []) :
    e.pieces = [.empty e.written e.tagAttributes] := by
  cases e
  cases htext
  cases hchildren
  rfl

theorem pieces_enclose {e : Element} (h : e.text ≠ none ∨ e.children ≠ []) :
    e.pieces = Renders.enclose e.written e.tagAttributes e.text (piecesOf e.children) := by
  obtain ⟨name, nsPrefix, attributes, text, children, declarations, scope⟩ := e
  rw [pieces]
  · rfl
  · rintro rfl rfl
    exact h.elim (absurd rfl) (absurd rfl)

/-- What is legible is read as it is written. -/
theorem Legible.renders {outer : Scope} {e : Element} (h : e.Legible outer) :
    Renders outer e.pieces [e.trimmed] := by
  induction h with
  | @intro outer e tag begins text inner ih =>
    have hinner : Renders e.scope (piecesOf e.children) (trimmedOf e.children) := by
      generalize e.children = es at ih
      induction es with
      | nil => exact .nil
      | cons c es ihes =>
        rw [List.forall_mem_cons] at ih
        exact ih.1.append (ihes ih.2)
    by_cases hempty : e.text = none ∧ e.children = []
    · have htrimmed : e.trimmed = e := by
        cases e
        cases hempty.1
        cases hempty.2
        rfl
      have hbare : { e with text := none, children := [] } = e := by
        cases e
        cases hempty.1
        cases hempty.2
        rfl
      rw [pieces_empty hempty.1 hempty.2, htrimmed]
      exact .empty tag (hbare ▸ begins)
    · have htrimmed : e.trimmed =
          { e with text := e.text.bind readText, children := trimmedOf e.children } := by
        have htext : e.text.bind readText = e.text.map fun t => String.ofList (trimSpace t.toList) := by
          cases ht : e.text with
          | none => rfl
          | some t => simp [readText, text t ht]
        rw [htext]
        cases e
        rfl
      rw [pieces_enclose (by tauto), htrimmed]
      exact .enclosed tag begins e.text hinner

theorem Read.legible {outer : Scope} {e : Element} (h : e.Read outer) (hscope : BareScope outer)
    (hnames : e.Everywhere NCNamed) (hprefixes : e.Everywhere Unquoted) : e.Legible outer := by
  induction h with
  | intro tag made text inner ih =>
    obtain ⟨hnamed, hnames⟩ := hnames
    obtain ⟨hunquoted, hprefixes⟩ := hprefixes
    obtain ⟨htag, hbegins, hscope⟩ := legibleTag_of_elementOf tag made hscope hnamed hunquoted
    exact .intro htag hbegins text fun c hc => ih c hc hscope (hnames c hc) (hprefixes c hc)

end Element

/-- A document is read back as it is written, in one line and indented: every name, prefix,
attribute, declaration and child of its root is as before, and only the white space at the ends of
texts is gone.  This is so if its names are NCNames, behind prefixes or not, and no prefix is
declared with a quote in it. -/
theorem readString_write {bs : Bytes} {r : Element} (h : readBytes bs = .ok (some r))
    (hnames : r.Everywhere Element.NCNamed) (hprefixes : r.Everywhere Element.Unquoted) :
    readString r.write = .ok (some r.trimmed) ∧ readString r.writeLines = .ok (some r.trimmed) := by
  have hrenders := ((read_of_readBytes h).legible bareScope_initial hnames hprefixes).renders
  exact ⟨hrenders.readString (written_plain _), hrenders.readString (written_indented 0 true _)⟩

/-- A root with a prefix, an attribute, a text with white space at its ends, and a child. -/
def parcel : Element :=
  let scope : Scope := ⟨[("p", "urn:p"), ("xml", Scope.xmlNamespace)], none⟩
  ⟨⟨some "urn:p", "r"⟩, some "p", [⟨.unqualified "a", none, "1"⟩], some " x ",
    [⟨.unqualified "c", none, [], none, [], [], scope⟩], [(some "p", "urn:p")], scope⟩

theorem readBytes_parcel : readBytes (Utf8.encode
    "<p:r xmlns:p='urn:p' a='1'><![CDATA[ x ]]><c/></p:r>") = .ok (some parcel) := by
  have htokens : tokens (Utf8.dropMark (Utf8.encode
      "<p:r xmlns:p='urn:p' a='1'><![CDATA[ x ]]><c/></p:r>")) =
      [.opening (Utf8.encode "p:r") (Utf8.encode " xmlns:p='urn:p' a='1'"), .cdata (Utf8.encode " x "),
        .empty (Utf8.encode "c") [], .closing (Utf8.encode "p:r")] := by
    decide +kernel
  have htext : Utf8.decodeLossy (Utf8.encode " x ") = " x " := by decide +kernel
  have hroot : elementOf Scope.initial (Utf8.encode "p:r") (Utf8.encode " xmlns:p='urn:p' a='1'") =
      .ok { parcel with text := none, children := [] } :=
    elementOf_eq_ok.2 ⟨"p:r", [("xmlns:p", "urn:p"), ("a", "1")], by decide +kernel,
      by decide +kernel, rfl, rfl, rfl, rfl, rfl, rfl, rfl⟩
  have hchild : elementOf parcel.scope (Utf8.encode "c") [] =
      .ok ⟨.unqualified "c", none, [], none, [], [], parcel.scope⟩ :=
    elementOf_eq_ok.2 ⟨"c", [], by decide +kernel, by decide +kernel, rfl, rfl, rfl, rfl, rfl, rfl,
      rfl⟩
  have hrun : Reading.initial.run [.opening (Utf8.encode "p:r")
      (Utf8.encode " xmlns:p='urn:p' a='1'"), .cdata (Utf8.encode " x "),
        .empty (Utf8.encode "c") [], .closing (Utf8.encode "p:r")] = .ok ⟨[], some parcel⟩ := by
    have hopening : Reading.initial.step (.opening (Utf8.encode "p:r")
        (Utf8.encode " xmlns:p='urn:p' a='1'")) =
        .ok ⟨[(Utf8.encode "p:r", { parcel with text := none, children := [] })], none⟩ := by
      simp only [Reading.step, Reading.initial, Reading.scope, hroot]
    have hcdata : Reading.step ⟨[(Utf8.encode "p:r", { parcel with text := none, children := [] })],
        none⟩ (.cdata (Utf8.encode " x ")) =
        .ok ⟨[(Utf8.encode "p:r", { parcel with children := [] })], none⟩ := by
      rw [Reading.step, htext]
      rfl
    have hempty : Reading.step ⟨[(Utf8.encode "p:r", { parcel with children := [] })], none⟩
        (.empty (Utf8.encode "c") []) = .ok ⟨[(Utf8.encode "p:r", parcel)], none⟩ := by
      simp only [Reading.step, Reading.scope, hchild]
      rfl
    rw [Reading.run_step hopening, Reading.run_step hcdata, Reading.run_step hempty]
    simp [Reading.run, Reading.step, Reading.finish]
  rw [readBytes, htokens, hrun]
  rfl

/-- It is read back without the white space around its text. -/
theorem readString_write_parcel :
    readBytes (Utf8.encode "<p:r xmlns:p='urn:p' a='1'><![CDATA[ x ]]><c/></p:r>") =
        .ok (some parcel) ∧
      parcel.Everywhere Element.NCNamed ∧ parcel.Everywhere Element.Unquoted ∧
      readString parcel.write = .ok (some parcel.trimmed) ∧
      readString parcel.writeLines = .ok (some parcel.trimmed) := by
  have hnames : parcel.Everywhere Element.NCNamed := by
    refine .intro ⟨by decide, by decide⟩ fun c hc => ?_
    obtain rfl := List.mem_singleton.1 hc
    exact .intro ⟨by decide, by decide⟩ fun c hc => absurd hc List.not_mem_nil
  have hprefixes : parcel.Everywhere Element.Unquoted := by
    refine .intro (fun d hd p hp => ?_) fun c hc => ?_
    · obtain rfl := List.mem_singleton.1 hd
      cases hp
      decide
    · obtain rfl := List.mem_singleton.1 hc
      exact .intro (fun d hd => absurd hd List.not_mem_nil) fun c hc => absurd hc List.not_mem_nil
  exact ⟨readBytes_parcel, hnames, hprefixes, readString_write readBytes_parcel hnames hprefixes⟩

/-- A root that declares prefixes with quotes in them. -/
def quoted : Element :=
  ⟨.unqualified "r", none, [], none, [], [(some "a\"", "1\""), (some "b'", "2")],
    ⟨[("b'", "2"), ("a\"", "1\""), ("xml", Scope.xmlNamespace)], none⟩⟩

/-- NCNames are not enough.  In the tag of this root, as it is written, the quote of a prefix is
taken for the beginning of a value. -/
theorem readString_write_quoted :
    ¬ ∀ bs r, readBytes bs = .ok (some r) → r.Everywhere Element.NCNamed →
      readString r.write = .ok (some r.trimmed) ∧ readString r.writeLines = .ok (some r.trimmed) := by
  have hread : readBytes (Utf8.encode "<r xmlns:a\"='1\"' xmlns:b'=\"2\"/>") = .ok (some quoted) := by
    have htokens : tokens (Utf8.dropMark (Utf8.encode "<r xmlns:a\"='1\"' xmlns:b'=\"2\"/>")) =
        [.empty (Utf8.encode "r") (Utf8.encode " xmlns:a\"='1\"' xmlns:b'=\"2\"")] := by
      decide +kernel
    have hroot : elementOf Scope.initial (Utf8.encode "r")
        (Utf8.encode " xmlns:a\"='1\"' xmlns:b'=\"2\"") = .ok quoted :=
      elementOf_eq_ok.2 ⟨"r", [("xmlns:a\"", "1\""), ("xmlns:b'", "2")], by decide +kernel,
        by decide +kernel, rfl, rfl, rfl, rfl, rfl, rfl, rfl⟩
    rw [readBytes, htokens, Reading.run]
    simp only [Reading.step, Reading.initial, Reading.scope, hroot]
    rfl
  have hwrite (e : Element) : readString quoted.write ≠ .ok (some e) := by
    have htokens : tokens (Utf8.dropMark (Utf8.encode quoted.write)) =
        [.opening (Utf8.encode "r") (Utf8.encode " xmlns:a\"=\"1&quot;\" xmlns:b'=\"2\"/>")] := by
      decide +kernel
    have hattributes : attributesOf [] (Utf8.encode " xmlns:a\"=\"1&quot;\" xmlns:b'=\"2\"/>") =
        .error .badAttribute := by
      decide +kernel
    rw [readString, readBytes, htokens, Reading.run, Reading.step]
    cases hroot : elementOf Reading.initial.scope (Utf8.encode "r")
        (Utf8.encode " xmlns:a\"=\"1&quot;\" xmlns:b'=\"2\"/>") with
    | ok e' =>
      obtain ⟨_, pairs, -, hpairs, -⟩ := elementOf_eq_ok.1 hroot
      rw [hattributes] at hpairs
      cases hpairs
    | error f =>
      intro h
      cases h
  intro h
  have hnames : quoted.Everywhere Element.NCNamed :=
    .intro ⟨by decide, by decide⟩ fun c hc => absurd hc List.not_mem_nil
  exact hwrite _ (h _ _ hread hnames).1

end SchemaForms.Xml
