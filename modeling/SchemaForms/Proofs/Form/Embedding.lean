import SchemaForms.Form.Document
import SchemaForms.Proofs.Form.Enumeration
import SchemaForms.Proofs.Form.Furnishing
import SchemaForms.Proofs.Xml.Readable

/-!
Embedding the instance: an instance that has been read and the one that the schema gives can both be
read inside a document that declares the prefixes of the form.
-/

namespace SchemaForms

open Synthesis
open Xml (Element Attribute)

/-- The prefixes that are bound in every document of a form. -/
def documentPrefixes : List String := "xml" :: documentNamespaces.map (·.1)

namespace PrefixTable

variable {t : PrefixTable} {name name' : QName} {p : Option String}

theorem Spells.chars (h : t.Spells name p) (ht : t.Apart) :
    ∀ q, p = some q → ∀ c ∈ q.toList, isNameChar c = true := by
  rintro q rfl
  cases h with
  | prefixed hp l => exact ht.named _ q hp

theorem Spells.unreserved (h : t.Spells name p) (ht : t.Apart) : ∀ q, p = some q → q ∉ reserved := by
  rintro q rfl
  cases h with
  | prefixed hp l => exact ht.unreserved _ q hp

/-- A name is known by its prefix and its local name. -/
theorem Apart.spells_injective (ht : t.Apart) (h : t.Spells name p) (h' : t.Spells name' p)
    (hl : name.localName = name'.localName) : name = name' := by
  cases h with
  | bare l =>
    cases h' with
    | bare l' => exact congrArg _ hl
  | prefixed hp l =>
    cases h' with
    | prefixed hp' l' => rw [ht.distinct _ _ _ hp hp', show l = l' from hl]

end PrefixTable

namespace Xml

/-- No prefix has a colon in it. -/
theorem colon_not_mem {p : Option String}
    (h : ∀ q, p = some q → ∀ c ∈ q.toList, PrefixTable.isNameChar c = true) :
    ∀ q, p = some q → ':' ∉ q.toList := fun q hq hm => absurd (h q hq ':' hm) (by decide)

section Declared

variable {g : Generator} {t : PrefixTable} {a a' : Attribute}

theorem Attribute.Declared.ncName (h : a.Declared g t) (hs : g.schema.NCNamed) :
    IsNCName a.name.localName = true := by
  cases h with
  | use h name _ =>
    rw [name]
    exact hs.uses _ h
  | type name _ =>
    rw [name]
    decide

theorem Attribute.Declared.chars (h : a.Declared g t) (ht : t.Apart) :
    ∀ q, a.nsPrefix = some q → ∀ c ∈ q.toList, PrefixTable.isNameChar c = true := by
  cases h with
  | use _ _ spelled => exact spelled.chars ht
  | type _ spelled =>
    rw [spelled]
    rintro q ⟨⟩
    decide

theorem Attribute.Declared.splitName (h : a.Declared g t) (hs : g.schema.NCNamed) (ht : t.Apart) :
    splitName a.written = (a.nsPrefix, a.name.localName) :=
  splitName_written (colon_not_mem (h.chars ht)) (IsNCName.not_mem (h.ncName hs) (by decide))

/-- Attributes of different names are written differently. -/
theorem Attribute.Declared.name_eq (h : a.Declared g t) (h' : a'.Declared g t) (hs : g.schema.NCNamed)
    (ht : t.Apart) (hw : a.written = a'.written) : a.name = a'.name := by
  have hsplit := (h.splitName hs ht).symm.trans ((congrArg _ hw).trans (h'.splitName hs ht))
  obtain ⟨hleading, hlocal⟩ := Prod.mk.inj hsplit
  have hxsi {b b' : Attribute} {use : AttributeUse} (hspelled : t.Spells b.name b.nsPrefix)
      (hb' : b'.nsPrefix = some "xsi") (hp : b.nsPrefix = b'.nsPrefix) : False :=
    hspelled.unreserved ht "xsi" (hp.trans hb') (by decide)
  cases h with
  | use hu name spelled =>
    cases h' with
    | use _ _ spelled' => exact ht.spells_injective spelled (hleading ▸ spelled') hlocal
    | type _ spelled' =>
      exact absurd (by decide) (spelled.unreserved ht "xsi" (hleading.trans spelled'))
  | type name spelled =>
    cases h' with
    | use _ _ spelled' =>
      exact absurd (by decide) (spelled'.unreserved ht "xsi" (hleading.symm.trans spelled))
    | type name' _ => exact name.trans name'.symm

end Declared

namespace Element

/-- An element that can be written where a document of a form has an instance: all in it can be read
where the prefixes are bound that every document binds, and no attribute of it is written like a
declaration. -/
structure Embeddable (e : Element) : Prop where
  readable : e.Readable documentPrefixes
  plain : ∀ a ∈ e.attributes, a.written ≠ "xmlns" ∧ (splitName a.written).1 ≠ some "xmlns"

/-- An instance that has been read is embeddable, if its names are NCNames and no prefix is declared
with a quote in it. -/
theorem embeddable_of_read {bs : Utf8.Bytes} {e : Element} (h : Xml.readBytes bs = .ok (some e))
    (hnames : e.Everywhere NCNamed) (hprefixes : e.Everywhere Unquoted) : e.Embeddable := by
  have hlegible := (Xml.read_of_readBytes h).legible Xml.bareScope_initial hnames hprefixes
  refine ⟨hlegible.readable fun p ns hp => ?_, hlegible.plain⟩
  rw [Scope.lookup, Scope.initial, Table.find] at hp
  split at hp
  · next hkey => exact hkey ▸ List.mem_cons_self
  · cases hp

section Furnished

variable {g : Generator} {t : PrefixTable} {e : Element} {bound : List String}

theorem Declared.ncName (h : e.Declared g t) (hs : g.schema.NCNamed) : IsNCName e.localName = true := by
  obtain ⟨decl, hdecl, hname⟩ := h.name
  rw [localName, hname]
  exact hs.elements _ hdecl

theorem distinct_written (hs : g.schema.NCNamed) (ht : t.Apart) {as : List Attribute}
    (hdeclared : ∀ a ∈ as, a.Declared g t) (hdistinct : (as.map (·.name)).Nodup) :
    (as.map Attribute.written).Nodup := by
  rw [List.Nodup, List.pairwise_map] at hdistinct ⊢
  exact hdistinct.imp_of_mem fun ha ha' hne hw =>
    hne ((hdeclared _ ha).name_eq (hdeclared _ ha') hs ht hw)

/-- Instance data can be read where the prefixes are bound that were given out. -/
theorem Furnished.readable (hs : g.schema.NCNamed) (ht : t.Apart)
    (hbound : ∀ ns p, t.entries.get? ns = some p → p ∈ bound) (hxsi : "xsi" ∈ bound)
    (h : e.Furnished g t) (htag : e.Declared g t) (hdeclarations : e.declarations = []) :
    e.Readable bound := by
  induction h with
  | @intro e attributes distinct tags inner ih =>
    have hchars := htag.spelled.chars ht
    have hlocal : IsNCName e.name.localName = true := htag.ncName hs
    have hsplit : splitName e.written = (e.nsPrefix, e.name.localName) :=
      splitName_written (colon_not_mem hchars) (IsNCName.not_mem hlocal (by decide))
    have htagAttributes : e.tagAttributes = e.attributes.map fun a => (a.written, a.value) := by
      rw [tagAttributes, hdeclarations]
      rfl
    have hspelled {name : QName} {p : Option String} (hp : t.Spells name p) :
        ∀ q, p = some q → q ∈ bound := by
      rintro q rfl
      cases hp with
      | prefixed hp l => exact hbound _ q hp
    refine .intro ⟨?_, fun b hb => ?_, ?_⟩ (fun q hq => ?_) (fun a ha q hq => ?_) fun c hc => ?_
    · exact isTagName_of_nameParts (isNamePart_written hchars hlocal) (written_ne_nil _ hlocal)
    · rw [htagAttributes] at hb
      obtain ⟨a, ha, rfl⟩ := List.mem_map.1 hb
      have ha := attributes a ha
      exact isTagKey_of_nameParts (isNamePart_written (ha.chars ht) (ha.ncName hs))
        (written_ne_nil _ (ha.ncName hs))
    · rw [htagAttributes, List.map_map]
      exact distinct_written hs ht attributes distinct
    · rw [hsplit] at hq
      rw [hdeclarations]
      exact hspelled htag.spelled q hq
    · have hdeclared := attributes a ha
      rw [hdeclared.splitName hs ht] at hq
      rw [hdeclarations]
      cases hdeclared with
      | use _ _ spelled => exact hspelled spelled q hq
      | type _ spelled =>
        rw [spelled] at hq
        exact Option.some.inj hq ▸ hxsi
    · rw [hdeclarations]
      exact ih c hc (tags c hc).1 (tags c hc).2

end Furnished

section Prepared

variable {e : Element} {bound : List String}

theorem declare_tag (e : Element) (nsPrefix nspace : String) :
    (e.declare nsPrefix nspace).nsPrefix = e.nsPrefix := by
  unfold declare
  split <;> rfl

/-- Declaring prefixes leaves an element readable. -/
theorem Readable.declareAll (h : e.Readable bound) (ds : List (String × String))
    (hds : ∀ d ∈ ds, ∀ c ∈ d.1.toList, isNamePart c = true)
    (hplain : ∀ a ∈ e.attributes, (splitName a.written).1 ≠ some "xmlns") :
    (ds.foldl (fun e (p, ns) => e.declare p ns) e).Readable bound := by
  induction ds generalizing e with
  | nil => exact h
  | cons d ds ih =>
    rw [List.forall_mem_cons] at hds
    refine ih (h.declare d.2 hds.1 hplain) hds.2 ?_
    rwa [(e.declare_same d.1 d.2).2.1]

/-- What forms declare on a root leaves it readable, unless it has an attribute that is written like
the declaration of a default namespace. -/
theorem Readable.prepareRoot (h : e.Readable bound)
    (hplain : ∀ a ∈ e.attributes, (splitName a.written).1 ≠ some "xmlns")
    (hbare : e.name.nspace = none → ∀ a ∈ e.attributes, a.written ≠ "xmlns") :
    (Generator.prepareRoot e).Readable bound := by
  have hdeclared := h.declare Generator.instanceNamespace
    (p := "xsi") (by decide) hplain
  obtain ⟨hname, hattributes, -⟩ := e.declare_same "xsi" Generator.instanceNamespace
  unfold Generator.prepareRoot
  dsimp only
  split
  · next hnone =>
    rw [hname, Option.isNone_iff_eq_none] at hnone
    refine hdeclared.undeclareDefault ?_
    rw [hattributes]
    exact hbare hnone
  · exact hdeclared

end Prepared

/-- A root that declares nothing declares what forms declare. -/
theorem declarations_prepareRoot {e : Element} (h : e.declarations = []) :
    (Generator.prepareRoot e).declarations = (some "xsi", Generator.instanceNamespace) ::
      if e.name.nspace.isNone then [(none, "")] else [] := by
  have hdeclared : (e.declare "xsi" Generator.instanceNamespace).declarations =
      [(some "xsi", Generator.instanceNamespace)] := by
    simp [declare, h]
  obtain ⟨hname, -⟩ := e.declare_same "xsi" Generator.instanceNamespace
  unfold Generator.prepareRoot
  dsimp only
  rw [hname]
  split
  · rw [undeclareDefault, hdeclared]
    simp
  · exact hdeclared

end Element

end Xml

namespace Generator

/-- A supplied instance can be read inside a document. -/
theorem supplied_readable {e : Element} (h : e.Embeddable) {bound : List String}
    (hbound : documentPrefixes ⊆ bound) : (prepareRoot e).Readable bound :=
  (h.readable.mono hbound).prepareRoot (fun a ha => (h.plain a ha).2) fun _ a ha => (h.plain a ha).1

theorem prepareRoot_tag (e : Element) :
    (prepareRoot e).attributes = e.attributes ∧ (prepareRoot e).nsPrefix = e.nsPrefix := by
  obtain ⟨-, hattributes, -⟩ := e.declare_same "xsi" instanceNamespace
  have hleading := e.declare_tag "xsi" instanceNamespace
  unfold prepareRoot Element.undeclareDefault
  dsimp only
  split
  · split <;> exact ⟨hattributes, hleading⟩
  · exact ⟨hattributes, hleading⟩

/-- The instance that the schema gives is made of declared elements and attributes. -/
theorem furnished_form {g : Generator}
    (hsubstitutes : g.substitutes = Substitutes.ofSchema g.schema) (root : ElementId) :
    let named := qualified (g.schema.element root).name Synthesis.initial
    let drawn := Sketch.form g root named.1.1 named.1.2 named.2
    drawn.2.prefixes.Apart ∧ drawn.1.skeleton.Furnished g drawn.2.prefixes ∧
      drawn.1.skeleton.name = (g.schema.element root).name ∧
      drawn.2.prefixes.Spells drawn.1.skeleton.name drawn.1.skeleton.nsPrefix ∧
      drawn.1.skeleton.declarations = (some "xsi", instanceNamespace) ::
        if (g.schema.element root).name.nspace.isNone then [(none, "")] else [] := by
  intro named drawn
  let bare := bareInstance (g.schema.element root) named.1.1
  let made := Sketch.element g (g.schema.elements.size + 1) (prepareRoot bare) root
    ("/" ++ named.1.2) .once {} (Sketch.opened named.2)
  have hnamed := (Calm.qualified (g.schema.element root).name Synthesis.initial).prefixes
  have hspelled := PrefixTable.spells_qualified (g.schema.element root).name Synthesis.initial
  obtain ⟨hbare, hname, hleading, hdeclarations⟩ :=
    Sketch.furnished_bareInstance g named.2.prefixes (g.schema.element root) named.1.1
  obtain ⟨hpreparedName, hpreparedChildren⟩ := prepareRoot_same bare
  obtain ⟨hpreparedAttributes, hpreparedPrefix⟩ := prepareRoot_tag bare
  have hprepared : (prepareRoot bare).Furnished g named.2.prefixes :=
    hbare.congr hpreparedAttributes hpreparedChildren
  have helement : named.2.prefixes.Extends made.2.prefixes ∧ ∀ c, made.1.1 = some c →
      (g.schema.element root).type.isSome ∧
        Furnishes g (prepareRoot bare) named.2.prefixes c made.2.prefixes :=
    Sketch.furnishes_element hsubstitutes (g.schema.elements.size + 1) (prepareRoot bare) root _
      .once {} (Sketch.opened named.2) hprepared
  have hskeleton : drawn.1.skeleton = made.1.1.getD (prepareRoot bare) := rfl
  have hfilled : Furnishes g (prepareRoot bare) named.2.prefixes drawn.1.skeleton
      made.2.prefixes := by
    rw [hskeleton]
    cases hmade : made.1.1 with
    | none => exact .still hprepared helement.1
    | some c => exact (helement.2 c hmade).2
  have hrootName : drawn.1.skeleton.name = (g.schema.element root).name :=
    hfilled.alike.name.trans (hpreparedName.trans hname)
  refine ⟨PrefixTable.Extends.apart (hnamed.trans hfilled.prefixes) PrefixTable.apart_empty,
    hfilled.furnished, hrootName, ?_, ?_⟩
  · rw [hrootName, hfilled.alike.nsPrefix, hpreparedPrefix, hleading]
    exact hspelled.mono hfilled.prefixes
  · rw [hfilled.alike.declarations, Element.declarations_prepareRoot hdeclarations, hname]

/-- The instance that the schema gives can be read inside a document, if its root has a namespace or
no attribute of the root is written like the declaration of one. -/
theorem skeleton_readable {g : Generator}
    (hsubstitutes : g.substitutes = Substitutes.ofSchema g.schema) (hs : g.schema.NCNamed)
    {root : ElementId} (hroot : g.schema.element root ∈ g.schema.elements) {bound : List String}
    (hxsi : "xsi" ∈ bound) :
    let named := qualified (g.schema.element root).name Synthesis.initial
    let drawn := Sketch.form g root named.1.1 named.1.2 named.2
    (drawn.1.skeleton.name.nspace = none →
      ∀ a ∈ drawn.1.skeleton.attributes, a.written ≠ "xmlns") →
    (∀ d ∈ drawn.2.prefixes.declarations, d.1 ∈ bound) →
      (drawn.2.prefixes.declarations.foldl (fun e (p, ns) => e.declare p ns)
        drawn.1.skeleton).Readable bound := by
  intro named drawn hbare hdeclared
  obtain ⟨hapart, hfurnished, hname, hspelled, hdeclarations⟩ := furnished_form hsubstitutes root
  let e := drawn.1.skeleton
  let t := drawn.2.prefixes
  have hmem {ns p : String} (hp : t.entries.get? ns = some p) : (p, ns) ∈ t.declarations :=
    List.mem_map.2 ⟨(ns, p), Table.mem_entries_of_get? hp, rfl⟩
  have hattributes : ∀ a ∈ e.attributes, a.Declared g t := by
    obtain ⟨attributes, -, -, -⟩ := hfurnished
    exact attributes
  have hstripped : Element.Furnished g t { e with declarations := [] } :=
    hfurnished.congr rfl rfl
  have hbareReadable : Element.Readable bound { e with declarations := [] } :=
    hstripped.readable hs hapart (fun ns p hp => hdeclared _ (hmem hp)) hxsi
      ⟨⟨_, hroot, hname⟩, hspelled⟩ rfl
  have hplain : ∀ a ∈ e.attributes, (splitName a.written).1 ≠ some "xmlns" := by
    intro a ha he
    rw [(hattributes a ha).splitName hs hapart] at he
    cases hattributes a ha with
    | use _ _ spelled => exact spelled.unreserved hapart _ he (by decide)
    | type _ spelled =>
      rw [spelled] at he
      exact absurd (Option.some.inj he) (by decide)
  have hprepared := hbareReadable.prepareRoot hplain hbare
  obtain ⟨hpreparedName, hpreparedChildren⟩ := prepareRoot_same { e with declarations := [] }
  obtain ⟨hpreparedAttributes, hpreparedPrefix⟩ := prepareRoot_tag { e with declarations := [] }
  have hsame : e.declarations = (prepareRoot { e with declarations := [] }).declarations := by
    rw [Element.declarations_prepareRoot rfl]
    exact hname ▸ hdeclarations
  have hready : e.Readable bound := hprepared.congr hpreparedName.symm hpreparedPrefix.symm
    hpreparedAttributes.symm hsame hpreparedChildren.symm
  refine hready.declareAll _ (fun d hd c hc => ?_) hplain
  obtain ⟨b, hb, rfl⟩ := List.mem_map.1 hd
  exact Xml.isNamePart_of_isNameChar (hapart.named b.1 b.2 (hapart.entered _ _ hb) c hc)

end Generator

end SchemaForms
