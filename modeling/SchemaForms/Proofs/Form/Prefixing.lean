import SchemaForms.Proofs.Form.Containment
import SchemaForms.Proofs.Form.Embedding

/-!
Prefixes are sound.  Whatever a text of a form names, it names with the prefix that the form and the
root of its skeleton declare for the namespace of the declaration; so no two declarations of
different names are written in the same way.
-/

namespace SchemaForms

open Synthesis
open Xml (Element)

namespace PrefixTable

variable {t t' : PrefixTable}

/-- No namespace is entered twice. -/
theorem Extends.nodup_keys (h : t.Extends t') (ht : t.entries.keys.Nodup) :
    t'.entries.keys.Nodup := by
  induction h with
  | refl => exact ht
  | @tail u _ _ hstep ih =>
    obtain ⟨nspace, rfl⟩ := hstep
    unfold PrefixTable.prefixFor
    cases hentry : u.entries.get? nspace with
    | some p => exact ih
    | none =>
      have hnew : nspace ∉ u.entries.keys := (Table.find_eq_none_iff nspace _).1 hentry
      rw [Table.keys_put, if_neg hnew]
      exact List.nodup_append.2 ⟨ih, List.nodup_singleton _, fun a ha b hb hab =>
        hnew (List.mem_singleton.1 hb ▸ hab ▸ ha)⟩

/-- No prefix is declared twice. -/
theorem Apart.nodup_declarations (h : t.Apart) (hkeys : t.entries.keys.Nodup) :
    (t.declarations.map (·.1)).Nodup := by
  have hprefixes : t.declarations.map (·.1) = t.entries.entries.map (·.2) := by
    simp [declarations]
  rw [hprefixes]
  refine List.Nodup.map_on (fun d hd d' hd' hp => ?_) (List.Nodup.of_map _ hkeys)
  have hget := h.entered d.1 d.2 hd
  have hget' := h.entered d'.1 d'.2 hd'
  exact Prod.ext (h.distinct _ _ d.2 hget (hp ▸ hget')) hp

end PrefixTable

/-- Declarations do not change the prefix of an element. -/
theorem Xml.Element.foldl_declare_tag (ds : List (String × String)) (e : Element) :
    (ds.foldl (fun e (p, ns) => e.declare p ns) e).nsPrefix = e.nsPrefix := by
  induction ds generalizing e with
  | nil => rfl
  | cons d ds ih => exact (ih _).trans (e.declare_tag d.1 d.2)

/-- New prefixes are declared one after another. -/
theorem Xml.Element.declarations_declareAll {e : Element} {ds : List (String × String)}
    (hnodup : (ds.map (·.1)).Nodup) (hnew : ∀ d ∈ ds, some d.1 ∉ e.declarations.map (·.1)) :
    (ds.foldl (fun e (p, ns) => e.declare p ns) e).declarations =
      e.declarations ++ ds.map fun d => (some d.1, d.2) := by
  induction ds generalizing e with
  | nil => simp
  | cons d ds ih =>
    have hfirst := hnew d List.mem_cons_self
    have hdeclared : (e.declare d.1 d.2).declarations = e.declarations ++ [(some d.1, d.2)] := by
      have hnone : e.declarations.any (·.1 == some d.1) = false := by
        rw [List.any_eq_false]
        intro d' hd' heq
        exact hfirst (List.mem_map.2 ⟨d', hd', eq_of_beq heq⟩)
      rw [declare, hnone]
      rfl
    rw [List.map_cons, List.nodup_cons] at hnodup
    change (ds.foldl (fun e (p, ns) => e.declare p ns) (e.declare d.1 d.2)).declarations = _
    rw [ih hnodup.2 fun d' hd' hmem => ?_, hdeclared]
    · simp
    · rw [hdeclared, List.map_append, List.mem_append] at hmem
      rcases hmem with hmem | hmem
      · exact hnew d' (List.mem_cons_of_mem _ hd') hmem
      · have heq : d'.1 = d.1 := by simpa using hmem
        exact hnodup.1 (heq ▸ List.mem_map_of_mem hd')

theorem Form.declarations_prefixes (form : Form) : form.prefixes.declarations = form.namespaces := by
  rw [Form.prefixes, PrefixTable.declarations, List.map_map]
  exact List.map_id _

/-- The name of a declaration: of an element, an attribute or a type. -/
inductive Schema.Declares (s : Schema) : QName → Prop
  | element {decl : ElementDecl} (h : decl ∈ s.elements) : s.Declares decl.name
  | use {use : AttributeUse} (h : use ∈ s.uses) : s.Declares use.decl.name
  | type {t : TypeDef} (h : t ∈ s.types) {name : QName} (hname : t.name? = some name) :
    s.Declares name

theorem Schema.Declares.ncName {s : Schema} {name : QName} (h : s.Declares name) (hn : s.NCNamed)
    (ht : s.TypesNamed) : IsNCName name.localName = true := by
  cases h with
  | element h => exact hn.elements _ h
  | use h => exact hn.uses _ h
  | type h hname => exact ht _ h _ hname

/-- Whatever the texts of a form name, they name it with the prefix that is declared for its
namespace. -/
structure Form.Prefixed (g : Generator) (root : ElementId) (form : Form) : Prop where
  /-- No prefix has two namespaces, no namespace two prefixes, and no prefix another meaning. -/
  distinct : (form.namespaces.map (·.1)).Nodup
  single : (form.namespaces.map (·.2)).Nodup
  unreserved : ∀ d ∈ form.namespaces, d.1 ∉ PrefixTable.reserved
  /-- The root of the skeleton declares these prefixes, `xsi`, and nothing more. -/
  declared : form.skeleton.declarations = (some "xsi", Generator.instanceNamespace) ::
    (if form.skeleton.name.nspace.isNone then [(none, "")] else []) ++
      form.namespaces.map fun d => (some d.1, d.2)
  /-- Nodesets, relevance and choices of types are written with these prefixes. -/
  nodes : form.tree.All (NodeKind.Worded g form.prefixes)
  /-- So are the names in the skeleton, and the values of `xsi:type`. -/
  name : form.skeleton.name = (g.schema.element root).name
  spelled : form.prefixes.Spells form.skeleton.name form.skeleton.nsPrefix
  furnished : form.skeleton.Furnished g form.prefixes
  /-- At all times of the run a declaration is written in a way of its own. -/
  told : ∀ n n' : QName, g.schema.Declares n → g.schema.Declares n' → ∀ s s' : Synthesis,
    (qualified n s).2.prefixes.Extends form.prefixes →
    (qualified n' s').2.prefixes.Extends form.prefixes →
    ((qualified n s).1.2 = (qualified n' s').1.2 ↔ n = n')

/-- In a table that tells namespaces apart, names are written alike only if they are the same, even
if they are written at different times. -/
theorem PrefixTable.Apart.qualified_eq_iff {t : PrefixTable} (h : t.Apart) {n n' : QName}
    (hn : IsNCName n.localName = true) (hn' : IsNCName n'.localName = true) {s s' : Synthesis}
    (hs : (qualified n s).2.prefixes.Extends t) (hs' : (qualified n' s').2.prefixes.Extends t) :
    (qualified n s).1.2 = (qualified n' s').1.2 ↔ n = n' := by
  have htext := hs.textOf (textOf_qualified n s)
  have htext' := hs'.textOf (textOf_qualified n' s')
  constructor
  · intro heq
    exact h.textOf_injective (IsNCName.not_mem hn (by decide)) (IsNCName.not_mem hn' (by decide))
      htext (heq ▸ htext')
  · rintro rfl
    exact Option.some.inj (htext.symm.trans htext')

namespace Generator

variable {g : Generator}

/-- Nothing is left out. -/
def noLosses : Losses := ⟨fun _ => False, fun _ => False⟩

/-- A build words all nodes as it should. -/
theorem build_worded (hl : g.layout.Decorates)
    (hsubstitutes : g.substitutes = Substitutes.ofSchema g.schema) (hn : g.schema.NCNamed)
    {root : ElementId} {r : Request} {named : (Option String × String) × Synthesis}
    (hnamed : qualified (g.schema.element root).name .initial = named)
    {built : (Element × NodeId) × Synthesis}
    (hbuilt : g.build r root named.1.1 named.1.2 named.2 = built) :
    PrefixTable.empty.Extends built.2.prefixes ∧
      built.2.tree.All (NodeKind.Worded g built.2.prefixes) := by
  have hextends : PrefixTable.empty.Extends named.2.prefixes :=
    hnamed ▸ (Calm.qualified (g.schema.element root).name .initial).prefixes
  have h : Pruning g noLosses g.schema named.2.prefixes :=
    ⟨hl, hsubstitutes, .refl _, hn, hextends.apart PrefixTable.apart_empty, fun _ h => h.elim,
      fun _ h => h.elim, fun _ h => h.elim, fun _ h => h.elim⟩
  rw [← hnamed] at h
  have hkeeps := build_keeps h r
  dsimp only at hkeeps
  rw [hnamed, hbuilt] at hkeeps
  exact ⟨hextends.trans hkeeps.extend, hkeeps.worded⟩

/-- All nodes of a form are worded with the prefixes that it declares, and these come from a run. -/
theorem generate_worded (hl : g.layout.Decorates)
    (hsubstitutes : g.substitutes = Substitutes.ofSchema g.schema) (hn : g.schema.NCNamed)
    {time : String} {r : Request} {form : Form} (h : g.generate time r = .ok form)
    {root : ElementId}
    (hroot : g.schema.findElement (QName.of g.schema.target r.root) = some root) :
    PrefixTable.empty.Extends form.prefixes ∧ form.tree.All (NodeKind.Worded g form.prefixes) := by
  rw [generate_found hroot] at h
  generalize hnamed : qualified (g.schema.element root).name .initial = named at h
  generalize hbuilt : g.build r root named.1.1 named.1.2 named.2 = built at h
  obtain ⟨hextends, hworded⟩ := build_worded hl hsubstitutes hn hnamed hbuilt
  cases hwrong : r.instanceRoot.filter (!fits (g.schema.element root) ·) with
  | some wrong =>
    rw [hwrong] at h
    cases h
  | none =>
    rw [hwrong] at h
    obtain rfl := Except.ok.inj h
    rw [Form.prefixes_eq (t := built.2.prefixes) rfl]
    refine ⟨hextends, hworded.modifyKind _ fun k hk => ?_⟩
    cases k <;> exact hk

theorem generate_prefixed (hl : g.layout.Standard)
    (hsubstitutes : g.substitutes = Substitutes.ofSchema g.schema) (hn : g.schema.NCNamed)
    (ht : g.schema.TypesNamed) {time : String} {r : Request} {form : Form}
    (h : g.generate time r = .ok form) :
    ∃ root, g.schema.findElement (QName.of g.schema.target r.root) = some root ∧
      form.Prefixed g root := by
  obtain ⟨root, -, hroot, -, -, -, hnamespaces, hskeleton, -⟩ := generate_shows hl hsubstitutes h
  obtain ⟨hextends, hworded⟩ := generate_worded hl.decorates hsubstitutes hn h hroot
  obtain ⟨-, hfurnished, hname, hspelled, hdeclarations⟩ := furnished_form hsubstitutes root
  rw [← Form.prefixes_eq hnamespaces] at hfurnished hspelled
  generalize (Sketch.form g root _ _ _).1.skeleton = drawn at *
  have hapart := hextends.apart PrefixTable.apart_empty
  have hkeys := hextends.nodup_keys List.nodup_nil
  have hdistinct : (form.namespaces.map (·.1)).Nodup :=
    form.declarations_prefixes ▸ hapart.nodup_declarations hkeys
  have hreserved : ∀ d ∈ form.namespaces, d.1 ∉ PrefixTable.reserved := by
    intro d hd
    have hentry : (d.2, d.1) ∈ form.prefixes.entries.entries := List.mem_map.2 ⟨d, hd, rfl⟩
    exact hapart.unreserved _ _ (hapart.entered _ _ hentry)
  have hnew : ∀ d ∈ form.namespaces, some d.1 ∉ drawn.declarations.map (·.1) := by
    intro d hd hmem
    rw [hdeclarations] at hmem
    have hxsi : d.1 = "xsi" := by
      split at hmem <;> simpa using hmem
    exact hreserved d hd (hxsi ▸ by decide)
  obtain ⟨hsameName, hattributes, hchildren⟩ :=
    Element.foldl_declare_same form.namespaces drawn
  have hsamePrefix := Element.foldl_declare_tag form.namespaces drawn
  rw [← hskeleton] at hsameName hattributes hchildren hsamePrefix
  refine ⟨root, hroot, hdistinct, ?_, hreserved, ?_, hworded, hsameName.trans hname, ?_,
    hfurnished.congr hattributes hchildren, fun n n' hn₁ hn₂ s s' hs hs' =>
      hapart.qualified_eq_iff (hn₁.ncName hn ht) (hn₂.ncName hn ht) hs hs'⟩
  · have hnamespaces : form.prefixes.entries.keys = form.namespaces.map (·.2) := by
      simp [Table.keys, Form.prefixes]
    exact hnamespaces ▸ hkeys
  · rw [hskeleton, Element.declarations_declareAll hdistinct hnew, ← hskeleton, hsameName, hname,
      hdeclarations]
  · rw [hsameName, hsamePrefix]
    exact hspelled

/-- Prefixes are sound in every form: what is written in nodesets, relevance, choices of types and
the skeleton, is written with prefixes that the form and the root of the skeleton declare for the
namespaces of the declarations, or with `xsi`. -/
theorem prefixes_sound (s : Schema) (settings : Settings) {l : Layout} (hl : l.Standard)
    (hn : s.NCNamed) (ht : s.TypesNamed) {time : String} {r : Request} {form : Form}
    (h : (ofSchema s settings (some l)).generate time r = .ok form) :
    ∃ root, s.findElement (QName.of s.target r.root) = some root ∧
      form.Prefixed (ofSchema s settings (some l)) root :=
  generate_prefixed hl rfl hn ht h

/-- A schema with an element in one namespace that has an attribute in another. -/
def twoNamespaces : Schema where
  target := some "urn:order"
  types := (Schema.empty none).types ++ #[.complex
    { name := some ⟨some "urn:order", "Order"⟩, uses := [⟨0⟩], particle := some (.sequence []) }]
  elements := #[{ name := ⟨some "urn:order", "order"⟩, type := some ⟨Schema.builtinCount⟩ }]
  uses := #[{ decl := { name := ⟨some "urn:money", "currency"⟩, type := some Schema.anyType } }]
  typeNames := (Schema.empty none).typeNames
  elementNames := Table.empty.put ⟨some "urn:order", "order"⟩ ⟨0⟩

theorem prefixes_sound_twoNamespaces :
    ∃ form, (ofSchema twoNamespaces {} (some .plain)).generate "" { root := "order" } = .ok form ∧
      form.Prefixed (ofSchema twoNamespaces {} (some .plain)) ⟨0⟩ := by
  have hroot : twoNamespaces.findElement (QName.of twoNamespaces.target "order") = some ⟨0⟩ := by
    simp [twoNamespaces, Schema.findElement, QName.of, Option.filter]
  have hnames : (twoNamespaces.elements.toList.all fun decl => IsNCName decl.name.localName) ∧
      (twoNamespaces.uses.toList.all fun use => IsNCName use.decl.name.localName) ∧
      twoNamespaces.types.toList.all fun t => t.name?.all fun name => IsNCName name.localName := by
    decide +kernel
  obtain ⟨form, hform⟩ := generate_isOk (ofSchema twoNamespaces {} (some .plain)) ""
    (r := { root := "order" }) hroot rfl
  obtain ⟨root, hfound, hprefixed⟩ := prefixes_sound twoNamespaces {} .plain
    ⟨fun decl hdecl => List.all_eq_true.1 hnames.1 decl (Array.mem_toList_iff.2 hdecl),
      fun use huse => List.all_eq_true.1 hnames.2.1 use (Array.mem_toList_iff.2 huse)⟩
    (fun t ht name hname => by
      have hall := List.all_eq_true.1 hnames.2.2 t (Array.mem_toList_iff.2 ht)
      rw [Option.mem_def.1 hname] at hall
      exact hall) hform
  obtain rfl := Option.some.inj (hroot.symm.trans hfound)
  exact ⟨form, hform, hprefixed⟩

end Generator

end SchemaForms
