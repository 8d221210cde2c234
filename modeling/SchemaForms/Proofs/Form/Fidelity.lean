import SchemaForms.Proofs.Form.Prefixing
import SchemaForms.Proofs.Form.Writing
import SchemaForms.Proofs.Schema.Closure

/-!
Fidelity: the document of a form can be read, and what it says is what the form asks for.
-/

namespace SchemaForms

open Synthesis
open Forest (tree leaf)
open Grove (ids tops erase)
open Xml (Element Piece LegibleTag Renders declarationsIn othersIn)

/-! The remark. -/

/-- What holds no separator does not stand across one. -/
theorem not_infix_around {α : Type} {pattern before after : List α} {separator : α}
    (hseparator : separator ∉ pattern) (hbefore : ¬ pattern <:+: before)
    (hafter : ¬ pattern <:+: after) : ¬ pattern <:+: before ++ separator :: after := by
  rintro ⟨front, back, he⟩
  rw [List.append_assoc] at he
  rcases List.append_eq_append_iff.1 he with ⟨rest, rfl, hrest⟩ | ⟨rest, rfl, hrest⟩
  · rcases List.append_eq_append_iff.1 hrest with ⟨rest', rfl, -⟩ | ⟨rest', rfl, hrest'⟩
    · exact hbefore ⟨front, rest', List.append_assoc ..⟩
    · cases rest' with
      | nil => exact hbefore ⟨front, [], by simp⟩
      | cons c rest' =>
        obtain rfl := (List.cons.inj hrest').1
        exact hseparator (by simp)
  · cases rest with
    | nil =>
      cases pattern with
      | nil => exact hbefore List.nil_infix
      | cons c pattern =>
        obtain rfl := (List.cons.inj hrest).1
        exact hseparator List.mem_cons_self
    | cons c rest => exact hafter ⟨rest, back, by simpa using (List.cons.inj hrest).2.symm⟩

theorem not_infix_of_not_mem {α : Type} {pattern : List α} {a : α} (ha : a ∈ pattern) {l : List α}
    (hl : a ∉ l) : ¬ pattern <:+: l := fun h => hl (h.subset ha)

/-- The remark does not end early. -/
theorem Form.legible_remark {form : Form} (hname : '>' ∉ form.rootName.toList)
    (htime : ¬ "-->".toList <:+: form.generatedAt.toList)
    (htarget : ¬ "-->".toList <:+: (form.target.getD "").toList) :
    Piece.Legible (.comment form.remark) := by
  have hon : " on ".toList = " on".toList ++ [' '] := by decide
  have hfrom : " from the '".toList = ' ' :: "from the '".toList := by decide
  have hof : "' element of the '".toList = "' element of the ".toList ++ ['\''] := by decide
  have hend : "' XML Schema. ".toList = '\'' :: " XML Schema. ".toList := by decide
  have hsplit : form.remark.toList = (" This XForm was generated by xsdform " ++ toolVersion ++
      " on").toList ++ ' ' :: (form.generatedAt.toList ++ ' ' ::
        (("from the '" ++ form.rootName ++ "' element of the ").toList ++ '\'' ::
          ((form.target.getD "").toList ++ '\'' :: " XML Schema. ".toList))) := by
    unfold Form.remark
    simp only [String.toList_append, List.append_assoc, hon, hfrom, hof, hend, List.cons_append,
      List.nil_append]
  have hplain {text : String} (h : '>' ∉ text.toList) : ¬ "-->".toList <:+: text.toList :=
    not_infix_of_not_mem (by decide) h
  have hmiddle : '>' ∉ ("from the '" ++ form.rootName ++ "' element of the ").toList := by
    simpa using hname
  rw [Piece.Legible, hsplit]
  refine not_infix_around (by decide) (hplain (by decide)) ?_
  refine not_infix_around (by decide) htime ?_
  refine not_infix_around (by decide) (hplain hmiddle) ?_
  exact not_infix_around (by decide) htarget (hplain (by decide))

/-! The scope of the document. -/

section Prefixes

variable {ds : List (String × String)}

theorem Scope.lookup_declareAll_of_not_mem {p : String} (h : p ∉ ds.map (·.1)) (scope : Scope) :
    ((ds.map fun d => (some d.1, d.2)).foldl Scope.declare scope).lookup p = scope.lookup p := by
  induction ds generalizing scope with
  | nil => rfl
  | cons d ds ih =>
    rw [List.map_cons, List.mem_cons, not_or] at h
    exact (ih h.2 _).trans (if_neg (Ne.symm h.1))

/-- Each of several declarations of different prefixes counts. -/
theorem Scope.lookup_declareAll (hdistinct : (ds.map (·.1)).Nodup) {d : String × String} (hd : d ∈ ds)
    (scope : Scope) :
    ((ds.map fun d => (some d.1, d.2)).foldl Scope.declare scope).lookup d.1 = some d.2 := by
  induction ds generalizing scope with
  | nil => cases hd
  | cons d' ds ih =>
    rw [List.map_cons, List.nodup_cons] at hdistinct
    rcases List.mem_cons.1 hd with rfl | hd
    · exact (lookup_declareAll_of_not_mem hdistinct.1 _).trans (if_pos rfl)
    · exact ih hdistinct.2 hd _

theorem Scope.defaultNamespace_declareAll (ds : List (String × String)) (scope : Scope) :
    ((ds.map fun d => (some d.1, d.2)).foldl Scope.declare scope).defaultNamespace =
      scope.defaultNamespace := by
  induction ds generalizing scope with
  | nil => rfl
  | cons d ds ih => exact ih _

/-- Declaring the prefixes of forms, among others, makes a scope that serves. -/
theorem serves_declareAll (hdistinct : (ds.map (·.1)).Nodup) (hdocument : documentNamespaces ⊆ ds) :
    ((ds.map fun d => (some d.1, d.2)).foldl Scope.declare Scope.initial).Serves
      ("xml" :: ds.map (·.1)) where
  forms := Scope.lookup_declareAll hdistinct (d := ("xforms", formsNamespace))
    (hdocument (by decide)) _
  events := Scope.lookup_declareAll hdistinct (d := ("ev", eventsNamespace))
    (hdocument (by decide)) _
  foreign := by
    rw [Scope.defaultNamespace_declareAll]
    exact Option.some_ne_none _ |>.symm
  bound p hp := by
    rw [Xml.lookup_declare]
    rcases List.mem_cons.1 hp with rfl | hp
    · exact .inr ⟨Scope.xmlNamespace, by decide⟩
    · obtain ⟨d, hd, rfl⟩ := List.mem_map.1 hp
      exact .inl (List.mem_filterMap.2 ⟨(some d.1, d.2), List.mem_map_of_mem hd, rfl⟩)

end Prefixes

/-! The tag of the root. -/

namespace Form

/-- All prefixes that the document declares, with their namespaces. -/
def declared (form : Form) : List (String × String) := documentNamespaces ++ form.namespaces

/-- The prefixes that are bound in the document. -/
def bound (form : Form) : List String := "xml" :: form.declared.map (·.1)

theorem documentPrefixes_subset (form : Form) : documentPrefixes ⊆ form.bound := by
  rw [documentPrefixes, bound, declared, List.map_append]
  exact List.cons_subset_cons _ (List.subset_append_left ..)

section Root

variable {form : Form} {m : Markup} (hm : m.Plain)

theorem splitName_base : splitName "xml:base" = (some "xml", "base") := by
  decide

theorem declarationOf_base (value : String) : Xml.declarationOf "xml:base" value = none := by
  rw [Xml.declarationOf, if_neg (by decide), splitName_base]
  rfl

theorem declarationsIn_root (form : Form) (m : Markup) :
    declarationsIn (form.rootAttributes ++ m.attributes) =
      (form.declared.map fun d => (some d.1, d.2)) ++ declarationsIn m.attributes := by
  have hprefixes : declarationsIn (form.declared.map fun d => ("xmlns:" ++ d.1, d.2)) =
      form.declared.map fun d => (some d.1, d.2) := by
    rw [declarationsIn, List.filterMap_map, ← List.filterMap_eq_map]
    exact List.filterMap_congr fun d _ => Xml.declarationOf_key (some d.1, d.2)
  have hbase : declarationsIn (optionalAttribute "xml:base" form.base) = [] := by
    cases form.base with
    | none => rfl
    | some value => simp [optionalAttribute, declarationsIn, declarationOf_base]
  rw [rootAttributes, declarationsIn, List.filterMap_append, List.filterMap_append]
  exact congrArg₂ (· ++ ·) ((congrArg₂ (· ++ ·) hprefixes hbase).trans (List.append_nil _)) rfl

/-- What stands in the tag of the root. -/
theorem mem_root {a : String × String} (ha : a ∈ form.rootAttributes ++ m.attributes) :
    (∃ d ∈ form.declared, a = ("xmlns:" ++ d.1, d.2)) ∨ a.1 = "xml:base" ∨ a ∈ m.attributes := by
  rw [rootAttributes, List.mem_append, List.mem_append] at ha
  rcases ha with (ha | ha) | ha
  · obtain ⟨d, hd, rfl⟩ := List.mem_map.1 ha
    exact .inl ⟨d, hd, rfl⟩
  · obtain ⟨value, -, rfl⟩ : ∃ value, form.base = some value ∧ ("xml:base", value) = a := by
      simpa [optionalAttribute] using ha
    exact .inr (.inl rfl)
  · exact .inr (.inr ha)

include hm

/-- Only bound prefixes are used. -/
theorem bound_of_root : ∀ a ∈ othersIn (form.rootAttributes ++ m.attributes), ∀ p,
    (splitName a.1).1 = some p → p ∈ form.bound := by
  intro a ha p hp
  obtain ⟨ha, hplain⟩ := List.mem_filter.1 ha
  rcases mem_root ha with ⟨d, -, rfl⟩ | hbase | ha
  · have hdeclares : Xml.declarationOf ("xmlns:" ++ d.1) d.2 = some (some d.1, d.2) :=
      Xml.declarationOf_key (some d.1, d.2)
    rw [hdeclares] at hplain
    cases hplain
  · rw [hbase, splitName_base] at hp
    exact Option.some.inj hp ▸ List.mem_cons_self
  · rw [hm.splitName_key ha] at hp
    cases hp

/-- The keys in the tag of the root, split at their colons. -/
theorem splitName_root : ((form.rootAttributes ++ m.attributes).map (·.1)).map splitName =
    (form.declared.map fun d => (some "xmlns", d.1)) ++
      (form.base.map fun _ => (some "xml", "base")).toList ++
      m.attributes.map fun a => (none, a.1) := by
  have hdeclared : ((form.declared.map fun d => ("xmlns:" ++ d.1, d.2)).map (·.1)).map splitName =
      form.declared.map fun d => (some "xmlns", d.1) := by
    rw [List.map_map, List.map_map]
    exact List.map_congr_left fun d _ => Xml.splitName_declarationKey d.1
  have hbase : ((optionalAttribute "xml:base" form.base).map (·.1)).map splitName =
      (form.base.map fun _ => (some "xml", "base")).toList := by
    cases form.base with
    | none => rfl
    | some value => exact congrArg (fun name => [name]) splitName_base
  have hplain : (m.attributes.map (·.1)).map splitName = m.attributes.map fun a => (none, a.1) := by
    rw [List.map_map]
    exact List.map_congr_left fun a ha => hm.splitName_key ha
  rw [rootAttributes, List.map_append, List.map_append, List.map_append, List.map_append, hplain,
    hbase]
  exact congrArg₂ (· ++ ·) (congrArg₂ (· ++ ·) hdeclared rfl) rfl

/-- No two attributes of the root have one key: the prefixes tell them apart. -/
theorem legibleTag_root (hdistinct : (form.declared.map (·.1)).Nodup)
    (hchars : ∀ d ∈ form.declared, ∀ c ∈ d.1.toList, Xml.isNamePart c = true) :
    LegibleTag m.name (form.rootAttributes ++ m.attributes) where
  name := hm.legibleTag.name
  keys a ha := by
    have hfixed : ∀ key ∈ ["xmlns:", "xml:base"], key.toList ≠ [] ∧
        ∀ c ∈ key.toList, Xml.isNamePart c = true := by
      decide
    rcases mem_root ha with ⟨d, hd, rfl⟩ | hbase | ha
    · refine Xml.isTagKey_of_nameParts (fun c hc => ?_) (by simp)
      rw [String.toList_append, List.mem_append] at hc
      exact hc.elim ((hfixed _ (by decide)).2 c) (hchars d hd c)
    · obtain ⟨hne, hbaseChars⟩ := hfixed "xml:base" (by decide)
      exact hbase ▸ Xml.isTagKey_of_nameParts hbaseChars hne
    · exact hm.legibleTag.keys a ha
  distinct := by
    refine List.Nodup.of_map splitName ?_
    have hfirst : (form.declared.map fun d => (some "xmlns", d.1)).Nodup :=
      List.Nodup.of_map Prod.snd (by rwa [List.map_map])
    have hlast : (m.attributes.map fun a => ((none : Option String), a.1)).Nodup :=
      List.Nodup.of_map Prod.snd (by rw [List.map_map]; exact hm.distinct)
    have hsecond : ∀ k ∈ (form.base.map fun _ => (some "xml", "base")).toList,
        k = (some "xml", "base") := by
      cases form.base <;> simp
    rw [splitName_root hm, List.nodup_append, List.nodup_append]
    refine ⟨⟨hfirst, by cases form.base <;> simp, fun k hk k' hk' he => ?_⟩, hlast,
      fun k hk k' hk' he => ?_⟩
    · obtain ⟨d, -, rfl⟩ := List.mem_map.1 hk
      rw [hsecond k' hk'] at he
      exact absurd (Option.some.inj (congrArg Prod.fst he)) (by decide)
    · obtain ⟨a, -, rfl⟩ := List.mem_map.1 hk'
      rcases List.mem_append.1 hk with hk | hk
      · obtain ⟨d, -, rfl⟩ := List.mem_map.1 hk
        cases congrArg Prod.fst he
      · rw [hsecond k hk] at he
        cases congrArg Prod.fst he

end Root

end Form

/-! The nodes. -/

/-- The instance and the submission have nothing below them. -/
theorem Drawing.ends_forest {d : Drawing} (hcontrols : ∀ k ∈ d.controls.labels, ∃ c, k = .control c)
    (r : Request) (root : Option Element) :
    ∀ p ∈ (d.forest r root).parts, p.1.isEnd → p.2 = .nil := by
  intro p hp hend
  have hnot {f : Forest NodeKind} (hf : ∀ k ∈ f.labels, k.isEnd = false) (hp : p ∈ f.parts) : False := by
    rw [hf _ (Forest.mem_labels_of_mem_parts hp).1] at hend
    cases hend
  have hbinds : ∀ k ∈ ((Kid.forest d.binds).map NodeKind.bind).labels, k.isEnd = false := by
    intro k hk
    rw [Forest.labels_map, List.mem_map] at hk
    obtain ⟨b, -, rfl⟩ := hk
    rfl
  have hothers : ∀ k ∈ (d.controls ++ leaf (NodeKind.control d.submitControl)).labels, k.isEnd = false := by
    intro k hk
    rw [Forest.labels_append, List.mem_append] at hk
    rcases hk with hk | hk
    · obtain ⟨c, rfl⟩ := hcontrols k hk
      rfl
    · obtain rfl := List.mem_singleton.1 hk
      rfl
  rw [forest, Forest.parts_append, List.mem_append, Forest.parts_tree, List.mem_cons,
    Forest.parts_append, List.mem_append, Forest.parts_append, List.mem_append] at hp
  rcases hp with (rfl | (hp | hp) | hp) | hp
  · cases hend
  · obtain rfl := List.mem_singleton.1 hp
    rfl
  · exact absurd hp (hnot hbinds)
  · obtain rfl := List.mem_singleton.1 hp
    rfl
  · exact absurd hp (hnot hothers)

/-- There are nodes beside the model, so all are put into markup. -/
theorem Drawing.root_of_forest {d : Drawing} {r : Request} {root : Option Element} {x : NodeId}
    {k : NodeKind} {b : Grove} (h : erase (Forest.tree (x, k) b) = d.forest r root) :
    ∃ m, k = .markup m := by
  have hlength : (erase (Forest.tree (x, k) b)).roots.length ≠ 1 := by
    rw [h, forest, Forest.roots_append, Forest.roots_append]
    simp [Forest.tree, leaf, Forest.roots]
  cases k with
  | markup m => exact ⟨m, rfl⟩
  | _ => exact absurd rfl hlength

/-- All nodes of a form can be written, if its instance can be read. -/
theorem writable_of_shown {t : Tree} {f : Grove} {d : Drawing} {r : Request} {root : Element}
    {bound : List String} (hshows : t.Shows f) (hadorned : t.Adorned)
    (hnodes : erase f = d.forest r (some root))
    (hcontrols : ∀ k ∈ d.controls.labels, ∃ c, k = .control c) (hroot : root.Readable bound) :
    ∀ a ∈ f.labels, a.2.Writable bound := by
  intro a ha
  rcases Grove.mem_labels_erase ha with hmarkup | hmem
  · have hplain := hadorned.plain a.1 (hshows.lt a.1 (List.mem_map_of_mem ha))
    rw [Tree.kind_of_mem_labels hshows.links ha] at hplain
    cases hk : a.2 with
    | markup m =>
      rw [hk] at hplain
      exact hplain
    | _ =>
      rw [hk] at hmarkup
      cases hmarkup
  · rw [hnodes, Drawing.mem_forest] at hmem
    rcases hmem with hk | hk | ⟨b, -, hk⟩ | hk | hk | hk
    · exact hk ▸ trivial
    · rw [hk]
      intro e he
      exact Option.some.inj he ▸ hroot
    · exact hk ▸ trivial
    · exact hk ▸ trivial
    · obtain ⟨c, hk⟩ := hcontrols _ hk
      exact hk ▸ trivial
    · exact hk ▸ trivial

/-! The document. -/

/-- The nodes of a form that has markup for its root, as they are written. -/
theorem Tree.Shows.pieces {t : Tree} {x : NodeId} {m : Markup} {b : Grove}
    (h : t.Shows (tree (x, .markup m) b)) (declarations : List (String × String)) :
    t.root.elim [] (t.pieces t.size declarations) = enclosedOrEmpty m.name
      (declarations ++ m.attributes) (m.text.elim [] (fun t => [Piece.text t]) ++ Grove.pieces b) := by
  obtain ⟨a, below, he, hroot⟩ := h.root
  obtain ⟨rfl, rfl⟩ : (x, NodeKind.markup m) = a ∧ b = below := by
    cases he
    exact ⟨rfl, rfl⟩
  obtain ⟨hnode, hbelow, -⟩ := h.links
  have hlength := h.length_le
  rw [Grove.ids_tree, List.length_cons] at hlength
  obtain ⟨depth, hdepth⟩ := Nat.exists_eq_add_one_of_ne_zero (n := t.size) (by omega)
  rw [hroot, Option.elim_some, hdepth, Tree.pieces, Tree.kind, Tree.children, hnode,
    Grove.pieces_eq hbelow depth (by omega)]
  rfl

namespace Generator

section Generated

variable {g : Generator} (hsubstitutes : g.substitutes = Substitutes.ofSchema g.schema)
  (hn : g.schema.NCNamed) {time : String} {r : Request} {form : Form}
  (h : g.generate time r = .ok form)

include h hn

/-- The name of the root and what is given for a form stand in its remark as they are. -/
theorem generate_remark (hroot : ∀ root, g.schema.findElement (QName.of g.schema.target r.root) =
      some root → g.schema.HasElement root) (htime : ¬ "-->".toList <:+: time.toList)
    (htarget : ¬ "-->".toList <:+: (g.schema.target.getD "").toList) :
    Piece.Legible (.comment form.remark) := by
  cases hfound : g.schema.findElement (QName.of g.schema.target r.root) with
  | none =>
    unfold generate at h
    rw [hfound] at h
    cases h
  | some root =>
    rw [generate_found hfound] at h
    generalize hname : (g.schema.element root).name = name at h
    have hwritten : (qualified name .initial).1.2 =
        writtenName (qualified name .initial).1.1 name.localName := by
      unfold qualified
      cases name.nspace <;> rfl
    have hlocal : IsNCName name.localName = true :=
      hname ▸ hn.elements _ (Schema.element_mem_of_has (hroot root hfound))
    have hapart := (Calm.qualified name .initial).prefixes.apart PrefixTable.apart_empty
    have hchars : '>' ∉ (qualified name .initial).1.2.toList := by
      intro hm
      rw [hwritten] at hm
      have hspelled := PrefixTable.spells_qualified name .initial
      exact absurd (Xml.isNamePart_written (hspelled.chars hapart) hlocal '>' hm) (by decide)
    split at h
    · cases h
    · obtain rfl := Except.ok.inj h
      exact Form.legible_remark hchars htime htarget

include hsubstitutes

/-- No prefix is declared twice, and all prefixes are made of characters of names. -/
theorem generate_declared (hl : g.layout.Standard) (ht : g.schema.TypesNamed) :
    (form.declared.map (·.1)).Nodup ∧
      ∀ d ∈ form.declared, ∀ c ∈ d.1.toList, Xml.isNamePart c = true := by
  obtain ⟨root, hfound, hprefixed⟩ := generate_prefixed hl hsubstitutes hn ht h
  obtain ⟨hextends, -⟩ := generate_worded hl.decorates hsubstitutes hn h hfound
  have hapart := hextends.apart PrefixTable.apart_empty
  have hdocument : (documentNamespaces.map (·.1)).Nodup ∧
      (∀ p ∈ documentNamespaces.map (·.1), p ∈ PrefixTable.reserved) ∧
      ∀ d ∈ documentNamespaces, ∀ c ∈ d.1.toList, Xml.isNamePart c = true := by
    decide
  refine ⟨?_, fun d hd c hc => ?_⟩
  · rw [Form.declared, List.map_append, List.nodup_append]
    refine ⟨hdocument.1, hprefixed.distinct, fun p hp q hq he => ?_⟩
    obtain ⟨d, hd, rfl⟩ := List.mem_map.1 hq
    exact hprefixed.unreserved d hd (he ▸ hdocument.2.1 p hp)
  · rcases List.mem_append.1 hd with hd | hd
    · exact hdocument.2.2 d hd c hc
    · have hentry : (d.2, d.1) ∈ form.prefixes.entries.entries := List.mem_map.2 ⟨d, hd, rfl⟩
      exact Xml.isNamePart_of_isNameChar (hapart.named _ _ (hapart.entered _ _ hentry) c hc)

/-- The instance of a form can be read in its document. -/
theorem generate_readable (hl : g.layout.Standard)
    (hroot : ∀ root, g.schema.findElement (QName.of g.schema.target r.root) = some root →
      g.schema.HasElement root) (hinstance : ∀ e ∈ r.instanceRoot, e.Embeddable)
    (hxmlns : r.instanceRoot = none → form.skeleton.name.nspace = none →
      ∀ a ∈ form.skeleton.attributes, a.written ≠ "xmlns") :
    ((r.instanceRoot.map prepareRoot).getD form.skeleton).Readable form.bound := by
  cases hsupplied : r.instanceRoot with
  | some e => exact supplied_readable (hinstance e hsupplied) form.documentPrefixes_subset
  | none =>
    obtain ⟨root, -, hfound, -, -, -, hnamespaces, hskeleton, -⟩ := generate_shows hl hsubstitutes h
    have hbare := hxmlns hsupplied
    rw [Option.map_none, Option.getD_none, hskeleton, hnamespaces]
    obtain ⟨hname, hattributes, -⟩ := Element.foldl_declare_same form.namespaces
      (Sketch.form g root _ _ _).1.skeleton
    rw [hskeleton, hname, hattributes] at hbare
    refine skeleton_readable hsubstitutes hn (Schema.element_mem_of_has (hroot root hfound))
      (form.documentPrefixes_subset (by decide)) hbare fun d hd => ?_
    rw [← hnamespaces] at hd
    exact List.mem_cons_of_mem _ (List.mem_map_of_mem (List.mem_append_right _ hd))

end Generated

/-- The document of a form is faithful: it can be read, and outside the instance what is read has an
element for every node, choice, toggle and action of the form, in the same order and nesting, with
just the attributes that the form stores. -/
theorem document_faithful (s : Schema) (settings : Settings) {l : Layout} (hl : l.Standard)
    (hn : s.NCNamed) (ht : s.TypesNamed) (htarget : ¬ "-->".toList <:+: (s.target.getD "").toList)
    {time : String} (htime : ¬ "-->".toList <:+: time.toList) {r : Request} {form : Form}
    (h : (ofSchema s settings (some l)).generate time r = .ok form)
    (hroot : ∀ root, s.findElement (QName.of s.target r.root) = some root → s.HasElement root)
    (hinstance : ∀ e ∈ r.instanceRoot, e.Embeddable)
    (hxmlns : r.instanceRoot = none → form.skeleton.name.nspace = none →
      ∀ a ∈ form.skeleton.attributes, a.written ≠ "xmlns") :
    ∃ doc f, Xml.readString form.toXml = .ok (some doc) ∧ form.tree.Shows f ∧
      doc.marks = (erase f).marks := by
  obtain ⟨root, f, hfound, hshows, -, hnodes, -⟩ := generate_shows hl rfl h
  generalize hdrawn : (Sketch.form _ root _ _ _).1 = drawn at hnodes
  have hcontrols : ∀ k ∈ drawn.controls.labels, ∃ c, k = .control c := by
    intro k hk
    rw [← hdrawn] at hk
    obtain ⟨c, hc, -⟩ := (linked_filled root _ _ (clean_named (s.element root).name)).titled k hk
    exact ⟨c, hc⟩
  have hreadable := generate_readable rfl hn h hl hroot hinstance hxmlns
  have hadorned := generate_adorned hl h
  have hwritable := writable_of_shown hshows hadorned hnodes hcontrols hreadable
  obtain ⟨⟨x, k⟩, b, rfl, -⟩ := hshows.root
  obtain ⟨m, rfl⟩ : ∃ m, k = .markup m := Drawing.root_of_forest hnodes
  have hm : m.Plain := hwritable (x, .markup m) List.mem_cons_self
  rw [Grove.erase_markup] at hnodes
  obtain ⟨hdistinct, hchars⟩ := generate_declared rfl hn h hl ht
  have hserves := hm.serves (serves_declareAll hdistinct (List.subset_append_left ..))
  rw [← List.foldl_append, ← Form.declarationsIn_root] at hserves
  have hinner := Grove.tells (f := b)
    (fun a ha => hwritable a (List.mem_cons_of_mem _ (List.mem_append_left _ ha)))
    (fun p hp => Drawing.ends_forest hcontrols r _ p (hnodes ▸ hp)) hserves
  obtain ⟨doc, hdoc, hmarks⟩ := renders_markup hm.name (Form.legibleTag_root hm hdistinct hchars)
    hserves (Form.bound_of_root hm) hinner
  have hremark := generate_remark hn h hroot htime htarget
  have hdeclaration : Renders Scope.initial [.declaration] [] := .ignored trivial rfl rfl
  have hrenders := hdeclaration.append ((Renders.ignored hremark rfl rfl).append hdoc)
  refine ⟨doc, _, ?_, hshows, by rw [hmarks, Grove.erase_markup]⟩
  rw [← hshows.pieces form.rootAttributes] at hrenders
  exact hrenders.readString (Xml.written_indented 0 true _)

/-- A schema whose root element has one attribute. -/
def declaring (name : String) : Schema where
  target := none
  types := (Schema.empty none).types ++ #[.complex { name := some ⟨none, "R"⟩, uses := [⟨0⟩] }]
  elements := #[{ name := ⟨none, "r"⟩, type := some ⟨Schema.builtinCount⟩ }]
  uses := #[{ decl := { name := ⟨none, name⟩, type := some Schema.anyType } }]
  typeNames := (Schema.empty none).typeNames
  elementNames := Table.empty.put ⟨none, "r"⟩ ⟨0⟩

theorem substitutes_declaring (name : String) : Substitutes.ofSchema (declaring name) = ⟨⟨[]⟩⟩ := by
  have hsame : Substitutes.ofSchema (declaring name) = Substitutes.ofSchema (declaring "a") := rfl
  have htable : (declaring "a").namedTypes.foldl (fun table id =>
      Substitutes.ascend (declaring "a") table []
        ((declaring "a").chain (Substitutes.parent (declaring "a")) id)) Table.empty =
      (⟨[]⟩ : Table TypeId (List TypeId)) := by
    decide +kernel
  rw [hsame, Substitutes.ofSchema, htable]
  rfl

theorem named_declaring {name : String} (h : IsNCName name = true) :
    (declaring name).NCNamed ∧ (declaring name).TypesNamed := by
  have htypes : (declaring name).types.toList.all fun t => t.name?.all fun name =>
      IsNCName name.localName := by
    have hsame : (declaring name).types = (declaring "a").types := rfl
    rw [hsame]
    decide +kernel
  refine ⟨⟨fun decl hdecl => ?_, fun use huse => ?_⟩, fun t ht name hname => ?_⟩
  · obtain rfl := List.mem_singleton.1 (Array.mem_toList_iff.2 hdecl)
    decide
  · obtain rfl := List.mem_singleton.1 (Array.mem_toList_iff.2 huse)
    exact h
  · have hall := List.all_eq_true.1 htypes t (Array.mem_toList_iff.2 ht)
    rw [Option.mem_def.1 hname] at hall
    exact hall

/-- An instance of its root element that has the attribute some times. -/
def giving (values : List String) : Element :=
  ⟨.unqualified "r", none, values.map fun value => ⟨.unqualified "a", none, value⟩, none, [], [],
    Scope.initial⟩

theorem embeddable_giving : (giving ["1"]).Embeddable where
  readable := by
    have hname : splitName (giving ["1"]).written = (none, "r") := by decide
    have hkey : ∀ a ∈ (giving ["1"]).attributes, splitName a.written = (none, "a") := by decide
    refine .intro ⟨?_, fun a ha => ?_, ?_⟩ (fun p hp => ?_) (fun a ha p hp => ?_) fun c hc => ?_
    · exact Xml.isTagName_of_nameParts (by decide) (by decide)
    · obtain rfl : a = ("a", "1") := List.mem_singleton.1 ha
      have hchars : "a".toList ≠ [] ∧ ∀ c ∈ "a".toList, Xml.isNamePart c = true := by decide
      exact Xml.isTagKey_of_nameParts hchars.2 hchars.1
    · exact List.nodup_singleton _
    · rw [hname] at hp
      cases hp
    · rw [hkey a ha] at hp
      cases hp
    · exact absurd hc List.not_mem_nil
  plain := by decide

theorem of_toOption_any {x : Except Fault Form} {p : Form → Bool} (h : x.toOption.any p = true) :
    ∃ form, x = .ok form ∧ p form = true := by
  cases x with
  | error f => cases h
  | ok form => exact ⟨form, rfl, h⟩

/-- The documents with the instance that the schema gives and with a supplied one. -/
theorem document_faithful_declaring :
    (∃ form doc f, (ofSchema (declaring "a") {} (some .plain)).generate "" { root := "r" } =
        .ok form ∧ Xml.readString form.toXml = .ok (some doc) ∧ form.tree.Shows f ∧
        doc.marks = (erase f).marks) ∧
      ∃ form doc f, (ofSchema (declaring "a") {} (some .plain)).generate ""
          { root := "r", instanceRoot := some (giving ["1"]) } = .ok form ∧
        Xml.readString form.toXml = .ok (some doc) ∧ form.tree.Shows f ∧
        doc.marks = (erase f).marks := by
  have hforms : ∀ supplied ∈ [none, some (giving ["1"])],
      ((ofSchema (declaring "a") {} (some .plain)).generate ""
        { root := "r", instanceRoot := supplied }).toOption.any (fun form =>
          form.skeleton.attributes.all (·.written != "xmlns")) = true := by
    rw [ofSchema, substitutes_declaring]
    decide +kernel
  obtain ⟨hn, ht⟩ := named_declaring (show IsNCName "a" = true by decide)
  have hroot (root : ElementId) (hfound : (declaring "a").findElement
      (QName.of (declaring "a").target "r") = some root) : (declaring "a").HasElement root := by
    have hfirst : (declaring "a").findElement (QName.of (declaring "a").target "r") = some ⟨0⟩ := by
      simp [declaring, Schema.findElement, QName.of, Option.filter]
    obtain rfl := Option.some.inj (hfirst.symm.trans hfound)
    exact Nat.zero_lt_one
  have hdocument (supplied : Option Element) (hsupplied : supplied ∈ [none, some (giving ["1"])]) :
      ∃ form doc f, (ofSchema (declaring "a") {} (some .plain)).generate ""
          { root := "r", instanceRoot := supplied } = .ok form ∧
        Xml.readString form.toXml = .ok (some doc) ∧ form.tree.Shows f ∧
        doc.marks = (erase f).marks := by
    obtain ⟨form, hform, hbare⟩ := of_toOption_any (hforms supplied hsupplied)
    have hinstance : ∀ e ∈ supplied, e.Embeddable := by
      intro e he
      rcases List.mem_pair.1 hsupplied with rfl | rfl
      · cases he
      · exact Option.some.inj he ▸ embeddable_giving
    obtain ⟨doc, f, h⟩ := document_faithful (declaring "a") {} .plain hn ht (by decide) (by decide)
      hform hroot hinstance fun _ _ a ha => by simpa using List.all_eq_true.1 hbare a ha
    exact ⟨form, doc, f, hform, h⟩
  exact ⟨hdocument none (by simp), hdocument _ (by simp)⟩

/-- NCNames are not enough.  A root without a namespace declares that it has none, which an attribute
may repeat, and a supplied instance may have an attribute twice. -/
theorem document_unread :
    ((declaring "xmlns").NCNamed ∧ (declaring "xmlns").TypesNamed ∧ ∃ form,
      (ofSchema (declaring "xmlns") {} (some .plain)).generate "" { root := "r" } = .ok form ∧
        ∀ root, Xml.readString form.toXml ≠ .ok root) ∧
    (declaring "a").NCNamed ∧ (declaring "a").TypesNamed ∧
      (giving ["1", "2"]).Everywhere Element.NCNamed ∧ ∃ form,
        (ofSchema (declaring "a") {} (some .plain)).generate ""
          { root := "r", instanceRoot := some (giving ["1", "2"]) } = .ok form ∧
        ∀ root, Xml.readString form.toXml ≠ .ok root := by
  have hrepeats : ((ofSchema (declaring "xmlns") {} (some .plain)).generate ""
        { root := "r" }).toOption.any (Xml.repeatsKey ·.pieces) = true ∧
      ((ofSchema (declaring "a") {} (some .plain)).generate ""
        { root := "r", instanceRoot := some (giving ["1", "2"]) }).toOption.any
          (Xml.repeatsKey ·.pieces) = true := by
    rw [ofSchema, ofSchema, substitutes_declaring, substitutes_declaring]
    decide +kernel
  obtain ⟨form, hform, hkey⟩ := of_toOption_any hrepeats.1
  obtain ⟨form', hform', hkey'⟩ := of_toOption_any hrepeats.2
  obtain ⟨hn, ht⟩ := named_declaring (show IsNCName "xmlns" = true by decide)
  obtain ⟨hn', ht'⟩ := named_declaring (show IsNCName "a" = true by decide)
  have hwritten (form : Form) : Xml.Written form.pieces (Xml.writeIndented 0 true form.pieces) :=
    Xml.written_indented 0 true _
  refine ⟨⟨hn, ht, form, hform, Xml.readString_of_repeatsKey hkey (hwritten form)⟩, hn', ht', ?_,
    form', hform', Xml.readString_of_repeatsKey hkey' (hwritten form')⟩
  exact .intro ⟨by decide, by decide⟩ fun c hc => absurd hc List.not_mem_nil

end Generator

end SchemaForms
