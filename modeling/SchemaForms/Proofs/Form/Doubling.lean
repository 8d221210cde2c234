import SchemaForms.Proofs.Form.Enumeration
import SchemaForms.Proofs.Form.Forested
import SchemaForms.Proofs.Form.Proper
import SchemaForms.Proofs.Form.Separating
import SchemaForms.Proofs.Schema.Hierarchy

/-!
Where a nodeset is bound twice.  Main statement: where two binds of a form have the same parent and
the same nodeset, it is that of a text, or the second has been added for one of the types that an
element may have, under a name that this type does not inherit.
-/

namespace SchemaForms

open Xml (Element)

/-- The binds of a form are apart below its model and below each other. -/
theorem Drawing.apart {g : Generator} {prefixes : PrefixTable} {d : Drawing}
    (h : Orderly g prefixes (Kid.forest d.binds))
    (hcontrols : ∀ k ∈ d.controls.labels, k.bind? = none) (r : Request) (root : Option Element) :
    ∀ p ∈ (d.forest r root).parts,
      (p.2.roots.filterMap NodeKind.bind?).Pairwise (Bind.Apart g prefixes) := by
  have hbinds (f : Forest Bind) :
      (f.map NodeKind.bind).roots.filterMap NodeKind.bind? = f.roots := by
    rw [Forest.roots_map, List.filterMap_map]
    exact List.filterMap_some
  have hbare {f : Forest NodeKind} (hf : ∀ k ∈ f.labels, k.bind? = none) :
      f.roots.filterMap NodeKind.bind? = [] :=
    List.filterMap_eq_nil_iff.2 fun k hk => hf k (Forest.mem_labels_of_mem_roots hk)
  intro p hp
  rw [forest, Forest.parts_append, List.mem_append, Forest.parts_tree, List.mem_cons] at hp
  rcases hp with (rfl | hp) | hp
  · simp only [Forest.roots_append, List.filterMap_append, hbinds]
    change ([] ++ (Kid.forest d.binds).roots ++ []).Pairwise (Bind.Apart g prefixes)
    rw [List.nil_append, List.append_nil]
    exact h.1
  · simp only [Forest.parts_append, List.mem_append, Forest.leaf, Forest.parts_tree,
      Forest.parts, List.mem_singleton] at hp
    rcases hp with (rfl | hp) | rfl
    · exact .nil
    · rw [Forest.parts_map] at hp
      obtain ⟨q, hq, rfl⟩ := List.mem_map.1 hp
      rw [hbinds]
      exact h.2 q hq
    · exact .nil
  · rw [Forest.parts_append, List.mem_append] at hp
    rcases hp with hp | hp
    · rw [hbare fun k hk => hcontrols k ((Forest.mem_labels_of_mem_parts hp).2 k hk)]
      exact .nil
    · rw [List.mem_singleton.1 hp]
      exact .nil

namespace Generator

/-- An element has its own type first, or not at all. -/
theorem not_mem_tail_candidates {g : Generator} (hg : g.substitutes = Substitutes.ofSchema g.schema)
    (t : TypeId) : t ∉ (g.candidates t).tail := by
  have hof : t ∉ g.substitutes.of t := by
    rw [hg, Substitutes.of_ofSchema, Substitutes.sortByDepth, List.mem_mergeSort,
      Substitutes.get?_tableOf]
    exact Substitutes.not_mem_discovered g.schema t
  rw [candidates]
  split
  · exact fun h => hof (List.mem_of_mem_tail h)
  · exact hof

/-- A nodeset is bound once in one place, with two exceptions.  Where two binds with the same parent
have the same nodeset, it is that of a text; or it is for a name that two of the types list that an
element may have, where the second of these types does not inherit the name, and the second bind has
been added for this type and has relevance, which lists the type.  The names in the schema have to
be NCNames, and no type may list a name twice. -/
theorem nodesets_apart (s : Schema) (settings : Settings) (hs : s.NCNamed) (htypes : s.TypesNamed)
    (huses : s.AttributesOnce) (hchildren : s.ElementsOnce) {l : Layout} (hl : l.Standard)
    {time : String} {r : Request} {form : Form}
    (h : (ofSchema s settings (some l)).generate time r = .ok form) {e x y : NodeId}
    {b b' : Bind} (hxy : [x, y].Sublist (form.tree.children e))
    (hb : form.tree.bind? x = some b) (hb' : form.tree.bind? y = some b')
    (hnodeset : b.nodeset = b'.nodeset) :
    let g := ofSchema s settings (some l)
    b.nodeset = "." ∨ ∃ declared t t' step, [t, t'].Sublist (g.candidates declared) ∧
      step ∈ g.listed t ∧ b'.AddedFor g form.prefixes t' step := by
  intro g
  obtain ⟨root, f, -, hshows, htidy, hnodes, hnamespaces, -⟩ := generate_shows hl rfl h
  obtain ⟨top, hrooted⟩ := generate_rooted hl h
  let named := Synthesis.qualified (s.element root).name Synthesis.initial
  let drawn := Sketch.form g root named.1.1 named.1.2 named.2
  have hprefixes : form.prefixes = drawn.2.prefixes := Form.prefixes_eq hnamespaces
  have hapart := (Calm.qualified (s.element root).name .initial).prefixes.apart
    PrefixTable.apart_empty
  have hpath (z : String) : "/" ++ named.1.2 ≠ z ++ "/@xsi:type" := by
    intro he
    have hmem : '@' ∈ ("/" ++ named.1.2).toList := by
      rw [he]
      simp
    exact (hs.clean_child (g := g) root).at_not_mem hapart
      (textOf_qualified (s.element root).name .initial) (by simpa using hmem)
  have horderly : Orderly g form.prefixes (Kid.forest drawn.1.binds) := by
    rw [hprefixes]
    exact ((Sketch.enlists_element hs htypes huses hchildren (not_mem_tail_candidates (g := g) rfl)
      (g.schema.elements.size + 1) (prepareRoot (bareInstance (g.schema.element root) named.1.1))
      root ("/" ++ named.1.2) .once hpath).fills _ hapart {} (Sketch.opened named.2) .refl rfl).2
  have hcontrols : ∀ k ∈ drawn.1.controls.labels, k.bind? = none := by
    intro k hk
    obtain ⟨c, rfl, -⟩ := (linked_filled (g := g) root named.1.1 named.1.2
      (clean_named (s.element root).name)).titled k hk
    rfl
  have hmem : x ∈ form.tree.children e := hxy.subset (List.mem_cons_self ..)
  have hwalk : e ∈ form.tree.walk := (hshows.mem_walk hrooted).2 (Tree.lt_of_mem_children hmem)
  have hpairwise : ((form.tree.children e).filterMap form.tree.bind?).Pairwise
      (Bind.Apart g form.prefixes) := by
    rcases (hshows.reads htidy).part e hwalk with ⟨hnone, -⟩ | ⟨below, hpart, hover⟩
    · rw [hnone]
      exact .nil
    · rw [hover.binds]
      rw [hnodes] at hpart
      exact Drawing.apart horderly hcontrols r _ _ hpart
  have hpair : [b, b'].Sublist ((form.tree.children e).filterMap form.tree.bind?) := by
    have hsub := hxy.filterMap form.tree.bind?
    rwa [List.filterMap_cons_some hb, List.filterMap_cons_some hb', List.filterMap_nil] at hsub
  exact List.rel_of_pairwise_cons (hpairwise.sublist hpair) (List.mem_singleton_self _) hnodeset

/-- A schema with an element of the first of some types, which are given. -/
def typed (uses : List AttributeUse) (types : List ComplexType) : Schema where
  target := none
  types := (Schema.empty none).types ++ (types.map .complex).toArray
  elements := #[{ name := ⟨none, "r"⟩, type := some ⟨Schema.builtinCount⟩ }]
  uses := uses.toArray
  typeNames := (Schema.empty none).typeNames
  elementNames := Table.empty.put ⟨none, "r"⟩ ⟨0⟩

/-- A type of text, and another one that extends it by nothing. -/
def texts : Schema :=
  typed []
    [{ name := some ⟨none, "B"⟩, base := some ⟨2⟩, derivation := .extension, content := .simple },
      { name := some ⟨none, "D"⟩, base := some ⟨Schema.builtinCount⟩, derivation := .extension
        content := .simple }]

/-- A type, and two others that extend it by an attribute of one name each. -/
def siblings : Schema :=
  let use : AttributeUse := { decl := { name := ⟨none, "a"⟩, type := some Schema.anyType } }
  let base : TypeId := ⟨Schema.builtinCount⟩
  typed [use, use]
    [{ name := some ⟨none, "B"⟩ },
      { name := some ⟨none, "D"⟩, base := some base, derivation := .extension, uses := [⟨0⟩] },
      { name := some ⟨none, "E"⟩, base := some base, derivation := .extension, uses := [⟨1⟩] }]

section Typed

variable {uses : List AttributeUse} {types : List ComplexType}

/-- The names of such a schema are in order if those of its types and attributes are. -/
theorem named_typed
    (hnames : ∀ t ∈ types, ∀ name ∈ t.name, IsNCName name.localName = true)
    (huses : ∀ use ∈ uses, IsNCName use.decl.name.localName = true) :
    (typed uses types).NCNamed ∧ (typed uses types).TypesNamed := by
  have hbuiltin : (Schema.empty none).types.all fun t =>
      t.name?.all fun name => IsNCName name.localName := by decide +kernel
  refine ⟨⟨fun decl hdecl => ?_, fun use huse => huses use (by simpa [typed] using huse)⟩,
    fun t ht name hname => ?_⟩
  · obtain rfl : decl = { name := ⟨none, "r"⟩, type := some ⟨Schema.builtinCount⟩ } := by
      simpa [typed] using hdecl
    decide
  · rw [typed, Array.mem_append] at ht
    rcases ht with ht | ht
    · have hall := Array.all_eq_true_iff_forall_mem.1 hbuiltin t ht
      rw [hname] at hall
      exact hall
    · obtain ⟨c, hc, rfl⟩ : ∃ c ∈ types, .complex c = t := by simpa using ht
      exact hnames c hc name hname

/-- No name comes twice in such a schema if none does in its types. -/
theorem once_typed (huses : ∀ t ∈ types, t.uses.length ≤ 1)
    (hparticles : ∀ t ∈ types, t.particle.isNone = true) :
    (typed uses types).AttributesOnce ∧ (typed uses types).ElementsOnce := by
  have hbuiltin : (Schema.empty none).types.all fun t => t.complex?.isNone := by decide +kernel
  have hmem {t : TypeId} {c : ComplexType} (hc : (typed uses types).complex? t = some c) :
      c ∈ types := by
    have hmem := Schema.typeDef_mem (Schema.hasType_of_complex (Option.isSome_of_eq_some hc))
    have hdef : ((typed uses types).typeDef t).complex? = some c := hc
    rcases Array.mem_append.1 hmem with hmem | hmem
    · have hall := Array.all_eq_true_iff_forall_mem.1 hbuiltin _ hmem
      rw [hdef] at hall
      cases hall
    · obtain ⟨d, hd, heq⟩ : ∃ d ∈ types, .complex d = (typed uses types).typeDef t := by
        simpa using hmem
      rw [← heq] at hdef
      exact Option.some.inj hdef ▸ hd
  refine ⟨fun t c hc => ?_, fun t c hc => ?_⟩
  · have hlength := huses c (hmem hc)
    rcases hlist : c.uses with _ | ⟨use, _ | ⟨use', rest⟩⟩
    · exact List.nodup_nil
    · exact List.nodup_singleton _
    · rw [hlist] at hlength
      simp at hlength
  · rw [modelChildren, Option.isNone_iff_eq_none.1 (hparticles c (hmem hc))]
    exact List.nodup_nil

theorem findElement_typed :
    (typed uses types).findElement (QName.of (typed uses types).target "r") = some ⟨0⟩ := by
  simp [typed, Schema.findElement, QName.of]

end Typed

/-- Below the bind of a label there are two binds for a nodeset. -/
def isDouble (n : String) (p : NodeKind × Forest NodeKind) : Bool :=
  (p.2.roots.filterMap NodeKind.bind?).map (·.nodeset) = [n, n]

/-- The two binds that a form has for a nodeset where its forest has two. -/
theorem doubled_of_sketched {s : Schema} {n : String}
    (hroot : s.findElement (QName.of s.target "r") = some ⟨0⟩)
    (hsketched : ((ofSchema s {} (some .plain)).sketched "" { root := "r" }).toOption.any
      (fun form => form.nodes.parts.any (isDouble n)) = true) :
    ∃ form, (ofSchema s {} (some .plain)).generate "" { root := "r" } = .ok form ∧
      ∃ e x y b b', [x, y].Sublist (form.tree.children e) ∧ form.tree.bind? x = some b ∧
        form.tree.bind? y = some b' ∧ b.nodeset = n ∧ b'.nodeset = n := by
  obtain ⟨form, hform⟩ := generate_isOk (ofSchema s {} (some .plain)) "" (r := { root := "r" })
    hroot rfl
  obtain ⟨-, f, -, hshows, htidy, -⟩ := generate_shows .plain rfl hform
  rw [← generate_substance (g := ofSchema s {} (some .plain)) .plain rfl, hform] at hsketched
  have hparts : (Grove.erase f).parts.any (isDouble n) = true := hshows.unmarked_eq ▸ hsketched
  obtain ⟨p, hp, hdouble⟩ := List.any_eq_true.1 hparts
  obtain ⟨e, -, -, hover⟩ := (hshows.reads htidy).node p hp
  have hnodesets := of_decide_eq_true hdouble
  rw [← hover.binds] at hnodesets
  obtain ⟨b, bs, hbinds, hb, hrest⟩ := List.map_eq_cons_iff.1 hnodesets
  obtain ⟨b', bs', rfl, hb', -⟩ := List.map_eq_cons_iff.1 hrest
  obtain ⟨before, x, after, hchildren, -, hx, hafter⟩ := List.filterMap_eq_cons_iff.1 hbinds
  obtain ⟨between, y, behind, rfl, -, hy, -⟩ := List.filterMap_eq_cons_iff.1 hafter
  refine ⟨form, hform, e, x, y, b, b', ?_, hx, hy, hb, hb'⟩
  rw [hchildren]
  exact List.sublist_append_of_sublist_right (List.Sublist.cons_cons x
    (List.singleton_sublist.2 (List.mem_append_right _ (List.mem_cons_self ..))))

theorem substitutes_texts : Substitutes.ofSchema texts =
    ⟨⟨[(⟨Schema.builtinCount⟩, [⟨Schema.builtinCount + 1⟩])]⟩⟩ :=
  Substitutes.ofSchema_of_table (by decide +kernel) (by decide +kernel)

theorem substitutes_siblings : Substitutes.ofSchema siblings =
    ⟨⟨[(⟨Schema.builtinCount⟩, [⟨Schema.builtinCount + 1⟩, ⟨Schema.builtinCount + 2⟩])]⟩⟩ :=
  Substitutes.ofSchema_of_table (by decide +kernel) (by decide +kernel)

/-- No type lists a name twice, and still there are two binds with the same parent for the same
nodeset: both types have one for the text. -/
theorem nodesets_doubled : texts.AttributesOnce ∧ texts.ElementsOnce ∧ ∃ form,
    (ofSchema texts {} (some .plain)).generate "" { root := "r" } = .ok form ∧
      ∃ e x y b b', form.tree.parent x = some e ∧ form.tree.parent y = some e ∧ x ≠ y ∧
        form.tree.bind? x = some b ∧ form.tree.bind? y = some b' ∧ b.nodeset = b'.nodeset := by
  have honce : texts.AttributesOnce ∧ texts.ElementsOnce := once_typed (by decide) (by decide)
  have hsketched : ((ofSchema texts {} (some .plain)).sketched "" { root := "r" }).toOption.any
      (fun form => form.nodes.parts.any (isDouble ".")) = true := by
    rw [ofSchema, substitutes_texts]
    decide +kernel
  obtain ⟨form, hform, e, x, y, b, b', hxy, hx, hy, hb, hb'⟩ :=
    doubled_of_sketched findElement_typed hsketched
  obtain ⟨-, f, -, hshows, -⟩ := generate_shows .plain rfl hform
  obtain ⟨top, hrooted⟩ := generate_rooted .plain hform
  have hnodup := (hshows.toHolds.isForest fun _ => hshows.mem_ids hrooted).nodup e
  have hparent {z : NodeId} (hz : z ∈ [x, y]) : form.tree.parent z = some e :=
    (hrooted.matched z e).2 (hxy.subset hz)
  refine ⟨honce.1, honce.2, form, hform, e, x, y, b, b', hparent (by simp), hparent (by simp), ?_,
    hx, hy, hb.trans hb'.symm⟩
  simpa using hnodup.sublist hxy

theorem nodesets_apart_siblings : ∃ form,
    (ofSchema siblings {} (some .plain)).generate "" { root := "r" } = .ok form ∧
      ∃ e x y b b', [x, y].Sublist (form.tree.children e) ∧ form.tree.bind? x = some b ∧
        form.tree.bind? y = some b' ∧ b.nodeset = "@a" ∧ b'.nodeset = "@a" ∧
        let g := ofSchema siblings {} (some .plain)
        ∃ declared t t' step, [t, t'].Sublist (g.candidates declared) ∧ step ∈ g.listed t ∧
          b'.AddedFor g form.prefixes t' step := by
  obtain ⟨hnamed, htypes⟩ : siblings.NCNamed ∧ siblings.TypesNamed :=
    named_typed (by decide) (by decide)
  obtain ⟨huses, hchildren⟩ : siblings.AttributesOnce ∧ siblings.ElementsOnce :=
    once_typed (by decide) (by decide)
  have hsketched : ((ofSchema siblings {} (some .plain)).sketched "" { root := "r" }).toOption.any
      (fun form => form.nodes.parts.any (isDouble "@a")) = true := by
    rw [ofSchema, substitutes_siblings]
    decide +kernel
  obtain ⟨form, hform, e, x, y, b, b', hxy, hx, hy, hb, hb'⟩ :=
    doubled_of_sketched findElement_typed hsketched
  refine ⟨form, hform, e, x, y, b, b', hxy, hx, hy, hb, hb', ?_⟩
  refine (nodesets_apart siblings {} hnamed htypes huses hchildren .plain hform hxy hx hy
    (hb.trans hb'.symm)).resolve_left ?_
  rw [hb]
  decide

end Generator

end SchemaForms
