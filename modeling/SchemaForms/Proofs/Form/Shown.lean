import SchemaForms.Proofs.Form.Visibility

/-!
What a form shows.  Each switch of a form stands for an element with a bind, and each of its cases
shows the fields of this bind that are relevant for the type of the case: no relevant field is
hidden.
-/

namespace SchemaForms

open Grove (ids at? erase tops bindTops)
open Forest (tree leaf)

theorem NodeKind.isBoundTo_iff {k : NodeKind} {id : String} :
    k.isBoundTo id = true ↔ ∃ c, k.control? = some c ∧ c.bind = some id := by
  simp [NodeKind.isBoundTo, Option.bind_eq_some_iff]

namespace Form

/-- The controls below a node, in document order. -/
def controlsBelow (form : Form) (n : NodeId) : List Control :=
  (form.tree.descendants n).filterMap form.tree.control?

/-- The case at a node is for a type of the element of a bind, for which its first control stands.
It shows those of the fields below the bind that are relevant for the type, other than the text. -/
structure CaseShows (g : Generator) (form : Form) (owner : NodeId) (id : String) (t : TypeId)
    (n : NodeId) : Prop where
  labelled : (form.tree.kind n).caseLabel? = some (caption (g.schema.displayName t))
  boxed : (form.controlsBelow n).head?.bind (·.bind) = some id
  shown : ∃ value, g.typeText form.prefixes t = some value ∧
    ∀ m ∈ form.tree.children owner, ∀ b, form.tree.kind m = .bind b → b.nodeset ≠ "." →
      b.Concerns value → ∃ c ∈ form.controlsBelow n, c.bind = some b.id

/-- The switch at a node is for an element with a bind: there is a case for each of the types that
the element may have, in order, and the case shows what is relevant for its type. -/
def SwitchShows (g : Generator) (form : Form) (n : NodeId) : Prop :=
  ∃ id t x owner b, (g.schema.element id).type = some t ∧ 2 ≤ (g.candidates t).length ∧
    form.prefixes.textOf (g.schema.element id).name = some x ∧
    owner ∈ form.tree.walk ∧ form.tree.kind owner = .bind b ∧
    (b.nodeset = x ∨ b.nodeset = "/" ++ x) ∧
    List.Forall₂ (form.CaseShows g owner b.id) (g.candidates t) (form.tree.children n)

/-- The case at a node is for a type of the element of a bind, for which its first control stands,
and hides a field: a bind below that bind, other than the text, that is relevant for the type but
has no control in the case. -/
structure CaseHides (g : Generator) (form : Form) (t : TypeId) (n : NodeId) : Prop where
  labelled : (form.tree.kind n).caseLabel? = some (caption (g.schema.displayName t))
  hidden : ∃ owner b m field value, form.tree.kind owner = .bind b ∧
    (form.controlsBelow n).head?.bind (·.bind) = some b.id ∧
    m ∈ form.tree.children owner ∧ form.tree.kind m = .bind field ∧ field.nodeset ≠ "." ∧
    g.typeText form.prefixes t = some value ∧ field.Concerns value ∧
    ∀ c ∈ form.controlsBelow n, c.bind ≠ some field.id

end Form

namespace Grove

variable {f : Grove}

/-- Where no markup stands at the top, the trees of a grove are those of its erasure. -/
theorem trees_erase (h : ∀ a ∈ f.roots, ¬ a.2.isMarkup) :
    (erase f).trees = f.trees.map fun p => (p.1.2, erase p.2) := by
  induction f with
  | nil => rfl
  | cons a below after _ ih =>
    rw [erase, if_neg (h a (List.mem_cons_self ..)), Forest.trees, Forest.trees, List.map_cons,
      ih fun a' ha' => h a' (List.mem_cons_of_mem _ ha')]

theorem mem_parts_of_at? {x : NodeId} {k : NodeKind} {b : Grove} (h : at? x f = some (k, b)) :
    ((x, k), b) ∈ f.parts := by
  obtain ⟨⟨⟨x', k'⟩, b'⟩, hfind, heq⟩ := Option.map_eq_some_iff.1 h
  obtain rfl : x' = x := by simpa using (Forest.find_mem hfind).2.2
  cases heq
  exact Forest.mem_parts_of_find hfind

theorem map_trees (f : Grove) : f.trees.map (·.1.1) = tops f := by
  induction f with
  | nil => rfl
  | cons a below after _ ih => rw [Forest.trees, List.map_cons, ih, tops_cons]

end Grove

theorem Forest.trees_subset {α : Type} (f : Forest α) : f.trees ⊆ f.parts := by
  induction f with
  | nil => exact List.Subset.refl _
  | cons a below after _ ih =>
    exact List.cons_subset_cons _ (List.subset_append_of_subset_right _ ih)

namespace Tree

variable {t : Tree} {f : Grove}

/-- The cases that hang in a switch are the trees below it, markup left out, with the same controls
below them. -/
theorem Shows.cases_at (h : t.Shows f) (hseated : t.Seated) {n : NodeId} {c : Control} {b : Grove}
    (hat : at? n f = some (.control c, b)) (hc : c.kind = .switch) :
    List.Forall₂ (fun p m => t.kind m = p.1 ∧ (t.descendants m).filterMap t.control? =
      p.2.labels.filterMap NodeKind.control?) (erase b).trees (t.children n) := by
  obtain ⟨hkind, hchildren, hlinks⟩ := links_at? h.links hat
  have hswitch : (t.kind n).isSwitch = true := by
    rw [hkind]
    simp [NodeKind.isSwitch, hc]
  have hbare : ∀ a ∈ b.roots, ¬ a.2.isMarkup := by
    intro a ha
    rw [← kind_of_mem_labels hlinks (Forest.mem_labels_of_mem_roots ha),
      hseated n hswitch a.1 (hchildren ▸ List.mem_map_of_mem ha)]
    exact Bool.false_ne_true
  have hcontrol : ∀ k : NodeKind, k.isMarkup → k.control? = none := by
    intro k hk
    cases k with
    | markup m => rfl
    | _ => cases hk
  rw [Grove.trees_erase hbare, hchildren, ← Grove.map_trees, List.forall₂_map_left_iff,
    List.forall₂_map_right_iff, List.forall₂_same]
  rintro ⟨⟨m, k⟩, inner⟩ hp
  have hpart := Grove.mem_parts_of_at? hat
  have hmem : ((m, k), inner) ∈ (tree (n, .control c) b).parts := by
    rw [Forest.parts_tree]
    exact List.mem_cons_of_mem _ (Forest.trees_subset b hp)
  have hinner := Grove.at?_of_mem h.nodup (Forest.parts_subset_of_mem hpart hmem)
  obtain ⟨hm, -, hbelow⟩ := links_at? h.links hinner
  exact ⟨hm, by rw [h.descendants hinner, filterMap_ids hbelow, Grove.filterMap_erase hcontrol]⟩

end Tree

theorem Schema.name?_of_complex? {s : Schema} {t : TypeId} {c : ComplexType}
    (h : s.complex? t = some c) : (s.typeDef t).name? = c.name := by
  unfold Schema.complex? at h
  cases hdef : s.typeDef t with
  | complex d =>
    rw [hdef] at h
    exact congrArg ComplexType.name (Option.some.inj h)
  | _ =>
    rw [hdef] at h
    cases h

namespace Generator

variable {g : Generator}

/-- What the content of a form shows. -/
theorem exposing_filled (hg : g.Sound) (root : ElementId)
    (hclear : g.ClearBelow root) :
    let named := Synthesis.qualified (g.schema.element root).name Synthesis.initial
    let drawn := Sketch.form g root named.1.1 named.1.2 named.2
    Exposing g drawn.2.prefixes (Kid.holdings drawn.1.binds) drawn.1.controls := by
  intro named drawn
  have hcalm : Synthesis.initial.Abides named.2 := Calm.qualified (g.schema.element root).name _
  have hwritten : Sketch.WrittenAs g root named.2.prefixes ("/" ++ named.1.2) :=
    ⟨_, textOf_qualified (g.schema.element root).name _, .inr rfl⟩
  let skeleton := prepareRoot (bareInstance (g.schema.element root) named.1.1)
  obtain ⟨-, -, new, hnew, -, -, hexposing⟩ := Sketch.element_sprouts hg
    (g.schema.elements.size + 1) skeleton root ("/" ++ named.1.2) .once {}
    (Sketch.opened named.2) rfl (hcalm.prefixes.apart PrefixTable.apart_empty) hclear hwritten
  have hkids : new = drawn.1.binds := hnew.symm
  rw [hkids] at hexposing
  exact hexposing

/-- The bind of a holding is a node of the form, and the binds that hang below are those that it
holds. -/
theorem node_of_holding {form : Form} {f : Grove} {d : Drawing} {r : Request}
    {data : Option Xml.Element} (hshows : form.tree.Shows f) (htidy : f.Tidy)
    (hnodes : erase f = d.forest r data) {owner nodeset : String} {fields : Forest Bind}
    (h : (owner, nodeset, fields) ∈ Kid.holdings d.binds) :
    ∃ n b, n ∈ form.tree.walk ∧ form.tree.kind n = .bind b ∧ b.id = owner ∧
      b.nodeset = nodeset ∧
      ∀ m ∈ form.tree.children n, ∀ b', form.tree.kind m = .bind b' → b' ∈ fields.roots := by
  obtain ⟨⟨b, below⟩, hpart, heq⟩ := List.mem_map.1 h
  cases heq
  have hparts : (.bind b, below.map .bind) ∈ (erase f).parts := by
    rw [hnodes, Drawing.forest]
    have hmem : (NodeKind.bind b, below.map .bind) ∈
        ((Kid.forest d.binds).map NodeKind.bind).parts := by
      rw [Forest.parts_map]
      exact List.mem_map.2 ⟨_, hpart, rfl⟩
    simp [leaf, hmem]
  obtain ⟨n, hn, hkind, hover⟩ := (hshows.reads htidy).node _ hparts
  refine ⟨n, b, hn, hkind, rfl, rfl, fun m hm b' hb' => ?_⟩
  have hmem : b' ∈ (form.tree.children n).filterMap form.tree.bind? :=
    List.mem_filterMap.2 ⟨m, hm, by rw [Tree.bind?, hb']; rfl⟩
  rw [hover.binds, Forest.roots_map, List.filterMap_map] at hmem
  simpa [Function.comp_def, NodeKind.bind?] using hmem

/-- No relevant field is hidden: each switch of a form is for an element with a bind, has a case for
each of the types that this element may have, and in the case a control for every field of the bind
that is relevant for the type, the text apart. -/
theorem no_relevant_field_hidden (s : Schema) (settings : Settings) {l : Layout} (hl : l.Standard)
    {time : String} {r : Request} {form : Form}
    (h : (ofSchema s settings (some l)).generate time r = .ok form)
    (hg : (ofSchema s settings (some l)).Sound)
    (hclear : ∀ root, s.findElement (QName.of s.target r.root) = some root →
      (ofSchema s settings (some l)).ClearBelow root)
    {n : NodeId} (hn : n ∈ form.tree.walk) {c : Control} (hkind : form.tree.kind n = .control c)
    (hc : c.kind = .switch) :
    form.SwitchShows (ofSchema s settings (some l)) n := by
  obtain ⟨root, f, hroot, hshows, htidy, hnodes, hnamespaces, -⟩ := generate_shows hl rfl h
  obtain ⟨⟨k, below⟩, hat⟩ := Grove.at?_eq_some_of_mem (hshows.walk ▸ hn)
  obtain rfl := (Tree.links_at? hshows.links hat).1.symm.trans hkind
  have hcases := hshows.cases_at (generate_seated hl h) hat hc
  have hpart := Grove.mem_parts_erase hat Bool.false_ne_true
  rw [hnodes] at hpart
  have hexposing := exposing_filled hg root (hclear root hroot)
  dsimp only at hexposing hnamespaces
  rw [← Form.prefixes_eq hnamespaces] at hexposing
  obtain ⟨id, t, owner, nodeset, fields, htype, hlength, hholding, ⟨x, hx, hpath⟩, hall⟩ :=
    hexposing _ (switch_part_forest _ _ _ hpart hc) (by simp [NodeKind.isSwitch, hc])
  obtain ⟨m, b, hm, hbind, rfl, rfl, hfields⟩ := node_of_holding hshows htidy hnodes hholding
  refine ⟨id, t, x, m, b, htype, hlength, hx, hm, hbind, hpath, ?_⟩
  rw [List.forall₂_iff_get] at hall hcases ⊢
  refine ⟨hall.1.trans hcases.1, fun i hi hi' => ?_⟩
  obtain ⟨hlabel, ⟨group, inner, hbelow, hbound⟩, value, hvalue, hshown⟩ :=
    hall.2 i hi (hall.1 ▸ hi)
  obtain ⟨hcase, hcontrols⟩ := hcases.2 i (hall.1 ▸ hi) hi'
  refine ⟨hcase.symm ▸ hlabel, ?_, value, hvalue, fun field hfield b' hb' hdot hconcerns => ?_⟩
  · obtain ⟨control, hgroup, hid⟩ := NodeKind.isBoundTo_iff.1 hbound
    rw [Form.controlsBelow, hcontrols, hbelow]
    simp [tree, hgroup, hid]
  · obtain ⟨k, hk, hid⟩ := hshown b' (hfields field hfield b' hb') hdot hconcerns
    obtain ⟨control, hkind, hbind⟩ := NodeKind.isBoundTo_iff.1 hid
    rw [Form.controlsBelow, hcontrols]
    exact ⟨control, List.mem_filterMap.2 ⟨k, hk, hkind⟩, hbind⟩

instance (values : List String) : Decidable (Unspaced values) :=
  inferInstanceAs (Decidable (∀ value ∈ values, ' ' ∉ value.toList))

/-- What is below a case for a value of `xsi:type` stands for a bind, and has no control for one of
those fields of it that are always relevant or, if the value is one of a list, relevant for that
list. -/
def Hidden (listed : List String) (b : Bind) (fields : Forest NodeKind) (value : String)
    (below : Forest NodeKind) : Prop :=
  below.controls.head?.bind (·.bind) = some b.id ∧
    ∃ field ∈ fields.roots.filterMap NodeKind.bind?, field.nodeset ≠ "." ∧
      (field.relevant = none ∨ field.relevant = some (anyOf listed) ∧ value ∈ listed) ∧
        ∀ c ∈ below.controls, c.bind ≠ some field.id

instance (listed : List String) (b : Bind) (fields : Forest NodeKind) (value : String)
    (below : Forest NodeKind) : Decidable (Hidden listed b fields value below) :=
  inferInstanceAs (Decidable (_ ∧ ∃ field ∈ fields.roots.filterMap NodeKind.bind?,
    field.nodeset ≠ "." ∧
      (field.relevant = none ∨ field.relevant = some (anyOf listed) ∧ value ∈ listed) ∧
        ∀ c ∈ below.controls, c.bind ≠ some field.id))

/-- A switch of a forest, with cases for given types and their values of `xsi:type`, hides a field
in one of them. -/
def SomeHidden (s : Schema) (types : List (TypeId × String)) (listed : List String)
    (f : Forest NodeKind) : Prop :=
  ∃ p ∈ f.parts, p.1.isSwitch = true ∧ ∃ q ∈ f.parts, ∃ b ∈ q.1.bind?.toList,
    ∃ c ∈ types.zip p.2.trees, c.2.1.caseLabel? = some (caption (s.displayName c.1.1)) ∧
      Hidden listed b q.2 c.1.2 c.2.2

instance (s : Schema) (types : List (TypeId × String)) (listed : List String)
    (f : Forest NodeKind) : Decidable (SomeHidden s types listed f) :=
  inferInstanceAs (Decidable (∃ p ∈ f.parts, p.1.isSwitch = true ∧ ∃ q ∈ f.parts,
    ∃ b ∈ q.1.bind?.toList, ∃ c ∈ types.zip p.2.trees,
      c.2.1.caseLabel? = some (caption (s.displayName c.1.1)) ∧ Hidden listed b q.2 c.1.2 c.2.2))

/-- What a switch in the forest of a form hides, a switch of the form hides. -/
theorem caseHides_of_hidden (hl : g.layout.Standard)
    (hsubstitutes : g.substitutes = Substitutes.ofSchema g.schema) {time : String} {r : Request}
    {form : Form} (h : g.generate time r = .ok form) {types : List (TypeId × String)}
    (htypes : ∀ c ∈ types, g.typeText form.prefixes c.1 = some c.2) {listed : List String}
    (hne : listed ≠ []) (hlisted : Unspaced listed)
    (hhidden : SomeHidden g.schema types listed form.tree.unmarked) :
    ∃ n ∈ form.tree.walk, (form.tree.kind n).isSwitch = true ∧ ∃ m ∈ form.tree.children n,
      ∃ c ∈ types, form.CaseHides g c.1 m := by
  obtain ⟨root, f, -, htree, htidy, -⟩ := generate_shows hl hsubstitutes h
  obtain ⟨⟨k, cases⟩, hp, hswitch, ⟨kb, fields⟩, hq, b, hb, ⟨⟨t, value⟩, ⟨kc, below⟩⟩, hcase,
    hlabel, hboxed, field, hfield, hdot, hrelevant, hnone⟩ := hhidden
  rw [htree.unmarked_eq] at hp hq
  obtain ⟨n, inner, hat, rfl⟩ := Grove.at?_of_mem_parts htree.nodup hp
  obtain ⟨c, rfl, hc⟩ : ∃ c, k = .control c ∧ c.kind = .switch := by
    cases k with
    | control c => exact ⟨c, rfl, by simpa [NodeKind.isSwitch] using hswitch⟩
    | _ => cases hswitch
  have hkind := (Tree.links_at? htree.links hat).1
  have hcases := htree.cases_at (generate_seated hl h) hat hc
  obtain ⟨m, hm, hmkind, hcontrols⟩ : ∃ m ∈ form.tree.children n, form.tree.kind m = kc ∧
      form.controlsBelow m = below.controls := by
    obtain ⟨i, hi, heq⟩ := List.getElem_of_mem (List.of_mem_zip hcase).2
    rw [List.forall₂_iff_get] at hcases
    obtain ⟨hcase, hcontrols⟩ := hcases.2 i hi (hcases.1 ▸ hi)
    rw [List.get_eq_getElem, List.get_eq_getElem, heq] at hcase hcontrols
    exact ⟨_, List.getElem_mem _, hcase, hcontrols⟩
  obtain ⟨owner, -, howner, hover⟩ := (htree.reads htidy).node _ hq
  have hbind : kb = .bind b := by
    cases kb with
    | bind b' => exact congrArg _ (Option.some.inj (Option.mem_toList.1 hb))
    | _ => cases hb
  rw [← hover.binds, List.mem_filterMap] at hfield
  obtain ⟨x, hx, hxfield⟩ := hfield
  have hxkind : form.tree.kind x = .bind field := by
    rw [Tree.bind?] at hxfield
    cases hk : form.tree.kind x with
    | bind b =>
      rw [hk] at hxfield
      exact congrArg _ (Option.some.inj hxfield)
    | _ =>
      rw [hk] at hxfield
      cases hxfield
  have hconcerns : field.Concerns value := by
    rcases hrelevant with hnone | ⟨hsome, hmem⟩
    · exact Bind.concerns_of_none hnone value
    · exact (Bind.concerns_anyOf hne hlisted hsome).2 hmem
  have hmem := (List.of_mem_zip hcase).1
  refine ⟨n, htree.walk ▸ (Grove.mem_of_at? hat).1, hkind.symm ▸ hswitch, m, hm, _, hmem,
    hmkind.symm ▸ hlabel, owner, b, x, field, value, howner.trans hbind, ?_, hx, hxkind, hdot,
    htypes _ hmem, hconcerns, ?_⟩
  · rwa [hcontrols]
  · rwa [hcontrols]

/-! A schema whose types are given, for an instance and for what the conditions are needed for. -/

/-- A content of one element. -/
def single : Particle := .sequence [.element .once ⟨1⟩]

/-- That content, and an element of its own. -/
def double : Particle := .sequence [single, .element .once ⟨2⟩]

/-- A schema with an element of the first of some types, which are given. -/
def choosing (attributes : List String) (child : String) (types : List ComplexType) : Schema where
  target := none
  types := (Schema.empty none).types ++ (types.map .complex).toArray
  elements := #[{ name := ⟨none, "r"⟩, type := some ⟨Schema.builtinCount⟩ },
    { name := ⟨none, child⟩, type := some Schema.anyType },
    { name := ⟨none, "x"⟩, type := some Schema.anyType }]
  uses := (attributes.map fun a =>
    { decl := { name := ⟨none, a⟩, type := some Schema.anyType } }).toArray
  typeNames := (Schema.empty none).typeNames
  elementNames := Table.empty.put ⟨none, "r"⟩ ⟨0⟩

/-- Each of some types extends an earlier one, no name is given twice, and the contents are those of
one or two elements. -/
structure Extending (types : List ComplexType) : Prop where
  base : ∀ (i : Nat) (t : ComplexType), types[i]? = some t → ∀ b ∈ t.base,
    ∃ (j : Nat) (d : ComplexType),
      b = ⟨Schema.builtinCount + j⟩ ∧ j < i ∧ types[j]? = some d ∧ t.Extends d
  names : types.Pairwise fun a b => a.name = b.name → a.name = none
  contents : ∀ t ∈ types, t.particle = some single ∨ t.particle = some double

section Choosing

variable {attributes : List String} {child : String} {types : List ComplexType}

theorem typeDef_choosing (t : TypeId) : (choosing attributes child types).typeDef t =
    if t.index < Schema.builtinCount then (Schema.empty none).typeDef t
    else ((types[t.index - Schema.builtinCount]?).map TypeDef.complex).getD .any := by
  have hsize : (Schema.empty none).types.size = Schema.builtinCount := by decide +kernel
  simp only [Schema.typeDef, choosing, Array.getD_eq_getD_getElem?, Array.getElem?_append, hsize]
  split
  · rfl
  · simp

theorem complex?_choosing {t : TypeId} {c : ComplexType} :
    (choosing attributes child types).complex? t = some c ↔
      ∃ i, t = ⟨Schema.builtinCount + i⟩ ∧ types[i]? = some c := by
  have hbuiltin : ∀ i < Schema.builtinCount, ((Schema.empty none).typeDef ⟨i⟩).complex?.isNone := by
    decide +kernel
  obtain ⟨n⟩ := t
  rw [Schema.complex?, typeDef_choosing]
  split
  · next hlt =>
    rw [Option.isNone_iff_eq_none.1 (hbuiltin n hlt)]
    refine ⟨fun h => (by cases h), fun h => ?_⟩
    obtain ⟨i, hi, -⟩ := h
    cases hi
    exact absurd hlt (Nat.not_lt.2 (Nat.le_add_right _ i))
  · next hle =>
    obtain ⟨i, rfl⟩ := Nat.exists_eq_add_of_le (Nat.not_lt.1 hle)
    simp only [Nat.add_sub_cancel_left, TypeId.mk.injEq, Nat.add_left_cancel_iff,
      exists_eq_left']
    cases types[i]? with
    | none => simp [TypeDef.complex?]
    | some d => simp [TypeDef.complex?]

/-- Types of which each extends an earlier one make a regular type graph. -/
theorem regular_choosing (htypes : Extending types) (hchild : child ≠ "x") :
    (choosing attributes child types).Regular := by
  have hbuiltin : ∀ i < Schema.builtinCount,
      ∀ b ∈ ((Schema.empty none).typeDef ⟨i⟩).base?, b.index < i := by
    decide +kernel
  have hless {a b : TypeId} (h : (choosing attributes child types).base? a = some b) :
      b.index < a.index := by
    rw [Schema.base?, typeDef_choosing] at h
    split at h
    · next hlt => exact hbuiltin a.index hlt b h
    · next hle =>
      obtain ⟨i, hi⟩ := Nat.exists_eq_add_of_le (Nat.not_lt.1 hle)
      rw [hi, Nat.add_sub_cancel_left] at h
      cases ht : types[i]? with
      | none =>
        rw [ht] at h
        cases h
      | some t =>
        rw [ht] at h
        obtain ⟨j, -, rfl, hj, -⟩ := htypes.base i t ht b h
        rw [hi]
        exact Nat.add_lt_add_left hj _
  constructor
  · rw [Option.eq_none_iff_forall_ne_some]
    intro c hc
    obtain ⟨i, hi, -⟩ := complex?_choosing.1 hc
    have hzero : 0 = Schema.builtinCount + i := congrArg TypeId.index hi
    exact absurd hzero (Nat.ne_of_lt (Nat.add_pos_left (by decide) i))
  · have hdescends {a b : TypeId} (h : Relation.TransGen
        (Schema.Leads (choosing attributes child types).base?) a b) : b.index < a.index := by
      induction h with
      | single hab => exact hless hab
      | tail _ hbc ih => exact Nat.lt_trans (hless hbc) ih
    exact fun t ht => Nat.lt_irrefl _ (hdescends ht)
  · intro a b name ha hb hname hname'
    obtain ⟨c, hc⟩ := Option.isSome_iff_exists.1 ha
    obtain ⟨c', hc'⟩ := Option.isSome_iff_exists.1 hb
    obtain ⟨i, rfl, hi⟩ := complex?_choosing.1 hc
    obtain ⟨j, rfl, hj⟩ := complex?_choosing.1 hc'
    rw [Schema.name?_of_complex? hc] at hname
    rw [Schema.name?_of_complex? hc'] at hname'
    have hsame {i j : Nat} {c c' : ComplexType} (hi : types[i]? = some c)
        (hj : types[j]? = some c') (hc : c.name = some name) (hc' : c'.name = some name) :
        ¬ i < j := by
      intro hlt
      obtain ⟨hi', rfl⟩ := List.getElem?_eq_some_iff.1 hi
      obtain ⟨hj', rfl⟩ := List.getElem?_eq_some_iff.1 hj
      have := List.pairwise_iff_getElem.1 htypes.names i j hi' hj' hlt (hc.trans hc'.symm)
      rw [hc] at this
      cases this
    obtain rfl : i = j := Nat.le_antisymm (Nat.not_lt.1 (hsame hj hi hname' hname))
      (Nat.not_lt.1 (hsame hi hj hname hname'))
    rfl
  · intro t c p hc hp
    obtain ⟨i, -, hi⟩ := complex?_choosing.1 hc
    rcases htypes.contents c (List.mem_of_getElem? hi) with h | h
    · cases h.symm.trans hp
      exact ⟨_, _, _, rfl⟩
    · cases h.symm.trans hp
      exact ⟨_, _, _, rfl⟩
  · intro t c hc
    obtain ⟨i, -, hi⟩ := complex?_choosing.1 hc
    rcases htypes.contents c (List.mem_of_getElem? hi) with h | h
    · rw [modelChildren, h]
      exact List.nodup_singleton _
    · have hchildren : modelChildren c = [(⟨1⟩, .once), (⟨2⟩, .once)] := by
        rw [modelChildren, h]
        rfl
      rw [hchildren]
      simpa [choosing, Schema.element] using hchild
  · intro t c base d hc hbase hd
    obtain ⟨i, -, hi⟩ := complex?_choosing.1 hc
    obtain ⟨j, d', rfl, -, hj, hextends⟩ := htypes.base i c hi base hbase
    obtain ⟨j', hj', hd'⟩ := complex?_choosing.1 hd
    obtain rfl : j = j' := by simpa using hj'
    cases hj.symm.trans hd'
    exact hextends

/-- The elements that types list have no types to choose from. -/
theorem plain_choosing (htypes : Extending types) {t : TypeId} {id : ElementId} {occurs : Occurs}
    (h : Member.child id occurs ∈
      (ofSchema (choosing attributes child types) {} (some .plain)).members t) :
    (ofSchema (choosing attributes child types) {} (some .plain)).Plain id := by
  obtain ⟨c, hc, hmem⟩ := child_mem_members.1 h
  obtain ⟨i, -, hi⟩ := complex?_choosing.1 hc
  have hid : id = ⟨1⟩ ∨ id = ⟨2⟩ := by
    rcases htypes.contents c (List.mem_of_getElem? hi) with h | h
    · have hchildren : modelChildren c = [(⟨1⟩, .once)] := by
        rw [modelChildren, h]
        rfl
      rw [hchildren, List.mem_singleton, Prod.mk.injEq] at hmem
      exact .inl hmem.1
    · have hchildren : modelChildren c = [(⟨1⟩, .once), (⟨2⟩, .once)] := by
        rw [modelChildren, h]
        rfl
      rw [hchildren, List.mem_cons, List.mem_singleton, Prod.mk.injEq, Prod.mk.injEq] at hmem
      exact hmem.imp And.left And.left
  intro u hu husome
  have hany : u = Schema.anyType := by
    rcases hid with rfl | rfl
    · exact (Option.some.inj hu).symm
    · exact (Option.some.inj hu).symm
  obtain ⟨c', hc'⟩ := Option.isSome_iff_exists.1 husome
  obtain ⟨j, hj, -⟩ := complex?_choosing.1 (hany ▸ hc')
  have hzero : 0 = Schema.builtinCount + j := congrArg TypeId.index hj
  exact absurd hzero (Nat.ne_of_lt (Nat.add_pos_left (by decide) j))

/-- The types that the first type leaves to choose from can be told apart, if this shows for each
name that two of them list. -/
theorem clear_choosing (htypes : Extending types) {ids : List TypeId}
    (hsub : Substitutes.ofSchema (choosing attributes child types) =
      ⟨⟨[(⟨Schema.builtinCount⟩, ids)]⟩⟩)
    (hshared : let g := ofSchema (choosing attributes child types) {} (some .plain)
      ∀ a ∈ ⟨Schema.builtinCount⟩ :: ids, ∀ b ∈ ⟨Schema.builtinCount⟩ :: ids, ∀ step ∈ g.listed a,
        step ∈ g.listed b → ∃ c ∈ a :: ancestors g.schema a, c ∈ b :: ancestors g.schema b ∧
          step ∈ g.listed c) {t : TypeId}
    (hlength : 2 ≤ ((ofSchema (choosing attributes child types) {} (some .plain)).candidates
      t).length) :
    t = ⟨Schema.builtinCount⟩ ∧
      (ofSchema (choosing attributes child types) {} (some .plain)).Clear t := by
  let g := ofSchema (choosing attributes child types) {} (some .plain)
  have hsubstitutes : g.substitutes.of t = if ⟨Schema.builtinCount⟩ = t then ids else [] := by
    have heq : g.substitutes = ⟨⟨[(⟨Schema.builtinCount⟩, ids)]⟩⟩ := hsub
    rw [heq]
    by_cases ht : ⟨Schema.builtinCount⟩ = t
    · simp [Substitutes.of, Table.get?, Table.find, ht]
    · simp [Substitutes.of, Table.get?, Table.find, ht]
  have ht : ⟨Schema.builtinCount⟩ = t := by
    by_contra ht
    change 2 ≤ (g.candidates t).length at hlength
    rw [candidates, hsubstitutes, if_neg ht, List.append_nil] at hlength
    split at hlength
    · exact absurd hlength (by decide)
    · exact absurd hlength (by simp)
  have hsubset : g.candidates t ⊆ ⟨Schema.builtinCount⟩ :: ids := by
    rw [candidates, hsubstitutes, if_pos ht, ht]
    split
    · exact List.subset_cons_self ..
    · exact List.Subset.refl _
  refine ⟨ht.symm, ?_, fun a _ id occurs hid => plain_choosing htypes hid⟩
  intro a ha b hb step hstep hstep'
  obtain ⟨c, hca, hcb, hc⟩ := hshared a (hsubset ha) b (hsubset hb) step hstep hstep'
  exact ⟨c, List.mem_cons.1 hca, List.mem_cons.1 hcb, hc⟩

theorem findElement_choosing : (choosing attributes child types).findElement
    (QName.of (choosing attributes child types).target "r") = some ⟨0⟩ := by
  simp [choosing, Schema.findElement, QName.of]

end Choosing

/-- The type graph of a schema is regular, and its types can be told apart where there are several;
yet a switch of its form hides a field that is relevant for the type of a case. -/
structure HidesField (s : Schema) : Prop where
  regular : s.Regular
  clear : ∀ t, 2 ≤ ((ofSchema s {} (some .plain)).candidates t).length →
    (ofSchema s {} (some .plain)).Clear t
  hidden : ∃ form, (ofSchema s {} (some .plain)).generate "" { root := "r" } = .ok form ∧
    ∃ n ∈ form.tree.walk, (form.tree.kind n).isSwitch = true ∧ ∃ m ∈ form.tree.children n,
      ∃ declared, ∃ t ∈ (ofSchema s {} (some .plain)).candidates declared,
        form.CaseHides (ofSchema s {} (some .plain)) t m

section Choosing

variable {attributes : List String} {child : String} {types : List ComplexType}

theorem hides_choosing (htypes : Extending types) (hchild : child ≠ "x") {ids : List TypeId}
    (hsub : Substitutes.ofSchema (choosing attributes child types) =
      ⟨⟨[(⟨Schema.builtinCount⟩, ids)]⟩⟩)
    (hshared : let g := ofSchema (choosing attributes child types) {} (some .plain)
      ∀ a ∈ ⟨Schema.builtinCount⟩ :: ids, ∀ b ∈ ⟨Schema.builtinCount⟩ :: ids, ∀ step ∈ g.listed a,
        step ∈ g.listed b → ∃ c ∈ a :: ancestors g.schema a, c ∈ b :: ancestors g.schema b ∧
          step ∈ g.listed c)
    (values listed : List String)
    (hvalues : ∀ prefixes, let g := ofSchema (choosing attributes child types) {} (some .plain)
      (⟨Schema.builtinCount⟩ :: ids).map (g.typeText prefixes) = values.map some)
    (hfirst : ((choosing attributes child types).complex? ⟨Schema.builtinCount⟩).any (·.isAbstract)
      = false)
    (hne : listed ≠ []) (hlisted : Unspaced listed)
    (hhidden : ((ofSchema (choosing attributes child types) {} (some .plain)).sketched ""
      { root := "r" }).toOption.any (fun s => SomeHidden (choosing attributes child types)
        ((⟨Schema.builtinCount⟩ :: ids).zip values) listed s.nodes) = true) :
    HidesField (choosing attributes child types) := by
  let g := ofSchema (choosing attributes child types) {} (some .plain)
  refine ⟨regular_choosing htypes hchild, fun t ht => (clear_choosing htypes hsub hshared ht).2, ?_⟩
  obtain ⟨form, hform⟩ := generate_isOk g "" (r := { root := "r" }) findElement_choosing rfl
  have hcandidates : g.candidates ⟨Schema.builtinCount⟩ = ⟨Schema.builtinCount⟩ :: ids := by
    have heq : g.substitutes = ⟨⟨[(⟨Schema.builtinCount⟩, ids)]⟩⟩ := hsub
    have hcomplex : (g.schema.complex? ⟨Schema.builtinCount⟩).any (·.isAbstract) = false := hfirst
    rw [candidates, hcomplex, heq]
    simp [Substitutes.of, Table.get?, Table.find]
  have htexts : ∀ c ∈ (⟨Schema.builtinCount⟩ :: ids).zip values,
      g.typeText form.prefixes c.1 = some c.2 := by
    have hall : List.Forall₂ (fun t value => g.typeText form.prefixes t = some value)
        (⟨Schema.builtinCount⟩ :: ids) values := by
      have heq := hvalues form.prefixes
      rwa [← List.forall₂_eq_eq_eq, List.forall₂_map_left_iff, List.forall₂_map_right_iff] at heq
    exact fun c hc => List.forall₂_zip hall hc
  have hsubstance := generate_substance (g := g) .plain rfl "" { root := "r" }
  rw [hform] at hsubstance
  rw [← hsubstance] at hhidden
  simp only [Except.map, Except.toOption, Option.any_some, decide_eq_true_eq] at hhidden
  obtain ⟨n, hn, hswitch, m, hm, c, hc, hcase⟩ :=
    caseHides_of_hidden .plain rfl hform htexts hne hlisted hhidden
  exact ⟨form, hform, n, hn, hswitch, m, hm, ⟨Schema.builtinCount⟩, c.1,
    hcandidates ▸ (List.of_mem_zip hc).1, hcase⟩

end Choosing

/-- What an extension is like: the number of its base, its name, and whether it adds an element. -/
structure Extension where
  base : Nat
  name : Option String
  isDouble : Bool := false
  isAbstract : Bool := false

namespace Extension

def type (uses : List UseId) (e : Extension) : ComplexType where
  name := e.name.map fun n => ⟨none, n⟩
  base := some ⟨Schema.builtinCount + e.base⟩
  derivation := .extension
  isAbstract := e.isAbstract
  uses := uses
  particle := some (if e.isDouble then double else single)

/-- Whether the type of a number, which is that of an extension or the one before all, has two
elements. -/
def isDoubleAt (es : List Extension) : Nat → Bool
  | 0 => false
  | i + 1 => es[i]?.any (·.isDouble)

/-- Each extends a type before it, and no name is given twice. -/
def InOrder (es : List Extension) : Prop :=
  (∀ p ∈ es.zipIdx, p.1.base ≤ p.2 ∧ (isDoubleAt es p.1.base = true → p.1.isDouble = true)) ∧
    (some "B" :: es.map (·.name)).Pairwise fun a b => a = b → a = none

instance (es : List Extension) : Decidable (InOrder es) := inferInstanceAs (Decidable (_ ∧ _))

end Extension

/-- A type, and extensions of it and of each other. -/
def family (uses : List UseId) (es : List Extension) : List ComplexType :=
  { name := some ⟨none, "B"⟩, uses := uses, particle := some single } :: es.map (·.type uses)

theorem extending_family (uses : List UseId) {es : List Extension} (h : Extension.InOrder es) :
    Extending (family uses es) where
  base i t ht b hb := by
    cases i with
    | zero =>
      cases ht
      cases hb
    | succ i =>
      rw [family, List.getElem?_cons_succ, List.getElem?_map, Option.map_eq_some_iff] at ht
      obtain ⟨e, he, rfl⟩ := ht
      cases hb
      obtain ⟨hbase, hdouble⟩ := h.1 (e, i) (List.mem_zipIdx_iff_getElem?.2 he)
      obtain ⟨d, hd, huses, hparticle⟩ : ∃ d, (family uses es)[e.base]? = some d ∧ d.uses = uses ∧
          d.particle = some (if Extension.isDoubleAt es e.base then double else single) := by
        cases hn : e.base with
        | zero => exact ⟨_, rfl, rfl, rfl⟩
        | succ k =>
          obtain ⟨hi, -⟩ := List.getElem?_eq_some_iff.1 he
          have hk : k < es.length := by
            dsimp only at hbase
            omega
          refine ⟨es[k].type uses, ?_, rfl, ?_⟩
          · simp [family, hk]
          · simp [Extension.isDoubleAt, Extension.type, hk]
      refine ⟨e.base, d, rfl, Nat.lt_succ_of_le hbase, hd, rfl, huses ▸ List.prefix_rfl, ?_⟩
      rw [hparticle, Extension.type]
      cases hd : Extension.isDoubleAt es e.base with
      | true =>
        have he : e.isDouble = true := hdouble hd
        exact .inl (by rw [he])
      | false =>
        cases e.isDouble with
        | false => exact .inl rfl
        | true => exact .inr (.inr ⟨_, _, rfl, rfl⟩)
  names := by
    have hmap : (family uses es).map (fun t => t.name.map (·.localName)) =
        some "B" :: es.map (·.name) := by
      simp [family, Extension.type, Function.comp_def]
    have hnames := h.2
    rw [← hmap, List.pairwise_map] at hnames
    refine hnames.imp fun {a b} hab heq => ?_
    simpa using hab (congrArg (Option.map (·.localName)) heq)
  contents t ht := by
    rcases List.mem_cons.1 ht with rfl | ht
    · exact .inl rfl
    · obtain ⟨e, -, rfl⟩ := List.mem_map.1 ht
      rw [Extension.type]
      cases e.isDouble with
      | true => exact .inr rfl
      | false => exact .inl rfl

/-- A schema where an extension adds an element. -/
def widened : Schema := choosing ["a"] "c" (family [⟨0⟩] [⟨0, some "D", true, false⟩])

/-- A schema with a type that lists an attribute twice. -/
def attributeTwice : Schema :=
  choosing ["a", "a"] "c" (family [⟨0⟩, ⟨1⟩] [⟨0, some "D", false, false⟩])

/-- A schema with an element that is named like the path of an attribute. -/
def attributeNamed : Schema := choosing ["a"] "@a" (family [⟨0⟩] [⟨0, some "D", false, false⟩])

/-- A schema with a type that is named like two values of `xsi:type`. -/
def conditionNamed : Schema :=
  choosing [] "c" (family [] [⟨0, some "X' or ../@xsi:type='E", true, false⟩,
    ⟨0, some "E", false, false⟩])

/-- A schema with two types without names, from each of which a named one is derived. -/
def nameless : Schema :=
  choosing [] "c" (family [] [⟨0, none, true, false⟩, ⟨1, some "D", true, true⟩,
    ⟨0, none, false, false⟩, ⟨3, some "E", false, true⟩])

theorem substitutes_widened : Substitutes.ofSchema widened =
    ⟨⟨[(⟨Schema.builtinCount⟩, [⟨Schema.builtinCount + 1⟩])]⟩⟩ :=
  Substitutes.ofSchema_of_table (by decide +kernel) (by decide +kernel)

/-- The substitutes of the first type, where the others have none. -/
theorem substitutes_hiding :
    (Substitutes.ofSchema attributeTwice =
      ⟨⟨[(⟨Schema.builtinCount⟩, [⟨Schema.builtinCount + 1⟩])]⟩⟩ ∧
    Substitutes.ofSchema attributeNamed =
      ⟨⟨[(⟨Schema.builtinCount⟩, [⟨Schema.builtinCount + 1⟩])]⟩⟩) ∧
    Substitutes.ofSchema conditionNamed =
      ⟨⟨[(⟨Schema.builtinCount⟩, [⟨Schema.builtinCount + 1⟩, ⟨Schema.builtinCount + 2⟩])]⟩⟩ ∧
    Substitutes.ofSchema nameless =
      ⟨⟨[(⟨Schema.builtinCount⟩, [⟨Schema.builtinCount + 1⟩, ⟨Schema.builtinCount + 3⟩])]⟩⟩ := by
  refine ⟨⟨?_, ?_⟩, ?_, ?_⟩ <;>
    exact Substitutes.ofSchema_of_table (by decide +kernel) (by decide +kernel)

/-- A relevant field may be hidden in a regular type graph if a type lists an attribute twice, if an
element or a type has a name that is no NCName, or if two types to choose from have no names. -/
theorem relevant_field_hidden : HidesField attributeTwice ∧ HidesField attributeNamed ∧
    HidesField conditionNamed ∧ HidesField nameless := by
  obtain ⟨⟨hTwice, hNamed⟩, hCondition, hNameless⟩ := substitutes_hiding
  refine ⟨?_, ?_, ?_, ?_⟩
  · refine hides_choosing (extending_family _ (by decide)) (by decide) hTwice
      (by decide +kernel) ["B", "D"] ["D"] (fun _ => rfl) rfl (by decide) (by decide) ?_
    change ((ofSchema attributeTwice {} (some .plain)).sketched _ _).toOption.any _ = true
    rw [ofSchema, hTwice]
    decide +kernel
  · refine hides_choosing (extending_family _ (by decide)) (by decide) hNamed
      (by decide +kernel) ["B", "D"] ["D"] (fun _ => rfl) rfl (by decide) (by decide) ?_
    change ((ofSchema attributeNamed {} (some .plain)).sketched _ _).toOption.any _ = true
    rw [ofSchema, hNamed]
    decide +kernel
  · refine hides_choosing (extending_family _ (by decide)) (by decide) hCondition
      (by decide +kernel) ["B", "X' or ../@xsi:type='E", "E"] ["X", "E"] (fun _ => rfl) rfl
      (by decide) (by decide) ?_
    change ((ofSchema conditionNamed {} (some .plain)).sketched _ _).toOption.any _ = true
    rw [ofSchema, hCondition]
    decide +kernel
  · refine hides_choosing (extending_family _ (by decide)) (by decide) hNameless
      (by decide +kernel) ["B", "(anonymous)", "(anonymous)"] ["(anonymous)"] (fun _ => rfl) rfl
      (by decide) (by decide) ?_
    change ((ofSchema nameless {} (some .plain)).sketched _ _).toOption.any _ = true
    rw [ofSchema, hNameless]
    decide +kernel

theorem no_relevant_field_hidden_widened :
    ∃ form, (ofSchema widened {} (some .plain)).generate "" { root := "r" } = .ok form ∧
      ∀ n ∈ form.tree.walk, ∀ c, form.tree.kind n = .control c → c.kind = .switch →
        form.SwitchShows (ofSchema widened {} (some .plain)) n := by
  have htypes : Extending (family [⟨0⟩] [⟨0, some "D", true, false⟩]) :=
    extending_family _ (by decide)
  have hfamily {i : Nat} {c : ComplexType} (hi : (family [⟨0⟩] [⟨0, some "D", true, false⟩])[i]? =
      some c) : c.uses = [⟨0⟩] ∧ c.name.isSome := by
    rcases i with _ | _ | i
    · cases hi
      exact ⟨rfl, rfl⟩
    · cases hi
      exact ⟨rfl, rfl⟩
    · cases hi
  have hnames : widened.elements.toList.all (fun decl => IsNCName decl.name.localName) ∧
      widened.uses.toList.all (fun use => IsNCName use.decl.name.localName) := by
    decide +kernel
  have htypeNames : widened.types.toList.all fun t => t.name?.all fun name =>
      IsNCName name.localName := by
    decide +kernel
  have hsound : (ofSchema widened {} (some .plain)).Sound := by
    refine ⟨regular_choosing htypes (by decide), ?_, ⟨?_, ?_⟩, ?_, rfl⟩
    · intro t c hc
      obtain ⟨i, -, hi⟩ := complex?_choosing.1 hc
      rw [(hfamily hi).1]
      exact List.nodup_singleton _
    · exact fun decl hdecl => List.all_eq_true.1 hnames.1 decl (Array.mem_toList_iff.2 hdecl)
    · exact fun use huse => List.all_eq_true.1 hnames.2 use (Array.mem_toList_iff.2 huse)
    · intro t ht name hname
      have hall := List.all_eq_true.1 htypeNames t (Array.mem_toList_iff.2 ht)
      rw [Option.mem_def.1 hname] at hall
      exact hall
  obtain ⟨form, hform⟩ := generate_isOk (ofSchema widened {} (some .plain)) ""
    (r := { root := "r" }) findElement_choosing rfl
  refine ⟨form, hform, fun n hn c hkind hc =>
    no_relevant_field_hidden widened {} .plain hform hsound (fun root hroot => ?_) hn hkind hc⟩
  intro e _ t _ ht hlength
  obtain ⟨-, hclear⟩ := clear_choosing htypes substitutes_widened (by decide +kernel) hlength
  refine ⟨hclear, fun a ha _ _ hnone _ => ?_⟩
  obtain ⟨c, hc⟩ := Option.isSome_iff_exists.1 (complex_of_mem_candidates rfl ha ht)
  obtain ⟨i, -, hi⟩ := complex?_choosing.1 hc
  have hname := (hfamily hi).2
  rw [← Schema.name?_of_complex? hc, hnone] at hname
  cases hname

end Generator

end SchemaForms
