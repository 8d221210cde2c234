import SchemaForms.Proofs.Form.Expanding
import SchemaForms.Proofs.Form.Resolving

/-!
Enumerating paths: the binds of a form lead, in document order, to paths of the outline of its root
element; where no element has several types to choose from, to exactly these.
-/

namespace SchemaForms

open Synthesis
open Xml (Element)

/-- The prefixes that a form gives to namespaces. -/
def Form.prefixes (form : Form) : PrefixTable := ⟨⟨form.namespaces.map fun (p, ns) => (ns, p)⟩⟩

theorem Form.prefixes_eq {form : Form} {t : PrefixTable} (h : form.namespaces = t.declarations) :
    form.prefixes = t := by
  have hentries : t.declarations.map (fun (p, ns) => (ns, p)) = t.entries.entries := by
    rw [PrefixTable.declarations, List.map_map]
    exact List.map_id _
  rw [Form.prefixes, h, hentries]

namespace Xml.Element

theorem Has.congr {e e' : Element} {p : Path} (h : e.Has p) (hattributes : e'.attributes = e.attributes)
    (hchildren : e'.children = e.children) : e'.Has p := by
  cases p with
  | nil => trivial
  | cons step p =>
    cases step with
    | child name => rwa [Has, hchildren]
    | attr name => rwa [Has, hattributes]
    | xsiType => rwa [Has, hattributes]

@[simp] theorem declare_same (e : Element) (nsPrefix nspace : String) :
    (e.declare nsPrefix nspace).name = e.name ∧
      (e.declare nsPrefix nspace).attributes = e.attributes ∧
      (e.declare nsPrefix nspace).children = e.children := by
  unfold declare
  split <;> exact ⟨rfl, rfl, rfl⟩

/-- Declarations change neither the name of an element nor what is in it. -/
theorem foldl_declare_same (declarations : List (String × String)) (e : Element) :
    let e' := declarations.foldl (fun e (p, ns) => e.declare p ns) e
    e'.name = e.name ∧ e'.attributes = e.attributes ∧ e'.children = e.children := by
  induction declarations generalizing e with
  | nil => exact ⟨rfl, rfl, rfl⟩
  | cons d declarations ih =>
    obtain ⟨hname, hattributes, hchildren⟩ := ih (e.declare d.1 d.2)
    obtain ⟨hname', hattributes', hchildren'⟩ := e.declare_same d.1 d.2
    exact ⟨hname.trans hname', hattributes.trans hattributes', hchildren.trans hchildren'⟩

end Xml.Element

namespace Generator

theorem prepareRoot_same (e : Element) :
    (prepareRoot e).name = e.name ∧ (prepareRoot e).children = e.children := by
  obtain ⟨hname, -, hchildren⟩ := e.declare_same "xsi" instanceNamespace
  have hundeclare (e : Element) :
      e.undeclareDefault.name = e.name ∧ e.undeclareDefault.children = e.children := by
    unfold Element.undeclareDefault
    split <;> exact ⟨rfl, rfl⟩
  unfold prepareRoot
  dsimp only
  split
  · obtain ⟨hname', hchildren'⟩ := hundeclare (e.declare "xsi" instanceNamespace)
    exact ⟨hname'.trans hname, hchildren'.trans hchildren⟩
  · exact ⟨hname, hchildren⟩

end Generator

/-- The binds of a form lead to some paths of the outline of its root element, and the data that
the schema gives has these paths. -/
structure Form.Outlines (g : Generator) (root : ElementId) (form : Form) (ps : List Path) :
    Prop where
  apart : form.prefixes.Apart
  rooted : ∃ x, form.prefixes.textOf (g.schema.element root).name = some x
  binds : form.tree.binds.map form.tree.absolutePath =
    ps.map fun p => pathText form.prefixes (.child (g.schema.element root).name :: p)
  sublist : ps.Sublist (g.outline (g.schema.elements.size + 1) [] root .once)
  exact : g.Unswitched root → ps = g.outline (g.schema.elements.size + 1) [] root .once
  named : form.skeleton.name = (g.schema.element root).name
  covered : g.schema.NCNamed → (∀ c, g.Leads root c → g.Coherent c) →
    ∀ p ∈ ps, form.skeleton.Has p

namespace Generator

/-- The content of a form, and the data of its root element. -/
theorem filled_expanded (g : Generator) (root : ElementId) (nsPrefix : Option String)
    (rootName : String) {s : Synthesis} (hs : s.expanding = []) (hapart : s.prefixes.Apart)
    (hroot : g.Navigable root) :
    let skeleton := prepareRoot (bareInstance (g.schema.element root) nsPrefix)
    let made := Sketch.filled g root nsPrefix rootName s
    ∃ r : Option Element,
      (Sketch.form g root nsPrefix rootName s).1.skeleton = r.getD skeleton ∧
      Expanded g (g.prospect (g.schema.elements.size + 1) []) root ("/" ++ rootName) .once skeleton {}
        (Sketch.opened s) r made.1 made.2 := by
  intro skeleton made
  obtain ⟨hbare, -⟩ := Sketch.children_bareInstance (g.schema.element root) nsPrefix
  have hchildren : skeleton.children = [] := (prepareRoot_same _).2.trans hbare
  have hslash : '/' ∈ ("/" ++ rootName).toList := by simp
  have hdot : "/" ++ rootName ≠ "." := fun h => absurd (h ▸ hslash) (by decide)
  have hempty : "/" ++ rootName ≠ "" := fun h => absurd (h ▸ hslash) (by decide)
  exact ⟨_, rfl, Sketch.element_expands g (g.schema.elements.size + 1) [] skeleton root
    ("/" ++ rootName) .once {} (Sketch.opened s) hs hapart hchildren hroot hdot
    fun h => absurd h hempty⟩

/-- Where all topmost binds begin anew, the nodesets of the sketch tell the paths of a form. -/
theorem generate_paths {g : Generator} (hl : g.layout.Standard)
    (hsubstitutes : g.substitutes = Substitutes.ofSchema g.schema) {time : String} {r : Request}
    {form : Form} (h : g.generate time r = .ok form) {root : ElementId}
    (hroot : g.schema.findElement (QName.of g.schema.target r.root) = some root)
    {nodesets : Forest String}
    (hnodesets : let named := Synthesis.qualified (g.schema.element root).name Synthesis.initial
      (Sketch.filled g root named.1.1 named.1.2 named.2).1.nodesets = nodesets)
    (hroots : ∀ x ∈ nodesets.roots, x.startsWith "/" = true) :
    form.tree.binds.map form.tree.absolutePath = (nodesets.paths "").map some := by
  obtain ⟨root', f, hroot', hshows, htidy, hnodes, -⟩ := generate_shows hl hsubstitutes h
  obtain rfl := Option.some.inj (hroot.symm.trans hroot')
  let named := Synthesis.qualified (g.schema.element root).name Synthesis.initial
  let drawn := Sketch.form g root named.1.1 named.1.2 named.2
  have hnodesets' : (Kid.forest drawn.1.binds).map (·.nodeset) = nodesets := hnodesets
  have hcontrols : ∀ k ∈ drawn.1.controls.labels, k.bind? = none := by
    intro k hk
    obtain ⟨c, rfl, -⟩ := (linked_filled (g := g) root named.1.1 named.1.2
      (clean_named (g.schema.element root).name)).titled k hk
    rfl
  have habsolute : ∀ b ∈ (Kid.forest drawn.1.binds).roots, b.nodeset.startsWith "/" = true := by
    intro b hb
    apply hroots
    rw [← hnodesets', Forest.roots_map]
    exact List.mem_map_of_mem hb
  rw [hshows.absolutePaths, htidy.routes hshows.nodup, hnodes, Drawing.routes hcontrols,
    ← hnodesets', Forest.paths_eq_of_absolute "" habsolute, List.map_map]
  rfl

theorem generate_outlines {g : Generator} (hl : g.layout.Standard)
    (hsubstitutes : g.substitutes = Substitutes.ofSchema g.schema) {time : String} {r : Request}
    {form : Form} (h : g.generate time r = .ok form) {root : ElementId}
    (hroot : g.schema.findElement (QName.of g.schema.target r.root) = some root)
    (hnames : g.Navigable root) : ∃ ps, form.Outlines g root ps := by
  obtain ⟨root', f, hroot', -, -, -, hnamespaces, hskeleton, -⟩ :=
    generate_shows hl hsubstitutes h
  obtain rfl := Option.some.inj (hroot.symm.trans hroot')
  let decl := g.schema.element root
  generalize hnamed : Synthesis.qualified decl.name Synthesis.initial = named
    at hnamespaces hskeleton
  have hcalm : Synthesis.initial.Abides named.2 := hnamed ▸ Calm.qualified decl.name _
  have htext : named.2.prefixes.textOf decl.name = some named.1.2 :=
    hnamed ▸ textOf_qualified decl.name _
  have hapart := hcalm.prefixes.apart PrefixTable.apart_empty
  let drawn := Sketch.form g root named.1.1 named.1.2 named.2
  obtain ⟨data, hdata, hexpanded⟩ := filled_expanded g root named.1.1 named.1.2 hcalm.stack
    hapart hnames
  let t := (Sketch.filled g root named.1.1 named.1.2 named.2).2.prefixes
  have hprefixes : form.prefixes = t := Form.prefixes_eq hnamespaces
  obtain ⟨forest, ps, hforest, htraces, hsub, hexact, hroots⟩ := hexpanded.traced
  have htext' : t.textOf decl.name = some named.1.2 := hexpanded.abides.prefixes.textOf htext
  have hslash : pathInto "" ("/" ++ named.1.2) = "/" ++ named.1.2 :=
    pathInto_of_absolute "" (String.startsWith_string_iff.2 (by simp))
  have hbinds : form.tree.binds.map form.tree.absolutePath = (forest.paths "").map some := by
    refine generate_paths hl hsubstitutes h hroot (hnamed ▸ hforest) fun x hx => ?_
    rw [String.startsWith_string_iff]
    rcases hroots x hx with rfl | rfl
    · simp
    · simp
  obtain ⟨hskeletonName, hattributes, hchildren⟩ :=
    Element.foldl_declare_same form.namespaces drawn.1.skeleton
  rw [← hskeleton] at hskeletonName hattributes hchildren
  refine ⟨ps, ?_, ⟨named.1.2, ?_⟩, ?_, hsub, hexact, ?_, ?_⟩
  · rw [hprefixes]
    exact hexpanded.abides.prefixes.apart hapart
  · rw [hprefixes]
    exact htext'
  · rw [hbinds, hprefixes, ← List.forall₂_eq_eq_eq, List.forall₂_map_left_iff,
      List.forall₂_map_right_iff]
    refine (htraces "").imp fun path p ⟨text, hp, hpath⟩ => ?_
    have hfirst : PathStep.text t (.child decl.name) = some named.1.2 := htext'
    have hwhole : path = "/" ++ named.1.2 ++ text := hpath.trans (congrArg (· ++ text) hslash)
    rw [pathText, hfirst, hwhole, Option.bind_some]
    exact (congrArg (Option.map _) hp).symm
  · rw [hskeletonName, hdata]
    cases data with
    | none => exact (prepareRoot_same _).1.trans (Sketch.children_bareInstance _ _).2
    | some c =>
      exact (hexpanded.kept c rfl).1.trans
        ((prepareRoot_same _).1.trans (Sketch.children_bareInstance _ _).2)
  · intro hncnamed hcoherent p hp
    have hmem := hsub.subset hp
    cases data with
    | none =>
      rw [hexpanded.leftOut rfl] at hmem
      cases hmem
    | some c =>
      have hc : drawn.1.skeleton = c := hdata
      exact ((hexpanded.kept c rfl).2 hncnamed hcoherent .once p hmem).congr
        (hattributes.trans (by rw [hc])) (hchildren.trans (by rw [hc]))

/-- Where no element that is met has several types to choose from, the binds of a form lead, in
document order, to the paths of the outline of its root element, whatever bounds the outline.  The
names of the elements below the root must not look like a dot or an absolute path. -/
theorem binds_enumerate_outline (s : Schema) (settings : Settings) {l : Layout} (hl : l.Standard)
    {time : String} {r : Request} {form : Form}
    (h : (ofSchema s settings (some l)).generate time r = .ok form) {root : ElementId}
    (hroot : s.findElement (QName.of s.target r.root) = some root)
    (hplain : (ofSchema s settings (some l)).Unswitched root)
    (hnames : ∀ e c, (ofSchema s settings (some l)).Leads root e →
      (ofSchema s settings (some l)).Holds e c → (s.element c).name.nspace = none →
        (s.element c).name.localName ≠ "." ∧ ¬ (s.element c).name.localName.startsWith "/" = true)
    {bound : Nat} (hbound : s.elements.size < bound) :
    form.tree.binds.map form.tree.absolutePath =
      ((ofSchema s settings (some l)).outline bound [] root .once).map fun p =>
        pathText form.prefixes (.child (s.element root).name :: p) := by
  have hnavigable : (ofSchema s settings (some l)).Navigable root := by
    intro e c hlead hc hns
    obtain ⟨hdot, hslash⟩ := hnames e c hlead hc hns
    exact ⟨hdot, hslash, fun _ => hplain c (hlead.tail hc)⟩
  obtain ⟨ps, hps⟩ := generate_outlines hl rfl h hroot hnavigable
  have hroom := (ofSchema s settings (some l)).room_le []
  have hsize : (ofSchema s settings (some l)).schema.elements.size = s.elements.size := rfl
  rw [hps.binds, hps.exact hplain,
    outline_stable (Nat.lt_succ_of_le hroom) (Nat.lt_of_le_of_lt hroom hbound)]
  rfl

/-- A schema whose root element has an attribute, any number of elements of one name, and itself
once more. -/
def listing (name : String) : Schema where
  target := none
  types := (Schema.empty none).types ++ #[.complex
    { name := some ⟨none, "R"⟩
      particle := some (.sequence [.element ⟨0, none⟩ ⟨1⟩, .element .optional ⟨0⟩])
      uses := [⟨0⟩] }]
  elements := #[{ name := ⟨none, "r"⟩, type := some ⟨Schema.builtinCount⟩ },
    { name := ⟨none, name⟩, type := some Schema.anyType }]
  uses := #[{ decl := { name := ⟨none, "a"⟩, type := some Schema.anyType } }]
  typeNames := (Schema.empty none).typeNames
  elementNames := Table.empty.put ⟨none, "r"⟩ ⟨0⟩

theorem substitutes_listing (name : String) : Substitutes.ofSchema (listing name) = ⟨⟨[]⟩⟩ := by
  have hsame : Substitutes.ofSchema (listing name) = Substitutes.ofSchema (listing "c") := rfl
  have htable : (listing "c").namedTypes.foldl (fun table id =>
      Substitutes.ascend (listing "c") table []
        ((listing "c").chain (Substitutes.parent (listing "c")) id)) Table.empty =
      (⟨[]⟩ : Table TypeId (List TypeId)) := by
    decide +kernel
  rw [hsame, Substitutes.ofSchema, htable]
  rfl

section Listing

variable (name : String)

theorem unswitched_listing (root : ElementId) :
    (ofSchema (listing name) {} (some .plain)).Unswitched root := by
  intro e _ t _ _
  rw [candidates, ofSchema, substitutes_listing]
  split <;> simp [Substitutes.of, Table.get?, Table.find]

theorem findElement_listing :
    (listing name).findElement (QName.of (listing name).target "r") = some ⟨0⟩ := by
  simp [listing, Schema.findElement, QName.of]

/-- What the outline of the root element is, whatever the name. -/
theorem outline_listing : (ofSchema (listing name) {} (some .plain)).outline
    ((listing name).elements.size + 1) [] ⟨0⟩ .once =
      [[], [.attr ⟨none, "a"⟩], [.child ⟨none, name⟩], [.child ⟨none, name⟩]] := by
  rw [ofSchema, substitutes_listing]
  rfl

end Listing

/-- The nodesets of the form when the elements below the root are named like a dot. -/
theorem nodesets_listing_dot :
    let named := Synthesis.qualified ((listing ".").element ⟨0⟩).name Synthesis.initial
    (Sketch.filled (ofSchema (listing ".") {} (some .plain)) ⟨0⟩ named.1.1 named.1.2
      named.2).1.nodesets = .tree "/r" (.leaf "@a" ++ .tree "." (.leaf ".")) := by
  rw [ofSchema, substitutes_listing]
  decide +kernel

theorem binds_enumerate_outline_listing :
    ∃ form, (ofSchema (listing "c") {} (some .plain)).generate "" { root := "r" } = .ok form ∧
      form.tree.binds.map form.tree.absolutePath =
        ((ofSchema (listing "c") {} (some .plain)).outline 3 [] ⟨0⟩ .once).map fun p =>
          pathText form.prefixes (.child ⟨none, "r"⟩ :: p) := by
  obtain ⟨form, hform⟩ := generate_isOk (ofSchema (listing "c") {} (some .plain)) ""
    (r := { root := "r" }) (findElement_listing "c") rfl
  have hnames (c : ElementId) : ((listing "c").element c).name.localName ≠ "." ∧
      ¬ ((listing "c").element c).name.localName.startsWith "/" = true := by
    rw [String.startsWith_string_iff]
    obtain ⟨_ | _ | i⟩ := c
    · decide
    · decide
    · exact show ("" : String) ≠ "." ∧ ¬ "/".toList <+: "".toList by decide
  exact ⟨form, hform, binds_enumerate_outline (listing "c") {} .plain hform
    (findElement_listing "c") (unswitched_listing "c" ⟨0⟩) (fun _ c _ _ _ => hnames c) (by decide)⟩

/-- An element that is named like a dot has the path of the element around it. -/
theorem binds_unlike_outline : ∃ form,
    (ofSchema (listing ".") {} (some .plain)).generate "" { root := "r" } = .ok form ∧
      (ofSchema (listing ".") {} (some .plain)).Unswitched ⟨0⟩ ∧
      form.tree.binds.map form.tree.absolutePath = [some "/r", some "/r/@a", some "/r", some "/r"] ∧
      ((ofSchema (listing ".") {} (some .plain)).outline ((listing ".").elements.size + 1) [] ⟨0⟩
        .once).map (fun p => pathText form.prefixes (.child ⟨none, "r"⟩ :: p)) =
          [some "/r", some "/r/@a", some "/r/.", some "/r/."] := by
  obtain ⟨form, hform⟩ := generate_isOk (ofSchema (listing ".") {} (some .plain)) ""
    (r := { root := "r" }) (findElement_listing ".") rfl
  refine ⟨form, hform, unswitched_listing "." ⟨0⟩, ?_, ?_⟩
  · have hrelative : ¬ ("@a" : String).startsWith "/" = true := by
      rw [String.startsWith_string_iff]
      decide
    rw [generate_paths .plain rfl hform (findElement_listing ".") nodesets_listing_dot
      (by simp [Forest.tree, Forest.roots])]
    simp [Forest.tree, Forest.leaf, Forest.paths, pathInto, hrelative]
  · rw [outline_listing]
    rfl

end Generator

end SchemaForms
