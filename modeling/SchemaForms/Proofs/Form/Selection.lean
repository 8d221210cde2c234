import SchemaForms.Form.Document
import SchemaForms.Proofs.Form.Enumeration

/-!
Selecting: what the absolute path of a bind finds in the instance that the schema gives.  Paths are
read as they are written, step by step, and their prefixes as the document declares them.
-/

namespace SchemaForms

open Xml (Element Attribute)

namespace Form

variable (f : Form)

/-- The namespace that a prefix stands for in the document of a form. -/
def namespaceOf (nsPrefix : String) : Option String :=
  ((documentNamespaces ++ f.namespaces).find? (·.1 == nsPrefix)).map (·.2)

/-- The name that is written in a step; without a prefix it is in no namespace. -/
def nameIn (text : List Char) : Option QName :=
  match text.splitOn ':' with
  | [localName] => some ⟨none, String.ofList localName⟩
  | [nsPrefix, localName] =>
    (f.namespaceOf (String.ofList nsPrefix)).map fun ns => ⟨some ns, String.ofList localName⟩
  | _ => none

/-- The nodes that some steps lead to from an element on: steps to children, and in the end one to
an attribute, behind an at sign. -/
def find : List (List Char) → Element → List (Element ⊕ Attribute)
  | [], e => [.inl e]
  | step :: steps, e =>
    if step.head? = some '@' then
      if steps.isEmpty then
        (e.attributes.filter fun a => f.nameIn step.tail = some a.name).map .inr
      else []
    else (e.children.filter fun c => f.nameIn step = some c.name).flatMap (find steps)

/-- The nodes that an absolute path selects in the instance that the schema gives. -/
def select (path : String) : List (Element ⊕ Attribute) :=
  match path.toList.splitOn '/' with
  | [] :: root :: steps =>
    if f.nameIn root = some f.skeleton.name then f.find steps f.skeleton else []
  | _ => []

variable {f}

/-- A prefix of a form stands for its namespace. -/
theorem namespaceOf_eq (hf : f.prefixes.Apart) {ns p : String}
    (hp : f.prefixes.entries.get? ns = some p) : f.namespaceOf p = some ns := by
  have hreserved := hf.unreserved ns p hp
  have hnone : documentNamespaces.find? (·.1 == p) = none := by
    rw [List.find?_eq_none]
    intro d hd he
    have hkey : d.1 ∈ documentNamespaces.map (·.1) := List.mem_map_of_mem hd
    rw [eq_of_beq he] at hkey
    exact hreserved ((show documentNamespaces.map (·.1) ⊆ PrefixTable.reserved by decide) hkey)
  have hmem : (p, ns) ∈ f.namespaces := by
    obtain ⟨d, hd, he⟩ := List.mem_map.1 (Table.mem_entries_of_get? hp)
    rwa [show d = (p, ns) by cases he; rfl] at hd
  rw [namespaceOf, List.find?_append, hnone, Option.none_or]
  cases hfind : f.namespaces.find? (·.1 == p) with
  | none => exact absurd (List.find?_eq_none.1 hfind _ hmem) (by simp)
  | some d =>
    obtain ⟨p', ns'⟩ := d
    have hkey : p' = p := by simpa using List.find?_some hfind
    subst hkey
    have hd : (ns', p') ∈ f.prefixes.entries.entries :=
      List.mem_map.2 ⟨_, List.mem_of_find?_eq_some hfind, rfl⟩
    rw [Option.map_some, hf.distinct _ _ p' (hf.entered _ _ hd) hp]

/-- A written name is read as what it is. -/
theorem nameIn_textOf (hf : f.prefixes.Apart) {name : QName} {x : String}
    (hx : f.prefixes.textOf name = some x) (hcolon : ':' ∉ name.localName.toList) :
    f.nameIn x.toList = some name := by
  obtain ⟨nspace, localName⟩ := name
  cases nspace with
  | none =>
    cases Option.some.inj hx
    have hsplit : localName.toList.splitOn ':' = [localName.toList] := by
      have h := List.splitOn_intercalate ':' (List.forall_mem_singleton.2 hcolon) (by simp)
      simpa using h
    simp [nameIn, hsplit]
  | some ns =>
    obtain ⟨p, hp, rfl⟩ := Option.map_eq_some_iff.1 hx
    have hfirst : ':' ∉ p.toList := fun hm => absurd (hf.named ns p hp ':' hm) (by decide)
    have hsplit : (p ++ ":" ++ localName).toList.splitOn ':' = [p.toList, localName.toList] := by
      have h := List.splitOn_intercalate ':'
        (List.forall_mem_cons.2 ⟨hfirst, List.forall_mem_singleton.2 hcolon⟩) (by simp)
      simpa using h
    rw [nameIn, hsplit]
    simp [namespaceOf_eq hf hp]

theorem nameIn_xsiType : f.nameIn "xsi:type".toList = some Generator.xsiType := by
  have hsplit : "xsi:type".toList.splitOn ':' = ["xsi".toList, "type".toList] := by decide
  have hfind : f.namespaceOf "xsi" = some Generator.instanceNamespace := by
    simp [namespaceOf, documentNamespaces, Generator.instanceNamespace]
  rw [nameIn, hsplit]
  simp [hfind, Generator.xsiType]

end Form

/-! Paths as they are written. -/

/-- The steps of a path are written one after another, with a slash before each. -/
theorem pathText_steps {t : PrefixTable} {p : Path} {text : String} (h : pathText t p = some text) :
    ∃ texts : List String, List.Forall₂ (fun step x => PathStep.text t step = some x) p texts ∧
      text.toList = texts.flatMap fun x => '/' :: x.toList := by
  induction p generalizing text with
  | nil =>
    cases h
    exact ⟨[], .nil, rfl⟩
  | cons step p ih =>
    simp only [pathText, Option.bind_eq_some_iff, Option.map_eq_some_iff] at h
    obtain ⟨first, hfirst, rest, hrest, rfl⟩ := h
    obtain ⟨texts, htexts, hlist⟩ := ih hrest
    exact ⟨first :: texts, .cons hfirst htexts, by simp [hlist]⟩

theorem intercalate_slash (text : List Char) (texts : List (List Char)) :
    ['/'].intercalate (text :: texts) = text ++ texts.flatMap ('/' :: ·) := by
  induction texts generalizing text with
  | nil => simp
  | cons next texts ih => simp [List.intercalate_cons_cons, ih]

/-- The name in a step has no character in it that no name goes on with. -/
def PathStep.Spelt : PathStep → Prop
  | .child name | .attr name => ∀ c, continuesNCName c = false → c ∉ name.localName.toList
  | .xsiType => True

theorem Schema.NCNamed.spelt {g : Generator} (h : g.schema.NCNamed) {openings : Nat}
    {stack : List (ElementId × TypeId)} {id : ElementId} {occurs : Occurs} {p : Path}
    (hp : p ∈ g.outline openings stack id occurs) : ∀ step ∈ p, step.Spelt := by
  induction openings generalizing stack id occurs p with
  | zero => cases hp
  | succ openings ih =>
    have hmember {stack : List (ElementId × TypeId)} {m : Member} {p : Path}
        (hp : p ∈ g.memberPaths (g.outline openings stack) m) : ∀ step ∈ p, step.Spelt := by
      cases m with
      | value =>
        rw [List.mem_singleton.1 hp]
        exact fun _ hs => nomatch hs
      | use id =>
        rw [Generator.memberPaths] at hp
        split at hp
        · rw [List.mem_singleton.1 hp]
          intro step hstep
          rw [List.mem_singleton.1 hstep]
          exact fun c hc => h.not_mem_use id hc
        · cases hp
      | child id occurs =>
        obtain ⟨q, hq, rfl⟩ := List.mem_map.1 hp
        intro step hstep
        rcases List.mem_cons.1 hstep with rfl | hstep
        · exact fun c hc => h.not_mem_element id hc
        · exact ih hq step hstep
    rcases Generator.of_mem_outline hp with rfl | rfl | ⟨t, t', -, m, -, hp⟩
    · exact fun _ hs => nomatch hs
    · intro step hstep
      rw [List.mem_singleton.1 hstep]
      trivial
    · exact hmember hp

namespace Form

variable {f : Form}

theorem find_attribute_ne_nil (text : List Char) {e : Element} {a : Attribute}
    (hread : f.nameIn text = some a.name) (ha : a ∈ e.attributes) :
    f.find ['@' :: text] e ≠ [] := by
  have hmem : a ∈ e.attributes.filter fun a => f.nameIn text = some a.name :=
    List.mem_filter.2 ⟨ha, by simpa using hread⟩
  rw [find, if_pos List.head?_cons, if_pos List.isEmpty_nil]
  exact List.ne_nil_of_mem (List.mem_map_of_mem hmem)

theorem find_child_ne_nil {step : List Char} {steps : List (List Char)} {e c : Element}
    (hstep : '@' ∉ step) (hread : f.nameIn step = some c.name) (hc : c ∈ e.children)
    (hrest : f.find steps c ≠ []) : f.find (step :: steps) e ≠ [] := by
  have hmem : c ∈ e.children.filter fun c => f.nameIn step = some c.name :=
    List.mem_filter.2 ⟨hc, by simpa using hread⟩
  obtain ⟨node, hnode⟩ := List.exists_mem_of_ne_nil _ hrest
  rw [find, if_neg fun h => hstep (List.mem_of_head? h)]
  exact List.ne_nil_of_mem (List.mem_flatMap.2 ⟨c, hmem, hnode⟩)

/-- What an element has is found. -/
theorem find_ne_nil (hf : f.prefixes.Apart) {p : Path} {texts : List String}
    (htexts : List.Forall₂ (fun step x => PathStep.text f.prefixes step = some x) p texts)
    (hspelt : ∀ step ∈ p, step.Spelt) {e : Element} (he : e.Has p) :
    f.find (texts.map String.toList) e ≠ [] := by
  induction htexts generalizing e with
  | nil => simp [find]
  | @cons step x p texts hstep hrest ih =>
    have hfirst := hspelt step (List.mem_cons_self ..)
    rw [List.map_cons]
    cases step with
    | child name =>
      obtain ⟨c, hc, rfl, hhas⟩ := he
      have hat := hf.not_mem_textOf hstep (hfirst '@' (by decide)) (by decide) (by decide)
      exact find_child_ne_nil hat (nameIn_textOf hf hstep (hfirst ':' (by decide))) hc
        (ih (fun s hs => hspelt s (List.mem_cons_of_mem _ hs)) hhas)
    | attr name =>
      obtain ⟨rfl, a, ha, rfl⟩ := he
      obtain ⟨y, hy, rfl⟩ := Option.map_eq_some_iff.1 hstep
      rw [List.forall₂_nil_left_iff.1 hrest, String.toList_append]
      exact find_attribute_ne_nil _ (nameIn_textOf hf hy (hfirst ':' (by decide))) ha
    | xsiType =>
      obtain ⟨rfl, a, ha, hname⟩ := he
      obtain rfl := Option.some.inj hstep
      rw [List.forall₂_nil_left_iff.1 hrest]
      exact find_attribute_ne_nil "xsi:type".toList (hname ▸ nameIn_xsiType) ha

/-- Slashes are between steps only. -/
theorem not_mem_text (hf : f.prefixes.Apart) {step : PathStep} (hstep : step.Spelt) {x : String}
    (hx : step.text f.prefixes = some x) : '/' ∉ x.toList := by
  cases step with
  | child name => exact hf.not_mem_textOf hx (hstep '/' (by decide)) (by decide) (by decide)
  | attr name =>
    obtain ⟨y, hy, rfl⟩ := Option.map_eq_some_iff.1 hx
    have hslash := hf.not_mem_textOf hy (hstep '/' (by decide)) (by decide) (by decide)
    simpa using hslash
  | xsiType =>
    cases hx
    decide

theorem not_mem_texts (hf : f.prefixes.Apart) {p : Path} {texts : List String}
    (htexts : List.Forall₂ (fun step x => PathStep.text f.prefixes step = some x) p texts)
    (hspelt : ∀ step ∈ p, step.Spelt) : ∀ x ∈ texts, '/' ∉ x.toList := by
  induction htexts with
  | nil => exact fun _ hx => nomatch hx
  | cons hstep _ ih =>
    intro x hx
    rcases List.mem_cons.1 hx with rfl | hx
    · exact not_mem_text hf (hspelt _ (List.mem_cons_self ..)) hstep
    · exact ih (fun s hs => hspelt s (List.mem_cons_of_mem _ hs)) x hx

/-- An absolute path selects what is there. -/
theorem select_ne_nil (hf : f.prefixes.Apart) {p : Path} {path : String}
    (hpath : pathText f.prefixes (.child f.skeleton.name :: p) = some path)
    (hroot : PathStep.Spelt (.child f.skeleton.name)) (hp : ∀ step ∈ p, step.Spelt)
    (hhas : f.skeleton.Has p) : f.select path ≠ [] := by
  obtain ⟨texts, htexts, hlist⟩ := pathText_steps hpath
  obtain ⟨x, rest, hx, hrest, rfl⟩ := List.forall₂_cons_left_iff.1 htexts
  have hslash := not_mem_texts hf htexts (List.forall_mem_cons.2 ⟨hroot, hp⟩)
  have hsplit : path.toList.splitOn '/' = [] :: (x :: rest).map String.toList := by
    have hall : ∀ text ∈ [] :: (x :: rest).map String.toList, '/' ∉ text :=
      List.forall_mem_cons.2 ⟨List.not_mem_nil, List.forall_mem_map.2 hslash⟩
    have h := List.splitOn_intercalate '/' hall (by simp)
    rwa [intercalate_slash, List.nil_append, List.flatMap_map, ← hlist] at h
  rw [select, hsplit, List.map_cons]
  dsimp only
  rw [if_pos (nameIn_textOf hf hx (hroot ':' (by decide)))]
  exact find_ne_nil hf hrest hp hhas

end Form

namespace Generator

/-- Every bind of a form has instance data: its absolute path selects a node of the instance that
the schema gives.  Names have to be NCNames, and in the contents that a switch offers a name has to
stand for one element declaration. -/
theorem binds_select_data (s : Schema) (settings : Settings) (hs : s.NCNamed) {l : Layout}
    (hl : l.Standard) {time : String} {r : Request} {form : Form}
    (h : (ofSchema s settings (some l)).generate time r = .ok form) {root : ElementId}
    (hroot : s.findElement (QName.of s.target r.root) = some root)
    (hcoherent : ∀ e, (ofSchema s settings (some l)).Leads root e →
      (ofSchema s settings (some l)).Coherent e) :
    ∀ b ∈ form.tree.binds, ∃ path, form.tree.absolutePath b = some path ∧
      form.select path ≠ [] := by
  let g := ofSchema s settings (some l)
  have hnames : g.schema.NCNamed := hs
  obtain ⟨ps, hps⟩ := generate_outlines hl rfl h hroot (hnames.passable root).2
  have hspelt : ∀ p ∈ ps, ∀ step ∈ p, step.Spelt := fun p hp =>
    hnames.spelt (hps.sublist.subset hp)
  have hfirst : PathStep.Spelt (.child form.skeleton.name) := by
    rw [hps.named]
    exact fun c hc => hnames.not_mem_element root hc
  intro b hb
  obtain ⟨p, hp, hpath⟩ := List.mem_map.1 (hps.binds ▸ List.mem_map_of_mem hb)
  have hsome : (form.tree.absolutePath b).isSome := by
    obtain ⟨bind, hbind⟩ := Option.isSome_iff_exists.1 (List.mem_filter.1 hb).2
    rw [Tree.absolutePath, hbind]
    rfl
  obtain ⟨path, habsolute⟩ := Option.isSome_iff_exists.1 hsome
  rw [habsolute, ← hps.named] at hpath
  exact ⟨path, habsolute, Form.select_ne_nil hps.apart hpath hfirst (hspelt p hp)
    (hps.covered hnames hcoherent p hp)⟩

theorem ncNamed_extended : extended.NCNamed := by
  have hnames : extended.elements.toList.all fun decl => IsNCName decl.name.localName := by decide
  refine ⟨fun decl hdecl => List.all_eq_true.1 hnames decl (by simpa using hdecl), fun use huse => ?_⟩
  exact absurd huse (by simp [extended])

theorem child_extended {t : TypeId} {c : ElementId} {o : Occurs}
    (h : Member.child c o ∈ (ofSchema extended {} (some .plain)).members t) :
    c = ⟨1⟩ ∨ c = ⟨2⟩ := by
  have hall : (List.range extended.types.size).all fun i =>
      (ofSchema extended {} (some .plain)).members ⟨i⟩ ⊆ [.child ⟨1⟩ .once, .child ⟨2⟩ .once] := by
    decide +kernel
  obtain ⟨i⟩ := t
  by_cases hi : i < extended.types.size
  · have hsub := of_decide_eq_true (List.all_eq_true.1 hall i (List.mem_range.2 hi))
    have hmem := hsub h
    simp only [List.mem_cons, Member.child.injEq, List.not_mem_nil, or_false] at hmem
    exact hmem.imp And.left And.left
  · have hnone : extended.complex? ⟨i⟩ = none := by
      have hany : extended.typeDef ⟨i⟩ = .any := by simp [Schema.typeDef, Array.getD, hi]
      rw [Schema.complex?, hany]
      rfl
    rw [members, show (ofSchema extended {} (some .plain)).schema.complex? ⟨i⟩ = none from hnone] at h
    cases h

/-- The two declarations in contents of the schema have different names. -/
theorem coherent_extended (e : ElementId) :
    (ofSchema extended {} (some .plain)).Coherent e := by
  intro t _ _ _ a _ b _ c o c' o' hc hc' hname
  change (extended.element c).name = (extended.element c').name at hname
  rcases child_extended hc with rfl | rfl <;> rcases child_extended hc' with rfl | rfl
  · rfl
  · exact absurd hname (by decide)
  · exact absurd hname (by decide)
  · rfl

theorem binds_select_data_extended :
    ∃ form, (ofSchema extended {} (some .plain)).generate "" { root := "e" } = .ok form ∧
      ∀ b ∈ form.tree.binds, ∃ path, form.tree.absolutePath b = some path ∧
        form.select path ≠ [] := by
  have hroot : extended.findElement (QName.of extended.target "e") = some ⟨0⟩ := by
    simp [extended, Schema.findElement, QName.of]
  obtain ⟨form, hform⟩ := generate_extended
  exact ⟨form, hform, binds_select_data extended {} ncNamed_extended .plain hform hroot
    fun e _ => coherent_extended e⟩

end Generator

end SchemaForms
