import SchemaForms.Proofs.Form.Tracing

/-!
Expanding elements: an element is expanded as its outline says.  The data of the cases of a switch
is merged by name; nothing is missing after that, when what has one name in all the cases is one
declaration.
-/

namespace SchemaForms

open Synthesis
open Xml (Element)

/-- An element has what a path leads to. -/
def Xml.Element.Has : Path → Element → Prop
  | [], _ => True
  | .child name :: p, e => ∃ c ∈ e.children, c.name = name ∧ Xml.Element.Has p c
  | .attr name :: p, e => p = [] ∧ ∃ a ∈ e.attributes, a.name = name
  | .xsiType :: p, e => p = [] ∧ ∃ a ∈ e.attributes, a.name = Generator.xsiType

/-- The names of declared elements and attributes are NCNames. -/
structure Schema.NCNamed (s : Schema) : Prop where
  elements : ∀ decl ∈ s.elements, IsNCName decl.name.localName = true
  uses : ∀ use ∈ s.uses, IsNCName use.decl.name.localName = true

namespace Generator

variable (g : Generator)

/-- In the contents that an element may have, a name stands for one declaration. -/
def Coherent (id : ElementId) : Prop :=
  ∀ t, (g.schema.element id).type = some t → (g.schema.complex? t).isSome →
    2 ≤ (g.candidates t).length → ∀ a ∈ g.candidates t, ∀ b ∈ g.candidates t,
      ∀ c o c' o', Member.child c o ∈ g.members a → Member.child c' o' ∈ g.members b →
        (g.schema.element c).name = (g.schema.element c').name → c = c'

/-- What is expected of an element when at most so many expansions can be opened. -/
def prospect (openings : Nat) (stack : List (ElementId × TypeId)) : Prospect where
  paths := g.outline openings stack
  exact := g.Unswitched
  covers id e := g.schema.NCNamed → (∀ c, g.Leads id c → g.Coherent c) →
    ∀ occurs, ∀ p ∈ g.outline openings stack id occurs, e.Has p

/-! Merging the data of a case. -/

theorem mergeCase_name (e data : Element) : (mergeCase e data).name = e.name := by
  have hattributes (attrs : List Xml.Attribute) (e : Element) :
      (attrs.foldl (fun e a => addAttribute e a.name a.nsPrefix a.value) e).name = e.name := by
    induction attrs generalizing e with
    | nil => rfl
    | cons a attrs ih => rw [List.foldl_cons, ih, addAttribute_name]
  have hchildren (cs : List Element) (e : Element) :
      (cs.foldl addNewChild e).name = e.name := by
    induction cs generalizing e with
    | nil => rfl
    | cons c cs ih =>
      rw [List.foldl_cons, ih]
      unfold addNewChild
      split <;> rfl
  rw [mergeCase, hchildren]
  exact hattributes data.attributes e

/-- Attributes are merged by name. -/
theorem attributes_foldl (attrs : List Xml.Attribute) (e : Element) :
    let merged := attrs.foldl (fun e a => addAttribute e a.name a.nsPrefix a.value) e
    e.attributes ⊆ merged.attributes ∧ merged.children = e.children ∧
      ∀ a ∈ attrs, ∃ b ∈ merged.attributes, b.name = a.name := by
  induction attrs generalizing e with
  | nil => exact ⟨List.Subset.refl _, rfl, fun _ ha => nomatch ha⟩
  | cons a attrs ih =>
    obtain ⟨hkept, hchildren, hnew⟩ := ih (addAttribute e a.name a.nsPrefix a.value)
    refine ⟨List.Subset.trans (attributes_addAttribute ..) hkept,
      hchildren.trans (children_addAttribute ..), fun b hb => ?_⟩
    rcases List.mem_cons.1 hb with rfl | hb
    · obtain ⟨c, hc, he⟩ := mem_addAttribute e b.name b.nsPrefix b.value
      exact ⟨c, hkept hc, he⟩
    · exact hnew b hb

/-- Children are merged by name. -/
theorem children_foldl (cs : List Element) (e : Element) :
    let merged := cs.foldl addNewChild e
    merged.attributes = e.attributes ∧ e.children ⊆ merged.children ∧
      merged.children ⊆ e.children ++ cs ∧
      ∀ c ∈ cs, ∃ c' ∈ merged.children, c'.name = c.name := by
  induction cs generalizing e with
  | nil => exact ⟨rfl, List.Subset.refl _, by simp, fun _ hc => nomatch hc⟩
  | cons c cs ih =>
    have hadd : (addNewChild e c).attributes = e.attributes ∧
        e.children ⊆ (addNewChild e c).children ∧
        (addNewChild e c).children ⊆ e.children ++ [c] ∧
        ∃ c' ∈ (addNewChild e c).children, c'.name = c.name := by
      unfold addNewChild
      split
      · next h =>
        obtain ⟨c', hc', he⟩ := List.any_eq_true.1 h
        exact ⟨rfl, List.Subset.refl _, List.subset_append_left .., c', hc', eq_of_beq he⟩
      · exact ⟨rfl, List.subset_append_left .., List.Subset.refl _, c,
          List.mem_append_right _ (List.mem_singleton_self c), rfl⟩
    obtain ⟨hattributes, hkept, hfrom, c', hc', hname⟩ := hadd
    obtain ⟨hattributes', hkept', hfrom', hnew⟩ := ih (addNewChild e c)
    refine ⟨hattributes'.trans hattributes, List.Subset.trans hkept hkept', fun x hx => ?_,
      fun b hb => ?_⟩
    · rcases List.mem_append.1 (hfrom' hx) with hx | hx
      · rcases List.mem_append.1 (hfrom hx) with hx | hx
        · exact List.mem_append_left _ hx
        · exact List.mem_append_right _ (List.mem_singleton.1 hx ▸ List.mem_cons_self ..)
      · exact List.mem_append_right _ (List.mem_cons_of_mem _ hx)
    · rcases List.mem_cons.1 hb with rfl | hb
      · exact ⟨c', hkept' hc', hname⟩
      · exact hnew b hb

/-- The element when attributes and text have been merged. -/
def mergeFields (e data : Element) : Element :=
  let e := data.attributes.foldl (fun e a => addAttribute e a.name a.nsPrefix a.value) e
  { e with text := e.text <|> data.text }

theorem mergeCase_eq (e data : Element) :
    mergeCase e data = data.children.foldl addNewChild (mergeFields e data) := rfl

theorem attributes_mergeCase (e data : Element) :
    e.attributes ⊆ (mergeCase e data).attributes ∧
      ∀ a ∈ data.attributes, ∃ b ∈ (mergeCase e data).attributes, b.name = a.name := by
  obtain ⟨hkept, -, hnew⟩ := attributes_foldl data.attributes e
  obtain ⟨hattributes, -⟩ := children_foldl data.children (mergeFields e data)
  rw [mergeCase_eq, hattributes]
  exact ⟨hkept, hnew⟩

theorem children_mergeCase (e data : Element) :
    e.children ⊆ (mergeCase e data).children ∧
      (mergeCase e data).children ⊆ e.children ++ data.children ∧
      ∀ c ∈ data.children, ∃ c' ∈ (mergeCase e data).children, c'.name = c.name := by
  have hchildren : (mergeFields e data).children = e.children :=
    (attributes_foldl data.attributes e).2.1
  obtain ⟨-, hmerged⟩ := children_foldl data.children (mergeFields e data)
  rwa [hchildren] at hmerged

end Generator

/-- The data of some cases has been merged: `all` are the members of all cases, `done` those of the
cases so far. -/
structure Merged (g : Generator) (pr : Prospect) (all done : List Member) (nodesets : List String)
    (t : PrefixTable) (e : Element) : Prop where
  children : ∀ c ∈ e.children, ∃ id o, Member.child id o ∈ all ∧
    c.name = (g.schema.element id).name ∧ pr.covers id c
  supplied : ∀ m ∈ done, g.memberPaths pr.paths m ≠ [] → m.In g pr e
  origins : ∀ x ∈ nodesets, ∃ m ∈ done, m.Makes g t x ∧ m.In g pr e

/-! Names tell members apart. -/

namespace Schema.NCNamed

variable {s : Schema}

/-- No name of an element has a character in it that no name goes on with. -/
theorem not_mem_element (h : s.NCNamed) (id : ElementId) {c : Char}
    (hc : continuesNCName c = false) : c ∉ (s.element id).name.localName.toList := by
  by_cases hi : id.index < s.elements.size
  · have hget : s.element id = s.elements[id.index] := by simp [element, Array.getD, hi]
    rw [hget]
    exact IsNCName.not_mem (h.elements _ (Array.getElem_mem hi)) hc
  · have hget : s.element id = default := by simp [element, Array.getD, hi]
    rw [hget]
    exact List.not_mem_nil

theorem not_mem_use (h : s.NCNamed) (id : UseId) {c : Char}
    (hc : continuesNCName c = false) : c ∉ (s.use id).decl.name.localName.toList := by
  by_cases hi : id.index < s.uses.size
  · have hget : s.use id = s.uses[id.index] := by simp [use, Array.getD, hi]
    rw [hget]
    exact IsNCName.not_mem (h.uses _ (Array.getElem_mem hi)) hc
  · have hget : s.use id = default := by simp [use, Array.getD, hi]
    rw [hget]
    exact List.not_mem_nil

/-- Such names can be steps of paths. -/
theorem steplike {g : Generator} (h : g.schema.NCNamed) (id : ElementId) : g.Steplike id := by
  intro _
  have hslash : ¬ (g.schema.element id).name.localName.startsWith "/" = true := fun hslash => by
    rw [String.startsWith_string_iff] at hslash
    exact h.not_mem_element id (c := '/') (by decide) (hslash.subset (by decide))
  by_cases hi : id.index < g.schema.elements.size
  · have hget : g.schema.element id = g.schema.elements[id.index] := by
      simp [element, Array.getD, hi]
    have hname := h.elements _ (Array.getElem_mem hi)
    rw [← hget] at hname
    refine ⟨fun hdot => ?_, hslash, fun hempty => ?_⟩
    · exact absurd (hdot ▸ hname) (by decide)
    · exact absurd (hempty ▸ hname) (by decide)
  · have hget : g.schema.element id = default := by simp [element, Array.getD, hi]
    refine ⟨fun hdot => ?_, hslash, fun _ t ht => ?_⟩
    · rw [hget] at hdot
      exact absurd hdot (by decide)
    · rw [hget] at ht
      cases ht

theorem passable {g : Generator} (h : g.schema.NCNamed) (id : ElementId) : g.Passable id :=
  ⟨h.steplike id, fun _ c _ _ => h.steplike c⟩

end Schema.NCNamed

namespace Member

variable {g : Generator} {pr : Prospect} {t : PrefixTable} {e : Element} {x : String}

/-- The bind that an attribute shares was made for an attribute of this name. -/
theorem use_in_of_shared (hnames : g.schema.NCNamed) (ht : t.Apart) {id : UseId}
    (hx : t.textOf (g.schema.use id).decl.name = some x) {m : Member} (hmakes : m.Makes g t ("@" ++ x))
    (hin : m.In g pr e) : Member.In g pr e (.use id) := by
  cases m with
  | value =>
    have := congrArg String.toList hmakes
    simp at this
  | use id' =>
    obtain ⟨y, hy, he⟩ := hmakes
    have hxy : x = y := by simpa using he
    have hname := ht.textOf_injective (hnames.not_mem_use id (by decide))
      (hnames.not_mem_use id' (by decide)) hx (hxy ▸ hy)
    obtain ⟨a, ha, hname'⟩ := hin
    exact ⟨a, ha, hname'.trans hname.symm⟩
  | child id' o =>
    obtain ⟨y, hy, he⟩ := hmakes
    have hat := ht.not_mem_textOf hy (hnames.not_mem_element id' (c := '@') (by decide)) (by decide)
      (by decide)
    have hmem : '@' ∈ ("@" ++ x).toList := by simp
    rcases he with he | he
    · exact absurd (he ▸ hmem) hat
    · have hlist := congrArg String.toList he
      cases hcs : y.toList with
      | nil => simp [hcs] at hlist
      | cons c cs =>
        have hc : '@' = c := by simpa [hcs] using congrArg (·.head?) hlist
        rw [hcs, hc] at hat
        exact absurd (List.mem_cons_self ..) hat

/-- The bind that an element shares was made for an element of this name. -/
theorem child_of_shared (hnames : g.schema.NCNamed) (ht : t.Apart) {id : ElementId}
    (hx : t.textOf (g.schema.element id).name = some x) {m : Member} (hmakes : m.Makes g t x) :
    ∃ id' o, m = .child id' o ∧ (g.schema.element id').name = (g.schema.element id).name := by
  have hslash := ht.not_mem_textOf hx (hnames.not_mem_element id (c := '/') (by decide)) (by decide)
    (by decide)
  have hat := ht.not_mem_textOf hx (hnames.not_mem_element id (c := '@') (by decide)) (by decide)
    (by decide)
  cases m with
  | value => exact absurd hmakes ((hnames.steplike id).pathInto ht.clean hx).1
  | use id' =>
    obtain ⟨y, -, rfl⟩ := hmakes
    exact absurd (by simp) hat
  | child id' o =>
    obtain ⟨y, hy, he⟩ := hmakes
    rcases he with rfl | rfl
    · exact ⟨id', o, rfl, ht.textOf_injective (hnames.not_mem_element id' (by decide))
        (hnames.not_mem_element id (by decide)) hy hx⟩
    · exact absurd (by simp) hslash

end Member

namespace Merged

variable {g : Generator} {pr : Prospect} {all done ms : List Member} {inherits : Bool}
  {nodesets : List String} {d d' : Draft} {s s' : Synthesis} {t : PrefixTable}
  {e bare data : Element}

/-- Merging another case loses nothing, where a name stands for one declaration. -/
theorem step (h : Merged g pr all done d.nodesets.roots s.prefixes e)
    (hnames : g.schema.NCNamed) (ht : s'.prefixes.Apart)
    (hcoherent : ∀ c o c' o', Member.child c o ∈ all → Member.child c' o' ∈ all →
      (g.schema.element c).name = (g.schema.element c').name → c = c')
    (hdone : done ⊆ all) (hms : ms ⊆ all)
    (hfilled : Filled g pr inherits ms d bare s d' data s') (hbare : bare.children = []) :
    Merged g pr all (done ++ ms) d'.nodesets.roots s'.prefixes (Generator.mergeCase e data) := by
  obtain ⟨hattrKept, hattrNew⟩ := Generator.attributes_mergeCase e data
  obtain ⟨hkept, hfrom, hnew⟩ := Generator.children_mergeCase e data
  have hchildren : ∀ c ∈ (Generator.mergeCase e data).children, ∃ id o, Member.child id o ∈ all ∧
      c.name = (g.schema.element id).name ∧ pr.covers id c := by
    intro c hc
    rcases List.mem_append.1 (hfrom hc) with hc | hc
    · exact h.children c hc
    · obtain ⟨new, hdata, hall⟩ := hfilled.children
      rw [hdata, hbare, List.nil_append] at hc
      obtain ⟨id, o, hm, hname, hcovers⟩ := hall c hc
      exact ⟨id, o, hms hm, hname, hcovers⟩
  have hold {m : Member} (hin : m.In g pr e) : m.In g pr (Generator.mergeCase e data) :=
    hin.mono hattrKept hkept
  have hcase {m : Member} (hm : m ∈ all) (hin : m.In g pr data) :
      m.In g pr (Generator.mergeCase e data) := by
    cases m with
    | value => trivial
    | use id =>
      obtain ⟨a, ha, hname⟩ := hin
      obtain ⟨b, hb, hname'⟩ := hattrNew a ha
      exact ⟨b, hb, hname'.trans hname⟩
    | child id o =>
      obtain ⟨c, hc, hname, -⟩ := hin
      obtain ⟨c', hc', hname'⟩ := hnew c hc
      obtain ⟨id', o', hm', hid', hcovers⟩ := hchildren c' hc'
      have hsame := hcoherent id' o' id o hm' hm (hid'.symm.trans (hname'.trans hname))
      exact ⟨c', hc', hname'.trans hname, hsame ▸ hcovers⟩
  have horigins : ∀ x ∈ d'.nodesets.roots, ∃ m ∈ done ++ ms, m.Makes g s'.prefixes x ∧
      m.In g pr (Generator.mergeCase e data) := by
    intro x hx
    rcases hfilled.origins x hx with hx | ⟨m, hm, hmakes, hin⟩
    · obtain ⟨m, hm, hmakes, hin⟩ := h.origins x hx
      exact ⟨m, List.mem_append_left _ hm, hmakes.mono hfilled.abides.prefixes, hold hin⟩
    · exact ⟨m, List.mem_append_right _ hm, hmakes, hcase (hms hm) hin⟩
  refine ⟨hchildren, fun m hm hpaths => ?_, horigins⟩
  rcases List.mem_append.1 hm with hm | hm
  · exact hold (h.supplied m hm hpaths)
  · rcases hfilled.supplied m hm hpaths with hin | ⟨-, hshared⟩
    · exact hcase (hms hm) hin
    · -- the bind that is shared was made for a declaration of this name
      cases m with
      | value => trivial
      | use id =>
        obtain ⟨x, hx, hmem⟩ := hshared
        obtain ⟨m', -, hmakes, hin⟩ := horigins _ hmem
        exact Member.use_in_of_shared hnames ht hx hmakes hin
      | child id o =>
        obtain ⟨x, hx, hmem⟩ := hshared
        obtain ⟨m', hm', hmakes, hin⟩ := horigins _ hmem
        obtain ⟨id', o', rfl, hname⟩ := Member.child_of_shared hnames ht hx hmakes
        have hall := (List.append_subset.2 ⟨hdone, hms⟩) hm'
        have hsame := hcoherent id' o' id o hall (hms hm) hname
        subst hsame
        exact hin

end Merged

/-- Cases for some members have been added to a switch, and their data merged into an element. -/
structure Cased (g : Generator) (pr : Prospect) (ms : List Member) (d : Draft) (e : Element)
    (s : Synthesis) (e' : Element) (d' : Draft) (s' : Synthesis) : Prop where
  abides : s.Abides s'
  named : e'.name = e.name
  attributes : e.attributes ⊆ e'.attributes
  traced : ∃ f ps, d'.nodesets = d.nodesets ++ f ∧ Traces s'.prefixes (fun up => up) f ps ∧
    ps.Sublist (ms.flatMap (g.memberPaths pr.paths))
  merged : g.schema.NCNamed → ∀ all, (∀ c o c' o', Member.child c o ∈ all →
    Member.child c' o' ∈ all → (g.schema.element c).name = (g.schema.element c').name → c = c') →
    ms ⊆ all → ∀ done ⊆ all, Merged g pr all done d.nodesets.roots s.prefixes e →
    Merged g pr all (done ++ ms) d'.nodesets.roots s'.prefixes e'

namespace Cased

variable {g : Generator} {pr : Prospect} {ms ms' : List Member} {d d' d'' : Draft}
  {e e' e'' : Element} {s s' s'' : Synthesis}

theorem refl (d : Draft) (e : Element) (s : Synthesis) : Cased g pr [] d e s e d s where
  abides := .refl s
  named := rfl
  attributes := List.Subset.refl _
  traced := ⟨.nil, [], (Forest.append_nil _).symm, .nil, List.Sublist.refl _⟩
  merged _ _ _ _ _ _ h := by rwa [List.append_nil]

theorem trans (h : Cased g pr ms d e s e' d' s') (h' : Cased g pr ms' d' e' s' e'' d'' s'') :
    Cased g pr (ms ++ ms') d e s e'' d'' s'' where
  abides := h.abides.trans h'.abides
  named := h'.named.trans h.named
  attributes := List.Subset.trans h.attributes h'.attributes
  traced := by
    obtain ⟨f, ps, hf, htraces, hsub⟩ := h.traced
    obtain ⟨f', ps', hf', htraces', hsub'⟩ := h'.traced
    refine ⟨f ++ f', ps ++ ps', by rw [hf', hf, Forest.append_assoc],
      (htraces.mono h'.abides.prefixes).append htraces', ?_⟩
    rw [List.flatMap_append]
    exact hsub.append hsub'
  merged hnames all hcoherent hms done hdone hmerged := by
    obtain ⟨hfirst, hsecond⟩ := List.append_subset.1 hms
    have hmiddle := h.merged hnames all hcoherent hfirst done hdone hmerged
    rw [← List.append_assoc]
    exact h'.merged hnames all hcoherent hsecond _ (List.append_subset.2 ⟨hdone, hfirst⟩) hmiddle

/-- One case: its members are added to bare data, which is then merged. -/
theorem one {inherits : Bool} {bare data : Element} (hs : s.prefixes.Apart)
    (h : Filled g pr inherits ms d bare s d' data s') (hbare : bare.children = []) :
    Cased g pr ms d e s (Generator.mergeCase e data) d' s' where
  abides := h.abides
  named := Generator.mergeCase_name e data
  attributes := (Generator.attributes_mergeCase e data).1
  traced := by
    obtain ⟨f, ps, hf, htraces, hsub, -⟩ := h.traced
    exact ⟨f, ps, hf, htraces, hsub⟩
  merged hnames all hcoherent hms done hdone hmerged :=
    hmerged.step hnames (h.abides.prefixes.apart hs) hcoherent hdone hms h hbare

/-- Cases keep what they do behind other controls, and inside one. -/
theorem of_nodesets {d₁ d₂ : Draft} (h : Cased g pr ms d₁ e s' e' d₂ s'') (hs : s.Abides s')
    (hd : d₁.nodesets = d.nodesets) (hd' : d'.nodesets = d₂.nodesets) :
    Cased g pr ms d e s e' d' s'' where
  abides := hs.trans h.abides
  named := h.named
  attributes := h.attributes
  traced := by
    obtain ⟨f, ps, hf, h⟩ := h.traced
    exact ⟨f, ps, by rw [hd', hf, hd], h⟩
  merged hnames all hcoherent hms done hdone hmerged := by
    rw [hd']
    refine h.merged hnames all hcoherent hms done hdone ⟨hmerged.children, hmerged.supplied, ?_⟩
    intro x hx
    obtain ⟨m, hm, hmakes, hin⟩ := hmerged.origins x (hd ▸ hx)
    exact ⟨m, hm, hmakes.mono hs.prefixes, hin⟩

end Cased

namespace Sketch

open Generator (addAttribute mergeCase xsiType addAttribute_name children_addAttribute
  mem_addAttribute)

variable {g : Generator} {pr : Prospect} {stack : List (ElementId × TypeId)} {child : ChildSketch}

theorem relevant_typeBind (g : Generator) (label : String) (count : Nat) :
    (g.typeBind label count).relevant = none := by
  unfold Generator.typeBind
  split <;> rfl

theorem guardCase_ends (existing : Nat) (t declared : TypeId) (d : Draft) (s : Synthesis) :
    (guardCase g existing t declared).Ends d s fun _ d' s' =>
      s.Abides s' ∧ d'.nodesets = d.nodesets := by
  unfold guardCase
  split
  · unfold applyRelevance
    rw [ends_bind, ends_lift, ends_modify]
    exact ⟨Calm.typeConditions _ s, Kid.nodesets_of_core (core_guardKids ..)⟩
  · exact ⟨.refl s, rfl⟩

theorem unshare_ends (d : Draft) (s : Synthesis) :
    unshare.Ends d s fun _ d' s' => s.Abides s' ∧ d'.nodesets = d.nodesets := by
  refine ⟨.refl s, Kid.nodesets_of_core ?_⟩
  change (d.kids.map fun kid => { kid with shared := false }).map Kid.core = _
  rw [List.map_map]
  rfl

theorem typeCase_ends (hchild : Expands g pr stack child) (owner : ElementId) (declared : TypeId)
    (isFirst : Bool) (e : Element) {t : TypeId} (caseId : String)
    (hms : ∀ c o, Member.child c o ∈ g.members t → g.Passable c) {d : Draft} {s : Synthesis}
    (hs : s.expanding = stack) (hapart : s.prefixes.Apart) :
    (typeCase g child owner declared isFirst e t caseId).Ends d s
      (Cased g pr (g.members t) d e s) := by
  unfold typeCase
  rw [ends_within, ends_bind, ends_get, ends_bind]
  let bare := Element.ofName (g.schema.element owner).name
  have hfilled := complex_fills (f := ⟨t, owner, decide (t ≠ declared)⟩) hchild hms .once
    { d with controls := .nil } bare s hs hapart
  refine hfilled.mono fun data d₁ s₁ hfilled => ?_
  rw [ends_bind]
  refine (guardCase_ends _ t declared d₁ s₁).mono fun _ d₂ s₂ ⟨habides, hd⟩ => ?_
  rw [ends_bind]
  refine (unshare_ends d₂ s₂).mono fun _ d₃ s₃ ⟨habides', hd'⟩ => ?_
  rw [ends_pure]
  have hend : Filled g pr (decide (t ≠ declared)) [] d₁ data s₁ d₃ data s₃ :=
    .still (habides.trans habides') (hd'.trans hd)
  have hall := hfilled.trans hend
  rw [List.append_nil] at hall
  exact .one hapart (hall.congr rfl rfl) rfl

theorem typeCases_ends (hchild : Expands g pr stack child) (owner : ElementId)
    (declared : TypeId) (isFirst : Bool) (e : Element) {cases : List (TypeId × String)}
    (hms : ∀ t ∈ cases.map (·.1), ∀ c o, Member.child c o ∈ g.members t → g.Passable c)
    {d : Draft} {s : Synthesis} (hs : s.expanding = stack) (hapart : s.prefixes.Apart) :
    (typeCases g child owner declared isFirst e cases).Ends d s
      (Cased g pr ((cases.map (·.1)).flatMap g.members) d e s) := by
  induction cases generalizing isFirst e d s with
  | nil => exact .refl d e s
  | cons c cases ih =>
    rw [typeCases, ends_bind]
    rw [List.map_cons] at hms
    refine (typeCase_ends hchild owner declared isFirst e c.2 (hms c.1 (List.mem_cons_self ..)) hs
      hapart).mono fun e₁ d₁ s₁ hfirst => ?_
    refine (ih false e₁ (fun t ht => hms t (List.mem_cons_of_mem _ ht)) (hfirst.abides.stack.trans hs)
      (hfirst.abides.prefixes.apart hapart)).mono fun e₂ d₂ s₂ hrest => ?_
    exact hfirst.trans hrest

/-- Whether items are repeated makes no difference to binds and data. -/
theorem items_ends {α : Type} {p : Sketch α} {bind : Option String} {occurs : Occurs} {d : Draft}
    {s : Synthesis} {Q : α → Draft → Synthesis → Prop}
    (hp : ∀ d₁ s₁, d₁.nodesets = d.nodesets → s.Abides s₁ → p.Ends d₁ s₁ Q)
    (hQ : ∀ a d₁ d₂ s, d₂.nodesets = d₁.nodesets → Q a d₁ s → Q a d₂ s) :
    (items bind occurs p).Ends d s Q := by
  unfold items
  split
  · unfold repeated repeatOf
    simp only [ends_bind, ends_lift, ends_within]
    refine (hp { d with controls := .nil } _ rfl ?_).mono fun a d₁ s₁ h => hQ a d₁ _ s₁ rfl h
    exact (Calm.allocate _ _).trans ((Calm.reportUngoverned _ _ _).trans (Calm.repeatActions _ _ _))
  · exact hp d s rfl (.refl s)

theorem length_typeChoices (g : Generator) (ts : List TypeId) (s : Synthesis) :
    (g.typeChoices ts s).1.length = ts.length := by
  induction ts generalizing s with
  | nil => rfl
  | cons t ts ih =>
    change (_ :: (g.typeChoices ts _).1).length = _
    rw [List.length_cons, ih, List.length_cons]

/-- The path of a nodeset goes on with the name of a type. -/
theorem pathInto_xsiType {path : String} (hdot : path ≠ ".") (hempty : path ≠ "") (up : String) :
    pathInto up (path ++ "/@xsi:type") = pathInto up path ++ "/@xsi:type" := by
  have hslash : (path ++ "/@xsi:type").startsWith "/" = path.startsWith "/" := by
    rw [Bool.eq_iff_iff, String.startsWith_string_iff, String.startsWith_string_iff]
    cases hlist : path.toList with
    | nil => exact absurd (String.toList_eq_nil_iff.1 hlist) hempty
    | cons c cs => simp [hlist]
  have hlong : path ++ "/@xsi:type" ≠ "." := fun h => by
    have hmem : '@' ∈ (path ++ "/@xsi:type").toList := by simp
    rw [h] at hmem
    exact absurd hmem (by decide)
  unfold pathInto
  rw [if_neg hlong, if_neg hdot, hslash]
  split
  · rfl
  · simp [String.append_assoc]

/-- What a switch makes of an element: its type is named, and the data of the cases merged in. -/
def Switched (g : Generator) (pr : Prospect) (ms : List Member) (e : Element) (s : Synthesis)
    (e' : Element) (d' : Draft) (s' : Synthesis) : Prop :=
  ∃ e₀ d₀ s₀, e₀.name = e.name ∧ (∃ a ∈ e₀.attributes, a.name = xsiType) ∧
    e₀.children = e.children ∧ d₀.nodesets = .nil ∧ s.Abides s₀ ∧
    Cased g pr ms d₀ e₀ s₀ e' d' s'

theorem Switched.congr {ms : List Member} {e e' : Element} {s s₁ s' : Synthesis} {d' d'' : Draft}
    (h : Switched g pr ms e s₁ e' d' s') (hs : s.Abides s₁) (hd : d''.nodesets = d'.nodesets) :
    Switched g pr ms e s e' d'' s' := by
  obtain ⟨e₀, d₀, s₀, hname, htype, hchildren, hd₀, hs₀, hcased⟩ := h
  exact ⟨e₀, d₀, s₀, hname, htype, hchildren, hd₀, hs.trans hs₀,
    hcased.of_nodesets (.refl s₀) rfl hd⟩

/-- A switch adds the bind of its discriminator, and the bind of the element around those of all
cases. -/
theorem switch_ends (hchild : Expands g pr stack child) (e : Element) (owner : ElementId)
    (declared : TypeId) {types : List TypeId} (path : String) (occurs : Occurs)
    (hms : ∀ t ∈ types, ∀ c o, Member.child c o ∈ g.members t → g.Passable c) {d : Draft}
    {s : Synthesis} (hs : s.expanding = stack) (hapart : s.prefixes.Apart) :
    (switch g child e owner declared types path occurs).Ends d s fun e' d' s' =>
      ∃ d₁ : Draft, Switched g pr (types.flatMap g.members) e s e' d₁ s' ∧
        d'.nodesets = d.nodesets ++ (.leaf (path ++ "/@xsi:type") ++ .tree path d₁.nodesets) := by
  unfold switch
  rw [ends_bind, ends_lift, ends_bind]
  have hdisc : Lays (withKid (g.typeBind (caption ((g.schema.element owner).name.localName ++ " Type"))
      types.length) (path ++ "/@xsi:type") ownId) (.leaf (path ++ "/@xsi:type")) :=
    .withKid (.look fun d => .pure _) _ _
  refine (hdisc d _).mono fun bindId d₁ s₁ ⟨hs₁, hd₁⟩ => ?_
  rw [ends_withKid, ends_bind, ends_get]
  dsimp only
  have hbefore := ((Calm.allocate "select1" s).trans hs₁).trans (Calm.allocate "bind" s₁)
  refine Ends.mono (Q := Switched g pr (types.flatMap g.members) e s)
    (items_ends (fun d₂ s₂ hd₂ hs₂ => ?_) fun _ _ _ s₂ hd₂ h => h.congr (.refl s) hd₂)
    fun e' d' s' h => ?_
  · simp only [ends_bind, ends_lift, ends_leaves, ends_within]
    have hprompt := Calm.promptChoice (g := g)
      (caption ((g.schema.element owner).name.localName ++ " Type")) types.length s₂
    generalize g.promptChoice _ _ s₂ = prompt at hprompt ⊢
    have hchoices := Calm.typeChoices (g := g) types prompt.2
    have hlength := length_typeChoices g types prompt.2
    generalize g.typeChoices types prompt.2 = choices at hchoices hlength ⊢
    have hids := (((Calm.allocate "trigger" choices.2).trans (Calm.allocate "action" _)).trans
      (Calm.allocate "dispatch" _)).trans (Calm.allocate "switch" _)
    generalize (allocate "switch" _).2 = s₃ at hids ⊢
    have hfirst := Calm.typeValue (g := g) (types.headD declared) s₃
    generalize g.typeValue (types.headD declared) s₃ = first at hfirst ⊢
    have hs₀ := (((hbefore.trans hs₂).trans (hprompt.trans hchoices)).trans hids).trans hfirst
    have hcases : (types.zip (choices.1.map (·.2))).map (·.1) = types :=
      List.map_fst_zip (by simp [hlength])
    refine (typeCases_ends hchild owner declared true _ (by rwa [hcases]) (hs₀.stack.trans hs)
      (hs₀.prefixes.apart hapart)).mono fun e' d' s' hcased => ?_
    rw [hcases] at hcased
    refine ⟨_, d₂, _, addAttribute_name .., mem_addAttribute .., children_addAttribute .., hd₂, hs₀,
      hcased.of_nodesets (.refl _) rfl rfl⟩
  · refine ⟨d', h, (d₁.nodesets_add _).trans ?_⟩
    rw [hd₁, Forest.append_assoc]
    rfl

/-- The bind of an element is around those of its content. -/
theorem withKid_complex_ends (hchild : Expands g pr stack child) (e : Element) (owner : ElementId)
    {t : TypeId} (path : String) (occurs : Occurs)
    (hms : ∀ c o, Member.child c o ∈ g.members t → g.Passable c) {d : Draft} {s : Synthesis}
    (hs : s.expanding = stack) (hapart : s.prefixes.Apart) :
    (withKid {} path (complex g child ⟨t, owner, false⟩ e occurs)).Ends d s fun e' d' s' =>
      ∃ (d₀ d₁ : Draft) (s₀ : Synthesis), d₀.nodesets = .nil ∧ s.Abides s₀ ∧
        Filled g pr false (g.members t) d₀ e s₀ d₁ e' s' ∧
        d'.nodesets = d.nodesets ++ .tree path d₁.nodesets := by
  rw [ends_withKid]
  have hs₀ := Calm.allocate "bind" s
  refine (complex_fills (f := ⟨t, owner, false⟩) hchild hms occurs _ e _ (hs₀.stack.trans hs)
    (hs₀.prefixes.apart hapart)).mono fun e' d' s' hfilled => ?_
  exact ⟨_, d', _, rfl, hs₀, hfilled, d.nodesets_add _⟩

/-- An element without a choice of types is filled as the one type, which it may name. -/
theorem plain_ends (hchild : Expands g pr stack child) (e : Element) (owner : ElementId)
    (declared : TypeId) {resolved : TypeId} (path : String) (occurs : Occurs)
    (hms : ∀ c o, Member.child c o ∈ g.members resolved → g.Passable c) {d : Draft}
    {s : Synthesis} (hs : s.expanding = stack) (hapart : s.prefixes.Apart) :
    (plain g child e owner declared resolved path occurs).Ends d s fun e' d' s' =>
      ∃ (e₀ : Element) (d₀ d₁ : Draft) (s₀ : Synthesis), e₀.name = e.name ∧ d₀.nodesets = .nil ∧
        s.Abides s₀ ∧ Filled g pr false (g.members resolved) d₀ e₀ s₀ d₁ e' s' ∧
        d'.nodesets = d.nodesets ++ .tree path d₁.nodesets := by
  unfold plain
  split
  · refine (withKid_complex_ends hchild e owner path occurs hms hs hapart).mono
      fun e' d' s' ⟨d₀, d₁, s₀, hd₀, hs₀, hfilled, hd⟩ => ?_
    exact ⟨e, d₀, d₁, s₀, rfl, hd₀, hs₀, hfilled, hd⟩
  · rw [ends_bind, ends_lift]
    have hvalue := Calm.typeValue (g := g) resolved s
    refine (withKid_complex_ends hchild _ owner path occurs hms (hvalue.stack.trans hs)
      (hvalue.prefixes.apart hapart)).mono
      fun e' d' s' ⟨d₀, d₁, s₀, hd₀, hs₀, hfilled, hd⟩ => ?_
    exact ⟨_, d₀, d₁, s₀, addAttribute_name .., hd₀, hvalue.trans hs₀, hfilled, hd⟩

/-! One element. -/

/-- What stands for a member has all the paths of the member. -/
theorem has_of_in {openings : Nat} {m : Member} {e : Element} {p : Path}
    (hnames : g.schema.NCNamed)
    (hcoherent : ∀ c o, m = .child c o → ∀ c', g.Leads c c' → g.Coherent c')
    (hin : m.In g (g.prospect openings stack) e)
    (hp : p ∈ g.memberPaths (g.outline openings stack) m) : e.Has p := by
  cases m with
  | value =>
    rw [List.mem_singleton.1 hp]
    trivial
  | use id =>
    rw [Generator.memberPaths] at hp
    split at hp
    · rw [List.mem_singleton.1 hp]
      exact ⟨rfl, hin⟩
    · cases hp
  | child id occurs =>
    obtain ⟨q, hq, rfl⟩ := List.mem_map.1 hp
    obtain ⟨c, hc, hname, hcovers⟩ := hin
    exact ⟨c, hc, hname, hcovers hnames (hcoherent id occurs rfl) occurs q hq⟩

/-- An expansion that is closed again leaves those around it as they were. -/
theorem abides_leave {s s' : Synthesis} {x : ElementId × TypeId}
    (h : Abides { s with expanding := x :: s.expanding } s') :
    s.Abides { s' with expanding := s'.expanding.tail } :=
  ⟨by rw [h.stack, List.tail_cons], h.prefixes⟩

section Expansion

variable {openings : Nat} {id : ElementId} {t : TypeId} {path : String} {occurs : Occurs}
  {e e' : Element} {d d' : Draft} {s s' : Synthesis}

/-- An element of a simple type has its own path, and once more if it may occur several times. -/
theorem field_expanded (htype : (g.schema.element id).type = some t)
    (ht : g.schema.complex? t = none) (owner : Generator.Owner) :
    (do field g t owner path occurs; return some e : Sketch (Option Element)).Ends d s
      (Expanded g (g.prospect (openings + 1) stack) id path occurs e d s) := by
  rw [ends_bind]
  refine (lays_field g t owner path occurs d s).mono fun _ d' s' ⟨hs', hd'⟩ => ?_
  rw [ends_pure]
  have hpaths (o : Occurs) : (g.prospect (openings + 1) stack).paths id o =
      if o.isMultiple then [[], []] else [[]] := Generator.outline_simple htype ht
  refine ⟨hs', ⟨_, _, hd', ?_, List.Sublist.refl _, fun _ => rfl, fun x hx => ?_⟩, nofun, ?_⟩
  · rw [hpaths]
    split
    · exact Traces.tree fun up => .cons ⟨"", rfl, by simp [pathInto]⟩ .nil
    · exact Traces.tree .nil
  · exact .inl (List.mem_singleton.1 hx)
  · rintro c ⟨⟩
    refine ⟨rfl, fun _ _ o p hp => ?_⟩
    have hnil : p = [] := by
      have hmem : p ∈ (g.prospect (openings + 1) stack).paths id o := hp
      rw [hpaths] at hmem
      split at hmem <;> simpa using hmem
    rw [hnil]
    trivial

/-- The members of the types that an element may have are all its outline consists of. -/
theorem covers_complex (htype : (g.schema.element id).type = some t)
    (ht : (g.schema.complex? t).isSome) (hmem : (id, t) ∉ stack)
    (hswitch : 2 ≤ (g.candidates t).length → ∃ a ∈ e.attributes, a.name = xsiType)
    (hin : g.schema.NCNamed → g.Coherent id → ∀ t' ∈ g.fillings t, ∀ m ∈ g.members t',
      g.memberPaths (g.outline openings ((id, t) :: stack)) m ≠ [] →
        m.In g (g.prospect openings ((id, t) :: stack)) e) :
    (g.prospect (openings + 1) stack).covers id e := by
  intro hnames hcoherent occurs p hp
  rw [Generator.outline_complex htype ht hmem, List.mem_append, List.mem_cons, List.mem_flatMap] at hp
  rcases hp with hp | rfl | ⟨t', ht', hp⟩
  · split at hp
    · next hlength =>
      rw [List.mem_singleton.1 hp]
      exact ⟨rfl, hswitch hlength⟩
    · cases hp
  · trivial
  · obtain ⟨m, hm, hp⟩ := List.mem_flatMap.1 hp
    refine has_of_in hnames (fun c o hc c' hlead => ?_)
      (hin hnames (hcoherent id .refl) t' ht' m hm (List.ne_nil_of_mem hp)) hp
    have hholds : g.Holds id c := ⟨t, htype, ht, t', ht', o, hc ▸ hm⟩
    exact hcoherent c' (hholds.leads hlead)

theorem plain_expanded (htype : (g.schema.element id).type = some t)
    (ht : (g.schema.complex? t).isSome) (hmem : (id, t) ∉ stack) {resolved : TypeId}
    (hresolved : g.fillings t = [resolved]) (hlength : (g.candidates t).length ≤ 1)
    (hchild : Expands g (g.prospect openings ((id, t) :: stack)) ((id, t) :: stack) child)
    (hid : g.Navigable id) (hs : s.expanding = stack) (hapart : s.prefixes.Apart) :
    (plain g child e id t resolved path occurs).Ends d
      { s with expanding := (id, t) :: s.expanding } fun e' d' s' =>
        Expanded g (g.prospect (openings + 1) stack) id path occurs e d s (some e') d'
          { s' with expanding := s'.expanding.tail } := by
  have hheld {c : ElementId} {o : Occurs} (hc : Member.child c o ∈ g.members resolved) :
      g.Holds id c := ⟨t, htype, ht, resolved, hresolved ▸ List.mem_singleton_self _, o, hc⟩
  have hopen : ({ s with expanding := (id, t) :: s.expanding } : Synthesis).expanding =
      (id, t) :: stack := congrArg ((id, t) :: ·) hs
  refine (plain_ends (d := d) hchild e id t path occurs (fun c o hc => hid.below (hheld hc))
    hopen hapart).mono
    fun e' d' s' ⟨e₀, d₀, d₁, s₀, hname, hd₀, hs₀, hfilled, hd'⟩ => ?_
  obtain ⟨f, ps, hf, htraces, hsub, hexact⟩ := hfilled.traced
  rw [hd₀, Forest.nil_append] at hf
  have hpaths : (g.prospect (openings + 1) stack).paths id occurs =
      [] :: (g.members resolved).flatMap
        (g.memberPaths (g.outline openings ((id, t) :: stack))) := by
    change g.outline (openings + 1) stack id occurs = _
    rw [Generator.outline_complex htype ht hmem, if_neg (by omega), hresolved]
    simp
  refine ⟨abides_leave (hs₀.trans hfilled.abides), ⟨.tree path f, [] :: ps, hf ▸ hd',
    htraces.tree, ?_, fun hunswitched => ?_, fun x hx => .inl (List.mem_singleton.1 hx)⟩, nofun, ?_⟩
  · rw [hpaths]
    exact hsub.cons_cons _
  · rw [hpaths]
    exact congrArg _ (hexact rfl fun c o hc e' hlead => hunswitched e' ((hheld hc).leads hlead))
  · rintro c ⟨⟩
    refine ⟨hfilled.named.trans hname, covers_complex htype ht hmem (fun h => by omega) ?_⟩
    intro _ _ t' ht' m hm hm'
    rw [hresolved, List.mem_singleton] at ht'
    subst ht'
    exact (hfilled.supplied m hm hm').resolve_right fun h => nomatch h.1

theorem switch_expanded (htype : (g.schema.element id).type = some t)
    (ht : (g.schema.complex? t).isSome) (hmem : (id, t) ∉ stack)
    (hlength : 2 ≤ (g.candidates t).length)
    (hchild : Expands g (g.prospect openings ((id, t) :: stack)) ((id, t) :: stack) child)
    (hid : g.Navigable id) (hs : s.expanding = stack) (hapart : s.prefixes.Apart)
    (hchildren : e.children = []) (hdot : path ≠ ".") (hempty : path = "" → g.Plain id) :
    (switch g child e id t (g.candidates t) path occurs).Ends d
      { s with expanding := (id, t) :: s.expanding } fun e' d' s' =>
        Expanded g (g.prospect (openings + 1) stack) id path occurs e d s (some e') d'
          { s' with expanding := s'.expanding.tail } := by
  have hfillings : g.fillings t = g.candidates t := by
    unfold Generator.fillings
    split
    · next h => simp [h] at hlength
    · rfl
  have hheld {t' : TypeId} (ht' : t' ∈ g.candidates t) {c : ElementId} {o : Occurs}
      (hc : Member.child c o ∈ g.members t') : g.Holds id c :=
    ⟨t, htype, ht, t', hfillings ▸ ht', o, hc⟩
  have hchoice : ¬ g.Plain id := fun h => absurd (h t htype ht) (by omega)
  have hopen : ({ s with expanding := (id, t) :: s.expanding } : Synthesis).expanding =
      (id, t) :: stack := congrArg ((id, t) :: ·) hs
  refine (switch_ends (d := d) hchild e id t path occurs
    (fun t' ht' c o hc => hid.below (hheld ht' hc)) hopen hapart).mono
    fun e' d' s' ⟨d₁, ⟨e₀, d₀, s₀, hname, hnamed, hbare, hd₀, hs₀, hcased⟩, hd'⟩ => ?_
  obtain ⟨f, ps, hf, htraces, hsub⟩ := hcased.traced
  rw [hd₀, Forest.nil_append] at hf
  have hpaths : (g.prospect (openings + 1) stack).paths id occurs =
      [[.xsiType]] ++ ([] :: ((g.candidates t).flatMap g.members).flatMap
        (g.memberPaths (g.outline openings ((id, t) :: stack)))) := by
    change g.outline (openings + 1) stack id occurs = _
    rw [Generator.outline_complex htype ht hmem, if_pos hlength, hfillings, List.flatMap_assoc]
  have hdisc : Traces s'.prefixes (fun up => pathInto up path) (.leaf (path ++ "/@xsi:type"))
      [[.xsiType]] := fun up =>
    .cons ⟨"/@xsi:type", rfl, pathInto_xsiType hdot (fun h => hchoice (hempty h)) up⟩ .nil
  refine ⟨abides_leave (hs₀.trans hcased.abides), ⟨_, _, hf ▸ hd', hdisc.append htraces.tree, ?_,
    fun hunswitched => absurd (hunswitched id .refl) hchoice, fun x hx => ?_⟩, nofun, ?_⟩
  · rw [hpaths]
    exact (List.Sublist.refl _).append (hsub.cons_cons _)
  · rw [Forest.roots_append, List.mem_append] at hx
    exact hx.symm.imp List.mem_singleton.1 List.mem_singleton.1
  · rintro c ⟨⟩
    obtain ⟨a, ha, hxsi⟩ := hnamed
    refine ⟨hcased.named.trans hname, covers_complex htype ht hmem
      (fun _ => ⟨a, hcased.attributes ha, hxsi⟩) fun hnames hcoherent t' ht' m hm hm' => ?_⟩
    have hsame : ∀ c o c' o', Member.child c o ∈ (g.candidates t).flatMap g.members →
        Member.child c' o' ∈ (g.candidates t).flatMap g.members →
        (g.schema.element c).name = (g.schema.element c').name → c = c' := by
      intro c o c' o' hc hc'
      obtain ⟨a, ha, hc⟩ := List.mem_flatMap.1 hc
      obtain ⟨b, hb, hc'⟩ := List.mem_flatMap.1 hc'
      exact hcoherent t htype ht hlength a ha b hb c o c' o' hc hc'
    have hmerged := hcased.merged hnames _ hsame (List.Subset.refl _) [] (List.nil_subset _)
      ⟨by simp [hbare, hchildren], by simp, by simp [hd₀, Forest.roots]⟩
    rw [hfillings] at ht'
    exact hmerged.supplied m (List.mem_flatMap.2 ⟨t', ht', hm⟩) hm'

end Expansion

/-- An element is expanded as its outline says, whatever expansions are under way. -/
theorem element_expands (g : Generator) (openings : Nat) (stack : List (ElementId × TypeId)) :
    Expands g (g.prospect openings stack) stack (element g openings) := by
  induction openings generalizing stack with
  | zero => exact fun _ _ _ _ _ s _ _ _ _ _ _ => .leaveOut (.refl s) rfl
  | succ openings ih =>
    intro e id path occurs d s hs hapart hchildren hid hdot hempty
    unfold element expand
    dsimp only
    cases htype : (g.schema.element id).type with
    | none =>
      dsimp only
      rw [ends_bind, ends_lift, ends_pure]
      exact .leaveOut (Calm.report _ s) (Generator.outline_untyped htype)
    | some t =>
      dsimp only
      cases ht : g.schema.complex? t with
      | none =>
        rw [if_pos Option.isNone_none]
        exact field_expanded htype ht _
      | some c =>
        have hsome : (g.schema.complex? t).isSome := by rw [ht]; rfl
        have hchild := ih ((id, t) :: stack)
        rw [if_neg (by simp), ends_bind, ends_lift]
        by_cases hmem : (id, t) ∈ stack
        · have henter : enter id t s = (false, s) := by simp [enter, hs, hmem]
          rw [henter, if_neg (by simp), ends_bind, ends_lift, ends_pure]
          exact .leaveOut (Calm.report _ s) (Generator.outline_recursive htype hsome hmem)
        · have henter : enter id t s = (true, { s with expanding := (id, t) :: s.expanding }) := by
            simp [enter, hs, hmem]
          rw [henter, if_pos rfl]
          split
          · next hnone =>
            rw [ends_bind]
            exact plain_expanded htype hsome hmem (by simp [Generator.fillings, hnone])
              (by simp [hnone]) hchild hid hs hapart
          · next resolved hone =>
            rw [ends_bind]
            exact plain_expanded htype hsome hmem (by simp [Generator.fillings, hone])
              (by simp [hone]) hchild hid hs hapart
          · next hnone hone =>
            have hlength : 2 ≤ (g.candidates t).length := by
              rcases hlist : g.candidates t with _ | ⟨resolved, _ | ⟨t', ts⟩⟩
              · exact absurd hlist hnone
              · exact absurd hlist (hone resolved)
              · simp
            rw [ends_bind]
            exact switch_expanded htype hsome hmem hlength hchild hid hs hapart hchildren hdot
              hempty

end Sketch

end SchemaForms
