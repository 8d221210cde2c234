import SchemaForms.Proofs.Form.Resolving
import SchemaForms.Proofs.Form.Serving

/-!
The generator serves all binds and controls: what it makes of text, attributes, children, types and
choices of types, and of an element with all that is inside.  Main statement:
`binds_and_controls_serve`.
-/

namespace SchemaForms

open Synthesis
open Forest (tree)
open Xml (Element)

/-- Names are written with a sign for attributes in front only if they have it themselves. -/
theorem PrefixTable.Apart.not_startsWith_textOf {t : PrefixTable} (h : t.Apart) {name : QName}
    {text : String} (ht : t.textOf name = some text)
    (hname : ¬ name.localName.startsWith "@" = true) : ¬ text.startsWith "@" = true := by
  unfold PrefixTable.textOf at ht
  cases hns : name.nspace with
  | none =>
    rw [hns] at ht
    exact Option.some.inj ht ▸ hname
  | some ns =>
    rw [hns] at ht
    obtain ⟨p, hp, rfl⟩ := Option.map_eq_some_iff.1 ht
    rw [String.startsWith_string_iff]
    intro hprefix
    have hat : '@' ∈ (p ++ ":" ++ name.localName).toList.take 1 := by
      obtain ⟨rest, hrest⟩ := hprefix
      rw [← hrest]
      simp
    cases hchars : p.toList with
    | nil => simp [hchars] at hat
    | cons c cs =>
      have hc : '@' = c := by simpa [hchars] using hat
      have hchar := h.named ns p hp c (by rw [hchars]; exact List.mem_cons_self ..)
      rw [← hc] at hchar
      exact absurd hchar (by decide)

namespace Sketch

variable {α β : Type} {g : Generator} {deep : Prop} {f : Role}

/-- Children are declared with binds and controls for each other, wherever they are. -/
structure Provides (child : ChildSketch) : Prop where
  declares : ∀ e id (path : String) occurs, ¬ path.startsWith "@" = true →
    Declares (child e id path occurs)
  covers : ∀ e id path occurs, (child e id path occurs).Covers

theorem serves_text (t : ComplexType) : Serves deep (text g f t) := by
  have hfield (value : TypeId) (owner : Generator.Owner) :
      Serves deep (slot (field g value owner "." .once)) :=
    .slot (field_declares value owner "." .once fun h => absurd h (by decide))
      (field_covers g value owner "." .once)
  unfold text
  dsimp only
  split
  · exact hfield _ _
  · exact hfield _ _
  · exact .pure _

/-- A control that is looked for is there. -/
theorem serves_reuse (nodeset : String) : Serves deep (reuse nodeset) := by
  intro before d s hin hd hs
  unfold Ends reuse
  cases hfind : d.kids.find? (·.bind.nodeset = nodeset) with
  | none => exact ⟨rfl, hd, hs⟩
  | some kid =>
    obtain ⟨k, below, hsource, hbound⟩ := hd.sourced kid (List.mem_of_find?_eq_some hfind)
    simp only [hsource]
    refine ⟨rfl, ?_, ⟨hs.apart, hs.expected⟩⟩
    have hdrawn := (hd.draw (hbound.copy s.ids)).of_core (share_core nodeset d.kids)
    exact ⟨hdrawn.bound, hdrawn.served, hdrawn.sourced⟩

theorem serves_reuses (isInherited : Bool) (nodeset : String) :
    Serves deep (reuses f isInherited nodeset) := by
  unfold reuses
  split
  · exact serves_reuse nodeset
  · exact .pure false

theorem serves_use (e : Element) (id : UseId) : Serves deep (use g f e id) := by
  refine .after (Mild.qualified _) fun ⟨nsPrefix, name⟩ => ?_
  refine (serves_reuses _ _).bind fun reused => ?_
  split
  · exact .pure e
  · split
    · exact .after (Mild.report (by exact trivial)) fun _ => .pure e
    · refine Serves.bind (.slot (field_declares _ _ _ _ fun h => ?_) (field_covers g _ _ _ _)) fun _ =>
        .pure _
      exact absurd h (by simp [Occurs.isMultiple, Occurs.isEmpty, Occurs.isSingle])

theorem serves_uses (e : Element) (ids : List UseId) : Serves deep (uses g f e ids) := by
  induction ids generalizing e with
  | nil => exact .pure e
  | cons id ids ih => exact (serves_use e id).bind fun e => ih e

/-- Whatever becomes of the relevance of binds, they have their controls. -/
theorem serves_guardCase (existing : Nat) (t declared : TypeId) :
    Serves deep (guardCase g existing t declared) := by
  unfold guardCase
  split
  · exact .after (Mild.typeConditions _) fun conditions =>
      .recast fun d => core_guardKids existing conditions d.kids
  · exact .pure ()

theorem serves_unshare : Serves deep unshare := .recast fun d => by
  rw [List.map_map]
  rfl

variable {child : ChildSketch}

theorem serves_childElement (hchild : Provides child)
    (hnames : ∀ id, ¬ (g.schema.element id).name.localName.startsWith "@" = true) (e : Element)
    (id : ElementId) (occurs : Occurs) : Serves deep (childElement g child f e id occurs) := by
  unfold childElement
  split
  · exact .pure e
  · refine .lifted (Mild.qualified _) (fun a => ¬ a.2.startsWith "@" = true) (fun s hs => ?_)
      fun ⟨nsPrefix, name⟩ hname => ?_
    · exact (Mild.qualified _ s hs).apart.not_startsWith_textOf (textOf_qualified _ s) (hnames id)
    · refine (serves_reuses _ _).bind fun reused => ?_
      split
      · exact .pure e
      · refine Serves.bind (.slot (hchild.declares _ id name occurs hname) (hchild.covers _ id name occurs))
          fun data => ?_
        split
        · exact .pure _
        · exact .pure e

mutual

theorem serves_particle (hchild : Provides child)
    (hnames : ∀ id, ¬ (g.schema.element id).name.localName.startsWith "@" = true) (e : Element) :
    ∀ p, Serves True (particle g child f e p)
  | .element occurs id => serves_childElement hchild hnames e id occurs
  | .group occurs _ members => (serves_particles hchild hnames e members).groupItems occurs
  | .wildcard _ _ => .after (Mild.report (by exact trivial)) fun _ => .pure e

theorem serves_particles (hchild : Provides child)
    (hnames : ∀ id, ¬ (g.schema.element id).name.localName.startsWith "@" = true) (e : Element) :
    ∀ ps, Serves True (particles g child f e ps)
  | [] => .pure e
  | p :: ps => (serves_particle hchild hnames e p).bind fun e' =>
    serves_particles hchild hnames e' ps

end

section Content

variable (hchild : Provides child)
  (hnames : ∀ id, ¬ (g.schema.element id).name.localName.startsWith "@" = true)

include hchild hnames

theorem serves_content (e : Element) (t : ComplexType) : Serves True (content g child f e t) := by
  refine (serves_text t).bind fun _ => (serves_uses e t.uses).bind fun e' => ?_
  unfold contentModel
  split
  · exact serves_particle hchild hnames e' _
  · exact .pure e'

theorem serves_complex (e : Element) (occurs : Occurs) :
    Serves True (complex g child f e occurs) := by
  unfold complex
  split
  · exact .pure e
  · refine .look fun d hin => .after (Mild.allocate "group") fun id => ?_
    refine ((serves_content hchild hnames e _).items (hin.governed trivial).2 occurs).inside ?_
    simp [NodeKind.hasItsBind, hin.own]

theorem serves_typeCase (owner : ElementId) (declared : TypeId) (isFirst : Bool) (e : Element)
    (t : TypeId) (caseId : String) :
    Serves True (typeCase g child owner declared isFirst e t caseId) := by
  refine Serves.inside ?_ rfl
  exact .look fun d _ => (serves_complex hchild hnames _ .once).bind fun data =>
    (serves_guardCase d.kids.length t declared).bind fun _ => serves_unshare.bind fun _ => .pure _

theorem serves_typeCases (owner : ElementId) (declared : TypeId) (isFirst : Bool) (e : Element)
    (cases : List (TypeId × String)) :
    Serves True (typeCases g child owner declared isFirst e cases) := by
  induction cases generalizing isFirst e with
  | nil => exact .pure e
  | cons c cases ih =>
    exact (serves_typeCase hchild hnames owner declared isFirst e c.1 c.2).bind fun e => ih false e

/-- A bind for the choice of types, and one for the element itself. -/
theorem switch_declares (e : Element) (owner : ElementId) (declared : TypeId) (types : List TypeId)
    (path : String) (hpath : ¬ path.startsWith "@" = true) (occurs : Occurs) :
    Declares (switch g child e owner declared types path occurs) := by
  refine .after (Mild.allocate "select1") fun selectId => .behindKid _ _ fun typeBindId => ?_
  refine .withKid {} (fun _ : True => hpath) (Serves.completes ?_)
  refine .look fun d hin => Serves.items ?_ (hin.governed trivial).2 occurs
  refine .after (Mild.promptChoice _ _) fun prompt => .after (Mild.typeChoices types) fun choices => ?_
  refine (Serves.leaves fun c hc => ?_).bind fun _ => ?_
  · rw [List.mem_singleton.1 hc]
    rfl
  refine .after (Mild.allocate "trigger") fun triggerId => .after (Mild.allocate "action")
    fun actionId => .after (Mild.allocate "dispatch") fun dispatchId => ?_
  refine (Serves.leaves fun c hc => ?_).bind fun _ => .after (Mild.allocate "switch") fun switchId => ?_
  · rw [List.mem_singleton.1 hc]
    rfl
  refine Serves.inside (.after (Mild.typeValue _) fun first => ?_) rfl
  exact serves_typeCases hchild hnames owner declared true _ _

theorem plain_declares (e : Element) (owner : ElementId) (declared resolved : TypeId)
    (path : String) (hpath : ¬ path.startsWith "@" = true) (occurs : Occurs) :
    Declares (plain g child e owner declared resolved path occurs) := by
  have hkid (e : Element) : Declares (withKid {} path
      (complex g child ⟨resolved, owner, false⟩ e occurs)) :=
    .withKid {} (fun _ => hpath) (serves_complex hchild hnames e occurs).completes
  unfold plain
  split
  · exact hkid e
  · exact .after (Mild.typeValue resolved) fun value => hkid _

theorem expand_declares (e : Element) (id : ElementId) (path : String)
    (hpath : ¬ path.startsWith "@" = true) (occurs : Occurs) :
    Declares (expand g child e id path occurs) := by
  have hleave {p : Sketch Element} (hp : Declares p) : Declares (do
      let data ← p
      leave
      return some data : Sketch (Option Element)) :=
    hp.before fun e d s hs => ⟨rfl, Mild.leave s hs⟩
  unfold expand
  dsimp only
  split
  · exact .after (Mild.report (by exact trivial)) fun _ => .pure none
  · next t _ =>
    split
    · exact (field_declares t _ path occurs fun _ => hpath).before fun _ d s hs => ⟨rfl, hs⟩
    · refine .after (Mild.enter id t) fun entered => ?_
      split
      · split
        · exact hleave (plain_declares hchild hnames e id t t path hpath occurs)
        · next resolved _ =>
          exact hleave (plain_declares hchild hnames e id t resolved path hpath occurs)
        · exact hleave (switch_declares hchild hnames e id t _ path hpath occurs)
      · exact .after (Mild.report (by exact trivial)) fun _ => .pure none

end Content

/-- Elements within elements are provided with binds and controls, however deep they are. -/
theorem provides_element (hcandidates : ∀ t, ∀ t' ∈ g.candidates t,
      (g.schema.complex? t).isSome → (g.schema.complex? t').isSome)
    (hnames : ∀ id, ¬ (g.schema.element id).name.localName.startsWith "@" = true) (openings : Nat) :
    Provides (element g openings) := by
  refine ⟨?_, element_covers hcandidates openings⟩
  induction openings with
  | zero => exact fun _ _ _ _ _ => .pure none
  | succ openings ih =>
    exact fun e id path occurs hpath =>
      expand_declares ⟨ih, element_covers hcandidates openings⟩ hnames e id path hpath occurs

/-- What a form is filled with is complete. -/
theorem complete_filled (hcandidates : ∀ t, ∀ t' ∈ g.candidates t,
      (g.schema.complex? t).isSome → (g.schema.complex? t').isSome)
    (hnames : ∀ id, ¬ (g.schema.element id).name.localName.startsWith "@" = true)
    (root : ElementId) (nsPrefix : Option String) (rootName : String) {s : Synthesis} (hs : s.Fine) :
    let made := filled g root nsPrefix rootName s
    made.1.Complete ∧ made.2.Fine := by
  let skeleton := Generator.prepareRoot (Generator.bareInstance (g.schema.element root) nsPrefix)
  have hpath : ¬ ("/" ++ rootName).startsWith "@" = true := by
    rw [String.startsWith_string_iff]
    simp
  obtain ⟨hdeclares, hcovers⟩ := provides_element hcandidates hnames (g.schema.elements.size + 1)
  obtain ⟨-, hfine, hbound, new, hkids, hnew⟩ := hdeclares skeleton root ("/" ++ rootName) .once hpath
    {} (opened s) rfl (Mild.allocate "instance" _ (Mild.allocate "model" s hs))
  have hfound := hcovers skeleton root ("/" ++ rootName) .once {} (opened s)
    (fun kid hkid => absurd hkid List.not_mem_nil) rfl
  refine ⟨⟨hbound, fun b hb => ?_⟩, hfine⟩
  have hmade : (filled g root nsPrefix rootName s).1.kids = new := hkids.trans (List.nil_append _)
  rw [hmade, Kid.labels_forest, List.mem_flatMap] at hb
  obtain ⟨kid, hkid, hb⟩ := hb
  rcases List.mem_cons.1 hb with rfl | hb
  · refine Forest.binds_of_find ((hfound kid (hkids ▸ List.mem_append_right _ hkid)).resolve_left ?_)
    rw [(hnew kid hkid).1]
    exact Bool.false_ne_true
  · exact (hnew kid hkid).2 b hb

end Sketch

theorem NodeKind.eq_bind_of_target {k : NodeKind} {id : String}
    (h : k.target? = some (.bind id)) : ∃ b, k = .bind b ∧ b.id = id := by
  cases k with
  | bind b => exact ⟨b, rfl, by cases h; rfl⟩
  | control c =>
    obtain ⟨_, kind⟩ := c
    cases kind <;> cases h
  | submission => cases h
  | _ => cases h

/-- A form is complete: binds and controls are there for each other, and nothing has been missed. -/
structure Form.Complete (form : Form) : Prop where
  controlled : ∀ b ∈ form.binds, ∃ c ∈ form.controls, c.bind = some b.id
  bound : ∀ c ∈ form.controls, c.kind.showsValue = true → ∃ b ∈ form.binds, c.bind = some b.id
  governed : ∀ id, .missingRepeatBind id ∉ form.anomalies
  found : ∀ nodeset, .reusedControlNotFound nodeset ∉ form.anomalies

namespace Generator

/-- The binds of a form are those of its drawing. -/
theorem bind_mem_forest {d : Drawing} (hcontrols : d.controls.Titled) {r : Request}
    {root : Option Element} {b : Bind}
    (hb : b ∈ (d.forest r root).labels.filterMap NodeKind.bind?) :
    b ∈ (Kid.forest d.binds).labels := by
  obtain ⟨k, hk, hbind⟩ := List.mem_filterMap.1 hb
  rcases Drawing.mem_forest.1 hk with rfl | rfl | ⟨b', hb', rfl⟩ | rfl | hk | rfl
  · cases hbind
  · cases hbind
  · exact Option.some.inj hbind ▸ hb'
  · cases hbind
  · obtain ⟨c, rfl, -⟩ := hcontrols k hk
    cases hbind
  · cases hbind

theorem fine_named (name : QName) : (qualified name Synthesis.initial).2.Fine :=
  Mild.qualified name _ ⟨PrefixTable.apart_empty, fun _ ha => absurd ha List.not_mem_nil⟩

/-- Every bind has a control, and every control a bind unless it holds cases or does something; no
repeat lacks a bind, and no control that is to be shared is missing. -/
theorem binds_and_controls_serve (s : Schema) (settings : Settings) {l : Layout} (hl : l.Standard)
    (hnames : ∀ decl ∈ s.elements, ¬ decl.name.localName.startsWith "@" = true) {time : String}
    {r : Request} {form : Form} (h : (ofSchema s settings (some l)).generate time r = .ok form) :
    form.Complete := by
  obtain ⟨root, f, -, hshows, -, hnodes, -, -, hanomalies⟩ := generate_shows hl rfl h
  let g := ofSchema s settings (some l)
  let named := qualified (s.element root).name Synthesis.initial
  let made := Sketch.filled g root named.1.1 named.1.2 named.2
  let drawn := Sketch.form g root named.1.1 named.1.2 named.2
  let data := some ((r.instanceRoot.map prepareRoot).getD form.skeleton)
  have hunmarked : form.tree.unmarked = drawn.1.forest r data := hshows.unmarked_eq.trans hnodes
  have hnames (id : ElementId) : ¬ (s.element id).name.localName.startsWith "@" = true := by
    unfold Schema.element
    rw [Array.getD]
    split
    · exact hnames _ (Array.getElem_mem ..)
    · rw [String.startsWith_string_iff]
      exact (by decide : ¬ "@".toList <+: (default : ElementDecl).name.localName.toList)
  have hlinked := linked_filled (g := g) root named.1.1 named.1.2 (clean_named (s.element root).name)
  obtain ⟨hcomplete, hfine⟩ := Sketch.complete_filled (g := g)
    (fun t t' ht' ht => complex_of_mem_candidates rfl ht' ht) hnames root named.1.1 named.1.2
    (fine_named (s.element root).name)
  have hcontrols : form.controls = made.1.controls.controls ++ [drawn.1.submitControl] := by
    rw [Form.controls_eq hshows, hunmarked, controls_forest]
    rfl
  have hbinds : form.binds = (drawn.1.forest r data).labels.filterMap NodeKind.bind? := by
    rw [Form.binds_eq hshows, hunmarked]
  have hexpected : ∀ a ∈ form.anomalies, a.OfSchema := hanomalies ▸ hfine.expected
  refine ⟨fun b hb => ?_, fun c hc hshown => ?_, fun id hid => hexpected _ hid,
    fun nodeset hmem => hexpected _ hmem⟩
  · obtain ⟨k, hk, hbound⟩ := hcomplete.served b (bind_mem_forest hlinked.titled (hbinds ▸ hb))
    cases k with
    | control c =>
      refine ⟨c, ?_, by simpa [NodeKind.isBoundTo, NodeKind.control?] using hbound⟩
      rw [hcontrols]
      exact List.mem_append_left _ (List.mem_filterMap.2 ⟨_, hk, rfl⟩)
    | _ => cases hbound
  · have hlabel : .control c ∈ (drawn.1.forest r data).labels := by
      rw [Form.controls_eq hshows, hunmarked] at hc
      obtain ⟨k, hk, hkc⟩ := List.mem_filterMap.1 hc
      cases k with
      | control c' => exact Option.some.inj hkc ▸ hk
      | _ => cases hkc
    rw [hcontrols, List.mem_append, List.mem_singleton] at hc
    rcases hc with hc | rfl
    · obtain ⟨id, hid⟩ : ∃ id, c.bind = some id := by
        obtain ⟨k, hk, hkc⟩ := List.mem_filterMap.1 hc
        cases k with
        | control c' =>
          cases hkc
          have hhas := hcomplete.bound _ hk
          rw [NodeKind.hasItsBind, hshown, Bool.not_true, Bool.or_false] at hhas
          exact Option.isSome_iff_exists.1 hhas
        | _ => cases hkc
      obtain ⟨k, hk, htarget⟩ := Drawing.closed_forest hlinked r data _ hlabel (.bind id)
        (List.mem_append_left _ (by simp [hid]))
      obtain ⟨b, rfl, rfl⟩ := NodeKind.eq_bind_of_target htarget
      exact ⟨b, hbinds ▸ List.mem_filterMap.2 ⟨_, hk, rfl⟩, hid⟩
    · cases hshown

/-- The form of an element whose type may be extended is complete. -/
theorem binds_and_controls_serve_extended :
    (∀ decl ∈ extended.elements, ¬ decl.name.localName.startsWith "@" = true) ∧
      ∃ form, (ofSchema extended {} (some .plain)).generate "" { root := "e" } = .ok form ∧
        form.Complete := by
  have hnames : ∀ decl ∈ extended.elements, ¬ decl.name.localName.startsWith "@" = true := by
    simp only [String.startsWith_string_iff, extended]
    decide +kernel
  obtain ⟨form, hform⟩ := generate_extended
  exact ⟨hnames, form, hform, binds_and_controls_serve extended {} .plain hnames hform⟩

end Generator

end SchemaForms
