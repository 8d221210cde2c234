import SchemaForms.Proofs.Form.Making
import SchemaForms.Proofs.Form.Openings

/-!
Calling: the states in which elements are added while a form is made.  In each of them there is a
scene for the element, and the whole arena hangs below its root.
-/

namespace SchemaForms

/-- The frame of a scene, with no more known of it than is drafted. -/
theorem Scene.framed {s : Synthesis} {f : Grove} {scope area : NodeId} {d : Draft}
    (h : Scene s f scope area d) :
    ∃ parent, Frame.In ⟨scope, parent, d.own, d.around, []⟩ s d := by
  obtain ⟨p, hp, -⟩ := h.scopeAt.outer
  exact ⟨p, rfl, rfl, hp, fun _ hid => by cases hid⟩

/-- The controls drafted so far are not part of a scene. -/
theorem Scene.cleared {s : Synthesis} {f : Grove} {scope area : NodeId} {d : Draft}
    (h : Scene s f scope area d) : Scene s f scope area { d with controls := .nil } :=
  ⟨h.world, ⟨h.scopeAt.here, h.scopeAt.outer⟩, h.area_mem, h.ne, h.opened, h.sourced, h.given⟩

namespace Generator

open Synthesis
open SchemaForms.Tree (Rooted Within)
open Xml (Element)

/-- A call that adds an element, with the state in which it is made. -/
structure Call where
  state : Synthesis
  spot : Spot
  data : Element
  element : ElementId
  path : String
  occurs : Occurs

/-- What comes of a call. -/
def ChildAdder.answer (child : ChildAdder) (c : Call) : Option Element × Synthesis :=
  child c.spot c.data c.element c.path c.occurs c.state

/-- A run makes a call if it comes to something else when that one call is answered otherwise.  No
step that adds to a form changes the root of the arena, so an answer that does is seen in the end. -/
def Calls {α : Type} (run : ChildAdder → Synth α) (child : ChildAdder) (s : Synthesis) (c : Call) :
    Prop :=
  ∃ child' : ChildAdder, (∀ other, other ≠ c → child'.answer other = child.answer other) ∧
    (run child' s).2.tree.root ≠ (run child s).2.tree.root

/-- The call that adds the root element of a form. -/
def rootCall (g : Generator) (r : Request) (root : ElementId) : Call :=
  let decl := g.schema.element root
  let named := qualified decl.name Synthesis.initial
  let staged := g.stage r named.2
  let content := g.contentOf staged.1.2.1 staged.2
  { state := content.2
    spot := ⟨staged.1.1, content.1⟩
    data := prepareRoot (bareInstance decl named.1.1)
    element := root
    path := "/" ++ named.1.2
    occurs := .once }

/-- Nothing is being expanded when the root element is added. -/
theorem rootCall_expanding (g : Generator) (r : Request) (root : ElementId) :
    (g.rootCall r root).state.expanding = [] := by
  have hstage : Steady (g.stage r) := by
    unfold stage
    exact (Steady.onTree _).bind fun _ => (Steady.allocate _).bind fun _ =>
      (Steady.onTree _).bind fun _ => (Steady.onTree _).bind fun _ =>
      (Steady.onTree _).bind fun _ => (Steady.onTree _).bind fun _ =>
      (Steady.allocate _).bind fun _ => (Steady.onTree _).bind fun _ =>
      (Steady.onTree _).bind fun _ => .pure _
  rw [rootCall, (Steady.contentOf g _ _).1, (hstage _).1, (Steady.qualified _ _).1]
  rfl

/-- The calls that are made for a request, with the number of expansions that can still be opened. -/
inductive Reached (g : Generator) (r : Request) : Nat → Call → Prop
  | root {root : ElementId} (hroot : g.schema.findElement (QName.of g.schema.target r.root) = some root)
      (hfits : r.instanceRoot.filter (!fits (g.schema.element root) ·) = none) :
      Reached g r (g.schema.elements.size + 1) (g.rootCall r root)
  | child {n : Nat} {c c' : Call} (h : Reached g r (n + 1) c)
      (hcalls : Calls (fun child => g.expand child c.spot c.data c.element c.path c.occurs)
        (g.addElement n) c.state c') : Reached g r n c'

/-- What makes no difference to a run outside some calls is made in one of them. -/
theorem Calls.mem {α : Type} {run : ChildAdder → Synth α} {child : ChildAdder} {s : Synthesis}
    {c : Call} {P : Call → Prop} (h : Calls run child s c)
    (hsame : ∀ child' : ChildAdder, (∀ c, P c → child'.answer c = child.answer c) →
      (run child' s).2.tree.root = (run child s).2.tree.root) : P c := by
  obtain ⟨child', hother, hroot⟩ := h
  by_contra hc
  exact hroot (hsame child' fun c' hc' => hother c' fun heq => hc (heq ▸ hc'))

/-- A run that does not touch the arena behind a call makes the call. -/
theorem Calls.of_tree_eq {α : Type} {run : ChildAdder → Synth α} {child : ChildAdder}
    {s : Synthesis} {c : Call} (h : ∀ child', (run child' s).2.tree = (child'.answer c).2.tree) :
    Calls run child s c := by
  classical
  obtain ⟨root, hroot⟩ : ∃ root, some root ≠ (child.answer c).2.tree.root := by
    cases (child.answer c).2.tree.root with
    | none => exact ⟨⟨0⟩, Option.some_ne_none _⟩
    | some old => exact ⟨⟨old.index + 1⟩, fun he =>
        Nat.succ_ne_self _ (congrArg NodeId.index (Option.some.inj he))⟩
  let child' : ChildAdder := fun spot e id path occurs s =>
    if (⟨s, spot, e, id, path, occurs⟩ : Call) = c then
      (none, { s with tree := s.tree.setRoot root })
    else child spot e id path occurs s
  have hself : child'.answer c = (none, { c.state with tree := c.state.tree.setRoot root }) :=
    if_pos rfl
  refine ⟨child', fun other hother => if_neg hother, ?_⟩
  rw [h, h, hself]
  exact hroot

/-- An element with the data of a child, unless the child was left out. -/
def withChild (e : Element) : Option Element → Synth Element
  | some data => return e.addChild data
  | none => return e

theorem withChild_tree (e : Element) (answer : Option Element) (s : Synthesis) :
    (withChild e answer s).2.tree = s.tree := by
  cases answer <;> rfl

/-- An element whose content is one child and nothing else makes the call for this child. -/
theorem calls_only_child {g : Generator} {n : Nat} {c : Call} {t : TypeId} {type : ComplexType}
    {compositor : Compositor} {id : ElementId} {occurs : Occurs}
    (htype : (g.schema.element c.element).type = some t)
    (hcomplex : g.schema.complex? t = some type) (hcandidates : g.candidates t = [t])
    (hfresh : (c.element, t) ∉ c.state.expanding) (honce : c.occurs = .once)
    (hcontent : type.content = .elementOnly) (huses : type.uses = [])
    (hparticle : type.particle = some (.group .once compositor [.element occurs id]))
    (hoccurs : occurs.isEmpty = false) (hname : (g.schema.element id).name.nspace = none) :
    ∃ state spot data,
      Calls (fun child => g.expand child c.spot c.data c.element c.path c.occurs) (g.addElement n)
        c.state ⟨state, spot, data, id, (g.schema.element id).name.localName, occurs⟩ := by
  let decl := g.schema.element c.element
  let opened : Synthesis := { c.state with expanding := (c.element, t) :: c.state.expanding }
  let opening : Synth Spot := do
    let bind ← addBind c.spot.scope {} c.path
    let s ← get
    let groupId ← allocate "group"
    let group ← g.addControl c.spot.area
      { id := groupId, kind := .group, label := some (caption decl.name.localName)
        bind := (s.tree.bind? bind.node).map (·.id), hint := decl.documentation }
    let area ← g.contentOf group
    return ⟨bind.node, area⟩
  let data := bareInstance (g.schema.element id) none
  refine ⟨(opening opened).2, (opening opened).1, data, .of_tree_eq fun child => ?_⟩
  have hqualified : qualified (g.schema.element id).name =
      pure (none, (g.schema.element id).name.localName) := by
    funext s
    rw [qualified, hname]
    rfl
  have hmultiple : Occurs.once.isMultiple = false := rfl
  have hcontinue : g.addTyped child c.spot c.data c.element t c.path .once = (do
      let spot ← opening
      let answer ← child spot data id (g.schema.element id).name.localName occurs
      withChild c.data answer) := by
    simp only [opening, addTyped, hcandidates, addPlain, if_true, addComplex, hcomplex, itemsArea,
      hmultiple, addText, hcontent, huses, addUses, addContentModel, hparticle, addParticle,
      addParticles, addChildElement, hoccurs, hqualified, reuses, Bool.false_eq_true, if_false,
      Bool.false_and, pure_bind, bind_pure, bind_assoc]
    rfl
  rw [honce, expand_of_fresh g _ _ _ _ htype (by rw [hcomplex]; rfl) hfresh]
  dsimp only
  rw [hcontinue, run_bind (Prod.eta (opening opened)).symm]
  generalize opening opened = start
  exact withChild_tree c.data _ _

/-- An element that is not complex becomes a field, and its data stays as it is. -/
theorem expand_field {g : Generator} {child : ChildAdder} {spot : Spot} {id : ElementId}
    {t : TypeId} (htype : (g.schema.element id).type = some t) (e : Element) (path : String)
    (hsimple : (g.schema.complex? t).isNone = true) (occurs : Occurs) (s : Synthesis) :
    (g.expand child spot e id path occurs s).1 = some e := by
  rw [expand, htype]
  simp only [hsimple, if_true]
  rfl

namespace Call

/-- There is a scene for the element. -/
def Staged (c : Call) : Prop := ∃ f d, Scene c.state f c.spot.scope c.spot.area d

/-- The arena hangs below its root, and so do the places for the element. -/
def Anchored (c : Call) : Prop := ∃ top, c.state.tree.Rooted top ∧
  c.state.tree.Within top c.spot.scope ∧ c.state.tree.Within top c.spot.area

end Call

variable {g : Generator} {box : Option Markup} {n : Nat} {c c' : Call}

theorem Calls.staged (hg : g.layout.Boxes box)
    (hcandidates : ∀ t, ∀ t' ∈ g.candidates t, (g.schema.complex? t).isSome →
      (g.schema.complex? t').isSome)
    (h : Calls (fun child => g.expand child c.spot c.data c.element c.path c.occurs)
      (g.addElement n) c.state c') (hc : c.Staged) : c'.Staged := by
  obtain ⟨f, d, hscene⟩ := hc
  obtain ⟨p, hφ⟩ := hscene.framed
  let φ : Frame := ⟨c.spot.scope, p, d.own, d.around, []⟩
  have hroot {child : ChildAdder} (hchild : Follows.Child child (Sketch.element g n)) :
      (g.expand child c.spot c.data c.element c.path c.occurs c.state).2.tree.root =
        c.state.tree.root := by
    obtain ⟨-, -, -, γ, ha, -⟩ :=
      Follows.expand hg hchild c.data c.element c.path c.occurs hscene trivial hφ
    exact ha.root_eq hscene
  have hchild := Follows.element hg hcandidates n
  refine h.mem fun child' hsame => (hroot fun φ area e id path occurs => ?_).trans (hroot hchild).symm
  refine ⟨fun s f d hscene hI hφ => ?_, (hchild φ area e id path occurs).2⟩
  have hrun : child' ⟨φ.scope, area⟩ e id path occurs s =
      g.addElement n ⟨φ.scope, area⟩ e id path occurs s :=
    hsame ⟨s, ⟨φ.scope, area⟩, e, id, path, occurs⟩ ⟨f, d, hscene⟩
  rw [hrun]
  exact (hchild φ area e id path occurs).1 hscene hI hφ

/-- The places for an element are places for all that is made for it. -/
theorem within_spot {t : Tree} {top : NodeId} {spot : Spot} (hscope : t.Within top spot.scope)
    (harea : t.Within top spot.area) :
    ∀ p ∈ [Anchor.any spot.area, Anchor.any spot.scope].map Anchor.node, t.Within top p := by
  simpa [Anchor.node] using ⟨harea, hscope⟩

/-- The arena still hangs below its root when an element has been added. -/
theorem Call.Anchored.rooted (hl : g.layout.Standard) (hc : c.Anchored) (e : Element)
    (id : ElementId) (path : String) (occurs : Occurs) :
    ∃ top, (g.addElement n c.spot e id path occurs c.state).2.tree.Rooted top := by
  obtain ⟨top, hrooted, hscope, harea⟩ := hc
  have hchild : ChildAdder.Keeps (g.addElement n) (gathering hl top) := Discipline.addElement n
  exact ⟨top, hrooted.keep (hchild _ c.spot e id path occurs List.mem_cons_self
    (.of_any (by simp)) c.state hrooted (within_spot hscope harea)).1⟩

theorem Calls.anchored (hl : g.layout.Standard)
    (h : Calls (fun child => g.expand child c.spot c.data c.element c.path c.occurs)
      (g.addElement n) c.state c') (hc : c.Anchored) : c'.Anchored := by
  obtain ⟨top, hrooted, hscope, harea⟩ := hc
  have hroot {child : ChildAdder} (hchild : child.Keeps (gathering hl top)) :
      (g.expand child c.spot c.data c.element c.path c.occurs c.state).2.tree.root =
        c.state.tree.root :=
    (Discipline.expand hchild _ c.spot c.data c.element c.path c.occurs List.mem_cons_self
      (.of_any (by simp)) c.state hrooted (within_spot hscope harea)).1.root
  have hchild : ChildAdder.Keeps (g.addElement n) (gathering hl top) := Discipline.addElement n
  refine h.mem fun child' hsame => (hroot ?_).trans (hroot hchild).symm
  intro anchors spot e id path occurs harea hscope s hs hplaces
  have hrun : child' spot e id path occurs s = g.addElement n spot e id path occurs s :=
    hsame ⟨s, spot, e, id, path, occurs⟩
      ⟨top, hs, hplaces _ hscope.mem, hplaces _ (Anchor.mem_of_any harea)⟩
  rw [hrun]
  exact hchild anchors spot e id path occurs harea hscope s hs hplaces

/-- Wherever an element is added while a form is made, its bind and its controls have their places. -/
theorem Reached.places (hl : g.layout.Standard)
    (hsubstitutes : g.substitutes = Substitutes.ofSchema g.schema) {r : Request}
    (h : Reached g r n c) : c.Staged ∧ c.Anchored := by
  obtain ⟨box, hbox⟩ := hl.boxes
  induction h with
  | @root root _ _ =>
    have hquiet := Quiet.qualified (g.schema.element root).name
    have htree := hquiet.tree_eq Synthesis.initial
    have hreused := hquiet.reused_eq Synthesis.initial
    obtain ⟨top, hrooted, hwithin⟩ := rooted_stage hl r htree
    obtain ⟨t, f, model, form, data, hstage, hset⟩ := stage_sets (r := r) hl htree
    have hcontent := contentOf_run hbox form (staged (qualified (g.schema.element root).name
      Synthesis.initial).2 t)
    simp only [Call.Staged, Call.Anchored, rootCall, hstage, hcontent]
    rw [hstage] at hrooted hwithin
    exact ⟨⟨f, {}, hset.scene rfl hreused⟩, top, hrooted, hwithin _ List.mem_cons_self,
      hwithin _ (by simp)⟩
  | child _ hcalls ih =>
    exact ⟨hcalls.staged hbox (fun t t' ht' ht => complex_of_mem_candidates hsubstitutes ht' ht) ih.1,
      hcalls.anchored hl ih.2⟩

end Generator

end SchemaForms
