import SchemaForms.Proofs.Form.Cases
import SchemaForms.Proofs.Form.Coverage

/-!
Every part of the generator follows its sketch, in any layout with or without boxes.
-/

namespace SchemaForms

open Grove (graft only both at? tops erase bounds relabel bindTops lastOf kidsOf Recasts boxed)
open Forest (leaf)
open Synthesis
open Xml (Element)

namespace Follows

variable {α : Type} {I : List Kid → Prop} {φ : Frame} {area : NodeId}

/-- A step that looks at the arena first, where the sketch looks at the draft. -/
theorem look {F : Synthesis → Synth α} {P : Draft → Sketch α}
    (h : ∀ s grove d, Scene s grove φ.scope area d → φ.In s d → ∃ known : List String,
      (∀ id ∈ known, s.ids.Given "bind" id) ∧ Follows I (φ.knowing known) area (F s) (P d)) :
    Follows I φ area (get >>= F) (get >>= P) := by
  intro s grove d hscene hI hφ
  obtain ⟨known, hknown, hfollows⟩ := h s grove d hscene hφ
  exact hfollows hscene hI (hφ.knowing hknown)

/-- A step that looks at the arena first, where the sketch knows what is seen. -/
theorem see {F : Synthesis → Synth α} {p : Sketch α}
    (h : ∀ s grove d, Scene s grove φ.scope area d → φ.In s d → Follows I φ area (F s) p) :
    Follows I φ area (get >>= F) p := fun s grove d hscene hI hφ =>
  h s grove d hscene hφ hscene hI hφ

/-- A step whose sketch looks at what the draft keeps. -/
theorem kept {f : Synth α} {P : Draft → Sketch α}
    (h : ∀ d : Draft, d.own = φ.own → d.around = φ.around → Follows I φ area f (P d)) :
    Follows I φ area f (get >>= P) := fun _ _ d hscene hI hφ =>
  h d hφ.own hφ.around hscene hI hφ

/-- A step that does not see the arena, and what comes after a result like its own. -/
theorem quietly {β : Type} {f : Synth β} {k : β → Synth α} {q : β → Sketch α} (hf : Quiet f)
    {R : β → Prop} (hR : ∀ s, R (f s).1) (hk : ∀ a, R a → Follows I φ area (k a) (q a)) :
    Follows I φ area (f >>= k) (StateT.lift f >>= q) := by
  intro s grove d h hI hφ
  have hstill : Adds s (f s).2 grove φ.scope area d d {} :=
    .still h.world.shows (hf.tree_eq s) (hf.reused_eq s) (hf.before s) rfl
  have h₁ := h.still (hf.tree_eq s) (hf.reused_eq s) (hf.before s)
  rw [← Growth.on_nil φ.scope area grove] at h₁
  obtain ⟨hresult, hbare, hI', γ, ha, h₂⟩ := hk (f s).1 (hR s) h₁ hI (hφ.mono h hstill)
  have hsketch : (StateT.lift f >>= q) d s.bare = q (f s).1 d (f s).2.bare := by
    rw [hf.fst_eq, hf.bare_eq]
    rfl
  rw [hsketch]
  exact ⟨hresult, hbare, hI', _, hstill.trans h h₁ ha, hstill.on_on h h₁ ha ▸ h₂⟩

end Follows

/-! What is seen of the arena. -/

section Seen

variable {s : Synthesis} {f : Grove} {scope area : NodeId} {d : Draft} {φ : Frame}

theorem Scene.own_eq (h : Scene s f scope area d) : (s.tree.bind? scope).map (·.id) = d.own := by
  obtain ⟨k, below, hat, hown, -, -⟩ := h.scopeAt.here
  rw [Tree.bind?, (Tree.links_at? h.world.shows.links hat).1, hown]

theorem Scene.governing_eq (h : Scene s f scope area d) :
    Generator.governingBind s.tree scope = d.governing := by
  obtain ⟨k, below, hat, -, hdraws, -⟩ := h.scopeAt.here
  obtain ⟨p, hp, -, -, habove, -, -⟩ := h.scopeAt.outer
  rw [Generator.governingBind, Tree.lastElementBind_eq h.world.shows.toHolds hat, hdraws.lastOf_eq, hp,
    Option.bind_some, habove]
  rfl

theorem Scene.around_eq (h : Scene s f φ.scope area d) (hφ : φ.In s d) :
    Generator.governingBind s.tree φ.parent = d.around := by
  obtain ⟨p, hp, -, -, -, haround, -⟩ := h.scopeAt.outer
  cases hφ.parent.symm.trans hp
  exact haround

end Seen

namespace Generator

variable {g : Generator} {box : Option Markup} {area : NodeId} (hg : g.layout.Boxes box)

include hg

/-- A control with a section in it. -/
theorem addControl_opens (c : Control) (s : Synthesis) (f : Grove) (h : s.tree.Holds f)
    (hm : area ∈ Grove.ids f) : ∃ t b area', (g.addControl area c >>= g.contentOf) s =
      (area', { s with tree := t }) ∧ s.tree.Hangs t f area b ∧ Opened b area' [] c := by
  have hfloat := Tree.floats_create h (k := .control c) rfl
  refine ⟨_, _, ⟨s.tree.size⟩, ?_, hfloat.place hg hm, ?_⟩
  · have hcontent : ∀ t, g.layout.groupContent ⟨s.tree.size⟩ t = (⟨s.tree.size⟩, t) := hg.content _
    change ((g.layout.groupContent ⟨s.tree.size⟩ _).1, { s with
      tree := (g.layout.groupContent ⟨s.tree.size⟩ _).2 }) = _
    rw [hcontent]
    rfl
  · rw [← Forest.nil_append (boxed ..)]
    refine opened_boxed rfl List.not_mem_nil fun he => ?_
    have := congrArg NodeId.index he
    rw [Tree.size_create] at this
    exact Nat.succ_ne_self _ this

/-- A control side by side with others. -/
theorem addControl_hangs (c : Control) (s : Synthesis) (f : Grove) (h : s.tree.Holds f)
    (hm : area ∈ Grove.ids f) : ∃ t b, (g.addControl area c s).2 = { s with tree := t } ∧
      s.tree.Hangs t f area b ∧ erase b = .leaves ([c].map .control) := by
  have hfloat := Tree.floats_create h (k := .control c) rfl
  exact ⟨_, _, rfl, hfloat.place hg hm, Grove.erase_boxed ..⟩

/-- A control without a box, with a section in it. -/
theorem append_opens (c : Control) (s : Synthesis) (f : Grove) (h : s.tree.Holds f)
    (hm : area ∈ Grove.ids f) : ∃ t b area',
      (create (.control c) >>= fun n => append area n >>= fun _ => g.contentOf n) s =
        (area', { s with tree := t }) ∧ s.tree.Hangs t f area b ∧ Opened b area' [] c := by
  have hfloat := Tree.floats_create h (k := .control c) rfl
  refine ⟨_, _, ⟨s.tree.size⟩, ?_, hfloat.append hm, ?_⟩
  · have hcontent : ∀ t, g.layout.groupContent ⟨s.tree.size⟩ t = (⟨s.tree.size⟩, t) := hg.content _
    change ((g.layout.groupContent ⟨s.tree.size⟩ _).1, { s with
      tree := (g.layout.groupContent ⟨s.tree.size⟩ _).2 }) = _
    rw [hcontent]
    rfl
  · have hne : (⟨s.tree.size + 1⟩ : NodeId) ≠ ⟨s.tree.size⟩ := fun he =>
      Nat.succ_ne_self _ (congrArg NodeId.index he)
    have hopened : Opened (.nil ++ boxed none ⟨s.tree.size + 1⟩ (leaf (⟨s.tree.size⟩, .control c)))
        ⟨s.tree.size⟩ [] c := opened_boxed rfl List.not_mem_nil hne
    exact hopened

omit hg in
/-- A control without a box, side by side with others. -/
theorem append_hangs {area : NodeId} (c : Control) (s : Synthesis) (f : Grove)
    (h : s.tree.Holds f) (hm : area ∈ Grove.ids f) : ∃ t b,
      ((create (.control c) >>= fun n => append area n) s).2 = { s with tree := t } ∧
      s.tree.Hangs t f area b ∧ erase b = .leaves ([c].map .control) := by
  have hfloat := Tree.floats_create h (k := .control c) rfl
  exact ⟨_, _, rfl, hfloat.append hm, rfl⟩

/-- A control with a section in it, into which other controls go directly. -/
theorem addControl_within (c : Control) (s : Synthesis) (f : Grove) (h : s.tree.Holds f)
    (hm : area ∈ Grove.ids f) : ∃ t b area', g.addControl area c s =
      (area', { s with tree := t }) ∧ s.tree.Hangs t f area b ∧ Opened b area' [] c := by
  have hfloat := Tree.floats_create h (k := .control c) rfl
  refine ⟨_, _, ⟨s.tree.size⟩, rfl, hfloat.place hg hm, ?_⟩
  rw [← Forest.nil_append (boxed ..)]
  refine opened_boxed rfl List.not_mem_nil fun he => ?_
  have := congrArg NodeId.index he
  rw [Tree.size_create] at this
  exact Nat.succ_ne_self _ this

/-- A repeat behind its triggers, with a section in it. -/
theorem addRepeat_opens (c : Control) (triggers : List Control) (s : Synthesis) (f : Grove)
    (h : s.tree.Holds f) (hm : area ∈ Grove.ids f) : ∃ t b area',
      (do
        let node ← create (.control c)
        g.addTriggerRow area triggers
        g.place area node
        g.contentOf node) s = (area', { s with tree := t }) ∧
      s.tree.Hangs t f area b ∧ Opened b area' triggers c := by
  have hfloat := Tree.floats_create h (k := .control c) rfl
  let s₁ : Synthesis := { s with tree := (s.tree.create (.control c)).2 }
  have hm₁ : area ∈ Grove.ids (f ++ Forest.tree (⟨s.tree.size⟩, .control c) .nil) := by
    rw [Grove.ids_append, List.mem_append]
    exact .inl hm
  obtain ⟨t, hrun⟩ := addTriggerRow_run g area triggers s₁
  obtain ⟨row, hrow, herase⟩ := addTriggerRow_hangs hg (s := s₁) hfloat.holds hm₁ triggers
  rw [hrun] at hrow
  have hm₂ : area ∈ Grove.ids (graft (only area row) f) := (Grove.mem_ids_graft _ _).2 (.inl hm)
  have hplaced := (hfloat.behind hm hrow).place hg hm₂
  refine ⟨_, _, ⟨s.tree.size⟩, ?_, hrow.behind hfloat (h.lt _ hm) hplaced, ?_⟩
  · have hcontent : ∀ t, g.layout.groupContent ⟨s.tree.size⟩ t = (⟨s.tree.size⟩, t) := hg.content _
    change (g.place area ⟨s.tree.size⟩ >>= fun _ => g.contentOf ⟨s.tree.size⟩)
      (g.addTriggerRow area triggers s₁).2 = _
    rw [hrun]
    change ((g.layout.groupContent ⟨s.tree.size⟩ _).1, { s with
      tree := (g.layout.groupContent ⟨s.tree.size⟩ _).2 }) = _
    rw [hcontent]
    rfl
  · have hsize : s₁.tree.size = s.tree.size + 1 := Tree.size_create ..
    refine opened_boxed herase (fun hx => ?_) fun he => ?_
    · have := hrow.new _ hx
      rw [hsize] at this
      exact Nat.not_succ_le_self _ this
    · have hle : s.tree.size + 1 ≤ t.size := hsize ▸ hrow.size_le
      have heq : t.size = s.tree.size := congrArg NodeId.index he
      omega

end Generator

namespace Generator

/-- A repeat of a bind behind its triggers, down to the section in it. -/
def repeatOf (g : Generator) (area : NodeId) (id : String) (bind : Option String) :
    Synth NodeId := do
  reportUngoverned id bind
  let actions ← repeatActions id bind
  let node ← create (.control
    { id := id, kind := .repeatRegion, bind := bind, appearance := some "full" })
  g.addTriggerRow area (actions.map fun (suffix, label, action) =>
    repeatTrigger id suffix label action)
  g.place area node
  g.contentOf node

theorem addRepeat_bind {α : Type} (g : Generator) (spot : Spot) (k : NodeId → Synth α) :
    (g.addRepeat spot >>= fun n => g.contentOf n >>= k) = (do
      let id ← allocate "repeat"
      let s ← get
      g.repeatOf spot.area id (governingBind s.tree spot.scope) >>= k) := by
  simp only [addRepeat, repeatOf, bind_assoc, pure_bind]

end Generator

namespace Follows

variable {α : Type} {I : List Kid → Prop} {φ : Frame} {area : NodeId} {g : Generator}
  {box : Option Markup} (hg : g.layout.Boxes box)

include hg

theorem controlWith {c : Control} {k : NodeId → Synth α} {p : Sketch α}
    (hc : ∀ id, c.bind = some id → id ∈ φ.known) (hk : ∀ area', Follows I φ area' (k area') p) :
    Follows I φ area (g.addControl area c >>= fun n => g.contentOf n >>= k)
      (Sketch.within [] c p) := by
  change Follows I φ area ((g.addControl area c >>= g.contentOf) >>= k) _
  exact within (Generator.addControl_opens hg c) (fun _ hc' => by cases hc') hc hk

theorem caseWith {c : Control} {k : NodeId → Synth α} {p : Sketch α}
    (hc : ∀ id, c.bind = some id → id ∈ φ.known) (hk : ∀ area', Follows I φ area' (k area') p) :
    Follows I φ area
      (create (.control c) >>= fun n => append area n >>= fun _ => g.contentOf n >>= k)
      (Sketch.within [] c p) := by
  change Follows I φ area
    ((create (.control c) >>= fun n => append area n >>= fun _ => g.contentOf n) >>= k) _
  exact within (Generator.append_opens hg c) (fun _ hc' => by cases hc') hc hk

theorem controlThen {c : Control} {k : Synth α} {q : Sketch α}
    (hc : ∀ id, c.bind = some id → id ∈ φ.known) (hk : Follows I φ area k q) :
    Follows I φ area (g.addControl area c >>= fun _ => k)
      (Sketch.leaves [c] >>= fun _ => q) :=
  leaves (Generator.addControl_hangs hg c) (fun _ hc' => List.mem_singleton.1 hc' ▸ hc) hk

omit hg in
theorem appendThen {c : Control} {k : Synth α} {q : Sketch α}
    (hc : ∀ id, c.bind = some id → id ∈ φ.known) (hk : Follows I φ area k q) :
    Follows I φ area (create (.control c) >>= fun n => append area n >>= fun _ => k)
      (Sketch.leaves [c] >>= fun _ => q) := by
  change Follows I φ area ((create (.control c) >>= fun n => append area n) >>= fun _ => k) _
  exact leaves (Generator.append_hangs c) (fun _ hc' => List.mem_singleton.1 hc' ▸ hc) hk

/-- A repeat of a known bind. -/
theorem repeatOf {id : String} {bind : Option String} {k : NodeId → Synth α} {p : Sketch α}
    (hbind : ∀ id, bind = some id → id ∈ φ.known) (hk : ∀ area', Follows I φ area' (k area') p) :
    Follows I φ area (g.repeatOf area id bind >>= k) (Sketch.repeatOf id bind p) := by
  unfold Generator.repeatOf
  rw [bind_assoc]
  refine (quiet (.reportUngoverned id bind)).bind fun _ => ?_
  rw [bind_assoc]
  refine (quiet (.repeatActions id bind)).bind fun actions => ?_
  refine within (Generator.addRepeat_opens hg _ _) (fun c' hc' => ?_) hbind hk
  obtain ⟨⟨suffix, label, action⟩, -, rfl⟩ := List.mem_map.1 hc'
  rfl

/-- A repeat for which the sketch knows the governing bind. -/
theorem repeated {scope : NodeId} {bind : Option String} {k : NodeId → Synth α} {p : Sketch α}
    (hscope : ∀ s grove d, Scene s grove φ.scope area d → φ.In s d →
      Generator.governingBind s.tree scope = bind)
    (hbind : ∀ id, bind = some id → id ∈ φ.known) (hk : ∀ area', Follows I φ area' (k area') p) :
    Follows I φ area (g.addRepeat ⟨scope, area⟩ >>= fun n => g.contentOf n >>= k)
      (Sketch.repeated bind p) := by
  rw [Generator.addRepeat_bind]
  refine (quiet (.allocate "repeat")).bind fun id => see fun s grove d h hφ => ?_
  rw [hscope s grove d h hφ]
  exact repeatOf hg hbind hk

theorem items {scope : NodeId} {bind : Option String} {occurs : Occurs} {k : NodeId → Synth α}
    {p : Sketch α}
    (hscope : ∀ s grove d, Scene s grove φ.scope area d → φ.In s d →
      Generator.governingBind s.tree scope = bind)
    (hbind : ∀ id, bind = some id → id ∈ φ.known) (hk : ∀ area', Follows I φ area' (k area') p) :
    Follows I φ area (g.itemsArea ⟨scope, area⟩ occurs >>= k) (Sketch.items bind occurs p) := by
  unfold Generator.itemsArea Sketch.items
  split
  · rw [bind_assoc]
    exact repeated hg hscope hbind hk
  · exact hk area

theorem valueControl {t : TypeId} {owner : Generator.Owner} {bindId : String}
    (hown : φ.own = some bindId) (hknown : bindId ∈ φ.known) :
    Follows I φ area (do
      let control ← g.fieldControl t bindId
      let _ ← g.addControl area
        { control with label := some (caption owner.name), hint := owner.hint })
      (Sketch.valueControl g t owner) := by
  refine kept fun d hd _ => ?_
  rw [hd, hown]
  refine quietly (.fieldControl g t bindId) (R := fun c => c.bind = some bindId)
    (g.fieldControl_bind t bindId) fun c hc => ?_
  refine controlThen hg (fun id hid => ?_) (.pure _)
  cases hid.symm.trans hc
  exact hknown

/-- A field. -/
theorem field (t : TypeId) (owner : Generator.Owner) (path : String) (occurs : Occurs) :
    Follows Any φ area (g.addField ⟨φ.scope, area⟩ t owner path occurs)
      (Sketch.field g t owner path occurs) := by
  unfold Generator.addField Sketch.field
  refine withKid (I := Any) trivial fun ref around => ?_
  unfold Generator.valueSpot
  split
  · simp only [bind_assoc, pure_bind]
    refine kept fun d hown haround => ?_
    rw [hown, haround]
    refine (quiet (.allocate "group")).bind fun id => ?_
    refine controlWith hg (fun id hid => ?_) fun content => ?_
    · cases hid
      exact List.mem_cons_self ..
    · refine repeated hg (fun s grove d h hφ => ?_) (fun id hid => ?_) fun area' => ?_
      · exact (h.around_eq hφ).trans hφ.around
      · exact List.mem_cons_of_mem _ (List.mem_append_left _ (Option.mem_toList.2 hid))
      · refine withKid (I := Any) trivial fun item around' => ?_
        exact valueControl hg rfl (List.mem_cons_self ..)
  · rw [pure_bind]
    exact valueControl hg rfl (List.mem_cons_self ..)

end Follows

/-! The content of an element. -/

namespace Follows

variable {α : Type} {φ : Frame} {area : NodeId} {g : Generator} {box : Option Markup}
  (hg : g.layout.Boxes box) {r : Sketch.Role}

include hg

theorem text (t : ComplexType) :
    Follows Settled φ area (g.addText ⟨φ.scope, r.type, r.owner, r.inherits⟩ t area)
      (Sketch.text g r t) := by
  unfold Generator.addText Sketch.text
  cases g.schema.simpleContent r.type with
  | none => cases t.content <;> exact .pure _
  | some value =>
    have hvalue : Follows Settled φ area _ _ := slot (field hg value
      ⟨(g.schema.element r.owner).name.localName, (g.schema.element r.owner).documentation⟩ "."
      .once) (Sketch.field_covers g _ _ _ _)
    cases t.content with
    | simple | mixed => exact hvalue
    | _ => exact .pure _

theorem reuses (isInherited : Bool) (nodeset : String) :
    Follows Settled φ area
      (g.reuses ⟨φ.scope, r.type, r.owner, r.inherits⟩ isInherited area nodeset)
      (Sketch.reuses r isInherited nodeset) := by
  unfold Generator.reuses Sketch.reuses
  split
  · exact reuse hg nodeset
  · exact .pure _

theorem use (e : Element) (id : UseId) :
    Follows Settled φ area (g.addUse ⟨φ.scope, r.type, r.owner, r.inherits⟩ area e id)
      (Sketch.use g r e id) := by
  unfold Generator.addUse Sketch.use
  refine (quiet (.qualified _)).bind fun (nsPrefix, name) => (reuses hg _ _).bind fun reused => ?_
  split
  · exact .pure _
  · cases (g.schema.use id).decl.type with
    | none => exact (quiet (.report _)).bind fun _ => .pure _
    | some t =>
      exact (slot (field hg t _ _ _) (Sketch.field_covers g t _ _ _)).bind fun _ => .pure _

theorem uses (e : Element) (ids : List UseId) :
    Follows Settled φ area (g.addUses ⟨φ.scope, r.type, r.owner, r.inherits⟩ area e ids)
      (Sketch.uses g r e ids) := by
  induction ids generalizing e with
  | nil => exact .pure _
  | cons id ids ih => exact (use hg e id).bind fun e => ih e

/-- Elements are added as they are sketched. -/
def Child (child : Generator.ChildAdder) (sketch : Sketch.ChildSketch) : Prop :=
  ∀ φ area e id path occurs,
    Follows Any φ area (child ⟨φ.scope, area⟩ e id path occurs) (sketch e id path occurs) ∧
      (sketch e id path occurs).Covers

variable {child : Generator.ChildAdder} {sketch : Sketch.ChildSketch}
  (hchild : Child child sketch)

include hchild in
theorem childElement (e : Element) (id : ElementId) (occurs : Occurs) :
    Follows Settled φ area
      (g.addChildElement child ⟨φ.scope, r.type, r.owner, r.inherits⟩ area e id occurs)
      (Sketch.childElement g sketch r e id occurs) := by
  unfold Generator.addChildElement Sketch.childElement
  split
  · exact .pure _
  · refine (quiet (.qualified _)).bind fun (nsPrefix, name) => (reuses hg _ _).bind fun reused => ?_
    split
    · exact .pure _
    · obtain ⟨hfollows, hcovers⟩ := hchild φ area
        (Generator.bareInstance (g.schema.element id) nsPrefix) id name occurs
      refine (slot hfollows hcovers).bind fun data => ?_
      split <;> exact .pure _

/-- The items of a group of a content model. -/
theorem groupItems {occurs : Occurs} {k : NodeId → Synth α} {p : Sketch α}
    (hk : ∀ (known : List String) (area' : NodeId),
      Follows Settled (φ.knowing known) area' (k area') p) :
    Follows Settled φ area (g.itemsArea ⟨φ.scope, area⟩ occurs >>= k)
      (Sketch.groupItems occurs p) := by
  unfold Generator.itemsArea Sketch.groupItems
  split
  · rw [bind_assoc, Generator.addRepeat_bind]
    refine (quiet (.allocate "repeat")).bind fun id => look fun s grove d h hφ => ?_
    rw [h.governing_eq]
    refine ⟨d.governing.toList, Draft.governing_given h.given, ?_⟩
    refine repeatOf hg (fun id hid => ?_) (hk d.governing.toList)
    exact List.mem_append_left _ (Option.mem_toList.2 hid)
  · exact hk [] area

end Follows

/-! The items of an element that may have one of several types. -/

namespace Generator

/-- What is made for each item of an element that may have one of several types. -/
def switchItem (g : Generator) (child : ChildAdder) (area bind : NodeId)
    (selectId typeBindId label : String) (e : Element) (owner : ElementId) (declared : TypeId)
    (types : List TypeId) : Synth Element := do
  let prompt ← g.promptChoice label types.length
  let choices ← g.typeChoices types
  let _ ← g.addControl area
    { id := selectId, kind := .selectOne (prompt ++ choices.map (·.1)), label := some label
      bind := some typeBindId, appearance := some (g.settings.oneAppearance types.length) }
  let triggerId ← allocate "trigger"
  let actionId ← allocate "action"
  let dispatchId ← allocate "dispatch"
  let trigger ← create (.control
    { id := triggerId
      kind := .trigger (some (.dispatch actionId dispatchId "DOMActivate" selectId))
      label := some "Validate Choice" })
  append area trigger
  let switchId ← allocate "switch"
  let switch ← g.addControl area { id := switchId, kind := .switch }
  let first ← g.typeValue (types.headD declared)
  let e := addAttribute e xsiType (some "xsi") first
  g.addCases child switch bind owner declared true e (types.zip (choices.map (·.2)))

theorem addSwitch_eq (g : Generator) (child : ChildAdder) (spot : Spot) (e : Element)
    (owner : ElementId) (declared : TypeId) (types : List TypeId) (path : String)
    (occurs : Occurs) :
    g.addSwitch child spot e owner declared types path occurs = (do
      let label := caption ((g.schema.element owner).name.localName ++ " Type")
      let selectId ← allocate "select1"
      let typeBind ← addBind spot.scope (g.typeBind label types.length) (path ++ "/@xsi:type")
      let bind ← addBind spot.scope {} path
      let area ← g.itemsArea spot occurs
      g.switchItem child area bind.node selectId typeBind.id label e owner declared types) := rfl

end Generator

namespace Sketch

/-- What is made for each item of an element that may have one of several types. -/
def switchItem (g : Generator) (child : ChildSketch) (selectId typeBindId label : String)
    (e : Element) (owner : ElementId) (declared : TypeId) (types : List TypeId) : Sketch Element := do
  let prompt ← g.promptChoice label types.length
  let choices ← g.typeChoices types
  leaves [{ id := selectId, kind := .selectOne (prompt ++ choices.map (·.1)), label := some label
            bind := some typeBindId
            appearance := some (g.settings.oneAppearance types.length) }]
  let triggerId ← allocate "trigger"
  let actionId ← allocate "action"
  let dispatchId ← allocate "dispatch"
  leaves [{ id := triggerId
            kind := .trigger (some (.dispatch actionId dispatchId "DOMActivate" selectId))
            label := some "Validate Choice" }]
  let switchId ← allocate "switch"
  within [] { id := switchId, kind := .switch } do
    let first ← g.typeValue (types.headD declared)
    let e := Generator.addAttribute e Generator.xsiType (some "xsi") first
    typeCases g child owner declared true e (types.zip (choices.map (·.2)))

theorem switch_eq (g : Generator) (child : ChildSketch) (e : Element) (owner : ElementId)
    (declared : TypeId) (types : List TypeId) (path : String) (occurs : Occurs) :
    switch g child e owner declared types path occurs = (do
      let label := caption ((g.schema.element owner).name.localName ++ " Type")
      let selectId ← allocate "select1"
      let typeBindId ← withKid (g.typeBind label types.length) (path ++ "/@xsi:type") ownId
      withKid {} path do
        let d ← get
        items d.around occurs
          (switchItem g child selectId typeBindId label e owner declared types)) := rfl

end Sketch

namespace Follows

variable {φ : Frame} {area : NodeId} {g : Generator} {box : Option Markup} {r : Sketch.Role}
  {child : Generator.ChildAdder} {sketch : Sketch.ChildSketch}

mutual

theorem particle (hg : g.layout.Boxes box) (hchild : Child child sketch) (φ : Frame)
    (area : NodeId) (e : Element) : (p : Particle) →
      Follows Settled φ area
        (Generator.addParticle g child ⟨φ.scope, r.type, r.owner, r.inherits⟩ area e p)
        (Sketch.particle g sketch r e p)
  | .element occurs id => by
    rw [Generator.addParticle, Sketch.particle]
    exact childElement hg hchild e id occurs
  | .group occurs _ members => by
    rw [Generator.addParticle, Sketch.particle]
    exact groupItems hg fun known area' =>
      particles hg hchild (φ.knowing known) area' e members
  | .wildcard _ _ => by
    rw [Generator.addParticle, Sketch.particle]
    exact (quiet (.report _)).bind fun _ => .pure _

theorem particles (hg : g.layout.Boxes box) (hchild : Child child sketch) (φ : Frame)
    (area : NodeId) (e : Element) : (ps : List Particle) →
      Follows Settled φ area
        (Generator.addParticles g child ⟨φ.scope, r.type, r.owner, r.inherits⟩ area e ps)
        (Sketch.particles g sketch r e ps)
  | [] => by
    rw [Generator.addParticles, Sketch.particles]
    exact .pure _
  | p :: ps => by
    rw [Generator.addParticles, Sketch.particles]
    exact (particle hg hchild φ area e p).bind fun e => particles hg hchild φ area e ps

end

variable (hg : g.layout.Boxes box) (hchild : Child child sketch)

include hg hchild

/-- The content of an element as one type. -/
theorem content (e : Element) (t : ComplexType) :
    Follows Settled φ area (do
      g.addText ⟨φ.scope, r.type, r.owner, r.inherits⟩ t area
      let e ← g.addUses ⟨φ.scope, r.type, r.owner, r.inherits⟩ area e t.uses
      g.addContentModel child ⟨φ.scope, r.type, r.owner, r.inherits⟩ area e t)
      (Sketch.content g sketch r e t) := by
  refine (text hg t).bind fun _ => (uses hg e t.uses).bind fun e => ?_
  unfold Generator.addContentModel Sketch.contentModel
  cases t.particle with
  | none => exact .pure _
  | some p =>
    cases p with
    | group occurs compositor members =>
      exact particle hg hchild φ area e (.group occurs compositor members)
    | _ => exact .pure _

/-- An element of a complex type, within its group. -/
theorem complex (hown : ∀ id, φ.own = some id → id ∈ φ.known)
    (haround : ∀ id, φ.around = some id → id ∈ φ.known) (e : Element) (occurs : Occurs) :
    Follows Settled φ area
      (g.addComplex child ⟨φ.scope, r.type, r.owner, r.inherits⟩ area e occurs)
      (Sketch.complex g sketch r e occurs) := by
  unfold Generator.addComplex Sketch.complex
  cases g.schema.complex? r.type with
  | none => exact .pure _
  | some t =>
    refine look fun s grove d h hφ => ⟨[], (fun _ hid => by cases hid), ?_⟩
    change Follows Settled φ area _ _
    dsimp only
    rw [h.own_eq, hφ.own, hφ.around]
    refine (quiet (.allocate "group")).bind fun id => controlWith hg hown fun content' => ?_
    refine see fun s₁ grove₁ d₁ h₁ hφ₁ => ?_
    rw [hφ₁.parent]
    refine items hg (fun s₂ grove₂ d₂ h₂ hφ₂ => ?_) haround fun area' => ?_
    · exact (h₂.around_eq hφ₂).trans hφ₂.around
    · exact content hg hchild e t

/-- One case of a switch. -/
theorem typeCase {switch : NodeId} (hown : ∀ id, φ.own = some id → id ∈ φ.known)
    (haround : ∀ id, φ.around = some id → id ∈ φ.known) (owner : ElementId) (declared : TypeId)
    (isFirst : Bool) (e : Element) (t : TypeId) (caseId : String) :
    Follows Idle φ switch
      (g.addCase child switch φ.scope owner declared isFirst e t caseId)
      (Sketch.typeCase g sketch owner declared isFirst e t caseId) := by
  unfold Generator.addCase Sketch.typeCase
  refine caseWith hg (fun id hid => by cases hid) fun area' => ?_
  have hcomplex : Follows Settled φ area' _ _ :=
    complex (r := ⟨t, owner, decide (t ≠ declared)⟩) hg hchild hown haround
      (Element.ofName (g.schema.element owner).name) .once
  exact hcomplex.case (g := g) (Generator.mergeCase e) t declared

theorem typeCases {switch : NodeId} (hown : ∀ id, φ.own = some id → id ∈ φ.known)
    (haround : ∀ id, φ.around = some id → id ∈ φ.known) (owner : ElementId) (declared : TypeId)
    (isFirst : Bool) (e : Element) (cases : List (TypeId × String)) :
    Follows Idle φ switch
      (g.addCases child switch φ.scope owner declared isFirst e cases)
      (Sketch.typeCases g sketch owner declared isFirst e cases) := by
  induction cases generalizing isFirst e with
  | nil => exact .pure _
  | cons c cases ih =>
    obtain ⟨t, caseId⟩ := c
    exact (typeCase hg hchild hown haround owner declared isFirst e t caseId).bind fun e =>
      ih false e

/-- An item of an element that may have one of several types. -/
theorem switchItem (hown : ∀ id, φ.own = some id → id ∈ φ.known)
    (haround : ∀ id, φ.around = some id → id ∈ φ.known) {selectId typeBindId label : String}
    (htype : typeBindId ∈ φ.known) (e : Element) (owner : ElementId) (declared : TypeId)
    (types : List TypeId) :
    Follows Idle φ area
      (g.switchItem child area φ.scope selectId typeBindId label e owner declared types)
      (Sketch.switchItem g sketch selectId typeBindId label e owner declared types) := by
  unfold Generator.switchItem Sketch.switchItem
  refine (quiet (.promptChoice g _ _)).bind fun prompt =>
    (quiet (.typeChoices g types)).bind fun choices => ?_
  refine controlThen hg (fun id hid => ?_) ?_
  · cases hid
    exact htype
  refine (quiet (.allocate "trigger")).bind fun triggerId =>
    (quiet (.allocate "action")).bind fun actionId =>
    (quiet (.allocate "dispatch")).bind fun dispatchId => ?_
  refine appendThen (fun id hid => by cases hid) ?_
  refine (quiet (.allocate "switch")).bind fun switchId => ?_
  refine within (Generator.addControl_within hg _) (fun _ hc => by cases hc)
    (fun id hid => by cases hid) fun switchNode => ?_
  refine (quiet (.typeValue g _)).bind fun first => ?_
  exact typeCases hg hchild hown haround owner declared true _ _

/-- An element that may have one of several types. -/
theorem switch (e : Element) (owner : ElementId) (declared : TypeId) (types : List TypeId)
    (path : String) (occurs : Occurs) :
    Follows Any φ area
      (g.addSwitch child ⟨φ.scope, area⟩ e owner declared types path occurs)
      (Sketch.switch g sketch e owner declared types path occurs) := by
  rw [Generator.addSwitch_eq, Sketch.switch_eq]
  refine (quiet (.allocate "select1")).bind fun selectId => addBind fun typeBind => ?_
  refine withKid (I := Idle) idle_nil fun ref around => ?_
  refine kept fun d hown haround => ?_
  rw [haround]
  have hknown : ∀ id, around = some id →
      id ∈ ref.id :: (around.toList ++ (φ.knowing [typeBind.id]).known) := fun id hid =>
    List.mem_cons_of_mem _ (List.mem_append_left _ (Option.mem_toList.2 hid))
  refine items hg (fun s₁ grove₁ d₁ h₁ hφ₁ => (h₁.around_eq hφ₁).trans hφ₁.around) hknown
    fun area' => ?_
  refine switchItem (φ := ⟨_, _, _, _, _⟩) hg hchild (fun id hid => ?_) hknown ?_ e owner declared
    types
  · cases hid
    exact List.mem_cons_self ..
  · exact List.mem_cons_of_mem _ (List.mem_append_right _ (List.mem_cons_self ..))

/-- An element with at most one type to choose from. -/
theorem plain (e : Element) (owner : ElementId) (declared resolved : TypeId) (path : String)
    (occurs : Occurs) :
    Follows Any φ area
      (g.addPlain child ⟨φ.scope, area⟩ e owner declared resolved path occurs)
      (Sketch.plain g sketch e owner declared resolved path occurs) := by
  have hkid (e : Element) : Follows Any φ area
      (Generator.addBind φ.scope {} path >>= fun bind =>
        g.addComplex child ⟨bind.node, resolved, owner, false⟩ area e occurs)
      (Sketch.withKid {} path (Sketch.complex g sketch ⟨resolved, owner, false⟩ e occurs)) := by
    refine withKid (I := Settled) settled_nil fun ref around => ?_
    refine complex (r := ⟨resolved, owner, false⟩) hg hchild (fun id hid => ?_) (fun id hid => ?_)
      e occurs
    · cases hid
      exact List.mem_cons_self ..
    · exact List.mem_cons_of_mem _ (List.mem_append_left _ (Option.mem_toList.2 hid))
  unfold Generator.addPlain Sketch.plain
  split
  · exact hkid e
  · exact (quiet (.typeValue g resolved)).bind fun value => hkid _

theorem expand (e : Element) (id : ElementId) (path : String) (occurs : Occurs) :
    Follows Any φ area (g.expand child ⟨φ.scope, area⟩ e id path occurs)
      (Sketch.expand g sketch e id path occurs) := by
  unfold Generator.expand Sketch.expand
  dsimp only
  cases (g.schema.element id).type with
  | none => exact (quiet (.report _)).bind fun _ => .pure _
  | some t =>
    dsimp only
    split
    · exact (field hg t _ path occurs).bind fun _ => .pure _
    · refine (quiet (.enter id t)).bind fun entered => ?_
      split
      · have hleave (e : Element) : Follows Any φ area (do
            leave
            return some e) (do
            leave
            return some e : Sketch (Option Element)) := (quiet .leave).bind fun _ => .pure _
        cases g.candidates t with
        | nil => exact (plain hg hchild e id t t path occurs).bind hleave
        | cons resolved types =>
          cases types with
          | nil => exact (plain hg hchild e id t resolved path occurs).bind hleave
          | cons t' types =>
            exact (switch hg hchild e id t (resolved :: t' :: types) path occurs).bind hleave
      · exact (quiet (.report _)).bind fun _ => .pure _

end Follows

namespace Follows

variable {g : Generator} {box : Option Markup}

/-- Elements are added as they are sketched, however many expansions can be opened. -/
theorem element (hg : g.layout.Boxes box)
    (hcandidates : ∀ t, ∀ t' ∈ g.candidates t, (g.schema.complex? t).isSome →
      (g.schema.complex? t').isSome) (openings : Nat) :
    Child (g.addElement openings) (Sketch.element g openings) := by
  induction openings with
  | zero =>
    exact fun φ area e id path occurs =>
      ⟨.pure none, Sketch.element_covers hcandidates 0 e id path occurs⟩
  | succ openings ih =>
    exact fun φ area e id path occurs =>
      ⟨expand hg ih e id path occurs, Sketch.element_covers hcandidates _ e id path occurs⟩

end Follows

end SchemaForms
