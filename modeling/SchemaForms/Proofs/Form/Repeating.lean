import SchemaForms.Proofs.Form.Calling
import SchemaForms.Proofs.Form.Counting

/-!
Repeats follow occurrence.  The bind of a repeat is not handed down but looked for in the arena:
main statement: wherever an element is added that may occur more than once, what is found is the bind
that has just been made for it; and its repeat is the only thing made for it that would not be made
for a single occurrence, or would be made outside a repeat.
-/

namespace SchemaForms

open Grove (ids graft only both at? tops kidsOf)
open Forest (leaf)
open Synthesis
open SchemaForms.Tree (Makes Rooted)
open Xml (Element)

/-- A bind with a path that has been appended to a scope, and perhaps others with other paths before
it. -/
structure Binding (t t' : Tree) (scope : NodeId) (path : String) (m : NodeId) (b : Bind) : Prop where
  new : t.size ≤ m.index
  bind : t'.bind? m = some b
  nodeset : b.nodeset = path
  appended : ∃ front, t'.children scope = t.children scope ++ (front ++ [m]) ∧
    ∀ n ∈ front, ∀ other, t'.bind? n = some other → other.nodeset ≠ path

/-- A repeat that has been made for the bind with a path, and all controls that have been made. -/
structure Repeated (t t' : Tree) (scope : NodeId) (path : String) where
  bindNode : NodeId
  bind : Bind
  binding : Binding t t' scope path bindNode bind
  region : NodeId
  control : Control
  before : List (NodeId × Control)
  row : List (NodeId × Control)
  after : List (NodeId × Control)
  made : t'.controlsSince t.size = before ++ (region, control) :: (row ++ after)
  /-- It is the first one. -/
  first : ∀ a ∈ before, a.2.kind.isRepeat = false
  kind : control.kind = .repeatRegion
  bound : control.bind = some bind.id
  triggers : ∃ i j k, row.map (·.2) = repeatTriggers control.id (some bind.id) i j k
  below : ∀ a ∈ after, a.1 ∈ t'.descendants region

section Additions

variable {s s' : Synthesis} {f : Grove} {scope area : NodeId} {d d' : Draft} {γ : Growth}

theorem Adds.bind?_scope (ha : Adds s s' f scope area d d' γ) (h : Scene s f scope area d) :
    s'.tree.bind? scope = s.tree.bind? scope := by
  obtain ⟨k, below, hat, -⟩ := h.scopeAt.here
  have hkids : scope ∉ kidsOf scope f := fun hm =>
    (h.not_mem_below hat).1 (Grove.mem_ids_of_mem_tops (Grove.kidsOf_eq hat ▸ hm))
  rw [Tree.bind?, Tree.kind, ha.node_eq h h.scope_mem]
  dsimp only
  rw [ha.castKids scope hkids]
  rfl

/-- No step changes the path of a bind. -/
theorem Adds.nodeset_eq (ha : Adds s s' f scope area d d' γ) (h : Scene s f scope area d)
    {n : NodeId} (hn : n ∈ ids f) {b : Bind} (hb : s'.tree.bind? n = some b) :
    ∃ old, s.tree.bind? n = some old ∧ old.nodeset = b.nodeset := by
  rw [Tree.bind?, Tree.kind, ha.node_eq h hn] at hb
  dsimp only at hb
  rw [Tree.bind?]
  cases hk : s.tree.kind n with
  | bind old =>
    obtain ⟨b', hcast, -, hnodeset⟩ := ha.recasts.bind n old
    rw [hk, hcast] at hb
    cases hb
    exact ⟨old, rfl, hnodeset.symm⟩
  | _ =>
    rw [hk, ha.recasts.other n _ rfl] at hb
    cases hb

theorem Adds.children_eq (ha : Adds s s' f scope area d d' γ) (h : Scene s f scope area d)
    {n : NodeId} (hn : n ∈ ids f) (hscope : n ≠ scope) (harea : n ≠ area) :
    s'.tree.children n = s.tree.children n := by
  rw [Tree.children, ha.node_eq h hn, Grove.both_of_ne hscope harea]
  exact List.append_nil _

theorem Binds.children_eq {m : NodeId} {b : Bind} (hb : Binds s s' f scope m b)
    (h : Scene s f scope area d) : s'.tree.children scope = s.tree.children scope ++ [m] := by
  rw [Tree.children, (hb.adds h).node_eq h h.scope_mem, Grove.both_self]
  rfl

theorem Binds.bind?_eq {m : NodeId} {b : Bind} (hb : Binds s s' f scope m b)
    (h : Scene s f scope area d) : s'.tree.bind? m = some b :=
  congrArg NodeKind.bind? (Tree.links_at? hb.holds.links (hb.at?_node h)).1

/-- What is added for an element, and below its bind, leaves the bind in its place. -/
theorem Binding.grow {t : Tree} {p m : NodeId} {path : String} {b : Bind}
    (hb : Binding t s.tree p path m b) (ha : Adds s s' f m area d d' γ) (h : Scene s f m area d)
    (hp : s.tree.parent m = some p) (hne : p ≠ area) : Binding t s'.tree p path m b := by
  obtain ⟨p', hp', hmem, hlt, -⟩ := h.scopeAt.outer
  cases hp.symm.trans hp'
  obtain ⟨front, hchildren, hfront⟩ := hb.appended
  have hpm : p ≠ m := fun he => Nat.lt_irrefl _ (he ▸ hlt)
  refine ⟨hb.new, (ha.bind?_scope h).trans hb.bind, hb.nodeset, front,
    (ha.children_eq h hmem hpm hne).trans hchildren, fun n hn other hother => ?_⟩
  have hnf : n ∈ ids f := h.world.shows.links.children_subset hmem (hchildren ▸ by simp [hn])
  obtain ⟨old, hold, hnodeset⟩ := ha.nodeset_eq h hnf hother
  exact hnodeset ▸ hfront n hn old hold

end Additions

/-- The bind of an element has been made, it governs the repeats beside it, and there are no binds
below it yet. -/
structure Begun (t : Tree) (path : String) (φ : Frame) (area : NodeId) (s : Synthesis) : Prop where
  scene : ∃ f d, Scene s f φ.scope area d ∧ φ.In s d ∧ d.kids = []
  apart : φ.parent ≠ area
  bound : ∃ b, φ.own = some b.id ∧ φ.around = some b.id ∧ b.id ∈ φ.known ∧
    Binding t s.tree φ.parent path φ.scope b

section Steps

variable {t : Tree} {path : String} {φ : Frame} {area : NodeId} {s : Synthesis}

/-- An element is begun when its bind is added, unless it is taken for that of an attribute. -/
theorem begun_addBind {f : Grove} {scope : NodeId} {d : Draft} (h : Scene s f scope area d)
    {known : List String} (hknown : ∀ id ∈ known, s.ids.Given "bind" id) (b : Bind)
    (hpath : path.startsWith "@" = false) (hsize : t.size ≤ s.tree.size) {front : List NodeId}
    (hchildren : s.tree.children scope = t.children scope ++ front)
    (hfront : ∀ n ∈ front, ∀ other, s.tree.bind? n = some other → other.nodeset ≠ path) :
    let added := Generator.addBind scope b path s
    Begun t path ⟨added.1.node, scope, some added.1.id, some added.1.id, added.1.id :: known⟩ area
      added.2 := by
  obtain ⟨-, -, hb⟩ := addBind_binds b path h.world.shows.toHolds h.scope_mem
  have ha := hb.adds h
  have hgoverning : (d.withBind (nextBind s b path)).governing = some (nextBind s b path).id := by
    have hattribute : (nextBind s b path).isAttribute = false := hpath
    simp [Draft.governing, Draft.withBind, Kid.lastElement, hattribute]
  refine ⟨⟨_, _, hb.inside h, ⟨rfl, hgoverning, hb.parent, fun id hid => ?_⟩, rfl⟩, h.ne,
    nextBind s b path, rfl, rfl, List.mem_cons_self, hsize, hb.bind?_eq h, rfl, front, ?_,
    fun n hn other hother => ?_⟩
  · rcases List.mem_cons.1 hid with rfl | hid
    · exact hb.given
    · exact (hknown id hid).mono hb.before
  · rw [← List.append_assoc, ← hchildren]
    exact hb.children_eq h
  · have hnf : n ∈ ids f :=
      h.world.shows.links.children_subset h.scope_mem (hchildren ▸ List.mem_append_right _ hn)
    obtain ⟨old, hold, hnodeset⟩ := ha.nodeset_eq h hnf hother
    exact hnodeset ▸ hfront n hn old hold

/-- Steps that do not see the arena do not matter. -/
theorem Begun.still (h : Begun t path φ area s) {α : Type} {f : Synth α} (hf : Quiet f) :
    Begun t path φ area (f s).2 := by
  obtain ⟨grove, d, hscene, hφ, hkids⟩ := h.scene
  have hstill : Adds s (f s).2 grove φ.scope area d d {} :=
    .still hscene.world.shows (hf.tree_eq s) (hf.reused_eq s) (hf.before s) rfl
  refine ⟨⟨grove, d, hscene.still (hf.tree_eq s) (hf.reused_eq s) (hf.before s),
    hφ.mono hscene hstill, hkids⟩, h.apart, ?_⟩
  rw [hf.tree_eq]
  exact h.bound

/-- A section has been opened for the element. -/
theorem Begun.inside (h : Begun t path φ area s) {F : Synth NodeId} {before : List Control}
    {c : Control}
    (hF : ∀ (s : Synthesis) (f : Grove), s.tree.Holds f → area ∈ ids f → ∃ t g area',
      F s = (area', { s with tree := t }) ∧ s.tree.Hangs t f area g ∧ Opened g area' before c)
    (hbefore : ∀ c' ∈ before, c'.bind = none) (hc : ∀ id, c.bind = some id → id ∈ φ.known) :
    Begun t path φ (F s).1 (F s).2 := by
  obtain ⟨grove, d, hscene, hφ, hkids⟩ := h.scene
  obtain ⟨t', g, area', hrun, hangs, hopened⟩ :=
    hF s grove hscene.world.shows.toHolds hscene.area_mem
  have hung := hopened.hung hangs hbefore fun id hid => hφ.known id (hc id hid)
  have ha := hung.adds hscene
  have hφ₁ := hφ.mono hscene ha
  obtain ⟨b, hown, haround, hknown, hbinding⟩ := h.bound
  rw [hrun]
  refine ⟨⟨_, _, hung.inside hopened hscene, ⟨hφ₁.own, hφ₁.around, hφ₁.parent, hφ₁.known⟩, hkids⟩,
    fun he => ?_, b, hown, haround, hknown, hbinding.grow ha hscene hφ.parent h.apart⟩
  -- the section is new
  obtain ⟨p, hp, hmem, -⟩ := hscene.scopeAt.outer
  cases hφ.parent.symm.trans hp
  have hnew : s.tree.size ≤ φ.parent.index := he ▸ hangs.new area' hopened.mem
  exact Nat.not_lt.2 hnew (hscene.lt hmem)

end Steps

/-- From where an element is begun and no repeat has been made, a run makes one for it. -/
def Opens {α : Type} (t : Tree) (path : String) (φ : Frame) (area : NodeId) (F : Synth α) : Prop :=
  ∀ ⦃s : Synthesis⦄, Begun t path φ area s → ∀ ⦃before⦄, Makes t s.tree before →
    (∀ a ∈ before, a.2.kind.isRepeat = false) → ∀ ⦃top⦄, (F s).2.tree.Rooted top →
      Nonempty (Repeated t (F s).2.tree φ.parent path)

namespace Opens

variable {α β : Type} {t : Tree} {path : String} {φ : Frame} {area : NodeId} {g : Generator}
  {box : Option Markup}

theorem quietly {f : Synth β} {k : β → Synth α} (hf : Quiet f) {R : β → Prop} (hR : ∀ s, R (f s).1)
    (hk : ∀ b, R b → Opens t path φ area (k b)) : Opens t path φ area (f >>= k) :=
  fun s hb _ hmakes hfirst _ hr =>
    hk _ (hR s) (hb.still hf) ((hf.tree_eq s).symm ▸ hmakes) hfirst hr

theorem quiet {f : Synth β} {k : β → Synth α} (hf : Quiet f)
    (hk : ∀ b, Opens t path φ area (k b)) : Opens t path φ area (f >>= k) :=
  quietly hf (R := fun _ => True) (fun _ => trivial) fun b _ => hk b

/-- A run that looks at the arena first. -/
theorem see {F : Synthesis → Synth α}
    (h : ∀ s f d, Scene s f φ.scope area d → φ.In s d → Opens t path φ area (F s)) :
    Opens t path φ area (get >>= F) := fun s hb before hmakes hfirst top hr => by
  obtain ⟨f, d, hscene, hφ, -⟩ := hb.scene
  exact h s f d hscene hφ hb hmakes hfirst hr

variable (hg : g.layout.Boxes box)

include hg

/-- A run that opens a section first, for something else than a repeat. -/
theorem controlWith {c : Control} {k : NodeId → Synth α} (hc : ∀ id, c.bind = some id → id ∈ φ.known)
    (hkind : c.kind.isRepeat = false) (hk : ∀ area', Opens t path φ area' (k area')) :
    Opens t path φ area (g.addControl area c >>= fun n => g.contentOf n >>= k) := by
  intro s hb before hmakes hfirst top hr
  have hinside := hb.inside (Generator.addControl_opens hg c) (fun _ hc' => by cases hc') hc
  have hcontrol : Makes s.tree ((g.addControl area c >>= g.contentOf) s).2.tree
      [(⟨s.tree.size⟩, c)] := by
    change Makes s.tree (g.contentOf _ (g.addControl area c s).2).2.tree _
    rw [Generator.contentOf_run hg]
    exact Generator.makes_addControl hg area c s
  refine hk _ hinside (hmakes.trans hcontrol) (fun a ha => ?_) hr
  rcases List.mem_append.1 ha with ha | ha
  · exact hfirst a ha
  · rw [List.mem_singleton.1 ha]
    exact hkind

omit hg in
/-- The repeat of an element behind its triggers, if its items follow a sketch. -/
theorem region {F : Synth NodeId} {rep : Control} {cs : List Control}
    (hF : ∀ (s : Synthesis) (f : Grove), s.tree.Holds f → area ∈ ids f → ∃ t g area',
      F s = (area', { s with tree := t }) ∧ s.tree.Hangs t f area g ∧ Opened g area' cs rep)
    (hrow : ∀ s, (F s).1 = ⟨s.tree.size⟩ ∧ ∃ row,
      Makes s.tree (F s).2.tree ((⟨s.tree.size⟩, rep) :: row) ∧ row.map (·.2) = cs)
    (hkind : rep.kind = .repeatRegion) (hbind : rep.bind = φ.around)
    (hcs : ∃ i j k, cs = repeatTriggers rep.id φ.around i j k)
    {I : List Kid → Prop} (hI : I []) {k : NodeId → Synth α} {p : Sketch α}
    (hk : ∀ area', Follows I φ area' (k area') p) : Opens t path φ area (F >>= k) := by
  intro s hb before hmakes hfirst top hr
  obtain ⟨i, j, l, rfl⟩ := hcs
  change (k (F s).1 (F s).2).2.tree.Rooted top at hr
  change Nonempty (Repeated t (k (F s).1 (F s).2).2.tree φ.parent path)
  have hinside : Begun t path φ (F s).1 (F s).2 := by
    obtain ⟨b, -, haround, hknown, -⟩ := hb.bound
    refine hb.inside hF (fun c hc => ?_) fun id hid => ?_
    · simp only [repeatTriggers, List.mem_cons, List.not_mem_nil, or_false] at hc
      rcases hc with rfl | rfl | rfl <;> rfl
    · cases hid.symm.trans (hbind.trans haround)
      exact hknown
  obtain ⟨hregion, row, hrow, htriggers⟩ := hrow s
  obtain ⟨f, d, hscene, hφ, hkids⟩ := hinside.scene
  obtain ⟨-, -, -, γ, ha, -⟩ := hk _ hscene (hkids ▸ hI) hφ
  obtain ⟨after, hafter, hbelow, -⟩ := ha.makes hscene hr
  obtain ⟨b, -, haround, -, hbinding⟩ := hinside.bound
  have hmade := (hmakes.trans hrow).trans hafter
  exact ⟨{
    bindNode := φ.scope
    bind := b
    binding := hbinding.grow ha hscene hφ.parent hinside.apart
    region := ⟨s.tree.size⟩
    control := rep
    before := before
    row := row
    after := after
    made := by simpa using hmade.since
    first := hfirst
    kind := hkind
    bound := hbind.trans haround
    triggers := ⟨i, j, l, haround ▸ htriggers⟩
    below := fun a hm => (ha.shows.mem_descendants hr _ _).2 (hregion ▸ hbelow a hm) }⟩

/-- The repeat of an element, for which its own bind is found. -/
theorem repeated {I : List Kid → Prop} (hI : I []) {k : NodeId → Synth α} {p : Sketch α}
    (hk : ∀ area', Follows I φ area' (k area') p) :
    Opens t path φ area (g.addRepeat ⟨φ.parent, area⟩ >>= fun n => g.contentOf n >>= k) := by
  rw [Generator.addRepeat_bind]
  refine quiet (.allocate "repeat") fun id => see fun s f d hscene hφ => ?_
  rw [hscene.around_eq hφ, hφ.around, Generator.repeatOf, bind_assoc]
  refine quiet (.reportUngoverned id φ.around) fun _ => ?_
  rw [bind_assoc]
  refine quietly (.repeatActions id φ.around) (R := fun actions => ∃ i j k,
    actions.map (fun a => Generator.repeatTrigger id a.1 a.2.1 a.2.2) =
      repeatTriggers id φ.around i j k) (fun s => ⟨_, _, _, rfl⟩) fun actions hactions => ?_
  exact region (Generator.addRepeat_opens hg _ _) (Generator.makes_behindRow hg area _ _) rfl rfl
    hactions hI hk

/-- The items of what may occur more than once. -/
theorem items {occurs : Occurs} (hmultiple : occurs.isMultiple = true) {I : List Kid → Prop}
    (hI : I []) {k : NodeId → Synth α} {p : Sketch α}
    (hk : ∀ area', Follows I φ area' (k area') p) :
    Opens t path φ area (g.itemsArea ⟨φ.parent, area⟩ occurs >>= k) := by
  unfold Generator.itemsArea
  rw [if_pos hmultiple, bind_assoc]
  exact repeated hg hI hk

/-- An element of a complex type, within its group. -/
theorem complex {child : Generator.ChildAdder} {sketch : Sketch.ChildSketch}
    (hchild : Follows.Child child sketch) (r : Sketch.Role) (hr : (g.schema.complex? r.type).isSome)
    (hown : ∀ id, φ.own = some id → id ∈ φ.known) {occurs : Occurs}
    (hmultiple : occurs.isMultiple = true) (e : Element) :
    Opens t path φ area
      (g.addComplex child ⟨φ.scope, r.type, r.owner, r.inherits⟩ area e occurs) := by
  unfold Generator.addComplex
  cases hcomplex : g.schema.complex? r.type with
  | none =>
    rw [hcomplex] at hr
    cases hr
  | some type =>
    refine see fun s f d h hφ => ?_
    dsimp only
    rw [h.own_eq, hφ.own]
    refine quiet (.allocate "group") fun id => controlWith hg hown rfl fun content => ?_
    refine see fun s₁ f₁ d₁ h₁ hφ₁ => ?_
    rw [hφ₁.parent]
    exact items hg hmultiple (I := Settled) settled_nil fun area' =>
      Follows.content hg hchild e type

end Opens

/-- In each scene a run makes a repeat for an element, if it comes to something that `P` holds of. -/
def Repeating {α : Type} (P : α → Prop) (scope area : NodeId) (path : String) (F : Synth α) : Prop :=
  ∀ ⦃s f d⦄, Scene s f scope area d → P (F s).1 → ∀ ⦃top⦄, (F s).2.tree.Rooted top →
    Nonempty (Repeated s.tree (F s).2.tree scope path)

namespace Repeating

variable {α β : Type} {P : α → Prop} {scope area : NodeId} {path : String} {g : Generator}
  {box : Option Markup}

theorem absurd {F : Synth α} (h : ∀ s, ¬ P (F s).1) : Repeating P scope area path F :=
  fun s _ _ _ hP => (h s hP).elim

theorem quiet {f : Synth β} {k : β → Synth α} (hf : Quiet f)
    (hk : ∀ b, Repeating P scope area path (k b)) : Repeating P scope area path (f >>= k) := by
  intro s grove d h hP top hr
  have hrepeated := hk _ (h.still (hf.tree_eq s) (hf.reused_eq s) (hf.before s)) hP hr
  rw [hf.tree_eq] at hrepeated
  exact hrepeated

/-- What comes behind does not see the arena. -/
theorem behind {F : Synth β} {k : β → Synth α}
    (hF : Repeating (fun _ => True) scope area path F) (hk : ∀ b, Quiet (k b)) :
    Repeating P scope area path (F >>= k) := by
  intro s grove d h _ top hr
  have htree : ((F >>= k) s).2.tree = (F s).2.tree := (hk _).tree_eq _
  rw [htree] at hr ⊢
  exact hF h trivial hr

/-- The bind of the element is all that is added first. -/
theorem addBind {b : Bind} (hpath : path.startsWith "@" = false) {k : BindRef → Synth α}
    (hk : ∀ (t : Tree) (ref : BindRef),
      Opens t path ⟨ref.node, scope, some ref.id, some ref.id, [ref.id]⟩ area (k ref)) :
    Repeating P scope area path (Generator.addBind scope b path >>= k) := by
  intro s grove d h _ top hr
  refine hk s.tree _ (begun_addBind h (fun _ hid => by cases hid) b hpath (Nat.le_refl _)
    (List.append_nil _).symm fun _ hn => by cases hn) (Generator.makes_addBind ..) (fun _ ha => ?_) hr
  cases ha

/-- A bind with another path is added before that of the element. -/
theorem addBinds {b b' : Bind} {nodeset : String} (hnodeset : nodeset ≠ path)
    (hpath : path.startsWith "@" = false) {k : BindRef → BindRef → Synth α}
    (hk : ∀ (t : Tree) (ref' ref : BindRef),
      Opens t path ⟨ref.node, scope, some ref.id, some ref.id, [ref.id, ref'.id]⟩ area (k ref' ref)) :
    Repeating P scope area path (Generator.addBind scope b' nodeset >>= fun ref' =>
      Generator.addBind scope b path >>= k ref') := by
  intro s grove d h _ top hr
  obtain ⟨-, -, hb⟩ := addBind_binds b' nodeset h.world.shows.toHolds h.scope_mem
  have hbegun := begun_addBind (t := s.tree) (hb.scene h)
    (fun id hid => List.mem_singleton.1 hid ▸ hb.given) b hpath (hb.adds h).size_le
    (hb.children_eq h) fun n hn other hother => by
      rw [List.mem_singleton.1 hn, hb.bind?_eq h] at hother
      cases hother
      exact hnodeset
  have hmakes := (Generator.makes_addBind scope b' nodeset s).trans
    (Generator.makes_addBind scope b path (Generator.addBind scope b' nodeset s).2)
  exact hk s.tree _ _ hbegun hmakes (fun _ ha => by cases ha) hr

variable (hg : g.layout.Boxes box)

include hg

theorem field (t : TypeId) (owner : Generator.Owner) (hpath : path.startsWith "@" = false)
    {occurs : Occurs} (hmultiple : occurs.isMultiple = true) :
    Repeating (fun _ => True) scope area path (g.addField ⟨scope, area⟩ t owner path occurs) := by
  unfold Generator.addField
  refine addBind hpath fun t₀ ref => ?_
  unfold Generator.valueSpot
  rw [if_pos hmultiple]
  simp only [bind_assoc, pure_bind]
  refine .quiet (.allocate "group") fun id => .controlWith hg (fun id hid => ?_) rfl fun content => ?_
  · cases hid
    exact List.mem_cons_self
  · refine .repeated hg (I := Any) trivial fun area' =>
      Follows.withKid (I := Any) trivial fun item around =>
        Follows.valueControl hg rfl List.mem_cons_self

variable {child : Generator.ChildAdder} {sketch : Sketch.ChildSketch}
  (hchild : Follows.Child child sketch)

include hchild

theorem plain (e : Element) (owner : ElementId) (declared : TypeId) {resolved : TypeId}
    (hresolved : (g.schema.complex? resolved).isSome) (hpath : path.startsWith "@" = false)
    {occurs : Occurs} (hmultiple : occurs.isMultiple = true) :
    Repeating (fun _ => True) scope area path
      (g.addPlain child ⟨scope, area⟩ e owner declared resolved path occurs) := by
  have hkid (e : Element) : Repeating (fun _ => True) scope area path
      (Generator.addBind scope {} path >>= fun bind =>
        g.addComplex child ⟨bind.node, resolved, owner, false⟩ area e occurs) :=
    addBind hpath fun t₀ ref =>
      .complex hg hchild ⟨resolved, owner, false⟩ hresolved
        (fun id hid => by cases hid; exact List.mem_cons_self) hmultiple e
  unfold Generator.addPlain
  split
  · exact hkid e
  · exact quiet (.typeValue g resolved) fun value => hkid _

/-- The bind for the choice of the type is made first; it has another path. -/
theorem switch (e : Element) (owner : ElementId) (declared : TypeId) (types : List TypeId)
    (hpath : path.startsWith "@" = false) {occurs : Occurs} (hmultiple : occurs.isMultiple = true) :
    Repeating (fun _ => True) scope area path
      (g.addSwitch child ⟨scope, area⟩ e owner declared types path occurs) := by
  rw [Generator.addSwitch_eq]
  have hnodeset : path ++ "/@xsi:type" ≠ path := fun he => by
    have hlength := congrArg String.length he
    simp at hlength
  refine quiet (.allocate "select1") fun selectId => addBinds hnodeset hpath fun t₀ ref' ref => ?_
  refine .items hg hmultiple (I := Idle) idle_nil fun area' =>
    Follows.switchItem (φ := ⟨_, _, _, _, _⟩) hg hchild (fun id hid => ?_) (fun id hid => ?_) ?_ e
      owner declared types
  · cases hid
    exact List.mem_cons_self
  · cases hid
    exact List.mem_cons_self
  · simp

theorem expand (hcandidates : ∀ t, ∀ t' ∈ g.candidates t, (g.schema.complex? t).isSome →
      (g.schema.complex? t').isSome)
    (e : Element) (id : ElementId) (hpath : path.startsWith "@" = false) {occurs : Occurs}
    (hmultiple : occurs.isMultiple = true) :
    Repeating (fun data => data.isSome) scope area path
      (g.expand child ⟨scope, area⟩ e id path occurs) := by
  unfold Generator.expand
  dsimp only
  cases (g.schema.element id).type with
  | none => exact absurd fun _ hsome => by cases hsome
  | some t =>
    dsimp only
    split
    · exact behind (field hg t _ hpath hmultiple) fun _ => .pure _
    · next hcomplex =>
      have ht : (g.schema.complex? t).isSome := by
        rwa [Option.isNone_iff_eq_none, ← Option.not_isSome_iff_eq_none, not_not] at hcomplex
      refine quiet (.enter id t) fun entered => ?_
      have hleave (e : Element) : Quiet (do
          leave
          return some e : Synth (Option Element)) := (Quiet.leave).bind fun _ => .pure _
      split
      · split
        · exact behind (plain hg hchild e id t ht hpath hmultiple) hleave
        · next resolved hresolved =>
          have hmem : resolved ∈ g.candidates t := by simp [hresolved]
          exact behind (plain hg hchild e id t (hcandidates t resolved hmem ht) hpath hmultiple)
            hleave
        · exact behind (switch hg hchild e id t _ hpath hmultiple) hleave
      · exact absurd fun _ hsome => by cases hsome

omit hchild in
/-- Elements are added with their repeats, however many expansions can be opened. -/
theorem element (hcandidates : ∀ t, ∀ t' ∈ g.candidates t, (g.schema.complex? t).isSome →
      (g.schema.complex? t').isSome) (openings : Nat)
    (e : Element) (id : ElementId) (hpath : path.startsWith "@" = false) {occurs : Occurs}
    (hmultiple : occurs.isMultiple = true) :
    Repeating (fun data => data.isSome) scope area path
      (g.addElement openings ⟨scope, area⟩ e id path occurs) := by
  cases openings with
  | zero => exact absurd fun _ hsome => by cases hsome
  | succ openings =>
    exact expand hg (Follows.element hg hcandidates openings) hcandidates e id hpath hmultiple

end Repeating

/-- A run makes as many repeats as are sketched. -/
theorem Follows.repeatsSince {α : Type} {φ : Frame} {area : NodeId} {F : Synth α} {p : Sketch α}
    (hF : Follows Any φ area F p) {s : Synthesis} {f : Grove} {d : Draft}
    (h : Scene s f φ.scope area d) (hφ : φ.In s d) (hd : d.controls = .nil) {top : NodeId}
    (hr : (F s).2.tree.Rooted top) :
    (F s).2.tree.repeatsSince s.tree.size = (p d s.bare).1.2.controls.repeats := by
  obtain ⟨-, -, -, γ, ha, -⟩ := hF h trivial hφ
  obtain ⟨made, hmakes, -, hcount⟩ := ha.makes h hr
  rw [Tree.repeatsSince, hmakes.since, hcount, ha.drawn, hd, Forest.nil_append]

/-- In each scene an element that may occur more than once makes one repeat more than one that occurs
once. -/
theorem Scene.repeatsSince_addElement {g : Generator} {box : Option Markup}
    (hg : g.layout.Boxes box)
    (hcandidates : ∀ t, ∀ t' ∈ g.candidates t, (g.schema.complex? t).isSome →
      (g.schema.complex? t').isSome)
    {s : Synthesis} {f : Grove} {scope area : NodeId} {d : Draft} (h : Scene s f scope area d)
    (openings : Nat) (e : Element) (id : ElementId) (path : String) {occurs : Occurs}
    (hmultiple : occurs.isMultiple = true) :
    let added (occurs : Occurs) := g.addElement openings ⟨scope, area⟩ e id path occurs s
    (added occurs).1.isSome → ∀ {top top' : NodeId}, (added occurs).2.tree.Rooted top →
      (added .once).2.tree.Rooted top' →
      (added occurs).2.tree.repeatsSince s.tree.size =
        (added .once).2.tree.repeatsSince s.tree.size + 1 := by
  intro added hsome top top' hr hr'
  -- the controls drafted so far make no difference
  have hcleared := h.cleared
  obtain ⟨parent, hφ⟩ := hcleared.framed
  let φ : Frame := ⟨scope, parent, d.own, d.around, []⟩
  have hfollows (occurs : Occurs) : Follows Any φ area
      (g.addElement openings ⟨scope, area⟩ e id path occurs)
      (Sketch.element g openings e id path occurs) :=
    (Follows.element hg hcandidates openings φ area e id path occurs).1
  have hsketch := (hfollows occurs hcleared trivial hφ).1
  rw [(hfollows occurs).repeatsSince hcleared hφ rfl hr,
    (hfollows .once).repeatsSince hcleared hφ rfl hr']
  exact Sketch.ExceedsIfSome.element g hcandidates openings e id path hmultiple _ _ rfl
    (hsketch ▸ hsome)

namespace Generator

/-- Wherever an element is added that may occur more than once and is not left out, the first repeat
that is made is that of its bind, and so are the triggers made with it; all that is made later lies
in this repeat; and there is one repeat more than there would be if the element occurred once. -/
theorem repeats_follow_occurrence (schema : Schema) (settings : Settings) {l : Layout}
    (hl : l.Standard) {r : Request} {n : Nat} {c : Call}
    (hc : Reached (ofSchema schema settings (some l)) r n c) (openings : Nat) (e : Element)
    (id : ElementId) {path : String} (hpath : path.startsWith "@" = false) {occurs : Occurs}
    (hzero : occurs.max ≠ some 0) (hone : occurs.max ≠ some 1) :
    let added (occurs : Occurs) :=
      (ofSchema schema settings (some l)).addElement openings c.spot e id path occurs c.state
    (added occurs).1.isSome →
      Nonempty (Repeated c.state.tree (added occurs).2.tree c.spot.scope path) ∧
      (added occurs).2.tree.repeatsSince c.state.tree.size =
        (added .once).2.tree.repeatsSince c.state.tree.size + 1 := by
  intro added hsome
  let g := ofSchema schema settings (some l)
  obtain ⟨box, hbox⟩ := Layout.Standard.boxes (l := g.layout) hl
  have hcandidates : ∀ t, ∀ t' ∈ g.candidates t, (g.schema.complex? t).isSome →
      (g.schema.complex? t').isSome := fun t t' ht' ht => complex_of_mem_candidates rfl ht' ht
  have hmultiple : occurs.isMultiple = true := by
    simp [Occurs.isMultiple, Occurs.isEmpty, Occurs.isSingle, hzero, hone]
  obtain ⟨⟨f, d, hscene⟩, hanchored⟩ := hc.places hl rfl
  have hrooted (occurs : Occurs) : ∃ top, (added occurs).2.tree.Rooted top :=
    hanchored.rooted (g := g) hl e id path occurs
  obtain ⟨top, htop⟩ := hrooted occurs
  obtain ⟨top', htop'⟩ := hrooted .once
  exact ⟨Repeating.element hbox hcandidates openings e id hpath hmultiple hscene hsome htop,
    hscene.repeatsSince_addElement hbox hcandidates openings e id path hmultiple hsome htop htop'⟩

/-- A type of which the only content is a child that may stand any number of times. -/
def manifoldType : ComplexType where
  content := .elementOnly
  particle := some (.group .once .sequence [.element ⟨0, none⟩ ⟨1⟩])

/-- A schema with an element of this type. -/
def manifold : Schema where
  target := none
  types := #[.any, .complex manifoldType]
  elements := #[{ name := ⟨none, "r"⟩, type := some ⟨1⟩ },
    { name := ⟨none, "c"⟩, type := some Schema.anyType }]
  uses := #[]
  typeNames := .empty
  elementNames := Table.empty.put ⟨none, "r"⟩ ⟨0⟩

/-- The call for the child is made behind that for the root element. -/
theorem reached_manifold :
    ∃ c, Reached (ofSchema manifold {} (some .plain)) { root := "r" } 2 c ∧ c.element = ⟨1⟩ ∧
      c.path = "c" ∧ c.occurs = ⟨0, none⟩ := by
  let g := ofSchema manifold {} (some .plain)
  let r : Request := { root := "r" }
  have hroot : manifold.findElement (QName.of manifold.target "r") = some ⟨0⟩ := by
    simp [manifold, Schema.findElement, QName.of]
  have hreached : Reached g r 3 (g.rootCall r ⟨0⟩) := .root hroot rfl
  have htype : (g.schema.element (g.rootCall r ⟨0⟩).element).type = some ⟨1⟩ := rfl
  have hcomplex : g.schema.complex? ⟨1⟩ = some manifoldType := rfl
  have hcandidates : g.candidates ⟨1⟩ = [⟨1⟩] := by decide +kernel
  have hfresh : (⟨0⟩, ⟨1⟩) ∉ (g.rootCall r ⟨0⟩).state.expanding := by
    rw [rootCall_expanding]
    exact List.not_mem_nil
  have hoccurs : (⟨0, none⟩ : Occurs).isEmpty = false := rfl
  have hname : (g.schema.element ⟨1⟩).name.nspace = none := rfl
  obtain ⟨state, spot, data, hcalls⟩ := calls_only_child (n := 2) htype hcomplex hcandidates hfresh
    rfl rfl rfl rfl hoccurs hname
  exact ⟨_, .child hreached hcalls, rfl, rfl, rfl⟩

theorem repeats_follow_occurrence_manifold :
    ∃ c, Reached (ofSchema manifold {} (some .plain)) { root := "r" } 2 c ∧
      c.path.startsWith "@" = false ∧ c.occurs.max ≠ some 0 ∧ c.occurs.max ≠ some 1 ∧
      let added (occurs : Occurs) := (ofSchema manifold {} (some .plain)).addElement 2 c.spot c.data
        c.element c.path occurs c.state
      (added c.occurs).1.isSome ∧
      Nonempty (Repeated c.state.tree (added c.occurs).2.tree c.spot.scope c.path) ∧
      (added c.occurs).2.tree.repeatsSince c.state.tree.size =
        (added .once).2.tree.repeatsSince c.state.tree.size + 1 := by
  obtain ⟨c, hc, helement, hpath, hoccurs⟩ := reached_manifold
  let g := ofSchema manifold {} (some .plain)
  have hchild : c.path.startsWith "@" = false := by
    rw [hpath]
    decide +kernel
  have hzero : c.occurs.max ≠ some 0 := by simp [hoccurs]
  have hone : c.occurs.max ≠ some 1 := by simp [hoccurs]
  have hany : (manifold.element c.element).type = some Schema.anyType := by
    rw [helement]
    rfl
  have hsome : (g.addElement 2 c.spot c.data c.element c.path c.occurs c.state).1.isSome := by
    rw [addElement, expand_field hany c.data c.path rfl]
    rfl
  exact ⟨c, hc, hchild, hzero, hone, hsome,
    repeats_follow_occurrence manifold {} .plain hc 2 c.data c.element hchild hzero hone hsome⟩

end Generator

end SchemaForms
