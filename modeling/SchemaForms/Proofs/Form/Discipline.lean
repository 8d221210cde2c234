import SchemaForms.Proofs.Form.Simulation

/-!
Disciplines: properties of steps of the generator that hold of all it does with an element if they
hold of the few operations that it does this with.  Such a property may come from what steps keep up
in the arena.
-/

namespace SchemaForms

open Synthesis

/-- What steps keep up in the arena: what it is like, how they change it and what its places are
good for. -/
structure Upkeep (ι : Type) where
  Good : Tree → Prop
  Change : Tree → Tree → Prop
  Fit : Tree → ι → Prop
  refl (t : Tree) : Change t t
  trans {t t' t'' : Tree} (h : Change t t') (h' : Change t' t'') : Change t t''
  good {t t' : Tree} (h : Change t t') (ht : Good t) : Good t'
  fit {t t' : Tree} {p : ι} (h : Change t t') (hp : Fit t p) : Fit t' p

namespace Upkeep

variable {ι α β : Type} (U : Upkeep ι) {places : List ι} {made : α → List ι} {made' : β → List ι}

/-- In a good arena that has some places, a step makes a change of the kind, and what it makes for
more places is fit for it. -/
def Step (places : List ι) (f : Synth α) (made : α → List ι) : Prop :=
  ∀ s : Synthesis, U.Good s.tree → (∀ p ∈ places, U.Fit s.tree p) →
    U.Change s.tree (f s).2.tree ∧ ∀ p ∈ made (f s).1, U.Fit (f s).2.tree p

variable {U}

theorem of_change {f : Synth α}
    (h : ∀ s : Synthesis, U.Good s.tree → (∀ p ∈ places, U.Fit s.tree p) →
      U.Change s.tree (f s).2.tree) : U.Step places f fun _ => [] :=
  fun s hs hplaces => ⟨h s hs hplaces, fun _ hp => nomatch hp⟩

/-- A step that leaves the arena alone. -/
theorem still {f : Synth α} (h : ∀ s, (f s).2.tree = s.tree) : U.Step places f fun _ => [] :=
  of_change fun s _ _ => h s ▸ U.refl s.tree

theorem pure {a : α} (h : made a ⊆ places) : U.Step places (pure a) made :=
  fun s _ hplaces => ⟨U.refl s.tree, fun p hp => hplaces p (h hp)⟩

theorem done (a : α) : U.Step places (Pure.pure a) fun _ => [] := pure (List.nil_subset _)

theorem bind {f : Synth α} {k : α → Synth β} (hf : U.Step places f made)
    (hk : ∀ a, U.Step (made a ++ places) (k a) made') : U.Step places (f >>= k) made' := by
  intro s hs hplaces
  obtain ⟨hfirst, hmade⟩ := hf s hs hplaces
  obtain ⟨hrest, hmade'⟩ := hk (f s).1 (f s).2 (U.good hfirst hs) fun p hp => by
    rcases List.mem_append.1 hp with hp | hp
    · exact hmade p hp
    · exact U.fit hfirst (hplaces p hp)
  exact ⟨U.trans hfirst hrest, hmade'⟩

/-- After a step that does not see the arena. -/
theorem after {f : Synth α} {k : α → Synth β} (hf : Quiet f) (hk : ∀ a, U.Step places (k a) made') :
    U.Step places (f >>= k) made' := bind (still hf.tree_eq) hk

/-- After a look at the state. -/
theorem look {k : Synthesis → Synth β} (hk : ∀ s, U.Step places (k s) made') :
    U.Step places (get >>= k) made' := fun s hs hplaces => hk s s hs hplaces

end Upkeep

/-- A node that others are hung below: any nodes, or those alone that are not put into boxes. -/
inductive Anchor where
  | any (node : NodeId)
  | unboxed (node : NodeId)

namespace Anchor

def node : Anchor → NodeId
  | .any n => n
  | .unboxed n => n

/-- A node is one of some anchors. -/
def Has (anchors : List Anchor) (n : NodeId) : Prop := ∃ p ∈ anchors, p.node = n

theorem Has.of_any {anchors : List Anchor} {n : NodeId} (h : .any n ∈ anchors) : Has anchors n :=
  ⟨_, h, rfl⟩

theorem Has.append {anchors : List Anchor} {n : NodeId} (h : Has anchors n) (more : List Anchor) :
    Has (more ++ anchors) n := by
  obtain ⟨p, hp, rfl⟩ := h
  exact ⟨p, List.mem_append_right _ hp, rfl⟩

theorem has_cons (n : NodeId) (anchors : List Anchor) : Has (.unboxed n :: anchors) n :=
  ⟨_, List.mem_cons_self, rfl⟩

end Anchor

open Anchor (Has)

/-- A property of steps that are made when some anchors are there, and that give more of them. -/
structure Discipline (g : Generator) where
  Step {α : Type} : List Anchor → Synth α → (α → List Anchor) → Prop
  pure {α : Type} {anchors : List Anchor} {made : α → List Anchor} {a : α} (h : made a ⊆ anchors) :
    Step anchors (pure a) made
  bind {α β : Type} {anchors : List Anchor} {made : α → List Anchor} {made' : β → List Anchor}
    {f : Synth α} {k : α → Synth β} (hf : Step anchors f made)
    (hk : ∀ a, Step (made a ++ anchors) (k a) made') : Step anchors (f >>= k) made'
  look {β : Type} {anchors : List Anchor} {made : β → List Anchor} {k : Synthesis → Synth β}
    (hk : ∀ s, Step anchors (k s) made) : Step anchors (get >>= k) made
  /-- Steps that leave the arena alone. -/
  still {α : Type} {anchors : List Anchor} {f : Synth α} (h : ∀ s, (f s).2.tree = s.tree) :
    Step anchors f fun _ => []
  modifyBind {anchors : List Anchor} (n : NodeId) (f : Bind → Bind) :
    Step anchors (modifyBind n f) fun _ => []
  /-- A control that is not boxed. -/
  hang {β : Type} {anchors : List Anchor} {made : β → List Anchor} {c : Control} {parent : NodeId}
    {k : NodeId → Synth β} (hc : c.kind ≠ .switch) (hparent : Has anchors parent)
    (hk : ∀ n, Step ([.any n] ++ anchors) (k n) made) :
    Step anchors (create (.control c) >>= fun n => append parent n >>= fun _ => k n) made
  addBind {anchors : List Anchor} {scope : NodeId} (b : Bind) (nodeset : String)
    (hscope : Has anchors scope) :
    Step anchors (Generator.addBind scope b nodeset) fun r => [.unboxed r.node]
  addControl {anchors : List Anchor} {area : NodeId} (c : Control) (harea : .any area ∈ anchors) :
    Step anchors (g.addControl area c) fun n => [.unboxed n]
  addSection {anchors : List Anchor} {area : NodeId} {c : Control} (hc : c.kind ≠ .switch)
    (harea : .any area ∈ anchors) : Step anchors (g.addControl area c) fun n => [.any n]
  contentOf {anchors : List Anchor} {group : NodeId} (hgroup : .any group ∈ anchors) :
    Step anchors (g.contentOf group) fun n => [.any n]
  addRepeat {anchors : List Anchor} (spot : Spot) (harea : .any spot.area ∈ anchors) :
    Step anchors (g.addRepeat spot) fun n => [.any n]
  reuse {anchors : List Anchor} (spot : Spot) (nodeset : String) (harea : .any spot.area ∈ anchors) :
    Step anchors (g.reuse spot nodeset) fun _ => []

namespace Discipline

open Generator

variable {g : Generator} (D : Discipline g) {anchors : List Anchor} {area : NodeId}

/-- A step that gives no anchors. -/
abbrev StepAll {α : Type} (anchors : List Anchor) (f : Synth α) : Prop := D.Step anchors f fun _ => []

variable {D}

theorem done {α : Type} (a : α) : D.StepAll anchors (Pure.pure a) := D.pure (List.nil_subset _)

/-- After a step that does not see the arena. -/
theorem after {α β : Type} {made : β → List Anchor} {f : Synth α} {k : α → Synth β} (hf : Quiet f)
    (hk : ∀ a, D.Step anchors (k a) made) : D.Step anchors (f >>= k) made :=
  D.bind (D.still hf.tree_eq) hk

theorem itemsArea (spot : Spot) (occurs : Occurs) (harea : .any spot.area ∈ anchors) :
    D.Step anchors (g.itemsArea spot occurs) fun n => [.any n] := by
  unfold Generator.itemsArea
  split
  · exact D.bind (D.addRepeat spot harea) fun n => D.contentOf List.mem_cons_self
  · exact D.pure (List.cons_subset.2 ⟨harea, List.nil_subset _⟩)

theorem valueSpot (spot : Spot) (bind : BindRef) (type : Option String) (owner : Owner)
    (occurs : Occurs) (harea : .any spot.area ∈ anchors) (hbind : Has anchors bind.node) :
    D.Step anchors (g.valueSpot spot bind type owner occurs) fun p => [.any p.1] := by
  unfold Generator.valueSpot
  split
  · refine after (.allocate "group") fun id => ?_
    refine D.bind (D.addSection (by simp) harea) fun group => ?_
    refine D.bind (D.contentOf List.mem_cons_self) fun content => ?_
    refine D.bind (D.addRepeat ⟨spot.scope, content⟩ List.mem_cons_self) fun region => ?_
    refine D.bind (D.contentOf List.mem_cons_self) fun area => ?_
    refine D.bind (D.addBind _ _ ((((hbind.append _).append _).append _).append _)) fun item => ?_
    exact D.pure (by simp)
  · exact D.pure (List.cons_subset.2 ⟨harea, List.nil_subset _⟩)

theorem addField (spot : Spot) (t : TypeId) (owner : Owner) (path : String) (occurs : Occurs)
    (harea : .any spot.area ∈ anchors) (hscope : Has anchors spot.scope) :
    D.StepAll anchors (g.addField spot t owner path occurs) := by
  refine D.bind (D.addBind _ _ hscope) fun bind => ?_
  refine D.bind (valueSpot spot bind _ owner occurs (List.mem_cons_of_mem _ harea)
    (Anchor.has_cons ..)) fun p => ?_
  refine after (.fieldControl g t p.2) fun control => ?_
  exact D.bind (D.addControl _ List.mem_cons_self) fun _ => done ()

/-! Content. -/

theorem reuses (f : Filling) (isInherited : Bool) (nodeset : String) (harea : .any area ∈ anchors) :
    D.StepAll anchors (g.reuses f isInherited area nodeset) := by
  unfold Generator.reuses
  split
  · exact D.reuse ⟨f.bind, area⟩ nodeset harea
  · exact done false

end Discipline

/-- Children are added by such steps. -/
def Generator.ChildAdder.Keeps {g : Generator} (child : Generator.ChildAdder) (D : Discipline g) :
    Prop :=
  ∀ (anchors : List Anchor) spot e id path occurs, .any spot.area ∈ anchors → Has anchors spot.scope →
    D.StepAll anchors (child spot e id path occurs)

namespace Discipline

open Generator

variable {g : Generator} {D : Discipline g} {anchors : List Anchor} {area : NodeId}
  {child : ChildAdder}

theorem addText (f : Filling) (t : ComplexType) (harea : .any area ∈ anchors)
    (hbind : Has anchors f.bind) : D.StepAll anchors (g.addText f t area) := by
  unfold Generator.addText
  dsimp only
  split
  · exact addField _ _ _ _ _ harea hbind
  · exact addField _ _ _ _ _ harea hbind
  · exact done ()

theorem addUse (f : Filling) (e : Xml.Element) (id : UseId) (harea : .any area ∈ anchors)
    (hbind : Has anchors f.bind) : D.StepAll anchors (g.addUse f area e id) := by
  refine after (.qualified _) fun named => ?_
  refine D.bind (reuses f _ _ harea) fun reused => ?_
  split
  · exact done e
  · split
    · exact after (.report _) fun _ => done e
    · exact D.bind (addField _ _ _ _ _ harea hbind) fun _ => done _

theorem addUses (f : Filling) (e : Xml.Element) (ids : List UseId) (harea : .any area ∈ anchors)
    (hbind : Has anchors f.bind) : D.StepAll anchors (g.addUses f area e ids) := by
  induction ids generalizing e with
  | nil => exact done e
  | cons id ids ih => exact D.bind (addUse f e id harea hbind) fun e => ih e

theorem addChildElement (hchild : child.Keeps D) (f : Filling) (e : Xml.Element) (id : ElementId)
    (occurs : Occurs) (harea : .any area ∈ anchors) (hbind : Has anchors f.bind) :
    D.StepAll anchors (g.addChildElement child f area e id occurs) := by
  unfold Generator.addChildElement
  split
  · exact done e
  · refine after (.qualified _) fun named => ?_
    refine D.bind (reuses f _ _ harea) fun reused => ?_
    split
    · exact done e
    · refine D.bind (hchild anchors _ _ _ _ _ harea hbind) fun data => ?_
      cases data <;> exact done _

mutual

theorem addParticle (hchild : child.Keeps D) (f : Filling) (p : Particle) (anchors : List Anchor)
    (area : NodeId) (e : Xml.Element) (harea : .any area ∈ anchors) (hbind : Has anchors f.bind) :
    D.StepAll anchors (Generator.addParticle g child f area e p) := by
  cases p with
  | element occurs id =>
    rw [Generator.addParticle]
    exact addChildElement hchild f e id occurs harea hbind
  | group occurs c members =>
    rw [Generator.addParticle]
    refine D.bind (itemsArea ⟨f.bind, area⟩ occurs harea) fun section' => ?_
    exact addParticles hchild f members _ section' e List.mem_cons_self (hbind.append _)
  | wildcard =>
    rw [Generator.addParticle]
    exact after (.report _) fun _ => done e

theorem addParticles (hchild : child.Keeps D) (f : Filling) (ps : List Particle)
    (anchors : List Anchor) (area : NodeId) (e : Xml.Element) (harea : .any area ∈ anchors)
    (hbind : Has anchors f.bind) :
    D.StepAll anchors (Generator.addParticles g child f area e ps) := by
  cases ps with
  | nil =>
    rw [Generator.addParticles]
    exact done e
  | cons p ps =>
    rw [Generator.addParticles]
    exact D.bind (addParticle hchild f p anchors area e harea hbind) fun e =>
      addParticles hchild f ps anchors area e harea hbind

end

theorem addComplex (hchild : child.Keeps D) (f : Filling) (e : Xml.Element) (occurs : Occurs)
    (harea : .any area ∈ anchors) (hbind : Has anchors f.bind) :
    D.StepAll anchors (g.addComplex child f area e occurs) := by
  unfold Generator.addComplex
  split
  · exact done e
  · next t _ =>
    refine D.look fun s => after (.allocate "group") fun id => ?_
    refine D.bind (D.addSection (by simp) harea) fun group => ?_
    refine D.bind (D.contentOf List.mem_cons_self) fun content => D.look fun s => ?_
    refine D.bind (itemsArea ⟨_, content⟩ occurs List.mem_cons_self) fun items => ?_
    have hbind := ((hbind.append [.any group]).append [.any content]).append [.any items]
    refine D.bind (addText f t List.mem_cons_self hbind) fun _ => ?_
    refine D.bind (addUses f e t.uses List.mem_cons_self hbind) fun e => ?_
    unfold addContentModel
    split
    · exact addParticle hchild f _ _ items e List.mem_cons_self hbind
    · exact done e

theorem guardBinds (existing reused : List NodeId) (conditions : List String) (ids : List NodeId) :
    D.StepAll anchors (Generator.guardBinds existing reused conditions ids) := by
  induction ids with
  | nil => exact done ()
  | cons id ids ih => exact D.bind (D.modifyBind id _) fun _ => ih

theorem applyRelevance (bind : NodeId) (existing reused : List NodeId) (t : TypeId) :
    D.StepAll anchors (g.applyRelevance bind existing reused t) :=
  after (.typeConditions g _) fun _ => D.look fun _ => guardBinds _ _ _ _

theorem addCase (hchild : child.Keeps D) (switch bind : NodeId) (owner : ElementId)
    (declared : TypeId) (isFirst : Bool) (e : Xml.Element) (t : TypeId) (caseId : String)
    (hswitch : Has anchors switch) (hbind : Has anchors bind) :
    D.StepAll anchors (g.addCase child switch bind owner declared isFirst e t caseId) := by
  have hswap (binds : List NodeId) {anchors : List Anchor} : D.StepAll anchors (swapReused binds) :=
    D.still fun s => rfl
  unfold Generator.addCase
  refine D.hang (by simp) hswitch fun node => ?_
  refine D.bind (D.contentOf List.mem_cons_self) fun content => D.look fun s => ?_
  refine D.bind (hswap []) fun outer => ?_
  refine D.bind (addComplex hchild _ _ .once List.mem_cons_self
    ((hbind.append [.any node]).append [.any content])) fun data => ?_
  refine D.bind (hswap outer) fun reused => ?_
  split
  · exact D.bind (applyRelevance _ _ _ _) fun _ => done _
  · exact D.bind (done _) fun _ => done _

theorem addCases (hchild : child.Keeps D) (switch bind : NodeId) (owner : ElementId)
    (declared : TypeId) (isFirst : Bool) (e : Xml.Element) (cases : List (TypeId × String))
    (hswitch : Has anchors switch) (hbind : Has anchors bind) :
    D.StepAll anchors (g.addCases child switch bind owner declared isFirst e cases) := by
  induction cases generalizing isFirst e with
  | nil => exact done e
  | cons c cases ih =>
    exact D.bind (addCase hchild switch bind owner declared isFirst e c.1 c.2 hswitch hbind)
      fun e => ih false e

theorem addSwitch (hchild : child.Keeps D) (spot : Spot) (e : Xml.Element) (owner : ElementId)
    (declared : TypeId) (types : List TypeId) (path : String) (occurs : Occurs)
    (harea : .any spot.area ∈ anchors) (hscope : Has anchors spot.scope) :
    D.StepAll anchors (g.addSwitch child spot e owner declared types path occurs) := by
  refine after (.allocate "select1") fun selectId => ?_
  refine D.bind (D.addBind _ _ hscope) fun typeBind => ?_
  refine D.bind (D.addBind _ _ (hscope.append _)) fun bind => ?_
  have hbind := Anchor.has_cons bind.node ([.unboxed typeBind.node] ++ anchors)
  have harea : .any spot.area ∈ [.unboxed bind.node] ++ ([.unboxed typeBind.node] ++ anchors) := by
    simp [harea]
  refine D.bind (itemsArea spot occurs harea) fun area => ?_
  refine after (.promptChoice g _ _) fun prompt => after (.typeChoices g _) fun choices => ?_
  refine D.bind (D.addControl _ List.mem_cons_self) fun _ => ?_
  refine after (.allocate _) fun _ => after (.allocate _) fun _ => after (.allocate _) fun _ => ?_
  refine D.hang (by simp) (.of_any (List.mem_cons_of_mem _ List.mem_cons_self)) fun trigger => ?_
  refine after (.allocate _) fun _ => ?_
  refine D.bind (D.addControl _ (by simp)) fun switch => ?_
  refine after (.typeValue g _) fun first => ?_
  exact addCases hchild _ _ _ _ _ _ _ (Anchor.has_cons ..)
    ((((hbind.append [.any area]).append _).append [.any trigger]).append _)

theorem addPlain (hchild : child.Keeps D) (spot : Spot) (e : Xml.Element) (owner : ElementId)
    (declared resolved : TypeId) (path : String) (occurs : Occurs)
    (harea : .any spot.area ∈ anchors) (hscope : Has anchors spot.scope) :
    D.StepAll anchors (g.addPlain child spot e owner declared resolved path occurs) := by
  have hrest (e : Xml.Element) : D.StepAll anchors (do
      let bind ← Generator.addBind spot.scope {} path
      g.addComplex child ⟨bind.node, resolved, owner, false⟩ spot.area e occurs) :=
    D.bind (D.addBind _ _ hscope) fun bind =>
      addComplex hchild _ _ _ (List.mem_cons_of_mem _ harea) (Anchor.has_cons ..)
  unfold Generator.addPlain
  split
  · exact D.bind (done e) hrest
  · exact after (.typeValue g resolved) fun _ => D.bind (done _) hrest

theorem expand (hchild : child.Keeps D) : ChildAdder.Keeps (g.expand child) D := by
  intro anchors spot e id path occurs harea hscope
  have hrest (data : Xml.Element) : D.StepAll anchors (do
      leave
      return some data) := after .leave fun _ => done _
  unfold Generator.expand
  dsimp only
  split
  · exact after (.report _) fun _ => done none
  · next t _ =>
    split
    · exact D.bind (addField _ _ _ _ _ harea hscope) fun _ => done _
    · refine after (.enter id t) fun opened => ?_
      split
      · split
        · exact D.bind (addPlain hchild spot e id t t path occurs harea hscope) hrest
        · exact D.bind (addPlain hchild spot e id t _ path occurs harea hscope) hrest
        · exact D.bind (addSwitch hchild spot e id t _ path occurs harea hscope) hrest
      · exact after (.report _) fun _ => done none

/-- Elements are added by such steps, however many expansions can be opened. -/
theorem addElement (openings : Nat) : ChildAdder.Keeps (g.addElement openings) D := by
  induction openings with
  | zero => exact fun anchors spot e id path occurs _ _ => done none
  | succ openings ih => exact expand ih

end Discipline

end SchemaForms
