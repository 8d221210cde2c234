import SchemaForms.Proofs.Form.Inheriting
import SchemaForms.Proofs.Form.Switches

/-!
Advancing through the content of a type: name by name, attributes and elements are taken over or
made anew, until all that the type lists is done.
-/

namespace SchemaForms

open Synthesis
open Forest (tree)
open Xml (Element)

/-- A generator for a regular type graph, whose elements, attributes and types have names that can
be told apart. -/
structure Generator.Sound (g : Generator) : Prop where
  regular : g.schema.Regular
  once : g.schema.AttributesOnce
  named : g.schema.NCNamed
  typesNamed : g.schema.TypesNamed
  substitutes : g.substitutes = Substitutes.ofSchema g.schema

namespace Sketch

variable {α β : Type} {g : Generator}

/-! Fields. -/

theorem valueControl_ends (t : TypeId) (owner : Generator.Owner) (d : Draft) (s : Synthesis) :
    (valueControl g t owner).Ends d s fun _ d' s' => s.Abides s' ∧
      ∃ c : Control, c.bind = some (d.own.getD "") ∧ c.kind ≠ .switch ∧
        d' = { d with controls := d.controls ++ .leaves [.control c] } := by
  obtain ⟨hfield, -, hbind⟩ := fieldControl_spec g t (d.own.getD "") s
  exact ⟨Calm.fieldControl t (d.own.getD "") s,
    { (g.fieldControl t (d.own.getD "") s).1 with
      label := some (caption owner.name), hint := owner.hint }, hbind, hfield.isPlain.kind, rfl⟩

/-- The triggers of a repeat are no switches. -/
theorem kind_repeatTriggers (id : String) (actions : List (String × String × Action)) :
    ∀ c ∈ actions.map fun a => Generator.repeatTrigger id a.1 a.2.1 a.2.2, c.kind ≠ .switch := by
  intro c hc
  obtain ⟨a, -, rfl⟩ := List.mem_map.1 hc
  exact (nofun : (Generator.repeatTrigger id a.1 a.2.1 a.2.2).kind ≠ .switch)

/-- A repeat with its triggers is put around what is drawn. -/
theorem repeatOf_ends {p : Sketch α} {id : String} {bind : Option String} {d : Draft}
    {s : Synthesis} {Q : α → Draft → Synthesis → Prop}
    (hp : ∀ s₁, s.Abides s₁ → p.Ends { d with controls := .nil } s₁ fun a d' s' =>
      ∀ (before : List Control) (c : Control), (∀ c' ∈ before, c'.kind ≠ .switch) →
        c.kind ≠ .switch → Q a { d' with
          controls := d.controls ++
            (.leaves (before.map .control) ++ tree (.control c) d'.controls) } s') :
    (repeatOf id bind p).Ends d s Q := by
  unfold repeatOf
  rw [ends_bind, ends_lift, ends_bind, ends_lift, ends_within]
  refine (hp _ ((Calm.reportUngoverned id bind s).trans (Calm.repeatActions id bind _))).mono
    fun a d' s' h => h _ _ (kind_repeatTriggers id _) nofun

/-- A field has one bind, and controls of it. -/
theorem sprouts_field (t : TypeId) (owner : Generator.Owner) (path : String) (occurs : Occurs)
    {d : Draft} (hd : d.controls = .nil) (s : Synthesis) :
    (field g t owner path occurs).Ends d s fun _ d' s' => Sprouts g True path d s d' s' := by
  have hone {b : Bind} {below : Forest Bind} {d' : Draft} {s' : Synthesis} (hs : s.Abides s')
      (hown : d'.own = d.own) (hkids : d'.kids = d.kids ++ [{ bind := b, below := below }])
      (hpath : b.nodeset = path)
      (hrelevant : b.relevant = none) (hbinds : d'.controls.Binds b.id)
      (hexposing : Exposing g s'.prefixes (Kid.holdings [{ bind := b, below := below }])
        d'.controls) : Sprouts g True path d s d' s' :=
    ⟨hs, hown, _, hkids, fun kid hkid => List.mem_singleton.1 hkid ▸ ⟨hrelevant, rfl, rfl, hbinds⟩,
      fun _ => ⟨Nat.le_refl 1, fun kid hkid => List.mem_singleton.1 hkid ▸ hpath⟩, hexposing⟩
  have hbind (id : String) : Calm (allocate id) := Calm.allocate id
  have hleaf {c : Control} (hkind : c.kind ≠ .switch) (prefixes : PrefixTable)
      (holdings : List Holding) : Exposing g prefixes holdings (.leaves ([c].map .control)) :=
    Exposing.leaves fun c' hc' => List.mem_singleton.1 hc' ▸ hkind
  unfold field
  dsimp only
  rw [ends_withKid]
  split
  · rw [ends_bind, ends_get, ends_bind, ends_lift, ends_within]
    unfold repeated
    rw [ends_bind, ends_lift]
    refine repeatOf_ends fun s₁ hs₁ => ?_
    rw [ends_withKid]
    refine (valueControl_ends t owner _ _).mono fun _ d' s' hvalue => ?_
    intro before rep hbefore hrep
    obtain ⟨hs', c, -, hkind, hd'⟩ := hvalue
    subst hd'
    have hall := (((hbind _ _).trans (hbind _ _)).trans ((hbind _ _).trans hs₁)).trans
      ((hbind _ _).trans hs')
    refine hone hall rfl rfl rfl rfl ?_ ?_
    · dsimp only
      refine Forest.Binds.append_right (Forest.Binds.append_right (Forest.binds_root ?_ _) _) _
      simp [NodeKind.isBoundTo, NodeKind.control?]
    · dsimp only
      rw [hd]
      refine Exposing.append .nil (Exposing.append .nil (Exposing.tree ?_ fun h => by cases h))
      refine Exposing.append .nil ((Exposing.leaves hbefore).append (Exposing.tree ?_ fun h => ?_))
      · exact Exposing.append .nil (hleaf hkind _ _)
      · exact absurd (by simpa [NodeKind.isSwitch] using h) hrep
  · refine (valueControl_ends t owner _ _).mono fun _ d' s' hvalue => ?_
    obtain ⟨hs', c, hc, hkind, hd'⟩ := hvalue
    subst hd'
    refine hone ((hbind _ _).trans hs') rfl rfl rfl rfl ?_ ?_
    · refine Forest.Binds.append_right ⟨.control c, by simp, ?_⟩ _
      simp [NodeKind.isBoundTo, NodeKind.control?, hc]
    · dsimp only
      rw [hd]
      exact Exposing.append .nil (hleaf hkind _ _)

/-! Names. -/

/-- A sketch does some names that a type lists: all that has been done before them stays. -/
def Advances (g : Generator) (f : Role) (P : Prop) (D : Draft) (steps : List PathStep)
    (p : Sketch α) : Prop :=
  ∀ (before : Forest NodeKind) (done : List PathStep) (d : Draft) (s : Synthesis),
    done ++ steps <+: g.listed f.type → Midway g f P D before done d s →
      p.Ends d s fun _ d' s' => Midway g f P D before (done ++ steps) d' s' ∧ s.Abides s'

namespace Advances

variable {f : Role} {P : Prop} {D : Draft} {steps steps' : List PathStep} {p : Sketch α}

theorem pure (a : α) : Advances g f P D [] (Pure.pure a : Sketch α) := fun before done d s _ h => by
  rw [ends_pure, List.append_nil]
  exact ⟨h, .refl s⟩

theorem bind {q : α → Sketch β} (hp : Advances g f P D steps p)
    (hq : ∀ a, Advances g f P D steps' (q a)) :
    Advances g f P D (steps ++ steps') (p >>= q) := by
  intro before done d s hdone h
  rw [← List.append_assoc] at hdone ⊢
  rw [ends_bind]
  refine (hp before done d s ((List.prefix_append _ _).trans hdone) h).mono
    fun a d' s' ⟨h', hs'⟩ => ?_
  exact (hq a before _ d' s' hdone h').mono fun _ _ _ ⟨h'', hs''⟩ => ⟨h'', hs'.trans hs''⟩

theorem after {h : Synth β} (hh : Calm h) {k : β → Sketch α}
    (hk : ∀ b, Advances g f P D steps (k b)) : Advances g f P D steps (liftM h >>= k) := by
  intro before done d s hdone hmid
  rw [ends_bind, ends_lift]
  exact (hk _ before done d _ hdone (hmid.after (hh s))).mono
    fun _ _ _ ⟨h', hs'⟩ => ⟨h', (hh s).trans hs'⟩

theorem look {k : Draft → Sketch α} (hk : ∀ d, Advances g f P D steps (k d)) :
    Advances g f P D steps (get >>= k) := fun before done d s => hk d before done d s

/-- Controls around what is drawn make no difference. -/
theorem within (hp : Advances g f P D steps p) {cs : List Control} {c : Control}
    (hcs : ∀ c ∈ cs, c.kind ≠ .switch) (hc : c.kind ≠ .switch) :
    Advances g f P D steps (Sketch.within cs c p) := by
  intro before done d s hdone h
  rw [ends_within]
  have hinner : Midway g f P D (before ++ d.controls) done { d with controls := .nil } s :=
    h.redraw (fun id hid => by rwa [Forest.append_nil])
      (by rw [Forest.append_nil]; exact h.exposing)
  refine (hp _ done _ s hdone hinner).mono fun _ d' s' ⟨h', hs'⟩ => ⟨h'.redraw ?_ ?_, hs'⟩
  · intro id hid
    rw [Forest.binds_append, Forest.binds_append] at hid
    rw [Forest.binds_append, Forest.binds_append, Forest.binds_append]
    rcases hid with (hid | hid) | hid
    · exact .inl hid
    · exact .inr (.inl hid)
    · exact .inr (.inr (.inr (hid.tree _)))
  · have hall := h'.exposing
    rw [Exposing.append_iff, Exposing.append_iff] at hall
    refine hall.1.1.append (hall.1.2.append ((Exposing.leaves hcs).append
      (Exposing.tree hall.2 fun hswitch => ?_)))
    exact absurd (by simpa [NodeKind.isSwitch] using hswitch) hc

theorem repeatOf (hp : Advances g f P D steps p) (id : String) (bind : Option String) :
    Advances g f P D steps (Sketch.repeatOf id bind p) := by
  refine .after (Calm.reportUngoverned id bind) fun _ => ?_
  intro before done d s hdone h
  rw [ends_bind, ends_lift]
  have hcalm := Calm.repeatActions id bind s
  refine (hp.within (kind_repeatTriggers id _) ?_ before done d _ hdone (h.after hcalm)).mono
    fun _ _ _ ⟨h', hs'⟩ => ⟨h', hcalm.trans hs'⟩
  exact nofun

theorem items (hp : Advances g f P D steps p) (bind : Option String) (occurs : Occurs) :
    Advances g f P D steps (Sketch.items bind occurs p) := by
  unfold Sketch.items
  split
  · exact .after (Calm.allocate "repeat") fun id => hp.repeatOf id bind
  · exact hp

theorem groupItems (hp : Advances g f P D steps p) (occurs : Occurs) :
    Advances g f P D steps (Sketch.groupItems occurs p) := by
  unfold Sketch.groupItems
  split
  · exact .after (Calm.allocate "repeat") fun id => .look fun d => hp.repeatOf id d.governing
  · exact hp

end Advances

/-! Members. -/

section Members

variable {f : Role} {P : Prop} {D : Draft} {before : Forest NodeKind} {done : List PathStep}
  {d : Draft} {s : Synthesis} {step : PathStep} {x : String}

/-- What is inherited is taken over from an earlier case, or has no bind there. -/
theorem reuses_midway (h : Midway g f P D before done d s) (hclean : step.Clean)
    (hlisted : step ∈ g.listed f.type) (hdone : step ∉ done) (hx : step.text s.prefixes = some x)
    (hinherits : f.inherits = true → P) {isInherited : Bool}
    (hinherited : g.Inherits f.type step → isInherited = true) :
    (reuses f isInherited x).Ends d s fun shared d' s' => s.Abides s' ∧
      Midway g f P D before (done ++ [step]) d' s' ∧
      (shared = false → P → ∀ kid ∈ d'.kids, kid.bind.nodeset ≠ x) := by
  have hat {kid : Kid} (hkid : kid.At s.prefixes step) : kid.bind.nodeset = x :=
    Option.some.inj (hkid.symm.trans hx)
  unfold reuses
  split
  · next hboth =>
    rw [Bool.and_eq_true] at hboth
    have hP := hinherits hboth.1
    unfold reuse Ends
    dsimp only
    cases hfind : d.kids.find? (·.bind.nodeset = x) with
    | none =>
      have hnone : ∀ kid ∈ d.kids, kid.bind.nodeset ≠ x := fun kid hkid => by
        simpa using List.find?_eq_none.1 hfind kid hkid
      exact ⟨.refl s, h.skip fun _ kid hkid hk => hnone kid hkid (hat hk), fun _ _ => hnone⟩
    | some kid =>
      have hkid := List.mem_of_find?_eq_some hfind
      have hnodeset : kid.bind.nodeset = x := by simpa using List.find?_some hfind
      obtain ⟨k, below, hsource, -⟩ := h.drawn kid hkid
      dsimp only
      rw [hsource]
      have hshare := h.share hP hclean hx hdone hkid hnodeset hsource s.ids
        (d.copies ++ [(tree k below, ((tree k below).copy s.ids).1)])
      exact ⟨Calm.copy _ s, hshare.after (Calm.copy _ s), nofun⟩
  · next hneither =>
    have hnot : P → ∀ kid ∈ d.kids, ¬ kid.At s.prefixes step := fun hP kid hkid =>
      h.not_at hclean hlisted hdone (fun hboth => hneither (by simp [hboth.1, hinherited hboth.2]))
        hP hkid
    refine ⟨.refl s, h.skip hnot, fun _ hP kid hkid hk => hnot hP kid hkid ?_⟩
    exact hx.trans (congrArg some hk.symm)

/-- A declaration that is not taken over is drawn, and the name is done. -/
theorem slot_midway {p : Sketch α} {Q : Prop} (h : Midway g f P D before (done ++ [step]) d s)
    (hclean : step.Clean) (hx : step.text s.prefixes = some x)
    (hfresh : P → ∀ kid ∈ d.kids, kid.bind.nodeset ≠ x)
    (hp : p.Ends { d with controls := .nil } s fun _ d' s' =>
      Sprouts g Q x { d with controls := .nil } s d' s') (hQ : P → Q) :
    (slot p).Ends d s fun _ d' s' => Midway g f P D before (done ++ [step]) d' s' ∧ s.Abides s' :=
  h.slot hp hQ fun hP => .inr ⟨⟨step, by simp, hclean, hx⟩, hfresh hP⟩

end Members

section Content

variable {f : Role} {P : Prop} {D : Draft} {child : ChildSketch}

/-- A role that inherits satisfies `P`; and if `P` holds, no element that its type lists has several
types. -/
structure Role.Sound (g : Generator) (f : Role) (P : Prop) : Prop where
  sound : g.Sound
  inherits : f.inherits = true → P
  plain : P → ∀ id occurs, Member.child id occurs ∈ g.members f.type → g.Plain id

theorem Role.Sound.not_mem_done (hf : f.Sound g P) {done : List PathStep} {step : PathStep}
    (hdone : done ++ [step] <+: g.listed f.type) : step ∉ done := fun hmem =>
  (List.nodup_append.1 (hdone.sublist.nodup
    (Generator.nodup_listed hf.sound.regular.once hf.sound.once f.type))).2.2 step hmem step
      (List.mem_singleton_self step) rfl

/-- The written name of an element, as a relative or as an absolute path. -/
def WrittenAs (g : Generator) (id : ElementId) (prefixes : PrefixTable) (path : String) : Prop :=
  ∃ x, prefixes.textOf (g.schema.element id).name = some x ∧ (path = x ∨ path = "/" ++ x)

/-- A child sketch gives an element one bind, and what is below it shows what it has to. -/
def Sprouting (g : Generator) (Good : ElementId → Prop) (child : ChildSketch) : Prop :=
  ∀ (e : Element) (id : ElementId) (path : String) (occurs : Occurs) (d : Draft) (s : Synthesis),
    d.controls = .nil → s.prefixes.Apart → Good id → WrittenAs g id s.prefixes path →
    (child e id path occurs).Ends d s fun _ d' s' => Sprouts g (g.Plain id) path d s d' s'

/-- The names of members. -/
abbrev steps (g : Generator) (ms : List Member) : List PathStep :=
  ms.filterMap (Member.step g.schema)

theorem Advances.text (t : ComplexType) :
    Advances g f P D (steps g (g.valueMembers f.type t)) (text g f t) := by
  have hnil : steps g (g.valueMembers f.type t) = [] := by
    unfold Generator.valueMembers
    split <;> rfl
  have hfield (value : TypeId) (owner : Generator.Owner) :
      Advances g f P D [] (slot (field g value owner "." .once)) := by
    intro before done d s _ h
    rw [List.append_nil]
    exact h.slot (sprouts_field value owner "." .once rfl s) (fun _ => trivial) fun _ => .inl rfl
  rw [hnil]
  unfold Sketch.text
  dsimp only
  split
  · exact hfield _ _
  · exact hfield _ _
  · exact .pure _

theorem Advances.use (hf : f.Sound g P) (e : Element) {id : UseId}
    (hid : Member.use id ∈ g.members f.type) :
    Advances g f P D (steps g [.use id]) (use g f e id) := by
  intro before done d s hdone h
  have hstep : steps g [.use id] = [.attr (g.schema.use id).decl.name] := rfl
  rw [hstep] at hdone ⊢
  have hlisted := hdone.subset (List.mem_append_right done (List.mem_singleton_self _))
  have hnot := hf.not_mem_done hdone
  have hclean := hf.sound.named.clean hlisted
  have hcalm := Calm.qualified (g.schema.use id).decl.name s
  have htext := textOf_qualified (g.schema.use id).decl.name s
  unfold Sketch.use
  rw [ends_bind, ends_lift]
  generalize qualified (g.schema.use id).decl.name s = named at hcalm htext
  obtain ⟨⟨nsPrefix, name⟩, s₁⟩ := named
  dsimp only at hcalm htext ⊢
  have hattr : (PathStep.attr (g.schema.use id).decl.name).text s₁.prefixes = some ("@" ++ name) := by
    simp [PathStep.text, htext]
  rw [ends_bind]
  refine (reuses_midway (h.after hcalm) hclean hlisted hnot hattr hf.inherits fun hin =>
    Generator.inheritsUse_of_inherits hf.sound.regular hf.sound.once hid hin).mono
      fun shared d₁ s₂ hreuse => ?_
  obtain ⟨hs₂, h₂, hfresh⟩ := hreuse
  have hbefore := hcalm.trans hs₂
  cases shared with
  | true =>
    rw [if_pos rfl, ends_pure]
    exact ⟨h₂, hbefore⟩
  | false =>
    rw [if_neg (by simp)]
    cases (g.schema.use id).decl.type with
    | none =>
      dsimp only
      rw [ends_bind, ends_lift, ends_pure]
      exact ⟨h₂.after (Calm.report _ s₂), hbefore.trans (Calm.report _ s₂)⟩
    | some t =>
      dsimp only
      rw [ends_bind]
      refine (slot_midway h₂ hclean (PathStep.text_mono hs₂.prefixes hattr) (hfresh rfl)
        (sprouts_field t _ _ _ rfl s₂) fun _ => trivial).mono fun _ d₃ s₃ hfield => ?_
      rw [ends_pure]
      exact ⟨hfield.1, hbefore.trans hfield.2⟩

theorem Advances.uses (hf : f.Sound g P) (e : Element) {ids : List UseId}
    (hids : ∀ id ∈ ids, Member.use id ∈ g.members f.type) :
    Advances g f P D (steps g (ids.map .use)) (uses g f e ids) := by
  induction ids generalizing e with
  | nil => exact .pure e
  | cons id ids ih =>
    exact (Advances.use hf e (hids id (List.mem_cons_self ..))).bind fun e' =>
      ih e' fun id' hid' => hids id' (List.mem_cons_of_mem _ hid')

variable {Good : ElementId → Prop}

theorem Advances.childElement (hf : f.Sound g P) (hchild : Sprouting g Good child) (e : Element)
    {id : ElementId} {occurs : Occurs}
    (hid : ¬ occurs.isEmpty = true → Good id ∧ Member.child id occurs ∈ g.members f.type) :
    Advances g f P D (steps g (if occurs.isEmpty then [] else [.child id occurs]))
      (childElement g child f e id occurs) := by
  unfold Sketch.childElement
  split
  · exact .pure e
  next hempty =>
  intro before done d s hdone h
  have hstep : steps g [.child id occurs] = [.child (g.schema.element id).name] := rfl
  rw [hstep] at hdone ⊢
  have hlisted := hdone.subset (List.mem_append_right done (List.mem_singleton_self _))
  have hnot := hf.not_mem_done hdone
  have hclean := hf.sound.named.clean hlisted
  have hcalm := Calm.qualified (g.schema.element id).name s
  have htext := textOf_qualified (g.schema.element id).name s
  rw [ends_bind, ends_lift]
  generalize qualified (g.schema.element id).name s = named at hcalm htext
  obtain ⟨⟨nsPrefix, name⟩, s₁⟩ := named
  dsimp only at hcalm htext ⊢
  have hwritten : (PathStep.child (g.schema.element id).name).text s₁.prefixes = some name := htext
  rw [ends_bind]
  refine (reuses_midway (h.after hcalm) hclean hlisted hnot hwritten hf.inherits fun hin =>
    Generator.inheritsElement_of_inherits hf.sound.regular hin).mono
      fun shared d₁ s₂ ⟨hs₂, h₂, hfresh⟩ => ?_
  have hbefore := hcalm.trans hs₂
  cases shared with
  | true =>
    rw [if_pos rfl, ends_pure]
    exact ⟨h₂, hbefore⟩
  | false =>
    rw [if_neg (by simp), ends_bind]
    have hname := hs₂.prefixes.textOf htext
    refine (slot_midway h₂ hclean hname (hfresh rfl)
      (hchild _ id name occurs _ s₂ rfl h₂.apart (hid hempty).1 ⟨name, hname, .inl rfl⟩)
      fun hP => hf.plain hP id occurs (hid hempty).2).mono fun r d₃ s₃ ⟨h₃, hs₃⟩ => ?_
    cases r with
    | none => exact ⟨h₃, hbefore.trans hs₃⟩
    | some data => exact ⟨h₃, hbefore.trans hs₃⟩

mutual

theorem Advances.particle (hf : f.Sound g P) (hchild : Sprouting g Good child) :
    ∀ (p : Particle) (e : Element), (∀ c ∈ p.children, Good c.1 ∧
      Member.child c.1 c.2 ∈ g.members f.type) →
        Advances g f P D (steps g (childMembers p.children)) (particle g child f e p)
  | .element occurs id, e, hp => by
    rw [Particle.children] at hp ⊢
    unfold Sketch.particle
    have h : Advances g f P D (steps g (if occurs.isEmpty then [] else [.child id occurs]))
        (Sketch.childElement g child f e id occurs) :=
      .childElement hf hchild e fun hempty => hp (id, occurs) (by simp [hempty])
    split
    · next hempty => rwa [if_pos hempty] at h
    · next hempty => rwa [if_neg hempty] at h
  | .group occurs _ members, e, hp => (Advances.particles hf hchild members e hp).groupItems occurs
  | .wildcard _ _, e, _ => .after (Calm.report _) fun _ => .pure e

theorem Advances.particles (hf : f.Sound g P) (hchild : Sprouting g Good child) :
    ∀ (ps : List Particle) (e : Element), (∀ c ∈ Particle.childrenOf ps, Good c.1 ∧
      Member.child c.1 c.2 ∈ g.members f.type) →
        Advances g f P D (steps g (childMembers (Particle.childrenOf ps)))
          (particles g child f e ps)
  | [], e, _ => .pure e
  | p :: ps, e, hp => by
    rw [Particle.childrenOf, childMembers, List.map_append, steps, List.filterMap_append]
    exact (Advances.particle hf hchild p e fun c hc => hp c (List.mem_append_left _ hc)).bind
      fun e' => Advances.particles hf hchild ps e' fun c hc => hp c (List.mem_append_right _ hc)

end

theorem Advances.contentModel (hf : f.Sound g P) (hchild : Sprouting g Good child) (e : Element)
    {t : ComplexType} (ht : ∀ c ∈ Generator.modelChildren t, Good c.1 ∧
      Member.child c.1 c.2 ∈ g.members f.type) :
    Advances g f P D (steps g (childMembers (Generator.modelChildren t)))
      (contentModel g child f e t) := by
  unfold Generator.modelChildren at ht ⊢
  unfold Sketch.contentModel
  cases hp : t.particle with
  | none => exact .pure e
  | some p =>
    cases p with
    | element => exact .pure e
    | wildcard => exact .pure e
    | group occurs compositor members =>
      rw [hp] at ht
      exact Advances.particle hf hchild (.group occurs compositor members) e ht

theorem Advances.content (hf : f.Sound g P) (hchild : Sprouting g Good child)
    (hgood : ∀ id occurs, Member.child id occurs ∈ g.members f.type → Good id) (e : Element)
    {t : ComplexType} (ht : g.schema.complex? f.type = some t) :
    Advances g f P D (g.listed f.type) (content g child f e t) := by
  have hlisted : g.listed f.type = steps g (g.valueMembers f.type t) ++
      (steps g (t.uses.map .use) ++ steps g (childMembers (Generator.modelChildren t))) := by
    rw [Generator.listed, Generator.members, ht, List.filterMap_append, List.filterMap_append]
  rw [hlisted]
  have huses : ∀ id ∈ t.uses, Member.use id ∈ g.members f.type := fun id hid =>
    Generator.use_mem_members.2 ⟨t, ht, hid⟩
  have hchildren : ∀ c ∈ Generator.modelChildren t, Good c.1 ∧
      Member.child c.1 c.2 ∈ g.members f.type := fun c hc =>
    have hmem := Generator.child_mem_members.2 ⟨t, ht, hc⟩
    ⟨hgood c.1 c.2 hmem, hmem⟩
  exact (Advances.text t).bind fun _ => (Advances.uses hf e huses).bind fun e' =>
    Advances.contentModel hf hchild e' hchildren

/-- The group of an element has everything in it that is made for one of its types. -/
theorem complex_midway (hf : f.Sound g P) (hchild : Sprouting g Good child)
    (hgood : ∀ id occurs, Member.child id occurs ∈ g.members f.type → Good id)
    (ht : (g.schema.complex? f.type).isSome) (e : Element) (occurs : Occurs) {d : Draft}
    {s : Synthesis} (h : Midway g f P D .nil [] d s) (hd : d.controls = .nil) :
    (complex g child f e occurs).Ends d s fun _ d' s' => s.Abides s' ∧
      Midway g f P D .nil (g.listed f.type) d' s' ∧
      ∃ c inner, d'.controls = tree (.control c) inner ∧ c.kind = .group ∧ c.bind = d.own := by
  obtain ⟨t, ht⟩ := Option.isSome_iff_exists.1 ht
  have hitems : Advances g f P D (g.listed f.type) (items d.around occurs (content g child f e t)) :=
    (Advances.content hf hchild hgood e ht).items d.around occurs
  have hcalm := Calm.allocate "group" s
  let group : Control :=
    { id := (allocate "group" s).1, kind := .group
      label := some (caption (g.schema.element f.owner).name.localName)
      bind := d.own, hint := (g.schema.element f.owner).documentation }
  have hgroup : Advances g f P D (g.listed f.type)
      (within [] group (items d.around occurs (content g child f e t))) := hitems.within nofun nofun
  have hwithin := hgroup .nil [] d _ (List.prefix_refl _) (h.after hcalm)
  unfold complex
  rw [ht]
  dsimp only
  rw [ends_bind, ends_get, ends_bind, ends_lift]
  rw [ends_within] at hwithin ⊢
  refine hwithin.mono fun _ d' s' ⟨h', hs'⟩ =>
    ⟨hcalm.trans hs', h', group, d'.controls, ?_, rfl, rfl⟩
  rw [hd]
  rfl

end Content

end Sketch

end SchemaForms
