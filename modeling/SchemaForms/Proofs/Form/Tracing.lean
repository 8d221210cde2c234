import SchemaForms.Proofs.Form.Contents

/-!
Tracing elements: the binds of an element have paths of its outline, and its instance data has what
the members of its content stand for.
-/

namespace SchemaForms

open Synthesis
open Xml (Element)

/-- The path of a child goes on from that of the element around it. -/
theorem Generator.Steplike.pathInto {g : Generator} {id : ElementId} (h : g.Steplike id)
    {t : PrefixTable} (ht : t.Clean) {x : String}
    (hx : t.textOf (g.schema.element id).name = some x) :
    x ≠ "." ∧ (x = "" → g.Plain id) ∧ ∀ up, pathInto up x = up ++ "/" ++ x := by
  have hne : x ≠ "." ∧ ¬ x.startsWith "/" = true ∧ (x = "" → g.Plain id) := by
    unfold PrefixTable.textOf at hx
    cases hns : (g.schema.element id).name.nspace with
    | none =>
      rw [hns] at hx
      cases hx
      exact h hns
    | some ns =>
      rw [hns] at hx
      obtain ⟨p, hp, rfl⟩ := Option.map_eq_some_iff.1 hx
      have hclean := ht ns p hp
      have hmem : ':' ∈ (p ++ ":" ++ (g.schema.element id).name.localName).toList := by simp
      refine ⟨fun hdot => ?_, fun hslash => ?_, fun hempty => ?_⟩
      · rw [hdot] at hmem
        exact absurd hmem (by decide)
      · rw [String.startsWith_string_iff] at hslash
        cases hlist : p.toList with
        | nil => simp [hlist] at hslash
        | cons c cs =>
          rw [hlist, List.mem_cons, not_or] at hclean
          have hc : '/' = c := by simpa [hlist] using hslash
          exact hclean.1 hc
      · rw [hempty] at hmem
        exact absurd hmem (by decide)
  exact ⟨hne.1, hne.2.2, fun up => by simp [SchemaForms.pathInto, hne.1, hne.2.1]⟩

/-- An element has been added, or left out. -/
structure Expanded (g : Generator) (pr : Prospect) (id : ElementId) (path : String)
    (occurs : Occurs) (e : Element) (d : Draft) (s : Synthesis) (r : Option Element) (d' : Draft)
    (s' : Synthesis) : Prop where
  abides : s.Abides s'
  traced : ∃ f ps, d'.nodesets = d.nodesets ++ f ∧
    Traces s'.prefixes (fun up => pathInto up path) f ps ∧ ps.Sublist (pr.paths id occurs) ∧
    (pr.exact id → ps = pr.paths id occurs) ∧
    ∀ x ∈ f.roots, x = path ∨ x = path ++ "/@xsi:type"
  leftOut : r = none → pr.paths id occurs = []
  kept : ∀ c, r = some c → c.name = e.name ∧ pr.covers id c

/-- An element is left out where there are no paths to it. -/
theorem Expanded.leaveOut {g : Generator} {pr : Prospect} {id : ElementId} {path : String}
    {occurs : Occurs} {e : Element} {d : Draft} {s s' : Synthesis} (hs : s.Abides s')
    (h : pr.paths id occurs = []) : Expanded g pr id path occurs e d s none d s' where
  abides := hs
  traced := ⟨.nil, [], (Forest.append_nil _).symm, fun _ => .nil, List.nil_sublist _,
    fun _ => h.symm, fun _ hx => nomatch hx⟩
  leftOut _ := h
  kept _ hc := nomatch hc

/-- Every element is added so, while some expansions are under way. -/
def Expands (g : Generator) (pr : Prospect) (stack : List (ElementId × TypeId))
    (child : Sketch.ChildSketch) : Prop :=
  ∀ (e : Element) (id : ElementId) (path : String) (occurs : Occurs) (d : Draft) (s : Synthesis),
    s.expanding = stack → s.prefixes.Apart → e.children = [] → g.Navigable id → path ≠ "." →
    (path = "" → g.Plain id) → (child e id path occurs).Ends d s (Expanded g pr id path occurs e d s)

/-- A sketch adds members to the element that it is given, while some expansions are under way. -/
def Fills (g : Generator) (pr : Prospect) (stack : List (ElementId × TypeId)) (inherits : Bool)
    (ms : List Member) (p : Element → Sketch Element) : Prop :=
  ∀ (d : Draft) (e : Element) (s : Synthesis), s.expanding = stack → s.prefixes.Apart →
    (p e).Ends d s fun e' d' s' => Filled g pr inherits ms d e s d' e' s'

namespace Fills

variable {α : Type} {g : Generator} {pr : Prospect} {stack : List (ElementId × TypeId)}
  {inherits : Bool} {ms ms' : List Member} {p q : Element → Sketch Element}

theorem pure : Fills g pr stack inherits [] fun e => (Pure.pure e : Sketch Element) :=
  fun _ _ s _ _ => Filled.still (.refl s) rfl

theorem bind (hp : Fills g pr stack inherits ms p) (hq : Fills g pr stack inherits ms' q) :
    Fills g pr stack inherits (ms ++ ms') fun e => p e >>= q := by
  intro d e s hs hapart
  rw [Sketch.ends_bind]
  have hfirst := hp d e s hs hapart
  exact hfirst.trans (hq _ _ _ (hfirst.abides.stack.trans hs) (hfirst.abides.prefixes.apart hapart))

theorem after {f : Synth α} (hf : Calm f) {k : α → Element → Sketch Element}
    (hk : ∀ a, Fills g pr stack inherits ms (k a)) :
    Fills g pr stack inherits ms fun e => liftM f >>= fun a => k a e := by
  intro d e s hs hapart
  rw [Sketch.ends_bind, Sketch.ends_lift]
  have hcalm := hf s
  exact (hk _ d e _ (hcalm.stack.trans hs) (hcalm.prefixes.apart hapart)).after hcalm

theorem look {k : Draft → Element → Sketch Element}
    (hk : ∀ d, Fills g pr stack inherits ms (k d)) :
    Fills g pr stack inherits ms fun e => get >>= fun d => k d e := fun d => hk d d

theorem within (hp : Fills g pr stack inherits ms p) (before : List Control) (c : Control) :
    Fills g pr stack inherits ms fun e => Sketch.within before c (p e) := fun d e s hs hapart =>
  (hp { d with controls := .nil } e s hs hapart).congr rfl rfl

theorem repeatOf (hp : Fills g pr stack inherits ms p) (id : String) (bind : Option String) :
    Fills g pr stack inherits ms fun e => Sketch.repeatOf id bind (p e) :=
  .after (Calm.reportUngoverned id bind) fun _ => .after (Calm.repeatActions id bind) fun _ =>
    hp.within _ _

theorem items (hp : Fills g pr stack inherits ms p) (bind : Option String) (occurs : Occurs) :
    Fills g pr stack inherits ms fun e => Sketch.items bind occurs (p e) := by
  unfold Sketch.items
  split
  · exact .after (Calm.allocate "repeat") fun id => hp.repeatOf id bind
  · exact hp

theorem groupItems (hp : Fills g pr stack inherits ms p) (occurs : Occurs) :
    Fills g pr stack inherits ms fun e => Sketch.groupItems occurs (p e) := by
  unfold Sketch.groupItems
  split
  · exact .after (Calm.allocate "repeat") fun id => .look fun d => hp.repeatOf id d.governing
  · exact hp

end Fills

namespace Generator

@[simp] theorem addAttribute_name (e : Element) (name : QName) (nsPrefix : Option String)
    (value : String) : (addAttribute e name nsPrefix value).name = e.name := by
  unfold addAttribute
  split <;> rfl

@[simp] theorem children_addAttribute (e : Element) (name : QName) (nsPrefix : Option String)
    (value : String) : (addAttribute e name nsPrefix value).children = e.children := by
  unfold addAttribute
  split <;> rfl

theorem attributes_addAttribute (e : Element) (name : QName) (nsPrefix : Option String)
    (value : String) : e.attributes ⊆ (addAttribute e name nsPrefix value).attributes := by
  unfold addAttribute
  split
  · exact List.Subset.refl _
  · exact List.subset_append_left ..

theorem mem_addAttribute (e : Element) (name : QName) (nsPrefix : Option String)
    (value : String) : ∃ a ∈ (addAttribute e name nsPrefix value).attributes, a.name = name := by
  unfold addAttribute
  split
  · next h =>
    obtain ⟨a, ha, he⟩ := List.any_eq_true.1 h
    exact ⟨a, ha, eq_of_beq he⟩
  · exact ⟨_, List.mem_append_right _ (List.mem_singleton_self _), rfl⟩

end Generator

namespace Sketch

open Generator (Owner bareInstance addAttribute_name attributes_addAttribute mem_addAttribute)

variable {g : Generator} {pr : Prospect} {stack : List (ElementId × TypeId)} {child : ChildSketch}
  {f : Role}

/-! Members. -/

theorem roots_forest (kids : List Kid) :
    ((Kid.forest kids).map (·.nodeset)).roots = kids.map (·.bind.nodeset) := by
  induction kids with
  | nil => rfl
  | cons kid kids ih =>
    rw [Kid.forest, Forest.map_cons, Forest.roots, ih]
    rfl

/-- What is taken over has a bind already. -/
theorem reuses_ends (f : Role) (isInherited : Bool) (nodeset : String) (d : Draft) (s : Synthesis) :
    (reuses f isInherited nodeset).Ends d s fun shared d' s' => s.Abides s' ∧
      d'.nodesets = d.nodesets ∧
      (shared = true → f.inherits = true ∧ nodeset ∈ d.nodesets.roots) := by
  unfold reuses
  split
  · next hinherits =>
    rw [Bool.and_eq_true] at hinherits
    unfold reuse
    unfold Ends
    dsimp only
    cases hfind : d.kids.find? (·.bind.nodeset = nodeset) with
    | none => exact ⟨.refl s, rfl, fun h => nomatch h⟩
    | some kid =>
      have hmem : nodeset ∈ d.nodesets.roots := by
        have hkid := List.find?_some hfind
        rw [Draft.nodesets, roots_forest]
        exact List.mem_map.2 ⟨kid, List.mem_of_find?_eq_some hfind, of_decide_eq_true hkid⟩
      dsimp only
      cases kid.source with
      | none => exact ⟨⟨rfl, .refl⟩, rfl, fun _ => ⟨hinherits.1, hmem⟩⟩
      | some source =>
        exact ⟨⟨rfl, .refl⟩, Kid.nodesets_of_core (share_core nodeset d.kids),
          fun _ => ⟨hinherits.1, hmem⟩⟩
  · exact ⟨.refl s, rfl, fun h => nomatch h⟩

theorem text_fills (t : ComplexType) :
    Fills g pr stack f.inherits (g.valueMembers f.type t) fun e => text g f t >>= fun _ => pure e := by
  have hfield (value : TypeId) (owner : Owner) : Fills g pr stack f.inherits [.value] fun e =>
      slot (field g value owner "." .once) >>= fun _ => pure e := by
    intro d e s hs hapart
    rw [ends_bind]
    refine ((lays_field g value owner "." .once).slot d s).mono fun _ d' s' ⟨habides, hd⟩ => ?_
    rw [ends_pure]
    refine Filled.one [] habides rfl (List.Subset.refl _) (List.append_nil _).symm
      (fun _ hc => nomatch hc) hd ?_ (List.Sublist.refl _) (fun _ => rfl) ?_ trivial
    · exact fun up => .cons ⟨"", rfl, by simp [pathInto]⟩ .nil
    · exact fun x hx => List.mem_singleton.1 hx
  unfold text Generator.valueMembers
  cases g.schema.simpleContent f.type with
  | none => cases t.content <;> exact Fills.pure
  | some value =>
    cases t.content with
    | simple => exact hfield _ _
    | mixed => exact hfield _ _
    | empty => exact Fills.pure
    | elementOnly => exact Fills.pure

theorem use_fills (id : UseId) :
    Fills g pr stack f.inherits [.use id] fun e => use g f e id := by
  intro d e s hs hapart
  have hcalm := Calm.qualified (g.schema.use id).decl.name s
  have htext := textOf_qualified (g.schema.use id).decl.name s
  unfold use
  rw [ends_bind, ends_lift]
  generalize qualified (g.schema.use id).decl.name s = named at hcalm htext
  obtain ⟨⟨nsPrefix, name⟩, s₁⟩ := named
  dsimp only at hcalm htext ⊢
  rw [ends_bind]
  refine (reuses_ends f _ _ d s₁).mono fun shared d₁ s₂ ⟨habides, hd, hshared⟩ => ?_
  have hbefore := hcalm.trans habides
  have hname := habides.prefixes.textOf htext
  cases shared with
  | true =>
    obtain ⟨hinherits, hmem⟩ := hshared rfl
    rw [if_pos rfl, ends_pure]
    exact .shared hbefore hd hinherits ⟨name, hname, hmem⟩
  | false =>
    rw [if_neg (by simp)]
    cases htype : (g.schema.use id).decl.type with
    | none =>
      dsimp only
      rw [ends_bind, ends_lift, ends_pure]
      exact .leftOut (hbefore.trans (Calm.report _ _)) hd (by simp [Generator.memberPaths, htype])
    | some t =>
      dsimp only
      rw [ends_bind]
      refine ((lays_field g t _ _ _).slot d₁ s₂).mono fun _ d₂ s₃ ⟨habides', hd'⟩ => ?_
      have hsingle (n : Nat) : Occurs.isMultiple ⟨n, some 1⟩ = false := by
        simp [Occurs.isMultiple, Occurs.isSingle]
      rw [hsingle, if_neg (by simp), hd] at hd'
      have hname' := habides'.prefixes.textOf hname
      have hpaths : g.memberPaths pr.paths (.use id) =
          [[.attr (g.schema.use id).decl.name]] := by
        simp [Generator.memberPaths, htype]
      rw [ends_pure]
      refine Filled.one [] (hbefore.trans habides') (addAttribute_name ..)
        (attributes_addAttribute ..) (by simp) (fun _ hc => nomatch hc) hd' ?_
        (List.Sublist.refl _) (fun _ => rfl) ?_ (mem_addAttribute ..)
      · rw [hpaths]
        intro up
        refine .cons ⟨"/" ++ ("@" ++ name), by simp [pathText, PathStep.text, hname'], ?_⟩ .nil
        have hdot : "@" ++ name ≠ "." := fun h => by
          have := congrArg String.toList h
          simp at this
        have hslash : ¬ ("@" ++ name).startsWith "/" = true := fun h => by
          rw [String.startsWith_string_iff] at h
          simp at h
        simp [pathInto, hdot, hslash, String.append_assoc]
      · intro x hx
        exact ⟨name, hname', List.mem_singleton.1 hx⟩

theorem uses_fills (ids : List UseId) :
    Fills g pr stack f.inherits (ids.map .use) fun e => uses g f e ids := by
  induction ids with
  | nil => exact Fills.pure
  | cons id ids ih => exact (use_fills id).bind ih

theorem children_bareInstance (decl : ElementDecl) (nsPrefix : Option String) :
    (bareInstance decl nsPrefix).children = [] ∧ (bareInstance decl nsPrefix).name = decl.name := by
  unfold bareInstance
  cases decl.value <;> exact ⟨rfl, rfl⟩

theorem childElement_fills (hchild : Expands g pr stack child) {id : ElementId}
    (hid : g.Passable id) (occurs : Occurs) :
    Fills g pr stack f.inherits (if occurs.isEmpty then [] else [.child id occurs]) fun e =>
      childElement g child f e id occurs := by
  intro d e s hs hapart
  unfold childElement
  split
  · exact Filled.still (.refl s) rfl
  · have hcalm := Calm.qualified (g.schema.element id).name s
    have htext := textOf_qualified (g.schema.element id).name s
    rw [ends_bind, ends_lift]
    generalize qualified (g.schema.element id).name s = named at hcalm htext
    obtain ⟨⟨nsPrefix, name⟩, s₁⟩ := named
    dsimp only at hcalm htext ⊢
    rw [ends_bind]
    refine (reuses_ends f _ _ d s₁).mono fun shared d₁ s₂ ⟨habides, hd, hshared⟩ => ?_
    have hbefore := hcalm.trans habides
    have hname := habides.prefixes.textOf htext
    cases shared with
    | true =>
      obtain ⟨hinherits, hmem⟩ := hshared rfl
      rw [if_pos rfl, ends_pure]
      exact .shared hbefore hd hinherits ⟨name, hname, hmem⟩
    | false =>
      rw [if_neg (by simp), ends_bind, ends_slot]
      have hapart₂ := hbefore.prefixes.apart hapart
      obtain ⟨hdot, hempty, hstep⟩ := hid.1.pathInto hapart₂.clean hname
      obtain ⟨hbare, hbareName⟩ := children_bareInstance (g.schema.element id) nsPrefix
      refine (hchild (bareInstance (g.schema.element id) nsPrefix) id name occurs
        { d₁ with controls := .nil } s₂ (hbefore.stack.trans hs) hapart₂ hbare hid.2 hdot
        hempty).mono
        fun r d₂ s₃ h => ?_
      obtain ⟨fr, ps, hf, htraces, hsub, hexact, hroots⟩ := h.traced
      have hkids : (Draft.nodesets { d₂ with
          kids := d₂.kids.map (settle d₂.controls)
          controls := d₁.controls ++ d₂.controls }) = d.nodesets ++ fr := by
        rw [← hd]
        exact (Kid.nodesets_settle d₂.controls d₂.kids).trans hf
      have hname₃ := h.abides.prefixes.textOf hname
      cases r with
      | none =>
        have hnil := h.leftOut rfl
        rw [hnil] at hsub
        rw [List.sublist_nil.1 hsub] at htraces
        rw [htraces.eq_nil, Forest.append_nil] at hkids
        exact .leftOut (hbefore.trans h.abides) hkids (by simp [Generator.memberPaths, hnil])
      | some c =>
        obtain ⟨hc, hcovers⟩ := h.kept c rfl
        refine Filled.one [c] (hbefore.trans h.abides) rfl (List.Subset.refl _) rfl ?_
          hkids (htraces.child hname₃ hstep) (hsub.map _) (fun hpr => ?_) ?_ ?_
        · intro c' hc'
          rw [List.mem_singleton.1 hc']
          exact ⟨id, occurs, rfl, hc.trans hbareName, hcovers⟩
        · rw [Generator.memberPaths, hexact (hpr id occurs rfl)]
        · exact fun x hx => ⟨name, hname₃, hroots x hx⟩
        · exact ⟨c, List.mem_append_right _ (List.mem_singleton_self c), hc.trans hbareName, hcovers⟩

/-- The elements of content models, as members. -/
abbrev childMembers (cs : List (ElementId × Occurs)) : List Member :=
  cs.map fun (id, o) => .child id o

mutual

theorem particle_fills (hchild : Expands g pr stack child) :
    ∀ p : Particle, (∀ c ∈ p.children, g.Passable c.1) →
      Fills g pr stack f.inherits (childMembers p.children) fun e => particle g child f e p
  | .element occurs id, hp => by
    rw [Particle.children] at hp ⊢
    unfold particle
    split
    · next hempty =>
      simp only [childElement, if_pos hempty]
      exact Fills.pure
    · next hempty =>
      rw [if_neg hempty] at hp
      have h := childElement_fills (f := f) hchild (hp _ (List.mem_singleton_self _)) occurs
      rwa [if_neg hempty] at h
  | .group occurs _ members, hp => (particles_fills hchild members hp).groupItems occurs
  | .wildcard _ _, _ => .after (Calm.report _) fun _ => .pure

theorem particles_fills (hchild : Expands g pr stack child) :
    ∀ ps : List Particle, (∀ c ∈ Particle.childrenOf ps, g.Passable c.1) →
      Fills g pr stack f.inherits (childMembers (Particle.childrenOf ps)) fun e =>
        particles g child f e ps
  | [], _ => .pure
  | p :: ps, hp => by
    rw [Particle.childrenOf, childMembers, List.map_append]
    exact (particle_fills hchild p fun c hc => hp c (List.mem_append_left _ hc)).bind
      (particles_fills hchild ps fun c hc => hp c (List.mem_append_right _ hc))

end

theorem contentModel_fills (hchild : Expands g pr stack child) (t : ComplexType)
    (ht : ∀ c ∈ Generator.modelChildren t, g.Passable c.1) :
    Fills g pr stack f.inherits (childMembers (Generator.modelChildren t)) fun e =>
      contentModel g child f e t := by
  unfold Generator.modelChildren at ht ⊢
  unfold contentModel
  cases hp : t.particle with
  | none => exact .pure
  | some p =>
    cases p with
    | element => exact .pure
    | wildcard => exact .pure
    | group occurs compositor members =>
      rw [hp] at ht
      exact particle_fills hchild (.group occurs compositor members) ht

/-- The content of an element as one type is filled with the members of the type. -/
theorem complex_fills (hchild : Expands g pr stack child)
    (hms : ∀ c o, Member.child c o ∈ g.members f.type → g.Passable c) (occurs : Occurs) :
    Fills g pr stack f.inherits (g.members f.type) fun e => complex g child f e occurs := by
  unfold complex
  unfold Generator.members at hms ⊢
  cases ht : g.schema.complex? f.type with
  | none => exact .pure
  | some t =>
    rw [ht] at hms
    have hchildren : ∀ c ∈ Generator.modelChildren t, g.Passable c.1 := fun c hc =>
      hms c.1 c.2 (List.mem_append_right _ (List.mem_append_right _ (List.mem_map_of_mem hc)))
    have hcontent : Fills g pr stack f.inherits
        (g.valueMembers f.type t ++ (t.uses.map .use ++ childMembers (Generator.modelChildren t)))
        fun e => content g child f e t :=
      (text_fills t).bind ((uses_fills t.uses).bind (contentModel_fills hchild t hchildren))
    exact .look fun d => .after (Calm.allocate "group") fun id =>
      (hcontent.items d.around occurs).within _ _

end Sketch

end SchemaForms
