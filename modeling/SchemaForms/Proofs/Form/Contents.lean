import SchemaForms.Proofs.Form.Outline
import SchemaForms.Proofs.Form.Outcome

/-!
The content of an element: which paths its binds have, and what is in its instance data.  Both are
built member by member; where a member takes over the control of an earlier case, it adds neither a
bind nor data.
-/

namespace SchemaForms

open Synthesis
open Xml (Element)

/-- The nodesets of a forest lead to some paths, one after another; `base` tells from which path
on, given the path around the forest. -/
def Traces (t : PrefixTable) (base : String → String) (f : Forest String) (ps : List Path) : Prop :=
  ∀ up, List.Forall₂
    (fun path p => ∃ text, pathText t p = some text ∧ path = base up ++ text) (f.paths up) ps

namespace Traces

variable {t t' : PrefixTable} {base : String → String} {f f' : Forest String} {ps ps' : List Path}

theorem nil : Traces t base .nil [] := fun _ => .nil

theorem append (h : Traces t base f ps) (h' : Traces t base f' ps') :
    Traces t base (f ++ f') (ps ++ ps') := fun up => by
  rw [Forest.paths_append]
  exact List.rel_append (h up) (h' up)

theorem mono (h : Traces t base f ps) (ht : t.Extends t') : Traces t' base f ps := fun up =>
  (h up).imp fun _ _ ⟨text, htext, hpath⟩ => ⟨text, ht.pathText htext, hpath⟩

/-- A bind around others leads to the element that the others start from. -/
theorem tree {nodeset : String} (h : Traces t (fun up => up) f ps) :
    Traces t (fun up => pathInto up nodeset) (.tree nodeset f) ([] :: ps) := fun up => by
  refine .cons ⟨"", rfl, (String.append_empty).symm⟩ ?_
  have hnil : (Forest.nil : Forest String).paths up = [] := rfl
  rw [hnil, List.append_nil]
  exact h _

/-- Paths from a child on are paths from the element around it. -/
theorem child {name : QName} {text : String} (htext : t.textOf name = some text)
    (hstep : ∀ up, pathInto up text = up ++ "/" ++ text)
    (h : Traces t (fun up => pathInto up text) f ps) :
    Traces t (fun up => up) f (ps.map (.child name :: ·)) := fun up => by
  rw [List.forall₂_map_right_iff]
  refine (h up).imp fun path p ⟨rest, hrest, hpath⟩ => ⟨"/" ++ text ++ rest, ?_, ?_⟩
  · simp [pathText, PathStep.text, htext, hrest]
  · simp [hpath, hstep, String.append_assoc]

theorem eq_nil (h : Traces t base f []) : f = .nil := by
  cases f with
  | nil => rfl
  | cons => cases h ""

end Traces

/-- What is known of the elements in a content: the paths below them, whether these are those of
their binds and no others, and what their instance data has. -/
structure Prospect where
  paths : ElementId → Occurs → List Path
  exact : ElementId → Prop
  covers : ElementId → Element → Prop

namespace Member

variable (g : Generator) (pr : Prospect)

/-- A nodeset is one of those that a member is given. -/
def Makes (t : PrefixTable) (nodeset : String) : Member → Prop
  | .value => nodeset = "."
  | .use id => ∃ x, t.textOf (g.schema.use id).decl.name = some x ∧ nodeset = "@" ++ x
  | .child id _ => ∃ x, t.textOf (g.schema.element id).name = some x ∧
      (nodeset = x ∨ nodeset = x ++ "/@xsi:type")

/-- The instance data has what a member stands for. -/
def In (e : Element) : Member → Prop
  | .value => True
  | .use id => ∃ a ∈ e.attributes, a.name = (g.schema.use id).decl.name
  | .child id _ => ∃ c ∈ e.children, c.name = (g.schema.element id).name ∧ pr.covers id c

/-- There is a bind with the nodeset of a member. -/
def Shared (t : PrefixTable) (nodesets : List String) : Member → Prop
  | .value => False
  | .use id => ∃ x, t.textOf (g.schema.use id).decl.name = some x ∧ "@" ++ x ∈ nodesets
  | .child id _ => ∃ x, t.textOf (g.schema.element id).name = some x ∧ x ∈ nodesets

variable {g pr} {t t' : PrefixTable} {m : Member}

theorem Makes.mono {nodeset : String} (h : m.Makes g t nodeset) (ht : t.Extends t') :
    m.Makes g t' nodeset := by
  cases m with
  | value => exact h
  | use id =>
    obtain ⟨x, hx, he⟩ := h
    exact ⟨x, ht.textOf hx, he⟩
  | child id occurs =>
    obtain ⟨x, hx, he⟩ := h
    exact ⟨x, ht.textOf hx, he⟩

theorem In.mono {e e' : Element} (h : m.In g pr e) (hattributes : e.attributes ⊆ e'.attributes)
    (hchildren : e.children ⊆ e'.children) : m.In g pr e' := by
  cases m with
  | value => trivial
  | use id =>
    obtain ⟨a, ha, he⟩ := h
    exact ⟨a, hattributes ha, he⟩
  | child id occurs =>
    obtain ⟨c, hc, he⟩ := h
    exact ⟨c, hchildren hc, he⟩

theorem Shared.mono {nodesets nodesets' : List String} (h : m.Shared g t nodesets)
    (ht : t.Extends t') (hsub : nodesets ⊆ nodesets') : m.Shared g t' nodesets' := by
  cases m with
  | value => exact h
  | use id =>
    obtain ⟨x, hx, he⟩ := h
    exact ⟨x, ht.textOf hx, hsub he⟩
  | child id occurs =>
    obtain ⟨x, hx, he⟩ := h
    exact ⟨x, ht.textOf hx, hsub he⟩

end Member

/-- Some members have been added to an element. -/
structure Filled (g : Generator) (pr : Prospect) (inherits : Bool) (ms : List Member)
    (d : Draft) (e : Element) (s : Synthesis) (d' : Draft) (e' : Element) (s' : Synthesis) :
    Prop where
  abides : s.Abides s'
  named : e'.name = e.name
  attributes : e.attributes ⊆ e'.attributes
  children : ∃ new, e'.children = e.children ++ new ∧ ∀ c ∈ new, ∃ id o,
    Member.child id o ∈ ms ∧ c.name = (g.schema.element id).name ∧ pr.covers id c
  /-- The new binds have some of the paths of the members, and all of them unless a member has been
  taken over. -/
  traced : ∃ f ps, d'.nodesets = d.nodesets ++ f ∧ Traces s'.prefixes (fun up => up) f ps ∧
    ps.Sublist (ms.flatMap (g.memberPaths pr.paths)) ∧
    (inherits = false → (∀ id o, Member.child id o ∈ ms → pr.exact id) →
      ps = ms.flatMap (g.memberPaths pr.paths))
  origins : ∀ x ∈ d'.nodesets.roots, x ∈ d.nodesets.roots ∨
    ∃ m ∈ ms, m.Makes g s'.prefixes x ∧ m.In g pr e'
  supplied : ∀ m ∈ ms, g.memberPaths pr.paths m ≠ [] →
    m.In g pr e' ∨ inherits = true ∧ m.Shared g s'.prefixes d'.nodesets.roots

namespace Filled

variable {g : Generator} {pr : Prospect} {inherits : Bool} {ms ms' : List Member}
  {d d' d'' : Draft} {e e' e'' : Element} {s s' s'' : Synthesis}

/-- Nothing is added. -/
theorem still (h : s.Abides s') (hkids : d'.nodesets = d.nodesets) :
    Filled g pr inherits [] d e s d' e s' where
  abides := h
  named := rfl
  attributes := List.Subset.refl _
  children := ⟨[], (List.append_nil _).symm, fun _ hc => nomatch hc⟩
  traced := ⟨.nil, [], by rw [hkids, Forest.append_nil], .nil, List.Sublist.refl _,
    fun _ _ => rfl⟩
  origins x hx := .inl (hkids ▸ hx)
  supplied _ hm := nomatch hm

theorem roots_subset (h : Filled g pr inherits ms d e s d' e' s') :
    d.nodesets.roots ⊆ d'.nodesets.roots := by
  obtain ⟨f, ps, hf, -⟩ := h.traced
  rw [hf, Forest.roots_append]
  exact List.subset_append_left ..

theorem children_subset (h : Filled g pr inherits ms d e s d' e' s') :
    e.children ⊆ e'.children := by
  obtain ⟨new, hnew, -⟩ := h.children
  rw [hnew]
  exact List.subset_append_left ..

/-- Members are added one after another. -/
theorem trans (h : Filled g pr inherits ms d e s d' e' s')
    (h' : Filled g pr inherits ms' d' e' s' d'' e'' s'') :
    Filled g pr inherits (ms ++ ms') d e s d'' e'' s'' where
  abides := h.abides.trans h'.abides
  named := h'.named.trans h.named
  attributes := List.Subset.trans h.attributes h'.attributes
  children := by
    obtain ⟨new, hnew, hms⟩ := h.children
    obtain ⟨new', hnew', hms'⟩ := h'.children
    refine ⟨new ++ new', by rw [hnew', hnew, List.append_assoc], fun c hc => ?_⟩
    rcases List.mem_append.1 hc with hc | hc
    · obtain ⟨id, o, hm, hc⟩ := hms c hc
      exact ⟨id, o, List.mem_append_left _ hm, hc⟩
    · obtain ⟨id, o, hm, hc⟩ := hms' c hc
      exact ⟨id, o, List.mem_append_right _ hm, hc⟩
  traced := by
    obtain ⟨f, ps, hf, htraces, hsub, hall⟩ := h.traced
    obtain ⟨f', ps', hf', htraces', hsub', hall'⟩ := h'.traced
    refine ⟨f ++ f', ps ++ ps', by rw [hf', hf, Forest.append_assoc],
      (htraces.mono h'.abides.prefixes).append htraces', ?_, fun hi hexact => ?_⟩
    · rw [List.flatMap_append]
      exact hsub.append hsub'
    · rw [List.flatMap_append, hall hi fun id o hm => hexact id o (List.mem_append_left _ hm),
        hall' hi fun id o hm => hexact id o (List.mem_append_right _ hm)]
  origins x hx := by
    rcases h'.origins x hx with hx | ⟨m, hm, hmakes, hin⟩
    · rcases h.origins x hx with hx | ⟨m, hm, hmakes, hin⟩
      · exact .inl hx
      · exact .inr ⟨m, List.mem_append_left _ hm, hmakes.mono h'.abides.prefixes,
          hin.mono h'.attributes h'.children_subset⟩
    · exact .inr ⟨m, List.mem_append_right _ hm, hmakes, hin⟩
  supplied m hm hpaths := by
    rcases List.mem_append.1 hm with hm | hm
    · rcases h.supplied m hm hpaths with hin | ⟨hi, hshared⟩
      · exact .inl (hin.mono h'.attributes h'.children_subset)
      · exact .inr ⟨hi, hshared.mono h'.abides.prefixes h'.roots_subset⟩
    · exact h'.supplied m hm hpaths

/-- The controls of the drafts do not matter. -/
theorem congr (h : Filled g pr inherits ms d e s d' e' s') {d₁ d₁' : Draft}
    (hd : d₁.nodesets = d.nodesets) (hd' : d₁'.nodesets = d'.nodesets) :
    Filled g pr inherits ms d₁ e s d₁' e' s' := by
  have hstart : Filled g pr inherits [] d₁ e s d e s := still (.refl s) hd.symm
  have hend : Filled g pr inherits [] d' e' s' d₁' e' s' := still (.refl s') hd'
  have hall := (hstart.trans h).trans hend
  rwa [List.nil_append, List.append_nil] at hall

/-- What happens before may change the state. -/
theorem after (h : Filled g pr inherits ms d e s' d' e' s'') (hs : s.Abides s') :
    Filled g pr inherits ms d e s d' e' s'' := by
  have hstart : Filled g pr inherits [] d e s d e s' := still hs rfl
  exact hstart.trans h

/-- One member is added, with what it makes. -/
theorem one {m : Member} (new : List Element) {f : Forest String} {ps : List Path}
    (habides : s.Abides s') (hnamed : e'.name = e.name) (hattributes : e.attributes ⊆ e'.attributes)
    (hchildren : e'.children = e.children ++ new)
    (hnew : ∀ c ∈ new, ∃ id o, m = .child id o ∧ c.name = (g.schema.element id).name ∧
      pr.covers id c)
    (hf : d'.nodesets = d.nodesets ++ f) (htraces : Traces s'.prefixes (fun up => up) f ps)
    (hsub : ps.Sublist (g.memberPaths pr.paths m))
    (hexact : (∀ id o, m = .child id o → pr.exact id) → ps = g.memberPaths pr.paths m)
    (hmakes : ∀ x ∈ f.roots, m.Makes g s'.prefixes x) (hin : m.In g pr e') :
    Filled g pr inherits [m] d e s d' e' s' where
  abides := habides
  named := hnamed
  attributes := hattributes
  children := ⟨new, hchildren, fun c hc => by
    obtain ⟨id, o, rfl, hc⟩ := hnew c hc
    exact ⟨id, o, List.mem_singleton_self _, hc⟩⟩
  traced := ⟨f, ps, hf, htraces, by simpa using hsub, fun _ h => by
    simpa using hexact fun id o hm => h id o (hm ▸ List.mem_singleton_self _)⟩
  origins x hx := by
    rw [hf, Forest.roots_append, List.mem_append] at hx
    exact hx.imp_right fun hx => ⟨m, List.mem_singleton_self _, hmakes x hx, hin⟩
  supplied m' hm' _ := .inl (List.mem_singleton.1 hm' ▸ hin)

/-- A member without paths is left out. -/
theorem leftOut {m : Member} (h : s.Abides s') (hkids : d'.nodesets = d.nodesets)
    (hm : g.memberPaths pr.paths m = []) : Filled g pr inherits [m] d e s d' e s' where
  abides := h
  named := rfl
  attributes := List.Subset.refl _
  children := ⟨[], (List.append_nil _).symm, fun _ hc => nomatch hc⟩
  traced := ⟨.nil, [], by rw [hkids, Forest.append_nil], .nil, List.nil_sublist _,
    fun _ _ => by simp [hm]⟩
  origins x hx := .inl (hkids ▸ hx)
  supplied m' hm' hpaths := absurd hm (List.mem_singleton.1 hm' ▸ hpaths)

/-- A member takes over the control of a bind that there is. -/
theorem shared {m : Member} (h : s.Abides s') (hkids : d'.nodesets = d.nodesets)
    (hinherits : inherits = true) (hm : m.Shared g s'.prefixes d.nodesets.roots) :
    Filled g pr inherits [m] d e s d' e s' where
  abides := h
  named := rfl
  attributes := List.Subset.refl _
  children := ⟨[], (List.append_nil _).symm, fun _ hc => nomatch hc⟩
  traced := ⟨.nil, [], by rw [hkids, Forest.append_nil], .nil, List.nil_sublist _,
    fun hi => by simp [hinherits] at hi⟩
  origins x hx := .inl (hkids ▸ hx)
  supplied m' hm' _ := .inr ⟨hinherits, by rw [List.mem_singleton.1 hm', hkids]; exact hm⟩

end Filled

/-! The nodesets that a sketch lays out, whatever the element. -/

namespace Sketch

variable {α β : Type}

/-- A sketch adds binds with the nodesets of a forest. -/
def Lays (p : Sketch α) (f : Forest String) : Prop :=
  ∀ (d : Draft) (s : Synthesis), p.Ends d s fun _ d' s' =>
    s.Abides s' ∧ d'.nodesets = d.nodesets ++ f

namespace Lays

variable {f f' : Forest String}

theorem lift {h : Synth α} (hh : Calm h) : Lays (liftM h) .nil := fun _ s =>
  ⟨hh s, (Forest.append_nil _).symm⟩

theorem pure (a : α) : Lays (pure a) .nil := fun _ s => ⟨.refl s, (Forest.append_nil _).symm⟩

theorem bind {p : Sketch α} {q : α → Sketch β} (hp : Lays p f) (hq : ∀ a, Lays (q a) f') :
    Lays (p >>= q) (f ++ f') := by
  intro d s
  rw [ends_bind]
  obtain ⟨habides, hd⟩ := hp d s
  obtain ⟨habides', hd'⟩ := hq (p d s).1.1 (p d s).1.2 (p d s).2
  exact ⟨habides.trans habides', by rw [hd', hd, Forest.append_assoc]⟩

theorem after {h : Synth β} (hh : Calm h) {p : β → Sketch α} (hp : ∀ b, Lays (p b) f) :
    Lays (liftM h >>= p) f := (lift hh).bind hp

theorem look {p : Draft → Sketch α} (hp : ∀ d, Lays (p d) f) : Lays (get >>= p) f :=
  fun d s => hp d d s

theorem leaves (cs : List Control) : Lays (Sketch.leaves cs) .nil := fun _ s =>
  ⟨.refl s, (Forest.append_nil _).symm⟩

theorem within {p : Sketch α} (hp : Lays p f) (before : List Control) (c : Control) :
    Lays (Sketch.within before c p) f := fun d s => hp { d with controls := .nil } s

theorem slot {p : Sketch α} (hp : Lays p f) : Lays (Sketch.slot p) f := by
  intro d s
  rw [ends_slot]
  refine (hp { d with controls := .nil } s).mono fun _ d' s' ⟨habides, hd⟩ => ⟨habides, ?_⟩
  exact (Kid.nodesets_settle d'.controls d'.kids).trans hd

theorem withKid {p : Sketch α} (hp : Lays p f) (b : Bind) (nodeset : String) :
    Lays (Sketch.withKid b nodeset p) (.tree nodeset f) := by
  intro d s
  rw [ends_withKid]
  refine (hp _ _).mono fun _ d' s' ⟨habides, hd⟩ => ⟨(Calm.allocate "bind" s).trans habides, ?_⟩
  have hbelow : (Kid.forest d'.kids).map (·.nodeset) = f := hd
  exact (d.nodesets_add _).trans (by rw [hbelow])

theorem repeatOf {p : Sketch α} (hp : Lays p f) (id : String) (bind : Option String) :
    Lays (Sketch.repeatOf id bind p) f :=
  .after (Calm.reportUngoverned id bind) fun _ => .after (Calm.repeatActions id bind) fun _ =>
    hp.within _ _

theorem repeated {p : Sketch α} (hp : Lays p f) (bind : Option String) :
    Lays (Sketch.repeated bind p) f :=
  .after (Calm.allocate "repeat") fun id => hp.repeatOf id bind

end Lays

theorem lays_valueControl (g : Generator) (t : TypeId) (owner : Generator.Owner) :
    Lays (valueControl g t owner) .nil :=
  .look fun d => .after (Calm.fieldControl t (d.own.getD "")) fun _ => .leaves _

/-- A field has a bind of its own, and one for its items if there may be several. -/
theorem lays_field (g : Generator) (t : TypeId) (owner : Generator.Owner) (path : String)
    (occurs : Occurs) : Lays (field g t owner path occurs)
      (.tree path (if occurs.isMultiple then .leaf "." else .nil)) := by
  unfold field
  refine .withKid ?_ _ _
  split
  · exact .look fun d => .after (Calm.allocate "group") fun _ =>
      (((lays_valueControl g t owner).withKid _ _).repeated _).within _ _
  · exact lays_valueControl g t owner

end Sketch

end SchemaForms
