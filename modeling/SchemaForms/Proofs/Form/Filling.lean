import SchemaForms.Proofs.Form.Simulation

/-!
Filling an element: adding a bind and filling it, and adding a section and filling that, follow what
the sketch does.
-/

namespace SchemaForms

open Grove (ids graft only both at? tops erase bounds relabel bindTops lastOf kidsOf Recasts)
open Forest (tree leaf)
open Synthesis

section Bind

variable {s s₁ s₂ : Synthesis} {f : Grove} {scope area m : NodeId} {d d₂ : Draft} {b : Bind}
  {γ : Growth}

/-- The draft once a bind has been added, with some binds below it. -/
def Draft.withBind (d : Draft) (b : Bind) (below : Forest Bind := .nil) : Draft :=
  { d with kids := d.kids ++ [{ bind := b, below := below }] }

/-- The draft of an element whose bind is added last. -/
def Draft.inner (d : Draft) (b : Bind) : Draft where
  own := some b.id
  above := Kid.lastElement (d.withBind b).kids
  around := (d.withBind b).governing
  kids := []
  controls := d.controls
  copies := d.copies

/-- The bind that is added next. -/
def nextBind (s : Synthesis) (b : Bind) (nodeset : String) : Bind :=
  { b with id := (s.ids.allocate "bind").1, nodeset := nodeset }

theorem given_next (s : Synthesis) (b : Bind) (nodeset : String) :
    (s.ids.allocate "bind").2.Given "bind" (nextBind s b nodeset).id :=
  ⟨s.ids.count "bind", by simp, rfl⟩

theorem not_given_next (s : Synthesis) (b : Bind) (nodeset : String) :
    ¬ s.ids.Given "bind" (nextBind s b nodeset).id := by
  rintro ⟨n, hn, he⟩
  exact Nat.lt_irrefl _ (Identifiers.identifier_inj he ▸ hn)

/-- The kids once one has been added are those before it and one with a new identifier. -/
theorem Draft.fresh_withBind (d : Draft) {b : Bind} {below : Forest Bind}
    (hb : ¬ s.ids.Given "bind" b.id) : ∀ kid ∈ (d.withBind b below).kids,
      (∃ old ∈ d.kids, old.bind.id = kid.bind.id ∧ (old.source.isSome → kid.source.isSome)) ∨
        ¬ s.ids.Given "bind" kid.bind.id := by
  intro kid hkid
  rcases List.mem_append.1 hkid with hkid | hkid
  · exact .inl ⟨kid, hkid, rfl, id⟩
  · rw [List.mem_singleton.1 hkid]
    exact .inr hb

/-- A bind that has just been hung below the scope, with a new identifier. -/
structure Binds (s s₁ : Synthesis) (f : Grove) (scope m : NodeId) (b : Bind) : Prop where
  node : m = ⟨s.tree.size⟩
  holds : s₁.tree.Holds (graft (only scope (leaf (m, .bind b))) f)
  root : s₁.tree.root = s.tree.root
  size : s₁.tree.size = s.tree.size + 1
  parent : s₁.tree.parent m = some scope
  reused : s₁.reused = s.reused
  before : s.ids.Before s₁.ids
  given : s₁.ids.Given "bind" b.id
  new : ¬ s.ids.Given "bind" b.id

theorem addBind_binds (b : Bind) (nodeset : String) (h : s.tree.Holds f) (hm : scope ∈ ids f) :
    let added := Generator.addBind scope b nodeset s
    added.1 = ⟨⟨s.tree.size⟩, (nextBind s b nodeset).id⟩ ∧
      added.2.ids = (s.ids.allocate "bind").2 ∧
      Binds s added.2 f scope ⟨s.tree.size⟩ (nextBind s b nodeset) := by
  have hne : scope ≠ ⟨s.tree.size⟩ := by
    rintro rfl
    exact Nat.lt_irrefl _ (h.lt _ hm)
  have hlt : s.tree.size < (s.tree.create (.bind (nextBind s b nodeset))).2.size :=
    Nat.lt_of_lt_of_eq (Nat.lt_succ_self _) (Tree.size_create ..).symm
  exact ⟨rfl, rfl, rfl, (h.create _).append hm, Tree.root_append ..,
    (Tree.size_append ..).trans (Tree.size_create ..), Tree.parent_append _ hne hlt, rfl,
    s.ids.before_allocate "bind", given_next s b nodeset, not_given_next s b nodeset⟩

theorem Binds.not_mem (hb : Binds s s₁ f scope m b) (h : Scene s f scope area d) : m ∉ ids f := by
  intro hm
  have hlt := h.lt hm
  rw [hb.node] at hlt
  exact Nat.lt_irrefl _ hlt

theorem Binds.adds (hb : Binds s s₁ f scope m b) (h : Scene s f scope area d) :
    Adds s s₁ f scope area d (d.withBind b) { binds := leaf (m, .bind b) } where
  shows := h.world.shows.of_holds hb.root (by rw [Growth.on_binds]; exact hb.holds)
  size_le := hb.size ▸ Nat.le_succ _
  before := hb.before
  newBinds x hx := by
    rw [Grove.ids_leaf, List.mem_singleton] at hx
    rw [hx]
    exact Nat.le_of_eq (congrArg NodeId.index hb.node).symm
  newControls x hx := by cases hx
  bindsOnly a ha := by
    rcases List.mem_cons.1 ha with rfl | ha
    · rfl
    · cases ha
  controlsOnly x hx := by cases hx
  recasts := .id
  castKids _ _ _ := rfl
  refs x hx := by cases hx
  drawn := (Forest.append_nil _).symm
  own := rfl
  above := rfl
  around := rfl
  fresh := d.fresh_withBind hb.new
  reused _ _ _ := by rw [hb.reused]

theorem Binds.scene (hb : Binds s s₁ f scope m b) (h : Scene s f scope area d) :
    Scene s₁ (graft (only scope (leaf (m, .bind b))) f) scope area (d.withBind b) := by
  have ha := hb.adds h
  have hlt : s.tree.size ≤ s₁.tree.size := ha.size_le
  rw [← Growth.on_binds scope area]
  refine h.grow ha ?_ ?_ ?_ ?_
  · exact fun x hx => Nat.lt_of_lt_of_le (h.world.reused x (hb.reused ▸ hx)) hlt
  · intro k below hat
    obtain ⟨k', below', hat', -, hdraws, -⟩ := h.scopeAt.here
    cases hat.symm.trans hat'
    rw [Grove.relabel_eq_self fun _ _ _ => rfl]
    refine (hdraws.congr fun x _ => by rw [hb.reused]).append ⟨_, _, rfl, rfl, rfl, ?_, rfl⟩
    refine iff_of_false (fun hm => ?_) Bool.false_ne_true
    have hnew : m.index < s.tree.size := h.world.reused m (hb.reused ▸ hm)
    exact Nat.lt_irrefl _ (hb.node ▸ hnew)
  · intro kid hkid
    rcases List.mem_append.1 hkid with hkid | hkid
    · exact (h.sourced kid hkid).grow ha h fun _ => rfl
    · rw [List.mem_singleton.1 hkid]
      exact fun _ _ hs => by cases hs
  · intro kid hkid
    rcases List.mem_append.1 hkid with hkid | hkid
    · refine (h.given _ ?_).mono hb.before
      exact List.mem_append_right _ (List.mem_map_of_mem hkid)
    · rw [List.mem_singleton.1 hkid]
      exact hb.given

theorem Binds.at?_node (hb : Binds s s₁ f scope m b) (h : Scene s f scope area d) :
    at? m (graft (only scope (leaf (m, .bind b))) f) = some (.bind b, .nil) := by
  refine Grove.at?_graft_new (by simp [at?, Forest.leaf, Forest.tree, Forest.find])
    h.scope_mem (hb.not_mem h) fun z _ hz => ?_
  rw [Grove.only_of_ne hz]
  exact List.not_mem_nil

theorem Draft.last_given {given : Identifiers} (h : ∀ id ∈ d.names, given.Given "bind" id) :
    ∀ id ∈ (Kid.lastElement d.kids).toList, given.Given "bind" id := by
  intro id hid
  simp only [Kid.lastElement, Option.mem_toList, Option.map_eq_some_iff] at hid
  obtain ⟨c, hc, rfl⟩ := hid
  have hmem := List.mem_of_find?_eq_some hc
  simp only [List.mem_map, List.mem_reverse] at hmem
  obtain ⟨kid, hkid, rfl⟩ := hmem
  exact h _ (List.mem_append_right _ (List.mem_map_of_mem hkid))

theorem Draft.governing_given {given : Identifiers} (h : ∀ id ∈ d.names, given.Given "bind" id) :
    ∀ id ∈ d.governing.toList, given.Given "bind" id := by
  intro id hid
  have hlast := Draft.last_given h id
  rw [Draft.governing] at hid
  cases hk : Kid.lastElement d.kids with
  | some c =>
    rw [hk] at hid hlast
    exact hlast (by simpa [eq_comm] using hid)
  | none =>
    rw [hk] at hid
    refine h id ?_
    simp only [Draft.names, List.mem_append]
    exact .inl (.inl (.inr (by simpa using hid)))

/-- The scene inside a bind that has just been added. -/
theorem Binds.inside (hb : Binds s s₁ f scope m b) (h : Scene s f scope area d) :
    Scene s₁ (graft (only scope (leaf (m, .bind b))) f) m area (d.inner b) := by
  have h₁ := hb.scene h
  have hholds := hb.holds
  obtain ⟨k, below, hatScope, -, hdraws, -⟩ := h₁.scopeAt.here
  obtain ⟨p, hp, hpf, hplt, habove, haround, hq⟩ := h₁.scopeAt.outer
  have hlast : Generator.lastElementBind s₁.tree scope = Kid.lastElement (d.withBind b).kids :=
    (Tree.lastElementBind_eq hholds hatScope).trans hdraws.lastOf_eq
  refine ⟨h₁.world, ⟨⟨_, _, hb.at?_node h, rfl, rfl, List.not_mem_nil⟩, ?_⟩, h₁.area_mem, ?_, h₁.opened,
    (fun kid hkid => by cases hkid), ?_⟩
  · refine ⟨scope, hb.parent, h₁.scope_mem, hb.node ▸ h.lt h.scope_mem, hlast, ?_, ?_⟩
    · rw [Generator.governingBind, hlast, hp, Option.bind_some, habove]
      rfl
    · intro q hq'
      rw [hp] at hq'
      cases hq'
      exact ⟨hpf, hplt⟩
  · exact fun he => hb.not_mem h (he ▸ h.area_mem)
  · intro id hid
    simp only [Draft.names, Draft.inner, Option.toList_some, List.map_nil, List.append_nil,
      List.mem_append, List.mem_singleton] at hid
    rcases hid with (rfl | hid) | hid
    · exact hb.given
    · exact Draft.last_given h₁.given id hid
    · exact Draft.governing_given h₁.given id hid

theorem Binds.kids_inside (hb : Binds s s₁ f scope m b) (h : Scene s f scope area d) :
    kidsOf m (graft (only scope (leaf (m, .bind b))) f) = [] := by
  rw [Grove.kidsOf_eq (hb.at?_node h)]
  rfl

/-- What a step adds below a new bind, as an addition to what is around the bind. -/
def Growth.outside (γ : Growth) (m : NodeId) (b : Bind) : Growth :=
  { binds := tree (m, .bind b) γ.binds, controls := γ.controls }

theorem Binds.on_outside (hb : Binds s s₁ f scope m b) (h : Scene s f scope area d)
    (ha₂ : Adds s₁ s₂ (graft (only scope (leaf (m, .bind b))) f) m area (d.inner b) d₂ γ) :
    γ.on m area (graft (only scope (leaf (m, .bind b))) f) =
      (γ.outside m b).on scope area f := by
  have hcast (g : Grove) : relabel γ.cast g = g := Grove.relabel_eq_self fun x _ k =>
    ha₂.castKids x (by rw [hb.kids_inside h]; exact List.not_mem_nil) k
  rw [Growth.on, Growth.on, hcast, Growth.outside, Grove.relabel_eq_self fun _ _ _ => rfl,
    Grove.graft_graft]
  refine Grove.graft_congr fun x hx => ?_
  have hxm : x ≠ m := fun he => hb.not_mem h (he ▸ hx)
  have harea : m ≠ area := fun he => hb.not_mem h (he ▸ h.area_mem)
  by_cases hxs : x = scope
  · subst hxs
    rw [Grove.only_self, Grove.both_self, Grove.both_of_ne hxm h.ne, Forest.append_nil,
      Forest.leaf, Forest.tree, Grove.graft_cons, Grove.graft_nil, Grove.both_self]
    rfl
  · rw [Grove.only_of_ne hxs, Grove.graft_nil, Forest.nil_append]
    simp [both, hxm, hxs]

theorem Binds.closed (hb : Binds s s₁ f scope m b) (h : Scene s f scope area d)
    (ha₂ : Adds s₁ s₂ (graft (only scope (leaf (m, .bind b))) f) m area (d.inner b) d₂ γ) :
    Adds s s₂ f scope area d
      { d.withBind b (Kid.forest d₂.kids) with controls := d₂.controls, copies := d₂.copies } (γ.outside m b) where
  shows := hb.on_outside h ha₂ ▸ ha₂.shows
  size_le := Nat.le_trans (hb.adds h).size_le ha₂.size_le
  before := hb.before.trans ha₂.before
  newBinds x hx := by
    rw [Growth.outside, Grove.ids_tree, List.mem_cons] at hx
    rcases hx with rfl | hx
    · exact Nat.le_of_eq (congrArg NodeId.index hb.node).symm
    · exact Nat.le_trans (hb.adds h).size_le (ha₂.newBinds x hx)
  newControls x hx := Nat.le_trans (hb.adds h).size_le (ha₂.newControls x hx)
  bindsOnly a hm := by
    rw [Growth.outside, Forest.tree, Forest.labels_cons, Forest.labels_nil, List.append_nil,
      List.mem_cons] at hm
    rcases hm with rfl | hm
    · rfl
    · exact ha₂.bindsOnly a hm
  controlsOnly := ha₂.controlsOnly
  recasts := .id
  castKids _ _ _ := rfl
  refs := ha₂.refs
  drawn := ha₂.drawn
  own := rfl
  above := rfl
  around := rfl
  fresh := d.fresh_withBind hb.new
  reused x hx hkids := by
    have hlt : x.index < s₁.tree.size := Nat.lt_of_lt_of_le hx (hb.adds h).size_le
    rw [ha₂.reused x hlt (by rw [hb.kids_inside h]; exact List.not_mem_nil), hb.reused]

theorem Binds.scene_closed (hb : Binds s s₁ f scope m b) (h : Scene s f scope area d)
    (ha₂ : Adds s₁ s₂ (graft (only scope (leaf (m, .bind b))) f) m area (d.inner b) d₂ γ)
    (h₂ : Scene s₂ (γ.on m area (graft (only scope (leaf (m, .bind b))) f)) m area d₂) :
    Scene s₂ ((γ.outside m b).on scope area f) scope area
      { d.withBind b (Kid.forest d₂.kids) with controls := d₂.controls, copies := d₂.copies } := by
  have ha := hb.closed h ha₂
  have hreused (x : NodeId) (hx : x.index < s₁.tree.size) : x ∈ s₂.reused ↔ x ∈ s.reused := by
    rw [ha₂.reused x hx (by rw [hb.kids_inside h]; exact List.not_mem_nil), hb.reused]
  have hsize : s.tree.size < s₁.tree.size := hb.size ▸ Nat.lt_succ_self _
  obtain ⟨k, below, hat, -, hdraws, -⟩ := h₂.scopeAt.here
  cases hat.symm.trans (ha₂.at?_scope (hb.inside h) (hb.at?_node h))
  refine h.grow ha h₂.world.reused ?_ ?_ ?_
  · intro k₀ below₀ hat₀
    obtain ⟨k', below', hat', -, hdraws₀, -⟩ := h.scopeAt.here
    cases hat₀.symm.trans hat'
    rw [Growth.outside, Grove.relabel_eq_self fun _ _ _ => rfl]
    refine (hdraws₀.congr fun x hx => ?_).append ⟨_, _, rfl, rfl, ?_, ?_, rfl⟩
    · refine hreused x (Nat.lt_trans (h.lt ?_) hsize)
      exact (Grove.mem_of_at? hat₀).2 x (Grove.mem_ids_of_mem_tops hx)
    · exact hdraws.erase_eq ha₂.bindsOnly
    · have hlt : m.index < s₁.tree.size := by rwa [hb.node]
      refine iff_of_false (fun hm => ?_) Bool.false_ne_true
      have hold := h.world.reused m ((hreused m hlt).1 hm)
      rw [hb.node] at hold
      exact Nat.lt_irrefl _ hold
  · intro kid hkid
    rcases List.mem_append.1 hkid with hkid | hkid
    · exact (h.sourced kid hkid).grow ha h fun _ => rfl
    · rw [List.mem_singleton.1 hkid]
      exact fun _ _ hs => by cases hs
  · intro kid hkid
    rcases List.mem_append.1 hkid with hkid | hkid
    · refine (h.given _ ?_).mono ha.before
      exact List.mem_append_right _ (List.mem_map_of_mem hkid)
    · rw [List.mem_singleton.1 hkid]
      exact hb.given.mono ha₂.before

end Bind

namespace Follows

variable {α : Type} {φ : Frame} {area : NodeId} {b : Bind} {nodeset : String}

/-- A new bind, and what is made for it. -/
theorem withKid {I : List Kid → Prop} {k : BindRef → Synth α} {p : Sketch α} (hI : I [])
    (hk : ∀ ref around, Follows I
      ⟨ref.node, φ.scope, some ref.id, around, ref.id :: (around.toList ++ φ.known)⟩ area (k ref) p) :
    Follows Any φ area (Generator.addBind φ.scope b nodeset >>= k) (Sketch.withKid b nodeset p) := by
  intro s grove d h _ hφ
  obtain ⟨-, -, hb⟩ := addBind_binds b nodeset h.world.shows.toHolds h.scope_mem
  let added := Generator.addBind φ.scope b nodeset s
  let around := (d.withBind (nextBind s b nodeset)).governing
  have hinside := hb.inside h
  have hIn : Frame.In ⟨⟨s.tree.size⟩, φ.scope, some (nextBind s b nodeset).id, around,
      (nextBind s b nodeset).id :: (around.toList ++ φ.known)⟩ added.2
      (d.inner (nextBind s b nodeset)) := by
    refine ⟨rfl, rfl, hb.parent, fun id hid => ?_⟩
    rcases List.mem_cons.1 hid with rfl | hid
    · exact hb.given
    · rcases List.mem_append.1 hid with hid | hid
      · refine hinside.given id ?_
        simp only [Draft.names, List.mem_append]
        exact .inl (.inr hid)
      · exact (hφ.known id hid).mono hb.before
  obtain ⟨hresult, hbare, -, γ, ha₂, h₂⟩ := hk ⟨_, _⟩ around hinside hI hIn
  have hclosed := hb.closed h ha₂
  have hscene := hb.scene_closed h ha₂ h₂
  exact ⟨hresult, hbare, trivial, _, hclosed, hscene⟩

/-- A new bind with nothing below it. -/
theorem addBind {k : BindRef → Synth α} {q : String → Sketch α}
    (hk : ∀ ref, Follows Any (φ.knowing [ref.id]) area (k ref) (q ref.id)) :
    Follows Any φ area (Generator.addBind φ.scope b nodeset >>= k)
      (Sketch.withKid b nodeset Sketch.ownId >>= q) := by
  intro s grove d h _ hφ
  obtain ⟨-, -, hb⟩ := addBind_binds b nodeset h.world.shows.toHolds h.scope_mem
  have ha := hb.adds h
  have h₁ := hb.scene h
  rw [← Growth.on_binds φ.scope area] at h₁
  have hgiven : ∀ id ∈ [(nextBind s b nodeset).id],
      (Generator.addBind φ.scope b nodeset s).2.ids.Given "bind" id := fun id hid =>
    List.mem_singleton.1 hid ▸ hb.given
  obtain ⟨hresult, hbare, -, γ, ha₂, h₂⟩ :=
    hk ⟨⟨s.tree.size⟩, (nextBind s b nodeset).id⟩ h₁ trivial ((hφ.mono h ha).knowing hgiven)
  exact ⟨hresult, hbare, trivial, _, ha.trans h h₁ ha₂, ha.on_on h h₁ ha₂ ▸ h₂⟩

end Follows

end SchemaForms
