import SchemaForms.Proofs.Form.Filling

/-!
Sections: controls that are hung into the section being filled, and sections inside it.
-/

namespace SchemaForms

open Grove (ids graft only both at? tops erase bounds relabel bindTops lastOf kidsOf Recasts boxed)
open Forest (tree leaf leaves)

section Hanging

variable {s s' s₁ s₂ : Synthesis} {f g : Grove} {scope area area' : NodeId} {d d₂ : Draft}
  {γ : Growth}

/-- Controls have been hung, and nothing else has been done to the arena or the notes about it. -/
structure Hung (s s' : Synthesis) (f : Grove) (area : NodeId) (g : Grove) : Prop where
  hangs : s.tree.Hangs s'.tree f area g
  reused : s'.reused = s.reused
  before : s.ids.Before s'.ids
  refs : ∀ k ∈ (erase g).labels, ∀ id, k.isBoundTo id → s'.ids.Given "bind" id

theorem Hung.adds (hg : Hung s s' f area g) (h : Scene s f scope area d) :
    Adds s s' f scope area d { d with controls := d.controls ++ erase g } { controls := g } where
  shows := h.world.shows.of_holds hg.hangs.root (by
    rw [Growth.on_controls h.ne]
    exact hg.hangs.holds)
  size_le := hg.hangs.size_le
  before := hg.before
  newBinds x hx := by cases hx
  newControls := hg.hangs.new
  bindsOnly x hx := by cases hx
  controlsOnly := hg.hangs.controlsOnly
  recasts := .id
  castKids _ _ _ := rfl
  refs a ha id hid := by
    have hk : a.2 ∈ (bounds g).map (·.2) := List.mem_map_of_mem ha
    rw [Grove.bounds_kinds, List.mem_filter] at hk
    exact hg.refs a.2 hk.1 id hid
  drawn := rfl
  own := rfl
  above := rfl
  around := rfl
  fresh kid hkid := .inl ⟨kid, hkid, rfl, id⟩
  reused _ _ _ := by rw [hg.reused]

theorem Hung.scene (hg : Hung s s' f area g) (h : Scene s f scope area d) :
    Scene s' (graft (only area g) f) scope area
      { d with controls := d.controls ++ erase g } := by
  have ha := hg.adds h
  rw [← Growth.on_controls h.ne]
  refine h.grow ha ?_ ?_ ?_ ?_
  · rw [hg.reused]
    exact fun x hx => Nat.lt_of_lt_of_le (h.world.reused x hx) hg.hangs.size_le
  · intro k below hat
    obtain ⟨k', below', hat', -, hdraws, -⟩ := h.scopeAt.here
    cases hat.symm.trans hat'
    rw [Grove.relabel_eq_self fun _ _ _ => rfl, Forest.append_nil]
    exact hdraws.congr fun x _ => by rw [hg.reused]
  · exact fun kid hkid => (h.sourced kid hkid).grow ha h fun _ => rfl
  · intro kid hkid
    exact (h.given _ (List.mem_append_right _ (List.mem_map_of_mem hkid))).mono hg.before

/-- What has been hung has a section in it, in which some controls and then that of the section have
been drawn. -/
structure Opened (g : Grove) (area' : NodeId) (before : List Control) (c : Control) : Prop where
  mem : area' ∈ ids g
  erase_eq : ∀ h, erase (graft (only area' h) g) =
    leaves (before.map .control) ++ tree (.control c) (erase h)
  opened : Open g area'

theorem Opened.erase_self {before : List Control} {c : Control} (ho : Opened g area' before c) :
    erase g = leaves (before.map .control) ++ leaf (.control c) := by
  have := ho.erase_eq .nil
  rwa [Grove.graft_eq_self fun x _ => by unfold only; exact ite_self _] at this

theorem opened_boxed {row : Grove} {box : Option Markup} {n : NodeId} {before : List Control}
    {c : Control} (hrow : erase row = leaves (before.map .control)) (hnew : area' ∉ ids row)
    (hne : n ≠ area') :
    Opened (row ++ boxed box n (leaf (area', .control c))) area' before c := by
  have hgraft (h : Grove) : graft (only area' h) (row ++ boxed box n (leaf (area', .control c))) =
      row ++ boxed box n (tree (area', .control c) h) := by
    rw [Grove.graft_append, Grove.graft_eq_self fun x hx =>
      Grove.only_of_ne (fun he : x = area' => hnew (he ▸ hx)) h, Grove.graft_boxed box hne]
    simp [leaf, tree]
  refine ⟨?_, fun h => ?_, fun h => ?_⟩
  · rw [Grove.ids_append, List.mem_append]
    exact .inr (Grove.subset_ids_boxed (by simp))
  · rw [hgraft, Grove.erase_append, hrow, Grove.erase_boxed]
    rfl
  · rw [hgraft, Grove.bounds_append, Grove.bounds_append, Grove.bounds_boxed, Grove.bounds_boxed,
      List.append_assoc]
    congr 1
    rw [leaf, tree, tree, Grove.bounds_cons, Grove.bounds_cons]
    simp

/-- What has been hung is for binds that are known, if its section is. -/
theorem Opened.hung {before : List Control} {c : Control} {t : Tree} (ho : Opened g area' before c)
    (hangs : s.tree.Hangs t f area g) (hbefore : ∀ c' ∈ before, c'.bind = none)
    (hc : ∀ id, c.bind = some id → s.ids.Given "bind" id) :
    Hung s { s with tree := t } f area g := by
  refine ⟨hangs, rfl, .refl _, fun k hk id hid => ?_⟩
  rw [ho.erase_self, Forest.labels_append, Forest.labels_leaves, List.mem_append] at hk
  rcases hk with hk | hk
  · obtain ⟨c', hc', rfl⟩ := List.mem_map.1 hk
    rw [NodeKind.isBoundTo, show (NodeKind.control c').control? = some c' from rfl,
      Option.bind_some, hbefore c' hc'] at hid
    cases hid
  · cases List.mem_singleton.1 hk
    exact hc id (eq_of_beq hid)

/-- The scene in a section that has just been opened. -/
theorem Hung.inside {before : List Control} {c : Control} (hg : Hung s s' f area g)
    (ho : Opened g area' before c) (h : Scene s f scope area d) :
    Scene s' (graft (only area g) f) scope area' { d with controls := .nil } := by
  have ha := hg.adds h
  have h₁ := hg.scene h
  have hnew : area' ∉ ids f := fun hm =>
    Nat.not_lt.2 (hg.hangs.new area' ho.mem) (h.lt hm)
  refine ⟨h₁.world, ⟨?_, h₁.scopeAt.outer⟩, ?_, fun he => hnew (he ▸ h.scope_mem), ?_, ?_,
    h₁.given⟩
  · obtain ⟨k, below, hat, hown, hdraws, -⟩ := h₁.scopeAt.here
    refine ⟨k, below, hat, hown, hdraws, fun hm => ?_⟩
    obtain ⟨k', below', hat', -⟩ := h.scopeAt.here
    have hat'' := ha.at?_scope h hat'
    rw [Growth.on_controls h.ne] at hat''
    cases hat.symm.trans hat''
    rw [Forest.append_nil, Grove.ids_relabel] at hm
    exact hnew ((Grove.mem_of_at? hat').2 area' hm)
  · exact (Grove.mem_ids_graft _ _).2 (.inr ⟨area, h.area_mem, by rw [Grove.only_self]; exact ho.mem⟩)
  · intro b
    rw [Tree.graft_only_inner hnew, h.opened, h.opened, ho.opened, List.append_assoc]
  · intro kid hkid
    rw [← Growth.on_controls h.ne]
    exact (h.sourced kid hkid).grow ha h fun hm => absurd hm hnew

/-- What a step adds in a section inside another, as an addition to the outer one. -/
def Growth.around (γ : Growth) (area' : NodeId) (g : Grove) : Growth :=
  { γ with controls := graft (only area' γ.controls) g }

section Around

variable {before : List Control} {c : Control} (hg : Hung s s₁ f area g)
  (ho : Opened g area' before c) (h : Scene s f scope area d)
  (ha₂ : Adds s₁ s₂ (graft (only area g) f) scope area' { d with controls := .nil } d₂ γ)

include hg ho h ha₂

theorem Hung.on_around :
    γ.on scope area' (graft (only area g) f) = (γ.around area' g).on scope area f := by
  rw [Growth.on, Growth.on, Growth.around, Grove.graft_graft]
  congr 1
  refine Grove.graft_congr fun x hx => ?_
  have hnew : area' ∉ ids f := fun hm => Nat.not_lt.2 (hg.hangs.new area' ho.mem) (h.lt hm)
  have hxa : x ≠ area' := fun he => hnew (he ▸ hx)
  by_cases hxs : x = scope
  · subst hxs
    rw [Grove.only_of_ne h.ne, Grove.graft_nil, Grove.both_self, Grove.both_self]
    rfl
  · by_cases hxarea : x = area
    · subst hxarea
      rw [Grove.only_self, Grove.both_of_ne hxs hxa, Forest.append_nil]
      simp only [both, if_neg hxs, if_true]
      refine Grove.graft_congr fun y hy => ?_
      have hys : y ≠ scope := fun he =>
        Nat.not_lt.2 (hg.hangs.new y hy) (h.lt (he ▸ h.scope_mem))
      simp [both, only, hys]
    · rw [Grove.only_of_ne hxarea, Grove.both_of_ne hxs hxa, Grove.both_of_ne hxs hxarea]
      rfl

theorem Hung.around_adds : Adds s s₂ f scope area d
    { d₂ with controls := d.controls ++
        (leaves (before.map .control) ++ tree (.control c) d₂.controls) } (γ.around area' g) where
  shows := hg.on_around ho h ha₂ ▸ ha₂.shows
  size_le := Nat.le_trans hg.hangs.size_le ha₂.size_le
  before := hg.before.trans ha₂.before
  newBinds x hx := Nat.le_trans hg.hangs.size_le (ha₂.newBinds x hx)
  newControls x hx := by
    rcases (Grove.mem_ids_graft _ _).1 hx with hx | ⟨y, -, hx⟩
    · exact hg.hangs.new x hx
    · unfold only at hx
      split at hx
      · exact Nat.le_trans hg.hangs.size_le (ha₂.newControls x hx)
      · cases hx
  bindsOnly := ha₂.bindsOnly
  controlsOnly a hm := by
    rcases Grove.mem_labels_graft hm with hm | ⟨y, hm⟩
    · exact hg.hangs.controlsOnly a hm
    · unfold only at hm
      split at hm
      · exact ha₂.controlsOnly a hm
      · cases hm
  recasts := ha₂.recasts
  castKids x hx k := by
    refine ha₂.castKids x ?_ k
    have hkids := (hg.adds h).kidsOf_eq h
    rw [Growth.on_controls h.ne, Grove.tops_nil, List.append_nil] at hkids
    rwa [hkids]
  refs a hm id hid := by
    rw [Growth.around, ho.opened, List.mem_append] at hm
    rcases hm with hm | hm
    · exact ((hg.adds h).refs a hm id hid).mono ha₂.before
    · exact ha₂.refs a hm id hid
  drawn := by
    rw [Growth.around, ho.erase_eq, ha₂.drawn, Forest.nil_append]
  own := ha₂.own
  above := ha₂.above
  around := ha₂.around
  fresh kid hkid := (ha₂.fresh kid hkid).imp_right fun hnew hgiven => hnew (hgiven.mono hg.before)
  reused x hx hkids := by
    have hold := (hg.adds h).kidsOf_eq h
    rw [Growth.on_controls h.ne, Grove.tops_nil, List.append_nil] at hold
    rw [ha₂.reused x (Nat.lt_of_lt_of_le hx hg.hangs.size_le) (by rwa [hold]), hg.reused]

theorem Hung.around_scene
    (h₂ : Scene s₂ (γ.on scope area' (graft (only area g) f)) scope area' d₂) :
    Scene s₂ ((γ.around area' g).on scope area f) scope area
      { d₂ with controls := d.controls ++
        (leaves (before.map .control) ++ tree (.control c) d₂.controls) } := by
  have ha := hg.around_adds ho h ha₂
  rw [hg.on_around ho h ha₂] at h₂
  refine h.grow ha h₂.world.reused ?_ ?_ ?_
  · intro k below hat
    obtain ⟨k', below', hat', -, hdraws, -⟩ := h₂.scopeAt.here
    cases hat'.symm.trans (ha.at?_scope h hat)
    exact hdraws
  · intro kid hkid k below hsource
    obtain ⟨x, b, hfind, hat, herase, hbinds, hscope, harea⟩ := h₂.sourced kid hkid k below hsource
    refine ⟨x, b, hfind, hat, herase, hbinds, hscope, fun hm => harea ?_⟩
    -- below the outer section lies the inner one
    have hnodup := h₂.world.shows.nodup
    obtain ⟨⟨k', b'⟩, hatArea⟩ := Grove.at?_eq_some_of_mem h.area_mem
    have hgraft := Grove.at?_graft (h := both scope γ.binds area (graft (only area' γ.controls) g))
      hatArea fun y _ => ha.not_mem_both h h.area_mem y
    have hatArea' : at? area ((γ.around area' g).on scope area f) = _ :=
      (Grove.at?_relabel ..).trans (congrArg _ hgraft)
    rw [Grove.at?_of_at? hnodup hat hm] at hatArea'
    have hsub := (Grove.mem_of_at? hatArea').2 area' (by
      rw [Grove.ids_relabel, Grove.ids_append, List.mem_append]
      refine .inr ?_
      simp only [both, if_neg h.ne.symm, if_true]
      exact (Grove.mem_ids_graft _ _).2 (.inl ho.mem))
    rwa [Grove.ids_tree] at hsub
  · exact fun kid hkid => h₂.given _ (List.mem_append_right _ (List.mem_map_of_mem hkid))

end Around

end Hanging

namespace Follows

variable {α : Type} {I : List Kid → Prop} {φ : Frame} {area : NodeId}

/-- Controls of binds that are known, side by side, and what comes after them. -/
theorem leaves {β : Type} {F : Synth β} {k : Synth α} {q : Sketch α} {cs : List Control}
    (hF : ∀ (s : Synthesis) (f : Grove), s.tree.Holds f → area ∈ ids f → ∃ t g,
      (F s).2 = { s with tree := t } ∧ s.tree.Hangs t f area g ∧
        erase g = .leaves (cs.map .control))
    (hcs : ∀ c ∈ cs, ∀ id, c.bind = some id → id ∈ φ.known) (hk : Follows I φ area k q) :
    Follows I φ area (F >>= fun _ => k) (Sketch.leaves cs >>= fun _ => q) := by
  intro s grove d h hI hφ
  obtain ⟨t, g, hrun, hhangs, herase⟩ := hF s grove h.world.shows.toHolds h.area_mem
  have hung : Hung s { s with tree := t } grove area g := by
    refine ⟨hhangs, rfl, .refl _, fun k hk id hid => ?_⟩
    rw [herase, Forest.labels_leaves] at hk
    obtain ⟨c, hc, rfl⟩ := List.mem_map.1 hk
    exact hφ.known id (hcs c hc id (eq_of_beq hid))
  have ha := hung.adds h
  have h₁ := hung.scene h
  rw [← Growth.on_controls h.ne] at h₁
  rw [herase] at ha h₁
  obtain ⟨hresult, hbare, hI', γ, ha', h'⟩ := hk h₁ hI (hφ.mono h ha)
  have hrun' : (F >>= fun _ => k) s = k { s with tree := t } := by
    rw [← hrun]
    rfl
  rw [hrun']
  exact ⟨hresult, hbare, hI', _, ha.trans h h₁ ha', ha.on_on h h₁ ha' ▸ h'⟩

/-- A section in a control of a known bind, behind controls without binds. -/
theorem within {F : Synth NodeId} {k : NodeId → Synth α} {p : Sketch α} {before : List Control}
    {c : Control}
    (hF : ∀ (s : Synthesis) (f : Grove), s.tree.Holds f → area ∈ ids f → ∃ t g area',
      F s = (area', { s with tree := t }) ∧ s.tree.Hangs t f area g ∧ Opened g area' before c)
    (hbefore : ∀ c' ∈ before, c'.bind = none) (hc : ∀ id, c.bind = some id → id ∈ φ.known)
    (hk : ∀ area', Follows I φ area' (k area') p) :
    Follows I φ area (F >>= k) (Sketch.within before c p) := by
  intro s grove d h hI hφ
  obtain ⟨t, g, area', hrun, hhangs, hopened⟩ := hF s grove h.world.shows.toHolds h.area_mem
  have hung : Hung s { s with tree := t } grove area g :=
    hopened.hung hhangs hbefore fun id hid => hφ.known id (hc id hid)
  have hφ₁ := hφ.mono h (hung.adds h)
  obtain ⟨hresult, hbare, hI', γ, ha₂, h₂⟩ :=
    hk area' (hung.inside hopened h) hI ⟨hφ₁.own, hφ₁.around, hφ₁.parent, hφ₁.known⟩
  have hrun' : (F >>= k) s = k area' { s with tree := t } := by
    rw [show (F >>= k) s = k (F s).1 (F s).2 from rfl, hrun]
  rw [hrun']
  exact ⟨hresult, hbare, hI', _, hung.around_adds hopened h ha₂,
    hung.around_scene hopened h ha₂ h₂⟩

end Follows

end SchemaForms
