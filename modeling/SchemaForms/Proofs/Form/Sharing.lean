import SchemaForms.Proofs.Form.Sources

/-!
Sharing: copying the control of a bind that an earlier case has made, and making the binds of a case
relevant for its types.
-/

namespace SchemaForms

open Grove (ids graft only both at? tops erase bounds relabel bindTops lastOf kidsOf Recasts boxed)
open Forest (tree leaf)
open Sketch (share guardKid guardKids)

namespace Tree

theorem kind_of_mem_labels {t : Tree} {parent : Option NodeId} {f : Grove} (h : t.Links parent f)
    {a : NodeId × NodeKind} (ha : a ∈ f.labels) : t.kind a.1 = a.2 := by
  induction f generalizing parent with
  | nil => cases ha
  | cons c b r ihb ihr =>
    obtain ⟨hc, hb, hr⟩ := h
    simp only [Forest.labels_cons, List.mem_cons, List.mem_append] at ha
    rcases ha with rfl | ha | ha
    · rw [kind, hc]
    · exact ihb hb ha
    · exact ihr hr ha

/-- The first control of a bind is the first one in document order. -/
theorem Shows.findBoundTo {t : Tree} {f : Grove} (h : t.Shows f) (bindId : String) :
    t.findBoundTo bindId = (f.labels.find? (·.2.isBoundTo bindId)).map (·.1) := by
  rw [Tree.findBoundTo, h.walk, ids, List.find?_map]
  rw [← List.head?_filter, ← List.head?_filter, List.filter_congr fun a ha => ?_]
  rw [Function.comp_apply, Tree.control?, kind_of_mem_labels h.links ha]
  rfl

end Tree

section Notes

variable {s s' : Synthesis} {f : Grove} {scope area : NodeId} {d : Draft} {kids : List Kid}

/-- A step that changes the notes alone: which kids are shared. -/
structure Renotes (s s' : Synthesis) (f : Grove) (scope : NodeId) (d : Draft) (kids : List Kid) :
    Prop where
  tree : s'.tree = s.tree
  ids : s'.ids = s.ids
  reused : ∀ x ∈ s'.reused, x.index < s.tree.size
  other : ∀ x, x.index < s.tree.size → x ∉ kidsOf scope f → (x ∈ s'.reused ↔ x ∈ s.reused)
  draws : ∀ k below, at? scope f = some (k, below) → Draws s' below kids
  same : ∀ kid ∈ kids, ∃ old ∈ d.kids, old.bind = kid.bind ∧ old.source = kid.source

theorem Renotes.adds (hr : Renotes s s' f scope d kids) (h : Scene s f scope area d) :
    Adds s s' f scope area d { d with kids := kids } {} := by
  have hstill : Adds s { s with reused := s.reused } f scope area d d {} :=
    .still h.world.shows rfl rfl (.refl _) rfl
  refine { hstill with
    shows := hr.tree ▸ hstill.shows
    size_le := Nat.le_of_eq (congrArg Tree.size hr.tree.symm)
    before := by rw [hr.ids]; exact .refl _
    refs := fun a ha => by cases ha
    fresh := fun kid hkid => ?_
    reused := hr.other }
  obtain ⟨old, hold, hbind, hsource⟩ := hr.same kid hkid
  exact .inl ⟨old, hold, by rw [hbind], by rw [hsource]; exact id⟩

/-- A scene when other kids are noted as shared. -/
theorem Scene.renote (h : Scene s f scope area d) (htree : s'.tree = s.tree) (hids : s'.ids = s.ids)
    (hreused : ∀ x ∈ s'.reused, x.index < s.tree.size)
    (hdraws : ∀ k below, at? scope f = some (k, below) → Draws s' below kids)
    (hsame : ∀ kid ∈ kids, ∃ old ∈ d.kids, old.bind = kid.bind ∧ old.source = kid.source) :
    Scene s' f scope area { d with kids := kids } := by
  obtain ⟨k, below, hat, hown, -, harea⟩ := h.scopeAt.here
  have houter := h.scopeAt.outer
  rw [← htree] at hreused houter
  refine ⟨⟨htree ▸ h.world.shows, fun a ha id hid => hids ▸ h.world.refs a ha id hid, hreused⟩,
    ⟨⟨k, below, hat, hown, hdraws k below hat, harea⟩, houter⟩, h.area_mem, h.ne, h.opened, ?_,
    fun id hid => ?_⟩
  · intro kid hkid k' below' hs
    obtain ⟨old, hold, hbind, hsource⟩ := hsame kid hkid
    have := h.sourced old hold k' below' (hsource.trans hs)
    rwa [hbind] at this
  · rw [hids]
    refine h.given id ?_
    simp only [Draft.names, List.mem_append] at hid ⊢
    refine hid.imp_right fun hid => ?_
    obtain ⟨kid, hkid, rfl⟩ := List.mem_map.1 hid
    obtain ⟨old, hold, hbind, -⟩ := hsame kid hkid
    exact hbind ▸ List.mem_map_of_mem hold

theorem Renotes.scene (hr : Renotes s s' f scope d kids) (h : Scene s f scope area d) :
    Scene s' f scope area { d with kids := kids } :=
  h.renote hr.tree hr.ids hr.reused hr.draws hr.same

end Notes

/-! Reuse. -/

theorem get_bind {α : Type} (k : Synthesis → Synth α) (s : Synthesis) :
    (get >>= k : Synth α) s = k s s := rfl

theorem Grove.tops_sublist (f : Grove) : (tops f).Sublist (ids f) := by
  induction f with
  | nil => exact .slnil
  | cons a b r _ ih =>
    rw [tops_cons, ids_cons]
    exact (ih.trans (List.sublist_append_right ..)).cons_cons _

theorem mem_share {nodeset : String} {kids : List Kid} {kid : Kid} (h : kid ∈ share nodeset kids) :
    ∃ old ∈ kids, old.bind = kid.bind ∧ old.source = kid.source := by
  induction kids with
  | nil => cases h
  | cons k kids ih =>
    rw [share] at h
    split at h
    · rcases List.mem_cons.1 h with rfl | h
      · exact ⟨k, List.mem_cons_self .., rfl, rfl⟩
      · exact ⟨kid, List.mem_cons_of_mem _ h, rfl, rfl⟩
    · rcases List.mem_cons.1 h with rfl | h
      · exact ⟨kid, List.mem_cons_self .., rfl, rfl⟩
      · obtain ⟨old, hold, hsame⟩ := ih h
        exact ⟨old, List.mem_cons_of_mem _ hold, hsame⟩

/-- Looking among the nodes for the bind with a nodeset finds the kid with the nodeset. -/
theorem Draws.childBind {s : Synthesis} {f : Grove} {kids : List Kid} (h : Draws s f kids)
    (hnodup : (tops f).Nodup) {p : Option NodeId} (hlinks : s.tree.Links p f) (nodeset : String) :
    let look := Generator.bindWith s.tree nodeset
    (kids.find? (·.bind.nodeset = nodeset) = none ∧ (tops f).findSome? look = none) ∨
      ∃ kid c, kids.find? (·.bind.nodeset = nodeset) = some kid ∧ c ∈ tops f ∧
        (tops f).findSome? look = some ⟨c, kid.bind.id⟩ ∧
        ∀ s' : Synthesis, (∀ x ∈ tops f, x ∈ s'.reused ↔ x = c ∨ x ∈ s.reused) →
          Draws s' f (share nodeset kids) := by
  intro look
  induction f generalizing kids with
  | nil =>
    rw [show kids = [] from h]
    exact .inl ⟨rfl, rfl⟩
  | cons a b r _ ih =>
    obtain ⟨ha, -, hr⟩ := hlinks
    obtain ⟨hnew, hnodup⟩ := List.nodup_cons.1 hnodup
    have hbind : s.tree.bind? a.1 = a.2.bind? := by rw [Tree.bind?, Tree.kind, ha]
    simp only [Draws] at h ⊢
    rw [Grove.tops_cons, List.findSome?_cons]
    cases hak : a.2.bind? with
    | none =>
      rw [hak] at h
      have hlook : look a.1 = none := by
        simp only [look, Generator.bindWith, hbind, hak]
      rw [hlook]
      rcases ih h.2 hnodup hr with hnone | ⟨kid, c, hkid, hc, hfound, hshare⟩
      · exact .inl hnone
      · refine .inr ⟨kid, c, hkid, List.mem_cons_of_mem _ hc, hfound, fun s' hs' => ⟨?_,
          hshare s' fun x hx => hs' x (List.mem_cons_of_mem _ hx)⟩⟩
        rw [hs' a.1 (List.mem_cons_self ..)]
        exact fun hm => hm.elim (fun he : a.1 = c => hnew (he.symm.subst hc)) h.1
    | some own =>
      rw [hak] at h
      obtain ⟨kid, rest, rfl, rfl, hbelow, hshared, hrest⟩ := h
      have hlook : look a.1 = if kid.bind.nodeset = nodeset then some ⟨a.1, kid.bind.id⟩
          else none := by
        simp only [look, Generator.bindWith, hbind, hak]
      rw [hlook, List.find?_cons]
      by_cases hset : kid.bind.nodeset = nodeset
      · simp only [hset, if_true, decide_true]
        refine .inr ⟨kid, a.1, rfl, List.mem_cons_self .., rfl, fun s' hs' => ?_⟩
        refine ⟨{ kid with shared := true }, rest, by rw [share, if_pos hset], rfl, hbelow,
          iff_of_true ((hs' a.1 (List.mem_cons_self ..)).2 (.inl rfl)) rfl, hrest.congr ?_⟩
        intro x hx
        rw [hs' x (List.mem_cons_of_mem _ hx)]
        exact or_iff_right fun he : x = a.1 => hnew (he.subst hx)
      · simp only [hset, if_false, decide_false]
        rcases ih hrest hnodup hr with hnone | ⟨kid', c, hkid, hc, hfound, hshare⟩
        · exact .inl hnone
        · refine .inr ⟨kid', c, hkid, List.mem_cons_of_mem _ hc, hfound, fun s' hs' => ?_⟩
          refine ⟨kid, share nodeset rest, by rw [share, if_neg hset], rfl, hbelow, ?_,
            hshare s' fun x hx => hs' x (List.mem_cons_of_mem _ hx)⟩
          rw [hs' a.1 (List.mem_cons_self ..), ← hshared]
          exact or_iff_right fun he : a.1 = c => hnew (he.symm.subst hc)

theorem Synthesis.mem_noteReused (c : NodeId) (s : Synthesis) (x : NodeId) :
    x ∈ (noteReused c s).2.reused ↔ x = c ∨ x ∈ s.reused := by
  change x ∈ (if s.reused.contains c then s else { s with reused := s.reused ++ [c] }).reused ↔ _
  split
  · next hc => exact ⟨.inr, fun hx => hx.elim (fun he => he ▸ List.contains_iff_mem.1 hc) id⟩
  · simp [or_comm]

theorem Synthesis.bare_noteReused (c : NodeId) (s : Synthesis) :
    (noteReused c s).2.bare = s.bare := by
  change (if s.reused.contains c then s else { s with reused := s.reused ++ [c] }).bare = _
  split <;> rfl

namespace Grove

theorem mem_labels_of_at? {f b : Grove} {x : NodeId} {k : NodeKind} (h : at? x f = some (k, b))
    {a : NodeId × NodeKind} (ha : a ∈ (tree (x, k) b).labels) : a ∈ f.labels := by
  rw [at?, Option.map_eq_some_iff] at h
  obtain ⟨⟨⟨y, k'⟩, b'⟩, hfind, he⟩ := h
  cases he
  obtain ⟨hmem, hsub, hy⟩ := Forest.find_mem hfind
  rw [tree, Forest.labels_cons, Forest.labels_nil, List.append_nil, List.mem_cons] at ha
  rcases ha with rfl | ha
  · exact of_decide_eq_true hy ▸ hmem
  · exact hsub a ha

/-- A copied control is bound as the one it is copied from. -/
theorem exists_bound_of_copy {f : Grove} {given : Identifiers} {k : NodeKind} {bindId : String}
    (hk : k ∈ ((erase f).copy given).1.labels) (hid : k.isBoundTo bindId) :
    ∃ a ∈ f.labels, a.2.isBoundTo bindId := by
  have hmem : k.control?.bind (·.bind) ∈
      (((erase f).copy given).1.map (·.control?.bind (·.bind))).labels := by
    rw [Forest.labels_map]
    exact List.mem_map_of_mem hk
  rw [Forest.map_bound_copy, Forest.labels_map] at hmem
  obtain ⟨k₀, hk₀, he⟩ := List.mem_map.1 hmem
  obtain ⟨a, ha, rfl⟩ := mem_of_mem_erase hk₀
  exact ⟨a, ha, by rw [NodeKind.isBoundTo, he]; exact hid⟩

end Grove

section Copying

variable {s : Synthesis} {f below : Grove} {scope area x c : NodeId} {d : Draft} {k : NodeKind}

/-- A copy of a part of the arena has been hung into the section. -/
theorem Scene.hung_copy (h : Scene s f scope area d) {g : Generator} {box : Option Markup}
    (hg : g.layout.Boxes box) (hx : at? x f = some (k, below))
    (hbinds : ∀ a ∈ (tree (x, k) below).labels, a.2.bind? = none) :
    let copied := s.tree.deepCopy s.ids x
    let s₁ : Synthesis := { s with
      tree := g.layout.place area copied.1 copied.2.1, ids := copied.2.2 }
    let expected := (erase (tree (x, k) below)).copy s.ids
    ∃ copy, Hung s s₁ f area copy ∧ erase copy = expected.1 ∧ copied.2.2 = expected.2 := by
  intro copied s₁ expected
  obtain ⟨k', b', hfloat, hcopied, hids⟩ :=
    Tree.floats_copy h.world.shows.toHolds hx hbinds s.ids
  have hbefore : s.ids.Before copied.2.2 := by
    rw [hids]
    exact before_copyAll _ ⟨s.ids, .empty⟩
  refine ⟨_, ⟨hfloat.place hg h.area_mem, rfl, hbefore, fun k hk id hid => ?_⟩,
    (Grove.erase_boxed ..).trans hcopied, hids⟩
  rw [Grove.erase_boxed, hcopied] at hk
  obtain ⟨a, ha, hbound⟩ := Grove.exists_bound_of_copy hk hid
  refine (h.world.refs a (List.mem_filter.2 ⟨Grove.mem_labels_of_at? hx ha, ?_⟩) id hbound).mono
    hbefore
  rw [NodeKind.isBound, eq_of_beq hbound]
  rfl

/-- Noting a kid as copied. -/
theorem Scene.noted (h : Scene s f scope area d) (hc : c ∈ kidsOf scope f) {nodeset : String}
    (hshare : ∀ k below, at? scope f = some (k, below) → ∀ s' : Synthesis,
      (∀ x ∈ tops below, x ∈ s'.reused ↔ x = c ∨ x ∈ s.reused) →
        Draws s' below (share nodeset d.kids)) :
    Renotes s (Synthesis.noteReused c s).2 f scope d (share nodeset d.kids) := by
  have hreused := Synthesis.mem_noteReused c s
  have hrun : (Synthesis.noteReused c s).2 =
      if s.reused.contains c then s else { s with reused := s.reused ++ [c] } := rfl
  refine ⟨?_, ?_, fun x hx => ?_, fun x _ hx => ?_, fun k below hat => ?_, fun kid => mem_share⟩
  · rw [hrun]
    split <;> rfl
  · rw [hrun]
    split <;> rfl
  · rcases (hreused x).1 hx with rfl | hx
    · exact h.lt (Grove.mem_of_mem_kidsOf hc)
    · exact h.world.reused x hx
  · rw [hreused]
    exact or_iff_right fun he => hx (he ▸ hc)
  · exact hshare k below hat _ fun x _ => hreused x

/-- What is done where a control is to be reused: nothing if there is no bind with the nodeset;
otherwise the control at a node is copied in the arena, and what the sketch logs is the tree that
hangs there, with that of the copy. -/
theorem Scene.reuse_cases (h : Scene s f scope area d) {g : Generator} {box : Option Markup}
    (hg : g.layout.Boxes box) (hsettled : Settled d.kids) (nodeset : String) :
    g.reuse ⟨scope, area⟩ nodeset s = (false, s) ∧
        Sketch.reuse nodeset d s.bare = ((false, d), s.bare) ∨
      ∃ c ∈ kidsOf scope f, ∃ x k below copy,
        let copied := s.tree.deepCopy s.ids x
        let s₁ : Synthesis := { s with
          tree := g.layout.place area copied.1 copied.2.1, ids := copied.2.2 }
        at? x f = some (k, below) ∧ Hung s s₁ f area copy ∧
        (∀ k below, at? scope f = some (k, below) → ∀ s' : Synthesis,
          (∀ y ∈ tops below, y ∈ s'.reused ↔ y = c ∨ y ∈ s.reused) →
            Draws s' below (share nodeset d.kids)) ∧
        g.reuse ⟨scope, area⟩ nodeset s = (true, (Synthesis.noteReused c s₁).2) ∧
        Sketch.reuse nodeset d s.bare =
          ((true, { d with
            controls := d.controls ++ erase copy
            kids := share nodeset d.kids
            copies := d.copies ++ [(erase (tree (x, k) below), erase copy)] }),
          { s.bare with ids := copied.2.2 }) := by
  obtain ⟨k, below, hat, -, hdraws, -⟩ := h.scopeAt.here
  obtain ⟨-, hchildren, hlinks⟩ := Tree.links_at? h.world.shows.links hat
  have hnodup : (tops below).Nodup := by
    have := h.world.shows.nodup.sublist (Grove.sublist_of_at? hat)
    exact (List.nodup_cons.1 this).2.sublist (Grove.tops_sublist below)
  have hchild : Generator.childBind s.tree scope nodeset =
      (tops below).findSome? (Generator.bindWith s.tree nodeset) := by
    rw [Generator.childBind, hchildren]
  rcases hdraws.childBind hnodup hlinks nodeset with
    ⟨hkid, hnone⟩ | ⟨kid, c, hkid, hc, hfound, hshare⟩
  · rw [hnone] at hchild
    refine .inl ⟨?_, ?_⟩
    · rw [Generator.reuse, get_bind, hchild]
      rfl
    · rw [Sketch.reuse, hkid]
      rfl
  · rw [hfound] at hchild
    have hkidMem := List.mem_of_find?_eq_some hkid
    obtain ⟨⟨k₀, below₀⟩, hsource⟩ := Option.isSome_iff_exists.1 (hsettled kid hkidMem)
    obtain ⟨x, b, hfind, hatx, herase, hbinds, -, -⟩ := h.sourced kid hkidMem k₀ below₀ hsource
    have hbound : s.tree.findBoundTo kid.bind.id = some x := by
      rw [h.world.shows.findBoundTo, hfind]
      rfl
    obtain ⟨copy, hung, hcopied, hids⟩ := h.hung_copy hg hatx hbinds
    refine .inr ⟨c, by rwa [Grove.kidsOf_eq hat], x, k₀, b, copy, hatx, hung, ?_, ?_, ?_⟩
    · intro k' below' hat'
      cases hat.symm.trans hat'
      exact hshare
    · rw [Generator.reuse, get_bind, hchild]
      dsimp only
      rw [get_bind, hbound]
      rfl
    · rw [herase] at hcopied hids ⊢
      rw [Sketch.reuse, hkid]
      dsimp only
      rw [hsource, hcopied, hids]
      rfl

end Copying

namespace Follows

variable {φ : Frame} {area : NodeId}

/-- Copying the control of a bind that is there. -/
theorem reuse {g : Generator} {box : Option Markup} (hg : g.layout.Boxes box) (nodeset : String) :
    Follows Settled φ area (g.reuse ⟨φ.scope, area⟩ nodeset) (Sketch.reuse nodeset) := by
  intro s grove d h hsettled hφ
  rcases h.reuse_cases hg hsettled nodeset with ⟨hrun, hskip⟩ |
    ⟨c, hc, x, k₀, b, copy, -, hung, hshare, hrun, hmade⟩
  · rw [hrun, hskip]
    exact ⟨rfl, rfl, hsettled, {}, .still h.world.shows rfl rfl (.refl _) rfl,
      by rwa [Growth.on_nil]⟩
  · have ha := hung.adds h
    have h₁ := hung.scene h
    rw [← Growth.on_controls h.ne] at h₁
    obtain ⟨k, below, hat, -⟩ := h.scopeAt.here
    have hatScope := ha.at?_scope h hat
    rw [Grove.relabel_eq_self fun _ _ _ => rfl, Forest.append_nil] at hatScope
    have hkid : c ∈ tops below := by rwa [Grove.kidsOf_eq hat] at hc
    have hnote := h₁.noted (by rwa [Grove.kidsOf_eq hatScope]) fun k' below' hat' => by
      cases hatScope.symm.trans hat'
      exact hshare k below hat
    let log := d.copies ++ [(erase (tree (x, k₀) b), erase copy)]
    have ha₂ := (hnote.adds h₁).record log
    have h₂ := (hnote.scene h₁).record log
    rw [hrun, hmade]
    refine ⟨rfl, Synthesis.bare_noteReused .., ?_, _, ha.trans h h₁ ha₂, ?_⟩
    · intro kid' hkid'
      obtain ⟨old, hold, -, hs⟩ := mem_share hkid'
      exact hs ▸ hsettled old hold
    · rw [← ha.on_on h h₁ ha₂, Growth.on_nil]
      exact h₂

end Follows

end SchemaForms
