import SchemaForms.Proofs.Form.Proper
import SchemaForms.Proofs.Form.Sharing

/-!
Making: the controls that a step makes, in the order in which it makes them.  No step changes a
control that is there, and what is made for a section ends up below it.
-/

namespace SchemaForms

open Grove (ids graft both at? erase relabel)
open Relation (TransGen)
open Synthesis

/-- The control of a node is a repeat. -/
def NodeKind.isRepeat (k : NodeKind) : Bool := k.control?.any (·.kind.isRepeat)

/-- The number of repeats in some trees. -/
def Forest.repeats (f : Forest NodeKind) : Nat := f.labels.countP NodeKind.isRepeat

theorem NodeKind.control?_eq_some {k : NodeKind} {c : Control} :
    k.control? = some c ↔ k = .control c := by
  cases k <;> simp [NodeKind.control?]

/-- What markup does not count is counted in a grove and in its erasure alike. -/
theorem Grove.countP_erase {p : NodeKind → Bool} (hp : ∀ k : NodeKind, k.isMarkup → p k = false)
    (f : Grove) : (erase f).labels.countP p = f.labels.countP fun a => p a.2 := by
  induction f with
  | nil => rfl
  | cons a b r ihb ihr =>
    rw [Grove.erase, Forest.labels_cons, List.countP_cons, List.countP_append, ← ihb, ← ihr]
    split
    · next hm => simp [hp _ hm]
    · rw [Forest.labels_cons, List.countP_cons, List.countP_append]

namespace Tree

variable {t t' t'' : Tree} {n : NodeId} {c : Control} {made made' : List (NodeId × Control)}

/-- The controls from a number on, in the order in which they were made. -/
def controlsSince (t : Tree) (start : Nat) : List (NodeId × Control) :=
  (List.range' start (t.size - start)).filterMap fun i =>
    (t.control? ⟨i⟩).map fun c => (⟨i⟩, c)

/-- The number of repeats among them. -/
def repeatsSince (t : Tree) (start : Nat) : Nat :=
  (t.controlsSince start).countP (·.2.kind.isRepeat)

theorem lt_of_control? (h : t.control? n = some c) : n.index < t.size := by
  apply Nat.lt_of_not_le
  intro hle
  rw [control?, kind, node_of_le hle] at h
  cases h

theorem mem_controlsSince {start : Nat} :
    (n, c) ∈ t.controlsSince start ↔ start ≤ n.index ∧ t.control? n = some c := by
  simp only [controlsSince, List.mem_filterMap, List.mem_range'_1, Option.map_eq_some_iff,
    Prod.mk.injEq]
  constructor
  · rintro ⟨i, ⟨hle, -⟩, c', hc, rfl, rfl⟩
    exact ⟨hle, hc⟩
  · rintro ⟨hle, hc⟩
    have hlt := lt_of_control? hc
    exact ⟨n.index, ⟨hle, by omega⟩, c, hc, rfl, rfl⟩

theorem nodup_controlsSince (t : Tree) (start : Nat) : (t.controlsSince start).Nodup := by
  refine List.Nodup.filterMap (fun i j a hi hj => ?_) (List.nodup_range' 1)
  simp only [Option.mem_def, Option.map_eq_some_iff] at hi hj
  obtain ⟨c, -, rfl⟩ := hi
  obtain ⟨c', -, heq⟩ := hj
  exact congrArg (fun a : NodeId × Control => a.1.index) heq.symm

/-- Controls are made and those that were there stay as they are. -/
structure Makes (t t' : Tree) (made : List (NodeId × Control)) : Prop where
  size_le : t.size ≤ t'.size
  kept : ∀ n, n.index < t.size → t'.control? n = t.control? n
  since : t'.controlsSince t.size = made

/-- What has been made from a number on is what there was, and behind it what is made now. -/
theorem Makes.controlsSince_eq (h : Makes t t' made) {start : Nat} (hstart : start ≤ t.size) :
    t'.controlsSince start = t.controlsSince start ++ made := by
  have hsize := h.size_le
  have hrange := List.range'_append_1 (s := start) (m := t.size - start) (n := t'.size - t.size)
  rw [Nat.add_sub_cancel' hstart,
    show t.size - start + (t'.size - t.size) = t'.size - start by omega] at hrange
  rw [controlsSince, ← hrange, List.filterMap_append, ← h.since]
  congr 1
  refine List.filterMap_congr fun i hi => ?_
  rw [List.mem_range'_1] at hi
  rw [h.kept ⟨i⟩ (by change i < t.size; omega)]

theorem Makes.trans (h : Makes t t' made) (h' : Makes t' t'' made') :
    Makes t t'' (made ++ made') where
  size_le := Nat.le_trans h.size_le h'.size_le
  kept n hn := (h'.kept n (Nat.lt_of_lt_of_le hn h.size_le)).trans (h.kept n hn)
  since := by rw [h'.controlsSince_eq h.size_le, h.since]

theorem makes_of_same (hsize : t'.size = t.size) (h : ∀ n, t'.control? n = t.control? n) :
    Makes t t' [] where
  size_le := Nat.le_of_eq hsize.symm
  kept n _ := h n
  since := by rw [controlsSince, hsize, Nat.sub_self, List.range'_zero, List.filterMap_nil]

theorem Makes.refl (t : Tree) : Makes t t [] := makes_of_same rfl fun _ => rfl

theorem makes_append (t : Tree) (p n : NodeId) : Makes t (t.append p n) [] :=
  makes_of_same (size_append ..) fun m => by rw [control?, control?, kind_append]

theorem makes_create (t : Tree) (k : NodeKind) :
    Makes t (t.create k).2 (k.control?.toList.map fun c => (⟨t.size⟩, c)) where
  size_le := Nat.le_of_lt (Nat.lt_of_lt_of_eq (Nat.lt_succ_self _) (size_create ..).symm)
  kept n hn := by
    rw [control?, kind, node_create, if_neg]
    · rfl
    · rintro rfl
      exact Nat.lt_irrefl _ hn
  since := by
    have hnew : (t.create k).2.control? ⟨t.size⟩ = k.control? := by
      rw [control?, kind, node_create]
      exact congrArg (fun n : Node => n.kind.control?) (if_pos rfl)
    rw [controlsSince, size_create, Nat.add_sub_cancel_left, List.range'_one,
      List.filterMap_cons, hnew]
    cases k.control? <;> rfl

theorem makes_control (t : Tree) (c : Control) :
    Makes t (t.create (.control c)).2 [(⟨t.size⟩, c)] := makes_create t (.control c)

end Tree

open SchemaForms.Tree (Makes)

namespace Layout

theorem makes_place {l : Layout} {box : Option Markup} (hl : l.Boxes box) (area n : NodeId)
    (t : Tree) : Makes t (l.place area n t) [] := by
  rw [place, hl.control]
  cases box with
  | none => exact Tree.makes_append t area n
  | some m =>
    have hbox := (Tree.makes_create t (.markup m)).trans (Tree.makes_append _ ⟨t.size⟩ n)
    exact hbox.trans (Tree.makes_append _ area ⟨t.size⟩)

end Layout

namespace Generator

variable {g : Generator} {box : Option Markup} (hg : g.layout.Boxes box)

/-! What the steps make that the generator adds controls with. -/

theorem makes_addBind (scope : NodeId) (b : Bind) (nodeset : String) (s : Synthesis) :
    Makes s.tree (addBind scope b nodeset s).2.tree [] :=
  (Tree.makes_create s.tree (.bind (nextBind s b nodeset))).trans (Tree.makes_append _ scope _)

theorem makes_addTriggers (container : NodeId) (cs : List Control) (s : Synthesis) :
    ∃ row, Makes s.tree (addTriggers container cs s).2.tree row ∧ row.map (·.2) = cs := by
  induction cs generalizing s with
  | nil => exact ⟨[], .refl _, rfl⟩
  | cons c cs ih =>
    obtain ⟨row, hrow, rfl⟩ := ih { s with tree := s.tree.add container (.control c) }
    exact ⟨_, ((Tree.makes_control s.tree c).trans (Tree.makes_append _ container _)).trans hrow, rfl⟩

include hg

theorem contentOf_run (n : NodeId) (s : Synthesis) : g.contentOf n s = (n, s) := by
  change ((g.layout.groupContent n s.tree).1,
    { s with tree := (g.layout.groupContent n s.tree).2 }) = _
  rw [hg.content]

theorem makes_addControl (area : NodeId) (c : Control) (s : Synthesis) :
    Makes s.tree (g.addControl area c s).2.tree [(⟨s.tree.size⟩, c)] :=
  (Tree.makes_control s.tree c).trans (Layout.makes_place hg area _ _)

theorem makes_addTriggerRow (area : NodeId) (cs : List Control) (s : Synthesis) :
    ∃ row, Makes s.tree (g.addTriggerRow area cs s).2.tree row ∧ row.map (·.2) = cs := by
  cases cs with
  | nil => exact ⟨[], .refl _, rfl⟩
  | cons c cs =>
    let first := (s.tree.create (.control c)).2
    obtain ⟨row, hrow, rfl⟩ := makes_addTriggers
      (if (g.layout.control ⟨s.tree.size⟩ first).1 = ⟨s.tree.size⟩ then area
        else (g.layout.control ⟨s.tree.size⟩ first).1) cs
      { s with tree := g.layout.place area ⟨s.tree.size⟩ first }
    exact ⟨_, (makes_addControl hg area c s).trans hrow, rfl⟩

/-- A repeat is made before its triggers. -/
theorem makes_behindRow (area : NodeId) (c : Control) (cs : List Control) (s : Synthesis) :
    let added := (do
      let node ← create (.control c)
      g.addTriggerRow area cs
      g.place area node
      g.contentOf node : Synth NodeId) s
    added.1 = ⟨s.tree.size⟩ ∧ ∃ row,
      Makes s.tree added.2.tree ((⟨s.tree.size⟩, c) :: row) ∧ row.map (·.2) = cs := by
  let s₁ : Synthesis := { s with tree := (s.tree.create (.control c)).2 }
  obtain ⟨row, hrow, hcs⟩ := makes_addTriggerRow hg area cs s₁
  let s₂ := (g.addTriggerRow area cs s₁).2
  have hplaced : Makes s₂.tree (g.place area ⟨s.tree.size⟩ s₂).2.tree [] :=
    Layout.makes_place hg area _ _
  change (g.contentOf ⟨s.tree.size⟩ (g.place area ⟨s.tree.size⟩ s₂).2).1 = ⟨s.tree.size⟩ ∧ ∃ row,
    Makes s.tree (g.contentOf ⟨s.tree.size⟩ (g.place area ⟨s.tree.size⟩ s₂).2).2.tree
      ((⟨s.tree.size⟩, c) :: row) ∧ row.map (·.2) = cs
  rw [contentOf_run hg]
  have hall := ((Tree.makes_control s.tree c).trans hrow).trans hplaced
  rw [List.append_nil] at hall
  exact ⟨rfl, row, hall, hcs⟩

end Generator

/-! What steps make in a scene. -/

section Scenes

variable {s s' : Synthesis} {f : Grove} {scope area top : NodeId} {d d' : Draft} {γ : Growth}

theorem Adds.root_eq (ha : Adds s s' f scope area d d' γ) (h : Scene s f scope area d) :
    s'.tree.root = s.tree.root := by
  obtain ⟨a, b, rfl, hroot⟩ := h.world.shows.root
  obtain ⟨a', b', heq, hroot'⟩ := ha.shows.root
  have htops := congrArg Grove.tops heq
  rw [Growth.on, Grove.tops_relabel, Grove.tops_graft, Grove.tops_tree, Grove.tops_tree] at htops
  rw [hroot, hroot', (List.cons.inj htops).1]

theorem Adds.at?_area (ha : Adds s s' f scope area d d' γ) (h : Scene s f scope area d) :
    ∃ k below, at? area (γ.on scope area f) = some (k, below ++ γ.controls) := by
  obtain ⟨⟨k, b⟩, hat⟩ := Grove.at?_eq_some_of_mem h.area_mem
  have hgraft := Grove.at?_graft (h := both scope γ.binds area γ.controls) hat fun y _ =>
    ha.not_mem_both h h.area_mem y
  have harea : both scope γ.binds area γ.controls area = γ.controls := by
    rw [both, if_neg h.ne.symm, if_pos rfl]
  refine ⟨γ.cast area k, relabel γ.cast (graft (both scope γ.binds area γ.controls) b), ?_⟩
  rw [Growth.on, Grove.at?_relabel, hgraft, harea, Option.map_some, Grove.relabel_append,
    ha.cast_new h ha.newControls]

/-- Of the nodes of the arena, those that were there before are those of the grove. -/
theorem Adds.mem_of_lt (ha : Adds s s' f scope area d d' γ) (hr : s'.tree.Rooted top)
    {n : NodeId} (hn : n.index < s.tree.size) (hlt : n.index < s'.tree.size) : n ∈ ids f := by
  have hm := ha.shows.mem_ids hr hlt
  rw [Growth.on, Grove.ids_relabel, Grove.mem_ids_graft] at hm
  refine hm.resolve_right ?_
  rintro ⟨x, -, hx⟩
  unfold both at hx
  split at hx
  · exact Nat.not_lt.2 (ha.newBinds n hx) hn
  · split at hx
    · exact Nat.not_lt.2 (ha.newControls n hx) hn
    · cases hx

/-- A control that is new is one of those that were added to the section. -/
theorem Adds.mem_controls_iff (ha : Adds s s' f scope area d d' γ) (h : Scene s f scope area d)
    (hr : s'.tree.Rooted top) {n : NodeId} {c : Control} :
    (n, NodeKind.control c) ∈ γ.controls.labels ↔
      s.tree.size ≤ n.index ∧ s'.tree.control? n = some c := by
  obtain ⟨k, below, hat⟩ := ha.at?_area h
  have hlinks := (Tree.links_append.1 (Tree.links_at? ha.shows.links hat).2.2).2
  constructor
  · intro hm
    refine ⟨ha.newControls n (List.mem_map_of_mem (f := Prod.fst) hm), ?_⟩
    rw [Tree.control?, Tree.kind_of_mem_labels hlinks hm]
    rfl
  · rintro ⟨hle, hc⟩
    have hm := ha.shows.mem_ids hr (Tree.lt_of_control? hc)
    rw [Growth.on, Grove.ids_relabel, Grove.mem_ids_graft] at hm
    obtain ⟨x, -, hx⟩ := hm.resolve_left fun hold => Nat.not_lt.2 hle (h.lt hold)
    unfold both at hx
    split at hx
    · -- the new binds are no controls
      obtain ⟨kScope, belowScope, hatScope, -⟩ := h.scopeAt.here
      have hscope := ha.at?_scope h hatScope
      have hbinds := (Tree.links_append.1 (Tree.links_at? ha.shows.links hscope).2.2).2
      obtain ⟨⟨n', kind⟩, ha', rfl⟩ := List.mem_map.1 hx
      rw [Tree.control?, Tree.kind_of_mem_labels hbinds ha'] at hc
      have hbind := ha.bindsOnly _ ha'
      cases kind with
      | bind b => cases hc
      | _ => cases hbind
    · split at hx
      · obtain ⟨⟨n', kind⟩, ha', rfl⟩ := List.mem_map.1 hx
        rw [Tree.control?, Tree.kind_of_mem_labels hlinks ha'] at hc
        cases kind with
        | control c' =>
          cases hc
          exact ha'
        | _ => cases hc
      · cases hx

/-- What hangs in a section was there or is what was added to it. -/
theorem Adds.hangs (ha : Adds s s' f scope area d d' γ) (h : Scene s f scope area d) {n : NodeId}
    (hn : n ∈ ids γ.controls) : TransGen s'.tree.HangsIn n area := by
  obtain ⟨k, below, hat⟩ := ha.at?_area h
  have hlinks := (Tree.links_append.1 (Tree.links_at? ha.shows.links hat).2.2).2
  exact hlinks.hangs hn

theorem Adds.kept (ha : Adds s s' f scope area d d' γ) (h : Scene s f scope area d)
    (hr : s'.tree.Rooted top) {n : NodeId} (hn : n.index < s.tree.size) :
    s'.tree.control? n = s.tree.control? n := by
  have hm := ha.mem_of_lt hr hn (Nat.lt_of_lt_of_le hn ha.size_le)
  rw [Tree.control?, Tree.kind, ha.node_eq h hm, Tree.control?]
  dsimp only
  cases hk : s.tree.kind n with
  | bind b =>
    obtain ⟨b', hb', -⟩ := ha.recasts.bind n b
    rw [hb']
    rfl
  | _ => rw [ha.recasts.other n _ rfl]

/-- The new controls are those added to the section, in another order. -/
theorem Adds.perm_controls (ha : Adds s s' f scope area d d' γ) (h : Scene s f scope area d)
    (hr : s'.tree.Rooted top) : (s'.tree.controlsSince s.tree.size).Perm
      (γ.controls.labels.filterMap fun a => a.2.control?.map fun c => (a.1, c)) := by
  obtain ⟨k, below, hat⟩ := ha.at?_area h
  have hnodup := ha.shows.nodup.sublist (Grove.sublist_of_at? hat)
  rw [Grove.ids_append] at hnodup
  have hids : (ids γ.controls).Nodup := (List.nodup_append.1 (List.nodup_cons.1 hnodup).2).2.1
  have hmade : (γ.controls.labels.filterMap fun a =>
      a.2.control?.map fun c => (a.1, c)).Nodup := by
    refine List.Nodup.filterMap ?_ (List.Nodup.of_map _ hids)
    rintro ⟨x, k⟩ ⟨x', k'⟩ b hb hb'
    simp only [Option.mem_def, Option.map_eq_some_iff, NodeKind.control?_eq_some] at hb hb'
    obtain ⟨c, rfl, rfl⟩ := hb
    obtain ⟨c', rfl, heq⟩ := hb'
    cases heq
    rfl
  rw [List.perm_ext_iff_of_nodup (Tree.nodup_controlsSince ..) hmade]
  rintro ⟨n, c⟩
  rw [Tree.mem_controlsSince, ← ha.mem_controls_iff h hr]
  simp [NodeKind.control?_eq_some]

/-- In a scene, all controls that a step makes hang in the section, and there are as many repeats
among them as have been drafted. -/
theorem Adds.makes (ha : Adds s s' f scope area d d' γ) (h : Scene s f scope area d)
    (hr : s'.tree.Rooted top) : ∃ made, Makes s.tree s'.tree made ∧
      (∀ a ∈ made, TransGen s'.tree.HangsIn a.1 area) ∧
      made.countP (·.2.kind.isRepeat) = (erase γ.controls).repeats := by
  refine ⟨_, ⟨ha.size_le, fun n hn => ha.kept h hr hn, rfl⟩, ?_, ?_⟩
  · rintro ⟨n, c⟩ hm
    have hlabel := (ha.mem_controls_iff h hr).2 (Tree.mem_controlsSince.1 hm)
    exact ha.hangs h (List.mem_map_of_mem (f := Prod.fst) hlabel)
  · rw [(ha.perm_controls h hr).countP_eq, List.countP_filterMap,
      Forest.repeats, Grove.countP_erase fun k hk => ?_]
    · refine List.countP_congr fun a _ => ?_
      cases hc : a.2.control? <;> simp [NodeKind.isRepeat, hc]
    · cases k with
      | markup => rfl
      | _ => cases hk

end Scenes

end SchemaForms
