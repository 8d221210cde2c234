import SchemaForms.Form.Generate
import SchemaForms.Proofs.Form.Copying

/-!
Hanging controls into a section.  A control that has just been made, or copied, floats: it hangs
nowhere yet.  Placing it grafts it, in its box if the layout has one, below the section.
-/

namespace SchemaForms

open Grove (ids graft only tops erase bounds)
open Forest (tree leaf)

namespace Layout

/-- The layout puts content directly into its group, and controls bare or each into one box. -/
structure Boxes (l : Layout) (box : Option Markup) : Prop where
  content : ∀ n t, l.groupContent n t = (n, t)
  control : ∀ n t, l.control n t = match box with
    | none => (n, t)
    | some m => (⟨t.size⟩, (t.create (.markup m)).2.append ⟨t.size⟩ n)

theorem plain_boxes : plain.Boxes none := ⟨fun _ _ => rfl, fun _ _ => rfl⟩

theorem page_boxes (stylesheet : String) (title : Option String) :
    (page stylesheet title).Boxes
      (some { name := "div", attributes := [("class", "xformsControl")] }) :=
  ⟨fun _ _ => rfl, fun _ _ => rfl⟩

/-- Puts a control into its container and that below a node. -/
def place (l : Layout) (area control : NodeId) (t : Tree) : Tree :=
  (l.control control t).2.append area (l.control control t).1

end Layout

namespace Grove

/-- Controls in their box, if there is one. -/
def boxed (box : Option Markup) (n : NodeId) (f : Grove) : Grove :=
  match box with
  | none => f
  | some m => tree (n, .markup m) f

theorem erase_boxed (box : Option Markup) (n : NodeId) (f : Grove) :
    erase (boxed box n f) = erase f := by
  cases box with
  | none => rfl
  | some m => exact erase_markup n m f

theorem bounds_boxed (box : Option Markup) (n : NodeId) (f : Grove) :
    bounds (boxed box n f) = bounds f := by
  cases box with
  | none => rfl
  | some m => exact (bounds_cons ..).trans (List.append_nil _)

theorem graft_boxed (box : Option Markup) {n x : NodeId} (hne : n ≠ x) (f g : Grove) :
    graft (only x g) (boxed box n f) = boxed box n (graft (only x g) f) := by
  cases box with
  | none => rfl
  | some m => simp [boxed, Forest.tree, only_of_ne hne]

theorem graft_boxed_self {m : Markup} {n : NodeId} {f g : Grove} (hn : n ∉ ids f) :
    graft (only n g) (boxed (some m) n f) = boxed (some m) n (f ++ g) := by
  have hf : graft (only n g) f = f :=
    graft_eq_self fun x hx => only_of_ne (fun he : x = n => hn (he ▸ hx)) g
  simp [boxed, Forest.tree, hf]

theorem subset_ids_boxed {box : Option Markup} {n x : NodeId} {f : Grove} (h : x ∈ ids f) :
    x ∈ ids (boxed box n f) := by
  cases box with
  | none => exact h
  | some m => exact (ids_tree ..).symm ▸ List.mem_cons_of_mem _ h

theorem bind?_of_isMarkup {k : NodeKind} (h : k.isMarkup) : k.bind? = none := by
  cases k with
  | markup m => rfl
  | _ => cases h

/-- The controls of binds in a grove are those in its erasure. -/
theorem bounds_kinds (f : Grove) :
    (bounds f).map (·.2) = (erase f).labels.filter (·.isBound) := by
  induction f with
  | nil => rfl
  | cons a b r ihb ihr =>
    rw [bounds_cons, List.map_append, List.map_append, ihb, ihr, erase]
    obtain ⟨x, k⟩ := a
    by_cases hm : k.isMarkup
    · have hnot : k.isBound = false := by
        cases k with
        | markup m => rfl
        | _ => cases hm
      simp [hm, hnot]
    · by_cases hk : k.isBound <;> simp [hm, hk]

theorem mem_labels_graft {h : NodeId → Grove} {f : Grove} {a : NodeId × NodeKind}
    (ha : a ∈ (graft h f).labels) : a ∈ f.labels ∨ ∃ x, a ∈ (h x).labels := by
  induction f with
  | nil => cases ha
  | cons c b r ihb ihr =>
    simp only [graft_cons, Forest.labels_cons, Forest.labels_append, List.mem_cons,
      List.mem_append] at ha ⊢
    rcases ha with rfl | (ha | ha) | ha
    · exact .inl (.inl rfl)
    · exact (ihb ha).imp_left fun ha => .inr (.inl ha)
    · exact .inr ⟨c.1, ha⟩
    · exact (ihr ha).imp_left fun ha => .inr (.inr ha)

theorem mem_labels_erase {f : Grove} {a : NodeId × NodeKind} (h : a ∈ f.labels) :
    a.2.isMarkup ∨ a.2 ∈ (erase f).labels := by
  induction f with
  | nil => cases h
  | cons c b r ihb ihr =>
    simp only [Forest.labels_cons, List.mem_cons, List.mem_append] at h
    rw [erase]
    split
    · next hm =>
      rw [Forest.labels_append, List.mem_append]
      rcases h with rfl | h | h
      · exact .inl hm
      · exact (ihb h).imp_right .inl
      · exact (ihr h).imp_right .inr
    · rw [Forest.labels_cons, List.mem_cons, List.mem_append]
      rcases h with rfl | h | h
      · exact .inr (.inl rfl)
      · exact (ihb h).imp_right fun h => .inr (.inl h)
      · exact (ihr h).imp_right fun h => .inr (.inr h)

theorem mem_of_mem_erase {f : Grove} {k : NodeKind} (h : k ∈ (erase f).labels) :
    ∃ a ∈ f.labels, a.2 = k := by
  induction f with
  | nil => cases h
  | cons c b r ihb ihr =>
    rw [erase] at h
    simp only [Forest.labels_cons, List.mem_cons, List.mem_append]
    split at h
    · rw [Forest.labels_append, List.mem_append] at h
      rcases h with h | h
      · obtain ⟨a, ha, hk⟩ := ihb h
        exact ⟨a, .inr (.inl ha), hk⟩
      · obtain ⟨a, ha, hk⟩ := ihr h
        exact ⟨a, .inr (.inr ha), hk⟩
    · rw [Forest.labels_cons, List.mem_cons, List.mem_append] at h
      rcases h with rfl | h | h
      · exact ⟨c, .inl rfl, rfl⟩
      · obtain ⟨a, ha, hk⟩ := ihb h
        exact ⟨a, .inr (.inl ha), hk⟩
      · obtain ⟨a, ha, hk⟩ := ihr h
        exact ⟨a, .inr (.inr ha), hk⟩

/-- Where a part of a grove lies, there lies what is below it. -/
theorem at?_of_at? {f b : Grove} {x y : NodeId} {k : NodeKind} (hf : (ids f).Nodup)
    (hx : at? x f = some (k, b)) (hy : y ∈ x :: ids b) : at? y f = at? y (tree (x, k) b) := by
  induction f with
  | nil => cases hx
  | cons a below after ihb iha =>
    simp only [ids_cons, List.nodup_cons, List.mem_append, not_or, List.nodup_append] at hf
    obtain ⟨⟨hab, haa⟩, hb, ha, hdisjoint⟩ := hf
    have hfound {g : Grove} (hg : y ∈ ids g) : (at? y g).isSome := by
      obtain ⟨z, hz⟩ := at?_eq_some_of_mem hg
      rw [hz]
      rfl
    have hsub {g : Grove} (hg : at? x g = some (k, b)) : y ∈ ids g :=
      (sublist_of_at? hg).subset hy
    have hcons : at? y (.cons a below after) =
        if a.1 = y then some (a.2, below) else (at? y below).or (at? y after) := by
      simp only [at?, Forest.find, decide_eq_true_eq]
      split <;> simp [Option.map_or]
    simp only [at?, Forest.find, decide_eq_true_eq] at hx
    split at hx
    · next he =>
      cases hx
      subst he
      have htree : at? y (tree (a.1, a.2) below) =
          if a.1 = y then some (a.2, below) else at? y below := by
        simp only [at?, Forest.tree, Forest.find, decide_eq_true_eq, Option.or_none]
        split <;> rfl
      rw [hcons, htree]
      split
      · rfl
      · next hne =>
        have := hfound ((List.mem_cons.1 hy).resolve_left (Ne.symm hne))
        obtain ⟨z, hz⟩ := Option.isSome_iff_exists.1 this
        rw [hz, Option.some_or]
    · rw [Option.map_or, Option.or_eq_some_iff] at hx
      rcases hx with hx | ⟨-, hx⟩
      · have hyb : y ∈ ids below := hsub hx
        obtain ⟨z, hz⟩ := Option.isSome_iff_exists.1 (hfound hyb)
        rw [hcons, if_neg fun he : a.1 = y => hab (he ▸ hyb), ← ihb hb hx, hz, Option.some_or]
      · have hya : y ∈ ids after := hsub hx
        have hnone : at? y below = none := by
          rw [at?, Forest.find_eq_none fun c hc => decide_eq_false fun he => ?_]
          · rfl
          · exact hdisjoint _ (List.mem_map_of_mem hc) _ hya he
        rw [hcons, if_neg fun he : a.1 = y => haa (he ▸ hya), hnone, Option.none_or, iha ha hx]

end Grove

open Grove (boxed)

namespace Tree

theorem Holds.swap {t : Tree} {f g h : Grove} (ht : t.Holds (f ++ g ++ h)) :
    t.Holds (f ++ h ++ g) where
  links := by
    have := ht.links
    simp only [links_append] at this ⊢
    exact ⟨⟨this.1.1, this.2⟩, this.1.2⟩
  nodup := by
    have hperm : (ids (f ++ h ++ g)).Perm (ids (f ++ g ++ h)) := by
      simp only [Grove.ids_append, List.append_assoc]
      exact List.perm_append_comm.append_left _
    exact hperm.nodup_iff.2 ht.nodup
  lt x hx := ht.lt x (by
    simp only [Grove.ids_append, List.mem_append] at hx ⊢
    rcases hx with (hx | hx) | hx
    · exact .inl (.inl hx)
    · exact .inr hx
    · exact .inl (.inr hx))

/-- Since the arena held a grove, controls have been hung below one of its nodes. -/
structure Hangs (t t' : Tree) (f : Grove) (area : NodeId) (g : Grove) : Prop where
  holds : t'.Holds (graft (only area g) f)
  root : t'.root = t.root
  size_le : t.size ≤ t'.size
  new : ∀ x ∈ ids g, t.size ≤ x.index
  controlsOnly : ∀ a ∈ g.labels, a.2.bind? = none

/-- Since the arena held a grove, a tree of controls has been made that hangs nowhere. -/
structure Floats (t t' : Tree) (f : Grove) (a : NodeId × NodeKind) (b : Grove) : Prop where
  holds : t'.Holds (f ++ tree a b)
  root : t'.root = t.root
  size_le : t.size ≤ t'.size
  new : ∀ x ∈ ids (tree a b), t.size ≤ x.index
  controlsOnly : ∀ c ∈ (tree a b).labels, c.2.bind? = none

variable {t t' t'' : Tree} {f g : Grove} {area : NodeId}

theorem floats_create (h : t.Holds f) {k : NodeKind} (hk : k.bind? = none) :
    Floats t (t.create k).2 f (⟨t.size⟩, k) .nil where
  holds := h.create k
  root := rfl
  size_le := Nat.le_of_lt (Nat.lt_of_lt_of_eq (Nat.lt_succ_self _) (size_create ..).symm)
  new x hx := by
    rw [Grove.ids_tree, Grove.ids_nil, List.mem_singleton] at hx
    exact Nat.le_of_eq (congrArg NodeId.index hx).symm
  controlsOnly c hc := by
    rcases List.mem_cons.1 hc with rfl | hc
    · exact hk
    · cases hc

theorem floats_copy {x : NodeId} {k : NodeKind} {below : Grove} (h : t.Holds f)
    (hx : Grove.at? x f = some (k, below))
    (hbinds : ∀ a ∈ (tree (x, k) below).labels, a.2.bind? = none) (given : Identifiers) :
    let copied := t.deepCopy given x
    let expected := (erase (tree (x, k) below)).copy given
    ∃ k' b, Floats t copied.2.1 f (copied.1, k') b ∧
      erase (tree (copied.1, k') b) = expected.1 ∧ copied.2.2 = expected.2 := by
  obtain ⟨k', b, hholds, herase, hids, hnew, hsize, hroot⟩ := h.deepCopy hx given
  refine ⟨k', b, ⟨hholds, hroot, hsize, hnew, fun a ha => ?_⟩, herase, hids⟩
  rcases Grove.mem_labels_erase ha with hm | hm
  · exact Grove.bind?_of_isMarkup hm
  · rw [herase] at hm
    have hsome : a.2.bind?.isSome ∈ ((erase (tree (x, k) below)).map (·.bind?.isSome)).labels := by
      rw [← Forest.map_bind?_copy _ given, Forest.labels_map]
      exact List.mem_map_of_mem hm
    rw [Forest.labels_map] at hsome
    obtain ⟨k₀, hk₀, he⟩ := List.mem_map.1 hsome
    obtain ⟨a₀, ha₀, rfl⟩ := Grove.mem_of_mem_erase hk₀
    simpa [hbinds a₀ ha₀] using he.symm

theorem Hangs.none (h : t.Holds f) : Hangs t t f area .nil where
  holds := by
    rw [Grove.graft_eq_self fun x _ => by unfold only; exact ite_self _]
    exact h
  root := rfl
  size_le := Nat.le_refl _
  new _ hx := by cases hx
  controlsOnly _ hx := by cases hx

theorem graft_only_twice {f g h : Grove} {x : NodeId} (hg : x ∉ ids g) :
    graft (only x h) (graft (only x g) f) = graft (only x (g ++ h)) f := by
  rw [Grove.graft_graft]
  refine Grove.graft_congr fun y _ => ?_
  unfold only
  split
  · rw [Grove.graft_eq_self fun z hz => if_neg fun he : z = x => hg (he ▸ hz)]
  · rfl

theorem Hangs.trans {g' : Grove} (h : Hangs t t' f area g) (harea : area.index < t.size)
    (h' : Hangs t' t'' (graft (only area g) f) area g') : Hangs t t'' f area (g ++ g') where
  holds := by
    rw [← graft_only_twice fun hm => Nat.not_lt.2 (h.new _ hm) harea]
    exact h'.holds
  root := h'.root.trans h.root
  size_le := Nat.le_trans h.size_le h'.size_le
  new x hx := by
    rw [Grove.ids_append, List.mem_append] at hx
    exact hx.elim (h.new x) fun hx => Nat.le_trans h.size_le (h'.new x hx)
  controlsOnly a ha := by
    rw [Forest.labels_append, List.mem_append] at ha
    exact ha.elim (h.controlsOnly a) (h'.controlsOnly a)

theorem graft_only_inner {f g h : Grove} {area x : NodeId} (hx : x ∉ ids f) :
    graft (only x h) (graft (only area g) f) = graft (only area (graft (only x h) g)) f := by
  rw [Grove.graft_graft]
  refine Grove.graft_congr fun y hy => ?_
  rw [Grove.only_of_ne (fun he : y = x => hx (he ▸ hy)), Forest.append_nil]
  unfold only
  split <;> rfl

/-- Hanging controls below what has just been hung. -/
theorem Hangs.inner {g' : Grove} {x : NodeId} (h : Hangs t t' f area g) (hxf : x ∉ ids f)
    (h' : Hangs t' t'' (graft (only area g) f) x g') :
    Hangs t t'' f area (graft (only x g') g) where
  holds := by
    rw [← graft_only_inner hxf]
    exact h'.holds
  root := h'.root.trans h.root
  size_le := Nat.le_trans h.size_le h'.size_le
  new y hy := by
    rcases (Grove.mem_ids_graft _ _).1 hy with hy | ⟨z, -, hy⟩
    · exact h.new y hy
    · unfold only at hy
      split at hy
      · exact Nat.le_trans h.size_le (h'.new y hy)
      · cases hy
  controlsOnly a ha := by
    rcases Grove.mem_labels_graft ha with ha | ⟨z, ha⟩
    · exact h.controlsOnly a ha
    · unfold only at ha
      split at ha
      · exact h'.controlsOnly a ha
      · cases ha

theorem Floats.append {c : NodeId} {k : NodeKind} {b : Grove} (h : Floats t t' f (c, k) b)
    (harea : area ∈ ids f) : Hangs t (t'.append area c) f area (tree (c, k) b) where
  holds := h.holds.append harea
  root := (root_append ..).trans h.root
  size_le := Nat.le_trans h.size_le (Nat.le_of_eq (size_append ..).symm)
  new := h.new
  controlsOnly := h.controlsOnly

theorem Floats.intoBox {c : NodeId} {k : NodeKind} {b : Grove} (h : Floats t t' f (c, k) b)
    (m : Markup) : Floats t ((t'.create (.markup m)).2.append ⟨t'.size⟩ c) f
      (⟨t'.size⟩, .markup m) (tree (c, k) b) where
  holds := by
    have hmade : (t'.create (.markup m)).2.Holds
        (f ++ tree (⟨t'.size⟩, .markup m) .nil ++ tree (c, k) b) :=
      (h.holds.create (.markup m)).swap
    rw [← Forest.nil_append (tree (c, k) b), ← graft_only_last hmade.left.nodup]
    exact hmade.append (by simp)
  root := (root_append ..).trans h.root
  size_le := by
    rw [size_append, size_create]
    exact Nat.le_succ_of_le h.size_le
  new x hx := by
    rw [Grove.ids_tree, List.mem_cons] at hx
    rcases hx with rfl | hx
    · exact h.size_le
    · exact h.new x hx
  controlsOnly a ha := by
    rw [Forest.tree, Forest.labels_cons, Forest.labels_nil, List.append_nil, List.mem_cons] at ha
    rcases ha with rfl | ha
    · rfl
    · exact h.controlsOnly a ha

theorem Floats.place {l : Layout} {box : Option Markup} (hl : l.Boxes box) {c : NodeId}
    {k : NodeKind} {b : Grove} (h : Floats t t' f (c, k) b) (harea : area ∈ ids f) :
    Hangs t (l.place area c t') f area (boxed box ⟨t'.size⟩ (tree (c, k) b)) := by
  unfold Layout.place
  rw [hl.control]
  cases box with
  | none => exact h.append harea
  | some m => exact (h.intoBox m).append harea

/-- While a tree floats, controls may be hung elsewhere. -/
theorem Floats.behind {a : NodeId × NodeKind} {b : Grove} (h : Floats t t' f a b)
    (harea : area ∈ ids f) (h' : Hangs t' t'' (f ++ tree a b) area g) :
    Floats t t'' (graft (only area g) f) a b where
  holds := by
    have hnodup := h.holds.nodup
    rw [Grove.ids_append, List.nodup_append] at hnodup
    have hself : graft (only area g) (tree a b) = tree a b :=
      Grove.graft_eq_self fun x hx =>
        Grove.only_of_ne (fun he : x = area => hnodup.2.2 area harea x hx he.symm) g
    have := h'.holds
    rwa [Grove.graft_append, hself] at this
  root := h'.root.trans h.root
  size_le := Nat.le_trans h.size_le h'.size_le
  new := h.new
  controlsOnly := h.controlsOnly

/-- The first part of what has been hung, when the rest is hung behind it. -/
theorem Hangs.behind {g' : Grove} {a : NodeId × NodeKind} {b : Grove} (hf : Floats t t' f a b)
    (h : Hangs t' t'' (f ++ tree a b) area g) (harea : area.index < t.size) {t₃ : Tree}
    (h' : Hangs t t₃ (graft (only area g) f) area g') : Hangs t t₃ f area (g ++ g') where
  holds := by
    rw [← graft_only_twice fun hm =>
      Nat.not_lt.2 (Nat.le_trans hf.size_le (h.new _ hm)) harea]
    exact h'.holds
  root := h'.root
  size_le := h'.size_le
  new x hx := by
    rw [Grove.ids_append, List.mem_append] at hx
    exact hx.elim (fun hx => Nat.le_trans hf.size_le (h.new x hx)) (h'.new x)
  controlsOnly a ha := by
    rw [Forest.labels_append, List.mem_append] at ha
    exact ha.elim (h.controlsOnly a) (h'.controlsOnly a)

end Tree

/-! Triggers. -/

namespace Generator

open SchemaForms.Tree (Hangs Floats)

/-- Adding triggers changes the arena alone. -/
theorem addTriggers_run (container : NodeId) (cs : List Control) (s : Synthesis) :
    ∃ t, addTriggers container cs s = ((), { s with tree := t }) := by
  induction cs generalizing s with
  | nil => exact ⟨s.tree, rfl⟩
  | cons c cs ih => exact ih _

theorem addTriggers_hangs {s : Synthesis} {f : Grove} {container : NodeId} (h : s.tree.Holds f)
    (hm : container ∈ ids f) (cs : List Control) :
    ∃ g, Hangs s.tree (addTriggers container cs s).2.tree f container g ∧
      erase g = .leaves (cs.map .control) := by
  induction cs generalizing s f with
  | nil => exact ⟨.nil, .none h, rfl⟩
  | cons c cs ih =>
    have hone := (Tree.floats_create h (k := .control c) rfl).append hm
    obtain ⟨g, hg, herase⟩ := ih (s := { s with
      tree := (s.tree.create (.control c)).2.append container ⟨s.tree.size⟩ }) hone.holds
      ((Grove.mem_ids_graft _ _).2 (.inl hm))
    refine ⟨_, hone.trans (h.lt _ hm) hg, ?_⟩
    rw [Grove.erase_append, herase]
    rfl

theorem addTriggerRow_run (g : Generator) (area : NodeId) (cs : List Control) (s : Synthesis) :
    ∃ t, g.addTriggerRow area cs s = ((), { s with tree := t }) := by
  cases cs with
  | nil => exact ⟨s.tree, rfl⟩
  | cons c cs => exact addTriggers_run _ cs _

/-- A row of triggers is hung behind all else in its section. -/
theorem addTriggerRow_hangs {g : Generator} {box : Option Markup} (hl : g.layout.Boxes box)
    {s : Synthesis} {f : Grove} {area : NodeId} (h : s.tree.Holds f) (hm : area ∈ ids f)
    (cs : List Control) :
    ∃ row, Hangs s.tree (g.addTriggerRow area cs s).2.tree f area row ∧
      erase row = .leaves (cs.map .control) := by
  cases cs with
  | nil => exact ⟨.nil, .none h, rfl⟩
  | cons c cs =>
    have hfloat := Tree.floats_create h (k := .control c) rfl
    let first := (s.tree.create (.control c)).2
    have hone := hfloat.place hl hm
    have hrun : (g.addTriggerRow area (c :: cs) s).2.tree =
        (addTriggers (if (g.layout.control ⟨s.tree.size⟩ first).1 = ⟨s.tree.size⟩ then area
            else (g.layout.control ⟨s.tree.size⟩ first).1) cs
          { s with tree := g.layout.place area ⟨s.tree.size⟩ first }).2.tree := rfl
    have hcontainer := congrArg Prod.fst (hl.control ⟨s.tree.size⟩ first)
    cases box with
    | none =>
      rw [hrun, hcontainer, if_pos rfl]
      obtain ⟨row, hrow, herase⟩ := addTriggers_hangs
        (s := { s with tree := g.layout.place area ⟨s.tree.size⟩ first }) hone.holds
        ((Grove.mem_ids_graft _ _).2 (.inl hm)) cs
      refine ⟨_, hone.trans (h.lt _ hm) hrow, ?_⟩
      rw [Grove.erase_append, herase]
      rfl
    | some m =>
      have hsize : first.size = s.tree.size + 1 := Tree.size_create ..
      have hne : (⟨first.size⟩ : NodeId) ≠ ⟨s.tree.size⟩ := fun he =>
        Nat.succ_ne_self _ (hsize.symm.trans (congrArg NodeId.index he))
      have hnew : (⟨first.size⟩ : NodeId) ∉ ids f := fun hx =>
        absurd (h.lt _ hx) (by simp only [hsize]; omega)
      have hbox : (⟨first.size⟩ : NodeId) ∈ ids (boxed (some m) ⟨first.size⟩
          (tree (⟨s.tree.size⟩, .control c) .nil)) :=
        (Grove.ids_tree ..).symm ▸ List.mem_cons_self ..
      rw [hrun, hcontainer, if_neg hne]
      obtain ⟨row, hrow, herase⟩ := addTriggers_hangs
        (s := { s with tree := g.layout.place area ⟨s.tree.size⟩ first }) hone.holds
        ((Grove.mem_ids_graft _ _).2 (.inr ⟨area, hm, by rwa [Grove.only_self]⟩)) cs
      refine ⟨_, hone.inner hnew hrow, ?_⟩
      have hrow : graft (only ⟨first.size⟩ row) (boxed (some m) ⟨first.size⟩
            (tree (⟨s.tree.size⟩, .control c) .nil)) =
          boxed (some m) ⟨first.size⟩ (tree (⟨s.tree.size⟩, .control c) .nil ++ row) :=
        Grove.graft_boxed_self fun hx => by
          rw [Grove.ids_tree, Grove.ids_nil, List.mem_singleton] at hx
          exact hne hx
      rw [hrow, Grove.erase_boxed, Grove.erase_append, herase]
      rfl

end Generator

end SchemaForms
