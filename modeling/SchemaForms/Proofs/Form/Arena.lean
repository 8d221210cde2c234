import Mathlib.Data.List.Nodup
import Mathlib.Data.List.Perm.Subperm
import SchemaForms.Form.Tree
import SchemaForms.Proofs.Form.Forest

/-!
What the arena of a form holds.  A grove is a forest of nodes with their kinds; the arena holds a
grove when it links its nodes as the grove has them.  Each operation of the arena is one of groves:
making a node adds a tree, appending one grafts a tree below a node.
-/

namespace SchemaForms

abbrev Grove := Forest (NodeId × NodeKind)

namespace Grove

def ids (f : Grove) : List NodeId := f.labels.map (·.1)

@[simp] theorem ids_nil : ids (.nil : Grove) = [] := rfl

@[simp] theorem ids_cons (a : NodeId × NodeKind) (b r : Grove) :
    ids (.cons a b r) = a.1 :: (ids b ++ ids r) := by
  simp [ids]

@[simp] theorem ids_append (f g : Grove) : ids (f ++ g) = ids f ++ ids g := by
  simp [ids]

@[simp] theorem ids_tree (a : NodeId × NodeKind) (b : Grove) : ids (.tree a b) = a.1 :: ids b := by
  simp [Forest.tree]

@[simp] theorem ids_leaf (a : NodeId × NodeKind) : ids (.leaf a) = [a.1] := by
  simp [Forest.leaf]

/-- The numbers of the topmost nodes. -/
def tops (f : Grove) : List NodeId := f.roots.map (·.1)

@[simp] theorem tops_nil : tops (.nil : Grove) = [] := rfl

@[simp] theorem tops_cons (a : NodeId × NodeKind) (b r : Grove) :
    tops (.cons a b r) = a.1 :: tops r := rfl

@[simp] theorem tops_tree (a : NodeId × NodeKind) (b : Grove) : tops (.tree a b) = [a.1] := rfl

@[simp] theorem tops_append (f g : Grove) : tops (f ++ g) = tops f ++ tops g := by
  simp [tops]

/-- The node with a number, and what is below it. -/
def at? (x : NodeId) (f : Grove) : Option (NodeKind × Grove) :=
  (f.find (·.1 = x)).map fun (a, b) => (a.2, b)

/-- Puts trees behind all that is below each node. -/
def graft (h : NodeId → Grove) : Grove → Grove
  | .nil => .nil
  | .cons a b r => .cons a (graft h b ++ h a.1) (graft h r)

/-- Trees for one node. -/
def only (x : NodeId) (f : Grove) (y : NodeId) : Grove := if y = x then f else .nil

/-- Trees for two nodes. -/
def both (x : NodeId) (f : Grove) (y : NodeId) (g : Grove) (z : NodeId) : Grove :=
  if z = x then f else if z = y then g else .nil

@[simp] theorem only_self (x : NodeId) (f : Grove) : only x f x = f := if_pos rfl

theorem only_of_ne {x y : NodeId} (h : y ≠ x) (f : Grove) : only x f y = .nil := if_neg h

/-- Changes the kinds of nodes. -/
def relabel (h : NodeId → NodeKind → NodeKind) (f : Grove) : Grove :=
  f.map fun a => (a.1, h a.1 a.2)

@[simp] theorem graft_nil (h : NodeId → Grove) : graft h .nil = .nil := rfl

@[simp] theorem graft_cons (h : NodeId → Grove) (a : NodeId × NodeKind) (b r : Grove) :
    graft h (.cons a b r) = .cons a (graft h b ++ h a.1) (graft h r) := rfl

@[simp] theorem graft_append (h : NodeId → Grove) (f g : Grove) :
    graft h (f ++ g) = graft h f ++ graft h g := by
  induction f with
  | nil => rfl
  | cons a b r _ ih => simp [ih]

theorem graft_congr {h h' : NodeId → Grove} {f : Grove} (hh : ∀ x ∈ ids f, h x = h' x) :
    graft h f = graft h' f := by
  induction f with
  | nil => rfl
  | cons a b r ihb ihr =>
    simp only [ids_cons, List.mem_cons, List.mem_append] at hh
    rw [graft_cons, graft_cons, hh a.1 (.inl rfl), ihb fun x hx => hh x (.inr (.inl hx)),
      ihr fun x hx => hh x (.inr (.inr hx))]

theorem graft_none (f : Grove) : graft (fun _ => .nil) f = f := by
  induction f with
  | nil => rfl
  | cons a b r ihb ihr => simp [ihb, ihr]

theorem graft_eq_self {h : NodeId → Grove} {f : Grove} (hh : ∀ x ∈ ids f, h x = .nil) :
    graft h f = f :=
  (graft_congr hh).trans (graft_none f)

/-- Grafting twice is grafting once. -/
theorem graft_graft (h h' : NodeId → Grove) (f : Grove) :
    graft h' (graft h f) = graft (fun x => graft h' (h x) ++ h' x) f := by
  induction f with
  | nil => rfl
  | cons a b r ihb ihr => simp [ihb, ihr]

@[simp] theorem tops_graft (h : NodeId → Grove) (f : Grove) : tops (graft h f) = tops f := by
  induction f with
  | nil => rfl
  | cons a b r _ ih => simp [ih]

theorem mem_ids_graft (h : NodeId → Grove) (f : Grove) {y : NodeId} :
    y ∈ ids (graft h f) ↔ y ∈ ids f ∨ ∃ x ∈ ids f, y ∈ ids (h x) := by
  induction f with
  | nil => simp
  | cons a b r ihb ihr =>
    simp only [graft_cons, ids_cons, ids_append, List.mem_cons, List.mem_append, ihb, ihr]
    constructor
    · rintro (rfl | ((hy | ⟨x, hx, hy⟩) | hy) | (hy | ⟨x, hx, hy⟩))
      · exact .inl (.inl rfl)
      · exact .inl (.inr (.inl hy))
      · exact .inr ⟨x, .inr (.inl hx), hy⟩
      · exact .inr ⟨a.1, .inl rfl, hy⟩
      · exact .inl (.inr (.inr hy))
      · exact .inr ⟨x, .inr (.inr hx), hy⟩
    · rintro ((rfl | hy | hy) | ⟨x, rfl | hx | hx, hy⟩)
      · exact .inl rfl
      · exact .inr (.inl (.inl (.inl hy)))
      · exact .inr (.inr (.inl hy))
      · exact .inr (.inl (.inr hy))
      · exact .inr (.inl (.inl (.inr ⟨x, hx, hy⟩)))
      · exact .inr (.inr (.inr ⟨x, hx, hy⟩))

@[simp] theorem ids_relabel (h : NodeId → NodeKind → NodeKind) (f : Grove) :
    ids (relabel h f) = ids f := by
  simp [ids, relabel, Function.comp_def]

@[simp] theorem tops_relabel (h : NodeId → NodeKind → NodeKind) (f : Grove) :
    tops (relabel h f) = tops f := by
  simp [tops, relabel, Function.comp_def]

@[simp] theorem relabel_append (h : NodeId → NodeKind → NodeKind) (f g : Grove) :
    relabel h (f ++ g) = relabel h f ++ relabel h g :=
  Forest.map_append ..

theorem relabel_relabel (h h' : NodeId → NodeKind → NodeKind) (f : Grove) :
    relabel h' (relabel h f) = relabel (fun x k => h' x (h x k)) f :=
  Forest.map_map ..

theorem relabel_congr {h h' : NodeId → NodeKind → NodeKind} {f : Grove}
    (hh : ∀ x ∈ ids f, ∀ k, h x k = h' x k) : relabel h f = relabel h' f :=
  Forest.map_congr fun a ha => by rw [hh a.1 (List.mem_map_of_mem ha)]

theorem relabel_eq_self {h : NodeId → NodeKind → NodeKind} {f : Grove}
    (hh : ∀ x ∈ ids f, ∀ k, h x k = k) : relabel h f = f := by
  rw [relabel_congr hh]
  induction f with
  | nil => rfl
  | cons a b r ihb ihr =>
    simp only [ids_cons, List.mem_cons, List.mem_append] at hh
    have hb := ihb fun x hx => hh x (.inr (.inl hx))
    have hr := ihr fun x hx => hh x (.inr (.inr hx))
    unfold relabel at hb hr
    rw [relabel, Forest.map_cons, hb, hr]

/-- What is found at a node is a part of the grove. -/
theorem sublist_of_at? {f b : Grove} {x : NodeId} {k : NodeKind} (h : at? x f = some (k, b)) :
    (x :: ids b).Sublist (ids f) := by
  induction f with
  | nil => cases h
  | cons a below after ihb iha =>
    simp only [at?, Forest.find, decide_eq_true_eq] at h
    rw [ids_cons]
    split at h
    · next he =>
      cases h
      rw [← he]
      exact (List.sublist_append_left ..).cons_cons _
    · rw [Option.map_or, Option.or_eq_some_iff] at h
      rcases h with h | ⟨-, h⟩
      · exact ((ihb h).trans (List.sublist_append_left ..)).cons _
      · exact ((iha h).trans (List.sublist_append_right ..)).cons _

theorem perm_ids_graft (h : NodeId → Grove) (f : Grove) :
    (ids (graft h f)).Perm (ids f ++ (ids f).flatMap fun x => ids (h x)) := by
  induction f with
  | nil => exact .refl _
  | cons a b r ihb ihr =>
    simp only [graft_cons, ids_cons, ids_append, List.flatMap_cons, List.flatMap_append,
      List.cons_append]
    refine .cons _ (((ihb.append_right _).append ihr).trans ?_)
    simp only [List.append_assoc]
    refine .append_left _ ?_
    rw [← List.append_assoc, ← List.append_assoc, ← List.append_assoc]
    refine (List.perm_append_comm.append_right _).trans ?_
    simp only [List.append_assoc]
    refine .append_left _ ?_
    rw [← List.append_assoc, ← List.append_assoc]
    exact List.perm_append_comm.append_right _

theorem flatMap_only {x : NodeId} {xs : List NodeId} (hx : x ∈ xs) (hxs : xs.Nodup) (f : Grove) :
    (xs.flatMap fun y => ids (only x f y)) = ids f := by
  induction xs with
  | nil => cases hx
  | cons y xs ih =>
    obtain ⟨hy, hxs⟩ := List.nodup_cons.1 hxs
    rw [List.flatMap_cons]
    rcases List.mem_cons.1 hx with rfl | hx
    · have hnone : (xs.flatMap fun z => ids (only x f z)) = [] := by
        rw [List.flatMap_eq_nil_iff]
        intro z hz
        rw [only_of_ne fun he : z = x => hy (he ▸ hz), ids_nil]
      rw [hnone, only_self, List.append_nil]
    · rw [only_of_ne fun he : y = x => hy (he ▸ hx), ids_nil, List.nil_append, ih hx hxs]

theorem nodup_graft_only {x : NodeId} {f g : Grove} (hx : x ∈ ids f)
    (hfg : (ids f ++ ids g).Nodup) : (ids (graft (only x g) f)).Nodup := by
  refine (perm_ids_graft _ f).nodup_iff.2 ?_
  rwa [flatMap_only hx (List.nodup_append.1 hfg).1]

end Grove

namespace Tree

open Grove

/-- The arena links the nodes of a grove below a parent as the grove has them. -/
def Links (t : Tree) (parent : Option NodeId) : Grove → Prop
  | .nil => True
  | .cons a b r => t.node a.1 = ⟨a.2, parent, tops b⟩ ∧ Links t (some a.1) b ∧ Links t parent r

/-- The arena holds a grove: trees that hang nowhere, with all that is below them. -/
structure Holds (t : Tree) (f : Grove) : Prop where
  links : t.Links none f
  nodup : (ids f).Nodup
  lt : ∀ x ∈ ids f, x.index < t.size

theorem links_append {t : Tree} {parent : Option NodeId} {f g : Grove} :
    t.Links parent (f ++ g) ↔ t.Links parent f ∧ t.Links parent g := by
  induction f with
  | nil => simp [Links]
  | cons a b r _ ih => simp [Links, ih, and_assoc]

theorem Links.congr {t t' : Tree} {parent : Option NodeId} {f : Grove} (h : t.Links parent f)
    (heq : ∀ x ∈ ids f, t'.node x = t.node x) : t'.Links parent f := by
  induction f generalizing parent with
  | nil => trivial
  | cons a b r ihb ihr =>
    simp only [ids_cons, List.mem_cons, List.mem_append] at heq
    obtain ⟨ha, hb, hr⟩ := h
    exact ⟨(heq a.1 (.inl rfl)).trans ha, ihb hb fun x hx => heq x (.inr (.inl hx)),
      ihr hr fun x hx => heq x (.inr (.inr hx))⟩

theorem Holds.create {t : Tree} {f : Grove} (h : t.Holds f) (k : NodeKind) :
    (t.create k).2.Holds (f ++ .leaf ((t.create k).1, k)) := by
  have hnew (x : NodeId) (hx : x ∈ ids f) : x ≠ (t.create k).1 := fun he =>
    Nat.lt_irrefl t.size (show (t.create k).1.index < t.size from he ▸ h.lt x hx)
  refine ⟨links_append.2 ⟨h.links.congr fun x hx => ?_, ?_⟩, ?_, ?_⟩
  · rw [node_create, if_neg (hnew x hx)]
  · simp [Forest.leaf, Forest.tree, Links, node_create]
  · rw [ids_append, List.nodup_append]
    refine ⟨h.nodup, by simp, fun x hx y hy => ?_⟩
    simp only [ids_leaf, List.mem_singleton] at hy
    exact hy ▸ hnew x hx
  · intro x hx
    rw [size_create]
    rcases List.mem_append.1 ((ids_append _ _) ▸ hx) with hx | hx
    · exact Nat.lt_succ_of_lt (h.lt x hx)
    · simp only [ids_leaf, List.mem_singleton] at hx
      rw [hx]
      exact Nat.lt_succ_self _

theorem node_append {t : Tree} {p c : NodeId} (hne : p ≠ c) (hp : p.index < t.size)
    (hc : c.index < t.size) (hroot : t.parent c = none) (x : NodeId) :
    (t.append p c).node x =
      if x = p then { t.node p with children := (t.node p).children ++ [c] }
      else if x = c then { t.node c with parent := some p } else t.node x := by
  have hdetach : t.detach c = t := by
    unfold detach
    rw [hroot]
  simp only [append, if_neg hne, hdetach, node_update, size_update, hp, hc, and_true]
  by_cases hxp : x = p
  · subst hxp
    simp [Ne.symm hne]
  · by_cases hxc : x = c
    · subst hxc
      simp [hxp, hne]
    · simp [hxp, hxc, Ne.symm hxp, Ne.symm hxc]

/-- Appending a tree that hangs nowhere is grafting it. -/
theorem Holds.append {t : Tree} {f b : Grove} {p c : NodeId} {k : NodeKind}
    (h : t.Holds (f ++ .tree (c, k) b)) (hp : p ∈ ids f) :
    (t.append p c).Holds (graft (only p (.tree (c, k) b)) f) := by
  obtain ⟨hlinks, hnodup, hlt⟩ := h
  obtain ⟨hf, hc, hb, -⟩ := links_append.1 hlinks
  rw [ids_append] at hnodup hlt
  obtain ⟨hnf, hnc, hdisjoint⟩ := List.nodup_append.1 hnodup
  simp only [ids_tree, List.mem_append, List.mem_cons, List.nodup_cons] at hlt hdisjoint hnc
  have hne : p ≠ c := hdisjoint p hp c (.inl rfl)
  have hnode := node_append hne (hlt p (.inl hp)) (hlt c (.inr (.inl rfl)))
    (show (t.node c).parent = none by rw [hc])
  refine ⟨?_, nodup_graft_only hp hnodup, fun x hx => ?_⟩
  · have hnew : (t.append p c).Links (some p) (.tree (c, k) b) := by
      refine ⟨?_, hb.congr fun x hx => ?_, trivial⟩
      · rw [hnode, if_neg (Ne.symm hne), if_pos rfl, hc]
      · rw [hnode, if_neg fun he => hdisjoint p hp x (.inr hx) he.symm,
          if_neg fun he : x = c => hnc.1 (he ▸ hx)]
    suffices hgraft : ∀ (f : Grove) (parent : Option NodeId), c ∉ ids f → t.Links parent f →
        (t.append p c).Links parent (graft (only p (.tree (c, k) b)) f) from
      hgraft f none (fun hm => hdisjoint c hm c (.inl rfl) rfl) hf
    intro f
    induction f with
    | nil => exact fun _ _ _ => trivial
    | cons a below after ihb iha =>
      intro parent hcf hf
      simp only [ids_cons, List.mem_cons, List.mem_append, not_or] at hcf
      obtain ⟨ha, hbelow, hafter⟩ := hf
      refine ⟨?_, links_append.2 ⟨ihb _ hcf.2.1 hbelow, ?_⟩, iha _ hcf.2.2 hafter⟩
      · rw [hnode]
        by_cases hap : a.1 = p
        · rw [if_pos hap, ← hap, ha]
          simp
        · rw [if_neg hap, if_neg (Ne.symm hcf.1), ha]
          simp [only_of_ne hap]
      · by_cases hap : a.1 = p
        · rw [hap]
          simpa using hnew
        · simp [only_of_ne hap, Links]
  · rw [size_append]
    rcases (mem_ids_graft _ _).1 hx with hx | ⟨y, _, hx⟩
    · exact hlt x (.inl hx)
    · unfold only at hx
      split at hx
      · exact hlt x (.inr (by simpa using hx))
      · cases hx

theorem node_modifyKind (t : Tree) (x y : NodeId) (f : NodeKind → NodeKind) (hx : x.index < t.size) :
    (t.modifyKind x f).node y =
      if y = x then { t.node y with kind := f (t.node y).kind } else t.node y := by
  simp only [modifyKind, node_update, hx, and_true]
  by_cases h : x = y
  · simp [h]
  · simp [h, Ne.symm h]

theorem Holds.modifyKind {t : Tree} {f : Grove} {x : NodeId} (h : t.Holds f) (hx : x.index < t.size)
    (g : NodeKind → NodeKind) :
    (t.modifyKind x g).Holds (relabel (fun y k => if y = x then g k else k) f) := by
  refine ⟨?_, by simpa using h.nodup, fun y hy => ?_⟩
  · suffices hlinks : ∀ (f : Grove) (parent : Option NodeId), t.Links parent f →
        (t.modifyKind x g).Links parent (relabel (fun y k => if y = x then g k else k) f) from
      hlinks f none h.links
    intro f
    induction f with
    | nil => exact fun _ _ => trivial
    | cons a b r ihb ihr =>
      rintro parent ⟨ha, hb, hr⟩
      refine ⟨?_, ihb _ hb, ihr _ hr⟩
      have hb' : tops (relabel (fun y k => if y = x then g k else k) b) = tops b := tops_relabel ..
      unfold relabel at hb'
      rw [node_modifyKind t x _ g hx, ha, hb']
      dsimp only
      split <;> rfl
  · simp only [ids_relabel] at hy
    exact Nat.lt_of_lt_of_eq (h.lt y hy) (size_update ..).symm

theorem Holds.left {t : Tree} {f g : Grove} (h : t.Holds (f ++ g)) : t.Holds f where
  links := (links_append.1 h.links).1
  nodup := by
    have := h.nodup
    rw [ids_append, List.nodup_append] at this
    exact this.1
  lt x hx := h.lt x (by simp [hx])

theorem links_at? {t : Tree} {parent : Option NodeId} {f below : Grove} {x : NodeId} {k : NodeKind}
    (h : t.Links parent f) (hx : at? x f = some (k, below)) :
    t.kind x = k ∧ t.children x = tops below ∧ t.Links (some x) below := by
  induction f generalizing parent with
  | nil => cases hx
  | cons a b r ihb ihr =>
    obtain ⟨ha, hb, hr⟩ := h
    simp only [at?, Forest.find, decide_eq_true_eq] at hx
    split at hx
    · next he =>
      cases hx
      rw [← he]
      exact ⟨by rw [Tree.kind, ha], by rw [Tree.children, ha], hb⟩
    · rw [Option.map_or, Option.or_eq_some_iff] at hx
      rcases hx with hx | ⟨-, hx⟩
      · exact ihb hb hx
      · exact ihr hr hx

theorem below_eq {t : Tree} {parent : Option NodeId} {f : Grove} (h : t.Links parent f) (depth : Nat)
    (hd : (ids f).length ≤ depth) : (tops f).flatMap (fun c => c :: t.below (depth - 1) c) = ids f := by
  induction f generalizing parent depth with
  | nil => rfl
  | cons a b r ihb ihr =>
    obtain ⟨ha, hb, hr⟩ := h
    simp only [ids_cons, List.length_cons, List.length_append] at hd
    rw [tops_cons, List.flatMap_cons, ids_cons, ihr hr depth (by omega), List.cons_append]
    congr 1
    cases hdepth : depth - 1 with
    | zero =>
      have hnil : ids b = [] := List.length_eq_zero_iff.1 (by omega)
      rw [hnil]
      rfl
    | succ d =>
      have hbelow := ihb hb (depth - 1) (by omega)
      rw [hdepth] at hbelow
      rw [below, Tree.children, ha]
      exact congrArg (· ++ ids r) hbelow

/-- The arena shows a tree: it holds the tree, with the root of the arena at the top. -/
structure Shows (t : Tree) (f : Grove) : Prop extends Holds t f where
  root : ∃ a b, f = .tree a b ∧ t.root = some a.1

theorem Holds.length_le {t : Tree} {f : Grove} (h : t.Holds f) : (ids f).length ≤ t.size := by
  have hinj : ((ids f).map NodeId.index).Nodup :=
    h.nodup.map fun x y (he : x.index = y.index) => by cases x; cases y; simpa using he
  have hsub : (ids f).map NodeId.index ⊆ List.range t.size := by
    intro i hi
    obtain ⟨x, hx, rfl⟩ := List.mem_map.1 hi
    exact List.mem_range.2 (h.lt x hx)
  simpa using (hinj.subperm hsub).length_le

/-- The walk meets the nodes in document order. -/
theorem Shows.walk {t : Tree} {f : Grove} (h : t.Shows f) : t.walk = ids f := by
  obtain ⟨a, b, rfl, hroot⟩ := h.root
  have hwalk := below_eq h.links (t.size + 1) (Nat.le_succ_of_le h.length_le)
  simpa [Tree.walk, hroot, descendants] using hwalk

end Tree

end SchemaForms
