import SchemaForms.Form.Copy
import SchemaForms.Proofs.Form.Erasure

/-!
Copying a subtree of the arena adds a tree to the grove, node by node in document order.  The copy
of a tree without markup is the tree of the copied controls and binds, with the same identifiers.
-/

namespace SchemaForms

open SchemaForms.Tree (copyKind)

/-- What has been given out, and what identifiers of a source have become. -/
structure Renaming where
  ids : Identifiers
  table : Table String String

/-- The copy of a single node. -/
def copyOne (k : NodeKind) (r : Renaming) : NodeKind × Renaming :=
  let c := copyKind k r.ids
  (c.1.1, ⟨c.2, c.1.2.elim r.table fun change => r.table.put change.1 change.2⟩)

/-- References inside a node lead to the copies. -/
def NodeKind.redirect (table : Table String String) : NodeKind → NodeKind
  | .control c => .control (c.redirect table)
  | k => k

namespace Forest

/-- The copies of all nodes, in document order. -/
def copyAll : Forest NodeKind → Renaming → Forest NodeKind × Renaming
  | .nil, r => (.nil, r)
  | .cons k below after, r =>
    let c := copyOne k r
    let b := copyAll below c.2
    let a := copyAll after b.2
    (.cons c.1 b.1 a.1, a.2)

/-- A copy with new identifiers, in which references to what was copied along lead to the copies. -/
def copy (f : Forest NodeKind) (ids : Identifiers) : Forest NodeKind × Identifiers :=
  let c := f.copyAll ⟨ids, .empty⟩
  (c.1.map (·.redirect c.2.table), c.2.ids)

theorem copyAll_append (f g : Forest NodeKind) (r : Renaming) :
    (f ++ g).copyAll r =
      ((f.copyAll r).1 ++ (g.copyAll (f.copyAll r).2).1, (g.copyAll (f.copyAll r).2).2) := by
  induction f generalizing r with
  | nil => rfl
  | cons k b a _ iha => simp only [cons_append, copyAll, iha]

/-- What renumbering does not change is the same all over the copies. -/
theorem map_copyAll {β : Type} {o : NodeKind → β} (hone : ∀ k r, o (copyOne k r).1 = o k)
    (f : Forest NodeKind) (r : Renaming) : (f.copyAll r).1.map o = f.map o := by
  induction f generalizing r with
  | nil => rfl
  | cons k b a ihb iha => simp only [copyAll, map_cons, hone, ihb, iha]

/-- What neither renumbering nor redirecting changes is the same all over a copy. -/
theorem map_copy {β : Type} {o : NodeKind → β} (hone : ∀ k r, o (copyOne k r).1 = o k)
    (hredirect : ∀ k table, o (k.redirect table) = o k) (f : Forest NodeKind) (ids : Identifiers) :
    (f.copy ids).1.map o = f.map o := by
  rw [copy, map_map]
  simp only [hredirect]
  exact map_copyAll hone f _

theorem map_bind?_copy (f : Forest NodeKind) (ids : Identifiers) :
    (f.copy ids).1.map (·.bind?.isSome) = f.map (·.bind?.isSome) :=
  map_copy (fun k _ => by cases k <;> rfl) (fun k _ => by cases k <;> rfl) f ids

theorem map_bound_copy (f : Forest NodeKind) (ids : Identifiers) :
    (f.copy ids).1.map (·.control?.bind (·.bind)) = f.map (·.control?.bind (·.bind)) :=
  map_copy (fun k _ => by cases k <;> rfl) (fun k _ => by cases k <;> rfl) f ids

end Forest

namespace Grove

open Forest (tree leaf)

/-- The copies of all nodes; they are numbered from `next` on in document order. -/
def copyAll : Grove → Nat → Renaming → Grove × Renaming
  | .nil, _, r => (.nil, r)
  | .cons a below after, next, r =>
    let c := copyOne a.2 r
    let b := copyAll below (next + 1) c.2
    let t := copyAll after (next + 1 + (ids below).length) b.2
    (.cons (⟨next⟩, c.1) b.1 t.1, t.2)

/-- The copies of all nodes, references in them redirected to those that were copied along. -/
def copy (f : Grove) (next : Nat) (given : Identifiers) : Grove × Identifiers :=
  let c := f.copyAll next ⟨given, .empty⟩
  (relabel (fun _ k => k.redirect c.2.table) c.1, c.2.ids)

theorem isMarkup_copyOne (k : NodeKind) (r : Renaming) :
    (copyOne k r).1.isMarkup = k.isMarkup := by
  cases k <;> rfl

theorem copyOne_of_isMarkup {k : NodeKind} (hk : k.isMarkup) (r : Renaming) :
    copyOne k r = (k, r) := by
  cases k with
  | markup m => rfl
  | _ => cases hk

/-- A copied grove without markup is the copy of the grove without markup. -/
theorem erase_copyAll (f : Grove) (next : Nat) (r : Renaming) :
    (erase f).copyAll r = (erase (f.copyAll next r).1, (f.copyAll next r).2) := by
  induction f generalizing next r with
  | nil => rfl
  | cons a b t ihb iht =>
    simp only [erase, copyAll, isMarkup_copyOne]
    split
    · next hk =>
      rw [Forest.copyAll_append, copyOne_of_isMarkup hk, ihb (next + 1),
        iht (next + 1 + (ids b).length)]
    · simp only [Forest.copyAll]
      rw [ihb (next + 1), iht (next + 1 + (ids b).length)]

/-- Copies are numbered one after another in document order. -/
theorem ids_copyAll (f : Grove) (next : Nat) (r : Renaming) :
    ids (f.copyAll next r).1 = (List.range' next (ids f).length).map NodeId.mk := by
  induction f generalizing next r with
  | nil => rfl
  | cons a b t ihb iht =>
    have hcount : (ids (.cons a b t)).length = (ids b).length + (ids t).length + 1 := by simp
    rw [hcount, List.range'_succ, ← List.range'_append_1]
    simp only [copyAll, ids_cons, ihb, iht, List.map_cons, List.map_append]

theorem length_ids_copyAll (f : Grove) (next : Nat) (r : Renaming) :
    (ids (f.copyAll next r).1).length = (ids f).length := by
  simp [ids_copyAll]

theorem le_of_mem_copyAll {f : Grove} {next : Nat} {r : Renaming} {x : NodeId}
    (h : x ∈ ids (f.copyAll next r).1) : next ≤ x.index := by
  rw [ids_copyAll] at h
  obtain ⟨i, hi, rfl⟩ := List.mem_map.1 h
  exact (List.mem_range'_1.1 hi).1

theorem ids_copy (f : Grove) (next : Nat) (given : Identifiers) :
    ids (f.copy next given).1 = (List.range' next (ids f).length).map NodeId.mk := by
  rw [copy, ids_relabel, ids_copyAll]

theorem erase_redirect (table : Table String String) (f : Grove) :
    erase (relabel (fun _ k => k.redirect table) f) = (erase f).map (·.redirect table) := by
  have hmarkup (k : NodeKind) : (k.redirect table).isMarkup = k.isMarkup := by
    cases k <;> rfl
  induction f with
  | nil => rfl
  | cons a b r ihb ihr =>
    unfold relabel at ihb ihr
    simp only [relabel, Forest.map_cons, erase, hmarkup, ihb, ihr]
    split
    · rw [Forest.map_append]
    · rfl

/-- A copy without its markup is the copy of what it is made from without its markup. -/
theorem erase_copy (f : Grove) (next : Nat) (given : Identifiers) :
    (erase f).copy given = (erase (f.copy next given).1, (f.copy next given).2) := by
  rw [Forest.copy, copy, erase_copyAll f next, erase_redirect]

end Grove

namespace Identifiers

/-- No counter of the one has gone beyond that of the other. -/
def Before (a b : Identifiers) : Prop := ∀ name, a.count name ≤ b.count name

theorem Before.refl (a : Identifiers) : Before a a := fun _ => Nat.le_refl _

theorem Before.trans {a b c : Identifiers} (h : Before a b) (h' : Before b c) : Before a c :=
  fun name => Nat.le_trans (h name) (h' name)

theorem before_allocate (ids : Identifiers) (name : String) : Before ids (ids.allocate name).2 := by
  intro other
  rw [count_allocate]
  split
  · next h => exact h ▸ Nat.le_succ _
  · exact Nat.le_refl _

end Identifiers

/-- A step of copying that only moves counters on. -/
def Advances {α : Type} (f : Renumber α) : Prop := ∀ ids, Identifiers.Before ids (f ids).2

namespace Advances

variable {α β : Type}

theorem pure (a : α) : Advances (pure a : Renumber α) := fun ids => .refl ids

theorem bind {f : Renumber α} {k : α → Renumber β} (hf : Advances f) (hk : ∀ a, Advances (k a)) :
    Advances (f >>= k) := fun ids => (hf ids).trans (hk _ _)

theorem fresh (name : String) : Advances (SchemaForms.fresh name) := fun ids =>
  ids.before_allocate name

theorem choice (c : Choice) : Advances c.renumber := by
  refine (fresh _).bind fun _ => ?_
  split
  · exact .pure _
  · exact (fresh _).bind fun _ => (fresh _).bind fun _ => .pure _

theorem choices (cs : List Choice) : Advances (renumberChoices cs) := by
  induction cs with
  | nil => exact .pure _
  | cons c cs ih => exact (choice c).bind fun _ => ih.bind fun _ => .pure _

theorem action (a : Action) : Advances a.renumber := by
  cases a with
  | insert => exact (fresh _).bind fun _ => .pure _
  | delete => exact (fresh _).bind fun _ => .pure _
  | dispatch => exact (fresh _).bind fun _ => (fresh _).bind fun _ => .pure _

theorem controlKind (k : ControlKind) : Advances k.renumber := by
  unfold ControlKind.renumber
  split
  · exact (choices _).bind fun _ => .pure _
  · exact (choices _).bind fun _ => .pure _
  · exact (action _).bind fun _ => .pure _
  · exact .pure _

theorem copyKind (k : NodeKind) : Advances (Tree.copyKind k) := by
  cases k with
  | control c =>
    exact Advances.bind ((fresh _).bind fun _ => (controlKind _).bind fun _ => .pure _) fun _ =>
      .pure _
  | bind b => exact (fresh _).bind fun _ => .pure _
  | _ => exact .pure _

end Advances

theorem before_copyAll (f : Forest NodeKind) (r : Renaming) :
    Identifiers.Before r.ids (f.copyAll r).2.ids := by
  induction f generalizing r with
  | nil => exact .refl _
  | cons k b a ihb iha =>
    have hone : Identifiers.Before r.ids (copyOne k r).2.ids := Advances.copyKind k r.ids
    exact hone.trans ((ihb _).trans (iha _))

namespace Tree

open Grove (ids graft only tops copyAll)
open Forest (tree leaf)

theorem root_append (t : Tree) (p c : NodeId) : (t.append p c).root = t.root := by
  unfold append
  split
  · rfl
  · unfold detach
    split <;> rfl

/-- What copying has done besides what the arena holds: the nodes made are numbered from the size of
the arena on. -/
structure Made (c c' : Copying) (xs : List NodeId) (r : Renaming) : Prop where
  size : c'.tree.size = c.tree.size + xs.length
  ids : c'.ids = r.ids
  renamed : c'.renamed = r.table
  created : c'.created = c.created ++ xs
  root : c'.tree.root = c.tree.root

theorem Made.trans {c c' c'' : Copying} {xs ys : List NodeId} {r r' : Renaming}
    (h : Made c c' xs r) (h' : Made c' c'' ys r') : Made c c'' (xs ++ ys) r' where
  size := by rw [h'.size, h.size, List.length_append, Nat.add_assoc]
  ids := h'.ids
  renamed := h'.renamed
  created := by rw [h'.created, h.created, List.append_assoc]
  root := h'.root.trans h.root

theorem Made.append {c c' : Copying} {xs : List NodeId} {r : Renaming} (h : Made c c' xs r)
    (p n : NodeId) : Made c { c' with tree := c'.tree.append p n } xs r :=
  { h with
    size := (size_append ..).trans h.size
    root := (root_append ..).trans h.root }

/-- The nodes of a grove that two arenas link alike are the same in both. -/
theorem Links.node_eq {t t' : Tree} {p : Option NodeId} {f : Grove} (h : t.Links p f)
    (h' : t'.Links p f) : ∀ x ∈ ids f, t'.node x = t.node x := by
  induction f generalizing p with
  | nil => exact fun _ hx => by cases hx
  | cons a below after ihb iha =>
    obtain ⟨ha, hbelow, hafter⟩ := h
    obtain ⟨ha', hbelow', hafter'⟩ := h'
    intro x hx
    simp only [Grove.ids_cons, List.mem_cons, List.mem_append] at hx
    rcases hx with rfl | hx | hx
    · rw [ha, ha']
    · exact ihb hbelow hbelow' x hx
    · exact iha hafter hafter' x hx

theorem Links.of_holds {t t' : Tree} {f g g' b : Grove} {parent : Option NodeId}
    (h : t.Holds (f ++ g)) (h' : t'.Holds (f ++ g')) (hb : t.Links parent b)
    (hsub : ∀ x ∈ ids b, x ∈ ids f) : t'.Links parent b :=
  hb.congr fun x hx =>
    (links_append.1 h.links).1.node_eq (links_append.1 h'.links).1 x (hsub x hx)

theorem graft_only_last {f done b : Grove} {p : NodeId} {k : NodeKind}
    (h : (ids (f ++ tree (p, k) done)).Nodup) :
    graft (only p b) (f ++ tree (p, k) done) = f ++ tree (p, k) (done ++ b) := by
  rw [Grove.ids_append, List.nodup_append] at h
  obtain ⟨-, hdone, hdisjoint⟩ := h
  simp only [Grove.ids_tree, List.nodup_cons, List.mem_cons] at hdone hdisjoint
  have hf : graft (only p b) f = f := Grove.graft_eq_self fun x hx =>
    Grove.only_of_ne (fun he : x = p => hdisjoint x hx p (.inl rfl) he) b
  have hb : graft (only p b) done = done := Grove.graft_eq_self fun x hx =>
    Grove.only_of_ne (fun he : x = p => hdone.1 (he ▸ hx)) b
  rw [Grove.graft_append, hf]
  simp [Forest.tree, hb]

/-- Copying the trees of a source below a copy. -/
def CopiesBelow (b : Grove) : Prop :=
  ∀ (depth : Nat) (c : Copying) (f done : Grove) (p : NodeId) (k : NodeKind)
    (parent : Option NodeId), (ids b).length ≤ depth + 1 →
    c.tree.Holds (f ++ tree (p, k) done) → c.tree.Links parent b → (∀ x ∈ ids b, x ∈ ids f) →
    let copies := copyAll b c.tree.size ⟨c.ids, c.renamed⟩
    let c' := (copyBelow (fun x => copySubtree depth x) p (tops b) c).2
    c'.tree.Holds (f ++ tree (p, k) (done ++ copies.1)) ∧ Made c c' (ids copies.1) copies.2

theorem copySubtree_holds_of {below f : Grove} (hbelow : CopiesBelow below) (depth : Nat)
    {c : Copying} {x : NodeId} {k : NodeKind} (hdepth : (ids below).length ≤ depth)
    (h : c.tree.Holds f) (hkind : c.tree.kind x = k) (hchildren : c.tree.children x = tops below)
    (hlinks : c.tree.Links (some x) below) (hx : x ∈ ids f) (hsub : ∀ y ∈ ids below, y ∈ ids f) :
    let copies := copyAll (tree (x, k) below) c.tree.size ⟨c.ids, c.renamed⟩
    let c' := (copySubtree depth x c).2
    (copySubtree depth x c).1 = ⟨c.tree.size⟩ ∧ c'.tree.Holds (f ++ copies.1) ∧
      Made c c' (ids copies.1) copies.2 := by
  subst hkind
  let one := copyOne (c.tree.kind x) ⟨c.ids, c.renamed⟩
  have hholds : (copyNode x c).2.tree.Holds (f ++ leaf (⟨c.tree.size⟩, one.1)) := h.create _
  have hmade : Made c (copyNode x c).2 [⟨c.tree.size⟩] one.2 :=
    ⟨size_create .., rfl, rfl, rfl, rfl⟩
  cases depth with
  | zero =>
    have hnil : below = .nil := by
      cases below with
      | nil => rfl
      | cons => simp at hdepth
    subst hnil
    exact ⟨rfl, hholds, hmade⟩
  | succ depth =>
    have hnode : (copyNode x c).2.tree.node x = c.tree.node x := by
      have hne : x ≠ (c.tree.create one.1).1 := fun he =>
        Nat.lt_irrefl c.tree.size (show (c.tree.create one.1).1.index < _ from he ▸ h.lt x hx)
      exact (node_create c.tree one.1 x).trans (if_neg hne)
    have hchildren' : (copyNode x c).2.tree.children x = tops below := by
      rw [children, hnode]
      exact hchildren
    have hlinks' : (copyNode x c).2.tree.Links (some x) below :=
      Links.of_holds (g := .nil) (by simpa using h) hholds hlinks hsub
    obtain ⟨hheld, hcopied⟩ := hbelow depth _ f .nil ⟨c.tree.size⟩ one.1 _ hdepth hholds hlinks' hsub
    have hrun : copySubtree (depth + 1) x c = (⟨c.tree.size⟩,
        (copyBelow (fun y => copySubtree depth y) ⟨c.tree.size⟩ (tops below) (copyNode x c).2).2) := by
      rw [← hchildren']
      rfl
    have hsize : (copyNode x c).2.tree.size = c.tree.size + 1 := size_create ..
    rw [hsize] at hheld hcopied
    rw [hrun]
    refine ⟨rfl, hheld, ?_⟩
    have hall := hmade.trans hcopied
    rwa [← Grove.ids_leaf (⟨c.tree.size⟩, one.1), Grove.ids_leaf, List.singleton_append,
      ← Grove.ids_tree (⟨c.tree.size⟩, one.1)] at hall

theorem copiesBelow (b : Grove) : CopiesBelow b := by
  induction b with
  | nil =>
    intro depth c f done p k parent _ h _ _
    refine ⟨?_, rfl, rfl, rfl, (List.append_nil _).symm, rfl⟩
    rw [show (copyAll .nil c.tree.size ⟨c.ids, c.renamed⟩).1 = .nil from rfl, Forest.append_nil]
    exact h
  | cons a below after ihb iha =>
    intro depth c f done p k parent hdepth h hlinks hsub
    simp only [Grove.ids_cons, List.length_cons, List.length_append] at hdepth
    simp only [Grove.ids_cons, List.mem_cons, List.mem_append] at hsub
    obtain ⟨ha, hbelow, hafter⟩ := hlinks
    have hmem {x : NodeId} (hx : x ∈ ids f) : x ∈ ids (f ++ tree (p, k) done) := by simp [hx]
    obtain ⟨hn, hheld, hmade⟩ := copySubtree_holds_of ihb depth (by omega) h
      (show c.tree.kind a.1 = a.2 by rw [kind, ha]) (by rw [children, ha]) hbelow
      (hmem (hsub a.1 (.inl rfl))) fun y hy => hmem (hsub y (.inr (.inl hy)))
    let n : NodeId := ⟨c.tree.size⟩
    let r : Renaming := ⟨c.ids, c.renamed⟩
    let c₁ := (copySubtree depth a.1 c).2
    let c₂ : Copying := { c₁ with tree := c₁.tree.append p n }
    let one := copyOne a.2 r
    let inner := copyAll below (c.tree.size + 1) one.2
    have hcopy : copyAll (tree (a.1, a.2) below) c.tree.size r =
        (tree (n, one.1) inner.1, inner.2) := rfl
    rw [hcopy] at hheld hmade
    have hrun : copyBelow (fun x => copySubtree depth x) p (tops (.cons a below after)) c =
        copyBelow (fun x => copySubtree depth x) p (tops after) c₂ := by
      rw [Grove.tops_cons]
      change copyBelow _ p (tops after)
        { c₁ with tree := c₁.tree.append p (copySubtree depth a.1 c).1 } = _
      rw [hn]
    have hc₂ : c₂.tree.Holds (f ++ tree (p, k) (done ++ tree (n, one.1) inner.1)) := by
      rw [← graft_only_last h.nodup]
      exact hheld.append (by simp)
    have hmade₂ : Made c c₂ (n :: ids inner.1) inner.2 := by
      have := hmade.append p n
      rwa [Grove.ids_tree] at this
    obtain ⟨hrest, hmade₃⟩ := iha depth c₂ f (done ++ tree (n, one.1) inner.1) p k parent (by omega) hc₂
      (Links.of_holds h hc₂ hafter fun x hx => hsub x (.inr (.inr hx)))
      fun x hx => hsub x (.inr (.inr hx))
    have hsize : c₂.tree.size = c.tree.size + 1 + (ids below).length := by
      have hlength : (ids inner.1).length = (ids below).length := Grove.length_ids_copyAll ..
      rw [hmade₂.size, List.length_cons, hlength]
      omega
    have hr : (⟨c₂.ids, c₂.renamed⟩ : Renaming) = inner.2 := by
      rw [hmade₂.ids, hmade₂.renamed]
    rw [hsize, hr] at hrest hmade₃
    have hcopies : copyAll (.cons a below after) c.tree.size r = (.cons (n, one.1) inner.1
        (copyAll after (c.tree.size + 1 + (ids below).length) inner.2).1,
        (copyAll after (c.tree.size + 1 + (ids below).length) inner.2).2) := rfl
    rw [hrun, hcopies]
    refine ⟨by simpa [Forest.tree] using hrest, ?_⟩
    simpa using hmade₂.trans hmade₃

/-- Changing the kinds of some nodes one after another. -/
theorem Holds.modifyAll {t : Tree} {f : Grove} (h : t.Holds f) (g : NodeId → NodeKind → NodeKind)
    {xs : List NodeId} (hxs : xs.Nodup) (hlt : ∀ x ∈ xs, x.index < t.size) :
    let t' := xs.foldl (fun t n => t.modifyKind n (g n)) t
    t'.Holds (Grove.relabel (fun x k => if x ∈ xs then g x k else k) f) ∧
      t'.size = t.size ∧ t'.root = t.root := by
  induction xs generalizing t f with
  | nil =>
    refine ⟨?_, rfl, rfl⟩
    rw [Grove.relabel_eq_self fun x _ k => if_neg (List.not_mem_nil)]
    exact h
  | cons x xs ih =>
    obtain ⟨hx, hxs⟩ := List.nodup_cons.1 hxs
    rw [List.foldl_cons]
    have hsize : (t.modifyKind x (g x)).size = t.size := size_update ..
    obtain ⟨hheld, hsize', hroot⟩ := ih (h.modifyKind (hlt x (List.mem_cons_self ..)) _) hxs
      fun y hy => hsize ▸ hlt y (List.mem_cons_of_mem _ hy)
    refine ⟨?_, hsize'.trans hsize, hroot⟩
    rw [Grove.relabel_relabel] at hheld
    rw [Grove.relabel_congr fun y _ k => ?_]
    · exact hheld
    · by_cases hyx : y = x
      · subst hyx
        simp [hx]
      · simp [hyx]

/-- The last pass of copying, over the nodes made. -/
theorem Holds.redirect {t : Tree} {f : Grove} (h : t.Holds f) (table : Table String String)
    {xs : List NodeId} (hxs : xs.Nodup) (hlt : ∀ x ∈ xs, x.index < t.size) :
    let t' := xs.foldl (fun t n => t.modifyControl n (·.redirect table)) t
    t'.Holds (Grove.relabel (fun x k => if x ∈ xs then k.redirect table else k) f) ∧
      t'.size = t.size ∧ t'.root = t.root := by
  have hone (t : Tree) (x : NodeId) :
      t.modifyControl x (·.redirect table) = t.modifyKind x (·.redirect table) := by
    unfold modifyControl
    congr 1
  simp only [hone]
  exact h.modifyAll (fun _ k => k.redirect table) hxs hlt

/-- Copying a subtree adds the copies of its nodes to the arena. -/
theorem Holds.deepCopy_grove {t : Tree} {f below : Grove} {x : NodeId} {k : NodeKind}
    (h : t.Holds f) (hx : Grove.at? x f = some (k, below)) (given : Identifiers) :
    let copied := t.deepCopy given x
    let copies := Grove.copy (tree (x, k) below) t.size given
    copied.1 = ⟨t.size⟩ ∧ copied.2.2 = copies.2 ∧ copied.2.1.Holds (f ++ copies.1) ∧
      copied.2.1.size = t.size + (ids copies.1).length ∧ copied.2.1.root = t.root := by
  obtain ⟨hkind, hchildren, hlinks⟩ := links_at? h.links hx
  obtain ⟨hxf, hsub⟩ := Grove.mem_of_at? hx
  have hdepth : (ids below).length ≤ t.size := by
    have := (Grove.sublist_of_at? hx).length_le
    have := h.length_le
    simp only [List.length_cons] at *
    omega
  let c : Copying := ⟨t, given, .empty, []⟩
  obtain ⟨hn, hheld, hmade⟩ :=
    copySubtree_holds_of (copiesBelow below) t.size (c := c) hdepth h hkind hchildren hlinks hxf hsub
  let copies := copyAll (tree (x, k) below) t.size ⟨given, .empty⟩
  let s := (copySubtree t.size x c).2
  change s.tree.Holds (f ++ copies.1) at hheld
  have hcreated : s.created = ids copies.1 := hmade.created
  have htable : s.renamed = copies.2.table := hmade.renamed
  have hnodup : (ids copies.1).Nodup := by
    have := hheld.nodup
    rw [Grove.ids_append, List.nodup_append] at this
    exact this.2.1
  have hold (y : NodeId) (hy : y ∈ ids f) : y ∉ ids copies.1 := fun hm =>
    Nat.not_lt.2 (Grove.le_of_mem_copyAll hm) (h.lt y hy)
  obtain ⟨hredirected, hsize, hroot⟩ := hheld.redirect copies.2.table hnodup fun y hy =>
    hheld.lt y (by simp [hy])
  have hgrove : Grove.relabel (fun y k => if y ∈ ids copies.1 then k.redirect copies.2.table else k)
      (f ++ copies.1) = f ++ (Grove.copy (tree (x, k) below) t.size given).1 := by
    rw [Grove.relabel_append, Grove.relabel_eq_self fun y hy _ => if_neg (hold y hy)]
    congr 1
    exact Grove.relabel_congr fun y hy _ => if_pos hy
  rw [hgrove] at hredirected
  have hcopied : t.deepCopy given x = (⟨t.size⟩,
      (ids copies.1).foldl (fun t n => t.modifyControl n (·.redirect copies.2.table)) s.tree,
      copies.2.ids) := by
    rw [← hcreated, ← htable, ← hmade.ids, ← hn]
    rfl
  have hids : ids (Grove.copy (tree (x, k) below) t.size given).1 = ids copies.1 := by
    rw [Grove.ids_copy, Grove.ids_copyAll]
  rw [hcopied]
  exact ⟨rfl, rfl, hredirected, by rw [hids]; exact hsize.trans hmade.size, hroot.trans hmade.root⟩

/-- A copy of a subtree is a new tree, which hangs nowhere yet. -/
theorem Holds.deepCopy {t : Tree} {f below : Grove} {x : NodeId} {k : NodeKind} (h : t.Holds f)
    (hx : Grove.at? x f = some (k, below)) (given : Identifiers) :
    let copied := t.deepCopy given x
    let expected := (Grove.erase (tree (x, k) below)).copy given
    ∃ k' b, copied.2.1.Holds (f ++ tree (copied.1, k') b) ∧
      Grove.erase (tree (copied.1, k') b) = expected.1 ∧ copied.2.2 = expected.2 ∧
      (∀ y ∈ ids (tree (copied.1, k') b), t.size ≤ y.index) ∧ t.size ≤ copied.2.1.size ∧
      copied.2.1.root = t.root := by
  obtain ⟨hn, hids, hheld, hsize, hroot⟩ := h.deepCopy_grove hx given
  have hnew : ∀ y ∈ ids (Grove.copy (tree (x, k) below) t.size given).1, t.size ≤ y.index := by
    intro y hy
    rw [Grove.ids_copy] at hy
    obtain ⟨i, hi, rfl⟩ := List.mem_map.1 hy
    exact (List.mem_range'_1.1 hi).1
  dsimp only
  rw [Grove.erase_copy (tree (x, k) below) t.size given, hn, hsize]
  exact ⟨_, _, hheld, rfl, hids, hnew, Nat.le_add_right .., hroot⟩

end Tree

end SchemaForms
