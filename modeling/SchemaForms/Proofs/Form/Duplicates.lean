import Mathlib.Data.List.Pairwise
import SchemaForms.Proofs.Form.Forested

/-!
Duplicates: what copying a subtree adds to a forest.  Main statement: nothing that was there
changes; the copy is a new tree of the same shape, the identifiers in it are new, references in it
lead from copy to copy where they led inside the subtree, and all else is as in the subtree.
-/

namespace SchemaForms

open Identifiers (identifier Gives Issued Bears)
open Forest (tree)

/-! What a node says besides the identifiers that are its own.  The cases, repeats and selections
that it refers to are read through a renaming. -/

def Choice.blank (ρ : String → String) (c : Choice) : Choice :=
  { c with id := "", toggle := c.toggle.map fun t => ⟨"", "", ρ t.caseId⟩ }

/-- An index expression follows the repeat it names; any other expression stays. -/
def followIndex (ρ : String → String) (index : String) : String :=
  (indexTarget index).elim index fun id => indexExpression (ρ id)

def Action.blank (ρ : String → String) : Action → Action
  | .insert _ bind position index => .insert "" bind position (followIndex ρ index)
  | .delete _ bind index => .delete "" bind (followIndex ρ index)
  | .dispatch _ _ event target => .dispatch "" "" event (ρ target)

def ControlKind.blank (ρ : String → String) : ControlKind → ControlKind
  | .selectOne cs => .selectOne (cs.map (·.blank ρ))
  | .selectMany cs => .selectMany (cs.map (·.blank ρ))
  | .trigger (some a) => .trigger (some (a.blank ρ))
  | kind => kind

def Control.blank (ρ : String → String) (c : Control) : Control :=
  { c with id := "", kind := c.kind.blank ρ }

def NodeKind.blank (ρ : String → String) : NodeKind → NodeKind
  | .bind b => .bind { b with id := "" }
  | .control c => .control (c.blank ρ)
  | kind => kind

section Renumbering

variable (ρ : String → String)

theorem Choice.blank_renumber (c : Choice) (ids : Identifiers) :
    (c.renumber ids).1.blank ρ = c.blank ρ := by
  obtain ⟨id, label, value, toggle⟩ := c
  cases toggle <;> rfl

theorem blank_renumberChoices (cs : List Choice) (ids : Identifiers) :
    (renumberChoices cs ids).1.map (·.blank ρ) = cs.map (·.blank ρ) := by
  induction cs generalizing ids with
  | nil => rfl
  | cons c cs ih => exact congrArg₂ List.cons (c.blank_renumber ρ ids) (ih _)

theorem Action.blank_renumber (a : Action) (ids : Identifiers) :
    (a.renumber ids).1.blank ρ = a.blank ρ := by
  cases a <;> rfl

theorem ControlKind.blank_renumber (k : ControlKind) (ids : Identifiers) :
    (k.renumber ids).1.blank ρ = k.blank ρ := by
  cases k with
  | selectOne cs => exact congrArg ControlKind.selectOne (blank_renumberChoices ρ cs ids)
  | selectMany cs => exact congrArg ControlKind.selectMany (blank_renumberChoices ρ cs ids)
  | trigger action =>
    cases action with
    | none => rfl
    | some a => exact congrArg (fun a => ControlKind.trigger (some a)) (a.blank_renumber ρ ids)
  | _ => rfl

theorem Control.blank_renumber (c : Control) (ids : Identifiers) :
    (c.renumber ids).1.blank ρ = c.blank ρ :=
  congrArg (fun k => { c with id := "", kind := k }) (c.kind.blank_renumber ρ _)

theorem NodeKind.blank_copyOne (k : NodeKind) (r : Renaming) :
    (copyOne k r).1.blank ρ = k.blank ρ := by
  cases k with
  | control c => exact congrArg NodeKind.control (c.blank_renumber ρ r.ids)
  | _ => rfl

end Renumbering

section Redirecting

variable (ρ : String → String) (table : Table String String)

theorem followIndex_redirectIndex (index : String) :
    followIndex ρ (redirectIndex table index) = followIndex (ρ ∘ renamed table) index := by
  unfold followIndex
  rw [indexTarget_redirectIndex]
  cases htarget : indexTarget index with
  | none => simp [redirectIndex, htarget]
  | some id => rfl

theorem Choice.blank_redirect (c : Choice) :
    (c.redirect table).blank ρ = c.blank (ρ ∘ renamed table) := by
  obtain ⟨id, label, value, toggle⟩ := c
  cases toggle <;> rfl

theorem Action.blank_redirect (a : Action) :
    (a.redirect table).blank ρ = a.blank (ρ ∘ renamed table) := by
  cases a with
  | insert id bind position index =>
    exact congrArg (Action.insert "" bind position) (followIndex_redirectIndex ρ table index)
  | delete id bind index =>
    exact congrArg (Action.delete "" bind) (followIndex_redirectIndex ρ table index)
  | dispatch => rfl

theorem ControlKind.blank_redirect (k : ControlKind) :
    (k.redirect table).blank ρ = k.blank (ρ ∘ renamed table) := by
  have hchoices (cs : List Choice) : (cs.map (Choice.redirect table)).map (Choice.blank ρ) =
      cs.map (Choice.blank (ρ ∘ renamed table)) := by
    rw [List.map_map]
    exact congrArg (List.map · cs) (funext fun c => c.blank_redirect ρ table)
  cases k with
  | selectOne cs => exact congrArg ControlKind.selectOne (hchoices cs)
  | selectMany cs => exact congrArg ControlKind.selectMany (hchoices cs)
  | trigger action =>
    cases action with
    | none => rfl
    | some a => exact congrArg (fun a => ControlKind.trigger (some a)) (a.blank_redirect ρ table)
  | _ => rfl

theorem NodeKind.blank_redirect (k : NodeKind) :
    (k.redirect table).blank ρ = k.blank (ρ ∘ renamed table) := by
  cases k with
  | control c =>
    exact congrArg (fun k => NodeKind.control { c with id := "", kind := k })
      (c.kind.blank_redirect ρ table)
  | _ => rfl

end Redirecting

/-! What a copy is called. -/

namespace Identifiers

/-- An identifier as an allocator makes it. -/
def Numbered (x : String) : Prop := ∃ name n, x = identifier name n

theorem numbered_allocate (ids : Identifiers) (name : String) : Numbered (ids.allocate name).1 :=
  ⟨_, _, rfl⟩

variable {a b : Identifiers} {xs : List String}

theorem Gives.nodup (h : Gives a b xs) : xs.Nodup := by
  rw [List.nodup_iff_count_le_one]
  intro x
  have := (h.count x).le
  rwa [Nat.zero_add] at this

theorem Gives.issued (h : Gives a b xs) {x : String} (hx : x ∈ xs) : Issued a b x := by
  by_contra hnot
  have hcount := (h.count x).same hnot
  exact Nat.not_lt.2 hcount (List.count_pos_iff.2 hx)

/-- The numbers of what has been given out lie between the counters. -/
theorem Gives.between (h : Gives a b xs) {name : String} {n : Nat} (hx : identifier name n ∈ xs) :
    a.count name ≤ n ∧ n < b.count name := by
  obtain ⟨name', n', hbears, hle, hlt⟩ := h.issued hx
  obtain ⟨rfl, rfl⟩ := hbears.unique (.inl rfl)
  exact ⟨hle, hlt⟩

end Identifiers

open Identifiers (Numbered numbered_allocate)

section Numbers

variable {x : String}

theorem Choice.numbered_renumber (c : Choice) (ids : Identifiers)
    (hx : x ∈ (c.renumber ids).1.identifiers) : Numbered x := by
  obtain ⟨id, label, value, toggle⟩ := c
  cases toggle with
  | none =>
    obtain rfl := List.mem_singleton.1 hx
    exact numbered_allocate ..
  | some t =>
    rcases List.mem_cons.1 hx with rfl | hx
    · exact numbered_allocate ..
    · rcases List.mem_cons.1 hx with rfl | hx
      · exact numbered_allocate ..
      · obtain rfl := List.mem_singleton.1 hx
        exact numbered_allocate ..

theorem numbered_renumberChoices (cs : List Choice) (ids : Identifiers)
    (hx : x ∈ (renumberChoices cs ids).1.flatMap Choice.identifiers) : Numbered x := by
  induction cs generalizing ids with
  | nil => cases hx
  | cons c cs ih =>
    rcases List.mem_append.1 (List.flatMap_cons ▸ hx) with hx | hx
    · exact c.numbered_renumber ids hx
    · exact ih _ hx

theorem Action.numbered_renumber (a : Action) (ids : Identifiers)
    (hx : x ∈ (a.renumber ids).1.identifiers) : Numbered x := by
  cases a with
  | insert =>
    obtain rfl := List.mem_singleton.1 hx
    exact numbered_allocate ..
  | delete =>
    obtain rfl := List.mem_singleton.1 hx
    exact numbered_allocate ..
  | dispatch =>
    rcases List.mem_cons.1 hx with rfl | hx
    · exact numbered_allocate ..
    · obtain rfl := List.mem_singleton.1 hx
      exact numbered_allocate ..

theorem ControlKind.numbered_renumber (k : ControlKind) (ids : Identifiers)
    (hx : x ∈ (k.renumber ids).1.choices.flatMap Choice.identifiers ++
      (k.renumber ids).1.actionIdentifiers) : Numbered x := by
  cases k with
  | selectOne cs => exact numbered_renumberChoices cs ids ((List.append_nil _).subst hx)
  | selectMany cs => exact numbered_renumberChoices cs ids ((List.append_nil _).subst hx)
  | trigger action =>
    cases action with
    | none => cases hx
    | some a => exact a.numbered_renumber ids hx
  | _ => cases hx

theorem NodeKind.numbered_copyOne {k : NodeKind} (hk : k.Duplicable) (r : Renaming)
    (hx : x ∈ (copyOne k r).1.identifiers) : Numbered x := by
  cases k with
  | markup => cases hx
  | bind b =>
    obtain rfl := List.mem_singleton.1 hx
    exact numbered_allocate ..
  | control c =>
    rcases List.mem_cons.1 hx with rfl | hx
    · exact numbered_allocate ..
    · exact c.kind.numbered_renumber _ hx
  | _ => exact hk.elim

end Numbers

namespace Forest

theorem numbered_copy {f : Forest NodeKind} (hf : f.Duplicable) (ids : Identifiers) {x : String}
    (hx : x ∈ (f.copy ids).1.identifiers) : Numbered x := by
  rw [identifiers_copy, identifiers, ← snd_copyPairs, List.mem_flatMap] at hx
  obtain ⟨k, hk, hx⟩ := hx
  obtain ⟨p, hp, rfl⟩ := List.mem_map.1 hk
  obtain ⟨r, hr⟩ := eq_copyOne_of_mem_copyPairs hp
  have hlabel : p.1 ∈ f.labels := by
    rw [← fst_copyPairs f ⟨ids, .empty⟩]
    exact List.mem_map_of_mem hp
  rw [hr] at hx
  exact NodeKind.numbered_copyOne (hf _ hlabel) r hx

/-- Each node of a source says what its copy says, once references are renamed as the nodes are. -/
theorem exists_renaming {f : Forest NodeKind} (hf : f.Duplicable)
    (hdistinct : (f.labels.filterMap (·.id?)).Nodup) (ids : Identifiers) :
    ∃ ρ : String → String,
      (∀ p ∈ f.pairs (f.copy ids).1, p.2.blank id = p.1.blank ρ ∧
        ∀ x, p.1.id? = some x → p.2.id? = some (ρ x)) ∧
      ∀ x, (∀ k ∈ f.labels, k.id? ≠ some x) → ρ x = x := by
  let table := (f.copyAll ⟨ids, .empty⟩).2.table
  refine ⟨renamed table, fun p hp => ⟨?_, fun x hx => ?_⟩, fun x hnot => ?_⟩
  · rw [pairs_copy] at hp
    obtain ⟨q, hq, rfl⟩ := List.mem_map.1 hp
    obtain ⟨r, hr⟩ := eq_copyOne_of_mem_copyPairs hq
    rw [NodeKind.blank_redirect, hr, NodeKind.blank_copyOne]
    rfl
  · have hmem : p.1 ∈ f.labels := (List.of_mem_zip hp).1
    rcases renamed_copy hf ids x with ⟨hnot, -⟩ | ⟨q, hq, hqx, hqy⟩
    · exact absurd hx (hnot _ hmem)
    -- the pair that the table speaks of is this one, for no other node has the identifier
    · have hpairs : ((f.pairs (f.copy ids).1).filterMap (·.1.id?)).Nodup := by
        rwa [← fst_pairs_copy f ids, List.filterMap_map] at hdistinct
      let apart (p q : NodeKind × NodeKind) : Prop :=
        ∀ y, p.1.id? = some y → ∀ z, q.1.id? = some z → y ≠ z
      have hapart : (f.pairs (f.copy ids).1).Pairwise apart := List.pairwise_filterMap.1 hpairs
      have hsymm : Std.Symm apart := ⟨fun _ _ h y hy z hz => (h z hz y hy).symm⟩
      have hsame : p = q := by
        by_contra hne
        exact hapart.forall hp hq hne x hx x hqx rfl
      rwa [hsame]
  · rcases renamed_copy hf ids x with ⟨-, hsame⟩ | ⟨p, hp, hpx, -⟩
    · exact hsame
    · exact absurd hpx (hnot _ (List.of_mem_zip hp).1)

/-- A forest is another one relabelled if it has its shape and, in order, the new labels. -/
theorem eq_map_of_labels {α β : Type} {f : Forest α} {g : Forest β} {h : α → β}
    (hshape : g.map (fun _ => ()) = f.map (fun _ => ())) (hlabels : g.labels = f.labels.map h) :
    g = f.map h := by
  induction f generalizing g with
  | nil =>
    cases g with
    | nil => rfl
    | cons => cases hshape
  | cons a b r ihb ihr =>
    cases g with
    | nil => cases hshape
    | cons a' b' r' =>
      simp only [map_cons, cons.injEq, true_and] at hshape
      simp only [labels_cons, List.map_cons, List.map_append, List.cons.injEq] at hlabels
      obtain ⟨hb, hr⟩ := hshape
      have hlength : b'.labels.length = (b.labels.map h).length := by
        have := congrArg (List.length ∘ labels) hb
        simpa using this
      obtain ⟨hbelow, hafter⟩ := List.append_inj hlabels.2 hlength
      rw [map_cons, hlabels.1, ihb hb hbelow, ihr hr hafter]

end Forest

namespace Grove

/-- The kinds in a copied grove are a copy of the kinds. -/
theorem kinds_copyAll (f : Grove) (next : Nat) (r : Renaming) :
    Forest.copyAll (f.map (·.2)) r =
      ((f.copyAll next r).1.map (·.2), (f.copyAll next r).2) := by
  induction f generalizing next r with
  | nil => rfl
  | cons a b t ihb iht =>
    simp only [Forest.map_cons, Forest.copyAll, copyAll]
    rw [ihb (next + 1), iht (next + 1 + (ids b).length)]

theorem kinds_copy (f : Grove) (next : Nat) (given : Identifiers) :
    Forest.copy (f.map (·.2)) given = ((f.copy next given).1.map (·.2), (f.copy next given).2) := by
  simp only [Forest.copy, copy, kinds_copyAll f next, relabel, Forest.map_map]

theorem shape_copy (f : Grove) (next : Nat) (given : Identifiers) :
    (f.copy next given).1.map (fun _ => ()) = f.map (fun _ => ()) := by
  have hall (g : Grove) (next : Nat) (r : Renaming) :
      (g.copyAll next r).1.map (fun _ => ()) = g.map (fun _ => ()) := by
    induction g generalizing next r with
    | nil => rfl
    | cons a b t ihb iht => simp only [copyAll, Forest.map_cons, ihb, iht]
  rw [copy, relabel, Forest.map_map]
  exact hall f next _

end Grove

namespace Tree

open Grove (ids tops)

/-- A node with all nodes below it, in document order. -/
def subtree (t : Tree) (n : NodeId) : List NodeId := n :: t.descendants n

/-- The counters are beyond every identifier of the arena that an allocator could make. -/
def Exceeded (t : Tree) (given : Identifiers) : Prop :=
  ∀ n name k, identifier name k ∈ (t.kind n).identifiers → k < given.count name

/-- An arena has become another one by copying a subtree: what the copies of the nodes are, and what
the identifiers of the nodes have become. -/
structure Copied (t t' : Tree) (n n' : NodeId) (copyOf : NodeId → NodeId) (ρ : String → String) :
    Prop where
  /-- Nodes that were there are as they were, with what they say, their parents and children. -/
  node : ∀ m, m.index < t.size → t'.node m = t.node m
  root : t'.root = t.root
  forest : t'.IsForest
  detached : t'.parent n' = none
  subtree : t'.subtree n' = (t.subtree n).map copyOf
  /-- The copies are all that is new. -/
  new : ∀ m, m ∈ t'.subtree n' ↔ t.size ≤ m.index ∧ m.index < t'.size
  children : ∀ m ∈ t.subtree n, t'.children (copyOf m) = (t.children m).map copyOf
  /-- Copies say what the nodes say, with references renamed. -/
  blank : ∀ m ∈ t.subtree n, (t'.kind (copyOf m)).blank id = (t.kind m).blank ρ
  /-- A node that is renamed is so in its copy. -/
  renamed : ∀ m ∈ t.subtree n, ∀ x, (t.kind m).id? = some x → (t'.kind (copyOf m)).id? = some (ρ x)
  /-- What is not in the subtree keeps its name. -/
  fixed : ∀ x, (∀ m ∈ t.subtree n, (t.kind m).id? ≠ some x) → ρ x = x
  distinct : ((t'.subtree n').flatMap fun m => (t'.kind m).identifiers).Nodup
  fresh : ∀ m ∈ t'.subtree n', ∀ x ∈ (t'.kind m).identifiers,
    ∀ o, o.index < t.size → x ∉ (t.kind o).identifiers

variable {t : Tree} {p : Option NodeId} {f b : Grove} {k : NodeKind} {n : NodeId}

theorem Links.tree_at? (h : t.Links p f) (hat : Grove.at? n f = some (k, b)) :
    t.Links (t.parent n) (tree (n, k) b) := by
  obtain ⟨hkind, hchildren, hlinks⟩ := links_at? h hat
  refine ⟨?_, hlinks, trivial⟩
  rw [← hkind, ← hchildren]
  rfl

theorem Links.subtree_eq (h : t.Links p (tree (n, k) b))
    (hsize : (ids (tree (n, k) b)).length ≤ t.size + 1) :
    t.subtree n = ids (tree (n, k) b) := by
  have hbelow := Tree.below_eq h (t.size + 1) hsize
  rwa [Grove.tops_tree, List.flatMap_singleton] at hbelow

/-- Numbering a list without repetitions. -/
theorem map_idxOf {l : List NodeId} (hl : l.Nodup) (start : Nat) :
    l.map (fun m => NodeId.mk (start + l.idxOf m)) =
      (List.range' start l.length).map NodeId.mk := by
  apply List.ext_getElem
  · simp
  · intro i hi _
    simp [hl.idxOf_getElem]

/-- The nodes of a grove with their kinds. -/
theorem Links.labels_eq (h : t.Links p f) : f.labels = (ids f).map fun m => (m, t.kind m) := by
  rw [Grove.ids, List.map_map]
  conv_lhs => rw [← List.map_id f.labels]
  refine List.map_congr_left fun a ha => ?_
  rw [Function.comp_apply, kind_of_mem_labels h ha]
  rfl

theorem Links.kinds_eq (h : t.Links p f) : Forest.labels (f.map (·.2)) = (ids f).map t.kind := by
  rw [Forest.labels_map, h.labels_eq, List.map_map]
  rfl

theorem Links.identifiers_eq (h : t.Links p f) :
    (ids f).flatMap (fun m => (t.kind m).identifiers) = Forest.identifiers (f.map (·.2)) := by
  rw [Forest.identifiers, h.kinds_eq, List.flatMap_map]

section Placing

variable {t' : Tree} {g : Grove} {next : Nat} {given : Identifiers}

/-- The node that a copied node has become, if copies are numbered from `next` on. -/
def placed (next : Nat) (g : Grove) (m : NodeId) : NodeId := ⟨next + (ids g).idxOf m⟩

theorem placed_inj {m o : NodeId} (hm : m ∈ ids g) (h : placed next g m = placed next g o) :
    m = o := by
  have hidx : (ids g).idxOf m = (ids g).idxOf o := Nat.add_left_cancel (congrArg NodeId.index h)
  exact (List.idxOf_inj hm).1 hidx

theorem ids_copy_eq (hg : (ids g).Nodup) :
    ids (Grove.copy g next given).1 = (ids g).map (placed next g) := by
  rw [Grove.ids_copy]
  exact (map_idxOf hg next).symm

/-- A copied grove is the grove with every node in its new place. -/
theorem Links.copy_eq (hg : (ids g).Nodup) (h : t'.Links p (Grove.copy g next given).1) :
    (Grove.copy g next given).1 =
      g.map fun a => (placed next g a.1, t'.kind (placed next g a.1)) := by
  apply Forest.eq_map_of_labels (Grove.shape_copy ..)
  rw [h.labels_eq, ids_copy_eq hg, Grove.ids, List.map_map, List.map_map]
  rfl

theorem Links.pairs_eq {q : Option NodeId} (hg : (ids g).Nodup) (hlinks : t.Links q g)
    (h : t'.Links p (Grove.copy g next given).1) :
    Forest.pairs (g.map (·.2)) (Forest.copy (g.map (·.2)) given).1 =
      (ids g).map fun m => (t.kind m, t'.kind (placed next g m)) := by
  rw [Grove.kinds_copy g next, Forest.pairs, hlinks.kinds_eq, h.kinds_eq, ids_copy_eq hg,
    List.map_map, List.zip_map']
  rfl

/-- What is below a node is below its copy too. -/
theorem at?_placed {m : NodeId} (h : Grove.at? m g = some (k, b))
    (kind : NodeId → NodeKind) :
    Grove.at? (placed next g m) (g.map fun a => (placed next g a.1, kind a.1)) =
      some (kind m, b.map fun a => (placed next g a.1, kind a.1)) := by
  obtain ⟨⟨a, b⟩, hfind, heq⟩ := Option.map_eq_some_iff.1 h
  cases heq
  have ha : a.1 = m := of_decide_eq_true (Forest.find_mem hfind).2.2
  rw [Grove.at?, Forest.find_map, Forest.find_congr (q := fun a => decide (a.1 = m)), hfind, ← ha]
  · rfl
  · intro a ha
    have hmem : a.1 ∈ ids g := List.mem_map_of_mem ha
    exact decide_eq_decide.2 ⟨placed_inj hmem, congrArg (placed next g)⟩

theorem tops_placed (kind : NodeId → NodeKind) :
    tops (b.map fun a => (placed next g a.1, kind a.1)) = (tops b).map (placed next g) := by
  rw [tops, Forest.roots_map, tops, List.map_map, List.map_map]
  rfl

variable {q : Option NodeId}

theorem children_placed (hg : (ids g).Nodup) (hlinks : t.Links q g)
    (hcopies : t'.Links p (Grove.copy g next given).1) {m : NodeId} (hm : m ∈ ids g) :
    t'.children (placed next g m) = (t.children m).map (placed next g) := by
  obtain ⟨⟨k, b⟩, hat⟩ := Grove.at?_eq_some_of_mem hm
  rw [hcopies.copy_eq hg] at hcopies
  rw [(links_at? hlinks hat).2.1, ← tops_placed fun m => t'.kind (placed next g m)]
  exact (links_at? hcopies (at?_placed hat fun m => t'.kind (placed next g m))).2.1

theorem Links.duplicable (hlinks : t.Links q g) (hkinds : ∀ m ∈ ids g, (t.kind m).Duplicable) :
    Forest.Duplicable (g.map (·.2)) := by
  intro k hk
  rw [hlinks.kinds_eq] at hk
  obtain ⟨m, hm, rfl⟩ := List.mem_map.1 hk
  exact hkinds m hm

theorem exists_renaming_placed (hg : (ids g).Nodup) (hlinks : t.Links q g)
    (hcopies : t'.Links p (Grove.copy g next given).1)
    (hkinds : ∀ m ∈ ids g, (t.kind m).Duplicable)
    (hdistinct : ((ids g).filterMap fun m => (t.kind m).id?).Nodup) :
    ∃ ρ : String → String,
      (∀ m ∈ ids g, (t'.kind (placed next g m)).blank id = (t.kind m).blank ρ ∧
        ∀ x, (t.kind m).id? = some x → (t'.kind (placed next g m)).id? = some (ρ x)) ∧
      ∀ x, (∀ m ∈ ids g, (t.kind m).id? ≠ some x) → ρ x = x := by
  have hfilter : ((Forest.labels (g.map (·.2))).filterMap (·.id?)).Nodup := by
    rw [hlinks.kinds_eq, List.filterMap_map]
    exact hdistinct
  obtain ⟨ρ, hpairs, hfixed⟩ :=
    Forest.exists_renaming (hlinks.duplicable hkinds) hfilter given
  rw [hlinks.pairs_eq hg hcopies] at hpairs
  refine ⟨ρ, fun m hm => hpairs _ (List.mem_map_of_mem hm), fun x hx => hfixed x fun k hk => ?_⟩
  rw [hlinks.kinds_eq] at hk
  obtain ⟨m, hm, rfl⟩ := List.mem_map.1 hk
  exact hx m hm

/-- The identifiers in the copies have been given out for them, each as an allocator makes it. -/
theorem gives_placed (hlinks : t.Links q g) (hcopies : t'.Links p (Grove.copy g next given).1)
    (hkinds : ∀ m ∈ ids g, (t.kind m).Duplicable) :
    let made := (ids (Grove.copy g next given).1).flatMap fun m => (t'.kind m).identifiers
    Gives given (Grove.copy g next given).2 made ∧ ∀ x ∈ made, Numbered x := by
  have hdup := hlinks.duplicable hkinds
  have hcopy := Grove.kinds_copy g next given
  have hgives := Forest.gives_copy hdup given
  rw [hcopies.identifiers_eq]
  rw [hcopy] at hgives
  refine ⟨hgives, fun x hx => Forest.numbered_copy hdup given ?_⟩
  rwa [hcopy]

end Placing

/-- A copy of a subtree stands apart in a forest that is otherwise as it was.  It has the shape of
the subtree and says what the subtree says, all its identifiers are new, and references that led
inside the subtree lead inside the copy.  Copies can be made of copies. -/
theorem deepCopy_copied {given : Identifiers} (hforest : t.IsForest) (hn : n.index < t.size)
    (hkinds : ∀ m ∈ t.subtree n, (t.kind m).Duplicable)
    (hdistinct : ((t.subtree n).filterMap fun m => (t.kind m).id?).Nodup)
    (hexceeded : t.Exceeded given) :
    let copied := t.deepCopy given n
    (∃ copyOf ρ, Copied t copied.2.1 n copied.1 copyOf ρ) ∧ copied.2.1.Exceeded copied.2.2 := by
  intro copied
  obtain ⟨f, hholds, hall⟩ := hforest.exists_holds
  obtain ⟨⟨k, b⟩, hat⟩ := Grove.at?_eq_some_of_mem (hall n hn)
  obtain ⟨htop, hgiven, hheld, hsize, hroot⟩ := hholds.deepCopy_grove hat given
  let g : Grove := tree (n, k) b
  let copies : Grove := (Grove.copy g t.size given).1
  let t' := copied.2.1
  change t'.size = t.size + (ids copies).length at hsize
  change t'.Holds (f ++ copies) at hheld
  have hsub : (ids g).Sublist (ids f) := by simpa [g] using Grove.sublist_of_at? hat
  have hnodup : (ids g).Nodup := hholds.nodup.sublist hsub
  have hlinks : t.Links (t.parent n) g := hholds.links.tree_at? hat
  obtain ⟨hold, hcopies⟩ := links_append.1 hheld.links
  have hids : ids copies = (ids g).map (placed t.size g) := ids_copy_eq hnodup
  have hlength : (ids copies).length = (ids g).length := by rw [hids, List.length_map]
  have hsource : t.subtree n = ids g :=
    hlinks.subtree_eq (Nat.le_succ_of_le (hsub.length_le.trans hholds.length_le))
  have htarget : t'.subtree copied.1 = ids copies := by
    have hle : (ids copies).length ≤ t'.size + 1 := by omega
    rw [htop]
    exact Links.subtree_eq hcopies hle
  rw [hsource] at hkinds hdistinct
  have hnew (m : NodeId) : m ∈ ids copies ↔ t.size ≤ m.index ∧ m.index < t'.size := by
    rw [hsize, hlength, Grove.ids_copy, ← List.mem_range'_1, List.mem_map]
    exact ⟨fun ⟨_, hi, he⟩ => he ▸ hi, fun hm => ⟨m.index, hm, rfl⟩⟩
  have hnode : ∀ m, m.index < t.size → t'.node m = t.node m := fun m hm =>
    hholds.links.node_eq hold m (hall m hm)
  obtain ⟨ρ, hcopy, hfixed⟩ := exists_renaming_placed hnodup hlinks hcopies hkinds hdistinct
  obtain ⟨hgives, hnumbered⟩ := gives_placed hlinks hcopies hkinds
  refine ⟨⟨placed t.size g, ρ, ?_⟩, ?_⟩
  · exact {
      node := hnode
      root := hroot
      forest := hheld.isForest fun m hm => by
        rw [Grove.ids_append, List.mem_append, hnew]
        exact (Nat.lt_or_ge m.index t.size).imp (hall m) (⟨·, hm⟩)
      detached := hcopies.parent_of_mem_tops (by rw [htop]; exact List.mem_singleton_self _)
      subtree := by rw [htarget, hsource, hids]
      new := by rw [htarget]; exact hnew
      children := by rw [hsource]; exact fun m hm => children_placed hnodup hlinks hcopies hm
      blank := by rw [hsource]; exact fun m hm => (hcopy m hm).1
      renamed := by rw [hsource]; exact fun m hm => (hcopy m hm).2
      fixed := by rw [hsource]; exact hfixed
      distinct := by rw [htarget]; exact hgives.nodup
      fresh := by
        rw [htarget]
        intro m hm x hx o _ hused
        have hmade : x ∈ (ids copies).flatMap fun m => (t'.kind m).identifiers :=
          List.mem_flatMap.2 ⟨m, hm, hx⟩
        obtain ⟨name, i, rfl⟩ := hnumbered x hmade
        exact Nat.not_lt.2 (hgives.between hmade).1 (hexceeded o name i hused) }
  · intro m name i hx
    rw [hgiven]
    rcases Nat.lt_or_ge m.index t.size with hm | hm
    · rw [kind, hnode m hm] at hx
      exact Nat.lt_of_lt_of_le (hexceeded m name i hx) (hgives.before name)
    · rcases Nat.lt_or_ge m.index t'.size with hlt | hge
      · exact (hgives.between (List.mem_flatMap.2 ⟨m, (hnew m).2 ⟨hm, hlt⟩, hx⟩)).2
      · rw [kind, node_of_le hge] at hx
        cases hx

/-- A switch with a selection that toggles its case, and a trigger that adds to a repeat beside the
switch. -/
def switching : Tree where
  nodes := #[
    { kind := .markup { name := "div" }, children := [⟨1⟩, ⟨5⟩] },
    { kind := .control { id := "switch_0", kind := .switch }
      parent := some ⟨0⟩, children := [⟨2⟩, ⟨3⟩, ⟨4⟩] },
    { kind := .control
        { id := "select1_0"
          kind := .selectOne [⟨"item_0", "A", "A", some ⟨"action_0", "toggle_0", "case_0"⟩⟩] }
      parent := some ⟨1⟩ },
    { kind := .control { id := "case_0", kind := .switchCase true }, parent := some ⟨1⟩ },
    { kind := .control
        { id := "trigger_0"
          kind := .trigger (some (.insert "insert_0" none .after (indexExpression "repeat_0"))) }
      parent := some ⟨1⟩ },
    { kind := .control { id := "repeat_0", kind := .repeatRegion }, parent := some ⟨0⟩ }]
  root := some ⟨0⟩

/-- What the identifiers of the switch are made from. -/
def switchingNames : List String :=
  ["switch", "select1", "item", "action", "toggle", "case", "trigger", "insert", "repeat"]

def switchingIds : Identifiers :=
  switchingNames.foldl (fun ids name => (ids.allocate name).2) .empty

theorem isForest_switching : switching.IsForest := by
  let a (i : Nat) : NodeId × NodeKind := (⟨i⟩, switching.kind ⟨i⟩)
  let f : Grove := tree (a 0) (.cons (a 1) (.leaves [a 2, a 3, a 4]) (.leaf (a 5)))
  have hholds : switching.Holds f := by
    refine ⟨⟨rfl, ⟨rfl, ⟨rfl, trivial, rfl, trivial, rfl, trivial, trivial⟩, rfl, trivial, trivial⟩,
      trivial⟩, ?_, ?_⟩
    · decide
    · decide
  have hall : ∀ i < 6, NodeId.mk i ∈ ids f := by decide
  exact hholds.isForest fun n hn => hall n.index hn

theorem exceeded_switching : switching.Exceeded switchingIds := by
  have hmade (m : NodeId) :
      ∀ x ∈ (switching.kind m).identifiers, ∃ name ∈ switchingNames, x = identifier name 0 := by
    obtain ⟨i⟩ := m
    match i with
    | 0 => decide
    | 1 => decide
    | 2 => decide
    | 3 => decide
    | 4 => decide
    | 5 => decide
    | i + 6 => exact fun x hx => nomatch hx
  intro m name k hk
  obtain ⟨name', hname, heq⟩ := hmade m _ hk
  obtain ⟨rfl, rfl⟩ := Identifiers.identifier_injective heq
  have hcounted : ∀ name ∈ switchingNames, 0 < switchingIds.count name := by decide
  exact hcounted name hname

theorem deepCopy_copied_switching :
    let copied := switching.deepCopy switchingIds ⟨1⟩
    (∃ copyOf ρ, Copied switching copied.2.1 ⟨1⟩ copied.1 copyOf ρ) ∧
      copied.2.1.Exceeded copied.2.2 := by
  refine deepCopy_copied isForest_switching (by decide) ?_ ?_ exceeded_switching
  · rw [show switching.subtree ⟨1⟩ = [⟨1⟩, ⟨2⟩, ⟨3⟩, ⟨4⟩] by decide]
    simp [NodeKind.Duplicable, switching, kind, node]
  · decide

end Tree

end SchemaForms
