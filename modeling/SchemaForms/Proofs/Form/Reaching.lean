import SchemaForms.Proofs.Form.Discipline
import SchemaForms.Proofs.Form.Drawing

/-!
Reaching: every node of the arena hangs below its root.  Whatever step of the generator is made, new
nodes hang below the root in the end, and of those that were there none is moved.
-/

namespace SchemaForms

open Relation (ReflTransGen)
open Synthesis

namespace Tree

variable {t t' t'' : Tree} {c n p top : NodeId}

/-- A node hangs, directly or through others, below another one, or is that one. -/
def Under (t : Tree) : NodeId → NodeId → Prop := ReflTransGen fun n p => t.parent n = some p

/-- Parents and children are each other's. -/
def Matched (t : Tree) : Prop := ∀ n p, t.parent n = some p ↔ n ∈ t.children p

theorem node_of_le (h : t.size ≤ n.index) : t.node n = default := by
  rw [node, Array.getD_eq_getD_getElem?, Array.getElem?_eq_none h]
  rfl

theorem lt_of_parent (h : t.parent n = some p) : n.index < t.size := by
  apply Nat.lt_of_not_le
  intro hle
  rw [parent, node_of_le hle] at h
  cases h

theorem lt_of_mem_children (h : n ∈ t.children p) : p.index < t.size := by
  apply Nat.lt_of_not_le
  intro hle
  rw [children, node_of_le hle] at h
  cases h

theorem parent_append_eq (hne : p ≠ c) (hc : c.index < t.size) (n : NodeId) :
    (t.append p c).parent n = if n = c then some p else t.parent n := by
  have hdetach : (t.detach c).parent n = t.parent n := by
    unfold detach
    split
    · rw [parent, node_update]
      split <;> rfl
    · rfl
  rw [append, if_neg hne, parent, node_update]
  have hupdate : (((t.detach c).update c fun n => { n with parent := some p }).node n).parent =
      if n = c then some p else t.parent n := by
    rw [node_update]
    by_cases hn : n = c
    · rw [if_pos ⟨hn.symm, by simpa using hc⟩, if_pos hn]
    · rw [if_neg fun h => hn h.1.symm, if_neg hn]
      exact hdetach
  split
  · exact hupdate
  · exact hupdate

theorem mem_children_append_iff (h : t.Matched) (hne : p ≠ c) (hp : p.index < t.size) (n q : NodeId) :
    n ∈ (t.append p c).children q ↔ if n = c then q = p else n ∈ t.children q := by
  have hdetach (q : NodeId) : n ∈ (t.detach c).children q ↔ n ≠ c ∧ n ∈ t.children q := by
    unfold detach
    cases hparent : t.parent c with
    | some old =>
      have hold : old.index < t.size := lt_of_mem_children ((h c old).1 hparent)
      rw [children, node_update]
      by_cases hq : old = q
      · rw [if_pos ⟨hq, hold⟩]
        simp [children, and_comm]
      · rw [if_neg fun hx => hq hx.1]
        refine (and_iff_right_of_imp fun hn hnc => hq ?_).symm
        have hparent' := (h n q).2 hn
        rw [hnc, hparent] at hparent'
        exact Option.some.inj hparent'
    | none =>
      refine (and_iff_right_of_imp fun hn hnc => ?_).symm
      rw [← h, hnc, hparent] at hn
      cases hn
  have hupdate (q : NodeId) : ((t.detach c).update c fun n => { n with parent := some p }).children q
      = (t.detach c).children q := by
    rw [children, node_update]
    split <;> rfl
  rw [append, if_neg hne, children, node_update]
  by_cases hq : p = q
  · rw [if_pos ⟨hq, by simpa using hp⟩, ← hq]
    change n ∈ Tree.children _ p ++ [c] ↔ _
    rw [hupdate, List.mem_append, hdetach, List.mem_singleton]
    by_cases hn : n = c
    · simp [hn]
    · simp [hn]
  · rw [if_neg fun hx => hq hx.1]
    change n ∈ Tree.children _ q ↔ _
    rw [hupdate, hdetach]
    by_cases hn : n = c
    · simp [hn, Ne.symm hq]
    · simp [hn]

theorem matched_append (h : t.Matched) (hne : p ≠ c) (hp : p.index < t.size) (hc : c.index < t.size) :
    (t.append p c).Matched := by
  intro n q
  rw [parent_append_eq hne hc, mem_children_append_iff h hne hp]
  split
  · rw [Option.some.injEq, eq_comm]
  · exact h n q

theorem matched_create (h : t.Matched) (k : NodeKind) : (t.create k).2.Matched := by
  intro n p
  rw [parent, children, node_create, node_create]
  have hnew {n : NodeId} (hn : n = (t.create k).1) : t.size ≤ n.index :=
    Nat.le_of_eq (congrArg NodeId.index hn).symm
  split
  · next hn =>
    refine ⟨fun hn => (by cases hn), fun hp => ?_⟩
    split at hp
    · cases hp
    · have hparent := (h n p).2 hp
      exact absurd (lt_of_parent hparent) (Nat.not_lt.2 (hnew hn))
  · split
    · next hp =>
      refine ⟨fun hn => ?_, fun hp => (by cases hp)⟩
      exact absurd (lt_of_mem_children ((h n p).1 hn)) (Nat.not_lt.2 (hnew hp))
    · exact h n p

theorem matched_empty : empty.Matched := fun _ _ =>
  ⟨fun h => absurd (lt_of_parent h) (Nat.not_lt_zero _),
    fun h => absurd (lt_of_mem_children h) (Nat.not_lt_zero _)⟩

/-- Nodes are added that hang below a given one in the end; those that were there stay where they
are. -/
structure Attaches (t t' : Tree) (top : NodeId) : Prop where
  size_le : t.size ≤ t'.size
  root : t'.root = t.root
  parent : ∀ n, n.index < t.size → t'.parent n = t.parent n
  matched : t.Matched → t'.Matched
  new : ∀ n, t.size ≤ n.index → n.index < t'.size → t'.Under n top

/-- Of the nodes that are added one hangs nowhere yet; the others hang below it or below a given
one. -/
structure Loose (t t' : Tree) (c top : NodeId) : Prop where
  size_le : t.size ≤ t'.size
  root : t'.root = t.root
  parent : ∀ n, n.index < t.size → t'.parent n = t.parent n
  matched : t.Matched → t'.Matched
  new : ∀ n, t.size ≤ n.index → n.index < t'.size → t'.Under n c ∨ t'.Under n top
  ge : t.size ≤ c.index
  lt : c.index < t'.size
  loose : t'.parent c = none

/-- Where old nodes keep their parents, they stay below the same nodes. -/
theorem Under.keep (h : t.Under n p) (hparent : ∀ n, n.index < t.size → t'.parent n = t.parent n) :
    t'.Under n p :=
  ReflTransGen.mono (fun a _ hab => (hparent a (lt_of_parent hab)).trans hab) _ _ h

theorem Attaches.refl (t : Tree) (top : NodeId) : Attaches t t top :=
  ⟨Nat.le_refl _, rfl, fun _ _ => rfl, id, fun _ hle hlt => absurd hlt (Nat.not_lt.2 hle)⟩

theorem Attaches.trans (h : Attaches t t' top) (h' : Attaches t' t'' top) : Attaches t t'' top where
  size_le := Nat.le_trans h.size_le h'.size_le
  root := h'.root.trans h.root
  parent n hn := (h'.parent n (Nat.lt_of_lt_of_le hn h.size_le)).trans (h.parent n hn)
  matched hm := h'.matched (h.matched hm)
  new n hle hlt := by
    by_cases hn : n.index < t'.size
    · exact (h.new n hle hn).keep h'.parent
    · exact h'.new n (Nat.not_lt.1 hn) hlt

theorem loose_create (t : Tree) (k : NodeKind) (top : NodeId) :
    Loose t (t.create k).2 (t.create k).1 top where
  size_le := by simp
  root := rfl
  parent n hn := by
    rw [Tree.parent, node_create, if_neg]
    · rfl
    · rintro rfl
      exact Nat.lt_irrefl _ hn
  matched hm := matched_create hm k
  new n hle hlt := by
    rw [size_create] at hlt
    obtain rfl : n = (t.create k).1 := congrArg NodeId.mk (Nat.le_antisymm (Nat.le_of_lt_succ hlt) hle)
    exact .inl .refl
  ge := Nat.le_refl _
  lt := Nat.lt_of_lt_of_eq (Nat.lt_succ_self _) (size_create ..).symm
  loose := by rw [Tree.parent, node_create, if_pos rfl]

namespace Loose

/-- More nodes are added meanwhile. -/
theorem meanwhile (h : Loose t t' c top) (h' : Attaches t' t'' top) : Loose t t'' c top where
  size_le := Nat.le_trans h.size_le h'.size_le
  root := h'.root.trans h.root
  parent n hn := (h'.parent n (Nat.lt_of_lt_of_le hn h.size_le)).trans (h.parent n hn)
  matched hm := h'.matched (h.matched hm)
  new n hle hlt := by
    by_cases hn : n.index < t'.size
    · exact (h.new n hle hn).imp (·.keep h'.parent) (·.keep h'.parent)
    · exact .inr (h'.new n (Nat.not_lt.1 hn) hlt)
  ge := h.ge
  lt := Nat.lt_of_lt_of_le h.lt h'.size_le
  loose := (h'.parent c h.lt).trans h.loose

/-- More nodes are added below the loose one. -/
theorem below (h : Loose t t' c top) (h' : Attaches t' t'' c) : Loose t t'' c top where
  size_le := Nat.le_trans h.size_le h'.size_le
  root := h'.root.trans h.root
  parent n hn := (h'.parent n (Nat.lt_of_lt_of_le hn h.size_le)).trans (h.parent n hn)
  matched hm := h'.matched (h.matched hm)
  new n hle hlt := by
    by_cases hn : n.index < t'.size
    · exact (h.new n hle hn).imp (·.keep h'.parent) (·.keep h'.parent)
    · exact .inl (h'.new n (Nat.not_lt.1 hn) hlt)
  ge := h.ge
  lt := Nat.lt_of_lt_of_le h.lt h'.size_le
  loose := (h'.parent c h.lt).trans h.loose

/-- What is below a node stays there when a loose one is hung somewhere. -/
theorem under_append {x : NodeId} (h : Loose t t' c top) (hne : p ≠ c) (hx : t'.Under n x) :
    (t'.append p c).Under n x := by
  refine ReflTransGen.mono (fun a b hab => ?_) _ _ hx
  rw [parent_append_eq hne h.lt, if_neg]
  · exact hab
  · rintro rfl
    rw [h.loose] at hab
    cases hab

/-- The loose node is hung below the given one. -/
theorem append (h : Loose t t' c top) (hp : p.index < t'.size) (hne : p ≠ c) (htop : t'.Under p top) :
    Attaches t (t'.append p c) top where
  size_le := by simpa using h.size_le
  root := (root_append ..).trans h.root
  parent n hn := by
    rw [parent_append_eq hne h.lt, if_neg, h.parent n hn]
    rintro rfl
    exact Nat.not_lt.2 h.ge hn
  matched hm := matched_append (h.matched hm) hne hp h.lt
  new n hle hlt := by
    rw [size_append] at hlt
    have hhung : (t'.append p c).Under c top :=
      .head (by rw [parent_append_eq hne h.lt, if_pos rfl]) (h.under_append hne htop)
    rcases h.new n hle hlt with hn | hn
    · exact (h.under_append hne hn).trans hhung
    · exact h.under_append hne hn

/-- The loose node is put into a new one. -/
theorem intoBox (h : Loose t t' c top) (k : NodeKind) :
    Loose t ((t'.create k).2.append ⟨t'.size⟩ c) ⟨t'.size⟩ top := by
  have hnew := loose_create t' k top
  have hlt := Nat.lt_of_lt_of_le h.lt hnew.size_le
  have hne : (⟨t'.size⟩ : NodeId) ≠ c := by
    rintro rfl
    exact Nat.lt_irrefl _ h.lt
  have hloose : (t'.create k).2.parent c = none := (hnew.parent c h.lt).trans h.loose
  have hunder {n x : NodeId} (hx : (t'.create k).2.Under n x) :
      ((t'.create k).2.append ⟨t'.size⟩ c).Under n x := by
    refine ReflTransGen.mono (fun a b hab => ?_) _ _ hx
    rw [parent_append_eq hne hlt, if_neg]
    · exact hab
    · rintro rfl
      rw [hloose] at hab
      cases hab
  have hboxed : ((t'.create k).2.append ⟨t'.size⟩ c).Under c ⟨t'.size⟩ :=
    .single (by rw [parent_append_eq hne hlt, if_pos rfl])
  constructor
  · rw [size_append]
    exact Nat.le_trans h.size_le hnew.size_le
  · exact (root_append ..).trans h.root
  · intro n hn
    rw [parent_append_eq hne hlt, if_neg, hnew.parent n (Nat.lt_of_lt_of_le hn h.size_le),
      h.parent n hn]
    rintro rfl
    exact Nat.not_lt.2 h.ge hn
  · exact fun hm => matched_append (hnew.matched (h.matched hm)) hne hnew.lt hlt
  · intro n hle hn
    rw [size_append] at hn
    by_cases hold : n.index < t'.size
    · rcases h.new n hle hold with hx | hx
      · exact .inl ((hunder (hx.keep hnew.parent)).trans hboxed)
      · exact .inr (hunder (hx.keep hnew.parent))
    · rcases hnew.new n (Nat.not_lt.1 hold) hn with hx | hx
      · exact .inl (hunder hx)
      · exact .inr (hunder hx)
  · exact h.size_le
  · rw [size_append]
    exact hnew.lt
  · rw [parent_append_eq hne hlt, if_neg hne]
    exact hnew.loose

end Loose

/-- Changes that keep where nodes hang. -/
theorem attaches_modifyKind (t : Tree) (n : NodeId) (f : NodeKind → NodeKind) (top : NodeId) :
    Attaches t (t.modifyKind n f) top := by
  have hparent (m : NodeId) : (t.modifyKind n f).parent m = t.parent m := by
    rw [parent, modifyKind, node_update]
    split <;> rfl
  have hchildren (m : NodeId) : (t.modifyKind n f).children m = t.children m := by
    rw [children, modifyKind, node_update]
    split <;> rfl
  have hsize : (t.modifyKind n f).size = t.size := size_update ..
  refine ⟨Nat.le_of_eq hsize.symm, rfl, fun m _ => hparent m, fun hm m p => ?_, fun m hle hlt => ?_⟩
  · rw [hparent, hchildren]
    exact hm m p
  · exact absurd (hsize ▸ hlt) (Nat.not_lt.2 hle)

theorem attaches_modifyBind (t : Tree) (n : NodeId) (f : Bind → Bind) (top : NodeId) :
    Attaches t (t.modifyBind n f) top := attaches_modifyKind ..

/-! Copying. -/

theorem loose_copyNode (n : NodeId) (c : Copying) (top : NodeId) :
    Loose c.tree (copyNode n c).2.tree (copyNode n c).1 top := loose_create ..

theorem attaches_copyBelow {one : NodeId → StateM Copying NodeId} {parent : NodeId}
    (hone : ∀ n c, Loose c.tree (one n c).2.tree (one n c).1 parent) (ns : List NodeId) (c : Copying)
    (hparent : parent.index < c.tree.size) :
    Attaches c.tree (copyBelow one parent ns c).2.tree parent := by
  induction ns generalizing c with
  | nil => exact .refl ..
  | cons n ns ih =>
    let next : Copying := { (one n c).2 with tree := (one n c).2.tree.append parent (one n c).1 }
    have hne : parent ≠ (one n c).1 := by
      intro heq
      exact Nat.not_lt.2 (hone n c).ge (heq ▸ hparent)
    have hnext : Attaches c.tree next.tree parent :=
      (hone n c).append (Nat.lt_of_lt_of_le hparent (hone n c).size_le) hne .refl
    have hrest : Attaches next.tree (copyBelow one parent ns next).2.tree parent :=
      ih next (Nat.lt_of_lt_of_le hparent hnext.size_le)
    exact hnext.trans hrest

theorem loose_copySubtree (depth : Nat) (n : NodeId) (c : Copying) (top : NodeId) :
    Loose c.tree (copySubtree depth n c).2.tree (copySubtree depth n c).1 top := by
  induction depth generalizing n c top with
  | zero => exact loose_copyNode n c top
  | succ depth ih =>
    let next := (copyNode n c).2
    have hnode := loose_copyNode n c top
    have hbelow : Attaches next.tree (copyBelow (fun m => copySubtree depth m) (copyNode n c).1
        (next.tree.children n) next).2.tree (copyNode n c).1 :=
      attaches_copyBelow (fun m c => ih m c _) _ next hnode.lt
    exact hnode.below hbelow

/-- A copy is loose, and all that is copied hangs below it. -/
theorem loose_deepCopy (t : Tree) (ids : Identifiers) (n top : NodeId) :
    Loose t (t.deepCopy ids n).2.1 (t.deepCopy ids n).1 top := by
  let made := (copySubtree t.size n ⟨t, ids, .empty, []⟩).2
  have hcopy := loose_copySubtree t.size n ⟨t, ids, .empty, []⟩ top
  have hall (ns : List NodeId) (t : Tree) :
      Attaches t (ns.foldl (fun t n => t.modifyControl n (·.redirect made.renamed)) t) top := by
    induction ns generalizing t with
    | nil => exact .refl ..
    | cons n ns ih => exact (attaches_modifyKind t n _ top).trans (ih _)
  exact hcopy.meanwhile (hall made.created made.tree)

/-- A node of the arena hangs below a given one. -/
structure Within (t : Tree) (top n : NodeId) : Prop where
  lt : n.index < t.size
  under : t.Under n top

theorem Within.keep (h : t.Within top n) (ht : Attaches t t' top) : t'.Within top n :=
  ⟨Nat.lt_of_lt_of_le h.lt ht.size_le, h.under.keep ht.parent⟩

theorem Attaches.within (h : Attaches t t' top) (hle : t.size ≤ n.index) (hlt : n.index < t'.size) :
    t'.Within top n := ⟨hlt, h.new n hle hlt⟩

theorem Within.ne (h : t.Within top p) (hc : Loose t t' c top) : p ≠ c := by
  rintro rfl
  exact Nat.not_lt.2 hc.ge h.lt

theorem Loose.hang (h : Loose t t' c top) (hp : t.Within top p) :
    Attaches t (t'.append p c) top :=
  h.append (Nat.lt_of_lt_of_le hp.lt h.size_le) (hp.ne h) (hp.under.keep h.parent)

theorem attaches_add (hp : t.Within top p) (k : NodeKind) :
    Attaches t (t.add p k) top ∧ (t.add p k).Within top ⟨t.size⟩ := by
  have h := (loose_create t k top).hang hp
  refine ⟨h, h.within (Nat.le_refl _) ?_⟩
  rw [size_append, size_create]
  exact Nat.lt_succ_self _

/-- A node is hung once more where it hangs. -/
theorem attaches_again (hc : t.parent c = some p) : Attaches t (t.append p c) top := by
  by_cases hne : p = c
  · rw [append, if_pos hne]
    exact .refl ..
  · have hparent (n : NodeId) : (t.append p c).parent n = t.parent n := by
      rw [parent_append_eq hne (lt_of_parent hc)]
      split
      · next hn => rw [hn, hc]
      · rfl
    refine ⟨Nat.le_of_eq (size_append ..).symm, root_append .., fun n _ => hparent n, fun hm => ?_,
      fun n hle hlt => absurd hlt (Nat.not_lt.2 (size_append t p c ▸ hle))⟩
    exact matched_append hm hne (lt_of_mem_children ((hm c p).1 hc)) (lt_of_parent hc)

/-- The whole arena hangs below its root. -/
structure Rooted (t : Tree) (top : NodeId) : Prop where
  matched : t.Matched
  root : t.root = some top
  lt : top.index < t.size
  loose : t.parent top = none
  under : ∀ n, n.index < t.size → t.Under n top

theorem Rooted.within (h : t.Rooted top) (hn : n.index < t.size) : t.Within top n :=
  ⟨hn, h.under n hn⟩

theorem Rooted.keep (h : t.Rooted top) (ht : Attaches t t' top) : t'.Rooted top where
  matched := ht.matched h.matched
  root := ht.root.trans h.root
  lt := Nat.lt_of_lt_of_le h.lt ht.size_le
  loose := (ht.parent top h.lt).trans h.loose
  under n hn := by
    by_cases hold : n.index < t.size
    · exact (h.under n hold).keep ht.parent
    · exact ht.new n (Nat.not_lt.1 hold) hn

/-- An arena of one node. -/
theorem rooted_single (k : NodeKind) : ((empty.create k).2.setRoot ⟨0⟩).Rooted ⟨0⟩ where
  matched := matched_create matched_empty k
  root := rfl
  lt := Nat.zero_lt_one
  loose := rfl
  under n hn := by
    obtain rfl : n = ⟨0⟩ := congrArg NodeId.mk (Nat.lt_one_iff.1 hn)
    exact .refl

end Tree

/-- Steps that hang all they make below a node. -/
def gathered (top : NodeId) : Upkeep NodeId where
  Good t := t.Rooted top
  Change t t' := t.Attaches t' top
  Fit t n := t.Within top n
  refl t := .refl t top
  trans h h' := h.trans h'
  good h ht := ht.keep h
  fit h hp := hp.keep h

/-! What layouts do. -/

namespace Layout

open SchemaForms.Tree (Attaches Loose Rooted)

variable {l : Layout} {t t' : Tree} {c p top : NodeId}

/-- A loose node is put into its container, and that below a given node. -/
theorem attaches_place (hl : l.Standard) (h : Loose t t' c top) (hp : t.Within top p) :
    Attaches t (l.place p c t') top ∧ (l.place p c t').Within top c ∧
      (l.place p c t').Within top (l.control c t').1 := by
  obtain ⟨box, hbox⟩ := hl.boxes
  rw [place, hbox.control]
  cases box with
  | none =>
    have hhung := h.hang hp
    have hc := hhung.within h.ge (by rw [Tree.size_append]; exact h.lt)
    exact ⟨hhung, hc, hc⟩
  | some m =>
    have hboxed := h.intoBox (.markup m)
    have hhung := hboxed.hang hp
    have hbox := hhung.within hboxed.ge (by rw [Tree.size_append]; exact hboxed.lt)
    exact ⟨hhung, hhung.within h.ge (Nat.lt_trans h.lt hbox.lt), hbox⟩

theorem rooted_envelope (hl : l.Standard) : (l.envelope .empty).2.Rooted (l.envelope .empty).1 := by
  cases hl with
  | plain => exact Tree.rooted_single _
  | page stylesheet title =>
    have hhtml := Tree.rooted_single (.markup Generator.htmlMarkup)
    obtain ⟨hfirst, hhead⟩ :=
      Tree.attaches_add (hhtml.within hhtml.lt) (.markup Generator.headMarkup)
    have hpage : Generator.emptyPage.Rooted ⟨0⟩ := hhtml.keep hfirst
    have hhead : Generator.emptyPage.Within ⟨0⟩ ⟨1⟩ := hhead
    have hlink {t : Tree} (h : t.Within ⟨0⟩ ⟨1⟩) :=
      (Tree.attaches_add h (.markup (Generator.linkMarkup stylesheet))).1
    cases title with
    | none => exact hpage.keep (hlink hhead)
    | some text =>
      obtain ⟨htitle, -⟩ := Tree.attaches_add hhead (.markup { name := "title", text := some text })
      exact hpage.keep (htitle.trans (hlink (hhead.keep htitle)))

/-- The model is hung into its container and that into the envelope, where the container of a page
has been all the time. -/
theorem attaches_model (hl : l.Standard) (h : t.Rooted top) (k : NodeKind) :
    let m := l.model ⟨t.size⟩ (t.create k).2
    Attaches t (m.2.append top m.1) top ∧ (m.2.append top m.1).size = t.size + 1 := by
  have hnew := Tree.loose_create t k top
  have hbare : Attaches t ((t.create k).2.append top ⟨t.size⟩) top ∧
      ((t.create k).2.append top ⟨t.size⟩).size = t.size + 1 :=
    ⟨hnew.hang (h.within h.lt), by rw [Tree.size_append, Tree.size_create]⟩
  cases hl with
  | plain => exact hbare
  | page stylesheet title =>
    have hroot : (t.create k).2.root = some top := h.root
    have hrun : (page stylesheet title).model ⟨t.size⟩ (t.create k).2 =
        pageModel ⟨t.size⟩ (t.create k).2 := rfl
    rw [hrun, pageModel]
    simp only [hroot]
    split
    · exact hbare
    · next head hfind =>
      have hparent : (t.create k).2.parent head = some top :=
        (hnew.matched h.matched head top).2 (List.mem_of_find?_eq_some hfind)
      have hold : head.index < t.size := by
        refine Nat.lt_of_not_le fun hle => ?_
        have hlt := Tree.lt_of_parent hparent
        rw [Tree.size_create] at hlt
        obtain rfl : head = ⟨t.size⟩ :=
          congrArg NodeId.mk (Nat.le_antisymm (Nat.le_of_lt_succ hlt) hle)
        rw [show (t.create k).2.parent ⟨t.size⟩ = none from hnew.loose] at hparent
        cases hparent
      have hmodel : Attaches t ((t.create k).2.append head ⟨t.size⟩) top :=
        hnew.hang (h.within hold)
      refine ⟨hmodel.trans (Tree.attaches_again ?_), ?_⟩
      · rw [hmodel.parent head hold, ← hnew.parent head hold, hparent]
      · rw [Tree.size_append, Tree.size_append, Tree.size_create]

theorem attaches_form (hl : l.Standard) (htop : t.Within top top) :
    Attaches t (l.form top t).2 top ∧ (l.form top t).2.Within top (l.form top t).1 := by
  cases hl with
  | plain => exact ⟨.refl .., htop⟩
  | page stylesheet title => exact Tree.attaches_add htop (.markup { name := "body" })

end Layout

namespace Generator

open SchemaForms.Tree (Attaches Loose)

variable {g : Generator} {top area : NodeId} {places : List NodeId}

/-! Steps of the generator. -/

theorem gathers_hang {β : Type} {made : β → List NodeId} {parent : NodeId} (k : NodeKind)
    (hparent : parent ∈ places) {next : NodeId → Synth β}
    (hnext : ∀ n, (gathered top).Step ([n] ++ places) (next n) made) :
    (gathered top).Step places
      (create k >>= fun n => append parent n >>= fun _ => next n) made := by
  intro s hs hplaces
  have h := Tree.attaches_add (hplaces parent hparent) k
  obtain ⟨hrest, hmade⟩ := hnext ⟨s.tree.size⟩ { s with tree := s.tree.add parent k }
    (hs.keep h.1) fun n hn => by
      rcases List.mem_append.1 hn with hn | hn
      · exact List.mem_singleton.1 hn ▸ h.2
      · exact (hplaces n hn).keep h.1
  exact ⟨h.1.trans hrest, hmade⟩

theorem gathers_addBind (scope : NodeId) (b : Bind) (nodeset : String) (hscope : scope ∈ places) :
    (gathered top).Step places (addBind scope b nodeset) fun r => [r.node] :=
  Upkeep.after (.allocate _) fun _ => gathers_hang _ hscope fun _ =>
    Upkeep.pure (List.cons_subset.2 ⟨List.mem_cons_self, List.nil_subset _⟩)

theorem gathers_addControl (hl : g.layout.Standard) (c : Control) (harea : area ∈ places) :
    (gathered top).Step places (g.addControl area c) fun n => [n] := by
  intro s _ hplaces
  obtain ⟨hplaced, hcontrol, -⟩ := Layout.attaches_place hl
    (Tree.loose_create s.tree (.control c) top) (hplaces area harea)
  exact ⟨hplaced, fun n hn => List.mem_singleton.1 hn ▸ hcontrol⟩

theorem gathers_contentOf (hl : g.layout.Standard) (harea : area ∈ places) :
    (gathered top).Step places (g.contentOf area) fun n => [n] := by
  intro s _ hplaces
  obtain ⟨box, hbox⟩ := hl.boxes
  have hrun : g.contentOf area s = (area, s) := by
    change ((g.layout.groupContent area s.tree).1,
      { s with tree := (g.layout.groupContent area s.tree).2 }) = _
    rw [hbox.content]
  rw [hrun]
  exact ⟨.refl .., fun n hn => List.mem_singleton.1 hn ▸ hplaces area harea⟩

theorem attaches_addTriggers (container : NodeId) (cs : List Control) (s : Synthesis)
    (h : s.tree.Within top container) :
    Attaches s.tree (addTriggers container cs s).2.tree top := by
  induction cs generalizing s with
  | nil => exact .refl ..
  | cons c cs ih =>
    have hone := (Tree.attaches_add h (.control c)).1
    exact hone.trans (ih { s with tree := s.tree.add container (.control c) } (h.keep hone))

theorem attaches_addTriggerRow (hl : g.layout.Standard) (cs : List Control) (s : Synthesis)
    (harea : s.tree.Within top area) :
    Attaches s.tree (g.addTriggerRow area cs s).2.tree top := by
  cases cs with
  | nil => exact .refl ..
  | cons c cs =>
    let first := (s.tree.create (.control c)).2
    obtain ⟨hplaced, -, hcontainer⟩ :=
      Layout.attaches_place hl (Tree.loose_create s.tree (.control c) top) harea
    refine hplaced.trans (attaches_addTriggers
      (if (g.layout.control ⟨s.tree.size⟩ first).1 = ⟨s.tree.size⟩ then area
        else (g.layout.control ⟨s.tree.size⟩ first).1) cs
      { s with tree := g.layout.place area ⟨s.tree.size⟩ first } ?_)
    split
    · exact harea.keep hplaced
    · exact hcontainer

/-- A control hangs nowhere yet while the triggers before it are hung. -/
theorem gathers_behindRow (hl : g.layout.Standard) (c : Control) (cs : List Control)
    (harea : area ∈ places) :
    (gathered top).Step places (create (.control c) >>= fun node => g.addTriggerRow area cs >>=
      fun _ => g.place area node >>= fun _ => pure node) fun n => [n] := by
  intro s _ hplaces
  have hnew := Tree.loose_create s.tree (.control c) top
  have hwithin : (s.tree.create (.control c)).2.Within top area :=
    ⟨Nat.lt_of_lt_of_le (hplaces area harea).lt hnew.size_le,
      (hplaces area harea).under.keep hnew.parent⟩
  have hrow := attaches_addTriggerRow hl cs { s with tree := (s.tree.create (.control c)).2 } hwithin
  obtain ⟨hplaced, hcontrol, -⟩ :=
    Layout.attaches_place hl (hnew.meanwhile hrow) (hplaces area harea)
  exact ⟨hplaced, fun n hn => List.mem_singleton.1 hn ▸ hcontrol⟩

theorem gathers_addRepeat (hl : g.layout.Standard) (spot : Spot) (harea : spot.area ∈ places) :
    (gathered top).Step places (g.addRepeat spot) fun n => [n] := by
  refine Upkeep.after (.allocate "repeat") fun id => Upkeep.look fun s => ?_
  refine Upkeep.after (.reportUngoverned id _) fun _ => ?_
  refine Upkeep.after (.repeatActions id _) fun actions => ?_
  exact gathers_behindRow hl _ _ harea

theorem gathers_reuse (hl : g.layout.Standard) (spot : Spot) (nodeset : String)
    (harea : spot.area ∈ places) :
    (gathered top).Step places (g.reuse spot nodeset) fun _ => [] := by
  unfold reuse
  refine Upkeep.look fun s => ?_
  split
  · exact Upkeep.done false
  · refine Upkeep.look fun s => ?_
    split
    · exact Upkeep.after (.report _) fun _ => Upkeep.done true
    · next source _ =>
      have hcopy : (gathered top).Step places
          (deepCopy source >>= fun copy => g.place spot.area copy) fun _ => [] :=
        Upkeep.of_change fun s _ hplaces =>
          (Layout.attaches_place hl (Tree.loose_deepCopy s.tree s.ids source top)
            (hplaces spot.area harea)).1
      have hnote (n : NodeId) : (gathered top).Step places (noteReused n) fun _ => [] :=
        Upkeep.still fun s => by
          change (if s.reused.contains n then s else _).tree = s.tree
          split <;> rfl
      intro s hs hplaces
      exact Upkeep.bind hcopy (fun _ => Upkeep.bind (hnote _) fun _ => Upkeep.done true) s hs hplaces

end Generator

theorem Anchor.Has.mem {anchors : List Anchor} {n : NodeId} (h : Has anchors n) :
    n ∈ anchors.map Anchor.node := by
  obtain ⟨a, ha, rfl⟩ := h
  exact List.mem_map_of_mem ha

theorem Anchor.mem_of_any {anchors : List Anchor} {n : NodeId} (h : .any n ∈ anchors) :
    n ∈ anchors.map Anchor.node := (Has.of_any h).mem

/-- The discipline of steps that hang all they make below a node. -/
def gathering {g : Generator} (hl : g.layout.Standard) (top : NodeId) : Discipline g where
  Step anchors f made :=
    (gathered top).Step (anchors.map Anchor.node) f fun a => (made a).map Anchor.node
  pure h := Upkeep.pure (List.map_subset _ h)
  bind hf hk := Upkeep.bind hf fun a => List.map_append ▸ hk a
  look hk := Upkeep.look hk
  still h := Upkeep.still h
  modifyBind n f := Upkeep.of_change fun s _ _ => Tree.attaches_modifyBind s.tree n f top
  hang _ hparent hk := Generator.gathers_hang _ hparent.mem hk
  addBind b nodeset hscope := Generator.gathers_addBind _ b nodeset hscope.mem
  addControl c harea := Generator.gathers_addControl hl c (Anchor.mem_of_any harea)
  addSection _ harea := Generator.gathers_addControl hl _ (Anchor.mem_of_any harea)
  contentOf hgroup := Generator.gathers_contentOf hl (Anchor.mem_of_any hgroup)
  addRepeat spot harea := Generator.gathers_addRepeat hl spot (Anchor.mem_of_any harea)
  reuse spot nodeset harea := Generator.gathers_reuse hl spot nodeset (Anchor.mem_of_any harea)

namespace Generator

variable {g : Generator}

/-! The whole form. -/

theorem rooted_stage (hl : g.layout.Standard) (r : Request) {s : Synthesis} (hs : s.tree = .empty) :
    ∃ top, (g.stage r s).2.tree.Rooted top ∧
      ∀ n ∈ [(g.stage r s).1.1, (g.stage r s).1.2.1], (g.stage r s).2.tree.Within top n := by
  rw [stage_run, hs]
  have hrooted := Layout.rooted_envelope hl
  generalize g.layout.envelope .empty = e at hrooted
  obtain ⟨top, t⟩ := e
  dsimp only at hrooted ⊢
  obtain ⟨hmodel, hsize⟩ :=
    Layout.attaches_model hl hrooted (.model (s.ids.allocate "model").1 r.schemaReference)
  have hnew := hmodel.within (Nat.le_refl t.size) (hsize ▸ Nat.lt_succ_self _)
  obtain ⟨hform, hcontent⟩ := Layout.attaches_form hl
    ((hrooted.within hrooted.lt).keep hmodel)
  obtain ⟨hdata, -⟩ := Tree.attaches_add (hnew.keep hform)
    (.instanceData ((s.ids.allocate "model").2.allocate "instance").1 none)
  refine ⟨top, hrooted.keep (hmodel.trans (hform.trans hdata)), fun n hn => ?_⟩
  rcases List.mem_cons.1 hn with rfl | hn
  · exact hnew.keep (hform.trans hdata)
  · exact List.mem_singleton.1 hn ▸ hcontent.keep hdata

theorem gathers_finish {top model form : NodeId} {places : List NodeId} (hl : g.layout.Standard)
    (r : Request) (data : NodeId) (skeleton : Xml.Element) (hmodel : model ∈ places)
    (hform : form ∈ places) :
    (gathered top).Step places (g.finish r model form data skeleton) fun _ => [] := by
  refine Upkeep.after (.allocate _) fun id => gathers_hang _ hmodel fun n => ?_
  refine Upkeep.after (.allocate _) fun id => ?_
  exact Upkeep.bind (gathers_addControl hl _ (List.mem_cons_of_mem _ hform)) fun _ => Upkeep.done _

theorem rooted_build (hl : g.layout.Standard) (r : Request) (root : ElementId)
    (nsPrefix : Option String) (rootName : String) {s : Synthesis} (hs : s.tree = .empty) :
    ∃ top, (g.build r root nsPrefix rootName s).2.tree.Rooted top := by
  obtain ⟨top, hrooted, hwithin⟩ := rooted_stage hl r hs
  rw [build_eq, run_bind (Prod.eta (g.stage r s)).symm]
  generalize g.stage r s = staged at hrooted hwithin
  obtain ⟨⟨model, form, data⟩, s'⟩ := staged
  have hrest : (gathered top).Step [model, form] (do
      let content ← g.contentOf form
      let skeleton := prepareRoot (bareInstance (g.schema.element root) nsPrefix)
      let filled ← g.addElement (g.schema.elements.size + 1) ⟨model, content⟩ skeleton root
        ("/" ++ rootName) .once
      g.finish r model content data (filled.getD skeleton)) fun _ => [] := by
    refine Upkeep.bind (gathers_contentOf hl (by simp)) fun content => ?_
    have helement : (gathered top).Step ([content] ++ [model, form])
        (g.addElement (g.schema.elements.size + 1) ⟨model, content⟩
          (prepareRoot (bareInstance (g.schema.element root) nsPrefix)) root ("/" ++ rootName) .once)
        fun _ => [] :=
      Discipline.addElement (D := gathering hl top) _ [.any content, .any model, .any form]
        _ _ _ _ _ List.mem_cons_self (.of_any (by simp))
    exact Upkeep.bind helement fun _ => gathers_finish hl r data _ (by simp) (by simp)
  exact ⟨top, hrooted.keep (hrest s' hrooted hwithin).1⟩

/-- The arena of a form hangs below its root. -/
theorem generate_rooted (hl : g.layout.Standard) {time : String} {r : Request} {form : Form}
    (h : g.generate time r = .ok form) : ∃ top, form.tree.Rooted top := by
  unfold generate at h
  split at h
  · cases h
  · next root _ =>
    have htree := (Quiet.qualified (g.schema.element root).name).tree_eq Synthesis.initial
    dsimp only at h
    generalize Synthesis.qualified (g.schema.element root).name Synthesis.initial = named
      at h htree
    obtain ⟨⟨nsPrefix, rootName⟩, s⟩ := named
    dsimp only at h htree
    obtain ⟨top, hbuilt⟩ := rooted_build hl r root nsPrefix rootName htree
    split at h
    · cases h
    · generalize g.build r root nsPrefix rootName s = built at h hbuilt
      obtain ⟨⟨skeleton, data⟩, s'⟩ := built
      cases h
      dsimp only at hbuilt ⊢
      exact ⟨top, hbuilt.keep (Tree.attaches_modifyKind s'.tree data _ top)⟩

end Generator

end SchemaForms
