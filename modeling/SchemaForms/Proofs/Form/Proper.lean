import Mathlib.Data.List.Nodup
import SchemaForms.Proofs.Form.Distinct
import SchemaForms.Proofs.Form.Reaching

/-!
The arena of a form is a proper tree.  Main statement: parents and children are each other's, the
walk from the root meets every node once, and so every traversal ends and misses nothing.
-/

namespace SchemaForms

open Relation (TransGen)

namespace Tree

/-- One node hangs directly in another one. -/
def HangsIn (t : Tree) (c p : NodeId) : Prop := t.parent c = some p

/-- All entries of the child lists in the arena. -/
def childEntries (t : Tree) : List NodeId := (List.range t.size).flatMap fun i => t.children ⟨i⟩

/-- The arena is one tree, and what is looked for in it is found wherever it is. -/
structure Proper (t : Tree) : Prop where
  matched : ∀ c p, t.parent c = some p ↔ c ∈ t.children p
  once : t.childEntries.Nodup
  root : ∃ root, t.root = some root ∧ t.parent root = none
  walk : t.walk.Perm ((List.range t.size).map NodeId.mk)
  acyclic : ∀ n, ¬ TransGen t.HangsIn n n
  /-- Whatever goes from nodes to their children comes to an end. -/
  ends : WellFounded fun c p => c ∈ t.children p
  descendants_eq : ∀ n, t.descendants n = (t.children n).flatMap fun c => c :: t.descendants c
  mem_descendants : ∀ m n, m ∈ t.descendants n ↔ TransGen t.HangsIn m n
  nodup_descendants : ∀ n, (t.descendants n).Nodup
  mem_binds : ∀ n, n ∈ t.binds ↔ (t.bind? n).isSome
  mem_controls : ∀ n, n ∈ t.controls ↔ (t.control? n).isSome
  findBoundTo : ∀ id, (t.findBoundTo id).isSome ↔ ∃ n c, t.control? n = some c ∧ c.bind = some id

open Grove

variable {t : Tree} {f b : Grove} {k : NodeKind} {n p top : NodeId}

/-- Nodes of a grove have all their children in it. -/
theorem Links.children_subset {parent : Option NodeId} (h : t.Links parent f) (hn : n ∈ ids f) :
    t.children n ⊆ ids f := by
  obtain ⟨⟨k, b⟩, hat⟩ := Grove.at?_eq_some_of_mem hn
  rw [(links_at? h hat).2.1]
  intro c hc
  exact (List.sublist_of_cons_sublist (Grove.sublist_of_at? hat)).subset (Grove.mem_ids_of_mem_tops hc)

/-- What a grove has below a parent hangs in the arena below it. -/
theorem Links.hangs {m : NodeId} (h : t.Links (some p) f) (hm : m ∈ ids f) : TransGen t.HangsIn m p := by
  induction f generalizing p with
  | nil => cases hm
  | cons a b r ihb ihr =>
    obtain ⟨ha, hb, hr⟩ := h
    have hself : t.HangsIn a.1 p := by rw [HangsIn, Tree.parent, ha]
    rw [ids_cons, List.mem_cons, List.mem_append] at hm
    rcases hm with rfl | hm | hm
    · exact .single hself
    · exact (ihb hb hm).tail hself
    · exact ihr hr hm

theorem children_of_le (h : t.size ≤ n.index) : t.children n = [] := by
  rw [children, node_of_le h]
  rfl

/-- The part of a grove below a node is what is met from it on, however deep the search. -/
theorem Holds.below_eq (h : t.Holds f) (hat : at? n f = some (k, b)) {depth : Nat}
    (hdepth : t.size ≤ depth) : t.below depth n = ids b := by
  obtain ⟨-, hchildren, hlinks⟩ := links_at? h.links hat
  have hlength : (ids b).length < depth :=
    Nat.lt_of_lt_of_le (sublist_of_at? hat).length_le (Nat.le_trans h.length_le hdepth)
  obtain ⟨d, rfl⟩ := Nat.exists_eq_add_one_of_ne_zero (Nat.ne_zero_of_lt hlength)
  rw [below, hchildren]
  exact Tree.below_eq hlinks (d + 1) (Nat.le_of_lt hlength)

namespace Shows

/-- No node of the arena is missing in what it shows. -/
theorem mem_ids (h : t.Shows f) (hr : t.Rooted top) (hn : n.index < t.size) : n ∈ ids f := by
  obtain ⟨a, b, hf, hroot⟩ := h.root
  have htop : top ∈ ids f := by
    obtain rfl : a.1 = top := Option.some.inj (hroot.symm.trans hr.root)
    rw [hf, ids_tree]
    exact List.mem_cons_self
  have hunder := hr.under n hn
  clear hn
  induction hunder using Relation.ReflTransGen.head_induction_on with
  | refl => exact htop
  | head hparent _ ih => exact h.links.children_subset ih ((hr.matched _ _).1 hparent)

/-- What the arena shows below each of its nodes. -/
theorem at?_of_lt (h : t.Shows f) (hr : t.Rooted top) (hn : n.index < t.size) :
    ∃ k b, at? n f = some (k, b) ∧ t.Links (some n) b ∧ t.children n = tops b ∧
      (n :: ids b).Nodup ∧ ∀ depth, t.size ≤ depth → t.below depth n = ids b := by
  obtain ⟨⟨k, b⟩, hat⟩ := at?_eq_some_of_mem (h.mem_ids hr hn)
  obtain ⟨-, hchildren, hlinks⟩ := links_at? h.links hat
  exact ⟨k, b, hat, hlinks, hchildren, h.nodup.sublist (sublist_of_at? hat),
    fun _ hdepth => h.toHolds.below_eq hat hdepth⟩

variable (h : t.Shows f) (hr : t.Rooted top)

include h hr

/-- The search from a node on is the same however deep it may go, once it may go as deep as there
are nodes. -/
theorem below_settled (n : NodeId) {depth : Nat} (hdepth : t.size ≤ depth) :
    t.below depth n = t.descendants n := by
  by_cases hn : n.index < t.size
  · obtain ⟨k, b, -, -, -, -, hbelow⟩ := h.at?_of_lt hr hn
    rw [Tree.descendants, hbelow depth hdepth, hbelow t.size (Nat.le_refl _)]
  · have hnone (d : Nat) : t.below d n = [] := by
      cases d with
      | zero => rfl
      | succ d => rw [below, children_of_le (Nat.not_lt.1 hn), List.flatMap_nil]
    rw [Tree.descendants, hnone, hnone]

theorem descendants_eq (n : NodeId) :
    t.descendants n = (t.children n).flatMap fun c => c :: t.descendants c := by
  rw [← h.below_settled hr n (Nat.le_succ t.size)]
  rfl

theorem nodup_descendants (n : NodeId) : (t.descendants n).Nodup ∧ n ∉ t.descendants n := by
  by_cases hn : n.index < t.size
  · obtain ⟨k, b, -, -, -, hnodup, hbelow⟩ := h.at?_of_lt hr hn
    rw [Tree.descendants, hbelow _ (Nat.le_refl _)]
    exact (List.nodup_cons.1 hnodup).symm
  · rw [h.descendants_eq hr, children_of_le (Nat.not_lt.1 hn), List.flatMap_nil]
    exact ⟨.nil, List.not_mem_nil⟩

theorem mem_descendants (m n : NodeId) : m ∈ t.descendants n ↔ TransGen t.HangsIn m n := by
  constructor
  · intro hm
    by_cases hn : n.index < t.size
    · obtain ⟨k, b, -, hlinks, -, -, hbelow⟩ := h.at?_of_lt hr hn
      rw [Tree.descendants, hbelow _ (Nat.le_refl _)] at hm
      exact hlinks.hangs hm
    · rw [h.descendants_eq hr, children_of_le (Nat.not_lt.1 hn)] at hm
      cases hm
  · -- from the upper end of the chain down, as the search goes
    intro hm
    induction hm with
    | single hparent =>
      rw [h.descendants_eq hr, List.mem_flatMap]
      exact ⟨m, (hr.matched _ _).1 hparent, List.mem_cons_self⟩
    | tail _ hparent ih =>
      rw [h.descendants_eq hr, List.mem_flatMap]
      exact ⟨_, (hr.matched _ _).1 hparent, List.mem_cons_of_mem _ ih⟩

theorem acyclic (n : NodeId) : ¬ TransGen t.HangsIn n n := fun hn =>
  (h.nodup_descendants hr n).2 ((h.mem_descendants hr n n).2 hn)

/-- Children have fewer nodes below them than their parents. -/
theorem ends : WellFounded fun c p => c ∈ t.children p := by
  refine Subrelation.wf (fun {c p} hc => ?_) (measure fun n => (t.descendants n).length).wf
  have hsub : (c :: t.descendants c).Sublist (t.descendants p) := by
    rw [h.descendants_eq hr p]
    exact List.flatMap_def ▸ List.sublist_flatten_of_mem (List.mem_map_of_mem hc)
  exact hsub.length_le

theorem nodup_childEntries : t.childEntries.Nodup := by
  rw [childEntries, List.nodup_flatMap]
  constructor
  · intro i hi
    obtain ⟨k, b, -, -, hchildren, hnodup, -⟩ := h.at?_of_lt hr (n := ⟨i⟩) (List.mem_range.1 hi)
    rw [hchildren]
    exact (List.nodup_cons.1 hnodup).2.sublist (tops_sublist b)
  · refine (List.nodup_range).imp fun {i j} hne c hi hj => hne ?_
    have hparent := ((hr.matched c ⟨i⟩).2 hi).symm.trans ((hr.matched c ⟨j⟩).2 hj)
    exact congrArg NodeId.index (Option.some.inj hparent)

theorem mem_walk : n ∈ t.walk ↔ n.index < t.size := by
  rw [h.walk]
  exact ⟨h.lt n, h.mem_ids hr⟩

theorem walk_perm : t.walk.Perm ((List.range t.size).map NodeId.mk) := by
  have hrange : ((List.range t.size).map NodeId.mk).Nodup :=
    List.nodup_range.map fun _ _ he => congrArg NodeId.index he
  rw [List.perm_ext_iff_of_nodup (h.walk ▸ h.nodup) hrange]
  intro n
  rw [h.mem_walk hr]
  simp only [List.mem_map, List.mem_range]
  exact ⟨fun hn => ⟨n.index, hn, rfl⟩, fun ⟨_, hi, he⟩ => he ▸ hi⟩

/-- What is found of nodes by their kinds is found wherever it is. -/
theorem mem_filter_walk {q : NodeKind → Bool} (hq : q default = false) :
    n ∈ t.walk.filter (fun m => q (t.kind m)) ↔ q (t.kind n) = true := by
  rw [List.mem_filter, h.mem_walk hr]
  refine and_iff_right_of_imp fun hn => Nat.lt_of_not_le fun hle => ?_
  rw [kind, node_of_le hle] at hn
  exact Bool.false_ne_true (hq.symm.trans hn)

theorem proper : t.Proper where
  matched := hr.matched
  once := h.nodup_childEntries hr
  root := ⟨top, hr.root, hr.loose⟩
  walk := h.walk_perm hr
  acyclic := h.acyclic hr
  ends := h.ends hr
  descendants_eq := h.descendants_eq hr
  mem_descendants := h.mem_descendants hr
  nodup_descendants n := (h.nodup_descendants hr n).1
  mem_binds n := h.mem_filter_walk hr (q := fun k => k.bind?.isSome) rfl
  mem_controls n := h.mem_filter_walk hr (q := fun k => k.control?.isSome) rfl
  findBoundTo id := by
    rw [Tree.findBoundTo, List.find?_isSome]
    constructor
    · rintro ⟨n, -, hn⟩
      obtain ⟨c, hc, hbind⟩ := Option.bind_eq_some_iff.1 (beq_iff_eq.1 hn)
      exact ⟨n, c, hc, hbind⟩
    · rintro ⟨n, c, hc, hbind⟩
      have hcontrol : n ∈ t.walk.filter fun m => (t.kind m).control?.isSome :=
        (h.mem_filter_walk hr (q := fun k => k.control?.isSome) rfl).2 (Option.isSome_of_eq_some hc)
      refine ⟨n, (List.mem_filter.1 hcontrol).1, ?_⟩
      rw [hc, beq_iff_eq]
      exact hbind

end Shows

end Tree

namespace Generator

/-- The arena of every form is a proper tree, whatever the schema, the settings and the request, and
whatever has been moved into boxes, copied or hung a second time on the way. -/
theorem arena_proper (s : Schema) (settings : Settings) {l : Layout} (hl : l.Standard)
    {time : String} {r : Request} {form : Form}
    (h : (ofSchema s settings (some l)).generate time r = .ok form) : form.tree.Proper := by
  obtain ⟨root, f, -, hshows, -⟩ := generate_shows hl rfl h
  obtain ⟨top, hrooted⟩ := generate_rooted hl h
  exact hshows.proper hrooted

theorem arena_proper_extended :
    ∃ form, (ofSchema extended {} (some (.page "s.css" none))).generate "" { root := "e" } =
      .ok form ∧ form.tree.Proper := by
  have hroot : extended.findElement (QName.of extended.target "e") = some ⟨0⟩ := by
    simp [extended, Schema.findElement, QName.of]
  obtain ⟨form, hform⟩ :=
    generate_isOk (ofSchema extended {} (some (.page "s.css" none))) "" (r := { root := "e" }) hroot rfl
  exact ⟨form, hform, arena_proper extended {} (.page "s.css" none) hform⟩

end Generator

end SchemaForms
