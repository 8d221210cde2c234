import Mathlib.Data.Fintype.Order
import Mathlib.Order.WellFounded
import SchemaForms.Proofs.Form.Proper

/-!
Arenas that are forests, of one tree or of several.  Such an arena holds a grove of all its nodes:
what hangs below a node is put together from what hangs below its children, and above every node
there is one that hangs nowhere.
-/

namespace SchemaForms

namespace Tree

open Grove (ids tops)
open Relation (TransGen ReflTransGen)

/-- Parents and children are each other's, no child is entered twice and no node is below itself. -/
structure IsForest (t : Tree) : Prop where
  matched : t.Matched
  nodup : ∀ p, (t.children p).Nodup
  acyclic : ∀ n, ¬ TransGen t.HangsIn n n

theorem lt_of_hangsIn {t : Tree} (h : t.Matched) {c p : NodeId} (hc : t.HangsIn c p) :
    c.index < t.size ∧ p.index < t.size :=
  ⟨lt_of_parent hc, lt_of_mem_children ((h c p).1 hc)⟩

/-- A relation between nodes of the arena that leads none to itself ends in both directions. -/
theorem wellFounded_of_acyclic {t : Tree} {r : NodeId → NodeId → Prop}
    (hlt : ∀ {a b}, r a b → a.index < t.size) (hr : ∀ n, ¬ TransGen r n n) : WellFounded r := by
  let within (i j : Fin t.size) : Prop := TransGen r ⟨i⟩ ⟨j⟩
  have htrans : IsTrans (Fin t.size) within := ⟨fun _ _ _ => TransGen.trans⟩
  have hirrefl : Std.Irrefl within := ⟨fun i => hr ⟨i⟩⟩
  have hwf : WellFounded within := Finite.wellFounded_of_trans_of_irrefl within
  have hacc (i : Fin t.size) : Acc r ⟨i⟩ := by
    induction i using hwf.induction with
    | _ i ih => exact ⟨_, fun a ha => ih ⟨a.index, hlt ha⟩ (.single ha)⟩
  refine ⟨fun n => ⟨n, fun a ha => hacc ⟨a.index, hlt ha⟩⟩⟩

variable {t : Tree} {p : Option NodeId} {cs : List NodeId} {n c c' x : NodeId}

/-- A grove is all that hangs below a list of nodes with one parent. -/
structure Stands (t : Tree) (p : Option NodeId) (cs : List NodeId) (b : Grove) : Prop where
  links : t.Links p b
  tops : tops b = cs
  mem : ∀ x, x ∈ ids b ↔ ∃ c ∈ cs, t.Under x c
  nodup : (ids b).Nodup

namespace IsForest

variable (h : t.IsForest)

include h

theorem wellFounded : WellFounded t.HangsIn :=
  wellFounded_of_acyclic (fun hab => (lt_of_hangsIn h.matched hab).1) h.acyclic

theorem wellFounded_swap : WellFounded (Function.swap t.HangsIn) :=
  wellFounded_of_acyclic (fun hab => (lt_of_hangsIn h.matched hab).2) fun n hn =>
    h.acyclic n (Relation.transGen_swap.1 hn)

/-- Nothing hangs below two nodes with one parent. -/
theorem apart (hc : t.parent c = p) (hc' : t.parent c' = p) (hne : c ≠ c') (hx : t.Under x c) :
    ¬ t.Under x c' := by
  have hunique : Relator.RightUnique fun n p => t.parent n = some p :=
    fun _ _ _ ha hb => Option.some.inj (ha.symm.trans hb)
  -- one of the two would be below the other, and so below their parent and above it
  have hnever {c c' : NodeId} (hc : t.parent c = p) (hc' : t.parent c' = p) (hne : c ≠ c') :
      ¬ t.Under c c' := by
    intro hunder
    obtain rfl | ⟨q, hq, hunder⟩ := hunder.cases_head
    · exact hne rfl
    · exact h.acyclic q (.tail' hunder (hc'.trans (hc.symm.trans hq)))
  intro hx'
  rcases hx.total_of_right_unique hunique hx' with hunder | hunder
  · exact hnever hc hc' hne hunder
  · exact hnever hc' hc hne.symm hunder

theorem under_iff : t.Under x n ↔ x = n ∨ ∃ c ∈ t.children n, t.Under x c := by
  constructor
  · intro hx
    obtain rfl | ⟨c, hunder, hc⟩ := hx.cases_tail
    · exact .inl rfl
    · exact .inr ⟨c, (h.matched c n).1 hc, hunder⟩
  · rintro (rfl | ⟨c, hc, hunder⟩)
    · exact .refl
    · exact hunder.tail ((h.matched c n).2 hc)

theorem exists_stands_of (hcs : cs.Nodup) (hp : ∀ c ∈ cs, t.parent c = p)
    (hbelow : ∀ c ∈ cs, ∃ b, t.Stands (some c) (t.children c) b) : ∃ b, t.Stands p cs b := by
  induction cs with
  | nil => exact ⟨.nil, trivial, rfl, by simp, .nil⟩
  | cons c cs ih =>
    rw [List.nodup_cons] at hcs
    rw [List.forall_mem_cons] at hp hbelow
    obtain ⟨b, hb⟩ := hbelow.1
    obtain ⟨r, hr⟩ := ih hcs.2 hp.2 hbelow.2
    have hnode : t.node c = ⟨t.kind c, p, tops b⟩ := by
      rw [hb.tops, ← hp.1]
      rfl
    refine ⟨.cons (c, t.kind c) b r, ⟨hnode, hb.links, hr.links⟩, ?_, fun x => ?_, ?_⟩
    · rw [Grove.tops_cons, hr.tops]
    · rw [Grove.ids_cons, List.mem_cons, List.mem_append, ← or_assoc, hb.mem, hr.mem,
        ← h.under_iff]
      simp
    · have hself : c ∉ ids b := by
        rw [hb.mem]
        rintro ⟨c', hc', hunder⟩
        exact h.acyclic c (.tail' hunder ((h.matched c' c).2 hc'))
      have hother {x : NodeId} (hx : t.Under x c) : x ∉ ids r := by
        rw [hr.mem]
        rintro ⟨c', hc', hunder⟩
        have hne : c ≠ c' := fun he => hcs.1 (he ▸ hc')
        exact h.apart hp.1 (hp.2 c' hc') hne hx hunder
      rw [Grove.ids_cons, List.nodup_cons, List.mem_append, not_or]
      refine ⟨⟨hself, hother .refl⟩, hb.nodup.append hr.nodup fun x hx => hother ?_⟩
      exact h.under_iff.2 (.inr ((hb.mem x).1 hx))

/-- What hangs below a node is a grove. -/
theorem exists_stands (n : NodeId) : ∃ b, t.Stands (some n) (t.children n) b := by
  induction n using h.wellFounded.induction with
  | _ n ih =>
    have hparent : ∀ c ∈ t.children n, t.HangsIn c n := fun c hc => (h.matched c n).2 hc
    exact h.exists_stands_of (h.nodup n) hparent fun c hc => ih c (hparent c hc)

/-- The arena holds a grove of all its nodes. -/
theorem exists_holds : ∃ f, t.Holds f ∧ ∀ n, n.index < t.size → n ∈ ids f := by
  let roots := ((List.range t.size).map NodeId.mk).filter fun n => t.parent n = none
  have hroots {n : NodeId} : n ∈ roots ↔ n.index < t.size ∧ t.parent n = none := by
    simp only [roots, List.mem_filter, List.mem_map, List.mem_range, decide_eq_true_eq]
    refine and_congr_left fun _ => ?_
    exact ⟨fun ⟨_, hi, he⟩ => he ▸ hi, fun hn => ⟨n.index, hn, rfl⟩⟩
  have hnodup : roots.Nodup :=
    (List.nodup_range.map fun _ _ he => congrArg NodeId.index he).filter _
  obtain ⟨f, hf⟩ := h.exists_stands_of hnodup (fun n hn => (hroots.1 hn).2) fun n _ =>
    h.exists_stands n
  refine ⟨f, ⟨hf.links, hf.nodup, fun x hx => ?_⟩, fun n hn => ?_⟩
  · obtain ⟨r, hr, hunder⟩ := (hf.mem x).1 hx
    obtain rfl | ⟨q, hq, -⟩ := hunder.cases_head
    · exact (hroots.1 hr).1
    · exact lt_of_parent hq
  · rw [hf.mem]
    induction n using h.wellFounded_swap.induction with
    | _ n ih =>
      cases hparent : t.parent n with
      | none => exact ⟨n, hroots.2 ⟨hn, hparent⟩, .refl⟩
      | some q =>
        obtain ⟨r, hr, hunder⟩ := ih q hparent (lt_of_hangsIn h.matched hparent).2
        exact ⟨r, hr, .head hparent hunder⟩

end IsForest

/-! Groves of all nodes are there in forests only. -/

theorem Links.parent_of_mem_tops {f : Grove} (h : t.Links p f) (hx : x ∈ tops f) :
    t.parent x = p := by
  induction f with
  | nil => cases hx
  | cons a b r _ ihr =>
    rcases List.mem_cons.1 hx with rfl | hx
    · rw [parent, h.1]
    · exact ihr h.2.2 hx

/-- A node of a grove is at the top of it, or it is a child of another one. -/
theorem Links.mem_tops_or {f : Grove} (h : t.Links p f) (hx : x ∈ ids f) :
    x ∈ tops f ∨ ∃ q, t.parent x = some q ∧ x ∈ t.children q := by
  induction f generalizing p with
  | nil => cases hx
  | cons a b r ihb ihr =>
    obtain ⟨ha, hb, hr⟩ := h
    rw [Grove.ids_cons, List.mem_cons, List.mem_append] at hx
    rw [Grove.tops_cons, List.mem_cons]
    rcases hx with rfl | hx | hx
    · exact .inl (.inl rfl)
    · rcases ihb hb hx with hx | hq
      · exact .inr ⟨a.1, hb.parent_of_mem_tops hx, by rw [children, ha]; exact hx⟩
      · exact .inr hq
    · exact (ihr hr hx).imp_left .inr

/-- What is below a node of a grove is all in the part of the grove below the node. -/
theorem mem_of_hangsIn {f b : Grove} {k : NodeKind} (hmatched : t.Matched) (h : t.Links p f)
    (hat : Grove.at? n f = some (k, b)) (hx : TransGen t.HangsIn x n) : x ∈ ids b := by
  obtain ⟨-, hchildren, hlinks⟩ := links_at? h hat
  induction hx using TransGen.head_induction_on with
  | single hparent =>
    apply Grove.mem_ids_of_mem_tops
    rw [← hchildren]
    exact (hmatched _ _).1 hparent
  | head hparent _ ih => exact hlinks.children_subset ih ((hmatched _ _).1 hparent)

theorem Holds.matched {f : Grove} (h : t.Holds f) (hall : ∀ n, n.index < t.size → n ∈ ids f) :
    t.Matched := by
  intro c q
  constructor
  · intro hc
    rcases h.links.mem_tops_or (hall c (lt_of_parent hc)) with htop | ⟨q', hq', hmem⟩
    · exact nomatch hc.symm.trans (h.links.parent_of_mem_tops htop)
    · rwa [Option.some.inj (hc.symm.trans hq')]
  · intro hc
    obtain ⟨⟨k, b⟩, hat⟩ := Grove.at?_eq_some_of_mem (hall q (lt_of_mem_children hc))
    obtain ⟨-, hchildren, hlinks⟩ := links_at? h.links hat
    exact hlinks.parent_of_mem_tops (hchildren ▸ hc)

/-- An arena that holds a grove of all its nodes is a forest. -/
theorem Holds.isForest {f : Grove} (h : t.Holds f) (hall : ∀ n, n.index < t.size → n ∈ ids f) :
    t.IsForest where
  matched := h.matched hall
  nodup q := by
    by_cases hq : q.index < t.size
    · obtain ⟨⟨k, b⟩, hat⟩ := Grove.at?_eq_some_of_mem (hall q hq)
      rw [(links_at? h.links hat).2.1]
      have hnodup := h.nodup.sublist (Grove.sublist_of_at? hat)
      exact (List.nodup_cons.1 hnodup).2.sublist (Grove.tops_sublist b)
    · rw [children_of_le (Nat.not_lt.1 hq)]
      exact .nil
  acyclic n hn := by
    have hlt : n.index < t.size := by
      obtain ⟨q, hq, -⟩ := Relation.TransGen.head'_iff.1 hn
      exact lt_of_parent hq
    obtain ⟨⟨k, b⟩, hat⟩ := Grove.at?_eq_some_of_mem (hall n hlt)
    have hnodup := h.nodup.sublist (Grove.sublist_of_at? hat)
    exact (List.nodup_cons.1 hnodup).1 (mem_of_hangsIn (h.matched hall) h.links hat hn)

end Tree

end SchemaForms
