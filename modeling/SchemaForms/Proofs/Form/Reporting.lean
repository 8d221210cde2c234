import SchemaForms.Proofs.Form.Outline
import Mathlib.Data.List.Perm.Basic

/-!
The anomalies that a form comes with.  Whenever an element is filled, each wildcard in the content
of its types gives cause to one, and so does each attribute and each element there that has no type.
Two forms that fill the same elements can be held against each other.
-/

namespace SchemaForms

/-- What is added last may as well be added before. -/
theorem perm_append_right_comm {α : Type} (xs ys zs : List α) :
    (xs ++ ys ++ zs).Perm (xs ++ zs ++ ys) := by
  rw [List.append_assoc, List.append_assoc]
  exact List.perm_append_comm.append_left xs

/-! Anomalies of contents. -/

namespace Schema

variable (s : Schema)

/-- The anomaly that an attribute gives cause to, if it has no type. -/
def useAnomalies (id : UseId) : List Anomaly :=
  if (s.use id).decl.type = none then [.unresolvedType (s.use id).decl.name.localName] else []

/-- The anomaly that an element gives cause to, if it has no type. -/
def elementAnomalies (id : ElementId) : List Anomaly :=
  if (s.element id).type = none then [.unresolvedType (s.element id).name.localName] else []

mutual

/-- The anomalies that a particle and the ones nested in it give cause to, where `owner` is
filled. -/
def particleAnomalies (owner : ElementId) : Particle → List Anomaly
  | .element occurs id => if occurs.isEmpty then [] else s.elementAnomalies id
  | .group _ _ members => particlesAnomalies owner members
  | .wildcard _ _ => [.unsupportedWildcard (s.element owner).name.localName]

def particlesAnomalies (owner : ElementId) : List Particle → List Anomaly
  | [] => []
  | p :: ps => particleAnomalies owner p ++ particlesAnomalies owner ps

end

/-- The anomalies of a content model, which has to be a group. -/
def modelAnomalies (owner : ElementId) (c : ComplexType) : List Anomaly :=
  match c.particle with
  | some (.group _ _ members) => s.particlesAnomalies owner members
  | _ => []

/-- The anomalies that the content of a type gives cause to, where `owner` is filled. -/
def contentAnomalies (owner : ElementId) (type : TypeId) : List Anomaly :=
  match s.complex? type with
  | none => []
  | some c => c.uses.flatMap s.useAnomalies ++ s.modelAnomalies owner c

end Schema

namespace Generator

variable (g : Generator) (root : ElementId)

/-- The anomalies that an element gives cause to when it is filled, with the contents that its types
have in a schema. -/
def fillingAnomalies (s : Schema) (id : ElementId) : List Anomaly :=
  match (g.schema.element id).type with
  | none => []
  | some t => (g.fillings t).flatMap (s.contentAnomalies id)

/-- The anomaly of something that has no type stays away where it is passed over: something of the
same name, which has a type, has been given a control in an earlier case. -/
def MayPass : Anomaly → Prop
  | .unresolvedType name =>
    (∃ id id', (g.schema.element id).type = none ∧ (g.schema.element id).name.localName = name ∧
      (g.schema.element id').name = (g.schema.element id).name ∧
      (g.schema.element id').type.isSome) ∨
    ∃ id id', (g.schema.use id).decl.type = none ∧ (g.schema.use id).decl.name.localName = name ∧
      (g.schema.use id').decl.name = (g.schema.use id).decl.name ∧
      (g.schema.use id').decl.type.isSome
  | _ => False

/-- Anomalies that no content gives cause to: those of the root, and those of other kinds. -/
def IsOther : Anomaly → Prop
  | .unresolvedType name =>
    (g.schema.element root).type = none ∧ (g.schema.element root).name.localName = name
  | .unsupportedWildcard _ => False
  | _ => True

/-- The anomalies `as` of a form, and the anomalies `bs` that it has with another schema in place of
the original one.  Of the former some are missing in the latter.  The same elements are filled, and
whatever their contents give cause to is there, as often as they are filled; but for what is passed
over, and apart from what no content gives cause to, both of which are the same in the two forms.
What has been gone through so far of elements that are still being filled is due. -/
structure Accounts (s' : Schema) (due due' as bs : List Anomaly) : Prop where
  sublist : bs.Sublist as
  balance : ∃ (filled : List ElementId) (passed others : List Anomaly),
    (∀ id ∈ filled, g.Leads root id) ∧ (∀ a ∈ passed, g.MayPass a) ∧
    (∀ a ∈ others, g.IsOther root a) ∧
    (as ++ passed).Perm (filled.flatMap (g.fillingAnomalies g.schema) ++ others ++ due) ∧
    (bs ++ passed).Perm (filled.flatMap (g.fillingAnomalies s') ++ others ++ due')

namespace Accounts

variable {g root} {s' : Schema} {due due' due₁ due₁' as bs : List Anomaly} {a : Anomaly}

theorem nil : g.Accounts root s' [] [] [] [] :=
  ⟨.refl _, [], [], [], by simp, by simp, by simp, .refl _, .refl _⟩

theorem perm (h : g.Accounts root s' due due' as bs) (hdue : due.Perm due₁)
    (hdue' : due'.Perm due₁') : g.Accounts root s' due₁ due₁' as bs := by
  obtain ⟨filled, passed, others, hfilled, hpassed, hothers, has, hbs⟩ := h.balance
  exact ⟨h.sublist, filled, passed, others, hfilled, hpassed, hothers,
    has.trans (hdue.append_left _), hbs.trans (hdue'.append_left _)⟩

/-- Both report what is due. -/
theorem report (h : g.Accounts root s' due due' as bs) (a : Anomaly) :
    g.Accounts root s' (due ++ [a]) (due' ++ [a]) (as ++ [a]) (bs ++ [a]) := by
  obtain ⟨filled, passed, others, hfilled, hpassed, hothers, has, hbs⟩ := h.balance
  refine ⟨h.sublist.append (.refl _), filled, passed, others, hfilled, hpassed, hothers, ?_, ?_⟩
  · rw [← List.append_assoc]
    exact (perm_append_right_comm ..).trans (has.append_right _)
  · rw [← List.append_assoc]
    exact (perm_append_right_comm ..).trans (hbs.append_right _)

/-- The one reports what is due there alone. -/
theorem drop (h : g.Accounts root s' due due' as bs) (a : Anomaly) :
    g.Accounts root s' (due ++ [a]) due' (as ++ [a]) bs := by
  obtain ⟨filled, passed, others, hfilled, hpassed, hothers, has, hbs⟩ := h.balance
  refine ⟨h.sublist.trans (List.sublist_append_left ..), filled, passed, others, hfilled, hpassed,
    hothers, ?_, hbs⟩
  rw [← List.append_assoc]
  exact (perm_append_right_comm ..).trans (has.append_right _)

/-- Both pass over what is due. -/
theorem pass (h : g.Accounts root s' due due' as bs) (ha : g.MayPass a) :
    g.Accounts root s' (due ++ [a]) (due' ++ [a]) as bs := by
  obtain ⟨filled, passed, others, hfilled, hpassed, hothers, has, hbs⟩ := h.balance
  refine ⟨h.sublist, filled, passed ++ [a], others, hfilled, ?_, hothers, ?_, ?_⟩
  · rw [List.forall_mem_append, List.forall_mem_singleton]
    exact ⟨hpassed, ha⟩
  · rw [← List.append_assoc, ← List.append_assoc]
    exact has.append_right _
  · rw [← List.append_assoc, ← List.append_assoc]
    exact hbs.append_right _

/-- What both report, and what nothing that is filled gives cause to, need not be due. -/
theorem remit (h : g.Accounts root s' (due ++ [a]) (due' ++ [a]) as bs) (ha : g.IsOther root a) :
    g.Accounts root s' due due' as bs := by
  obtain ⟨filled, passed, others, hfilled, hpassed, hothers, has, hbs⟩ := h.balance
  refine ⟨h.sublist, filled, passed, others ++ [a], hfilled, hpassed, ?_, ?_, ?_⟩
  · rw [List.forall_mem_append, List.forall_mem_singleton]
    exact ⟨hothers, ha⟩
  · rw [← List.append_assoc] at has ⊢
    exact has.trans (perm_append_right_comm ..)
  · rw [← List.append_assoc] at hbs ⊢
    exact hbs.trans (perm_append_right_comm ..)

/-- What an element gives cause to is settled when it has been filled. -/
theorem fill {id : ElementId}
    (h : g.Accounts root s' (due ++ g.fillingAnomalies g.schema id)
      (due' ++ g.fillingAnomalies s' id) as bs) (hid : g.Leads root id) :
    g.Accounts root s' due due' as bs := by
  have hmove (s : Schema) (filled : List ElementId) (others due : List Anomaly) :
      (filled.flatMap (g.fillingAnomalies s) ++ others ++ (due ++ g.fillingAnomalies s id)).Perm
        ((filled ++ [id]).flatMap (g.fillingAnomalies s) ++ others ++ due) := by
    refine List.perm_iff_count.2 fun a => ?_
    simp only [List.flatMap_append, List.flatMap_singleton, List.count_append]
    omega
  obtain ⟨filled, passed, others, hfilled, hpassed, hothers, has, hbs⟩ := h.balance
  refine ⟨h.sublist, filled ++ [id], passed, others, ?_, hpassed, hothers, has.trans (hmove ..),
    hbs.trans (hmove ..)⟩
  rw [List.forall_mem_append, List.forall_mem_singleton]
  exact ⟨hfilled, hid⟩

end Accounts

end Generator

end SchemaForms
