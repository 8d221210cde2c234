import SchemaForms.Proofs.Form.Outcome
import SchemaForms.Proofs.Form.Relevance
import SchemaForms.Proofs.Form.Resolving
import SchemaForms.Proofs.Form.Seats

/-!
Exposure: the cases of a switch show every field that is relevant for their types.  Copies of a
switch do so too, as they are for the same binds; and so it stays when binds and prefixes are added.
-/

namespace SchemaForms

open Forest (tree)

namespace Forest

variable {α β : Type}

/-- The trees of a forest, each with what is below its label. -/
def trees : Forest α → List (α × Forest α)
  | nil => []
  | cons a below after => (a, below) :: trees after

@[simp] theorem trees_append (f f' : Forest α) : (f ++ f').trees = f.trees ++ f'.trees := by
  induction f with
  | nil => rfl
  | cons a below after _ ih => simp [trees, ih]

theorem trees_map (o : α → β) (f : Forest α) :
    (f.map o).trees = f.trees.map fun p => (o p.1, p.2.map o) := by
  induction f with
  | nil => rfl
  | cons a below after _ ih => simp [trees, ih]

theorem parts_map (o : α → β) (f : Forest α) :
    (f.map o).parts = f.parts.map fun p => (o p.1, p.2.map o) := by
  induction f with
  | nil => rfl
  | cons a below after ihb iha => simp [parts, ihb, iha]

end Forest

/-- The name that a case bears. -/
def NodeKind.caseLabel? : NodeKind → Option String
  | .control { kind := .switchCase _, label := label, .. } => label
  | _ => none

/-- What matters of a node for what a switch shows; copies have it in common. -/
def NodeKind.mark (k : NodeKind) : Bool × Option String × Option String :=
  (k.isSwitch, k.control?.bind (·.bind), k.caseLabel?)

theorem Forest.map_mark_copy (f : Forest NodeKind) (ids : Identifiers) :
    (f.copy ids).1.map NodeKind.mark = f.map NodeKind.mark := by
  refine map_copy (fun k r => ?_) (fun k table => ?_) f ids
  · cases k with
    | control c =>
      obtain ⟨id, kind, label, bind, appearance, hint⟩ := c
      cases kind with
      | trigger action => cases action <;> rfl
      | _ => rfl
    | _ => rfl
  · cases k with
    | control c =>
      obtain ⟨id, kind, label, bind, appearance, hint⟩ := c
      cases kind with
      | trigger action => cases action <;> rfl
      | _ => rfl
    | _ => rfl

section Marks

variable {f f' : Forest NodeKind} {k k' : NodeKind}

theorem NodeKind.isBoundTo_of_mark (h : k.mark = k'.mark) (id : String) :
    k.isBoundTo id = k'.isBoundTo id := by
  have hbind : k.control?.bind (·.bind) = k'.control?.bind (·.bind) := congrArg (·.2.1) h
  rw [NodeKind.isBoundTo, NodeKind.isBoundTo, hbind]

theorem Forest.Binds.of_marks {id : String} (h : f.Binds id)
    (hmarks : f.map NodeKind.mark = f'.map NodeKind.mark) : f'.Binds id := by
  obtain ⟨k, hk, hid⟩ := h
  have hmem : k.mark ∈ (f'.map NodeKind.mark).labels := by
    rw [← hmarks, Forest.labels_map]
    exact List.mem_map_of_mem hk
  rw [Forest.labels_map] at hmem
  obtain ⟨k', hk', hmark⟩ := List.mem_map.1 hmem
  exact ⟨k', hk', (NodeKind.isBoundTo_of_mark hmark id).trans hid⟩

theorem Forest.binds_append {id : String} : (f ++ f').Binds id ↔ f.Binds id ∨ f'.Binds id := by
  simp only [Forest.Binds, Forest.labels_append, List.mem_append, or_and_right, exists_or]

theorem Forest.Binds.append_left {id : String} (h : f.Binds id) (f' : Forest NodeKind) :
    (f ++ f').Binds id := Forest.binds_append.2 (.inl h)

theorem Forest.Binds.append_right {id : String} (h : f'.Binds id) (f : Forest NodeKind) :
    (f ++ f').Binds id := Forest.binds_append.2 (.inr h)

theorem Forest.Binds.tree {id : String} (h : f.Binds id) (k : NodeKind) :
    (Forest.tree k f).Binds id := by
  obtain ⟨k', hk', hid⟩ := h
  exact ⟨k', by simp [Forest.tree, hk'], hid⟩

theorem Forest.binds_root {id : String} (h : k.isBoundTo id = true) (f : Forest NodeKind) :
    (Forest.tree k f).Binds id :=
  ⟨k, by simp [Forest.tree], h⟩

end Marks

/-- Binds by their identifiers and nodesets, with what is below them. -/
abbrev Holding := String × String × Forest Bind

/-- What stays of a kid when its relevance, its source and notes change. -/
def Kid.holding (kid : Kid) : Holding := (kid.bind.id, kid.bind.nodeset, kid.below)

def Kid.holdings (kids : List Kid) : List Holding :=
  (Kid.forest kids).parts.map fun p => (p.1.id, p.1.nodeset, p.2)

@[simp] theorem Kid.holdings_nil : Kid.holdings [] = [] := rfl

theorem Kid.holdings_append (kids kids' : List Kid) :
    Kid.holdings (kids ++ kids') = Kid.holdings kids ++ Kid.holdings kids' := by
  rw [holdings, Kid.forest_append, Forest.parts_append, List.map_append]
  rfl

/-- A bind is there, and what is below it. -/
theorem Kid.holdings_cons (kid : Kid) (kids : List Kid) :
    Kid.holdings (kid :: kids) = kid.holding ::
      (kid.below.parts.map fun p => (p.1.id, p.1.nodeset, p.2)) ++ Kid.holdings kids := by
  simp [holdings, holding, Kid.forest, Forest.parts]

theorem Kid.holdings_congr {kids kids' : List Kid}
    (h : kids.map Kid.holding = kids'.map Kid.holding) : Kid.holdings kids = Kid.holdings kids' := by
  have hflat (kids : List Kid) : Kid.holdings kids = (kids.map Kid.holding).flatMap fun c =>
      c :: c.2.2.parts.map fun p => (p.1.id, p.1.nodeset, p.2) := by
    induction kids with
    | nil => rfl
    | cons kid kids ih =>
      rw [Kid.holdings_cons, ih]
      rfl
  rw [hflat, hflat, h]

section Exposure

variable (g : Generator) (prefixes : PrefixTable)

/-- The case of one type, for the element of a bind, bears the name of the type and shows those of
the fields that are relevant for it, other than the text. -/
structure Exposes (owner : String) (fields : List Bind) (t : TypeId) (k : NodeKind)
    (below : Forest NodeKind) : Prop where
  labelled : k.caseLabel? = some (caption (g.schema.displayName t))
  boxed : ∃ group inner, below = tree group inner ∧ group.isBoundTo owner = true
  shown : ∃ value, g.typeText prefixes t = some value ∧
    ∀ b ∈ fields, b.nodeset ≠ "." → b.Concerns value → below.Binds b.id

/-- The cases of a switch are for the types that an element may have, and show all fields of its
bind that are relevant for them. -/
def ExposesAll (holdings : List Holding) (cases : Forest NodeKind) : Prop :=
  ∃ id t owner nodeset fields, (g.schema.element id).type = some t ∧ 2 ≤ (g.candidates t).length ∧
    (owner, nodeset, fields) ∈ holdings ∧
    (∃ x, prefixes.textOf (g.schema.element id).name = some x ∧
      (nodeset = x ∨ nodeset = "/" ++ x)) ∧
    List.Forall₂ (fun t p => Exposes g prefixes owner fields.roots t p.1 p.2) (g.candidates t)
      cases.trees

/-- So do all switches of a forest. -/
def Exposing (holdings : List Holding) (f : Forest NodeKind) : Prop :=
  ∀ p ∈ f.parts, p.1.isSwitch = true → ExposesAll g prefixes holdings p.2

end Exposure

section Exposure

variable {g : Generator} {prefixes prefixes' : PrefixTable} {holdings holdings' : List Holding}
  {f f' cases cases' : Forest NodeKind} {k : NodeKind}

theorem PrefixTable.Extends.typeText (h : prefixes.Extends prefixes') {t : TypeId}
    {value : String} (ht : g.typeText prefixes t = some value) :
    g.typeText prefixes' t = some value := by
  unfold Generator.typeText at ht ⊢
  cases hname : (g.schema.typeDef t).name? with
  | none => simpa [hname] using ht
  | some name =>
    simp only [hname] at ht ⊢
    exact h.textOf ht

theorem Exposes.mono {owner : String} {fields : List Bind} {t : TypeId}
    (h : Exposes g prefixes owner fields t k cases) (hp : prefixes.Extends prefixes') :
    Exposes g prefixes' owner fields t k cases where
  labelled := h.labelled
  boxed := h.boxed
  shown := by
    obtain ⟨value, hvalue, hall⟩ := h.shown
    exact ⟨value, hp.typeText hvalue, hall⟩

/-- What a case shows is told by the marks of its controls. -/
theorem Exposes.of_marks {owner : String} {fields : List Bind} {t : TypeId} {k' : NodeKind}
    (h : Exposes g prefixes owner fields t k cases) (hk : k.mark = k'.mark)
    (hcases : cases.map NodeKind.mark = cases'.map NodeKind.mark) :
    Exposes g prefixes owner fields t k' cases' where
  labelled := by
    have hlabel : k.caseLabel? = k'.caseLabel? := congrArg (·.2.2) hk
    rw [← hlabel]
    exact h.labelled
  boxed := by
    obtain ⟨group, inner, rfl, hbound⟩ := h.boxed
    cases cases' with
    | nil => cases hcases
    | cons group' inner' after =>
      simp only [tree, Forest.map_cons, Forest.map_nil, Forest.cons.injEq] at hcases
      obtain ⟨hgroup, -, hafter⟩ := hcases
      cases after with
      | nil => exact ⟨group', inner', rfl, (NodeKind.isBoundTo_of_mark hgroup owner) ▸ hbound⟩
      | cons => cases hafter
  shown := by
    obtain ⟨value, hvalue, hall⟩ := h.shown
    exact ⟨value, hvalue, fun b hb hdot hc => (hall b hb hdot hc).of_marks hcases⟩

theorem ExposesAll.mono (h : ExposesAll g prefixes holdings cases)
    (hp : prefixes.Extends prefixes') (hsub : holdings ⊆ holdings') :
    ExposesAll g prefixes' holdings' cases := by
  obtain ⟨id, t, owner, nodeset, fields, htype, hlength, hmem, ⟨x, hx, hnodeset⟩, hall⟩ := h
  exact ⟨id, t, owner, nodeset, fields, htype, hlength, hsub hmem, ⟨x, hp.textOf hx, hnodeset⟩,
    hall.imp fun _ _ hcase => hcase.mono hp⟩

theorem ExposesAll.of_marks (h : ExposesAll g prefixes holdings cases)
    (hcases : cases.map NodeKind.mark = cases'.map NodeKind.mark) :
    ExposesAll g prefixes holdings cases' := by
  obtain ⟨id, t, owner, nodeset, fields, htype, hlength, hmem, hnodeset, hall⟩ := h
  refine ⟨id, t, owner, nodeset, fields, htype, hlength, hmem, hnodeset, ?_⟩
  have htrees := congrArg Forest.trees hcases
  rw [Forest.trees_map, Forest.trees_map] at htrees
  clear hlength hcases
  generalize g.candidates t = ts at hall ⊢
  generalize cases.trees = ps at hall htrees
  generalize cases'.trees = ps' at htrees ⊢
  induction hall generalizing ps' with
  | nil =>
    rw [List.map_nil, eq_comm, List.map_eq_nil_iff] at htrees
    rw [htrees]
    exact .nil
  | cons hcase _ ih =>
    cases ps' with
    | nil => cases htrees
    | cons p' ps' =>
      rw [List.map_cons, List.map_cons, List.cons.injEq, Prod.mk.injEq] at htrees
      exact .cons (hcase.of_marks htrees.1.1 htrees.1.2) (ih _ htrees.2)

namespace Exposing

theorem nil : Exposing g prefixes holdings .nil := fun _ hp => nomatch hp

theorem append_iff : Exposing g prefixes holdings (f ++ f') ↔
    Exposing g prefixes holdings f ∧ Exposing g prefixes holdings f' := by
  simp only [Exposing, Forest.parts_append, List.mem_append, or_imp, forall_and]

theorem append (h : Exposing g prefixes holdings f) (h' : Exposing g prefixes holdings f') :
    Exposing g prefixes holdings (f ++ f') := append_iff.2 ⟨h, h'⟩

theorem mono (h : Exposing g prefixes holdings f) (hp : prefixes.Extends prefixes')
    (hsub : holdings ⊆ holdings') : Exposing g prefixes' holdings' f :=
  fun p hpart hswitch => (h p hpart hswitch).mono hp hsub

theorem leaves {cs : List Control} (h : ∀ c ∈ cs, c.kind ≠ .switch) :
    Exposing g prefixes holdings (.leaves (cs.map .control)) := by
  intro p hp hswitch
  rw [Forest.parts_leaves, List.mem_map] at hp
  obtain ⟨k, hk, rfl⟩ := hp
  obtain ⟨c, hc, rfl⟩ := List.mem_map.1 hk
  exact absurd (by simpa [NodeKind.isSwitch] using hswitch) (h c hc)

/-- A control around others, which is no switch or shows what it has to. -/
theorem tree (h : Exposing g prefixes holdings f)
    (hk : k.isSwitch = true → ExposesAll g prefixes holdings f) :
    Exposing g prefixes holdings (tree k f) := by
  intro p hp
  rw [Forest.parts_tree, List.mem_cons] at hp
  rcases hp with rfl | hp
  · exact hk
  · exact h p hp

theorem part (h : Exposing g prefixes holdings f) {below : Forest NodeKind}
    (hpart : (k, below) ∈ f.parts) : Exposing g prefixes holdings (Forest.tree k below) :=
  fun p hp => h p (Forest.parts_subset_of_mem hpart hp)

/-- The switches of a copy show what those show that have been copied. -/
theorem copy (h : Exposing g prefixes holdings f) (ids : Identifiers) :
    Exposing g prefixes holdings (f.copy ids).1 := by
  intro p hp hswitch
  have hparts := congrArg Forest.parts (f.map_mark_copy ids)
  rw [Forest.parts_map, Forest.parts_map] at hparts
  have hmem : (p.1.mark, p.2.map NodeKind.mark) ∈
      f.parts.map fun p => (p.1.mark, p.2.map NodeKind.mark) := by
    rw [← hparts]
    exact List.mem_map.2 ⟨p, hp, rfl⟩
  obtain ⟨q, hq, heq⟩ := List.mem_map.1 hmem
  rw [Prod.mk.injEq] at heq
  have hsame : q.1.isSwitch = p.1.isSwitch := congrArg (·.1) heq.1
  exact (h q hq (hsame.trans hswitch)).of_marks heq.2

end Exposing

end Exposure

end SchemaForms
