import SchemaForms.Proofs.Form.Growing

/-!
References between the nodes of a form: what a node refers to, and what it is for others.  A copy of
some trees refers to the copies where the source refers to itself.
-/

namespace SchemaForms

open Identifiers (identifier endings)
open Forest (tree)

/-- What a node of a form can refer to. -/
inductive Reference where
  | bind (id : String)
  | case (id : String)
  | select (id : String)
  | region (id : String)
  | submission (id : String)
  deriving DecidableEq, Repr

def Choice.references (c : Choice) : List Reference := c.toggle.toList.map fun t => .case t.caseId

def Action.references : Action → List Reference
  | .insert _ bind _ index => bind.toList.map .bind ++ (indexTarget index).toList.map .region
  | .delete _ bind index => bind.toList.map .bind ++ (indexTarget index).toList.map .region
  | .dispatch _ _ _ target => [.select target]

def ControlKind.references : ControlKind → List Reference
  | .selectOne choices => choices.flatMap Choice.references
  | .selectMany choices => choices.flatMap Choice.references
  | .trigger (some action) => action.references
  | .submit submission => [.submission submission]
  | _ => []

def Control.references (c : Control) : List Reference :=
  c.bind.toList.map .bind ++ c.kind.references

/-- Everything that a node refers to. -/
def NodeKind.references : NodeKind → List Reference
  | .control c => c.references
  | _ => []

/-- What an identifier stands for at a control with the name. -/
def Reference.named (name id : String) : Option Reference :=
  if name = "case" then some (.case id)
  else if name = "select1" then some (.select id)
  else if name = "repeat" then some (.region id)
  else none

/-- What a control is for others. -/
def Control.target? (c : Control) : Option Reference :=
  match c.kind with
  | .switchCase _ => some (.case c.id)
  | .selectOne _ => some (.select c.id)
  | .repeatRegion => some (.region c.id)
  | _ => none

/-- What a node is for others. -/
def NodeKind.target? : NodeKind → Option Reference
  | .bind b => some (.bind b.id)
  | .submission id _ _ => some (.submission id)
  | .control c => c.target?
  | _ => none

theorem Control.target?_eq (c : Control) : c.target? = Reference.named c.kind.elementName c.id := by
  cases c with
  | mk id kind =>
    cases kind <;> simp [Control.target?, Reference.named, ControlKind.elementName]

/-- A control is titled by an identifier of its own name, a trigger perhaps by one of a repeat. -/
def Control.Titled (c : Control) : Prop :=
  c.Named ∨
    c.kind.elementName = "trigger" ∧ ∃ n, ∃ e ∈ endings, c.id = identifier "repeat" n ++ "-" ++ e

/-- Controls with the same identifier are of the same name. -/
theorem Control.Titled.elementName_eq {c c' : Control} (h : c.Titled) (h' : c'.Titled)
    (hid : c.id = c'.id) : c.kind.elementName = c'.kind.elementName := by
  rcases h with ⟨n, hn⟩ | ⟨hc, n, e, he, hn⟩
  · rcases h' with ⟨n', hn'⟩ | ⟨-, n', e', he', hn'⟩
    · rw [hn, hn'] at hid
      exact (Identifiers.identifier_injective hid).1
    · rw [hn, hn'] at hid
      exact absurd hid (Identifiers.identifier_ne_ending he')
  · rcases h' with ⟨n', hn'⟩ | ⟨hc', -⟩
    · rw [hn, hn'] at hid
      exact absurd hid.symm (Identifiers.identifier_ne_ending he)
    · rw [hc, hc']

/-- So they are the same for others. -/
theorem Control.Titled.target?_eq {c c' : Control} (h : c.Titled) (h' : c'.Titled)
    (hid : c.id = c'.id) : c.target? = c'.target? := by
  rw [Control.target?_eq, Control.target?_eq, h.elementName_eq h' hid, hid]

namespace Reference

def id : Reference → String
  | .bind id => id
  | .case id => id
  | .select id => id
  | .region id => id
  | .submission id => id

/-- References to controls are redirected. -/
def redirect (table : Table String String) : Reference → Reference
  | .case id => .case (renamed table id)
  | .select id => .select (renamed table id)
  | .region id => .region (renamed table id)
  | ref => ref

theorem id_of_named {name x : String} {ref : Reference} (h : named name x = some ref) :
    ref.id = x := by
  unfold named at h
  split at h
  · cases h
    rfl
  · split at h
    · cases h
      rfl
    · split at h
      · cases h
        rfl
      · cases h

theorem redirect_of_named {name x y : String} {ref : Reference} {table : Table String String}
    (h : named name x = some ref) (hx : renamed table x = y) :
    named name y = some (ref.redirect table) := by
  unfold named at h ⊢
  split at h
  · cases h
    rw [if_pos ‹_›, ← hx]
    rfl
  · split at h
    · cases h
      rw [if_neg ‹_›, if_pos ‹_›, ← hx]
      rfl
    · split at h
      · cases h
        rw [if_neg ‹_›, if_neg ‹_›, if_pos ‹_›, ← hx]
        rfl
      · cases h

end Reference

/-! Copying single controls. -/

section Renumbering

theorem Choice.references_renumber (c : Choice) (ids : Identifiers) :
    (c.renumber ids).1.references = c.references := by
  obtain ⟨id, label, value, toggle⟩ := c
  cases toggle <;> rfl

theorem references_renumberChoices (cs : List Choice) (ids : Identifiers) :
    (renumberChoices cs ids).1.flatMap Choice.references = cs.flatMap Choice.references := by
  induction cs generalizing ids with
  | nil => rfl
  | cons c cs ih =>
    exact congrArg₂ (· ++ ·) (c.references_renumber ids) (ih (c.renumber ids).2)

theorem Action.references_renumber (a : Action) (ids : Identifiers) :
    (a.renumber ids).1.references = a.references := by
  cases a <;> rfl

theorem ControlKind.references_renumber (k : ControlKind) (ids : Identifiers) :
    (k.renumber ids).1.references = k.references := by
  cases k with
  | selectOne cs => exact references_renumberChoices cs ids
  | selectMany cs => exact references_renumberChoices cs ids
  | trigger action =>
    cases action with
    | none => rfl
    | some a => exact a.references_renumber ids
  | _ => rfl

theorem ControlKind.elementName_renumber (k : ControlKind) (ids : Identifiers) :
    (k.renumber ids).1.elementName = k.elementName := by
  cases k with
  | trigger action => cases action <;> rfl
  | _ => rfl

theorem Control.references_renumber (c : Control) (ids : Identifiers) :
    (c.renumber ids).1.references = c.references :=
  congrArg (c.bind.toList.map Reference.bind ++ ·) (c.kind.references_renumber _)

theorem Control.elementName_renumber (c : Control) (ids : Identifiers) :
    (c.renumber ids).1.kind.elementName = c.kind.elementName := c.kind.elementName_renumber _

theorem Control.named_renumber (c : Control) (ids : Identifiers) : (c.renumber ids).1.Named := by
  refine ⟨ids.count c.kind.elementName, ?_⟩
  rw [c.elementName_renumber]
  rfl

end Renumbering

section Redirecting

variable (table : Table String String)

theorem Choice.references_redirect (c : Choice) :
    (c.redirect table).references = c.references.map (Reference.redirect table) := by
  obtain ⟨id, label, value, toggle⟩ := c
  cases toggle <;> rfl

theorem references_redirectChoices (cs : List Choice) :
    (cs.map (Choice.redirect table)).flatMap Choice.references =
      (cs.flatMap Choice.references).map (Reference.redirect table) := by
  rw [List.flatMap_map, List.map_flatMap]
  exact congrArg (cs.flatMap ·) (funext fun c => c.references_redirect table)

theorem indexTarget_redirectIndex (index : String) :
    indexTarget (redirectIndex table index) = (indexTarget index).map (renamed table) := by
  unfold redirectIndex
  cases htarget : indexTarget index with
  | none => exact htarget
  | some id =>
    cases hid : table.get? id with
    | none => simpa [hid, renamed] using htarget
    | some id' => simp [hid, renamed, indexTarget_indexExpression]

theorem Action.references_redirect (a : Action) :
    (a.redirect table).references = a.references.map (Reference.redirect table) := by
  have hplace (bind : Option String) (index : String) :
      bind.toList.map Reference.bind ++
          (indexTarget (redirectIndex table index)).toList.map .region =
        (bind.toList.map Reference.bind ++ (indexTarget index).toList.map Reference.region).map
          (Reference.redirect table) := by
    rw [indexTarget_redirectIndex]
    cases bind <;> cases indexTarget index <;> rfl
  cases a with
  | insert id bind position index => exact hplace bind index
  | delete id bind index => exact hplace bind index
  | dispatch => rfl

theorem ControlKind.references_redirect (k : ControlKind) :
    (k.redirect table).references = k.references.map (Reference.redirect table) := by
  cases k with
  | selectOne cs => exact references_redirectChoices table cs
  | selectMany cs => exact references_redirectChoices table cs
  | trigger action =>
    cases action with
    | none => rfl
    | some a => exact a.references_redirect table
  | _ => rfl

theorem Control.references_redirect (c : Control) :
    (c.redirect table).references = c.references.map (Reference.redirect table) := by
  have hbind : c.bind.toList.map Reference.bind =
      (c.bind.toList.map Reference.bind).map (Reference.redirect table) := by
    cases c.bind <;> rfl
  rw [Control.references, Control.references, List.map_append, ← hbind]
  exact congrArg (_ ++ ·) (c.kind.references_redirect table)

theorem Control.elementName_redirect (c : Control) :
    (c.redirect table).kind.elementName = c.kind.elementName := by
  obtain ⟨id, kind⟩ := c
  cases kind with
  | trigger action => cases action <;> rfl
  | _ => rfl

end Redirecting

/-! Copying whole trees. -/

namespace NodeKind

/-- Copies are made of markup, binds and controls. -/
def Duplicable : NodeKind → Prop
  | .markup _ => True
  | .bind _ => True
  | .control _ => True
  | _ => False

/-- Markup is copied as it is; what a copy of another node is called is noted. -/
theorem copyOne_spec {k : NodeKind} (hk : k.Duplicable) (r : Renaming) :
    k.id? = none ∧ copyOne k r = (k, r) ∨
      ∃ x y, k.id? = some x ∧ (copyOne k r).1.id? = some y ∧
        (copyOne k r).2.table = r.table.put x y := by
  cases k with
  | markup => exact .inl ⟨rfl, rfl⟩
  | bind b => exact .inr ⟨_, _, rfl, rfl, rfl⟩
  | control c => exact .inr ⟨_, _, rfl, rfl, rfl⟩
  | _ => exact hk.elim

theorem id?_redirect (k : NodeKind) (table : Table String String) :
    (k.redirect table).id? = k.id? := by
  cases k <;> rfl

end NodeKind

namespace Forest

/-- All nodes are controls with identifiers of their own. -/
def Titled (f : Forest NodeKind) : Prop := ∀ k ∈ f.labels, ∃ c, k = .control c ∧ c.Titled

/-- All nodes are of kinds that copies are made of. -/
def Duplicable (f : Forest NodeKind) : Prop := ∀ k ∈ f.labels, k.Duplicable

/-- Every node of some trees with its copy. -/
def copyPairs : Forest NodeKind → Renaming → List (NodeKind × NodeKind)
  | .nil, _ => []
  | .cons k below after, r =>
    (k, (copyOne k r).1) ::
      (copyPairs below (copyOne k r).2 ++ copyPairs after (copyAll below (copyOne k r).2).2)

theorem fst_copyPairs (f : Forest NodeKind) (r : Renaming) :
    (f.copyPairs r).map (·.1) = f.labels := by
  induction f generalizing r with
  | nil => rfl
  | cons k below after ihb iha => simp [copyPairs, ihb, iha]

theorem snd_copyPairs (f : Forest NodeKind) (r : Renaming) :
    (f.copyPairs r).map (·.2) = (f.copyAll r).1.labels := by
  induction f generalizing r with
  | nil => rfl
  | cons k below after ihb iha => simp [copyPairs, copyAll, ihb, iha]

theorem mem_copyPairs {f : Forest NodeKind} (hf : f.Titled) {r : Renaming}
    {p : NodeKind × NodeKind} (hp : p ∈ f.copyPairs r) :
    ∃ c ids, c.Titled ∧ p = (.control c, .control (c.renumber ids).1) := by
  induction f generalizing r with
  | nil => cases hp
  | cons k below after ihb iha =>
    simp only [Titled, labels_cons, List.mem_cons, List.mem_append] at hf
    simp only [copyPairs, List.mem_cons, List.mem_append] at hp
    rcases hp with rfl | hp | hp
    · obtain ⟨c, rfl, hc⟩ := hf k (.inl rfl)
      exact ⟨c, r.ids, hc, rfl⟩
    · exact ihb (fun k hk => hf k (.inr (.inl hk))) hp
    · exact iha (fun k hk => hf k (.inr (.inr hk))) hp

theorem Titled.duplicable {f : Forest NodeKind} (hf : f.Titled) : f.Duplicable := by
  intro k hk
  obtain ⟨c, rfl, -⟩ := hf k hk
  trivial

theorem eq_copyOne_of_mem_copyPairs {f : Forest NodeKind} {r : Renaming} {p : NodeKind × NodeKind}
    (hp : p ∈ f.copyPairs r) : ∃ r', p.2 = (copyOne p.1 r').1 := by
  induction f generalizing r with
  | nil => cases hp
  | cons k below after ihb iha =>
    simp only [copyPairs, List.mem_cons, List.mem_append] at hp
    rcases hp with rfl | hp | hp
    · exact ⟨r, rfl⟩
    · exact ihb hp
    · exact iha hp

/-- What an identifier has become is the identifier of a copy, if it is one of the source. -/
theorem get?_copyAll {f : Forest NodeKind} (hf : f.Duplicable) (r : Renaming) (x : String) :
    ((∀ k ∈ f.labels, k.id? ≠ some x) ∧ (f.copyAll r).2.table.get? x = r.table.get? x) ∨
      ∃ p ∈ f.copyPairs r, p.1.id? = some x ∧ (f.copyAll r).2.table.get? x = p.2.id? := by
  induction f generalizing r with
  | nil => exact .inl ⟨fun k hk => absurd hk List.not_mem_nil, rfl⟩
  | cons k below after ihb iha =>
    simp only [Duplicable, labels_cons, List.mem_cons, List.mem_append] at hf
    simp only [copyPairs, copyAll, labels_cons, List.mem_cons, List.mem_append]
    rcases iha (fun k hk => hf k (.inr (.inr hk))) (copyAll below (copyOne k r).2).2
      with ⟨hafter, hsame⟩ | ⟨p, hp, hx, hget⟩
    · rcases ihb (fun k hk => hf k (.inr (.inl hk))) (copyOne k r).2
        with ⟨hbelow, hsame'⟩ | ⟨p, hp, hx, hget⟩
      · rw [hsame, hsame']
        rcases NodeKind.copyOne_spec (hf k (.inl rfl)) r with ⟨hnone, hcopy⟩ | ⟨y, z, hy, hz, htable⟩
        · refine .inl ⟨?_, by rw [hcopy]⟩
          rintro k' (rfl | hk' | hk')
          · rw [hnone]
            exact (Option.some_ne_none x).symm
          · exact hbelow k' hk'
          · exact hafter k' hk'
        · rw [htable]
          by_cases hyx : y = x
          · refine .inr ⟨_, .inl rfl, hyx ▸ hy, ?_⟩
            rw [Table.get?_put, if_pos hyx, hz]
          · refine .inl ⟨?_, (Table.get?_put ..).trans (if_neg hyx)⟩
            rintro k' (rfl | hk' | hk')
            · exact fun h => hyx (Option.some.inj (hy.symm.trans h))
            · exact hbelow k' hk'
            · exact hafter k' hk'
      · exact .inr ⟨p, .inr (.inl hp), hx, hsame.trans hget⟩
    · exact .inr ⟨p, .inr (.inr hp), hx, hget⟩

/-- Every node of some trees with its copy, references in it redirected. -/
def pairs (f f' : Forest NodeKind) : List (NodeKind × NodeKind) := f.labels.zip f'.labels

theorem pairs_copy (f : Forest NodeKind) (ids : Identifiers) :
    f.pairs (f.copy ids).1 = (f.copyPairs ⟨ids, .empty⟩).map fun p =>
      (p.1, p.2.redirect (f.copyAll ⟨ids, .empty⟩).2.table) := by
  rw [pairs, copy, labels_map, ← snd_copyPairs]
  nth_rewrite 1 [← fst_copyPairs f ⟨ids, .empty⟩]
  rw [List.map_map, List.zip_map', Function.comp_def]

theorem fst_pairs_copy (f : Forest NodeKind) (ids : Identifiers) :
    (f.pairs (f.copy ids).1).map (·.1) = f.labels := by
  rw [pairs_copy, List.map_map, ← fst_copyPairs f ⟨ids, .empty⟩]
  rfl

theorem snd_pairs_copy (f : Forest NodeKind) (ids : Identifiers) :
    (f.pairs (f.copy ids).1).map (·.2) = (f.copy ids).1.labels := by
  rw [pairs_copy, List.map_map, copy, labels_map, ← snd_copyPairs, List.map_map]
  rfl

/-- What an identifier has become is the identifier of a copy, or it is none of the source and has
stayed what it is. -/
theorem renamed_copy {f : Forest NodeKind} (hf : f.Duplicable) (ids : Identifiers) (x : String) :
    let table := (f.copyAll ⟨ids, .empty⟩).2.table
    ((∀ k ∈ f.labels, k.id? ≠ some x) ∧ renamed table x = x) ∨
      ∃ p ∈ f.pairs (f.copy ids).1, p.1.id? = some x ∧ p.2.id? = some (renamed table x) := by
  intro table
  rcases get?_copyAll hf ⟨ids, .empty⟩ x with ⟨hnot, hget⟩ | ⟨p, hp, hx, hget⟩
  · exact .inl ⟨hnot, by rw [renamed, hget]; rfl⟩
  · have hmem := List.mem_map_of_mem (f := fun p : NodeKind × NodeKind =>
      (p.1, p.2.redirect table)) hp
    rw [← pairs_copy] at hmem
    refine .inr ⟨_, hmem, hx, ?_⟩
    have hlabel : p.1 ∈ f.labels := by
      rw [← fst_copyPairs f ⟨ids, .empty⟩]
      exact List.mem_map_of_mem hp
    obtain ⟨r, hr⟩ := eq_copyOne_of_mem_copyPairs hp
    rcases NodeKind.copyOne_spec (hf _ hlabel) r with ⟨hnone, -⟩ | ⟨-, y, -, hy, -⟩
    · exact nomatch hx.symm.trans hnone
    · rw [NodeKind.id?_redirect, renamed, hget, hr, hy]
      rfl

/-- How a copy of some controls comes about: each is renumbered, and its references are redirected
to those that have been copied along. -/
theorem copy_spec {f : Forest NodeKind} (hf : f.Titled) (ids : Identifiers) :
    ∃ table : Table String String,
      (∀ p ∈ f.pairs (f.copy ids).1, ∃ c ids', c.Titled ∧
        p = (.control c, .control ((c.renumber ids').1.redirect table))) ∧
      ∀ x, ((∀ k ∈ f.labels, k.id? ≠ some x) ∧ renamed table x = x) ∨
        ∃ p ∈ f.pairs (f.copy ids).1, p.1.id? = some x ∧ p.2.id? = some (renamed table x) := by
  refine ⟨_, fun p hp => ?_, renamed_copy hf.duplicable ids⟩
  rw [pairs_copy] at hp
  obtain ⟨q, hq, rfl⟩ := List.mem_map.1 hp
  obtain ⟨c, ids', hc, rfl⟩ := mem_copyPairs hf hq
  exact ⟨c, ids', hc, rfl⟩

end Forest

namespace Control

theorem references_copied (c : Control) (ids : Identifiers) (table : Table String String) :
    ((c.renumber ids).1.redirect table).references =
      c.references.map (Reference.redirect table) := by
  rw [references_redirect, references_renumber]

theorem named_copied (c : Control) (ids : Identifiers) (table : Table String String) :
    ((c.renumber ids).1.redirect table).Named := by
  obtain ⟨n, hn⟩ := c.named_renumber ids
  rw [Named, elementName_redirect]
  exact ⟨n, hn⟩

/-- What a copied control is for others is what the source was, redirected. -/
theorem target?_copied {c : Control} {ids : Identifiers} {table : Table String String}
    {ref : Reference} (h : c.target? = some ref)
    (hid : ((c.renumber ids).1.redirect table).id = renamed table c.id) :
    ((c.renumber ids).1.redirect table).target? = some (ref.redirect table) := by
  rw [target?_eq] at h ⊢
  rw [elementName_redirect, elementName_renumber]
  exact Reference.redirect_of_named h hid.symm

end Control

/-- A reference to something in the source is redirected to its copy, any other one stays. -/
theorem Forest.redirect_spec {f : Forest NodeKind} {ids : Identifiers}
    {table : Table String String}
    (hpairs : ∀ p ∈ f.pairs (f.copy ids).1, ∃ c ids', c.Titled ∧
      p = (.control c, .control ((c.renumber ids').1.redirect table)))
    (htable : ∀ x, ((∀ k ∈ f.labels, k.id? ≠ some x) ∧ renamed table x = x) ∨
      ∃ p ∈ f.pairs (f.copy ids).1, p.1.id? = some x ∧ p.2.id? = some (renamed table x))
    {c : Control} (hc : c.Titled) {ref : Reference} (href : c.target? = some ref) :
    (∀ p ∈ f.pairs (f.copy ids).1, p.1.target? ≠ some ref) ∧ ref.redirect table = ref ∨
      ∃ p ∈ f.pairs (f.copy ids).1, p.1.target? = some ref ∧
        p.2.target? = some (ref.redirect table) := by
  have hnamed := href
  rw [Control.target?_eq] at hnamed
  rcases htable c.id with ⟨hnot, hsame⟩ | ⟨p, hp, hid, hid'⟩
  · refine .inl ⟨fun p hp hp' => ?_, ?_⟩
    · obtain ⟨c', ids', -, rfl⟩ := hpairs p hp
      apply hnot _ (List.of_mem_zip hp).1
      have hc' : c'.target? = some ref := hp'
      rw [Control.target?_eq] at hc'
      rw [← Reference.id_of_named hnamed, Reference.id_of_named hc']
      rfl
    · have hredirected := Reference.redirect_of_named hnamed hsame
      rw [hnamed] at hredirected
      exact (Option.some.inj hredirected).symm
  · obtain ⟨c', ids', hc', rfl⟩ := hpairs p hp
    have hcid : c'.id = c.id := Option.some.inj hid
    have htarget : c'.target? = some ref := (hc'.target?_eq hc hcid).trans href
    refine .inr ⟨_, hp, htarget, ?_⟩
    apply Control.target?_copied htarget
    rw [hcid]
    exact Option.some.inj hid'

end SchemaForms
