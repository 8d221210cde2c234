import SchemaForms.Proofs.Form.Resolving

/-!
Blocks: a choice of types, the trigger that confirms it, and the switch with its cases stand side by
side in a form, and so they do in every copy.
-/

namespace SchemaForms

open Forest (tree leaf)

/-- The cases that the choices of a control name. -/
def Control.caseIds (c : Control) : List String :=
  c.kind.choices.filterMap fun choice => choice.toggle.map (·.caseId)

/-- The control that a trigger sends an event to. -/
def Control.dispatched? (c : Control) : Option String :=
  match c.kind with
  | .trigger (some (.dispatch _ _ _ target)) => some target
  | _ => none

/-- A control that chooses no case, confirms no choice and is no switch. -/
structure Control.IsPlain (c : Control) : Prop where
  caseIds : c.caseIds = []
  dispatched? : c.dispatched? = none
  kind : c.kind ≠ .switch

/-- A choice of types, the trigger that confirms it, and the switch with its cases. -/
structure Block where
  declared : TypeId
  select : Control
  trigger : Control
  switch : Control
  cases : List Control

theorem parts_switchForest (select trigger switch : Control) (inner : Forest NodeKind) :
    (switchForest select trigger switch inner).parts =
      (.control select, .nil) :: (.control trigger, .nil) :: (.control switch, inner) ::
        inner.parts := by
  simp [switchForest, leaf, tree, Forest.parts]

section Blocks

variable (g : Generator) (binds : List Bind) (prefixes : PrefixTable)

/-- The parts of a block belong together. -/
def Block.Fits (B : Block) : Prop :=
  Chooses g binds prefixes B.declared B.select B.trigger B.switch B.cases

/-- Controls in which everything that has to do with switches stands in blocks. -/
inductive Whole : Forest NodeKind → List Block → Prop
  | nil : Whole .nil []
  | plain {c : Control} {below after bs bs'} (hc : c.IsPlain) (hbelow : Whole below bs)
      (hafter : Whole after bs') : Whole (.cons (.control c) below after) (bs ++ bs')
  | block {B : Block} {inner after bs bs'} (hB : B.Fits g binds prefixes)
      (hroots : inner.roots = B.cases.map .control) (hinner : Whole inner bs)
      (hafter : Whole after bs') :
      Whole (switchForest B.select B.trigger B.switch inner ++ after) (B :: (bs ++ bs'))

end Blocks

section Chooses

variable {g : Generator} {binds : List Bind} {prefixes : PrefixTable} {declared : TypeId}
  {select trigger switch : Control} {cases : List Control}

theorem Chooses.caseIds_select
    (h : Chooses g binds prefixes declared select trigger switch cases) :
    select.caseIds = cases.map (·.id) := by
  obtain ⟨label, prompt, toggled, hkind, hprompt, hcases, -⟩ := h.choices
  have hnone : prompt.filterMap (fun c => c.toggle.map (·.caseId)) = [] := by
    rw [List.filterMap_eq_nil_iff]
    intro c hc
    have hmem := List.mem_map_of_mem (f := Choice.face) hc
    rw [hprompt] at hmem
    split at hmem
    · exact congrArg Prod.snd (List.mem_singleton.1 hmem)
    · cases hmem
  have htoggled : toggled.filterMap (fun c => c.toggle.map (·.caseId)) = cases.map (·.id) := by
    have h := congrArg (List.filterMap id) hcases
    rw [List.filterMap_map, List.filterMap_map] at h
    exact h.trans (congrFun (List.filterMap_eq_map (f := Control.id)) cases)
  rw [Control.caseIds, hkind, ControlKind.choices, List.filterMap_append, hnone, htoggled,
    List.nil_append]

theorem Chooses.dispatched?_trigger
    (h : Chooses g binds prefixes declared select trigger switch cases) :
    trigger.dispatched? = some select.id := by
  obtain ⟨action, id, hkind⟩ := h.confirms
  rw [Control.dispatched?, hkind]

theorem Chooses.length_cases (h : Chooses g binds prefixes declared select trigger switch cases) :
    cases.length = (g.candidates declared).length := by
  obtain ⟨label, prompt, toggled, -, -, hcases, hvalues, -⟩ := h.choices
  have hleft := congrArg List.length hcases
  have hright := congrArg List.length hvalues
  simp only [List.length_map] at hleft hright
  omega

/-- A choice of types stays one when binds are added, or their relevance changes, and when prefixes
are added. -/
theorem Chooses.mono (h : Chooses g binds prefixes declared select trigger switch cases)
    {binds' : List Bind} {prefixes' : PrefixTable}
    (hbinds : binds.map Bind.core ⊆ binds'.map Bind.core)
    (hprefixes : ∀ t text, g.typeText prefixes t = some text →
      g.typeText prefixes' t = some text) :
    Chooses g binds' prefixes' declared select trigger switch cases := by
  obtain ⟨label, prompt, toggled, hkind, hprompt, hcases, hvalues, b, hb, hbind, ⟨path, hpath⟩,
    hconstraint⟩ := h.choices
  refine { h with choices := ⟨label, prompt, toggled, hkind, hprompt, hcases, ?_, ?_⟩ }
  · rw [hvalues]
    have hsome : ∀ t ∈ g.candidates declared, ∃ text, g.typeText prefixes t = some text := by
      intro t ht
      have hmem := List.mem_map_of_mem (f := g.typeText prefixes) ht
      rw [← hvalues] at hmem
      obtain ⟨c, -, hc⟩ := List.mem_map.1 hmem
      exact ⟨c.value, hc.symm⟩
    apply List.map_congr_left
    intro t ht
    obtain ⟨text, htext⟩ := hsome t ht
    rw [htext, hprefixes t text htext]
  · obtain ⟨b', hb', hcore⟩ := List.mem_map.1 (hbinds (List.mem_map_of_mem hb))
    have hid : b'.id = b.id := congrArg Prod.fst hcore
    have hnodeset : b'.nodeset = b.nodeset := congrArg (·.2.1) hcore
    have hconstraint' : b'.constraint = b.constraint := congrArg (·.2.2) hcore
    exact ⟨b', hb', by rw [hbind, hid], ⟨path, hnodeset.trans hpath⟩,
      hconstraint'.trans hconstraint⟩

end Chooses

namespace Whole

variable {g : Generator} {binds : List Bind} {prefixes : PrefixTable} {f f' : Forest NodeKind}
  {bs bs' : List Block}

theorem append (h : Whole g binds prefixes f bs) (h' : Whole g binds prefixes f' bs') :
    Whole g binds prefixes (f ++ f') (bs ++ bs') := by
  induction h with
  | nil => exact h'
  | plain hc hbelow _ _ ih =>
    rw [List.append_assoc]
    exact .plain hc hbelow ih
  | block hB hroots hinner _ _ ih =>
    rw [Forest.append_assoc, List.cons_append, List.append_assoc]
    exact .block hB hroots hinner ih

theorem tree {c : Control} (hc : c.IsPlain) (h : Whole g binds prefixes f bs) :
    Whole g binds prefixes (Forest.tree (.control c) f) bs := by
  have htree := Whole.plain hc h .nil
  rwa [List.append_nil] at htree

theorem switchForest {B : Block} (hB : B.Fits g binds prefixes)
    (hroots : f.roots = B.cases.map .control) (h : Whole g binds prefixes f bs) :
    Whole g binds prefixes (SchemaForms.switchForest B.select B.trigger B.switch f) (B :: bs) := by
  have hblock := Whole.block hB hroots h .nil
  rwa [Forest.append_nil, List.append_nil] at hblock

theorem mono (h : Whole g binds prefixes f bs) {binds' : List Bind} {prefixes' : PrefixTable}
    (hbinds : binds.map Bind.core ⊆ binds'.map Bind.core)
    (hprefixes : ∀ t text, g.typeText prefixes t = some text →
      g.typeText prefixes' t = some text) : Whole g binds' prefixes' f bs := by
  induction h with
  | nil => exact .nil
  | plain hc _ _ ih ih' => exact .plain hc ih ih'
  | block hB hroots _ _ ih ih' => exact .block (Chooses.mono hB hbinds hprefixes) hroots ih ih'

theorem fits (h : Whole g binds prefixes f bs) : ∀ B ∈ bs, B.Fits g binds prefixes := by
  induction h with
  | nil => exact fun B hB => nomatch hB
  | plain _ _ _ ih ih' =>
    intro B hB
    exact (List.mem_append.1 hB).elim (ih B) (ih' B)
  | block hB _ _ _ ih ih' =>
    intro B' hB'
    rcases List.mem_cons.1 hB' with rfl | hB'
    · exact hB
    · exact (List.mem_append.1 hB').elim (ih B') (ih' B')

/-- A part is whole itself, unless it is one of a block. -/
theorem part (h : Whole g binds prefixes f bs) {k : NodeKind} {below : Forest NodeKind}
    (hpart : (k, below) ∈ f.parts) :
    (∃ bs', Whole g binds prefixes (Forest.tree k below) bs') ∨
      ∃ B ∈ bs, k = .control B.select ∨ k = .control B.trigger ∨
        k = .control B.switch ∧ below.roots = B.cases.map .control := by
  induction h with
  | nil => cases hpart
  | plain hc hbelow _ ih ih' =>
    simp only [Forest.parts, List.mem_cons, List.mem_append] at hpart
    rcases hpart with hpart | hpart | hpart
    · cases hpart
      exact .inl ⟨_, tree hc hbelow⟩
    · refine (ih hpart).imp_right ?_
      rintro ⟨B, hB, hk⟩
      exact ⟨B, List.mem_append_left _ hB, hk⟩
    · refine (ih' hpart).imp_right ?_
      rintro ⟨B, hB, hk⟩
      exact ⟨B, List.mem_append_right _ hB, hk⟩
  | block hB hroots hinner _ ih ih' =>
    rw [Forest.parts_append, parts_switchForest] at hpart
    simp only [List.mem_append, List.mem_cons] at hpart
    rcases hpart with (hpart | hpart | hpart | hpart) | hpart
    · cases hpart
      exact .inr ⟨_, List.mem_cons_self, .inl rfl⟩
    · cases hpart
      exact .inr ⟨_, List.mem_cons_self, .inr (.inl rfl)⟩
    · cases hpart
      exact .inr ⟨_, List.mem_cons_self, .inr (.inr ⟨rfl, hroots⟩)⟩
    · refine (ih hpart).imp_right ?_
      rintro ⟨B, hB, hk⟩
      exact ⟨B, List.mem_cons_of_mem _ (List.mem_append_left _ hB), hk⟩
    · refine (ih' hpart).imp_right ?_
      rintro ⟨B, hB, hk⟩
      exact ⟨B, List.mem_cons_of_mem _ (List.mem_append_right _ hB), hk⟩

end Whole

/-! Copies of blocks are blocks. -/

namespace Forest

variable {α β : Type}

/-- Trees of the same shape, related node by node. -/
def Alike (R : α → β → Prop) : Forest α → Forest β → Prop
  | nil, nil => True
  | cons a below after, cons a' below' after' => R a a' ∧ Alike R below below' ∧ Alike R after after'
  | _, _ => False

theorem Alike.imp {R S : α → β → Prop} (hRS : ∀ a b, R a b → S a b) {f : Forest α}
    {f' : Forest β} (h : Alike R f f') : Alike S f f' := by
  induction f generalizing f' with
  | nil =>
    cases f' with
    | nil => exact trivial
    | cons => cases h
  | cons a below after ihb iha =>
    cases f' with
    | nil => cases h
    | cons a' below' after' => exact ⟨hRS _ _ h.1, ihb h.2.1, iha h.2.2⟩

theorem Alike.roots {R : α → β → Prop} {f : Forest α} {f' : Forest β} (h : Alike R f f') :
    List.Forall₂ R f.roots f'.roots := by
  induction f generalizing f' with
  | nil =>
    cases f' with
    | nil => exact .nil
    | cons => cases h
  | cons a below after _ iha =>
    cases f' with
    | nil => cases h
    | cons a' below' after' => exact .cons h.1 (iha h.2.2)

theorem Alike.eq_nil {R : α → β → Prop} {f : Forest β} (h : Alike R nil f) : f = nil := by
  cases f with
  | nil => rfl
  | cons => cases h

theorem length_labels_map {γ : Type} (o : α → γ) (f : Forest α) :
    (f.map o).labels.length = f.labels.length := by
  rw [labels_map, List.length_map]

/-- Nodes at the same place in trees of the same shape. -/
theorem alike_of_shape {f : Forest α} {f' : Forest β}
    (h : f.map (fun _ => ()) = f'.map fun _ => ()) :
    Alike (fun a a' => (a, a') ∈ f.labels.zip f'.labels) f f' := by
  induction f generalizing f' with
  | nil =>
    cases f' with
    | nil => exact trivial
    | cons => cases h
  | cons a below after ihb iha =>
    cases f' with
    | nil => cases h
    | cons a' below' after' =>
      simp only [map_cons, cons.injEq, true_and] at h
      have hlength : below.labels.length = below'.labels.length := by
        rw [← length_labels_map (fun _ => ()) below, h.1, length_labels_map]
      have hzip : (cons a below after).labels.zip (cons a' below' after').labels =
          (a, a') :: (below.labels.zip below'.labels ++ after.labels.zip after'.labels) := by
        rw [labels_cons, labels_cons, List.zip_cons_cons, List.zip_append hlength]
      rw [hzip]
      refine ⟨List.mem_cons_self, (ihb h.1).imp fun b b' hb => ?_, (iha h.2).imp fun b b' hb => ?_⟩
      · exact List.mem_cons_of_mem _ (List.mem_append_left _ hb)
      · exact List.mem_cons_of_mem _ (List.mem_append_right _ hb)

end Forest

/-- A control that has been copied, with others whose new identifiers a table gives. -/
def Control.IsCopyOf (table : Table String String) (c c' : Control) : Prop :=
  (∃ ids, c' = (c.renumber ids).1.redirect table) ∧ c'.id = renamed table c.id

def NodeKind.IsCopyOf (table : Table String String) (k k' : NodeKind) : Prop :=
  ∃ c c', k = .control c ∧ k' = .control c' ∧ c.IsCopyOf table c'

theorem Forest.alike_copy {f : Forest NodeKind} (hf : f.Titled) (hnodup : f.identifiers.Nodup)
    (ids : Identifiers) : ∃ table, Alike (NodeKind.IsCopyOf table) f (f.copy ids).1 := by
  obtain ⟨table, hpairs, htable⟩ := copy_spec hf ids
  have hshape : f.map (fun _ => ()) = (f.copy ids).1.map fun _ => () :=
    (map_copy (fun _ _ => rfl) (fun _ _ => rfl) f ids).symm
  refine ⟨table, (alike_of_shape hshape).imp fun k k' hp => ?_⟩
  obtain ⟨c, ids', -, heq⟩ := hpairs _ hp
  obtain ⟨rfl, rfl⟩ := Prod.mk.inj heq
  refine ⟨c, _, rfl, rfl, ⟨ids', rfl⟩, ?_⟩
  rcases htable c.id with ⟨hnot, -⟩ | ⟨q, hq, hid, hid'⟩
  · exact absurd rfl (hnot _ (List.of_mem_zip hp).1)
  · rw [pairs_unique (nodup_ids hf hnodup) hq hp hid] at hid'
    exact Option.some.inj hid'

section Faces

variable {table : Table String String}

theorem renumberChoices_append (cs ds : List Choice) (ids : Identifiers) :
    ∃ ids', (renumberChoices (cs ++ ds) ids).1 =
      (renumberChoices cs ids).1 ++ (renumberChoices ds ids').1 := by
  induction cs generalizing ids with
  | nil => exact ⟨ids, rfl⟩
  | cons c cs ih =>
    obtain ⟨ids', h⟩ := ih (c.renumber ids).2
    exact ⟨ids', congrArg (List.cons _) h⟩

/-- What the choices of a copy say and select. -/
theorem faces_copied (cs : List Choice) (ids : Identifiers) :
    ((renumberChoices cs ids).1.map (Choice.redirect table)).map Choice.face =
      (cs.map Choice.face).map fun p => (p.1, p.2.map (renamed table)) := by
  induction cs generalizing ids with
  | nil => rfl
  | cons c cs ih =>
    refine congrArg₂ List.cons ?_ (ih (c.renumber ids).2)
    obtain ⟨id, label, value, toggle⟩ := c
    cases toggle <;> rfl

theorem Control.caseIds_eq (c : Control) :
    c.caseIds = (c.kind.choices.map Choice.face).filterMap (·.2) := by
  rw [caseIds, List.filterMap_map]
  rfl

theorem ControlKind.faces_copied (k : ControlKind) (ids : Identifiers) :
    (((k.renumber ids).1.redirect table).choices.map Choice.face) =
      (k.choices.map Choice.face).map fun p => (p.1, p.2.map (renamed table)) := by
  cases k with
  | selectOne cs => exact SchemaForms.faces_copied cs ids
  | selectMany cs => exact SchemaForms.faces_copied cs ids
  | trigger action => cases action <;> rfl
  | _ => rfl

theorem Control.IsCopyOf.caseIds_eq {c c' : Control} (h : c.IsCopyOf table c') :
    c'.caseIds = c.caseIds.map (renamed table) := by
  obtain ⟨⟨ids, rfl⟩, -⟩ := h
  rw [Control.caseIds_eq, Control.caseIds_eq, List.map_filterMap]
  refine (congrArg (List.filterMap _) (c.kind.faces_copied _)).trans ?_
  rw [List.filterMap_map]
  rfl

theorem Control.IsCopyOf.dispatched?_eq {c c' : Control} (h : c.IsCopyOf table c') :
    c'.dispatched? = c.dispatched?.map (renamed table) := by
  obtain ⟨⟨ids, rfl⟩, -⟩ := h
  obtain ⟨id, kind⟩ := c
  cases kind with
  | trigger action =>
    cases action with
    | none => rfl
    | some a => cases a <;> rfl
  | _ => rfl

theorem Control.IsCopyOf.elementName_eq {c c' : Control} (h : c.IsCopyOf table c') :
    c'.kind.elementName = c.kind.elementName := by
  obtain ⟨⟨ids, rfl⟩, -⟩ := h
  rw [Control.elementName_redirect, Control.elementName_renumber]

theorem ControlKind.eq_switch {k : ControlKind} (h : k.elementName = "switch") : k = .switch := by
  cases k with
  | switch => rfl
  | _ => exact absurd h (by simp [elementName])

theorem Control.IsPlain.copy {c c' : Control} (h : c.IsPlain) (hcopy : c.IsCopyOf table c') :
    c'.IsPlain where
  caseIds := by
    rw [hcopy.caseIds_eq, h.caseIds]
    rfl
  dispatched? := by
    rw [hcopy.dispatched?_eq, h.dispatched?]
    rfl
  kind hkind := by
    apply h.kind
    apply ControlKind.eq_switch
    rw [← hcopy.elementName_eq, hkind]
    rfl

theorem Control.IsCopyOf.switchCase {c c' : Control} (h : c.IsCopyOf table c') {selected : Bool}
    (hkind : c.kind = .switchCase selected) : c'.kind = .switchCase selected := by
  obtain ⟨⟨ids, rfl⟩, -⟩ := h
  change (c.kind.renumber _).1.redirect table = _
  rw [hkind]
  rfl

theorem kinds_copied {cases cases' : List Control}
    (h : List.Forall₂ (Control.IsCopyOf table) cases cases') {selected : List Bool}
    (hkinds : cases.map (·.kind) = selected.map .switchCase) :
    cases'.map (·.kind) = selected.map .switchCase := by
  induction h generalizing selected with
  | nil => exact hkinds
  | cons hc _ ih =>
    cases selected with
    | nil => cases hkinds
    | cons b selected =>
      simp only [List.map_cons, List.cons.injEq] at hkinds ⊢
      exact ⟨hc.switchCase hkinds.1, ih hkinds.2⟩

theorem ids_copied {cases cases' : List Control}
    (h : List.Forall₂ (Control.IsCopyOf table) cases cases') :
    cases'.map (·.id) = cases.map fun c => renamed table c.id := by
  induction h with
  | nil => rfl
  | cons hc _ ih => rw [List.map_cons, List.map_cons, ih, hc.2]

theorem controls_copied {cases : List Control} {ks : List NodeKind}
    (h : List.Forall₂ (fun c k => NodeKind.IsCopyOf table (.control c) k) cases ks) :
    ∃ cases', ks = cases'.map .control ∧ List.Forall₂ (Control.IsCopyOf table) cases cases' := by
  induction h with
  | nil => exact ⟨[], rfl, .nil⟩
  | cons hc _ ih =>
    obtain ⟨c, c', hk, rfl, hcopy⟩ := hc
    obtain ⟨cases', rfl, hcases⟩ := ih
    cases hk
    exact ⟨c' :: cases', rfl, .cons hcopy hcases⟩

/-- A copied choice of types with its copied switch is one again. -/
theorem Chooses.copy {g : Generator} {binds : List Bind} {prefixes : PrefixTable}
    {declared : TypeId} {select trigger switch : Control} {cases : List Control}
    (h : Chooses g binds prefixes declared select trigger switch cases)
    {select' trigger' switch' : Control} {cases' : List Control}
    (hselect : select.IsCopyOf table select') (htrigger : trigger.IsCopyOf table trigger')
    (hswitch : switch.IsCopyOf table switch')
    (hcases : List.Forall₂ (Control.IsCopyOf table) cases cases') :
    Chooses g binds prefixes declared select' trigger' switch' cases' := by
  have hlabel {c c' : Control} (hc : c.IsCopyOf table c') : c'.label = c.label := by
    obtain ⟨⟨ids, rfl⟩, -⟩ := hc
    rfl
  have hbound {c c' : Control} (hc : c.IsCopyOf table c') : c'.bind = c.bind := by
    obtain ⟨⟨ids, rfl⟩, -⟩ := hc
    rfl
  constructor
  · exact h.several
  · rw [hlabel hselect]
    exact h.declares
  · obtain ⟨label, prompt, toggled, hkind, hprompt, htoggles, hvalues, b, hb, hbind, hb'⟩ :=
      h.choices
    rw [hbound hselect]
    obtain ⟨⟨ids, rfl⟩, -⟩ := hselect
    let given := (fresh select.kind.elementName ids).2
    obtain ⟨ids', happend⟩ := renumberChoices_append prompt toggled given
    have hfaces (cs : List Choice) (ids : Identifiers) :
        ((renumberChoices cs ids).1.map (Choice.redirect table)).map Choice.face =
          (cs.map Choice.face).map fun p => (p.1, p.2.map (renamed table)) := faces_copied cs ids
    refine ⟨label, (renumberChoices prompt given).1.map (Choice.redirect table),
      (renumberChoices toggled ids').1.map (Choice.redirect table), ?_, ?_, ?_, ?_, b, hb, hbind,
      hb'⟩
    · change (select.kind.renumber given).1.redirect table = _
      rw [hkind, ← List.map_append, ← happend]
      rfl
    · rw [hfaces, hprompt]
      split <;> rfl
    · have hmap := congrArg (List.map Prod.snd) (hfaces toggled ids')
      have hold := congrArg (List.map (Option.map (renamed table))) htoggles
      have hnew := congrArg (List.map some) (ids_copied hcases)
      simp only [List.map_map, Function.comp_def, Choice.face, Option.map_some] at hmap hold hnew ⊢
      rw [hmap, hnew]
      exact hold
    · have hmap := congrArg (List.map fun p => some p.1) (hfaces toggled ids')
      simp only [List.map_map, Function.comp_def, Choice.face] at hmap ⊢
      rw [hmap]
      exact hvalues
  · obtain ⟨action, id, hkind⟩ := h.confirms
    obtain ⟨⟨ids, rfl⟩, -⟩ := htrigger
    change ∃ action id, (trigger.kind.renumber _).1.redirect table = _
    rw [hkind, hselect.2]
    exact ⟨_, _, rfl⟩
  · rw [hbound htrigger, hbound hswitch]
    exact h.unbound
  · apply ControlKind.eq_switch
    rw [hswitch.elementName_eq, h.switches]
    rfl
  · exact kinds_copied hcases h.selected

end Faces

theorem Whole.copy {g : Generator} {binds : List Bind} {prefixes : PrefixTable}
    {f f' : Forest NodeKind} {bs : List Block} {table : Table String String}
    (h : Whole g binds prefixes f bs) (hcopy : f.Alike (NodeKind.IsCopyOf table) f') :
    ∃ bs', Whole g binds prefixes f' bs' := by
  induction h generalizing f' with
  | nil =>
    cases f' with
    | nil => exact ⟨[], .nil⟩
    | cons => cases hcopy
  | plain hc _ _ ih ih' =>
    cases f' with
    | nil => cases hcopy
    | cons k below after =>
      obtain ⟨⟨c, c', hk, rfl, hcc⟩, hbelow, hafter⟩ := hcopy
      cases hk
      obtain ⟨bs, hbs⟩ := ih hbelow
      obtain ⟨bs', hbs'⟩ := ih' hafter
      exact ⟨_, .plain (hc.copy hcc) hbs hbs'⟩
  | @block B inner after _ _ hB hroots _ _ ih ih' =>
    obtain _ | ⟨k₁, below₁, _ | ⟨k₂, below₂, _ | ⟨k₃, inner', after'⟩⟩⟩ := f'
    · cases hcopy
    · cases hcopy.2.2
    · cases hcopy.2.2.2.2
    · obtain ⟨⟨c₁, select, hk₁, rfl, hselect⟩, hnil₁, ⟨c₂, trigger, hk₂, rfl, htrigger⟩, hnil₂,
        ⟨c₃, switch, hk₃, rfl, hswitch⟩, hinner, hafter⟩ := hcopy
      cases hk₁
      cases hk₂
      cases hk₃
      obtain ⟨bs, hbs⟩ := ih hinner
      obtain ⟨bs', hbs'⟩ := ih' hafter
      have hcases := hinner.roots
      rw [hroots, List.forall₂_map_left_iff] at hcases
      obtain ⟨cases', hroots', hcopies⟩ := controls_copied hcases
      obtain rfl := hnil₁.eq_nil
      obtain rfl := hnil₂.eq_nil
      let B' : Block := ⟨B.declared, select, trigger, switch, cases'⟩
      have hB' : B'.Fits g binds prefixes := Chooses.copy hB hselect htrigger hswitch hcopies
      exact ⟨_, .block hB' hroots' hbs hbs'⟩

end SchemaForms
