import SchemaForms.Proofs.Form.Issuing

/-!
How a sketch grows.  Whatever a sketch adds to a draft comes about by a few steps: identifiers are
given out, and used for a control, a repeat with its triggers, a type switch with its choice, or a
bind around more such steps; and controls are copied.  What holds of each of these steps, holds of
every form.
-/

namespace SchemaForms

open Synthesis
open Forest (tree leaf)
open Xml (Element)

/-- A name with the prefix that its namespace has been given. -/
def PrefixTable.textOf (t : PrefixTable) (name : QName) : Option String :=
  match name.nspace with
  | none => some name.localName
  | some ns => (t.entries.get? ns).map fun p => p ++ ":" ++ name.localName

/-- What `xsi:type` says for a type, once its namespace has a prefix. -/
def Generator.typeText (g : Generator) (prefixes : PrefixTable) (t : TypeId) : Option String :=
  match (g.schema.typeDef t).name? with
  | some name => prefixes.textOf name
  | none => some (g.schema.displayName t)

/-- The identifier of a control is one of its own name. -/
def Control.Named (c : Control) : Prop :=
  ∃ n, c.id = Identifiers.identifier c.kind.elementName n

/-- A control for a value: it holds no others, and does nothing to others. -/
def Control.IsField (c : Control) : Prop :=
  match c.kind with
  | .input _ | .textArea | .upload | .range _ _ => True
  | .selectOne choices | .selectMany choices => ∀ choice ∈ choices, choice.toggle = none
  | _ => False

/-- A control that holds others and nothing else. -/
def Control.IsBox (c : Control) : Prop := c.kind = .group ∨ ∃ selected, c.kind = .switchCase selected

/-- The triggers of a repeat. -/
def repeatTriggers (id : String) (bind : Option String) (before after delete : String) :
    List Control :=
  [Generator.repeatTrigger id "insert_before" "insert at beginning"
      (.insert before bind .before "1"),
    Generator.repeatTrigger id "insert_after" "insert after selected"
      (.insert after bind .after (indexExpression id)),
    Generator.repeatTrigger id "delete" "delete selected"
      (.delete delete bind (indexExpression id))]

def repeatRegion (id : String) (bind : Option String) : Control where
  id := id
  kind := .repeatRegion
  bind := bind
  appearance := some "full"

/-- A repeat behind its triggers. -/
def repeatForest (id : String) (bind : Option String) (before after delete : String)
    (inner : Forest NodeKind) : Forest NodeKind :=
  .leaves ((repeatTriggers id bind before after delete).map .control) ++
    tree (.control (repeatRegion id bind)) inner

/-- The identifiers of a repeat and its triggers. -/
def repeatIds (id before after delete : String) : List String :=
  id :: Identifiers.endings.map (fun e => id ++ "-" ++ e) ++ [before, after, delete]

/-- A switch behind the choice of its cases and the trigger that confirms it. -/
def switchForest (select trigger switch : Control) (cases : Forest NodeKind) : Forest NodeKind :=
  leaf (.control select) ++ (leaf (.control trigger) ++ tree (.control switch) cases)

/-- The value of a choice and the case that it selects. -/
def Choice.face (c : Choice) : String × Option String := (c.value, c.toggle.map (·.caseId))

/-- Which of some cases are selected at first: the first one. -/
def selections : Nat → List Bool
  | 0 => []
  | n + 1 => true :: List.replicate n false

/-- The value of the entry that asks for a choice is refused where there is such an entry. -/
def promptConstraint (label : String) (isLong : Bool) : Option String :=
  if isLong then some ("not( . = '" ++ Generator.promptText label ++ "')") else none

/-- A choice of types, the trigger that confirms it, and the switch with its cases belong together:
they are for one declared type and some of the binds. -/
structure Chooses (g : Generator) (binds : List Bind) (prefixes : PrefixTable) (declared : TypeId)
    (select trigger switch : Control) (cases : List Control) : Prop where
  several : 2 ≤ (g.candidates declared).length
  declares : ∃ e, (g.schema.element e).type = some declared ∧
    select.label = some (caption ((g.schema.element e).name.localName ++ " Type"))
  choices : ∃ label prompt toggled, select.kind = .selectOne (prompt ++ toggled) ∧
    prompt.map Choice.face =
      (if g.settings.isLongOne (g.candidates declared).length then
        [(Generator.promptText label, none)] else []) ∧
    toggled.map (fun c => c.toggle.map (·.caseId)) = cases.map (fun c => some c.id) ∧
    toggled.map (fun c => some c.value) =
      (g.candidates declared).map (g.typeText prefixes) ∧
    ∃ b ∈ binds, select.bind = some b.id ∧ (∃ path, b.nodeset = path ++ "/@xsi:type") ∧
      b.constraint = promptConstraint label (g.settings.isLongOne (g.candidates declared).length)
  confirms : ∃ action id,
    trigger.kind = .trigger (some (.dispatch action id "DOMActivate" select.id))
  unbound : trigger.bind = none ∧ switch.bind = none
  switches : switch.kind = .switch
  selected : cases.map (·.kind) =
    (selections (g.candidates declared).length).map .switchCase

/-- What stays of a bind whose relevance changes. -/
def Bind.core (b : Bind) : String × String × Option String := (b.id, b.nodeset, b.constraint)

/-- What stays of a kid when relevance and notes change. -/
def Kid.core (kid : Kid) :
    (String × String × Option String) × Forest Bind × Option (NodeKind × Forest NodeKind) :=
  (kid.bind.core, kid.below, kid.source)

/-- All binds that are known where a draft is made: those around it and its own. -/
def Draft.known (around : List Bind) (d : Draft) : List Bind := around ++ (Kid.forest d.kids).labels

/-- The nodeset that a declaration of the schema is given. -/
def IsDeclared (g : Generator) (nodeset : String) : Prop :=
  ∃ prefixes : PrefixTable, prefixes.Clean ∧
    ((∃ id, (prefixes.textOf (g.schema.use id).decl.name).map ("@" ++ ·) = some nodeset) ∨
      ∃ id, prefixes.textOf (g.schema.element id).name = some nodeset)

/-- A draft and a state become others step by step, with identifiers that have been given out and
are not used yet; `K` are the binds around the draft. -/
inductive Grows (g : Generator) : List Bind → Draft → Synthesis → List String →
    Draft → Synthesis → List String → Prop
  | mint {K d s s' P xs} (h : Mints s s' xs) : Grows g K d s P d s' (xs ++ P)
  | perm {K d s P P'} (h : P.Perm P') : Grows g K d s P d s P'
  | trans {K d s P d' s' P' d'' s'' P''} (h : Grows g K d s P d' s' P')
      (h' : Grows g K d' s' P' d'' s'' P'') : Grows g K d s P d'' s'' P''
  | field {K d s P} (c : Control) (hc : c.IsField) (hnamed : c.Named)
      (hbind : ∃ b ∈ d.known K, c.bind = some b.id) :
      Grows g K d s (c.identifiers ++ P)
        { d with controls := d.controls ++ leaf (.control c) } s P
  | box {K d s P d' s' P'} (c : Control) (hc : c.IsBox) (hnamed : c.Named)
      (hbind : ∀ id ∈ c.bind, ∃ b ∈ d.known K, b.id = id)
      (inner : Grows g K { d with controls := .nil } s P d' s' P') :
      Grows g K d s (c.id :: P)
        { d' with controls := d.controls ++ tree (.control c) d'.controls } s' P'
  | repeated {K d s P d' s' P' bind before after delete} (n : Nat)
      (hbind : ∀ id ∈ bind, ∃ b ∈ d.known K, b.id = id)
      (inner : Grows g K { d with controls := .nil } s P d' s' P') :
      Grows g K d s (repeatIds (Identifiers.identifier "repeat" n) before after delete ++ P)
        { d' with
          controls := d.controls ++
            (repeatForest (Identifiers.identifier "repeat" n) bind before after delete
              d'.controls) } s' P'
  | kid {K d s P d' s' P'} (b : Bind) (own above around : Option String)
      (inner : Grows g (d.known K ++ [b]) ⟨own, above, around, [], d.controls, d.copies⟩ s P
        d' s' P') :
      Grows g K d s (b.id :: P)
        { d with
          kids := d.kids ++ [{ bind := b, below := Kid.forest d'.kids }]
          controls := d'.controls
          copies := d'.copies } s' P'
  | slot {K d s P d' s' P'} (inner : Grows g K { d with controls := .nil } s P d' s' P') :
      Grows g K d s P
        { d' with
          kids := d'.kids.map (Sketch.settle d'.controls)
          controls := d.controls ++ d'.controls } s' P'
  | copy {K d s P kid k below} (nodeset : String) (hdeclared : IsDeclared g nodeset)
      (hfind : d.kids.find? (·.bind.nodeset = nodeset) = some kid)
      (hsource : kid.source = some (k, below)) :
      Grows g K d s P
        { d with
          controls := d.controls ++ ((tree k below).copy s.ids).1
          kids := Sketch.share nodeset d.kids
          copies := d.copies ++ [(tree k below, ((tree k below).copy s.ids).1)] }
        { s with ids := ((tree k below).copy s.ids).2 } P
  | switch {K d s P d' s' P'} (declared : TypeId) (select trigger switch : Control)
      (cases : List Control)
      (hchooses : Chooses g (d.known K) s.prefixes declared select trigger switch cases)
      (hselect : select.Named) (htrigger : trigger.Named) (hswitch : switch.Named)
      (inner : Grows g K { d with controls := .nil } s P d' s' P')
      (hcases : d'.controls.roots = cases.map .control) :
      Grows g K d s (select.identifiers ++ (trigger.identifiers ++ switch.id :: P))
        { d' with controls := d.controls ++ switchForest select trigger switch d'.controls } s' P'
  | guard {K d s P kids} (h : kids.map Kid.core = d.kids.map Kid.core) :
      Grows g K d s P { d with kids := kids } s P

/-- The steps of a sketch only move counters on and add prefixes. -/
theorem Grows.onward {g : Generator} {K : List Bind} {d d' : Draft} {s s' : Synthesis}
    {P P' : List String} (h : Grows g K d s P d' s' P') : s.Onward s' := by
  induction h with
  | mint h => exact h.toOnward
  | perm => exact .refl _
  | trans _ _ ih ih' => exact ih.trans ih'
  | field => exact .refl _
  | box _ _ _ _ _ ih => exact ih
  | repeated _ _ _ ih => exact ih
  | kid _ _ _ _ _ ih => exact ih
  | slot _ ih => exact ih
  | @copy _ _ s _ _ k below =>
    exact ⟨before_copyAll (tree k below) ⟨s.ids, .empty⟩, fun _ _ h => h, id⟩
  | switch _ _ _ _ _ _ _ _ _ _ _ ih => exact ih
  | guard => exact .refl _

/-! What steps of a sketch give out. -/

/-- A step gives out the identifiers in its result. -/
def Minting {α : Type} (f : Synth α) (out : α → List String) : Prop :=
  ∀ s, Mints s (f s).2 (out (f s).1)

/-- A step gives out nothing that anyone uses. -/
def Leading {α : Type} (f : Synth α) : Prop := ∀ s : Synthesis, s.Onward (f s).2

namespace Leading

theorem report (a : Anomaly) : Leading (report a) := fun _ => ⟨.refl _, fun _ _ h => h, id⟩

theorem enter (e : ElementId) (t : TypeId) : Leading (enter e t) := by
  intro s
  unfold Synthesis.enter
  split
  · exact .refl s
  · exact ⟨.refl _, fun _ _ h => h, id⟩

theorem leave : Leading leave := fun _ => ⟨.refl _, fun _ _ h => h, id⟩

theorem qualified (name : QName) : Leading (qualified name) := by
  intro s
  unfold Synthesis.qualified
  cases name.nspace with
  | none => exact .refl s
  | some ns =>
    refine ⟨.refl _, fun ns' p h => ?_, fun h => h.prefixFor ns⟩
    simp only [PrefixTable.prefixFor]
    cases hns : s.prefixes.entries.get? ns with
    | some q => exact h
    | none =>
      have hne : ns ≠ ns' := fun he => by
        rw [← he, hns] at h
        cases h
      simpa [hne] using h

theorem typeValue (g : Generator) (t : TypeId) : Leading (g.typeValue t) := by
  intro s
  unfold Generator.typeValue
  cases (g.schema.typeDef t).name? with
  | none => exact .refl s
  | some name => exact qualified name s

theorem typeConditions (g : Generator) (ts : List TypeId) : Leading (g.typeConditions ts) := by
  induction ts with
  | nil => exact fun s => .refl s
  | cons t ts ih => exact fun s => (typeValue g t s).trans (ih _)

theorem reportUngoverned (id : String) (bind : Option String) :
    Leading (Generator.reportUngoverned id bind) := by
  cases bind with
  | none => exact report _
  | some _ => exact fun s => .refl s

end Leading

/-- A qualified name is what the prefixes make of the name from then on. -/
theorem textOf_qualified (name : QName) (s : Synthesis) :
    (qualified name s).2.prefixes.textOf name = some (qualified name s).1.2 := by
  unfold qualified PrefixTable.textOf
  cases hns : name.nspace with
  | none => rfl
  | some ns =>
    simp only [PrefixTable.prefixFor]
    cases hentry : s.prefixes.entries.get? ns with
    | some p => simp [hentry]
    | none => simp

theorem PrefixTable.textOf_mono {s s' : Synthesis} (h : s.Onward s') {name : QName}
    {text : String} (hname : s.prefixes.textOf name = some text) :
    s'.prefixes.textOf name = some text := by
  unfold PrefixTable.textOf at hname ⊢
  cases hns : name.nspace with
  | none => simpa [hns] using hname
  | some ns =>
    simp only [hns, Option.map_eq_some_iff] at hname ⊢
    obtain ⟨p, hp, rfl⟩ := hname
    exact ⟨p, h.prefixes ns p hp, rfl⟩

theorem typeText_typeValue (g : Generator) (t : TypeId) (s : Synthesis) :
    g.typeText (g.typeValue t s).2.prefixes t = some (g.typeValue t s).1 := by
  unfold Generator.typeText Generator.typeValue
  cases (g.schema.typeDef t).name? with
  | none => rfl
  | some name => exact textOf_qualified name s

theorem typeText_mono {g : Generator} {s s' : Synthesis} (h : s.Onward s') {t : TypeId}
    {text : String} (ht : g.typeText s.prefixes t = some text) :
    g.typeText s'.prefixes t = some text := by
  unfold Generator.typeText at ht ⊢
  cases hname : (g.schema.typeDef t).name? with
  | none => simpa [hname] using ht
  | some name =>
    simp only [hname] at ht ⊢
    exact PrefixTable.textOf_mono h ht

namespace Minting

theorem choicesFor (values : List String) :
    Minting (Generator.choicesFor values) (·.flatMap Choice.identifiers) := by
  induction values with
  | nil => exact fun s => (Onward.refl s).mints
  | cons v vs ih => exact fun s => (mints_allocate s "item").trans (ih _)

theorem promptChoice (g : Generator) (label : String) (count : Nat) :
    Minting (g.promptChoice label count) (·.flatMap Choice.identifiers) := by
  unfold Generator.promptChoice
  split
  · exact fun s => mints_allocate s "item"
  · exact fun s => (Onward.refl s).mints

/-- The identifiers of the choices of a switch and of its cases. -/
def ofChoices (choices : List (Choice × String)) : List String :=
  choices.flatMap fun c => c.1.identifiers ++ [c.2]

theorem typeChoices (g : Generator) (ts : List TypeId) : Minting (g.typeChoices ts) ofChoices := by
  induction ts with
  | nil => exact fun s => (Onward.refl s).mints
  | cons t ts ih =>
    intro s
    exact (mints_allocate s "item").trans ((mints_allocate _ "action").trans
      ((mints_allocate _ "toggle").trans ((mints_allocate _ "case").trans
        ((Leading.typeValue g t _).mints.trans (ih _)))))

theorem valueKind_cases (g : Generator) (t : TypeId) :
    (∃ flavour, g.valueKind t = .input flavour) ∨ g.valueKind t = .upload ∨
      ∃ low high, g.valueKind t = .range low high := by
  have hfamily (family : Option Family) :
      (∃ flavour, Generator.familyKind family = .input flavour) ∨
        Generator.familyKind family = .upload := by
    unfold Generator.familyKind
    split
    · exact .inr rfl
    · exact .inl ⟨_, rfl⟩
    · exact .inl ⟨_, rfl⟩
    · exact .inl ⟨_, rfl⟩
    · exact .inl ⟨_, rfl⟩
  unfold Generator.valueKind
  dsimp only
  split
  · exact .inr (.inr ⟨_, _, rfl⟩)
  · rcases hfamily ((g.schema.builtinKind t).map Builtin.family) with h | h
    · exact .inl h
    · exact .inr (.inl h)

theorem fieldControl (g : Generator) (t : TypeId) (bind : String) :
    Minting (g.fieldControl t bind) Control.identifiers := by
  have hchoices (name : String) (values : List String) (s : Synthesis) :=
    (mints_allocate s name).trans (choicesFor values (allocate name s).2)
  intro s
  unfold Generator.fieldControl
  split
  · exact mints_allocate s "textarea"
  · split
    · have h := hchoices "select" (((g.schema.listItem t).map g.schema.enumeration).getD []) s
      rw [← List.append_nil (_ ++ _)] at h
      exact h
    · cases g.schema.enumeration t with
      | nil =>
        have h := mints_allocate s (g.valueKind t).elementName
        rcases valueKind_cases g t with ⟨flavour, hkind⟩ | hkind | ⟨low, high, hkind⟩
        · rw [hkind] at h ⊢
          exact h
        · rw [hkind] at h ⊢
          exact h
        · rw [hkind] at h ⊢
          exact h
      | cons v vs =>
        have h := hchoices "select1" (v :: vs) s
        rw [← List.append_nil (_ ++ _)] at h
        exact h

end Minting

theorem choicesFor_toggle (values : List String) (s : Synthesis) :
    ∀ c ∈ (Generator.choicesFor values s).1, c.toggle = none := by
  induction values generalizing s with
  | nil => exact fun c hc => absurd hc List.not_mem_nil
  | cons v vs ih =>
    intro c hc
    rcases List.mem_cons.1 hc with rfl | hc
    · rfl
    · exact ih _ c hc

/-- What is made for a value is a field of its own name. -/
theorem fieldControl_spec (g : Generator) (t : TypeId) (bind : String) (s : Synthesis) :
    let c := (g.fieldControl t bind s).1
    c.IsField ∧ c.Named ∧ c.bind = some bind := by
  unfold Generator.fieldControl
  split
  · exact ⟨trivial, ⟨_, rfl⟩, rfl⟩
  · split
    · exact ⟨choicesFor_toggle _ _, ⟨_, rfl⟩, rfl⟩
    · cases g.schema.enumeration t with
      | nil =>
        refine ⟨?_, ⟨_, rfl⟩, rfl⟩
        rcases Minting.valueKind_cases g t with ⟨flavour, hkind⟩ | hkind | ⟨low, high, hkind⟩
        · rw [hkind]
          trivial
        · rw [hkind]
          trivial
        · rw [hkind]
          trivial
      | cons v vs =>
        exact ⟨choicesFor_toggle (v :: vs) (allocate "select1" s).2, ⟨_, rfl⟩, rfl⟩

/-- The choices of a switch: their cases, and what they are for. -/
theorem typeChoices_spec (g : Generator) (ts : List TypeId) (s : Synthesis) :
    let choices := (g.typeChoices ts s).1
    choices.map (fun c => c.1.toggle.map (·.caseId)) = choices.map (fun c => some c.2) ∧
      choices.map (fun c => some c.1.value) =
        ts.map (g.typeText (g.typeChoices ts s).2.prefixes) ∧
      ∀ c ∈ choices, ∃ n, c.2 = Identifiers.identifier "case" n := by
  induction ts generalizing s with
  | nil => exact ⟨rfl, rfl, fun c hc => absurd hc List.not_mem_nil⟩
  | cons t ts ih =>
    let s₁ := (allocate "case" (allocate "toggle" (allocate "action" (allocate "item" s).2).2).2).2
    let s₂ := (g.typeValue t s₁).2
    obtain ⟨htoggles, hvalues, hnamed⟩ := ih s₂
    have hvalue : g.typeText (g.typeChoices ts s₂).2.prefixes t = some (g.typeValue t s₁).1 :=
      typeText_mono (Minting.typeChoices g ts s₂).toOnward (typeText_typeValue g t s₁)
    refine ⟨congrArg (List.cons _) htoggles, ?_, ?_⟩
    · change some (g.typeValue t s₁).1 :: _ = g.typeText (g.typeChoices ts s₂).2.prefixes t :: _
      rw [hvalue]
      exact congrArg (List.cons _) hvalues
    · intro c hc
      rcases List.mem_cons.1 hc with rfl | hc
      · exact ⟨_, rfl⟩
      · exact hnamed c hc

end SchemaForms
