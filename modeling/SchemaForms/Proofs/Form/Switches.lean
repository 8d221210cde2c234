import SchemaForms.Proofs.Form.Blocks
import SchemaForms.Proofs.Form.Resolving
import SchemaForms.Proofs.Form.Seats

/-!
Switches of a form.  Whatever steps a sketch takes, its choices of types, the triggers that confirm
them and the switches with their cases stay together; and as no identifier is used twice, a switch
has one choice and one trigger.
-/

namespace SchemaForms

open Forest (tree leaf)
open Identifiers (Rises)

/-- All controls of some trees in document order. -/
def Forest.controls (f : Forest NodeKind) : List Control := f.labels.filterMap NodeKind.control?

@[simp] theorem Forest.controls_nil : (Forest.nil : Forest NodeKind).controls = [] := rfl

@[simp] theorem Forest.controls_append (f f' : Forest NodeKind) :
    (f ++ f').controls = f.controls ++ f'.controls := by
  simp [controls]

@[simp] theorem Forest.controls_cons (c : Control) (below after : Forest NodeKind) :
    (Forest.cons (.control c) below after).controls = c :: (below.controls ++ after.controls) := by
  simp [controls, NodeKind.control?]

/-- The identifiers of the topmost controls. -/
def Forest.rootIds (f : Forest NodeKind) : List String :=
  f.roots.filterMap fun k => k.control?.map (·.id)

@[simp] theorem Forest.rootIds_nil : (Forest.nil : Forest NodeKind).rootIds = [] := rfl

@[simp] theorem Forest.rootIds_append (f f' : Forest NodeKind) :
    (f ++ f').rootIds = f.rootIds ++ f'.rootIds := by
  simp [rootIds]

@[simp] theorem Forest.rootIds_cons (c : Control) (below after : Forest NodeKind) :
    (Forest.cons (.control c) below after).rootIds = c.id :: after.rootIds := rfl

theorem controls_switchForest (select trigger switch : Control) (inner : Forest NodeKind) :
    (switchForest select trigger switch inner).controls =
      select :: trigger :: switch :: inner.controls := by
  simp [switchForest, leaf, tree]

theorem rootIds_switchForest (select trigger switch : Control) (inner : Forest NodeKind) :
    (switchForest select trigger switch inner).rootIds = [select.id, trigger.id, switch.id] := rfl

/-! Blocks are told apart by the identifiers of their cases and of their choices. -/

/-- Where no name is given twice, only one of some things shares a name with a given one. -/
theorem filter_shares {β : Type} {bs : List β} {names : β → List String}
    (h : (bs.flatMap names).Nodup) {b : β} (hb : b ∈ bs) (hne : names b ≠ []) :
    bs.filter (fun b' => (names b').any fun x => decide (x ∈ names b)) = [b] := by
  induction bs with
  | nil => cases hb
  | cons a as ih =>
    rw [List.flatMap_cons, List.nodup_append] at h
    obtain ⟨-, hrest, hdisjoint⟩ := h
    have hapart {b' : β} (hb' : b' ∈ as) {x : String} (hx : x ∈ names a) : x ∉ names b' :=
      fun hx' => hdisjoint x hx x (List.mem_flatMap.2 ⟨b', hb', hx'⟩) rfl
    rcases List.mem_cons.1 hb with rfl | hb
    · have hself : ((names b).any fun x => decide (x ∈ names b)) = true := by
        obtain ⟨x, hx⟩ := List.exists_mem_of_ne_nil _ hne
        exact List.any_eq_true.2 ⟨x, hx, decide_eq_true hx⟩
      rw [List.filter_cons, if_pos hself, List.cons.injEq, List.filter_eq_nil_iff]
      refine ⟨rfl, fun b' hb' hshares => ?_⟩
      obtain ⟨x, hx', hx⟩ := List.any_eq_true.1 hshares
      exact hapart hb' (of_decide_eq_true hx) hx'
    · rw [List.filter_cons, if_neg, ih hrest hb]
      intro hshares
      obtain ⟨x, hx, hx'⟩ := List.any_eq_true.1 hshares
      exact hapart hb hx (of_decide_eq_true hx')

section Whole

variable {g : Generator} {binds : List Bind} {prefixes : PrefixTable} {f : Forest NodeKind}
  {bs : List Block}

theorem Block.Fits.caseIds_eq {B : Block} (h : B.Fits g binds prefixes) :
    B.select.caseIds = B.cases.map (·.id) := Chooses.caseIds_select h

theorem Block.Fits.cases_ne {B : Block} (h : B.Fits g binds prefixes) :
    B.cases.map (·.id) ≠ [] := by
  intro hnil
  have hlength := Chooses.length_cases h
  rw [List.map_eq_nil_iff.1 hnil] at hlength
  have := h.several
  simp only [List.length_nil] at hlength
  omega

/-- The choices among cases are those of the blocks. -/
theorem Whole.selects (h : Whole g binds prefixes f bs) :
    f.controls.filter (fun c => !c.caseIds.isEmpty) = bs.map (·.select) := by
  induction h with
  | nil => rfl
  | plain hc _ _ ih ih' =>
    simp [hc.caseIds, ih, ih']
  | @block B _ _ _ _ hB _ _ _ ih ih' =>
    have hselect : B.select.caseIds ≠ [] := hB.caseIds_eq ▸ hB.cases_ne
    obtain ⟨action, id, hkind⟩ := hB.confirms
    have htrigger : B.trigger.caseIds = [] := by
      simp [Control.caseIds, hkind, ControlKind.choices]
    have hswitch : B.switch.caseIds = [] := by
      simp [Control.caseIds, hB.switches, ControlKind.choices]
    rw [Forest.controls_append, controls_switchForest]
    simp [hselect, htrigger, hswitch, ih, ih']

/-- The triggers that dispatch events are those of the blocks. -/
theorem Whole.triggers (h : Whole g binds prefixes f bs) :
    f.controls.filter (fun c => c.dispatched?.isSome) = bs.map (·.trigger) := by
  induction h with
  | nil => rfl
  | plain hc _ _ ih ih' =>
    simp [hc.dispatched?, ih, ih']
  | @block B _ _ _ _ hB _ _ _ ih ih' =>
    obtain ⟨label, prompt, toggled, hkind, -⟩ := hB.choices
    have hselect : B.select.dispatched? = none := by
      rw [Control.dispatched?, hkind]
    have hswitch : B.switch.dispatched? = none := by
      rw [Control.dispatched?, hB.switches]
    rw [Forest.controls_append, controls_switchForest]
    simp [hselect, Chooses.dispatched?_trigger hB, hswitch, ih, ih']

/-- Each case of a block is a control of its own. -/
theorem Whole.count_cases (h : Whole g binds prefixes f bs) (x : String) :
    (bs.flatMap fun B => B.cases.map (·.id)).count x + f.rootIds.count x ≤
      (f.controls.map (·.id)).count x := by
  induction h with
  | nil => exact Nat.le_refl _
  | plain hc _ _ ih ih' =>
    simp only [List.flatMap_append, Forest.rootIds_cons, Forest.controls_cons, List.map_cons,
      List.map_append, List.count_cons, List.count_append]
    omega
  | @block B inner _ _ _ _ hroots _ _ ih ih' =>
    have hcases : inner.rootIds = B.cases.map (·.id) := by
      rw [Forest.rootIds, hroots, List.filterMap_map]
      exact congrFun (List.filterMap_eq_map (f := Control.id)) B.cases
    rw [hcases] at ih
    rw [Forest.controls_append, controls_switchForest, Forest.rootIds_append, rootIds_switchForest]
    simp only [List.flatMap_cons, List.flatMap_append, List.map_cons, List.map_append,
      List.cons_append, List.nil_append, List.count_append, List.count_cons]
    omega

/-- A switch is that of a block, with its cases below. -/
theorem Whole.switch_part (h : Whole g binds prefixes f bs) {c : Control} {below : Forest NodeKind}
    (hpart : (.control c, below) ∈ f.parts) (hc : c.kind = .switch) :
    ∃ B ∈ bs, B.switch = c ∧ below.roots = B.cases.map .control := by
  induction h with
  | nil => cases hpart
  | plain hplain _ _ ih ih' =>
    simp only [Forest.parts, List.mem_cons, List.mem_append] at hpart
    rcases hpart with hpart | hpart | hpart
    · cases hpart
      exact absurd hc hplain.kind
    · obtain ⟨B, hB, hswitch⟩ := ih hpart
      exact ⟨B, List.mem_append_left _ hB, hswitch⟩
    · obtain ⟨B, hB, hswitch⟩ := ih' hpart
      exact ⟨B, List.mem_append_right _ hB, hswitch⟩
  | block hB hroots _ _ ih ih' =>
    rw [Forest.parts_append, parts_switchForest] at hpart
    simp only [List.mem_append, List.mem_cons] at hpart
    rcases hpart with (hpart | hpart | hpart | hpart) | hpart
    · cases hpart
      obtain ⟨label, prompt, toggled, hkind, -⟩ := hB.choices
      rw [hkind] at hc
      cases hc
    · cases hpart
      obtain ⟨action, id, hkind⟩ := hB.confirms
      rw [hkind] at hc
      cases hc
    · cases hpart
      exact ⟨_, List.mem_cons_self, rfl, hroots⟩
    · obtain ⟨B, hB, hswitch⟩ := ih hpart
      exact ⟨B, List.mem_cons_of_mem _ (List.mem_append_left _ hB), hswitch⟩
    · obtain ⟨B, hB, hswitch⟩ := ih' hpart
      exact ⟨B, List.mem_cons_of_mem _ (List.mem_append_right _ hB), hswitch⟩

/-- Whether a control chooses among some cases. -/
def Control.choosesAmong (cases : List Control) (c : Control) : Bool :=
  c.caseIds.any fun x => decide (x ∈ cases.map (·.id))

/-- Only the choice of a block names its cases. -/
theorem Whole.filter_choosesAmong (h : Whole g binds prefixes f bs)
    (hnodup : (f.controls.map (·.id)).Nodup) {B : Block} (hB : B ∈ bs) :
    f.controls.filter (·.choosesAmong B.cases) = [B.select] := by
  have hcases : (bs.flatMap fun B => B.cases.map (·.id)).Nodup := by
    rw [List.nodup_iff_count_le_one] at hnodup ⊢
    intro x
    have hcount := h.count_cases x
    have hle := hnodup x
    omega
  have hfilter : f.controls.filter (·.choosesAmong B.cases) =
      (f.controls.filter fun c => !c.caseIds.isEmpty).filter (·.choosesAmong B.cases) := by
    rw [List.filter_filter]
    congr 1
    funext c
    cases hc : c.choosesAmong B.cases with
    | false => rfl
    | true =>
      obtain ⟨x, hx, -⟩ := List.any_eq_true.1 hc
      simp [List.ne_nil_of_mem hx]
  rw [hfilter, h.selects, List.filter_map]
  have hshares := filter_shares hcases hB (h.fits B hB).cases_ne
  have hsame : bs.filter ((·.choosesAmong B.cases) ∘ (·.select)) =
      bs.filter fun B' => (B'.cases.map (·.id)).any fun x => decide (x ∈ B.cases.map (·.id)) := by
    apply List.filter_congr
    intro B' hB'
    rw [Function.comp_apply, Control.choosesAmong, (h.fits B' hB').caseIds_eq]
  rw [hsame, hshares]
  rfl

/-- Only the trigger of a block confirms its choice. -/
theorem Whole.filter_dispatched (h : Whole g binds prefixes f bs)
    (hnodup : (f.controls.map (·.id)).Nodup) {B : Block} (hB : B ∈ bs) :
    f.controls.filter (fun c => decide (c.dispatched? = some B.select.id)) = [B.trigger] := by
  have hselects : (bs.flatMap fun B => [B.select.id]).Nodup := by
    have hfilter : (f.controls.filter fun c => !c.caseIds.isEmpty).Sublist f.controls :=
      List.filter_sublist
    have hsublist := hfilter.map Control.id
    rw [h.selects, List.map_map] at hsublist
    rw [← List.map_eq_flatMap]
    exact hnodup.sublist hsublist
  have hfilter : f.controls.filter (fun c => decide (c.dispatched? = some B.select.id)) =
      (f.controls.filter fun c => c.dispatched?.isSome).filter
        fun c => decide (c.dispatched? = some B.select.id) := by
    rw [List.filter_filter]
    congr 1
    funext c
    cases c.dispatched? <;> simp
  rw [hfilter, h.triggers, List.filter_map]
  have hshares := filter_shares hselects hB (List.cons_ne_nil _ _)
  have hsame : bs.filter ((fun c => decide (c.dispatched? = some B.select.id)) ∘ (·.trigger)) =
      bs.filter fun B' => [B'.select.id].any fun x => decide (x ∈ [B.select.id]) := by
    apply List.filter_congr
    intro B' hB'
    rw [Function.comp_apply, Chooses.dispatched?_trigger (h.fits B' hB')]
    simp
  rw [hsame, hshares]
  rfl

end Whole

/-! The steps of a sketch keep blocks whole. -/

/-- No name of a declaration has a slash in it. -/
structure Schema.Slashless (s : Schema) : Prop where
  element : ∀ e, '/' ∉ (s.element e).name.localName.toList
  use : ∀ u, '/' ∉ (s.use u).decl.name.localName.toList

theorem PrefixTable.Clean.not_mem_textOf {t : PrefixTable} (ht : t.Clean) {name : QName}
    (hname : '/' ∉ name.localName.toList) {text : String} (h : t.textOf name = some text) :
    '/' ∉ text.toList := by
  unfold textOf at h
  split at h
  · rw [← Option.some.inj h]
    exact hname
  · obtain ⟨p, hp, rfl⟩ := Option.map_eq_some_iff.1 h
    have hcolon : '/' ∉ ":".toList := by decide
    simp only [String.toList_append, List.mem_append, not_or]
    exact ⟨⟨ht _ p hp, hcolon⟩, hname⟩

/-- The bind of a declaration is not that of a choice of types. -/
theorem IsDeclared.ne_typePath {g : Generator} (hg : g.schema.Slashless) {nodeset : String}
    (h : IsDeclared g nodeset) (path : String) : nodeset ≠ path ++ "/@xsi:type" := by
  have hslash : '/' ∈ (path ++ "/@xsi:type").toList := by
    rw [String.toList_append, List.mem_append]
    exact .inr (by decide)
  obtain ⟨prefixes, hclean, ⟨id, hid⟩ | ⟨id, hid⟩⟩ := h
  · obtain ⟨text, htext, rfl⟩ := Option.map_eq_some_iff.1 hid
    have hnot := hclean.not_mem_textOf (hg.use id) htext
    intro heq
    rw [← heq, String.toList_append, List.mem_append] at hslash
    rcases hslash with hslash | hslash
    · exact absurd hslash (by decide)
    · exact hnot hslash
  · have hnot := hclean.not_mem_textOf (hg.element id) hid
    intro heq
    exact hnot (heq ▸ hslash)

theorem Control.IsField.isPlain {c : Control} (h : c.IsField) : c.IsPlain := by
  obtain ⟨id, kind⟩ := c
  have hchoices {cs : List Choice} (hcs : ∀ choice ∈ cs, choice.toggle = none) :
      cs.filterMap (fun choice => choice.toggle.map (·.caseId)) = [] := by
    rw [List.filterMap_eq_nil_iff]
    intro choice hchoice
    rw [hcs choice hchoice]
    rfl
  cases kind with
  | selectOne cs => exact ⟨hchoices h, rfl, by simp⟩
  | selectMany cs => exact ⟨hchoices h, rfl, by simp⟩
  | input _ => exact ⟨rfl, rfl, by simp⟩
  | textArea => exact ⟨rfl, rfl, by simp⟩
  | upload => exact ⟨rfl, rfl, by simp⟩
  | range _ _ => exact ⟨rfl, rfl, by simp⟩
  | _ => cases h

theorem Control.IsBox.isPlain {c : Control} (h : c.IsBox) : c.IsPlain := by
  obtain ⟨id, kind⟩ := c
  obtain rfl | ⟨selected, rfl⟩ : kind = .group ∨ ∃ selected, kind = .switchCase selected := h
  · exact ⟨rfl, rfl, by simp⟩
  · exact ⟨rfl, rfl, by simp⟩

theorem isPlain_repeatTriggers {id before after delete : String} {bind : Option String}
    {c : Control} (hc : c ∈ repeatTriggers id bind before after delete) : c.IsPlain := by
  simp only [repeatTriggers, List.mem_cons, List.not_mem_nil, or_false] at hc
  rcases hc with rfl | rfl | rfl
  · exact ⟨rfl, rfl, by simp [Generator.repeatTrigger]⟩
  · exact ⟨rfl, rfl, by simp [Generator.repeatTrigger]⟩
  · exact ⟨rfl, rfl, by simp [Generator.repeatTrigger]⟩

section Steps

variable {g : Generator} {binds : List Bind} {prefixes : PrefixTable} {f : Forest NodeKind}
  {bs : List Block}

theorem whole_leaves {cs : List Control} (hcs : ∀ c ∈ cs, c.IsPlain) :
    Whole g binds prefixes (Forest.leaves (cs.map .control)) [] := by
  induction cs with
  | nil => exact .nil
  | cons c cs ih =>
    have hrest := ih fun c' hc' => hcs c' (List.mem_cons_of_mem _ hc')
    have hplain := Whole.plain (hcs c List.mem_cons_self) .nil hrest
    exact hplain

theorem Whole.repeated (h : Whole g binds prefixes f bs) (id : String) (bind : Option String)
    (before after delete : String) :
    Whole g binds prefixes (repeatForest id bind before after delete f) bs := by
  have hregion : (repeatRegion id bind).IsPlain := ⟨rfl, rfl, by simp [repeatRegion]⟩
  exact (whole_leaves fun c hc => isPlain_repeatTriggers hc).append (tree hregion h)

/-- The sources of copies are whole, except for choices of types. -/
def SourcesWhole (g : Generator) (binds : List Bind) (prefixes : PrefixTable)
    (kids : List Kid) : Prop :=
  ∀ kid ∈ kids, ∀ k below, kid.source = some (k, below) →
    (∃ bs, Whole g binds prefixes (Forest.tree k below) bs) ∨
      ∃ path, kid.bind.nodeset = path ++ "/@xsi:type"

theorem SourcesWhole.mono {kids : List Kid} (h : SourcesWhole g binds prefixes kids)
    {binds' : List Bind} {prefixes' : PrefixTable}
    (hbinds : binds.map Bind.core ⊆ binds'.map Bind.core)
    (hprefixes : ∀ t text, g.typeText prefixes t = some text →
      g.typeText prefixes' t = some text) : SourcesWhole g binds' prefixes' kids := by
  intro kid hkid k below hsource
  refine (h kid hkid k below hsource).imp_left ?_
  rintro ⟨bs, hwhole⟩
  exact ⟨bs, hwhole.mono hbinds hprefixes⟩

theorem SourcesWhole.of_core {kids kids' : List Kid} (h : SourcesWhole g binds prefixes kids)
    (hcore : kids'.map Kid.core = kids.map Kid.core) : SourcesWhole g binds prefixes kids' := by
  intro kid hkid k below hsource
  have hmem := List.mem_map_of_mem (f := Kid.core) hkid
  rw [hcore] at hmem
  obtain ⟨old, hold, he⟩ := List.mem_map.1 hmem
  have hsource' : old.source = kid.source := congrArg (·.2.2) he
  have hnodeset : old.bind.nodeset = kid.bind.nodeset := congrArg (·.1.2.1) he
  rw [← hnodeset]
  exact h old hold k below (hsource'.trans hsource)

/-- The first control of a bind is part of a block only where the bind is that of a choice. -/
theorem SourcesWhole.settle {kids : List Kid} (h : SourcesWhole g binds prefixes kids)
    (hwhole : Whole g binds prefixes f bs) (hkids : ∀ kid ∈ kids, kid.bind ∈ binds)
    (hids : (binds.map (·.id)).Nodup) :
    SourcesWhole g binds prefixes (kids.map (Sketch.settle f)) := by
  intro kid hkid k below hsource
  obtain ⟨old, hold, rfl⟩ := List.mem_map.1 hkid
  unfold Sketch.settle at hsource ⊢
  split at hsource
  · next hnone =>
    rw [if_pos hnone]
    have hbound : k.isBoundTo old.bind.id = true := (Forest.find_mem hsource).2.2
    refine (hwhole.part (Forest.mem_parts_of_find hsource)).imp_right ?_
    rintro ⟨B, hB, rfl | rfl | ⟨rfl, -⟩⟩
    · -- identifiers tell binds apart, so the bind is that of the choice
      obtain ⟨label, prompt, toggled, -, -, -, -, b, hb, hbind, ⟨path, hpath⟩, -⟩ :=
        (hwhole.fits B hB).choices
      have hid : B.select.bind = some old.bind.id := eq_of_beq hbound
      have heq : b = old.bind := by
        apply List.inj_on_of_nodup_map hids hb (hkids old hold)
        rw [hbind] at hid
        exact Option.some.inj hid
      exact ⟨path, heq ▸ hpath⟩
    · have hid : B.trigger.bind = some old.bind.id := eq_of_beq hbound
      rw [(hwhole.fits B hB).unbound.1] at hid
      cases hid
    · have hid : B.switch.bind = some old.bind.id := eq_of_beq hbound
      rw [(hwhole.fits B hB).unbound.2] at hid
      cases hid
  · next hsome =>
    rw [if_neg hsome]
    exact h old hold k below hsource

end Steps

/-! Identifiers are given out before they are used, and used once. -/

section Run

variable {g : Generator} {K : List Bind} {d d' : Draft} {s s' : Synthesis} {P P' : List String}
  {A A' : Forest NodeKind}

/-- Whatever identifier is there, beside a draft, around it, in it or not used yet, has been given
out, and is there once. -/
def Counted (A : Forest NodeKind) (K : List Bind) (d : Draft) (s : Synthesis)
    (P : List String) : Prop :=
  ∀ x, Rises .empty s.ids x 0
    (A.identifiers.count x + (K.map (·.id)).count x + d.tally P x)

theorem Counted.of_le {K' : List Bind} (h : Counted A K d s P)
    (hle : ∀ x, A'.identifiers.count x + (K'.map (·.id)).count x + d'.tally P' x ≤
      A.identifiers.count x + (K.map (·.id)).count x + d.tally P x) :
    Counted A' K' d' s P' := by
  intro x
  have hrises := h x
  have hx := hle x
  constructor
  · have := hrises.le
    omega
  · intro hnot
    have := hrises.same hnot
    omega

theorem Grows.counted (h : Grows g K d s P d' s' P')
    (hlinked : Linked (A ++ d.controls) (d.knownIds K) d.kids d.copies)
    (hcounted : Counted A K d s P) : Counted A K d' s' P' := by
  intro x
  have hrises := (h.rises x A hlinked).add (A.identifiers.count x + (K.map (·.id)).count x)
  have hcount := hcounted x
  rw [Nat.add_comm] at hcount ⊢
  exact hcount.trans hrises (fun _ => Nat.zero_le _) h.onward.before

theorem Counted.nodup_known (h : Counted A K d s P) : (d.knownIds K).Nodup := by
  rw [List.nodup_iff_count_le_one]
  intro x
  have hle := (h x).le
  rw [Draft.tally_eq] at hle
  rw [Draft.knownIds, Draft.known, List.map_append, List.count_append]
  omega

theorem Counted.nodup_controls (h : Counted A K d s P) :
    (A ++ d.controls).identifiers.Nodup := by
  rw [List.nodup_iff_count_le_one]
  intro x
  have hle := (h x).le
  rw [Draft.tally_eq] at hle
  rw [Forest.identifiers_append, List.count_append]
  omega

/-- A section begins with no controls of its own. -/
theorem Counted.opened (h : Counted A K d s P) (hP : ∀ x, P'.count x ≤ P.count x) :
    Counted (A ++ d.controls) K { d with controls := .nil } s P' := by
  apply h.of_le
  intro x
  have := hP x
  simp only [Draft.tally_eq, Forest.identifiers_append, Forest.identifiers_nil, List.count_append,
    List.count_nil]
  omega

/-- A new bind begins with no binds inside. -/
theorem Counted.inside {b : Bind} (h : Counted A K d s (b.id :: P))
    (own above around : Option String) :
    Counted A (d.known K ++ [b]) ⟨own, above, around, [], d.controls, d.copies⟩ s P := by
  apply h.of_le
  intro x
  simp only [Draft.tally_eq, Draft.known, Kid.forest, Forest.labels_nil, List.map_nil,
    List.map_append, List.map_cons, List.count_append, List.count_cons, List.count_nil]
  omega

/-- The choices of types in a draft stand in blocks, and nothing that breaks one is copied. -/
structure Draft.IsWhole (g : Generator) (K : List Bind) (d : Draft) (s : Synthesis) : Prop where
  controls : ∃ bs, Whole g (d.known K) s.prefixes d.controls bs
  sources : SourcesWhole g (d.known K) s.prefixes d.kids

theorem Grows.mono_whole (h : Grows g K d s P d' s' P') {f : Forest NodeKind} {bs : List Block}
    (hf : Whole g (d.known K) s.prefixes f bs) : Whole g (d'.known K) s'.prefixes f bs :=
  hf.mono h.cores_subset fun _ _ ht => typeText_mono h.onward ht

theorem Draft.IsWhole.opened (h : d.IsWhole g K s) :
    Draft.IsWhole g K { d with controls := .nil } s :=
  ⟨⟨[], .nil⟩, h.sources⟩

/-- Whatever steps a sketch takes, choices of types stay in blocks. -/
theorem Grows.isWhole (hg : g.schema.Slashless) (h : Grows g K d s P d' s' P') :
    ∀ A : Forest NodeKind, Linked (A ++ d.controls) (d.knownIds K) d.kids d.copies →
      Counted A K d s P → d.IsWhole g K s → d'.IsWhole g K s' := by
  induction h with
  | mint h =>
    intro A _ _ hd
    obtain ⟨bs, hwhole⟩ := hd.controls
    have hprefixes (t : TypeId) (text : String) (ht : g.typeText _ t = some text) :=
      typeText_mono h.toOnward ht
    exact ⟨⟨bs, hwhole.mono (List.Subset.refl _) hprefixes⟩,
      hd.sources.mono (List.Subset.refl _) hprefixes⟩
  | perm => exact fun A _ _ hd => hd
  | trans h h' ih ih' =>
    intro A hlinked hcounted hd
    exact ih' A (h.linked A hlinked) (h.counted hlinked hcounted) (ih A hlinked hcounted hd)
  | field c hc =>
    intro A _ _ hd
    obtain ⟨bs, hwhole⟩ := hd.controls
    exact ⟨⟨_, hwhole.append (.tree hc.isPlain .nil)⟩, hd.sources⟩
  | @box _ _ _ P _ _ _ c hc _ _ inner ih =>
    intro A hlinked hcounted hd
    have hinner := ih _ hlinked.opened (hcounted.opened fun x => List.count_le_count_cons) hd.opened
    obtain ⟨bs, hwhole⟩ := hd.controls
    obtain ⟨bs', hwhole'⟩ := hinner.controls
    have hbefore := inner.mono_whole hwhole
    exact ⟨⟨_, hbefore.append (.tree hc.isPlain hwhole')⟩, hinner.sources⟩
  | repeated n _ inner ih =>
    intro A hlinked hcounted hd
    have hinner := ih _ hlinked.opened (hcounted.opened fun x => by
      rw [List.count_append]
      omega) hd.opened
    obtain ⟨bs, hwhole⟩ := hd.controls
    obtain ⟨bs', hwhole'⟩ := hinner.controls
    have hbefore := inner.mono_whole hwhole
    exact ⟨⟨_, hbefore.append (hwhole'.repeated _ _ _ _ _)⟩, hinner.sources⟩
  | @kid K d s P d' s' P' b own above around inner ih =>
    intro A hlinked hcounted hd
    let start : Draft := ⟨own, above, around, [], d.controls, d.copies⟩
    have hknown : (d.known K).map Bind.core ⊆
        (start.known (d.known K ++ [b])).map Bind.core := by
      simp [start, Draft.known, Kid.forest]
    obtain ⟨bs, hwhole⟩ := hd.controls
    have hstart : start.IsWhole g (d.known K ++ [b]) s :=
      ⟨⟨bs, hwhole.mono hknown fun _ _ ht => ht⟩, fun kid hkid => absurd hkid List.not_mem_nil⟩
    have hinner := ih A (hlinked.inside b own above around) (hcounted.inside own above around)
      hstart
    have hends : Draft.known K { d with
        kids := d.kids ++ [{ bind := b, below := Kid.forest d'.kids }]
        controls := d'.controls
        copies := d'.copies } = d'.known (d.known K ++ [b]) := by
      simp [Draft.known, Kid.forest_append, Kid.forest]
    obtain ⟨bs', hwhole'⟩ := hinner.controls
    refine ⟨⟨bs', hends.symm ▸ hwhole'⟩, ?_⟩
    intro kid hkid k below hsource
    rw [hends]
    rcases List.mem_append.1 hkid with hkid | hkid
    · have hprefixes (t : TypeId) (text : String) (ht : g.typeText _ t = some text) :=
        typeText_mono inner.onward ht
      have hcores := List.Subset.trans hknown inner.cores_subset
      exact (hd.sources.mono hcores hprefixes) kid hkid k below hsource
    · rw [List.mem_singleton.1 hkid] at hsource
      cases hsource
  | @slot K d s P d' s' P' inner ih =>
    intro A hlinked hcounted hd
    have hinside := hcounted.opened fun x => Nat.le_refl (P.count x)
    have hinner := ih _ hlinked.opened hinside hd.opened
    obtain ⟨bs, hwhole⟩ := hd.controls
    obtain ⟨bs', hwhole'⟩ := hinner.controls
    have hbefore := inner.mono_whole hwhole
    have hends : Draft.known K { d' with kids := d'.kids.map (Sketch.settle d'.controls) } =
        d'.known K := by
      simp only [Draft.known, forest_settle]
    have hkids : ∀ kid ∈ d'.kids, kid.bind ∈ d'.known K := fun kid hkid =>
      List.mem_append_right _ (Kid.mem_forest hkid)
    have hnodup := (inner.counted hlinked.opened hinside).nodup_known
    constructor
    · exact ⟨_, hends.symm ▸ hbefore.append hwhole'⟩
    · exact hends.symm ▸ hinner.sources.settle hwhole' hkids hnodup
  | @copy K d s P kid k below nodeset hdeclared hfind hsource =>
    intro A hlinked hcounted hd
    have hmem := List.mem_of_find?_eq_some hfind
    have hnodeset : kid.bind.nodeset = nodeset := by
      simpa using List.find?_some hfind
    have hcore := known_core_of_core (K := K) (d := d) (share_core nodeset d.kids)
    have hcores : (d.known K).map Bind.core ⊆
        (Draft.known K { d with kids := Sketch.share nodeset d.kids }).map Bind.core :=
      fun c hc => hcore.symm ▸ hc
    have hpart := hlinked.sources kid hmem _ hsource
    have hnodup := hcounted.nodup_controls.sublist (Forest.identifiers_sublist hpart)
    obtain ⟨table, halike⟩ := Forest.alike_copy (hlinked.titled.part hpart) hnodup s.ids
    obtain ⟨bs, hwhole⟩ := hd.controls
    rcases hd.sources kid hmem k below hsource with ⟨bs', hwhole'⟩ | ⟨path, hpath⟩
    · obtain ⟨bs'', hcopied⟩ := hwhole'.copy halike
      constructor
      · exact ⟨_, (hwhole.append hcopied).mono hcores fun _ _ ht => ht⟩
      · exact (hd.sources.of_core (share_core nodeset d.kids)).mono hcores fun _ _ ht => ht
    · exact absurd (hnodeset ▸ hpath) (hdeclared.ne_typePath hg path)
  | switch declared select trigger switch cases hchooses _ _ _ inner hcases ih =>
    intro A hlinked hcounted hd
    have hinner := ih _ hlinked.opened (hcounted.opened fun x => by
      simp only [List.count_append, List.count_cons]
      omega) hd.opened
    obtain ⟨bs, hwhole⟩ := hd.controls
    obtain ⟨bs', hwhole'⟩ := hinner.controls
    have hbefore := inner.mono_whole hwhole
    have hB := hchooses.mono inner.cores_subset fun _ _ ht => typeText_mono inner.onward ht
    have hblock := Whole.switchForest (B := ⟨declared, select, trigger, switch, cases⟩) hB hcases
      hwhole'
    exact ⟨⟨_, hbefore.append hblock⟩, hinner.sources⟩
  | @guard K d s P kids hcore =>
    intro A _ _ hd
    have hknown := known_core_of_core (K := K) hcore
    have hcores : (d.known K).map Bind.core ⊆
        (Draft.known K { d with kids := kids }).map Bind.core := fun c hc => hknown.symm ▸ hc
    obtain ⟨bs, hwhole⟩ := hd.controls
    exact ⟨⟨bs, hwhole.mono hcores fun _ _ ht => ht⟩,
      (hd.sources.of_core hcore).mono hcores fun _ _ ht => ht⟩

end Run

/-! The switches of a form. -/

open Grove (ids at? erase tops)

/-- A block of a form, whose switch is a node: the cases hang in the switch, and one choice and one
trigger belong to it. -/
structure Form.HasBlock (g : Generator) (form : Form) (n : NodeId) (B : Block) : Prop where
  switch : form.tree.kind n = .control B.switch
  fits : ∃ prefixes : PrefixTable,
    form.namespaces = prefixes.declarations ∧ B.Fits g form.binds prefixes
  children : (form.tree.children n).map form.tree.kind = B.cases.map .control
  select : form.controls.filter (·.choosesAmong B.cases) = [B.select]
  trigger : form.controls.filter (fun c => decide (c.dispatched? = some B.select.id)) = [B.trigger]

namespace Tree

variable {t : Tree} {f : Grove}

theorem Shows.filterMap_walk {β : Type} (h : t.Shows f) {p : NodeKind → Option β}
    (hp : ∀ k : NodeKind, k.isMarkup → p k = none) :
    (t.walk.filter fun n => (p (t.kind n)).isSome).filterMap (fun n => p (t.kind n)) =
      t.unmarked.labels.filterMap p := by
  have hfilter : (t.walk.filter fun n => (p (t.kind n)).isSome).filterMap
      (fun n => p (t.kind n)) = t.walk.filterMap fun n => p (t.kind n) := by
    rw [List.filterMap_filter]
    apply List.filterMap_congr
    intro n _
    cases p (t.kind n) <;> rfl
  rw [hfilter, h.walk, h.unmarked_eq, Grove.filterMap_erase hp, ids, List.filterMap_map]
  apply List.filterMap_congr
  intro a ha
  rw [Function.comp_apply, kind_of_mem_labels h.links ha]

/-- What hangs in a switch, where no markup does. -/
theorem Shows.children_switch (h : t.Shows f) (hseated : t.Seated) {n : NodeId} {c : Control}
    {b : Grove} (hat : at? n f = some (.control c, b)) (hc : c.kind = .switch) :
    (t.children n).map t.kind = (erase b).roots := by
  obtain ⟨hkind, hchildren, hlinks⟩ := links_at? h.links hat
  have hbare : ∀ m ∈ tops b, ¬ (t.kind m).isMarkup := by
    intro m hm
    have hswitch : (t.kind n).isSwitch = true := by
      rw [hkind]
      simp [NodeKind.isSwitch, hc]
    rw [hseated n hswitch m (hchildren ▸ hm)]
    exact Bool.false_ne_true
  rw [hchildren]
  generalize some n = parent at hlinks
  clear hat hchildren
  induction b with
  | nil => rfl
  | cons a below after _ ih =>
    obtain ⟨ha, -, hafter⟩ := hlinks
    have hkind : t.kind a.1 = a.2 := by rw [Tree.kind, ha]
    simp only [Grove.tops_cons, List.mem_cons] at hbare
    have hmarkup : ¬ a.2.isMarkup := hkind ▸ hbare a.1 (.inl rfl)
    rw [erase, if_neg hmarkup, Grove.tops_cons, List.map_cons, hkind, Forest.roots,
      ih (fun m hm => hbare m (.inr hm)) hafter]

/-- Switches of the arena are switches of the forest without markup, with the same children. -/
theorem Shows.part_of_switch (h : t.Shows f) (hseated : t.Seated) {n : NodeId} (hn : n ∈ t.walk)
    {c : Control} (hkind : t.kind n = .control c) (hc : c.kind = .switch) :
    ∃ below, (.control c, below) ∈ t.unmarked.parts ∧
      (t.children n).map t.kind = below.roots := by
  rw [h.walk] at hn
  obtain ⟨⟨k, b⟩, hat⟩ := Grove.at?_eq_some_of_mem hn
  obtain rfl := (links_at? h.links hat).1.symm.trans hkind
  refine ⟨erase b, ?_, h.children_switch hseated hat hc⟩
  rw [h.unmarked_eq]
  exact Grove.mem_parts_erase hat Bool.false_ne_true

end Tree

theorem Form.controls_eq {form : Form} {f : Grove} (h : form.tree.Shows f) :
    form.controls = form.tree.unmarked.controls := by
  apply h.filterMap_walk
  intro k hk
  cases k with
  | markup m => rfl
  | _ => cases hk

theorem Form.binds_eq {form : Form} {f : Grove} (h : form.tree.Shows f) :
    form.binds = form.tree.unmarked.labels.filterMap NodeKind.bind? := by
  apply h.filterMap_walk
  intro k hk
  cases k with
  | markup m => rfl
  | _ => cases hk

namespace Generator

variable {g : Generator}

theorem isWhole_filled (hg : g.schema.Slashless) (root : ElementId) (nsPrefix : Option String)
    (rootName : String) {s : Synthesis} (hs : s.prefixes.Clean) :
    let made := Sketch.filled g root nsPrefix rootName s
    made.1.IsWhole g [] made.2 := by
  have hgrows := Sketch.grows_filled g root nsPrefix rootName s hs []
  apply hgrows.isWhole hg .nil linked_nil
  · intro x
    exact .of_le (Nat.le_refl 0)
  · exact ⟨⟨[], .nil⟩, fun kid hkid => absurd hkid List.not_mem_nil⟩

/-- The identifiers of controls are among all identifiers. -/
theorem ids_sublist (f : Forest NodeKind) :
    (f.controls.map (·.id)).Sublist f.identifiers := by
  unfold Forest.controls Forest.identifiers
  induction f.labels with
  | nil => exact List.nil_sublist _
  | cons k ks ih =>
    cases k with
    | control c => exact (ih.trans (List.sublist_append_right ..)).cons_cons c.id
    | _ => exact ih.trans (List.sublist_append_right ..)

section Drawing

variable (d : Drawing) (r : Request) (root : Option Xml.Element)

theorem controls_forest :
    (d.forest r root).controls = d.controls.controls ++ [d.submitControl] := by
  have hbinds : ((Kid.forest d.binds).labels.map NodeKind.bind).filterMap NodeKind.control? = [] := by
    rw [List.filterMap_map, List.filterMap_eq_nil_iff]
    exact fun b _ => rfl
  have hlabels : (d.forest r root).labels =
      [.model d.model r.schemaReference, .instanceData d.data root] ++
        (Kid.forest d.binds).labels.map .bind ++
        [.submission d.submission r.submissionAction r.submissionMethod] ++
        (d.controls.labels ++ [.control d.submitControl]) := by
    simp [Drawing.forest, tree, leaf]
  rw [Forest.controls, hlabels, List.filterMap_append, List.filterMap_append,
    List.filterMap_append, hbinds, List.filterMap_append]
  rfl

theorem mem_binds_forest {b : Bind} (hb : b ∈ (Kid.forest d.binds).labels) :
    b ∈ (d.forest r root).labels.filterMap NodeKind.bind? := by
  rw [List.mem_filterMap]
  refine ⟨.bind b, ?_, rfl⟩
  simp [Drawing.forest, tree, leaf, hb]

/-- The switches of a form are among the controls that its content has given. -/
theorem switch_part_forest {c : Control} {below : Forest NodeKind}
    (hpart : (.control c, below) ∈ (d.forest r root).parts) (hc : c.kind = .switch) :
    (.control c, below) ∈ d.controls.parts := by
  rw [Drawing.forest, Forest.parts_append, Forest.parts_append, List.mem_append, List.mem_append]
    at hpart
  rcases hpart with hpart | hpart | hpart
  · have hmem := (Forest.mem_labels_of_mem_parts hpart).1
    simp [tree, leaf] at hmem
  · exact hpart
  · rw [leaf, Forest.parts_tree] at hpart
    cases List.mem_singleton.1 hpart
    cases hc

end Drawing

/-- Every switch of a form, original or copied, belongs to a block: it holds two or more cases, of
which the first is selected; one choice names these cases and offers the types that the declared
type leaves to choose from, and one trigger confirms it.  No name may look like a path. -/
theorem switches_stand_in_blocks (s : Schema) (settings : Settings) (hs : s.Slashless) {l : Layout}
    (hl : l.Standard) {time : String} {r : Request} {form : Form}
    (h : (ofSchema s settings (some l)).generate time r = .ok form) {n : NodeId}
    (hn : n ∈ form.tree.walk) {c : Control} (hkind : form.tree.kind n = .control c)
    (hc : c.kind = .switch) :
    ∃ B, form.HasBlock (ofSchema s settings (some l)) n B := by
  obtain ⟨root, f, -, hshows, -, hnodes, hnamespaces, -⟩ := generate_shows hl rfl h
  let g := ofSchema s settings (some l)
  let named := Synthesis.qualified (s.element root).name Synthesis.initial
  let made := Sketch.filled g root named.1.1 named.1.2 named.2
  let drawn := Sketch.form g root named.1.1 named.1.2 named.2
  let data := some ((r.instanceRoot.map prepareRoot).getD form.skeleton)
  have hnamed : named.2.prefixes.Clean := clean_named (s.element root).name
  have hunmarked : form.tree.unmarked = drawn.1.forest r data := hshows.unmarked_eq.trans hnodes
  -- where the block is, when the content of the form is complete
  obtain ⟨bs, hwhole⟩ := (isWhole_filled (g := g) hs root named.1.1 named.1.2 hnamed).controls
  obtain ⟨below, hpart, hchildren⟩ := hshows.part_of_switch (generate_seated hl h) hn hkind hc
  rw [hunmarked] at hpart
  obtain ⟨B, hB, rfl, hroots⟩ := hwhole.switch_part (switch_part_forest _ _ _ hpart hc) hc
  -- what is made behind it leaves it alone
  have hclosed := Sketch.mints_closed g root named.1.1 named.1.2 named.2
  have hbinds : (made.1.known []).map Bind.core ⊆ form.binds.map Bind.core := by
    apply List.map_subset
    intro b hb
    rw [Form.binds_eq hshows, hunmarked]
    exact mem_binds_forest _ _ _ hb
  have hfits := (hwhole.fits B hB).mono hbinds fun _ _ ht => typeText_mono hclosed.toOnward ht
  have hcontrols : form.controls = made.1.controls.controls ++ [drawn.1.submitControl] := by
    rw [Form.controls_eq hshows, hunmarked, controls_forest]
    rfl
  have hnodup : (made.1.controls.controls.map (·.id)).Nodup := by
    have hids := (nodup_drawn (g := g) root named.1.1 named.1.2 hnamed r data).sublist
      (ids_sublist _)
    rw [controls_forest, List.map_append] at hids
    exact hids.sublist (List.sublist_append_left ..)
  refine ⟨B, hkind, ⟨drawn.2.prefixes, hnamespaces, hfits⟩, hchildren.trans hroots, ?_, ?_⟩
  · rw [hcontrols, List.filter_append, hwhole.filter_choosesAmong hnodup hB]
    rfl
  · rw [hcontrols, List.filter_append, hwhole.filter_dispatched hnodup hB]
    rfl

theorem slashless_extended : extended.Slashless := by
  have hnames (e : ElementId) : '/' ∉ (extended.element e).name.localName.toList := by
    obtain ⟨_ | _ | _ | i⟩ := e
    · decide
    · decide
    · decide
    · exact List.not_mem_nil
  exact ⟨hnames, fun u => List.not_mem_nil⟩

theorem switches_stand_in_blocks_extended :
    ∃ form, (ofSchema extended {} (some .plain)).generate "" { root := "e" } = .ok form ∧
      ∀ n ∈ form.tree.walk, ∀ c, form.tree.kind n = .control c → c.kind = .switch →
        ∃ B, form.HasBlock (ofSchema extended {} (some .plain)) n B := by
  obtain ⟨form, hform⟩ := generate_extended
  exact ⟨form, hform, fun n hn c hkind hc =>
    switches_stand_in_blocks extended {} slashless_extended .plain hform hn hkind hc⟩

/-- A schema with an element that is named like the path of a choice of types. -/
def pathNamed : Schema :=
  let base : TypeId := ⟨Schema.builtinCount⟩
  let child : TypeId := ⟨Schema.builtinCount + 2⟩
  let content : Particle := .sequence [.element .once ⟨1⟩, .element .once ⟨2⟩]
  { target := none
    types := (Schema.empty none).types ++
      #[.complex { name := some ⟨none, "B"⟩, particle := some content },
        .complex
          { name := some ⟨none, "D"⟩, base := some base, derivation := .extension
            particle := some content },
        .complex { name := some ⟨none, "C"⟩ },
        .complex { name := some ⟨none, "E"⟩, base := some child, derivation := .extension }]
    elements := #[{ name := ⟨none, "r"⟩, type := some base },
      { name := ⟨none, "c"⟩, type := some child },
      { name := ⟨none, "c/@xsi:type"⟩, type := some Schema.anyType }]
    uses := #[]
    typeNames := (Schema.empty none).typeNames
    elementNames := Table.empty.put ⟨none, "r"⟩ ⟨0⟩ }

theorem substitutes_pathNamed : Substitutes.ofSchema pathNamed =
    ⟨⟨[(⟨Schema.builtinCount⟩, [⟨Schema.builtinCount + 1⟩]),
      (⟨Schema.builtinCount + 2⟩, [⟨Schema.builtinCount + 3⟩])]⟩⟩ := by
  have htable : pathNamed.namedTypes.foldl (fun table id => Substitutes.ascend pathNamed table []
      (pathNamed.chain (Substitutes.parent pathNamed) id)) Table.empty =
        ⟨[(⟨Schema.builtinCount⟩, [⟨Schema.builtinCount + 1⟩]),
          (⟨Schema.builtinCount + 2⟩, [⟨Schema.builtinCount + 3⟩])]⟩ := by
    decide +kernel
  rw [Substitutes.ofSchema, htable]
  simp [Substitutes.sortByDepth]

/-- Whether two choices name cases of one switch. -/
def twoChoices (f : Forest NodeKind) : Bool :=
  f.parts.any fun p => p.1.isSwitch &&
    decide (2 ≤ (f.controls.filter
      (·.choosesAmong (p.2.roots.filterMap NodeKind.control?))).length)

/-- Two choices name a control in one switch, if a name may look like a path. -/
theorem twoChoices_pathNamed :
    ∃ form, (ofSchema pathNamed {} (some .plain)).generate "" { root := "r" } = .ok form ∧
      ∃ n ∈ form.tree.walk, (form.tree.kind n).isSwitch = true ∧
        2 ≤ (form.controls.filter
          (·.choosesAmong ((form.tree.children n).filterMap form.tree.control?))).length := by
  have hroot : pathNamed.findElement (QName.of pathNamed.target "r") = some ⟨0⟩ := by
    simp [pathNamed, Schema.findElement, QName.of]
  obtain ⟨form, hform⟩ := generate_isOk (ofSchema pathNamed {} (some .plain)) ""
    (r := { root := "r" }) hroot rfl
  obtain ⟨-, f, -, hshows, -⟩ := generate_shows .plain rfl hform
  have hsketched : ((ofSchema pathNamed {} (some .plain)).sketched "" { root := "r" }).toOption.any
      (fun s => twoChoices s.nodes) = true := by
    rw [ofSchema, substitutes_pathNamed]
    decide +kernel
  rw [← generate_substance (g := ofSchema pathNamed {} (some .plain)) .plain rfl, hform]
    at hsketched
  have htwo : twoChoices form.tree.unmarked = true := hsketched
  obtain ⟨⟨k, cases⟩, hpart, htwo⟩ := List.any_eq_true.1 htwo
  rw [Bool.and_eq_true, decide_eq_true_eq] at htwo
  obtain ⟨hswitch, htwo⟩ := htwo
  obtain ⟨c, rfl, hc⟩ : ∃ c, k = .control c ∧ c.kind = .switch := by
    cases k with
    | control c => exact ⟨c, rfl, by simpa [NodeKind.isSwitch] using hswitch⟩
    | _ => cases hswitch
  rw [hshows.unmarked_eq] at hpart
  obtain ⟨n, below, hat, rfl⟩ := Grove.at?_of_mem_parts hshows.nodup hpart
  have hchildren : (form.tree.children n).filterMap form.tree.control? =
      (erase below).roots.filterMap NodeKind.control? := by
    rw [← hshows.children_switch (generate_seated .plain hform) hat hc, List.filterMap_map]
    rfl
  have hkind := (Tree.links_at? hshows.links hat).1
  refine ⟨form, hform, n, hshows.walk ▸ (Grove.mem_of_at? hat).1, hkind.symm ▸ hswitch, ?_⟩
  rw [Form.controls_eq hshows, hchildren]
  exact htwo

end Generator

end SchemaForms
