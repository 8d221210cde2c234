import SchemaForms.Proofs.Form.Linked

/-!
The identifiers of a form are distinct: each of them has been given out once, and is carried by one
node at most.
-/

namespace SchemaForms

open Forest (tree leaf)
open Identifiers (identifier endings Before Rises)

namespace Identifiers

/-- Between two states of the counters identifiers have been given out, none of them twice. -/
structure Gives (a b : Identifiers) (xs : List String) : Prop where
  before : Before a b
  count : ∀ x, Rises a b x 0 (xs.count x)

theorem Gives.nil (a : Identifiers) : Gives a a [] := ⟨.refl a, fun _ => .of_le (Nat.le_refl _)⟩

theorem Gives.trans {a b c : Identifiers} {xs ys : List String} (h : Gives a b xs)
    (h' : Gives b c ys) : Gives a c (xs ++ ys) := by
  refine ⟨h.before.trans h'.before, fun x => ?_⟩
  have hys := (h'.count x).add (xs.count x)
  rw [Nat.zero_add, Nat.add_comm, ← List.count_append] at hys
  exact (h.count x).trans hys h.before h'.before

theorem gives_allocate (ids : Identifiers) (name : String) :
    Gives ids (ids.allocate name).2 [(ids.allocate name).1] := by
  have h := Synthesis.mints_allocate { Synthesis.initial with ids := ids } name
  exact ⟨h.before, h.count⟩

end Identifiers

open Identifiers (Gives gives_allocate)

/-! Copies are made with identifiers that have been given out for them. -/

section Copies

theorem Choice.gives_renumber (c : Choice) (ids : Identifiers) :
    Gives ids (c.renumber ids).2 (c.renumber ids).1.identifiers := by
  obtain ⟨id, label, value, toggle⟩ := c
  cases toggle with
  | none => exact gives_allocate ids "item"
  | some t =>
    exact (gives_allocate ids "item").trans ((gives_allocate _ "action").trans
      (gives_allocate _ "toggle"))

theorem gives_renumberChoices (cs : List Choice) (ids : Identifiers) :
    Gives ids (renumberChoices cs ids).2
      ((renumberChoices cs ids).1.flatMap Choice.identifiers) := by
  induction cs generalizing ids with
  | nil => exact .nil ids
  | cons c cs ih => exact (c.gives_renumber ids).trans (ih _)

theorem Action.gives_renumber (a : Action) (ids : Identifiers) :
    Gives ids (a.renumber ids).2 (a.renumber ids).1.identifiers := by
  cases a with
  | insert => exact gives_allocate ids "insert"
  | delete => exact gives_allocate ids "delete"
  | dispatch => exact (gives_allocate ids "action").trans (gives_allocate _ "dispatch")

theorem ControlKind.gives_renumber (k : ControlKind) (ids : Identifiers) :
    Gives ids (k.renumber ids).2
      ((k.renumber ids).1.choices.flatMap Choice.identifiers ++
        (k.renumber ids).1.actionIdentifiers) := by
  cases k with
  | selectOne cs => exact (gives_renumberChoices cs ids).trans (.nil _)
  | selectMany cs => exact (gives_renumberChoices cs ids).trans (.nil _)
  | trigger action =>
    cases action with
    | none => exact .nil ids
    | some a => exact a.gives_renumber ids
  | _ => exact .nil ids

theorem Control.gives_renumber (c : Control) (ids : Identifiers) :
    Gives ids (c.renumber ids).2 (c.renumber ids).1.identifiers :=
  (gives_allocate ids c.kind.elementName).trans (c.kind.gives_renumber _)

theorem NodeKind.identifiers_redirect (k : NodeKind) (table : Table String String) :
    (k.redirect table).identifiers = k.identifiers := by
  have hchoice (c : Choice) : (c.redirect table).identifiers = c.identifiers := by
    obtain ⟨id, label, value, toggle⟩ := c
    cases toggle <;> rfl
  have hchoices (cs : List Choice) :
      (cs.map (Choice.redirect table)).flatMap Choice.identifiers =
        cs.flatMap Choice.identifiers := by
    rw [List.flatMap_map]
    exact congrArg (cs.flatMap ·) (funext hchoice)
  cases k with
  | control c =>
    obtain ⟨id, kind⟩ := c
    cases kind with
    | selectOne cs => exact congrArg (fun ids => id :: ids ++ []) (hchoices cs)
    | selectMany cs => exact congrArg (fun ids => id :: ids ++ []) (hchoices cs)
    | trigger action =>
      cases action with
      | none => rfl
      | some a => cases a <;> rfl
    | _ => rfl
  | _ => rfl

/-- All identifiers that the nodes of some trees carry. -/
def Forest.identifiers (f : Forest NodeKind) : List String := f.labels.flatMap NodeKind.identifiers

theorem NodeKind.gives_copyOne {k : NodeKind} (hk : k.Duplicable) (r : Renaming) :
    Gives r.ids (copyOne k r).2.ids (copyOne k r).1.identifiers := by
  cases k with
  | markup => exact .nil r.ids
  | bind b => exact gives_allocate r.ids "bind"
  | control c => exact c.gives_renumber r.ids
  | _ => exact hk.elim

theorem Forest.gives_copyAll {f : Forest NodeKind} (hf : f.Duplicable) (r : Renaming) :
    Gives r.ids (f.copyAll r).2.ids (f.copyAll r).1.identifiers := by
  induction f generalizing r with
  | nil => exact .nil r.ids
  | cons k below after ihb iha =>
    simp only [Duplicable, labels_cons, List.mem_cons, List.mem_append] at hf
    have hone := NodeKind.gives_copyOne (hf k (.inl rfl)) r
    have hbelow := ihb (fun k hk => hf k (.inr (.inl hk))) (copyOne k r).2
    have hafter := iha (fun k hk => hf k (.inr (.inr hk))) (below.copyAll (copyOne k r).2).2
    have hall := hone.trans (hbelow.trans hafter)
    simp only [identifiers, copyAll, labels_cons, List.flatMap_cons, List.flatMap_append]
    exact hall

theorem Forest.identifiers_copy (f : Forest NodeKind) (ids : Identifiers) :
    (f.copy ids).1.identifiers = (f.copyAll ⟨ids, .empty⟩).1.identifiers := by
  rw [copy, identifiers, labels_map, List.flatMap_map]
  exact congrArg (List.flatMap · _) (funext fun k => k.identifiers_redirect _)

theorem Forest.gives_copy {f : Forest NodeKind} (hf : f.Duplicable) (ids : Identifiers) :
    Gives ids (f.copy ids).2 (f.copy ids).1.identifiers := by
  rw [identifiers_copy]
  exact gives_copyAll hf ⟨ids, .empty⟩

end Copies

/-! Counting. -/

/-- All identifiers that the binds and the controls of a draft carry. -/
def Draft.identifiers (d : Draft) : List String :=
  (Kid.forest d.kids).labels.map (·.id) ++ d.controls.identifiers

@[simp] theorem Forest.identifiers_append (f f' : Forest NodeKind) :
    (f ++ f').identifiers = f.identifiers ++ f'.identifiers := by
  simp [identifiers]

@[simp] theorem Forest.identifiers_tree (k : NodeKind) (f : Forest NodeKind) :
    (tree k f).identifiers = k.identifiers ++ f.identifiers := by
  simp [identifiers, tree]

@[simp] theorem Forest.identifiers_nil : (Forest.nil : Forest NodeKind).identifiers = [] := rfl

theorem Control.IsBox.identifiers_eq {c : Control} (h : c.IsBox) : c.identifiers = [c.id] := by
  rcases h with h | ⟨selected, h⟩
  · simp [Control.identifiers, h, ControlKind.choices, ControlKind.actionIdentifiers]
  · simp [Control.identifiers, h, ControlKind.choices, ControlKind.actionIdentifiers]

theorem count_repeatForest (x id : String) (bind : Option String) (before after delete : String)
    (inner : Forest NodeKind) :
    (repeatForest id bind before after delete inner).identifiers.count x =
      (repeatIds id before after delete).count x + inner.identifiers.count x := by
  simp only [repeatForest, Forest.identifiers_append, Forest.identifiers_tree, List.count_append]
  simp [Forest.identifiers, repeatTriggers, Generator.repeatTrigger, repeatRegion, repeatIds,
    endings, NodeKind.identifiers, Control.identifiers, ControlKind.choices,
    ControlKind.actionIdentifiers, Action.identifiers, List.count_cons]
  omega

theorem count_switchForest {g : Generator} {binds : List Bind} {prefixes : PrefixTable}
    {declared : TypeId} {select trigger switch : Control} {cases : List Control}
    (h : Chooses g binds prefixes declared select trigger switch cases) (x : String)
    (inner : Forest NodeKind) :
    (switchForest select trigger switch inner).identifiers.count x =
      (select.identifiers ++ (trigger.identifiers ++ [switch.id])).count x +
        inner.identifiers.count x := by
  have hswitch : switch.identifiers = [switch.id] := by
    simp [Control.identifiers, h.switches, ControlKind.choices, ControlKind.actionIdentifiers]
  simp only [switchForest, leaf, Forest.identifiers_append, Forest.identifiers_tree,
    NodeKind.identifiers, hswitch, Forest.identifiers_nil, List.append_nil, List.count_append]
  omega

/-- How often an identifier is there: in a draft, or given out and not used yet. -/
def Draft.tally (d : Draft) (P : List String) (x : String) : Nat :=
  d.identifiers.count x + P.count x

theorem Draft.tally_eq (d : Draft) (P : List String) (x : String) :
    d.tally P x = ((Kid.forest d.kids).labels.map (·.id)).count x +
      d.controls.identifiers.count x + P.count x := by
  rw [tally, identifiers, List.count_append]

/-- Every identifier that a step uses has been given out for it. -/
theorem Grows.rises {g : Generator} {K : List Bind} {d d' : Draft} {s s' : Synthesis}
    {P P' : List String} (h : Grows g K d s P d' s' P') (x : String) :
    ∀ A : Forest NodeKind, Linked (A ++ d.controls) (d.knownIds K) d.kids d.copies →
      Rises s.ids s'.ids x (d.tally P x) (d'.tally P' x) := by
  -- What happens inside a section leaves what is beside it alone.
  have hbeside {a b : Identifiers} {n n' m m' : Nat} (k : Nat) (h : Rises a b x n n')
      (hm : m = n + k) (hm' : m' = n' + k) : Rises a b x m m' := hm ▸ hm' ▸ h.add k
  induction h with
  | @mint _ d _ _ P xs h =>
    intro A _
    apply hbeside (d.tally P x) (h.count x) (Nat.zero_add _).symm
    rw [Draft.tally, Draft.tally, List.count_append]
    omega
  | perm h =>
    intro A _
    rw [Draft.tally, Draft.tally, h.count_eq]
    exact .of_le (Nat.le_refl _)
  | trans h h' ih ih' =>
    intro A hlinked
    exact (ih A hlinked).trans (ih' A (h.linked A hlinked)) h.onward.before h'.onward.before
  | field c =>
    intro A _
    apply Rises.of_le
    simp only [Draft.tally_eq, leaf, Forest.identifiers_append, Forest.identifiers_tree,
      Forest.identifiers_nil, NodeKind.identifiers, List.append_nil, List.count_append]
    omega
  | @box _ d _ _ d' _ _ c hc _ _ _ ih =>
    intro A hlinked
    apply hbeside (d.controls.identifiers.count x + [c.id].count x) (ih _ hlinked.opened)
    · simp only [Draft.tally_eq, Forest.identifiers_nil, List.count_nil, List.count_cons]
      omega
    · simp only [Draft.tally_eq, Forest.identifiers_append, Forest.identifiers_tree,
        NodeKind.identifiers, hc.identifiers_eq, List.count_append]
      omega
  | @repeated _ d _ _ d' _ _ bind before after delete n _ _ ih =>
    intro A hlinked
    apply hbeside (d.controls.identifiers.count x +
      (repeatIds (identifier "repeat" n) before after delete).count x) (ih _ hlinked.opened)
    · simp only [Draft.tally_eq, Forest.identifiers_nil, List.count_nil, List.count_append]
      omega
    · simp only [Draft.tally_eq, Forest.identifiers_append, count_repeatForest, List.count_append]
      omega
  | @kid K d _ _ d' _ _ b own above around _ ih =>
    intro A hlinked
    apply hbeside (((Kid.forest d.kids).labels.map (·.id)).count x + [b.id].count x)
      (ih A (hlinked.inside b own above around))
    · simp only [Draft.tally_eq, Kid.forest, Forest.labels_nil, List.map_nil, List.count_nil,
        List.count_cons]
      omega
    · simp only [Draft.tally_eq, Kid.forest_append, Kid.forest, Forest.labels_append,
        Forest.labels_cons, Forest.labels_nil, List.map_append, List.map_cons, List.append_nil,
        List.count_append, List.count_cons, List.count_nil]
      omega
  | @slot _ d _ _ d' _ _ _ ih =>
    intro A hlinked
    apply hbeside (d.controls.identifiers.count x) (ih _ hlinked.opened)
    · simp only [Draft.tally_eq, Forest.identifiers_nil, List.count_nil]
      omega
    · simp only [Draft.tally_eq, forest_settle, Forest.identifiers_append, List.count_append]
      omega
  | @copy K d s P kid k below nodeset _ hfind hsource =>
    intro A hlinked
    have hpart := hlinked.sources kid (List.mem_of_find?_eq_some hfind) _ hsource
    have htitled := hlinked.titled.part hpart
    apply hbeside (d.tally P x) ((Forest.gives_copy htitled.duplicable s.ids).count x) (Nat.zero_add _).symm
    simp only [Draft.tally_eq, ids_forest_of_core (share_core nodeset d.kids),
      Forest.identifiers_append, List.count_append]
    omega
  | @switch _ d _ P d' _ P' _ select trigger switch _ hchooses _ _ _ _ _ ih =>
    intro A hlinked
    apply hbeside (d.controls.identifiers.count x +
      (select.identifiers ++ (trigger.identifiers ++ [switch.id])).count x) (ih _ hlinked.opened)
    · simp only [Draft.tally_eq, Forest.identifiers_nil, List.count_nil, List.count_append,
        List.count_cons]
      omega
    · simp only [Draft.tally_eq, Forest.identifiers_append, count_switchForest hchooses,
        List.count_append]
      omega
  | @guard _ d _ P kids hcore =>
    intro A _
    apply Rises.of_le
    simp only [Draft.tally_eq, ids_forest_of_core hcore]
    omega

/-! The identifiers of a form. -/

/-- Markup carries no identifiers, so those of a form are those of its other nodes. -/
theorem Tree.Shows.identifiers_eq {t : Tree} {f : Grove} (h : t.Shows f) :
    t.identifiers = (Grove.erase f).identifiers := by
  have hlabels (f : Grove) : f.labels.flatMap (fun a => a.2.identifiers) =
      (Grove.erase f).identifiers := by
    induction f with
    | nil => rfl
    | cons a below after ihb iha =>
      simp only [Forest.labels_cons, List.flatMap_cons, List.flatMap_append, ihb, iha, Grove.erase]
      split
      · next hmarkup =>
        obtain ⟨x, k⟩ := a
        cases k with
        | markup m => exact (Forest.identifiers_append _ _).symm
        | _ => cases hmarkup
      · simp [Forest.identifiers]
  rw [Tree.identifiers, h.walk, ← hlabels, Grove.ids, List.flatMap_map]
  apply List.flatMap_congr
  intro a ha
  rw [kind_of_mem_labels h.links ha]

/-- An empty draft has no links. -/
theorem linked_nil : Linked (.nil ++ ({} : Draft).controls) (Draft.knownIds [] {}) [] [] where
  titled := fun _ hk => nomatch hk
  closed := fun _ hk => nomatch hk
  sources := fun _ hkid => nomatch hkid
  copies := fun _ hp => nomatch hp

theorem Drawing.count_forest (d : Drawing) (r : Request) (root : Option Xml.Element) (x : String) :
    (d.forest r root).identifiers.count x =
      [d.model, d.data].count x +
        (((Kid.forest d.binds).labels.map (·.id)).count x + d.controls.identifiers.count x) +
        [d.submission, d.submit].count x := by
  have hbinds (f : Forest Bind) : (f.map NodeKind.bind).identifiers = f.labels.map (·.id) := by
    rw [Forest.identifiers, Forest.labels_map, List.flatMap_map, List.map_eq_flatMap]
    rfl
  simp only [forest, leaf, Forest.identifiers_append, Forest.identifiers_tree,
    Forest.identifiers_nil, hbinds, List.count_append]
  simp only [NodeKind.identifiers, NodeKind.id?, Option.toList_some, submitControl,
    Control.identifiers, ControlKind.choices, ControlKind.actionIdentifiers, List.flatMap_nil,
    List.append_nil, List.count_cons, List.count_nil]
  omega

/-- The prefixes at the beginning of a form. -/
theorem clean_named (name : QName) :
    (Synthesis.qualified name Synthesis.initial).2.prefixes.Clean :=
  (Leading.qualified name Synthesis.initial).clean PrefixTable.clean_empty

namespace Generator

variable {g : Generator}

theorem nodup_drawn (root : ElementId) (nsPrefix : Option String) (rootName : String)
    {s : Synthesis} (hs : s.prefixes.Clean) (r : Request) (data : Option Xml.Element) :
    ((Sketch.form g root nsPrefix rootName s).1.forest r data).identifiers.Nodup := by
  rw [List.nodup_iff_count_le_one]
  intro x
  let drawn := Sketch.form g root nsPrefix rootName s
  let made := Sketch.filled g root nsPrefix rootName s
  have hopened := Sketch.mints_opened g root nsPrefix rootName s
  have hclosed := Sketch.mints_closed g root nsPrefix rootName s
  have hgrows := Sketch.grows_filled g root nsPrefix rootName s hs []
  have hrises := hgrows.rises x .nil linked_nil
  let n := [drawn.1.model, drawn.1.data].count x
  let m := [drawn.1.submission, drawn.1.submit].count x
  have hbefore : Rises s.ids (Sketch.opened s).ids x 0 n := hopened.count x
  have hcontent : Rises (Sketch.opened s).ids made.2.ids x n (made.1.tally [] x + n) := by
    have h := hrises.add n
    rwa [show ({} : Draft).tally [] x = 0 from rfl, Nat.zero_add] at h
  have hbehind : Rises made.2.ids drawn.2.ids x (made.1.tally [] x + n)
      (m + (made.1.tally [] x + n)) := by
    have h := (hclosed.count x).add (made.1.tally [] x + n)
    rwa [Nat.zero_add] at h
  have hall := (hbefore.trans hcontent hopened.before hgrows.onward.before).trans hbehind
    (hopened.before.trans hgrows.onward.before) hclosed.before
  have hle := hall.le
  rw [Draft.tally_eq, List.count_nil] at hle
  rw [Drawing.count_forest]
  change n + (((Kid.forest made.1.kids).labels.map (·.id)).count x +
    made.1.controls.identifiers.count x) + m ≤ 1
  omega

/-- No identifier is there twice in a form, whatever the schema, the settings and the request, and
however many controls have been copied. -/
theorem identifiers_nodup (s : Schema) (settings : Settings) {l : Layout} (hl : l.Standard)
    {time : String} {r : Request} {form : Form}
    (h : (ofSchema s settings (some l)).generate time r = .ok form) :
    form.tree.identifiers.Nodup := by
  obtain ⟨root, f, -, hshows, -, hnodes, -⟩ := generate_shows hl rfl h
  rw [hshows.identifiers_eq, hnodes]
  exact nodup_drawn root _ _ (clean_named _) r _

/-- A form is made for every global element when no instance is supplied. -/
theorem generate_isOk (g : Generator) (time : String) {r : Request} {root : ElementId}
    (hroot : g.schema.findElement (QName.of g.schema.target r.root) = some root)
    (hinstance : r.instanceRoot = none) : ∃ form, g.generate time r = .ok form := by
  unfold generate
  rw [hroot]
  dsimp only
  generalize g.build r root = build
  rw [hinstance]
  exact ⟨_, rfl⟩

/-- A schema with an element for whose type an extension can stand in. -/
def extended : Schema :=
  let base : TypeId := ⟨Schema.builtinCount⟩
  let own : Particle := .element .once ⟨1⟩
  { target := none
    types := (Schema.empty none).types ++
      #[.complex { name := some ⟨none, "T"⟩, particle := some (.sequence [own]) },
        .complex
          { name := some ⟨none, "D"⟩, base := some base, derivation := .extension
            particle := some (.sequence [own, .element .once ⟨2⟩]) }]
    elements := #[{ name := ⟨none, "e"⟩, type := some base },
      { name := ⟨none, "x"⟩, type := some Schema.anyType },
      { name := ⟨none, "y"⟩, type := some Schema.anyType }]
    uses := #[]
    typeNames := (Schema.empty none).typeNames
    elementNames := Table.empty.put ⟨none, "e"⟩ ⟨0⟩ }

theorem generate_extended :
    ∃ form, (ofSchema extended {} (some .plain)).generate "" { root := "e" } = .ok form := by
  have hroot : extended.findElement (QName.of extended.target "e") = some ⟨0⟩ := by
    simp [extended, Schema.findElement, QName.of]
  exact generate_isOk (ofSchema extended {} (some .plain)) "" hroot rfl

theorem identifiers_nodup_extended :
    ∃ form, (ofSchema extended {} (some .plain)).generate "" { root := "e" } = .ok form ∧
      form.tree.identifiers.Nodup := by
  obtain ⟨form, hform⟩ := generate_extended
  exact ⟨form, hform, identifiers_nodup extended {} .plain hform⟩

end Generator

end SchemaForms
