import SchemaForms.Proofs.Form.Duplicates
import SchemaForms.Proofs.Form.Growing

/-!
Lockstep: a sketch does the same however many repeats there have been before.  Two runs of it that
start with different numbers of repeats take the same decisions, and what they draw differs in the
identifiers of repeats, of their triggers and of what refers to them.
-/

namespace SchemaForms

open Synthesis
open Forest (leaves)
open Xml (Element)

/-- The names whose identifiers go to repeats and to what their triggers do. -/
def repeatNames : List String := ["repeat", "insert", "delete"]

/-! What copying takes. -/

namespace Identifiers

/-- The counters when identifiers of some names have been given out. -/
def allocateAll (ids : Identifiers) (names : List String) : Identifiers :=
  names.foldl (fun ids name => (ids.allocate name).2) ids

theorem allocateAll_append (ids : Identifiers) (names names' : List String) :
    ids.allocateAll (names ++ names') = (ids.allocateAll names).allocateAll names' :=
  List.foldl_append

/-- Counters agree on all names but those of repeats. -/
def Alike (ids ids' : Identifiers) : Prop := ∀ name, name ∉ repeatNames → ids.count name = ids'.count name

variable {ids ids' : Identifiers}

theorem Alike.allocate (h : ids.Alike ids') (name : String) :
    (ids.allocate name).2.Alike (ids'.allocate name).2 := by
  intro other hother
  rw [count_allocate, count_allocate]
  split
  · next heq => rw [h name (heq ▸ hother)]
  · exact h other hother

theorem Alike.allocateAll (h : ids.Alike ids') (names : List String) :
    (ids.allocateAll names).Alike (ids'.allocateAll names) := by
  induction names generalizing ids ids' with
  | nil => exact h
  | cons name names ih => exact ih (h.allocate name)

/-- An identifier of a repeat makes no difference. -/
theorem Alike.hide (h : ids.Alike ids') {name : String} (hname : name ∈ repeatNames) :
    (ids.allocate name).2.Alike ids' := by
  intro other hother
  rw [count_allocate, if_neg, h other hother]
  rintro rfl
  exact hother hname

end Identifiers

def Choice.takes (c : Choice) : List String :=
  "item" :: c.toggle.elim [] fun _ => ["action", "toggle"]

def Action.takes : Action → List String
  | .insert .. => ["insert"]
  | .delete .. => ["delete"]
  | .dispatch .. => ["action", "dispatch"]

def ControlKind.takes : ControlKind → List String
  | .selectOne cs => cs.flatMap Choice.takes
  | .selectMany cs => cs.flatMap Choice.takes
  | .trigger (some a) => a.takes
  | _ => []

/-- The names of which the copy of a node takes identifiers. -/
def NodeKind.takes : NodeKind → List String
  | .bind _ => ["bind"]
  | .control c => c.kind.elementName :: c.kind.takes
  | _ => []

theorem Choice.ids_renumber (c : Choice) (ids : Identifiers) :
    (c.renumber ids).2 = ids.allocateAll c.takes := by
  obtain ⟨id, label, value, toggle⟩ := c
  cases toggle <;> rfl

theorem ids_renumberChoices (cs : List Choice) (ids : Identifiers) :
    (renumberChoices cs ids).2 = ids.allocateAll (cs.flatMap Choice.takes) := by
  induction cs generalizing ids with
  | nil => rfl
  | cons c cs ih =>
    rw [List.flatMap_cons, Identifiers.allocateAll_append, ← c.ids_renumber]
    exact ih _

theorem ControlKind.ids_renumber (k : ControlKind) (ids : Identifiers) :
    (k.renumber ids).2 = ids.allocateAll k.takes := by
  cases k with
  | selectOne cs => exact ids_renumberChoices cs ids
  | selectMany cs => exact ids_renumberChoices cs ids
  | trigger action =>
    cases action with
    | none => rfl
    | some a => cases a <;> rfl
  | _ => rfl

theorem ids_copyOne (k : NodeKind) (r : Renaming) : (copyOne k r).2.ids = r.ids.allocateAll k.takes := by
  cases k with
  | control c => exact c.kind.ids_renumber _
  | _ => rfl

namespace Forest

theorem ids_copyAll (f : Forest NodeKind) (r : Renaming) :
    (f.copyAll r).2.ids = r.ids.allocateAll (f.labels.flatMap NodeKind.takes) := by
  induction f generalizing r with
  | nil => rfl
  | cons k below after ihb iha =>
    simp only [copyAll, labels_cons, List.flatMap_cons, List.flatMap_append, iha, ihb, ids_copyOne,
      Identifiers.allocateAll_append]

theorem ids_copy (f : Forest NodeKind) (ids : Identifiers) :
    (f.copy ids).2 = ids.allocateAll (f.labels.flatMap NodeKind.takes) := f.ids_copyAll _

end Forest

/-! Nodes, binds and drafts without the identifiers of nodes. -/

/-- What a node says when all names are the same. -/
def NodeKind.nameless (k : NodeKind) : NodeKind := k.blank fun _ => ""

theorem NodeKind.takes_nameless (k : NodeKind) : k.nameless.takes = k.takes := by
  have hchoices (cs : List Choice) :
      (cs.map (·.blank fun _ => "")).flatMap Choice.takes = cs.flatMap Choice.takes := by
    rw [List.flatMap_map]
    refine congrArg (cs.flatMap ·) (funext fun c => ?_)
    obtain ⟨id, label, value, toggle⟩ := c
    cases toggle <;> rfl
  cases k with
  | control c =>
    obtain ⟨id, kind⟩ := c
    cases kind with
    | selectOne cs => exact congrArg (List.cons "select1") (hchoices cs)
    | selectMany cs => exact congrArg (List.cons "select") (hchoices cs)
    | trigger action =>
      cases action with
      | none => rfl
      | some a => cases a <;> rfl
    | _ => rfl
  | _ => rfl

theorem NodeKind.nameless_copyOne (k : NodeKind) (r : Renaming) :
    (copyOne k r).1.nameless = k.nameless := k.blank_copyOne _ r

theorem NodeKind.nameless_redirect (k : NodeKind) (table : Table String String) :
    (k.redirect table).nameless = k.nameless := k.blank_redirect _ table

theorem NodeKind.isBoundTo_nameless (id : String) (k : NodeKind) :
    k.nameless.isBoundTo id = k.isBoundTo id := by
  cases k <;> rfl

namespace Forest

/-- Trees without the identifiers of their nodes. -/
def nameless (f : Forest NodeKind) : Forest NodeKind := f.map NodeKind.nameless

theorem nameless_copy (f : Forest NodeKind) (ids : Identifiers) :
    (f.copy ids).1.nameless = f.nameless :=
  map_copy NodeKind.nameless_copyOne NodeKind.nameless_redirect f ids

theorem map_leaves {α β : Type} (f : α → β) (as : List α) : (leaves as).map f = leaves (as.map f) := by
  induction as with
  | nil => rfl
  | cons a as ih => exact congrArg (Forest.cons (f a) .nil) ih

theorem nameless_leaves (ks : List NodeKind) :
    (leaves ks).nameless = leaves (ks.map NodeKind.nameless) :=
  map_leaves ..

theorem nameless_append (f g : Forest NodeKind) : (f ++ g).nameless = f.nameless ++ g.nameless :=
  map_append ..

theorem takes_nameless (f : Forest NodeKind) :
    f.nameless.labels.flatMap NodeKind.takes = f.labels.flatMap NodeKind.takes := by
  rw [nameless, labels_map, List.flatMap_map]
  exact congrArg (f.labels.flatMap ·) (funext NodeKind.takes_nameless)

end Forest

namespace Kid

def nameless (kid : Kid) : Kid :=
  { kid with source := kid.source.map fun y => (y.1.nameless, y.2.nameless) }

@[simp] theorem bind_nameless (kid : Kid) : kid.nameless.bind = kid.bind := rfl

@[simp] theorem shared_nameless (kid : Kid) : kid.nameless.shared = kid.shared := rfl

/-- The binds of some kids are what they are without the identifiers of controls. -/
theorem lastElement_nameless (kids : List Kid) :
    lastElement (kids.map nameless) = lastElement kids := by
  simp only [lastElement, ← List.map_reverse, List.map_map]
  rfl

theorem forest_nameless (kids : List Kid) : forest (kids.map nameless) = forest kids := by
  induction kids with
  | nil => rfl
  | cons kid kids ih => exact congrArg (Forest.cons kid.bind kid.below) ih

end Kid

/-- Two states that differ in repeats alone, as far as a sketch is concerned. -/
structure Synthesis.Alike (s s' : Synthesis) : Prop where
  ids : s.ids.Alike s'.ids
  prefixes : s.prefixes = s'.prefixes
  expanding : s.expanding = s'.expanding

theorem Synthesis.Alike.refl (s : Synthesis) : s.Alike s := ⟨fun _ _ => rfl, rfl, rfl⟩

/-- Two drafts that differ in the identifiers of controls alone. -/
structure Draft.Alike (d d' : Draft) : Prop where
  own : d.own = d'.own
  above : d.above = d'.above
  around : d.around = d'.around
  kids : d.kids.map Kid.nameless = d'.kids.map Kid.nameless
  controls : d.controls.nameless = d'.controls.nameless

theorem Draft.Alike.refl (d : Draft) : d.Alike d := ⟨rfl, rfl, rfl, rfl, rfl⟩

section Kids

variable {d d' : Draft} (h : d.Alike d')

include h

theorem Draft.Alike.lastElement : Kid.lastElement d.kids = Kid.lastElement d'.kids := by
  rw [← Kid.lastElement_nameless, h.kids, Kid.lastElement_nameless]

theorem Draft.Alike.governing : d.governing = d'.governing := by
  rw [Draft.governing, Draft.governing, h.lastElement, h.above]

theorem Draft.Alike.emptied : Draft.Alike { d with controls := .nil } { d' with controls := .nil } :=
  { h with controls := rfl }

end Kids

/-! Steps that are made alike. -/

/-- A step does the same in states that are alike. -/
def Impartial {α : Type} (f : Synth α) : Prop :=
  ∀ ⦃s s' : Synthesis⦄, s.Alike s' → (f s).1 = (f s').1 ∧ (f s).2.Alike (f s').2

/-- A step gives out identifiers of repeats and reports, and does nothing else. -/
def Hidden {α : Type} (f : Synth α) : Prop := ∀ ⦃s s'⦄, s.Alike s' → (f s).2.Alike s'

theorem Synthesis.Alike.symm {s s' : Synthesis} (h : s.Alike s') : s'.Alike s :=
  ⟨fun name hname => (h.ids name hname).symm, h.prefixes.symm, h.expanding.symm⟩

namespace Impartial

variable {α β : Type}

theorem pure (a : α) : Impartial (pure a : Synth α) := fun _ _ h => ⟨rfl, h⟩

theorem bind {f : Synth α} {k : α → Synth β} (hf : Impartial f) (hk : ∀ a, Impartial (k a)) :
    Impartial (f >>= k) := by
  intro s s' h
  obtain ⟨hresult, hstate⟩ := hf h
  have hrest := hk (f s).1 hstate
  have hrun : (f >>= k) s' = k (f s).1 (f s').2 := by
    rw [hresult]
    rfl
  rw [hrun]
  exact hrest

theorem allocate {name : String} (hname : name ∉ repeatNames) : Impartial (allocate name) :=
  fun _ _ h => ⟨congrArg (Identifiers.identifier name) (h.ids name hname),
    { h with ids := h.ids.allocate name }⟩

theorem report (a : Anomaly) : Impartial (report a) := fun _ _ h => ⟨rfl, h.ids, h.prefixes, h.expanding⟩

theorem qualified (name : QName) : Impartial (qualified name) := by
  unfold Synthesis.qualified
  cases name.nspace with
  | none => exact .pure _
  | some ns =>
    intro s s' h
    dsimp only
    rw [h.prefixes]
    exact ⟨rfl, h.ids, rfl, h.expanding⟩

theorem enter (e : ElementId) (t : TypeId) : Impartial (enter e t) := by
  intro s s' h
  unfold Synthesis.enter
  rw [h.expanding]
  split
  · exact ⟨rfl, h⟩
  · exact ⟨rfl, h.ids, h.prefixes, rfl⟩

theorem leave : Impartial leave := fun _ _ h => ⟨rfl, h.ids, h.prefixes, congrArg List.tail h.expanding⟩

theorem typeValue (g : Generator) (t : TypeId) : Impartial (g.typeValue t) := by
  unfold Generator.typeValue
  split
  · exact (qualified _).bind fun _ => .pure _
  · exact .pure _

theorem typeConditions (g : Generator) (ts : List TypeId) : Impartial (g.typeConditions ts) := by
  induction ts with
  | nil => exact .pure _
  | cons t ts ih => exact (typeValue g t).bind fun _ => ih.bind fun _ => .pure _

theorem choicesFor (values : List String) : Impartial (Generator.choicesFor values) := by
  induction values with
  | nil => exact .pure _
  | cons v vs ih => exact (allocate (by decide)).bind fun _ => ih.bind fun _ => .pure _

theorem fieldControl (g : Generator) (t : TypeId) (bind : String) :
    Impartial (g.fieldControl t bind) := by
  unfold Generator.fieldControl
  split
  · exact (allocate (by decide)).bind fun _ => .pure _
  · split
    · exact (allocate (by decide)).bind fun _ => (choicesFor _).bind fun _ => .pure _
    · split
      · have hname : (g.valueKind t).elementName ∉ repeatNames := by
          rcases Minting.valueKind_cases g t with ⟨flavour, hkind⟩ | hkind | ⟨low, high, hkind⟩
          · rw [hkind]
            exact (by decide : "input" ∉ repeatNames)
          · rw [hkind]
            exact (by decide : "upload" ∉ repeatNames)
          · rw [hkind]
            exact (by decide : "range" ∉ repeatNames)
        exact (allocate hname).bind fun _ => .pure _
      · exact (allocate (by decide)).bind fun _ => (choicesFor _).bind fun _ => .pure _

theorem typeChoices (g : Generator) (ts : List TypeId) : Impartial (g.typeChoices ts) := by
  induction ts with
  | nil => exact .pure _
  | cons t ts ih =>
    exact (allocate (by decide)).bind fun _ => (allocate (by decide)).bind fun _ =>
      (allocate (by decide)).bind fun _ => (allocate (by decide)).bind fun _ =>
        (typeValue g t).bind fun _ => ih.bind fun _ => .pure _

theorem promptChoice (g : Generator) (label : String) (count : Nat) :
    Impartial (g.promptChoice label count) := by
  unfold Generator.promptChoice
  split
  · exact (allocate (by decide)).bind fun _ => .pure _
  · exact .pure _

end Impartial

namespace Hidden

variable {α β : Type}

theorem pure (a : α) : Hidden (pure a : Synth α) := fun _ _ h => h

theorem bind {f : Synth α} {k : α → Synth β} (hf : Hidden f) (hk : ∀ a, Hidden (k a)) :
    Hidden (f >>= k) := fun s _ h => hk (f s).1 (hf h)

theorem allocate {name : String} (hname : name ∈ repeatNames) : Hidden (allocate name) :=
  fun _ _ h => { h with ids := h.ids.hide hname }

theorem reportUngoverned (id : String) (bind : Option String) :
    Hidden (Generator.reportUngoverned id bind) := by
  cases bind with
  | none => exact fun _ _ h => ⟨h.ids, h.prefixes, h.expanding⟩
  | some _ => exact .pure _

theorem repeatActions (id : String) (bind : Option String) :
    Hidden (Generator.repeatActions id bind) :=
  (allocate (by decide)).bind fun _ => (allocate (by decide)).bind fun _ =>
    (allocate (by decide)).bind fun _ => .pure _

end Hidden

/-! Sketches that go in lockstep. -/

/-- What two sketches come to: the same result, and drafts and states that are alike. -/
structure Sketch.Agree {α : Type} (r r' : (α × Draft) × Synthesis) : Prop where
  result : r.1.1 = r'.1.1
  draft : r.1.2.Alike r'.1.2
  state : r.2.Alike r'.2

/-- From drafts and states that are alike, two sketches come to the same. -/
def Lockstep {α : Type} (p p' : Sketch α) : Prop :=
  ∀ ⦃s s' : Synthesis⦄ ⦃d d' : Draft⦄, s.Alike s' → d.Alike d' → Sketch.Agree (p d s) (p' d' s')

namespace Lockstep

variable {α β : Type} {p p' : Sketch α}

theorem pure (a : α) : Lockstep (pure a) (pure a) := fun _ _ _ _ hs hd => ⟨rfl, hd, hs⟩

theorem bind {k k' : α → Sketch β} (hp : Lockstep p p') (hk : ∀ a, Lockstep (k a) (k' a)) :
    Lockstep (p >>= k) (p' >>= k') := by
  intro s s' d d' hs hd
  have h := hp hs hd
  have hrun : (p' >>= k') d' s' = k' (p d s).1.1 (p' d' s').1.2 (p' d' s').2 := by
    rw [h.result]
    rfl
  rw [hrun]
  exact hk (p d s).1.1 h.state h.draft

theorem step {f : Synth α} (hf : Impartial f) : Lockstep (StateT.lift f) (StateT.lift f) :=
  fun _ _ _ _ hs hd => ⟨(hf hs).1, hd, (hf hs).2⟩

/-- After steps that do not matter, whatever their results are. -/
theorem hidden {f f' : Synth α} {k k' : α → Sketch β} {R : α → α → Prop} (hf : Hidden f)
    (hf' : Hidden f') (hR : ∀ s s', R (f s).1 (f' s').1)
    (hk : ∀ a a', R a a' → Lockstep (k a) (k' a')) :
    Lockstep (StateT.lift f >>= k) (StateT.lift f' >>= k') :=
  fun s s' _ _ hs hd => hk (f s).1 (f' s').1 (hR s s') (hf' (hf hs).symm).symm hd

theorem look {k k' : Draft → Sketch β} (hk : ∀ d d', d.Alike d' → Lockstep (k d) (k' d')) :
    Lockstep (get >>= k) (get >>= k') := fun _ _ d d' hs hd => hk d d' hd hs hd

theorem change {f f' : Draft → Draft} (hf : ∀ d d', d.Alike d' → (f d).Alike (f' d')) :
    Lockstep (modify f) (modify f') := fun _ _ d d' hs hd => ⟨rfl, hf d d' hd, hs⟩

theorem leaves {cs cs' : List Control}
    (hcs : (cs.map NodeKind.control).map NodeKind.nameless =
      (cs'.map NodeKind.control).map NodeKind.nameless) :
    Lockstep (Sketch.leaves cs) (Sketch.leaves cs') := by
  refine change fun d d' hd => { hd with controls := ?_ }
  change Forest.nameless (_ ++ _) = Forest.nameless (_ ++ _)
  rw [Forest.nameless_append, Forest.nameless_append, Forest.nameless_leaves, Forest.nameless_leaves,
    hd.controls, hcs]

theorem within {before before' : List Control} {c c' : Control} {inner inner' : Sketch α}
    (hbefore : (before.map NodeKind.control).map NodeKind.nameless =
      (before'.map NodeKind.control).map NodeKind.nameless)
    (hc : (NodeKind.control c).nameless = (NodeKind.control c').nameless)
    (hinner : Lockstep inner inner') :
    Lockstep (Sketch.within before c inner) (Sketch.within before' c' inner') := by
  intro s s' d d' hs hd
  have h := hinner hs hd.emptied
  refine ⟨h.result, { h.draft with controls := ?_ }, h.state⟩
  change Forest.nameless (d.controls ++ (_ ++ _)) = Forest.nameless (d'.controls ++ (_ ++ _))
  simp only [Forest.nameless_append, hd.controls]
  congr 2
  · rw [Forest.nameless_leaves, Forest.nameless_leaves, hbefore]
  · have hbelow := h.draft.controls
    simp only [Forest.nameless, Forest.tree, Forest.map_cons, Forest.map_nil] at hbelow ⊢
    rw [hc, hbelow]

theorem withKid {b : Bind} {nodeset : String} {inner inner' : Sketch α}
    (hinner : Lockstep inner inner') :
    Lockstep (Sketch.withKid b nodeset inner) (Sketch.withKid b nodeset inner') := by
  intro s s' d d' hs hd
  let kid (id : String) : Kid := { bind := { b with id := id, nodeset := nodeset } }
  let inside (d : Draft) (id : String) : Draft :=
    { own := some id
      above := Kid.lastElement (d.kids ++ [kid id])
      around := Draft.governing { d with kids := d.kids ++ [kid id] }
      controls := d.controls
      copies := d.copies }
  obtain ⟨hid, hs₁⟩ := Impartial.allocate (show "bind" ∉ repeatNames by decide) hs
  have hadded {kid kid' : Kid} (hkid : kid.nameless = kid'.nameless) :
      Draft.Alike { d with kids := d.kids ++ [kid] } { d' with kids := d'.kids ++ [kid'] } :=
    { hd with kids := by simp only [List.map_append, List.map_singleton, hd.kids, hkid] }
  have hnew := hadded (congrArg (fun id => (kid id).nameless) hid)
  have hinside : (inside d (allocate "bind" s).1).Alike (inside d' (allocate "bind" s').1) :=
    ⟨congrArg some hid, hnew.lastElement, hnew.governing, rfl, hd.controls⟩
  have h := hinner hs₁ hinside
  have hbelow : Kid.forest (inner (inside d (allocate "bind" s).1) (allocate "bind" s).2).1.2.kids =
      Kid.forest (inner' (inside d' (allocate "bind" s').1) (allocate "bind" s').2).1.2.kids := by
    rw [← Kid.forest_nameless, h.draft.kids, Kid.forest_nameless]
  have hclosed := hadded
    (congrArg₂ (fun id below => Kid.nameless { kid id with below := below }) hid hbelow)
  exact ⟨h.result, { hclosed with controls := h.draft.controls }, h.state⟩

theorem nameless_settle (controls : Forest NodeKind) (kid : Kid) :
    (Sketch.settle controls kid).nameless = Sketch.settle controls.nameless kid.nameless := by
  unfold Sketch.settle
  rw [show kid.nameless.source.isNone = kid.source.isNone from Option.isNone_map]
  split
  · have hfind := Forest.find_map (·.isBoundTo kid.bind.id) NodeKind.nameless controls
    simp only [NodeKind.isBoundTo_nameless] at hfind
    exact congrArg (fun source => { kid with source := source : Kid }) hfind.symm
  · rfl

theorem slot (hp : Lockstep p p') : Lockstep (Sketch.slot p) (Sketch.slot p') := by
  intro s s' d d' hs hd
  have h := hp hs hd.emptied
  refine ⟨h.result, { h.draft with kids := ?_, controls := ?_ }, h.state⟩
  · change List.map _ (List.map (Sketch.settle _) _) = List.map _ (List.map (Sketch.settle _) _)
    have hsettle (c : Forest NodeKind) (kids : List Kid) :
        (kids.map (Sketch.settle c)).map Kid.nameless =
          (kids.map Kid.nameless).map (Sketch.settle c.nameless) := by
      rw [List.map_map, List.map_map]
      exact congrArg (List.map · kids) (funext fun kid => nameless_settle c kid)
    rw [hsettle, hsettle, h.draft.kids, h.draft.controls]
  · change Forest.nameless (_ ++ _) = Forest.nameless (_ ++ _)
    rw [Forest.nameless_append, Forest.nameless_append, hd.controls, h.draft.controls]

theorem nameless_share (nodeset : String) (kids : List Kid) :
    (Sketch.share nodeset kids).map Kid.nameless = Sketch.share nodeset (kids.map Kid.nameless) := by
  induction kids with
  | nil => rfl
  | cons kid kids ih =>
    rw [Sketch.share, List.map_cons, Sketch.share]
    change _ = if kid.bind.nodeset = nodeset then _ else _
    split
    · rfl
    · rw [List.map_cons, ih]

theorem reuse (nodeset : String) : Lockstep (Sketch.reuse nodeset) (Sketch.reuse nodeset) := by
  intro s s' d d' hs hd
  have hfind := congrArg (List.find? (·.bind.nodeset = nodeset)) hd.kids
  rw [List.find?_map, List.find?_map] at hfind
  unfold Sketch.reuse
  cases hkid : d.kids.find? (·.bind.nodeset = nodeset) with
  | none =>
    have hkid' : d'.kids.find? (·.bind.nodeset = nodeset) = none :=
      Option.map_eq_none_iff.1 (hfind.symm.trans (congrArg _ hkid))
    rw [hkid']
    exact ⟨rfl, hd, hs⟩
  | some kid =>
    obtain ⟨kid', hkid', hsame⟩ : ∃ kid', d'.kids.find? (·.bind.nodeset = nodeset) = some kid' ∧
        kid'.nameless = kid.nameless :=
      Option.map_eq_some_iff.1 (hfind.symm.trans (congrArg _ hkid))
    have hsource : kid'.source.map _ = kid.source.map _ := congrArg Kid.source hsame
    rw [hkid']
    dsimp only
    cases hk : kid.source with
    | none =>
      rw [hk] at hsource
      rw [Option.map_eq_none_iff.1 hsource]
      exact ⟨rfl, hd, hs.ids, hs.prefixes, hs.expanding⟩
    | some y =>
      rw [hk] at hsource
      obtain ⟨y', hy', heq⟩ := Option.map_eq_some_iff.1 hsource
      rw [hy']
      obtain ⟨hkind, hbelow⟩ := Prod.mk.inj heq
      have htree : (Forest.tree y'.1 y'.2).nameless = (Forest.tree y.1 y.2).nameless :=
        congrArg₂ Forest.tree hkind hbelow
      have hids : Identifiers.Alike ((Forest.tree y.1 y.2).copy s.ids).2
          ((Forest.tree y'.1 y'.2).copy s'.ids).2 := by
        rw [Forest.ids_copy, Forest.ids_copy, ← Forest.takes_nameless (Forest.tree y'.1 y'.2), htree,
          Forest.takes_nameless]
        exact hs.ids.allocateAll _
      refine ⟨rfl, { hd with kids := ?_, controls := ?_ }, { hs with ids := hids }⟩
      · change List.map _ (Sketch.share _ _) = List.map _ (Sketch.share _ _)
        rw [nameless_share, nameless_share, hd.kids]
      · change Forest.nameless (_ ++ _) = Forest.nameless (_ ++ _)
        rw [Forest.nameless_append, Forest.nameless_append]
        exact congrArg₂ (· ++ ·) hd.controls ((Forest.nameless_copy ..).trans
          (htree.symm.trans (Forest.nameless_copy ..).symm))

/-! Repeats. -/

theorem repeatOf (id id' : String) {bind : Option String} (hp : Lockstep p p') :
    Lockstep (Sketch.repeatOf id bind p) (Sketch.repeatOf id' bind p') := by
  unfold Sketch.repeatOf
  refine hidden (R := fun _ _ => True) (.reportUngoverned id bind) (.reportUngoverned id' bind)
    (fun _ _ => trivial) fun _ _ _ => ?_
  refine hidden (.repeatActions id bind) (.repeatActions id' bind) (fun s s' => ?_)
    fun actions actions' h => within h rfl hp
  have hindex (id : String) : followIndex (fun _ => "") (indexExpression id) = indexExpression "" := by
    rw [followIndex, indexTarget_indexExpression]
    rfl
  have hactions (id : String) (s : Synthesis) : (Generator.repeatActions id bind s).1 =
      [("insert_before", "insert at beginning",
          .insert (s.ids.allocate "insert").1 bind .before "1"),
        ("insert_after", "insert after selected",
          .insert ((s.ids.allocate "insert").2.allocate "insert").1 bind .after (indexExpression id)),
        ("delete", "delete selected",
          .delete (((s.ids.allocate "insert").2.allocate "insert").2.allocate "delete").1 bind
            (indexExpression id))] := rfl
  simp [hactions, Generator.repeatTrigger, NodeKind.nameless, NodeKind.blank, Control.blank,
    ControlKind.blank, Action.blank, hindex]

theorem repeated {bind : Option String} (hp : Lockstep p p') :
    Lockstep (Sketch.repeated bind p) (Sketch.repeated bind p') :=
  hidden (R := fun _ _ => True) (.allocate (by decide)) (.allocate (by decide))
    (fun _ _ => trivial) fun id id' _ => repeatOf id id' hp

theorem items {bind : Option String} {occurs : Occurs} (hp : Lockstep p p') :
    Lockstep (Sketch.items bind occurs p) (Sketch.items bind occurs p') := by
  unfold Sketch.items
  split
  · exact repeated hp
  · exact hp

theorem groupItems {occurs : Occurs} (hp : Lockstep p p') :
    Lockstep (Sketch.groupItems occurs p) (Sketch.groupItems occurs p') := by
  unfold Sketch.groupItems
  split
  · refine hidden (R := fun _ _ => True) (.allocate (by decide)) (.allocate (by decide))
      (fun _ _ => trivial) fun id id' _ => look fun d d' hd => ?_
    rw [hd.governing]
    exact repeatOf id id' hp
  · exact hp

/-! Fields. -/

variable (g : Generator)

theorem ownId : Lockstep Sketch.ownId Sketch.ownId := look fun d d' hd => by
  rw [hd.own]
  exact .pure _

theorem valueControl (t : TypeId) (owner : Generator.Owner) :
    Lockstep (Sketch.valueControl g t owner) (Sketch.valueControl g t owner) :=
  ownId.bind fun id => (step (.fieldControl g t id)).bind fun _ => leaves rfl

theorem field (t : TypeId) (owner : Generator.Owner) (path : String) (occurs : Occurs) :
    Lockstep (Sketch.field g t owner path occurs) (Sketch.field g t owner path occurs) := by
  refine withKid ?_
  split
  · refine look fun d d' hd => ?_
    rw [hd.own, hd.around]
    exact (step (.allocate (by decide))).bind fun id =>
      within rfl rfl (repeated (withKid (valueControl g t owner)))
  · exact valueControl g t owner

/-! The content of an element. -/

variable (r : Sketch.Role)

theorem text (t : ComplexType) : Lockstep (Sketch.text g r t) (Sketch.text g r t) := by
  unfold Sketch.text
  dsimp only
  split
  · exact slot (field g _ _ _ _)
  · exact slot (field g _ _ _ _)
  · exact .pure _

theorem reuses (isInherited : Bool) (nodeset : String) :
    Lockstep (Sketch.reuses r isInherited nodeset) (Sketch.reuses r isInherited nodeset) := by
  unfold Sketch.reuses
  split
  · exact reuse nodeset
  · exact .pure _

theorem use (e : Element) (id : UseId) : Lockstep (Sketch.use g r e id) (Sketch.use g r e id) := by
  unfold Sketch.use
  refine (step (.qualified _)).bind fun (nsPrefix, name) => (reuses r _ _).bind fun reused => ?_
  split
  · exact .pure _
  · split
    · exact (step (.report _)).bind fun _ => .pure _
    · exact (slot (field g _ _ _ _)).bind fun _ => .pure _

theorem uses (e : Element) (ids : List UseId) :
    Lockstep (Sketch.uses g r e ids) (Sketch.uses g r e ids) := by
  induction ids generalizing e with
  | nil => exact .pure _
  | cons id ids ih => exact (use g r e id).bind fun e => ih e

end Lockstep

/-- Children are sketched in lockstep. -/
def Sketch.Even (child : Sketch.ChildSketch) : Prop :=
  ∀ e id path occurs, Lockstep (child e id path occurs) (child e id path occurs)

namespace Lockstep

variable (g : Generator) {child : Sketch.ChildSketch} (hchild : Sketch.Even child) (r : Sketch.Role)

include hchild

theorem childElement (e : Element) (id : ElementId) (occurs : Occurs) :
    Lockstep (Sketch.childElement g child r e id occurs)
      (Sketch.childElement g child r e id occurs) := by
  unfold Sketch.childElement
  split
  · exact .pure _
  · refine (step (.qualified _)).bind fun (nsPrefix, name) => (reuses r _ _).bind fun reused => ?_
    split
    · exact .pure _
    · refine (slot (hchild _ _ _ _)).bind fun data => ?_
      split <;> exact .pure _

end Lockstep

namespace Lockstep

mutual

theorem particle (g : Generator) {child : Sketch.ChildSketch} (hchild : Sketch.Even child)
    (r : Sketch.Role) (e : Element) : (p : Particle) →
      Lockstep (Sketch.particle g child r e p) (Sketch.particle g child r e p)
  | .element occurs id => by
    rw [Sketch.particle]
    exact childElement g hchild r e id occurs
  | .group occurs _ members => by
    rw [Sketch.particle]
    exact groupItems (particles g hchild r e members)
  | .wildcard _ _ => by
    rw [Sketch.particle]
    exact (step (.report _)).bind fun _ => .pure _

theorem particles (g : Generator) {child : Sketch.ChildSketch} (hchild : Sketch.Even child)
    (r : Sketch.Role) (e : Element) : (ps : List Particle) →
      Lockstep (Sketch.particles g child r e ps) (Sketch.particles g child r e ps)
  | [] => by
    rw [Sketch.particles]
    exact .pure _
  | p :: ps => by
    rw [Sketch.particles]
    exact (particle g hchild r e p).bind fun e => particles g hchild r e ps

end

variable (g : Generator) {child : Sketch.ChildSketch} (hchild : Sketch.Even child)

include hchild

theorem content (r : Sketch.Role) (e : Element) (t : ComplexType) :
    Lockstep (Sketch.content g child r e t) (Sketch.content g child r e t) := by
  refine (text g r t).bind fun _ => (uses g r e t.uses).bind fun e => ?_
  unfold Sketch.contentModel
  split
  · exact particle g hchild r e _
  · exact .pure _

theorem complex (r : Sketch.Role) (e : Element) (occurs : Occurs) :
    Lockstep (Sketch.complex g child r e occurs) (Sketch.complex g child r e occurs) := by
  unfold Sketch.complex
  split
  · exact .pure _
  · next t _ =>
    refine look fun d d' hd => ?_
    rw [hd.own, hd.around]
    exact (step (.allocate (by decide))).bind fun id =>
      within rfl rfl (items (content g hchild r e t))

omit hchild in
theorem guardCase (existing : Nat) (t declared : TypeId) :
    Lockstep (Sketch.guardCase g existing t declared) (Sketch.guardCase g existing t declared) := by
  unfold Sketch.guardCase
  split
  · refine (step (.typeConditions g _)).bind fun conditions => change fun d d' hd =>
      { hd with kids := ?_ }
    have hguard (isNew : Bool) (kids : List Kid) :
        (kids.map (Sketch.guardKid isNew conditions)).map Kid.nameless =
          (kids.map Kid.nameless).map (Sketch.guardKid isNew conditions) := by
      rw [List.map_map, List.map_map]
      refine congrArg (List.map · kids) (funext fun kid => ?_)
      rw [Function.comp_apply, Function.comp_apply, Sketch.guardKid, Sketch.guardKid,
        Kid.bind_nameless, Kid.shared_nameless]
      split_ifs <;> rfl
    change (Sketch.guardKids _ _ _).map _ = (Sketch.guardKids _ _ _).map _
    simp only [Sketch.guardKids, List.map_append, hguard, List.map_take, List.map_drop, hd.kids]
  · exact .pure _

omit hchild in
theorem unshare : Lockstep Sketch.unshare Sketch.unshare := by
  refine change fun d d' hd => { hd with kids := ?_ }
  have hkids := congrArg (List.map fun kid : Kid => { kid with shared := false }) hd.kids
  simp only [List.map_map] at hkids ⊢
  exact hkids

theorem typeCase (owner : ElementId) (declared : TypeId) (isFirst : Bool) (e : Element) (t : TypeId)
    (caseId : String) :
    Lockstep (Sketch.typeCase g child owner declared isFirst e t caseId)
      (Sketch.typeCase g child owner declared isFirst e t caseId) := by
  refine within rfl rfl (look fun d d' hd => ?_)
  have hlength : d.kids.length = d'.kids.length := by
    rw [← List.length_map (f := Kid.nameless), hd.kids, List.length_map]
  rw [hlength]
  exact (complex g hchild _ _ .once).bind fun data => (guardCase g _ t declared).bind fun _ =>
    unshare.bind fun _ => .pure _

theorem typeCases (owner : ElementId) (declared : TypeId) (isFirst : Bool) (e : Element)
    (cases : List (TypeId × String)) :
    Lockstep (Sketch.typeCases g child owner declared isFirst e cases)
      (Sketch.typeCases g child owner declared isFirst e cases) := by
  induction cases generalizing isFirst e with
  | nil => exact .pure _
  | cons c cases ih =>
    exact (typeCase g hchild owner declared isFirst e c.1 c.2).bind fun e => ih false e

theorem switchItem (selectId typeBindId label : String) (e : Element) (owner : ElementId)
    (declared : TypeId) (types : List TypeId) :
    Lockstep (Sketch.switchItem g child selectId typeBindId label e owner declared types)
      (Sketch.switchItem g child selectId typeBindId label e owner declared types) := by
  refine (step (.promptChoice g _ _)).bind fun prompt =>
    (step (.typeChoices g types)).bind fun choices => (leaves rfl).bind fun _ => ?_
  refine (step (.allocate (by decide))).bind fun triggerId =>
    (step (.allocate (by decide))).bind fun actionId =>
    (step (.allocate (by decide))).bind fun dispatchId => (leaves rfl).bind fun _ => ?_
  refine (step (.allocate (by decide))).bind fun switchId => within rfl rfl ?_
  exact (step (.typeValue g _)).bind fun first => typeCases g hchild owner declared true _ _

theorem switch (e : Element) (owner : ElementId) (declared : TypeId) (types : List TypeId)
    (path : String) (occurs : Occurs) :
    Lockstep (Sketch.switch g child e owner declared types path occurs)
      (Sketch.switch g child e owner declared types path occurs) := by
  rw [Sketch.switch_eq]
  refine (step (.allocate (by decide))).bind fun selectId => (withKid ownId).bind fun typeBindId =>
    withKid (look fun d d' hd => ?_)
  rw [hd.around]
  exact items (switchItem g hchild _ _ _ e owner declared types)

theorem plain (e : Element) (owner : ElementId) (declared resolved : TypeId) (path : String)
    (occurs : Occurs) :
    Lockstep (Sketch.plain g child e owner declared resolved path occurs)
      (Sketch.plain g child e owner declared resolved path occurs) := by
  have hkid (e : Element) : Lockstep
      (Sketch.withKid {} path (Sketch.complex g child ⟨resolved, owner, false⟩ e occurs))
      (Sketch.withKid {} path (Sketch.complex g child ⟨resolved, owner, false⟩ e occurs)) :=
    withKid (complex g hchild _ e occurs)
  unfold Sketch.plain
  split
  · exact hkid e
  · exact (step (.typeValue g resolved)).bind fun value => hkid _

theorem expand (e : Element) (id : ElementId) (path : String) (occurs : Occurs) :
    Lockstep (Sketch.expand g child e id path occurs) (Sketch.expand g child e id path occurs) := by
  have hleave (e : Element) : Lockstep (do
      leave
      return some e : Sketch (Option Element)) (do
      leave
      return some e : Sketch (Option Element)) := (step .leave).bind fun _ => .pure _
  unfold Sketch.expand
  dsimp only
  split
  · exact (step (.report _)).bind fun _ => .pure _
  · next t _ =>
    split
    · exact (field g t _ path occurs).bind fun _ => .pure _
    · refine (step (.enter id t)).bind fun entered => ?_
      split
      · split
        · exact (plain g hchild e id t t path occurs).bind hleave
        · exact (plain g hchild e id t _ path occurs).bind hleave
        · exact (switch g hchild e id t _ path occurs).bind hleave
      · exact (step (.report _)).bind fun _ => .pure _

end Lockstep

/-- Elements are sketched in lockstep, however many expansions can be opened. -/
theorem Sketch.even_element (g : Generator) (openings : Nat) : Sketch.Even (Sketch.element g openings) := by
  induction openings with
  | zero => exact fun _ _ _ _ => .pure none
  | succ openings ih => exact Lockstep.expand g ih

end SchemaForms
