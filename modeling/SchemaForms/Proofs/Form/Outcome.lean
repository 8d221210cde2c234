import SchemaForms.Proofs.Form.Linked
import SchemaForms.Proofs.Name.Prefixes

/-!
Outcomes: what holds when a sketch has been drawn, step by step; and what no step changes: the
expansions under way are the same again, and prefixes are only added.
-/

namespace SchemaForms

open Synthesis
open Xml (Element)

/-- A state after another one, with the same expansions under way, and all prefixes kept. -/
structure Synthesis.Abides (s s' : Synthesis) : Prop where
  stack : s'.expanding = s.expanding
  prefixes : s.prefixes.Extends s'.prefixes

theorem Synthesis.Abides.refl (s : Synthesis) : s.Abides s := ⟨rfl, .refl⟩

theorem Synthesis.Abides.trans {s s' s'' : Synthesis} (h : s.Abides s') (h' : s'.Abides s'') :
    s.Abides s'' :=
  ⟨h'.stack.trans h.stack, h.prefixes.trans h'.prefixes⟩

/-- A step that leaves the expansions as they are. -/
def Calm {α : Type} (f : Synth α) : Prop := ∀ s : Synthesis, s.Abides (f s).2

namespace Calm

variable {α β : Type} {g : Generator}

theorem pure (a : α) : Calm (pure a : Synth α) := fun s => .refl s

theorem bind {f : Synth α} {k : α → Synth β} (hf : Calm f) (hk : ∀ a, Calm (k a)) :
    Calm (f >>= k) := fun s => (hf s).trans (hk _ _)

theorem allocate (name : String) : Calm (allocate name) := fun _ => ⟨rfl, .refl⟩

theorem report (a : Anomaly) : Calm (report a) := fun _ => ⟨rfl, .refl⟩

theorem copy (f : Forest NodeKind) : Calm (Sketch.copy f) := fun _ => ⟨rfl, .refl⟩

theorem qualified (name : QName) : Calm (qualified name) := by
  intro s
  unfold Synthesis.qualified
  cases name.nspace with
  | none => exact .refl s
  | some ns => exact ⟨rfl, .single ⟨ns, rfl⟩⟩

theorem typeValue (t : TypeId) : Calm (g.typeValue t) := by
  unfold Generator.typeValue
  split
  · exact (qualified _).bind fun _ => pure _
  · exact pure _

theorem typeConditions (ts : List TypeId) : Calm (g.typeConditions ts) := by
  induction ts with
  | nil => exact pure _
  | cons t ts ih => exact (typeValue t).bind fun _ => ih.bind fun _ => pure _

theorem choicesFor (values : List String) : Calm (Generator.choicesFor values) := by
  induction values with
  | nil => exact pure _
  | cons v vs ih => exact (allocate "item").bind fun _ => ih.bind fun _ => pure _

theorem fieldControl (t : TypeId) (bind : String) : Calm (g.fieldControl t bind) := by
  unfold Generator.fieldControl
  split
  · exact (allocate _).bind fun _ => pure _
  · split
    · exact (allocate _).bind fun _ => (choicesFor _).bind fun _ => pure _
    · split
      · exact (allocate _).bind fun _ => pure _
      · exact (allocate _).bind fun _ => (choicesFor _).bind fun _ => pure _

theorem promptChoice (label : String) (count : Nat) : Calm (g.promptChoice label count) := by
  unfold Generator.promptChoice
  split
  · exact (allocate _).bind fun _ => pure _
  · exact pure _

theorem typeChoices (ts : List TypeId) : Calm (g.typeChoices ts) := by
  induction ts with
  | nil => exact pure _
  | cons t ts ih =>
    exact (allocate _).bind fun _ => (allocate _).bind fun _ => (allocate _).bind fun _ =>
      (allocate _).bind fun _ => (typeValue t).bind fun _ => ih.bind fun _ => pure _

theorem reportUngoverned (id : String) (bind : Option String) :
    Calm (Generator.reportUngoverned id bind) := by
  cases bind with
  | none => exact report _
  | some _ => exact pure _

theorem repeatActions (id : String) (bind : Option String) :
    Calm (Generator.repeatActions id bind) :=
  (allocate _).bind fun _ => (allocate _).bind fun _ => (allocate _).bind fun _ => pure _

end Calm

namespace Sketch

variable {α β : Type}

/-- What holds when a sketch has been drawn from a draft and a state on. -/
def Ends (p : Sketch α) (d : Draft) (s : Synthesis) (Q : α → Draft → Synthesis → Prop) : Prop :=
  Q (p d s).1.1 (p d s).1.2 (p d s).2

variable {d : Draft} {s : Synthesis} {Q : α → Draft → Synthesis → Prop}

theorem Ends.mono {p : Sketch α} {Q' : α → Draft → Synthesis → Prop} (h : p.Ends d s Q)
    (hQ : ∀ a d s, Q a d s → Q' a d s) : p.Ends d s Q' := hQ _ _ _ h

theorem ends_pure {a : α} : (pure a : Sketch α).Ends d s Q ↔ Q a d s := Iff.rfl

theorem ends_bind {p : Sketch β} {k : β → Sketch α} :
    (p >>= k).Ends d s Q ↔ p.Ends d s fun b d s => (k b).Ends d s Q := Iff.rfl

theorem ends_lift {f : Synth α} :
    Ends (liftM f) d s Q ↔ Q (f s).1 d (f s).2 := Iff.rfl

theorem ends_get {Q : Draft → Draft → Synthesis → Prop} :
    Ends get d s Q ↔ Q d d s := Iff.rfl

theorem ends_modify {f : Draft → Draft} {Q : Unit → Draft → Synthesis → Prop} :
    Ends (modify f) d s Q ↔ Q () (f d) s := Iff.rfl

theorem ends_leaves {cs : List Control} {Q : Unit → Draft → Synthesis → Prop} :
    (leaves cs).Ends d s Q ↔
      Q () { d with controls := d.controls ++ .leaves (cs.map .control) } s := Iff.rfl

theorem ends_within {before : List Control} {c : Control} {p : Sketch α} :
    (within before c p).Ends d s Q ↔ p.Ends { d with controls := .nil } s fun a d' s' =>
      Q a { d' with
        controls := d.controls ++
          (.leaves (before.map .control) ++ .tree (.control c) d'.controls) } s' := Iff.rfl

theorem ends_slot {p : Sketch α} :
    (slot p).Ends d s Q ↔ p.Ends { d with controls := .nil } s fun a d' s' =>
      Q a { d' with
        kids := d'.kids.map (settle d'.controls)
        controls := d.controls ++ d'.controls } s' := Iff.rfl

theorem ends_withKid {b : Bind} {nodeset : String} {p : Sketch α} :
    (withKid b nodeset p).Ends d s Q ↔
      let id := (allocate "bind" s).1
      let kid : Kid := { bind := { b with id := id, nodeset := nodeset } }
      p.Ends
        { own := some id
          above := Kid.lastElement (d.kids ++ [kid])
          around := Draft.governing { d with kids := d.kids ++ [kid] }
          kids := []
          controls := d.controls
          copies := d.copies } (allocate "bind" s).2 fun a d' s' =>
        Q a { d with
          kids := d.kids ++ [{ kid with below := Kid.forest d'.kids }]
          controls := d'.controls
          copies := d'.copies } s' := Iff.rfl

end Sketch

/-! The nodesets of a draft. -/

/-- The nodesets of the binds that a draft has. -/
def Draft.nodesets (d : Draft) : Forest String := (Kid.forest d.kids).map (·.nodeset)

theorem Kid.nodesets_settle (controls : Forest NodeKind) (kids : List Kid) :
    (Kid.forest (kids.map (Sketch.settle controls))).map (·.nodeset) =
      (Kid.forest kids).map (·.nodeset) := by
  rw [forest_settle]

/-- Kids whose cores are the same have the same nodesets. -/
theorem Kid.nodesets_of_core {kids kids' : List Kid} (h : kids.map Kid.core = kids'.map Kid.core) :
    (Kid.forest kids).map (·.nodeset) = (Kid.forest kids').map (·.nodeset) := by
  have hforest (kids : List Kid) : (Kid.forest kids).map (·.nodeset) =
      (kids.map Kid.core).foldr (fun c f => .cons c.1.2.1 (c.2.1.map (·.nodeset)) f) .nil := by
    induction kids with
    | nil => rfl
    | cons kid kids ih =>
      rw [Kid.forest, Forest.map_cons, ih]
      rfl
  rw [hforest, hforest, h]

theorem Draft.nodesets_add (d : Draft) (kid : Kid) :
    ((Kid.forest (d.kids ++ [kid])).map (·.nodeset)) =
      d.nodesets ++ .tree kid.bind.nodeset (kid.below.map (·.nodeset)) := by
  rw [Kid.forest_append, Forest.map_append]
  rfl

end SchemaForms
