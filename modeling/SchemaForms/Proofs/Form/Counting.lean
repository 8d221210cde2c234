import SchemaForms.Proofs.Form.Lockstep
import SchemaForms.Proofs.Form.Making

/-!
Counting repeats: a sketch of an element that may occur more than once draws one repeat more than it
would draw if the element occurred once.
-/

namespace SchemaForms

open Synthesis
open Forest (leaves)
open Xml (Element)

theorem NodeKind.isRepeat_nameless (k : NodeKind) : k.nameless.isRepeat = k.isRepeat := by
  cases k with
  | control c =>
    obtain ⟨id, kind⟩ := c
    cases kind with
    | trigger action => cases action <;> rfl
    | _ => rfl
  | _ => rfl

namespace Forest

theorem repeats_nameless (f : Forest NodeKind) : f.nameless.repeats = f.repeats := by
  rw [repeats, nameless, labels_map, List.countP_map]
  exact List.countP_congr fun k _ => by rw [Function.comp_apply, k.isRepeat_nameless]

@[simp] theorem repeats_append (f g : Forest NodeKind) :
    (f ++ g).repeats = f.repeats + g.repeats := by
  rw [repeats, labels_append, List.countP_append]
  rfl

@[simp] theorem repeats_control (c : Control) (f : Forest NodeKind) :
    (Forest.tree (.control c) f).repeats = f.repeats + if c.kind.isRepeat then 1 else 0 := by
  rw [repeats, Forest.tree, labels_cons, labels_nil, List.append_nil, List.countP_cons]
  rfl

theorem repeats_leaves {cs : List Control} (h : ∀ c ∈ cs, c.kind.isRepeat = false) :
    (leaves (cs.map .control)).repeats = 0 := by
  rw [repeats, labels_leaves, List.countP_eq_zero]
  intro k hk
  obtain ⟨c, hc, rfl⟩ := List.mem_map.1 hk
  simpa [NodeKind.isRepeat, NodeKind.control?] using h c hc

end Forest

theorem Draft.Alike.repeats_eq {d d' : Draft} (h : d.Alike d') :
    d.controls.repeats = d'.controls.repeats := by
  rw [← Forest.repeats_nameless, h.controls, Forest.repeats_nameless]

/-- What a repeat is put behind. -/
theorem Generator.isRepeat_trigger {id : String} {actions : List (String × String × Action)}
    {c : Control} (hc : c ∈ actions.map fun (suffix, label, action) =>
      Generator.repeatTrigger id suffix label action) : c.kind.isRepeat = false := by
  obtain ⟨⟨suffix, label, action⟩, -, rfl⟩ := List.mem_map.1 hc
  rfl

theorem Generator.isRepeat_fieldControl (g : Generator) (t : TypeId) (bind : String) (s : Synthesis) :
    (g.fieldControl t bind s).1.kind.isRepeat = false := by
  have hfield := (fieldControl_spec g t bind s).1
  unfold Control.IsField at hfield
  split at hfield
  all_goals first | exact hfield.elim | (next hkind => rw [hkind]; rfl)

namespace Sketch

variable {α β : Type}

/-- Before a repeat is drawn nothing happens that matters to a sketch. -/
theorem repeated_run (bind : Option String) (p : Sketch α) (d : Draft) (s : Synthesis) :
    ∃ (before : List Control) (c : Control) (s' : Synthesis), s'.Alike s ∧
      (∀ b ∈ before, b.kind.isRepeat = false) ∧ c.kind = .repeatRegion ∧
        repeated bind p d s = within before c p d s' := by
  have hopen : Hidden (do
      let id ← allocate "repeat"
      Generator.reportUngoverned id bind
      Generator.repeatActions id bind : Synth (List (String × String × Action))) :=
    (Hidden.allocate (by decide)).bind fun id => (Hidden.reportUngoverned id bind).bind fun _ =>
      Hidden.repeatActions id bind
  exact ⟨_, _, _, hopen (.refl s), fun _ hc => Generator.isRepeat_trigger hc, rfl, rfl⟩

theorem repeats_within {before : List Control} (hbefore : ∀ b ∈ before, b.kind.isRepeat = false)
    (c : Control) (p : Sketch α) (d : Draft) (s : Synthesis) :
    (within before c p d s).1.2.controls.repeats = d.controls.repeats +
      ((p { d with controls := .nil } s).1.2.controls.repeats + if c.kind.isRepeat then 1 else 0) := by
  change Forest.repeats (_ ++ (_ ++ _)) = _
  rw [Forest.repeats_append, Forest.repeats_append, Forest.repeats_leaves hbefore, Nat.zero_add,
    Forest.repeats_control]

/-- A sketch draws a number of repeats. -/
def Counts (n : Nat) (p : Sketch α) : Prop :=
  ∀ d s, (p d s).1.2.controls.repeats = d.controls.repeats + n

namespace Counts

variable {n : Nat} {p : Sketch α}

/-- After a sketch that draws nothing. -/
theorem after {k : α → Sketch β} (hp : ∀ d s, (p d s).1.2.controls = d.controls)
    (hk : ∀ a, Counts n (k a)) : Counts n (p >>= k) := fun d s => by
  rw [← hp d s]
  exact hk (p d s).1.1 (p d s).1.2 (p d s).2

theorem withKid {b : Bind} {nodeset : String} (hp : Counts n p) :
    Counts n (Sketch.withKid b nodeset p) := fun _ _ => hp _ _

theorem within {c : Control} (hc : c.kind.isRepeat = false) (hp : Counts n p) :
    Counts n (Sketch.within [] c p) := fun d s => by
  rw [repeats_within (by simp), hp, hc]
  simp [Forest.repeats]

theorem repeated {bind : Option String} (hp : Counts n p) :
    Counts (n + 1) (Sketch.repeated bind p) := fun d s => by
  obtain ⟨before, c, s', -, hbefore, hc, hrun⟩ := repeated_run bind p d s
  rw [hrun, repeats_within hbefore, hp, hc]
  simp [Forest.repeats, ControlKind.isRepeat]

theorem valueControl (g : Generator) (t : TypeId) (owner : Generator.Owner) :
    Counts 0 (Sketch.valueControl g t owner) := fun d s => by
  change Forest.repeats (d.controls ++ Forest.leaves ([_].map NodeKind.control)) = _
  rw [Forest.repeats_append, Forest.repeats_leaves]
  intro c hc
  rw [List.mem_singleton.1 hc]
  exact g.isRepeat_fieldControl t _ s

/-- A field draws a repeat if it may occur more than once. -/
theorem field (g : Generator) (t : TypeId) (owner : Generator.Owner) (path : String)
    (occurs : Occurs) :
    Counts (if occurs.isMultiple then 1 else 0) (Sketch.field g t owner path occurs) := by
  refine withKid ?_
  split
  · refine after (fun _ _ => rfl) fun d => after (fun _ _ => rfl) fun id => within rfl ?_
    exact repeated (withKid (valueControl g t owner))
  · exact valueControl g t owner

end Counts

/-- Where no controls are there yet, one sketch comes to what another one comes to and draws one
repeat more. -/
def Exceeds (p p' : Sketch α) : Prop := ∀ d s, d.controls = .nil →
  (p d s).1.1 = (p' d s).1.1 ∧
    (p d s).1.2.controls.repeats = (p' d s).1.2.controls.repeats + 1

namespace Exceeds

variable {p p' : Sketch α}

theorem after {f : Sketch α} {k k' : α → Sketch β} (hf : ∀ d s, (f d s).1.2.controls = d.controls)
    (hk : ∀ a, Exceeds (k a) (k' a)) : Exceeds (f >>= k) (f >>= k') := fun d s hd =>
  hk (f d s).1.1 (f d s).1.2 (f d s).2 ((hf d s).trans hd)

theorem withKid {b : Bind} {nodeset : String} (h : Exceeds p p') :
    Exceeds (Sketch.withKid b nodeset p) (Sketch.withKid b nodeset p') := fun _ _ hd => h _ _ hd

theorem within {c : Control} (h : Exceeds p p') :
    Exceeds (Sketch.within [] c p) (Sketch.within [] c p') := fun d s hd => by
  obtain ⟨hresult, hrepeats⟩ := h { d with controls := .nil } s rfl
  refine ⟨hresult, ?_⟩
  rw [repeats_within (by simp), repeats_within (by simp), hrepeats]
  omega

/-- The items of what may occur more than once stand in a repeat, and are what a single item is. -/
theorem items {bind : Option String} {occurs : Occurs} (hmultiple : occurs.isMultiple = true)
    (hp : Lockstep p p) : Exceeds (Sketch.items bind occurs p) (Sketch.items bind .once p) := by
  intro d s hd
  have honce : Sketch.items bind .once p = p := if_neg (by decide)
  have hempty : { d with controls := .nil } = d := by rw [← hd]
  obtain ⟨before, c, s', hs, hbefore, hc, hrun⟩ := repeated_run bind p d s
  have h := hp hs (.refl d)
  rw [honce, Sketch.items, if_pos hmultiple, hrun]
  constructor
  · change (p { d with controls := .nil } s').1.1 = _
    rw [hempty, h.result]
  · rw [repeats_within hbefore, hempty, hd, h.draft.repeats_eq, hc]
    simp [Forest.repeats, ControlKind.isRepeat]

theorem complex (g : Generator) {child : ChildSketch} (hchild : Even child) (r : Role) (e : Element)
    {occurs : Occurs} (hmultiple : occurs.isMultiple = true)
    (hr : (g.schema.complex? r.type).isSome) :
    Exceeds (Sketch.complex g child r e occurs) (Sketch.complex g child r e .once) := by
  obtain ⟨t, ht⟩ := Option.isSome_iff_exists.1 hr
  unfold Sketch.complex
  rw [ht]
  refine after (fun _ _ => rfl) fun d => after (fun _ _ => rfl) fun id => within ?_
  exact items hmultiple (Lockstep.content g hchild r e t)

theorem plain (g : Generator) {child : ChildSketch} (hchild : Even child) (e : Element)
    (owner : ElementId) (declared : TypeId) {resolved : TypeId} (path : String) {occurs : Occurs}
    (hmultiple : occurs.isMultiple = true) (hresolved : (g.schema.complex? resolved).isSome) :
    Exceeds (Sketch.plain g child e owner declared resolved path occurs)
      (Sketch.plain g child e owner declared resolved path .once) := by
  have hkid (e : Element) :
      Exceeds (Sketch.withKid {} path (Sketch.complex g child ⟨resolved, owner, false⟩ e occurs))
        (Sketch.withKid {} path (Sketch.complex g child ⟨resolved, owner, false⟩ e .once)) :=
    withKid (complex g hchild ⟨resolved, owner, false⟩ e hmultiple hresolved)
  unfold Sketch.plain
  split
  · exact hkid e
  · exact after (fun _ _ => rfl) fun value => hkid _

theorem switch (g : Generator) {child : ChildSketch} (hchild : Even child) (e : Element)
    (owner : ElementId) (declared : TypeId) (types : List TypeId) (path : String) {occurs : Occurs}
    (hmultiple : occurs.isMultiple = true) :
    Exceeds (Sketch.switch g child e owner declared types path occurs)
      (Sketch.switch g child e owner declared types path .once) := by
  rw [switch_eq, switch_eq]
  refine after (fun _ _ => rfl) fun selectId => after (fun _ _ => rfl) fun typeBindId => ?_
  refine withKid (after (fun _ _ => rfl) fun d => ?_)
  exact items hmultiple (Lockstep.switchItem g hchild _ _ _ e owner declared types)

end Exceeds

/-- The same of sketches that may leave out what they are for, where the first does not. -/
def ExceedsIfSome (p p' : Sketch (Option α)) : Prop := ∀ d s, d.controls = .nil →
  (p d s).1.1.isSome → (p d s).1.2.controls.repeats = (p' d s).1.2.controls.repeats + 1

namespace ExceedsIfSome

theorem after {f : Sketch β} {k k' : β → Sketch (Option α)}
    (hf : ∀ d s, (f d s).1.2.controls = d.controls) (hk : ∀ b, ExceedsIfSome (k b) (k' b)) :
    ExceedsIfSome (f >>= k) (f >>= k') := fun d s hd =>
  hk (f d s).1.1 (f d s).1.2 (f d s).2 ((hf d s).trans hd)

theorem of_none {p p' : Sketch (Option α)} (h : ∀ d s, (p d s).1.1 = none) : ExceedsIfSome p p' :=
  fun d s _ hsome => by
    rw [h d s] at hsome
    cases hsome

/-- What comes behind draws nothing. -/
theorem behind {p p' : Sketch β} {k : β → Sketch (Option α)} (h : Exceeds p p')
    (hk : ∀ b d s, (k b d s).1.2.controls = d.controls) : ExceedsIfSome (p >>= k) (p' >>= k) := by
  intro d s hd _
  change (k (p d s).1.1 (p d s).1.2 (p d s).2).1.2.controls.repeats =
    (k (p' d s).1.1 (p' d s).1.2 (p' d s).2).1.2.controls.repeats + 1
  rw [hk, hk]
  exact (h d s hd).2

theorem expand (g : Generator) {child : ChildSketch} (hchild : Even child)
    (hcandidates : ∀ t, ∀ t' ∈ g.candidates t, (g.schema.complex? t).isSome →
      (g.schema.complex? t').isSome)
    (e : Element) (id : ElementId) (path : String) {occurs : Occurs}
    (hmultiple : occurs.isMultiple = true) :
    ExceedsIfSome (Sketch.expand g child e id path occurs)
      (Sketch.expand g child e id path .once) := by
  unfold Sketch.expand
  dsimp only
  cases (g.schema.element id).type with
  | none => exact of_none fun _ _ => rfl
  | some t =>
    dsimp only
    split
    · refine behind (fun d s _ => ⟨rfl, ?_⟩) fun _ _ _ => rfl
      rw [Counts.field g t _ path occurs d s, Counts.field g t _ path .once d s, if_pos hmultiple,
        if_neg (by decide)]
    · next hcomplex =>
      have ht : (g.schema.complex? t).isSome := by
        rwa [Option.isNone_iff_eq_none, ← Option.not_isSome_iff_eq_none, not_not] at hcomplex
      refine after (fun _ _ => rfl) fun entered => ?_
      split
      · split
        · exact behind (.plain g hchild e id t path hmultiple ht) fun _ _ _ => rfl
        · next resolved hresolved =>
          have hmem : resolved ∈ g.candidates t := by simp [hresolved]
          exact behind (.plain g hchild e id t path hmultiple (hcandidates t resolved hmem ht))
            fun _ _ _ => rfl
        · exact behind (.switch g hchild e id t _ path hmultiple) fun _ _ _ => rfl
      · exact of_none fun _ _ => rfl

/-- An element that may occur more than once is drawn with one repeat more than one that occurs
once, if it is drawn at all. -/
theorem element (g : Generator)
    (hcandidates : ∀ t, ∀ t' ∈ g.candidates t, (g.schema.complex? t).isSome →
      (g.schema.complex? t').isSome)
    (openings : Nat) (e : Element) (id : ElementId) (path : String) {occurs : Occurs}
    (hmultiple : occurs.isMultiple = true) :
    ExceedsIfSome (Sketch.element g openings e id path occurs)
      (Sketch.element g openings e id path .once) := by
  cases openings with
  | zero => exact of_none fun _ _ => rfl
  | succ openings => exact expand g (even_element g openings) hcandidates e id path hmultiple

end ExceedsIfSome

end Sketch

end SchemaForms
