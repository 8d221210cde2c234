import SchemaForms.Proofs.Form.Coverage
import SchemaForms.Proofs.Form.Exposure
import SchemaForms.Proofs.Form.Outline
import SchemaForms.Proofs.Form.Switches

/-!
Serving: every bind has a control, every control that shows a value has a bind, and nothing that is
looked for on the way is missing: a bind for each repeat, a control for each bind that is shared.
Main statement: `binds_and_controls_serve`.
-/

namespace SchemaForms

open Synthesis
open Forest (tree)
open Xml (Element)

/-- Whether a control of a kind shows a value: others hold cases or do something. -/
def ControlKind.showsValue : ControlKind → Bool
  | .switch | .switchCase _ | .trigger _ | .submit _ => false
  | _ => true

/-- Anomalies that schemas give rise to, by what they say. -/
def Anomaly.OfSchema : Anomaly → Prop
  | .missingRepeatBind _ | .reusedControlNotFound _ => False
  | _ => True

/-- A node has a bind if it shows a value. -/
def NodeKind.hasItsBind : NodeKind → Bool
  | .control c => c.bind.isSome || !c.kind.showsValue
  | _ => true

def Forest.AllBound (f : Forest NodeKind) : Prop := ∀ k ∈ f.labels, k.hasItsBind = true

namespace Forest

variable {f f' : Forest NodeKind}

theorem allBound_nil : (nil : Forest NodeKind).AllBound := fun _ hk => absurd hk List.not_mem_nil

theorem AllBound.append (h : f.AllBound) (h' : f'.AllBound) : (f ++ f').AllBound := by
  intro k hk
  rw [labels_append, List.mem_append] at hk
  exact hk.elim (h k) (h' k)

theorem AllBound.tree {k : NodeKind} (h : f.AllBound) (hk : k.hasItsBind = true) :
    (tree k f).AllBound := by
  intro k' hk'
  simp only [Forest.tree, labels_cons, labels_nil, List.append_nil, List.mem_cons] at hk'
  rcases hk' with rfl | hk'
  · exact hk
  · exact h k' hk'

theorem allBound_leaves {cs : List Control} (h : ∀ c ∈ cs, (NodeKind.control c).hasItsBind = true) :
    (leaves (cs.map NodeKind.control)).AllBound := by
  intro k hk
  rw [labels_leaves] at hk
  obtain ⟨c, hc, rfl⟩ := List.mem_map.1 hk
  exact h c hc

/-- Copies are of the same kinds and have the same binds. -/
theorem AllBound.copy (h : f.AllBound) (ids : Identifiers) : (f.copy ids).1.AllBound := by
  have hsame : (f.copy ids).1.map NodeKind.hasItsBind = f.map NodeKind.hasItsBind := by
    refine map_copy (fun k r => ?_) (fun k table => ?_) f ids
    · cases k with
      | control c =>
        obtain ⟨id, kind, label, bind, appearance, hint⟩ := c
        cases kind with
        | trigger action => cases action <;> rfl
        | _ => rfl
      | _ => rfl
    · cases k with
      | control c =>
        obtain ⟨id, kind, label, bind, appearance, hint⟩ := c
        cases kind with
        | trigger action => cases action <;> rfl
        | _ => rfl
      | _ => rfl
  intro k hk
  have hmem : k.hasItsBind ∈ (f.map NodeKind.hasItsBind).labels := by
    rw [← hsame, labels_map]
    exact List.mem_map_of_mem hk
  rw [labels_map] at hmem
  obtain ⟨k', hk', he⟩ := List.mem_map.1 hmem
  exact he ▸ h k' hk'

theorem binds_of_find {id : String} (h : (f.find (·.isBoundTo id)).isSome) : f.Binds id := by
  obtain ⟨⟨k, b⟩, hfind⟩ := Option.isSome_iff_exists.1 h
  obtain ⟨hmem, -, hbound⟩ := find_mem hfind
  exact ⟨k, hmem, hbound⟩

end Forest

/-! Steps that report nothing but what the schema gives rise to. -/

structure Synthesis.Fine (s : Synthesis) : Prop where
  apart : s.prefixes.Apart
  expected : ∀ a ∈ s.anomalies, a.OfSchema

/-- A step after which all is fine if it has been. -/
def Mild {α : Type} (f : Synth α) : Prop := ∀ s : Synthesis, s.Fine → (f s).2.Fine

namespace Mild

variable {α β : Type} {g : Generator}

theorem pure (a : α) : Mild (pure a : Synth α) := fun _ hs => hs

theorem bind {f : Synth α} {k : α → Synth β} (hf : Mild f) (hk : ∀ a, Mild (k a)) :
    Mild (f >>= k) := fun s hs => hk _ _ (hf s hs)

theorem allocate (name : String) : Mild (allocate name) := fun _ hs => ⟨hs.apart, hs.expected⟩

theorem report {a : Anomaly} (ha : a.OfSchema) : Mild (report a) := fun _ hs =>
  ⟨hs.apart, fun b hb => (List.mem_append.1 hb).elim (hs.expected b) fun hb =>
    List.mem_singleton.1 hb ▸ ha⟩

theorem enter (e : ElementId) (t : TypeId) : Mild (enter e t) := by
  intro s hs
  unfold Synthesis.enter
  split
  · exact hs
  · exact ⟨hs.apart, hs.expected⟩

theorem leave : Mild leave := fun _ hs => ⟨hs.apart, hs.expected⟩

theorem qualified (name : QName) : Mild (qualified name) := by
  intro s hs
  unfold Synthesis.qualified
  cases name.nspace with
  | none => exact hs
  | some ns => exact ⟨hs.apart.prefixFor ns, hs.expected⟩

theorem typeValue (t : TypeId) : Mild (g.typeValue t) := by
  unfold Generator.typeValue
  split
  · exact (qualified _).bind fun _ => pure _
  · exact pure _

theorem typeConditions (ts : List TypeId) : Mild (g.typeConditions ts) := by
  induction ts with
  | nil => exact pure _
  | cons t ts ih => exact (typeValue t).bind fun _ => ih.bind fun _ => pure _

theorem choicesFor (values : List String) : Mild (Generator.choicesFor values) := by
  induction values with
  | nil => exact pure _
  | cons v vs ih => exact (allocate "item").bind fun _ => ih.bind fun _ => pure _

theorem fieldControl (t : TypeId) (bind : String) : Mild (g.fieldControl t bind) := by
  unfold Generator.fieldControl
  split
  · exact (allocate _).bind fun _ => pure _
  · split
    · exact (allocate _).bind fun _ => (choicesFor _).bind fun _ => pure _
    · split
      · exact (allocate _).bind fun _ => pure _
      · exact (allocate _).bind fun _ => (choicesFor _).bind fun _ => pure _

theorem promptChoice (label : String) (count : Nat) : Mild (g.promptChoice label count) := by
  unfold Generator.promptChoice
  split
  · exact (allocate _).bind fun _ => pure _
  · exact pure _

theorem typeChoices (ts : List TypeId) : Mild (g.typeChoices ts) := by
  induction ts with
  | nil => exact pure _
  | cons t ts ih =>
    exact (allocate _).bind fun _ => (allocate _).bind fun _ => (allocate _).bind fun _ =>
      (allocate _).bind fun _ => (typeValue t).bind fun _ => ih.bind fun _ => pure _

/-- A repeat that a bind governs is not reported. -/
theorem reportUngoverned (id : String) {bind : Option String} (h : bind.isSome) :
    Mild (Generator.reportUngoverned id bind) := by
  cases bind with
  | none => cases h
  | some _ => exact pure _

theorem repeatActions (id : String) (bind : Option String) :
    Mild (Generator.repeatActions id bind) :=
  (allocate _).bind fun _ => (allocate _).bind fun _ => (allocate _).bind fun _ => pure _

end Mild

/-! Drafts. -/

theorem Kid.labels_forest (kids : List Kid) :
    (Kid.forest kids).labels = kids.flatMap fun kid => kid.bind :: kid.below.labels := by
  induction kids with
  | nil => rfl
  | cons kid kids ih => rw [Kid.forest, Forest.labels_cons, ih, List.flatMap_cons, List.cons_append]

/-- The bind of an element governs the repeats that come behind it. -/
theorem Kid.isSome_lastElement {kid : Kid} (h : ¬ kid.bind.nodeset.startsWith "@" = true)
    (kids : List Kid) : (Kid.lastElement (kids ++ [kid])).isSome := by
  have hkid : (!kid.bind.isAttribute) = true := by simpa [Bind.isAttribute] using h
  simp [Kid.lastElement, hkid]

/-- A draft for what is inside an element; where it is `deep`, a bind governs repeats in it, and one
governs those around it. -/
structure Draft.Inside (deep : Prop) (d : Draft) : Prop where
  own : d.own.isSome
  governed : deep → d.above.isSome ∧ d.around.isSome

theorem Draft.Inside.of_place {deep : Prop} {d d' : Draft} (h : d.Inside deep)
    (hplace : d'.place = d.place) : d'.Inside deep := by
  obtain ⟨own, above, around, kids, controls, copies⟩ := d
  obtain ⟨own', above', around', kids', controls', copies'⟩ := d'
  cases hplace
  exact ⟨h.own, h.governed⟩

theorem Draft.Inside.governing {d : Draft} (h : d.Inside True) : d.governing.isSome := by
  unfold Draft.governing
  cases Kid.lastElement d.kids with
  | none => exact (h.governed trivial).1
  | some id => rfl

/-- All binds of a draft have controls, in it or before it; those of its kids can be copied. -/
structure Draft.Served (before : Forest NodeKind) (d : Draft) : Prop where
  bound : d.controls.AllBound
  served : ∀ id ∈ d.knownIds [], (before ++ d.controls).Binds id
  sourced : ∀ kid ∈ d.kids, ∃ k below, kid.source = some (k, below) ∧ (tree k below).AllBound

/-- Kids with the same cores are as well served. -/
theorem Draft.Served.of_core {before : Forest NodeKind} {d : Draft} (h : d.Served before)
    {kids : List Kid} (hcore : kids.map Kid.core = d.kids.map Kid.core) :
    Draft.Served before { d with kids := kids } := by
  refine ⟨h.bound, fun id hid => h.served id (knownIds_of_core hcore ▸ hid), fun kid hkid => ?_⟩
  have hmem : kid.core ∈ d.kids.map Kid.core := hcore ▸ List.mem_map_of_mem hkid
  obtain ⟨old, hold, he⟩ := List.mem_map.1 hmem
  have hsource : old.source = kid.source := congrArg (·.2.2) he
  exact hsource ▸ h.sourced old hold

/-- More controls serve no less. -/
theorem Draft.Served.draw {before : Forest NodeKind} {d : Draft} (h : d.Served before)
    {controls : Forest NodeKind} (hcontrols : controls.AllBound) :
    Draft.Served before { d with controls := d.controls ++ controls } := by
  refine ⟨h.bound.append hcontrols, fun id hid => ?_, h.sourced⟩
  rw [← Forest.append_assoc]
  exact (h.served id hid).append_left controls

/-- All that an element has been filled with: its controls have binds, and its binds controls. -/
structure Draft.Complete (d : Draft) : Prop where
  bound : d.controls.AllBound
  served : ∀ b ∈ (Kid.forest d.kids).labels, d.controls.Binds b.id

namespace Sketch

variable {α β : Type} {g : Generator} {deep : Prop}

/-- A sketch leaves all binds with controls that can be copied, and all controls with binds. -/
def Serves (deep : Prop) (p : Sketch α) : Prop :=
  ∀ (before : Forest NodeKind) (d : Draft) (s : Synthesis), d.Inside deep → d.Served before →
    s.Fine → p.Ends d s fun _ d' s' => d'.place = d.place ∧ d'.Served before ∧ s'.Fine

/-- What a sketch fills an element with has all its binds and controls. -/
def Completes (deep : Prop) (p : Sketch α) : Prop :=
  ∀ (d : Draft) (s : Synthesis), d.Inside deep → d.kids = [] → d.controls = .nil → s.Fine →
    p.Ends d s fun _ d' s' => d'.Complete ∧ s'.Fine

/-- What a declaration is given: new kids, what is in them having controls; for the kids themselves
that is `Covers`. -/
structure Declared (d d' : Draft) (s' : Synthesis) : Prop where
  place : d'.place = d.place
  fine : s'.Fine
  bound : d'.controls.AllBound
  kids : ∃ new, d'.kids = d.kids ++ new ∧ ∀ kid ∈ new, kid.source = none ∧
    ∀ b ∈ kid.below.labels, d'.controls.Binds b.id

def Declares (p : Sketch α) : Prop :=
  ∀ (d : Draft) (s : Synthesis), d.controls = .nil → s.Fine →
    p.Ends d s fun _ d' s' => Declared d d' s'

theorem hasItsBind_repeatTrigger (id suffix label : String) (action : Action) :
    (NodeKind.control (Generator.repeatTrigger id suffix label action)).hasItsBind = true := rfl

namespace Serves

variable {p : Sketch α}

theorem pure (a : α) : Serves deep (Pure.pure a : Sketch α) := fun _ _ _ _ hd hs => ⟨rfl, hd, hs⟩

theorem bind {q : α → Sketch β} (hp : Serves deep p) (hq : ∀ a, Serves deep (q a)) :
    Serves deep (p >>= q) := by
  intro before d s hin hd hs
  rw [ends_bind]
  refine (hp before d s hin hd hs).mono fun a d' s' ⟨hplace, hd', hs'⟩ => ?_
  exact (hq a before d' s' (hin.of_place hplace) hd' hs').mono
    fun _ _ _ ⟨hplace', h⟩ => ⟨hplace'.trans hplace, h⟩

/-- After a step that leaves all fine, and what it gives. -/
theorem lifted {f : Synth β} {k : β → Sketch α} (hf : Mild f) (R : β → Prop)
    (hR : ∀ s : Synthesis, s.Fine → R (f s).1) (hk : ∀ b, R b → Serves deep (k b)) :
    Serves deep (liftM f >>= k) := fun before d s hin hd hs =>
  hk _ (hR s hs) before d _ hin hd (hf s hs)

theorem after {f : Synth β} (hf : Mild f) {k : β → Sketch α} (hk : ∀ b, Serves deep (k b)) :
    Serves deep (liftM f >>= k) := lifted hf (fun _ => True) (fun _ _ => trivial) fun b _ => hk b

theorem look {k : Draft → Sketch α} (hk : ∀ d, d.Inside deep → Serves deep (k d)) :
    Serves deep (get >>= k) := fun before d s hin => hk d hin before d s hin

theorem leaves {cs : List Control} (hcs : ∀ c ∈ cs, (NodeKind.control c).hasItsBind = true) :
    Serves deep (Sketch.leaves cs) := fun _ _ _ _ hd hs =>
  ⟨rfl, hd.draw (Forest.allBound_leaves hcs), hs⟩

theorem within (hp : Serves deep p) {cs : List Control} {c : Control}
    (hcs : ∀ c ∈ cs, (NodeKind.control c).hasItsBind = true)
    (hc : (NodeKind.control c).hasItsBind = true) : Serves deep (Sketch.within cs c p) := by
  intro before d s hin hd hs
  rw [ends_within]
  have hinner : Draft.Served (before ++ d.controls) { d with controls := .nil } :=
    ⟨Forest.allBound_nil, fun id hid => (hd.served id hid).append_left _, hd.sourced⟩
  refine (hp _ { d with controls := .nil } s ⟨hin.own, hin.governed⟩ hinner hs).mono
    fun a d' s' ⟨hplace, hd', hs'⟩ => ⟨hplace, ⟨?_, fun id hid => ?_, hd'.sourced⟩, hs'⟩
  · exact hd.bound.append ((Forest.allBound_leaves hcs).append (hd'.bound.tree hc))
  · have hserved := hd'.served id hid
    rw [Forest.binds_append, Forest.binds_append] at hserved
    rw [Forest.binds_append, Forest.binds_append, Forest.binds_append]
    rcases hserved with (h | h) | h
    · exact .inl h
    · exact .inr (.inl h)
    · exact .inr (.inr (.inr (h.tree _)))

theorem inside (hp : Serves deep p) {c : Control} (hc : (NodeKind.control c).hasItsBind = true) :
    Serves deep (Sketch.within [] c p) := hp.within (fun _ hc => absurd hc List.not_mem_nil) hc

/-- The binds of a declaration are given controls that can be copied. -/
theorem slot (hp : Declares p) (hcovers : p.Covers) : Serves deep (Sketch.slot p) := by
  intro before d s hin hd hs
  rw [ends_slot]
  have hsettled : Settled d.kids := fun kid hkid => by
    obtain ⟨k, below, hsource, -⟩ := hd.sourced kid hkid
    exact Option.isSome_of_eq_some hsource
  have hboth : p.Ends { d with controls := .nil } s fun _ d' s' =>
      Declared { d with controls := .nil } d' s' ∧ ∀ kid ∈ d'.kids, kid.source.isSome ∨
        (d'.controls.find (·.isBoundTo kid.bind.id)).isSome :=
    ⟨hp { d with controls := .nil } s rfl hs, hcovers { d with controls := .nil } s hsettled rfl⟩
  refine hboth.mono fun a d' s' ⟨⟨hplace, hs', hbound, new, hkids, hnew⟩, hfound⟩ => ?_
  have hfind {kid : Kid} (hkid : kid ∈ new) :
      (d'.controls.find (·.isBoundTo kid.bind.id)).isSome := by
    refine (hfound kid (hkids ▸ List.mem_append_right _ hkid)).resolve_left ?_
    rw [(hnew kid hkid).1]
    exact Bool.false_ne_true
  have hserved : ∀ id ∈ d'.knownIds [], (before ++ (d.controls ++ d'.controls)).Binds id := by
    intro id hid
    obtain ⟨b, hb, rfl⟩ := List.mem_map.1 hid
    have hb : b ∈ (Kid.forest d'.kids).labels := hb
    rw [hkids, Kid.forest_append, Forest.labels_append, List.mem_append] at hb
    rcases hb with hb | hb
    · rw [← Forest.append_assoc]
      exact (hd.served b.id (List.mem_map_of_mem hb)).append_left _
    · rw [Kid.labels_forest, List.mem_flatMap] at hb
      obtain ⟨kid, hkid, hb⟩ := hb
      refine ((?_ : d'.controls.Binds b.id).append_right _).append_right _
      rcases List.mem_cons.1 hb with rfl | hb
      · exact Forest.binds_of_find (hfind hkid)
      · exact (hnew kid hkid).2 b hb
  refine ⟨hplace, ⟨hd.bound.append hbound, fun id hid => hserved id ?_, fun kid hkid => ?_⟩, hs'⟩
  · simpa only [Draft.knownIds, Draft.known, forest_settle] using hid
  · obtain ⟨old, hold, rfl⟩ := List.mem_map.1 hkid
    rw [hkids, List.mem_append] at hold
    rcases hold with hold | hold
    · obtain ⟨k, below, hsource, hlabels⟩ := hd.sourced old hold
      rw [settle_of_isSome (Option.isSome_of_eq_some hsource)]
      exact ⟨k, below, hsource, hlabels⟩
    · obtain ⟨⟨k, below⟩, hsource⟩ := Option.isSome_iff_exists.1 (hfind hold)
      refine ⟨k, below, ?_, fun k' hk' => ?_⟩
      · rw [settle, if_pos (Option.isNone_iff_eq_none.2 (hnew old hold).1)]
        exact hsource
      · obtain ⟨hmem, hsub, -⟩ := Forest.find_mem hsource
        simp only [Forest.tree, Forest.labels_cons, Forest.labels_nil, List.append_nil,
          List.mem_cons] at hk'
        rcases hk' with rfl | hk'
        · exact hbound k' hmem
        · exact hbound k' (hsub k' hk')

/-- A step that changes no identifier, no nodeset and no source of the kids. -/
theorem recast {F : Draft → List Kid} (hF : ∀ d, (F d).map Kid.core = d.kids.map Kid.core) :
    Serves deep (modify fun d => { d with kids := F d }) := fun _ d _ _ hd hs =>
  ⟨rfl, hd.of_core (hF d), hs⟩

theorem repeatOf (hp : Serves deep p) (id : String) {bind : Option String} (h : bind.isSome) :
    Serves deep (Sketch.repeatOf id bind p) := by
  refine .after (Mild.reportUngoverned id h) fun _ => .after (Mild.repeatActions id bind) fun _ => ?_
  refine hp.within (fun c hc => ?_) ?_
  · obtain ⟨_, -, rfl⟩ := List.mem_map.1 hc
    exact hasItsBind_repeatTrigger ..
  · simp [NodeKind.hasItsBind, h]

theorem items (hp : Serves deep p) {bind : Option String} (h : bind.isSome) (occurs : Occurs) :
    Serves deep (Sketch.items bind occurs p) := by
  unfold Sketch.items
  split
  · exact .after (Mild.allocate "repeat") fun id => hp.repeatOf id h
  · exact hp

theorem groupItems (hp : Serves True p) (occurs : Occurs) :
    Serves True (Sketch.groupItems occurs p) := by
  unfold Sketch.groupItems
  split
  · exact .after (Mild.allocate "repeat") fun id => .look fun d hin => hp.repeatOf id hin.governing
  · exact hp

theorem completes (hp : Serves deep p) : Completes deep p := by
  intro d s hin hkids hcontrols hs
  have hd : d.Served .nil := by
    refine ⟨hcontrols ▸ Forest.allBound_nil, fun id hid => ?_, fun kid hkid => ?_⟩
    · simp [Draft.knownIds, Draft.known, hkids, Kid.forest] at hid
    · rw [hkids] at hkid
      cases hkid
  refine (hp .nil d s hin hd hs).mono fun _ d' s' h => ?_
  obtain ⟨-, hd', hs'⟩ := h
  refine ⟨⟨hd'.bound, fun b hb => ?_⟩, hs'⟩
  have hserved := hd'.served b.id (List.mem_map_of_mem hb)
  rwa [Forest.nil_append] at hserved

end Serves

namespace Declares

variable {p : Sketch α}

/-- Nothing is declared. -/
theorem still {d : Draft} {s : Synthesis} (hd : d.controls = .nil) (hs : s.Fine) :
    Declared d d s where
  place := rfl
  fine := hs
  bound := by
    rw [hd]
    exact Forest.allBound_nil
  kids := ⟨[], (List.append_nil _).symm, fun _ hkid => absurd hkid List.not_mem_nil⟩

theorem pure (a : α) : Declares (Pure.pure a : Sketch α) := fun _ _ hd hs => still hd hs

theorem after {f : Synth β} (hf : Mild f) {k : β → Sketch α} (hk : ∀ b, Declares (k b)) :
    Declares (liftM f >>= k) := fun d s hd hs => hk _ d _ hd (hf s hs)

/-- Before a step that does not see the draft. -/
theorem before {q : α → Sketch β} (hp : Declares p) (hq : ∀ a d s, s.Fine →
    (q a).Ends d s fun _ d' s' => d' = d ∧ s'.Fine) : Declares (p >>= q) := by
  intro d s hd hs
  rw [ends_bind]
  refine (hp d s hd hs).mono fun a d' s' h => (hq a d' s' h.fine).mono fun _ d'' s'' ⟨hd'', hs''⟩ => ?_
  rw [hd'']
  exact { h with fine := hs'' }

/-- A bind around what is filled in; where there are repeats, it has to be that of an element. -/
theorem withKid {nodeset : String} (b : Bind) (hdeep : deep → ¬ nodeset.startsWith "@" = true)
    (hp : Completes deep p) : Declares (Sketch.withKid b nodeset p) := by
  intro d s hd hs
  rw [ends_withKid]
  intro id kid
  have hin : Draft.Inside deep
      { own := some id, above := Kid.lastElement (d.kids ++ [kid]),
        around := Draft.governing { d with kids := d.kids ++ [kid] }, kids := [],
        controls := d.controls, copies := d.copies } := by
    refine ⟨rfl, fun h => ?_⟩
    have hlast : (Kid.lastElement (d.kids ++ [kid])).isSome := Kid.isSome_lastElement (hdeep h) d.kids
    obtain ⟨last, hlast⟩ := Option.isSome_iff_exists.1 hlast
    simp only [Draft.governing, hlast]
    exact ⟨rfl, rfl⟩
  refine (hp _ _ hin rfl hd (Mild.allocate "bind" s hs)).mono fun a d' s' h => ?_
  obtain ⟨⟨hbound, hserved⟩, hs'⟩ := h
  refine { place := rfl, fine := hs', bound := hbound, kids := ⟨_, rfl, fun kid' hkid' => ?_⟩ }
  rw [List.mem_singleton.1 hkid']
  exact ⟨rfl, hserved⟩

/-- A bind without binds in it, in front of what is declared. -/
theorem behindKid {q : String → Sketch α} (b : Bind) (nodeset : String)
    (hq : ∀ id, Declares (q id)) : Declares (Sketch.withKid b nodeset ownId >>= q) := by
  intro d s hd hs
  rw [ends_bind, ends_withKid]
  intro id kid
  rw [ownId, ends_bind, ends_get, ends_pure]
  have hmore := hq id { d with kids := d.kids ++ [{ kid with below := .nil }] } (allocate "bind" s).2 hd
    (Mild.allocate "bind" s hs)
  refine hmore.mono fun _ d' s' ⟨hplace, hs', hbound, new, hkids, hnew⟩ =>
    { place := hplace, fine := hs', bound := hbound, kids := ⟨{ kid with below := .nil } :: new, ?_, ?_⟩ }
  · rw [hkids, List.append_assoc]
    rfl
  · rw [List.forall_mem_cons]
    exact ⟨⟨rfl, fun b hb => absurd hb List.not_mem_nil⟩, hnew⟩

end Declares

/-! Fields. -/

/-- What is complete is so inside another control. -/
theorem within_complete {p : Sketch α} {d : Draft} {s : Synthesis} {cs : List Control} {c : Control}
    (h : p.Ends { d with controls := .nil } s fun _ d' s' => d'.Complete ∧ s'.Fine)
    (hd : d.controls = .nil) (hcs : ∀ c ∈ cs, (NodeKind.control c).hasItsBind = true)
    (hc : (NodeKind.control c).hasItsBind = true) :
    (Sketch.within cs c p).Ends d s fun _ d' s' => d'.Complete ∧ s'.Fine := by
  rw [ends_within]
  refine h.mono fun a d' s' ⟨hd', hs'⟩ => ⟨⟨?_, fun b hb => ?_⟩, hs'⟩
  · rw [hd, Forest.nil_append]
    exact (Forest.allBound_leaves hcs).append (hd'.bound.tree hc)
  · exact (((hd'.served b hb).tree _).append_right _).append_right _

/-- What is complete for each item is so inside a repeat that a bind governs. -/
theorem repeated_complete {p : Sketch α} {d : Draft} {s : Synthesis} {bind : Option String}
    (hbind : bind.isSome) (h : ∀ s : Synthesis, s.Fine →
      p.Ends { d with controls := .nil } s fun _ d' s' => d'.Complete ∧ s'.Fine)
    (hd : d.controls = .nil) (hs : s.Fine) :
    (Sketch.repeated bind p).Ends d s fun _ d' s' => d'.Complete ∧ s'.Fine := by
  rw [repeated, ends_bind, ends_lift, repeatOf, ends_bind, ends_lift, ends_bind, ends_lift]
  have hs₁ := Mild.reportUngoverned (allocate "repeat" s).1 hbind _ (Mild.allocate "repeat" s hs)
  refine within_complete (h _ (Mild.repeatActions _ bind _ hs₁)) hd (fun c hc => ?_) ?_
  · obtain ⟨_, -, rfl⟩ := List.mem_map.1 hc
    exact hasItsBind_repeatTrigger ..
  · simp [NodeKind.hasItsBind, hbind]

/-- What is drawn for a value is one control of the bind around it. -/
theorem valueControl_draws (t : TypeId) (owner : Generator.Owner) {id : String} {d : Draft}
    {s : Synthesis} (hown : d.own = some id) (hd : d.controls = .nil) (hs : s.Fine) :
    (valueControl g t owner).Ends d s fun _ d' s' => s'.Fine ∧ d'.kids = d.kids ∧
      d'.controls.AllBound ∧ d'.controls.Binds id := by
  let c : Control := { (g.fieldControl t (d.own.getD "") s).1 with
    label := some (caption owner.name), hint := owner.hint }
  have hc : c.bind = some id :=
    (fieldControl_spec g t (d.own.getD "") s).2.2.trans (by rw [hown]; rfl)
  have hlabels : (d.controls ++ .leaves [NodeKind.control c]).labels = [.control c] := by
    rw [hd, Forest.nil_append, Forest.labels_leaves]
  refine ⟨Mild.fieldControl t _ s hs, rfl, fun k hk => ?_, .control c, ?_, ?_⟩
  · have hk : k = .control c := List.mem_singleton.1 (hlabels ▸ hk)
    simp [hk, NodeKind.hasItsBind, hc]
  · exact hlabels.symm ▸ List.mem_singleton_self _
  · simp [NodeKind.isBoundTo, NodeKind.control?, hc]

/-- A bind with one control is complete. -/
theorem item_complete (b : Bind) (t : TypeId) (owner : Generator.Owner) (path : String) {d : Draft}
    {s : Synthesis} (hkids : d.kids = []) (hd : d.controls = .nil) (hs : s.Fine) :
    (withKid b path (valueControl g t owner)).Ends d s fun _ d' s' => d'.Complete ∧ s'.Fine := by
  rw [ends_withKid]
  intro id kid
  have hdraws := valueControl_draws (g := g) t owner
    (d := { own := some id, above := Kid.lastElement (d.kids ++ [kid]),
            around := Draft.governing { d with kids := d.kids ++ [kid] }, kids := [],
            controls := d.controls, copies := d.copies }) rfl hd (Mild.allocate "bind" s hs)
  refine hdraws.mono fun _ d' s' ⟨hs', hkids', hbound, hbinds⟩ => ⟨⟨hbound, fun b' hb' => ?_⟩, hs'⟩
  rw [hkids', hkids] at hb'
  have hb' : b' = kid.bind := by simpa [Kid.forest] using hb'
  rw [hb']
  exact hbinds

/-- A field that may occur more than once is that of an element. -/
theorem field_declares (t : TypeId) (owner : Generator.Owner) (path : String) (occurs : Occurs)
    (hpath : occurs.isMultiple = true → ¬ path.startsWith "@" = true) :
    Declares (field g t owner path occurs) := by
  refine .withKid _ hpath fun d s hin hkids hd hs => ?_
  split
  · next hmultiple =>
    rw [ends_bind, ends_get, ends_bind, ends_lift]
    refine within_complete (repeated_complete (hin.governed hmultiple).2 (fun s hs => ?_) rfl
      (Mild.allocate "group" s hs)) hd (fun _ hc => absurd hc List.not_mem_nil)
      (by simp [NodeKind.hasItsBind, hin.own])
    exact item_complete _ t owner "." hkids rfl hs
  · obtain ⟨id, hown⟩ := Option.isSome_iff_exists.1 hin.own
    refine (valueControl_draws t owner hown hd hs).mono fun _ d' s' ⟨hs', hkids', hbound, _⟩ =>
      ⟨⟨hbound, fun b hb => ?_⟩, hs'⟩
    rw [hkids', hkids] at hb
    cases hb

end Sketch

end SchemaForms
