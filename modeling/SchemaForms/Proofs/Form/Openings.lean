import SchemaForms.Form.Generate
import SchemaForms.Proofs.Schema.Chains

/-!
Expansions under way.  An element of a complex type opens an expansion and closes it again, and an
expansion that is under way is not opened a second time.  So there are never more expansions open
than elements declared, and the bound that `addElement` is given is never used up.
-/

namespace SchemaForms

open Synthesis
open Xml (Element)

/-- Whether an anomaly says that an element recurs into itself. -/
def Anomaly.isRecursion : Anomaly → Bool
  | .recursiveType _ _ => true
  | _ => false

namespace Synthesis

/-- The elements that have been left out because they recur into themselves. -/
def recursions (s : Synthesis) : List Anomaly := s.anomalies.filter (·.isRecursion)

end Synthesis

/-- A step that opens and closes no expansion and leaves no element out because it recurs. -/
def Steady {α : Type} (p : Synth α) : Prop :=
  ∀ s, (p s).2.expanding = s.expanding ∧ (p s).2.recursions = s.recursions

namespace Steady

variable {α β : Type}

theorem pure (a : α) : Steady (pure a : Synth α) := fun _ => ⟨rfl, rfl⟩

theorem bind {p : Synth α} {k : α → Synth β} (hp : Steady p) (hk : ∀ a, Steady (k a)) :
    Steady (p >>= k) := by
  intro s
  obtain ⟨hstack, hleft⟩ := hp s
  obtain ⟨hstack', hleft'⟩ := hk (p s).1 (p s).2
  exact ⟨hstack'.trans hstack, hleft'.trans hleft⟩

theorem map {p : Synth α} (f : α → β) (hp : Steady p) : Steady (f <$> p) :=
  hp.bind fun a => .pure (f a)

theorem get : Steady (get : Synth Synthesis) := fun _ => ⟨rfl, rfl⟩

theorem allocate (name : String) : Steady (allocate name) := fun _ => ⟨rfl, rfl⟩

theorem onTree (f : Tree → α × Tree) : Steady (onTree f) := fun _ => ⟨rfl, rfl⟩

theorem deepCopy (id : NodeId) : Steady (deepCopy id) := fun _ => ⟨rfl, rfl⟩

theorem swapReused (binds : List NodeId) : Steady (swapReused binds) := fun _ => ⟨rfl, rfl⟩

theorem report {a : Anomaly} (ha : a.isRecursion = false) : Steady (report a) := by
  intro s
  have hleft : (s.anomalies ++ [a]).filter (·.isRecursion) = s.recursions := by
    simp [ha, recursions]
  exact ⟨rfl, hleft⟩

theorem noteReused (bind : NodeId) : Steady (noteReused bind) := by
  intro s
  have hnote : (Synthesis.noteReused bind s).2 =
      if s.reused.contains bind then s else { s with reused := s.reused ++ [bind] } := rfl
  rw [hnote]
  split
  · exact ⟨rfl, rfl⟩
  · exact ⟨rfl, rfl⟩

theorem qualified (name : QName) : Steady (qualified name) := by
  intro s
  unfold Synthesis.qualified
  cases name.nspace with
  | none => exact ⟨rfl, rfl⟩
  | some ns => exact ⟨rfl, rfl⟩

section Generator

variable (g : Generator)

theorem addBind (scope : NodeId) (b : Bind) (nodeset : String) :
    Steady (Generator.addBind scope b nodeset) :=
  (allocate _).bind fun _ => (onTree _).bind fun _ => (onTree _).bind fun _ => .pure _

theorem place (area control : NodeId) : Steady (g.place area control) :=
  (onTree _).bind fun _ => onTree _

theorem addControl (area : NodeId) (c : Control) : Steady (g.addControl area c) :=
  (onTree _).bind fun _ => (place g _ _).bind fun _ => .pure _

theorem contentOf (group : NodeId) : Steady (g.contentOf group) := onTree _

theorem typeValue (t : TypeId) : Steady (g.typeValue t) := by
  unfold Generator.typeValue
  split
  · exact (qualified _).bind fun _ => .pure _
  · exact .pure _

/-! Repeats. -/

theorem repeatActions (repeatId : String) (bind : Option String) :
    Steady (Generator.repeatActions repeatId bind) :=
  (allocate _).bind fun _ => (allocate _).bind fun _ => (allocate _).bind fun _ => .pure _

theorem reportUngoverned (repeatId : String) (bind : Option String) :
    Steady (Generator.reportUngoverned repeatId bind) := by
  cases bind with
  | none => exact report rfl
  | some id => exact .pure ()

theorem addTriggers (container : NodeId) (cs : List Control) :
    Steady (Generator.addTriggers container cs) := by
  induction cs with
  | nil => exact .pure ()
  | cons c cs ih => exact (onTree _).bind fun _ => (onTree _).bind fun _ => ih

theorem addTriggerRow (area : NodeId) (cs : List Control) : Steady (g.addTriggerRow area cs) := by
  cases cs with
  | nil => exact .pure ()
  | cons c cs =>
    exact (onTree _).bind fun _ => (onTree _).bind fun _ => (onTree _).bind fun _ =>
      addTriggers _ cs

theorem addRepeat (spot : Spot) : Steady (g.addRepeat spot) :=
  (allocate _).bind fun _ => get.bind fun _ => (reportUngoverned _ _).bind fun _ =>
    (repeatActions _ _).bind fun _ => (onTree _).bind fun _ => (addTriggerRow g _ _).bind fun _ =>
      (place g _ _).bind fun _ => .pure _

theorem itemsArea (spot : Spot) (occurs : Occurs) : Steady (g.itemsArea spot occurs) := by
  unfold Generator.itemsArea
  split
  · exact (addRepeat g spot).bind fun _ => contentOf g _
  · exact .pure _

/-! Fields. -/

theorem choicesFor (values : List String) : Steady (Generator.choicesFor values) := by
  induction values with
  | nil => exact .pure _
  | cons v vs ih => exact (allocate _).bind fun _ => ih.bind fun _ => .pure _

theorem fieldControl (t : TypeId) (bind : String) : Steady (g.fieldControl t bind) := by
  unfold Generator.fieldControl
  split
  · exact (allocate _).bind fun _ => .pure _
  · split
    · exact (allocate _).bind fun _ => (choicesFor _).bind fun _ => .pure _
    · split
      · exact (allocate _).bind fun _ => .pure _
      · exact (allocate _).bind fun _ => (choicesFor _).bind fun _ => .pure _

theorem valueSpot (spot : Spot) (bind : BindRef) (type : Option String) (owner : Generator.Owner)
    (occurs : Occurs) : Steady (g.valueSpot spot bind type owner occurs) := by
  unfold Generator.valueSpot
  split
  · exact (allocate _).bind fun _ => (addControl g _ _).bind fun _ => (contentOf g _).bind fun _ =>
      (addRepeat g _).bind fun _ => (contentOf g _).bind fun _ => (addBind _ _ _).bind fun _ =>
        .pure _
  · exact .pure _

theorem addField (spot : Spot) (t : TypeId) (owner : Generator.Owner) (path : String)
    (occurs : Occurs) : Steady (g.addField spot t owner path occurs) :=
  (addBind _ _ _).bind fun _ => (valueSpot g _ _ _ _ _).bind fun _ =>
    (fieldControl g _ _).bind fun _ => (addControl g _ _).bind fun _ => .pure _

/-! Reuse and relevance. -/

theorem reuse (spot : Spot) (nodeset : String) : Steady (g.reuse spot nodeset) := by
  apply get.bind
  intro s
  split
  · exact .pure _
  · apply get.bind
    intro s
    split
    · exact (report rfl).bind fun _ => .pure _
    · exact (deepCopy _).bind fun _ => (place g _ _).bind fun _ => (noteReused _).bind fun _ =>
        .pure _

theorem reuses (f : Generator.Filling) (isInherited : Bool) (area : NodeId) (nodeset : String) :
    Steady (g.reuses f isInherited area nodeset) := by
  unfold Generator.reuses
  split
  · exact reuse g _ _
  · exact .pure _

theorem typeConditions (ts : List TypeId) : Steady (g.typeConditions ts) := by
  induction ts with
  | nil => exact .pure _
  | cons t ts ih => exact (typeValue g t).bind fun _ => ih.bind fun _ => .pure _

theorem guardBinds (existing reused : List NodeId) (conditions : List String)
    (ids : List NodeId) : Steady (Generator.guardBinds existing reused conditions ids) := by
  induction ids with
  | nil => exact .pure ()
  | cons id ids ih => exact (onTree _).bind fun _ => ih

theorem applyRelevance (bind : NodeId) (existing reused : List NodeId) (t : TypeId) :
    Steady (g.applyRelevance bind existing reused t) :=
  (typeConditions g _).bind fun _ => get.bind fun _ => guardBinds _ _ _ _

/-! Content. -/

theorem addText (f : Generator.Filling) (t : ComplexType) (area : NodeId) :
    Steady (g.addText f t area) := by
  unfold Generator.addText
  split
  · exact addField g _ _ _ _ _
  · exact addField g _ _ _ _ _
  · exact .pure ()

theorem addUse (f : Generator.Filling) (area : NodeId) (e : Element) (id : UseId) :
    Steady (g.addUse f area e id) := by
  apply (qualified _).bind
  intro _
  apply (reuses g _ _ _ _).bind
  intro reused
  split
  · exact .pure _
  · split
    · exact (report rfl).bind fun _ => .pure _
    · exact (addField g _ _ _ _ _).bind fun _ => .pure _

theorem addUses (f : Generator.Filling) (area : NodeId) (e : Element) (ids : List UseId) :
    Steady (g.addUses f area e ids) := by
  induction ids generalizing e with
  | nil => exact .pure _
  | cons id ids ih => exact (addUse g f area e id).bind fun e => ih e

theorem typeChoices (ts : List TypeId) : Steady (g.typeChoices ts) := by
  induction ts with
  | nil => exact .pure _
  | cons t ts ih =>
    exact (allocate _).bind fun _ => (allocate _).bind fun _ => (allocate _).bind fun _ =>
      (allocate _).bind fun _ => (typeValue g t).bind fun _ => ih.bind fun _ => .pure _

theorem promptChoice (label : String) (count : Nat) : Steady (g.promptChoice label count) := by
  unfold Generator.promptChoice
  split
  · exact (allocate _).bind fun _ => .pure _
  · exact .pure _

end Generator

end Steady

/-- What is said about the states before and after a step: it holds of steady steps, of one step
after another, and of an expansion where it holds of what is done inside. -/
structure Account (R : Synthesis → Synthesis → Prop) : Prop where
  steady : ∀ {s s' : Synthesis}, s'.expanding = s.expanding → s'.recursions = s.recursions → R s s'
  trans : ∀ {s s' s'' : Synthesis}, R s s' → R s' s'' → R s s''
  level : ∀ {s s' : Synthesis}, R s s' → s'.expanding = s.expanding
  opened : ∀ {s s' : Synthesis} {x : ElementId × TypeId},
    R { s with expanding := x :: s.expanding } s' →
      R s { s' with expanding := s'.expanding.tail }

/-- The expansions under way are the same afterwards. -/
def SameStack (s s' : Synthesis) : Prop := s'.expanding = s.expanding

/-- Besides, nothing has been left out because it recurs. -/
def NoneLeftOut (s s' : Synthesis) : Prop :=
  s'.expanding = s.expanding ∧ s'.recursions = s.recursions

theorem sameStack_account : Account SameStack where
  steady h _ := h
  trans h h' := Eq.trans h' h
  level h := h
  opened h := congrArg List.tail h

theorem noneLeftOut_account : Account NoneLeftOut where
  steady h h' := ⟨h, h'⟩
  trans h h' := ⟨h'.1.trans h.1, h'.2.trans h.2⟩
  level h := h.1
  opened h := ⟨congrArg List.tail h.1, h.2⟩

/-- Two steps do the same, and give account of it, while some expansions are under way. -/
def Agree {α : Type} (R : Synthesis → Synthesis → Prop) (stack : List (ElementId × TypeId))
    (p q : Synth α) : Prop :=
  ∀ s, s.expanding = stack → p s = q s ∧ R s (p s).2

section Agree

variable {α β : Type} {R : Synthesis → Synthesis → Prop} {stack : List (ElementId × TypeId)}

theorem Steady.agree (hR : Account R) {p : Synth α} (hp : Steady p) : Agree R stack p p :=
  fun s _ => ⟨rfl, hR.steady (hp s).1 (hp s).2⟩

theorem Agree.bind (hR : Account R) {p q : Synth α} {k k' : α → Synth β}
    (hp : Agree R stack p q) (hk : ∀ a, Agree R stack (k a) (k' a)) :
    Agree R stack (p >>= k) (q >>= k') := by
  intro s hs
  obtain ⟨heq, hr⟩ := hp s hs
  obtain ⟨heq', hr'⟩ := hk (p s).1 (p s).2 ((hR.level hr).trans hs)
  constructor
  · change k (p s).1 (p s).2 = k' (q s).1 (q s).2
    rw [heq', heq]
  · exact hR.trans hr hr'

/-- A steady step before what agrees. -/
theorem Agree.after (hR : Account R) {p : Synth α} {k k' : α → Synth β} (hp : Steady p)
    (hk : ∀ a, Agree R stack (k a) (k' a)) : Agree R stack (p >>= k) (p >>= k') :=
  (hp.agree hR).bind hR hk

/-- What agrees before a steady step. -/
theorem Agree.then (hR : Account R) {p q : Synth α} {k : α → Synth β} (hp : Agree R stack p q)
    (hk : ∀ a, Steady (k a)) : Agree R stack (p >>= k) (q >>= k) :=
  hp.bind hR fun a => (hk a).agree hR

end Agree

namespace Generator

/-- Two ways to add children do the same while some expansions are under way. -/
def ChildrenAgree (R : Synthesis → Synthesis → Prop) (stack : List (ElementId × TypeId))
    (child child' : ChildAdder) : Prop :=
  ∀ spot e id path occurs,
    Agree R stack (child spot e id path occurs) (child' spot e id path occurs)

section Content

variable {R : Synthesis → Synthesis → Prop} {stack : List (ElementId × TypeId)}
  {child child' : ChildAdder} (g : Generator)

theorem addChildElement_agree (hR : Account R) (hc : ChildrenAgree R stack child child')
    (f : Filling) (area : NodeId) (e : Element) (id : ElementId) (occurs : Occurs) :
    Agree R stack (g.addChildElement child f area e id occurs)
      (g.addChildElement child' f area e id occurs) := by
  unfold addChildElement
  split
  · exact (Steady.pure e).agree hR
  · apply Agree.after hR (.qualified _)
    intro name
    apply Agree.after hR (.reuses g _ _ _ _)
    intro reused
    split
    · exact (Steady.pure e).agree hR
    · apply (hc _ _ _ _ _).then hR
      intro data
      cases data with
      | none => exact .pure e
      | some data => exact .pure _

mutual

theorem addParticle_agree (hR : Account R) (hc : ChildrenAgree R stack child child')
    (f : Filling) (area : NodeId) (e : Element) (p : Particle) :
    Agree R stack (g.addParticle child f area e p) (g.addParticle child' f area e p) := by
  cases p with
  | element occurs id => exact addChildElement_agree g hR hc f area e id occurs
  | group occurs c members =>
    apply Agree.after hR (.itemsArea g _ _)
    intro area
    exact addParticles_agree hR hc f area e members
  | wildcard =>
    exact ((Steady.report rfl).bind fun _ => .pure e).agree hR

theorem addParticles_agree (hR : Account R) (hc : ChildrenAgree R stack child child')
    (f : Filling) (area : NodeId) (e : Element) (ps : List Particle) :
    Agree R stack (g.addParticles child f area e ps) (g.addParticles child' f area e ps) := by
  cases ps with
  | nil => exact (Steady.pure e).agree hR
  | cons p ps =>
    apply (addParticle_agree hR hc f area e p).bind hR
    intro e
    exact addParticles_agree hR hc f area e ps

end

theorem addComplex_agree (hR : Account R) (hc : ChildrenAgree R stack child child')
    (f : Filling) (area : NodeId) (e : Element) (occurs : Occurs) :
    Agree R stack (g.addComplex child f area e occurs) (g.addComplex child' f area e occurs) := by
  unfold addComplex
  split
  · exact (Steady.pure e).agree hR
  · next t _ =>
    apply Agree.after hR .get
    intro s
    apply Agree.after hR (.allocate _)
    intro id
    apply Agree.after hR (.addControl g _ _)
    intro group
    apply Agree.after hR (.contentOf g _)
    intro content
    apply Agree.after hR .get
    intro s
    apply Agree.after hR (.itemsArea g _ _)
    intro area
    apply Agree.after hR (.addText g _ _ _)
    intro _
    apply Agree.after hR (.addUses g _ _ _ _)
    intro e
    unfold addContentModel
    split
    · exact addParticle_agree g hR hc f area e _
    · exact (Steady.pure e).agree hR

theorem addCase_agree (hR : Account R) (hc : ChildrenAgree R stack child child')
    (switch bind : NodeId) (owner : ElementId) (declared : TypeId) (isFirst : Bool) (e : Element)
    (t : TypeId) (caseId : String) :
    Agree R stack (g.addCase child switch bind owner declared isFirst e t caseId)
      (g.addCase child' switch bind owner declared isFirst e t caseId) := by
  apply Agree.after hR (.onTree _)
  intro node
  apply Agree.after hR (.onTree _)
  intro _
  apply Agree.after hR (.contentOf g _)
  intro content
  apply Agree.after hR .get
  intro s
  apply Agree.after hR (.swapReused _)
  intro outer
  apply (addComplex_agree g hR hc _ content _ .once).then hR
  intro data
  apply (Steady.swapReused _).bind
  intro reused
  split
  · exact (Steady.applyRelevance g _ _ _ _).bind fun _ => .pure _
  · exact .pure _

theorem addCases_agree (hR : Account R) (hc : ChildrenAgree R stack child child')
    (switch bind : NodeId) (owner : ElementId) (declared : TypeId) (isFirst : Bool) (e : Element)
    (cases : List (TypeId × String)) :
    Agree R stack (g.addCases child switch bind owner declared isFirst e cases)
      (g.addCases child' switch bind owner declared isFirst e cases) := by
  induction cases generalizing isFirst e with
  | nil => exact (Steady.pure e).agree hR
  | cons c cases ih =>
    apply (addCase_agree g hR hc switch bind owner declared isFirst e c.1 c.2).bind hR
    intro e
    exact ih false e

theorem addSwitch_agree (hR : Account R) (hc : ChildrenAgree R stack child child') (spot : Spot)
    (e : Element) (owner : ElementId) (declared : TypeId) (types : List TypeId) (path : String)
    (occurs : Occurs) :
    Agree R stack (g.addSwitch child spot e owner declared types path occurs)
      (g.addSwitch child' spot e owner declared types path occurs) := by
  apply Agree.after hR (.allocate _)
  intro selectId
  apply Agree.after hR (.addBind _ _ _)
  intro typeBind
  apply Agree.after hR (.addBind _ _ _)
  intro bind
  apply Agree.after hR (.itemsArea g _ _)
  intro area
  apply Agree.after hR (.promptChoice g _ _)
  intro prompt
  apply Agree.after hR (.typeChoices g _)
  intro choices
  apply Agree.after hR (.addControl g _ _)
  intro _
  apply Agree.after hR (.allocate _)
  intro triggerId
  apply Agree.after hR (.allocate _)
  intro actionId
  apply Agree.after hR (.allocate _)
  intro dispatchId
  apply Agree.after hR (.onTree _)
  intro trigger
  apply Agree.after hR (.onTree _)
  intro _
  apply Agree.after hR (.allocate _)
  intro switchId
  apply Agree.after hR (.addControl g _ _)
  intro switch
  apply Agree.after hR (.typeValue g _)
  intro first
  exact addCases_agree g hR hc switch bind.node owner declared true _ _

theorem addPlain_agree (hR : Account R) (hc : ChildrenAgree R stack child child') (spot : Spot)
    (e : Element) (owner : ElementId) (declared resolved : TypeId) (path : String)
    (occurs : Occurs) :
    Agree R stack (g.addPlain child spot e owner declared resolved path occurs)
      (g.addPlain child' spot e owner declared resolved path occurs) := by
  have hrest (e : Element) : Agree R stack
      (do
        let bind ← addBind spot.scope {} path
        g.addComplex child ⟨bind.node, resolved, owner, false⟩ spot.area e occurs)
      (do
        let bind ← addBind spot.scope {} path
        g.addComplex child' ⟨bind.node, resolved, owner, false⟩ spot.area e occurs) :=
    Agree.after hR (.addBind _ _ _) fun bind => addComplex_agree g hR hc _ spot.area e occurs
  unfold addPlain
  split
  · exact Agree.after hR (.pure e) hrest
  · exact Agree.after hR (.typeValue g _) fun value => hrest _

/-- Adds an element as the type it is declared with or as its substitutes. -/
def addTyped (child : ChildAdder) (spot : Spot) (e : Element) (id : ElementId) (t : TypeId)
    (path : String) (occurs : Occurs) : Synth Element :=
  match g.candidates t with
  | [] => g.addPlain child spot e id t t path occurs
  | [resolved] => g.addPlain child spot e id t resolved path occurs
  | types => g.addSwitch child spot e id t types path occurs

theorem addTyped_agree (hR : Account R) (hc : ChildrenAgree R stack child child') (spot : Spot)
    (e : Element) (id : ElementId) (t : TypeId) (path : String) (occurs : Occurs) :
    Agree R stack (g.addTyped child spot e id t path occurs)
      (g.addTyped child' spot e id t path occurs) := by
  unfold addTyped
  split
  · exact addPlain_agree g hR hc spot e id t t path occurs
  · exact addPlain_agree g hR hc spot e id t _ path occurs
  · exact addSwitch_agree g hR hc spot e id t _ path occurs

/-! What an element can do. -/

/-- A complex-typed element that is being expanded as its type. -/
structure Recurs (stack : List (ElementId × TypeId)) (id : ElementId) (t : TypeId) : Prop where
  type : (g.schema.element id).type = some t
  complex : (g.schema.complex? t).isSome
  under_way : (id, t) ∈ stack

/-- The anomaly of an element that recurs. -/
def recursion (id : ElementId) (t : TypeId) : Anomaly :=
  .recursiveType (g.schema.element id).name.localName (g.schema.displayName t)

variable {id : ElementId} {t : TypeId} {s : Synthesis} (spot : Spot) (e : Element) (path : String)
  (occurs : Occurs)

theorem expand_untyped (htype : (g.schema.element id).type = none) :
    Steady (g.expand child spot e id path occurs) := by
  unfold expand
  simp only [htype]
  exact (Steady.report rfl).bind fun _ => .pure none

theorem expand_simple (htype : (g.schema.element id).type = some t)
    (hcomplex : ¬ (g.schema.complex? t).isSome) :
    Steady (g.expand child spot e id path occurs) := by
  have hnone : (g.schema.complex? t).isNone = true := by simpa using hcomplex
  unfold expand
  simp only [htype, hnone, if_true]
  exact (Steady.addField g _ _ _ _ _).bind fun _ => .pure _

theorem expand_typed (htype : (g.schema.element id).type = some t)
    (hcomplex : (g.schema.complex? t).isNone = false) :
    g.expand child spot e id path occurs = (do
      if ← enter id t then
        let data ← g.addTyped child spot e id t path occurs
        leave
        return some data
      else
        report (g.recursion id t)
        return none) := by
  unfold expand addTyped
  simp only [htype, hcomplex, Bool.false_eq_true, if_false]
  congr 1
  funext entered
  split
  · cases g.candidates t with
    | nil => rfl
    | cons t ts =>
      cases ts with
      | nil => rfl
      | cons t' ts => rfl
  · rfl

/-- An element that recurs is left out with one anomaly, and nothing else happens. -/
theorem expand_of_recurs (h : g.Recurs s.expanding id t) :
    g.expand child spot e id path occurs s =
      (none, { s with anomalies := s.anomalies ++ [g.recursion id t] }) := by
  have hnone : (g.schema.complex? t).isNone = false := by simp [h.complex]
  have henter : enter id t s = (false, s) := by simp [enter, h.under_way]
  rw [expand_typed g spot e path occurs h.type hnone]
  change (if (enter id t s).1 = true then _ else _ : Synth (Option Element)) (enter id t s).2 = _
  rw [henter, if_neg Bool.false_ne_true]
  rfl

/-- Any other complex-typed element is expanded, and its expansion is under way meanwhile. -/
theorem expand_of_fresh (htype : (g.schema.element id).type = some t)
    (hcomplex : (g.schema.complex? t).isSome) (hfresh : (id, t) ∉ s.expanding) :
    g.expand child spot e id path occurs s =
      let data := g.addTyped child spot e id t path occurs
        { s with expanding := (id, t) :: s.expanding }
      (some data.1, { data.2 with expanding := data.2.expanding.tail }) := by
  have hnone : (g.schema.complex? t).isNone = false := by simp [hcomplex]
  have henter : enter id t s = (true, { s with expanding := (id, t) :: s.expanding }) := by
    simp [enter, hfresh]
  have hclose (p : Synth Element) (s : Synthesis) : (do
      let data ← p
      leave
      return some data : Synth (Option Element)) s =
        (some (p s).1, { (p s).2 with expanding := (p s).2.expanding.tail }) := rfl
  rw [expand_typed g spot e path occurs htype hnone]
  change (if (enter id t s).1 = true then _ else _ : Synth (Option Element)) (enter id t s).2 = _
  rw [henter, if_pos rfl, hclose]

/-- What an element does agrees when children are added alike inside it. -/
theorem expand_agree (hR : Account R)
    (hc : ∀ t, (g.schema.element id).type = some t → (id, t) ∉ stack →
      ChildrenAgree R ((id, t) :: stack) child child')
    (hrecurs : ∀ t, g.Recurs stack id t → ∀ s : Synthesis,
      R s { s with anomalies := s.anomalies ++ [g.recursion id t] }) :
    Agree R stack (g.expand child spot e id path occurs)
      (g.expand child' spot e id path occurs) := by
  cases htype : (g.schema.element id).type with
  | none =>
    have hexpand : g.expand child spot e id path occurs =
        g.expand child' spot e id path occurs := by
      unfold expand
      simp only [htype]
    rw [hexpand]
    exact (g.expand_untyped spot e path occurs htype).agree hR
  | some t =>
    by_cases hcomplex : (g.schema.complex? t).isSome
    · intro s hs
      by_cases hmem : (id, t) ∈ stack
      · have h : g.Recurs s.expanding id t := ⟨htype, hcomplex, hs ▸ hmem⟩
        rw [expand_of_recurs g spot e path occurs h, expand_of_recurs g spot e path occurs h]
        exact ⟨rfl, hrecurs t ⟨htype, hcomplex, hmem⟩ s⟩
      · have hfresh : (id, t) ∉ s.expanding := hs ▸ hmem
        obtain ⟨heq, hr⟩ := addTyped_agree g hR (hc t htype hmem) spot e id t path occurs
          { s with expanding := (id, t) :: s.expanding } (by rw [hs])
        rw [expand_of_fresh g spot e path occurs htype hcomplex hfresh,
          expand_of_fresh g spot e path occurs htype hcomplex hfresh, ← heq]
        exact ⟨rfl, hR.opened hr⟩
    · have hexpand : g.expand child spot e id path occurs =
          g.expand child' spot e id path occurs := by
        have hnone : (g.schema.complex? t).isNone = true := by simpa using hcomplex
        unfold expand
        simp only [htype, hnone, if_true]
      rw [hexpand]
      exact (g.expand_simple spot e path occurs htype hcomplex).agree hR

end Content

/-! How many expansions can be under way. -/

section Openings

variable (g : Generator)

/-- The elements that can be expanded, with their types. -/
def expandable : List (ElementId × TypeId) :=
  (List.range g.schema.elements.size).filterMap fun i =>
    (g.schema.element ⟨i⟩).type.map fun t => (⟨i⟩, t)

theorem mem_expandable {id : ElementId} {t : TypeId} (h : (g.schema.element id).type = some t) :
    (id, t) ∈ g.expandable := by
  obtain ⟨i⟩ := id
  have hi : i < g.schema.elements.size := by
    apply Nat.lt_of_not_le
    intro hi
    have hdefault : g.schema.element ⟨i⟩ = default := by
      simp [Schema.element, Array.getD_eq_getD_getElem?, Array.getElem?_eq_none hi]
    rw [hdefault] at h
    cases h
  apply List.mem_filterMap.2
  exact ⟨i, List.mem_range.2 hi, by simp [h]⟩

/-- The number of expansions that are not under way. -/
def room (stack : List (ElementId × TypeId)) : Nat := unmet g.expandable stack

theorem room_le (stack : List (ElementId × TypeId)) : g.room stack ≤ g.schema.elements.size := by
  have hlength := List.length_filterMap_le (fun i => (g.schema.element ⟨i⟩).type.map fun t =>
    ((⟨i⟩ : ElementId), t)) (List.range g.schema.elements.size)
  rw [List.length_range] at hlength
  exact Nat.le_trans (unmet_le ..) hlength

/-- Adds an element when at most so many expansions can be opened; what would go beyond them is
added by `rest`. -/
def addWithin (g : Generator) (rest : ChildAdder) : Nat → ChildAdder
  | 0 => rest
  | openings + 1 => g.expand (g.addWithin rest openings)

theorem addWithin_none (openings : Nat) :
    g.addWithin (fun _ _ _ _ _ => return none) openings = g.addElement openings := by
  induction openings with
  | zero => rfl
  | succ openings ih =>
    funext spot e id path occurs
    rw [addWithin, addElement, ih]

/-- Where there is less room than openings, nothing goes beyond them. -/
theorem addWithin_agree {rest rest' : ChildAdder} {n m : Nat}
    {stack : List (ElementId × TypeId)} (hn : g.room stack < n) (hm : g.room stack < m) :
    ChildrenAgree SameStack stack (g.addWithin rest n) (g.addWithin rest' m) := by
  induction n generalizing m stack with
  | zero => exact absurd hn (Nat.not_lt_zero _)
  | succ n ih =>
    cases m with
    | zero => exact absurd hm (Nat.not_lt_zero _)
    | succ m =>
      intro spot e id path occurs
      apply expand_agree g spot e path occurs sameStack_account
      · intro t htype hfresh
        have hroom := unmet_cons_lt (g.mem_expandable htype) hfresh
        have hn' : g.room ((id, t) :: stack) < n := by unfold room at *; omega
        have hm' : g.room ((id, t) :: stack) < m := by unfold room at *; omega
        exact ih hn' hm'
      · exact fun t _ s => rfl

theorem addElement_sameStack (openings : Nat) (stack : List (ElementId × TypeId)) :
    ChildrenAgree SameStack stack (g.addElement openings) (g.addElement openings) := by
  induction openings generalizing stack with
  | zero => exact fun _ _ _ _ _ s _ => ⟨rfl, rfl⟩
  | succ openings ih =>
    intro spot e id path occurs
    apply expand_agree g spot e path occurs sameStack_account
    · exact fun t _ _ => ih ((id, t) :: stack)
    · exact fun t _ s => rfl

/-- With as many openings as there are elements, and one more, none goes beyond them: it makes no
difference what would be added there. -/
theorem addWithin_eq (rest : ChildAdder) (extra : Nat) :
    g.addWithin rest (g.schema.elements.size + 1 + extra) =
      g.addElement (g.schema.elements.size + 1) := by
  rw [← addWithin_none]
  funext spot e id path occurs s
  have hlt : g.room s.expanding < g.schema.elements.size + 1 := Nat.lt_succ_of_le (g.room_le _)
  have hlt' : g.room s.expanding < g.schema.elements.size + 1 + extra :=
    Nat.lt_of_lt_of_le hlt (Nat.le_add_right ..)
  exact (g.addWithin_agree hlt' hlt spot e id path occurs s rfl).1

theorem expand_recursions {child : ChildAdder}
    (hchild : ∀ spot e id path occurs s, NoneLeftOut s (child spot e id path occurs s).2)
    {id : ElementId} {s : Synthesis} (hfresh : ∀ t, ¬ g.Recurs s.expanding id t) (spot : Spot)
    (e : Element) (path : String) (occurs : Occurs) :
    (g.expand child spot e id path occurs s).2.recursions = s.recursions := by
  have hagree (stack : List (ElementId × TypeId)) : ChildrenAgree NoneLeftOut stack child child :=
    fun spot e id path occurs s _ => ⟨rfl, hchild spot e id path occurs s⟩
  have h : Agree NoneLeftOut s.expanding (g.expand child spot e id path occurs)
      (g.expand child spot e id path occurs) :=
    expand_agree g spot e path occurs noneLeftOut_account (fun t _ _ => hagree _)
      fun t ht => absurd ht (hfresh t)
  exact (h s rfl).2.2

/-- Expansion comes to an end in every schema, however elements and types refer to each other:
nothing depends on the bound of the recursion, nor on those of the walks along chains of types.
Each element leaves the expansions under way as they were.  A complex-typed one is left out if and
only if it is being expanded as its type already, and then this one anomaly is all there is of it;
otherwise only what its children do can add such anomalies.  What walks over the arena is bounded by
its size, which is room for all of it: `Tree.Shows.below_settled` has this for the search below a
node, and `Tree.copySubtree_holds_of` for copies. -/
theorem expansion_ends (g : Generator) :
    (∀ rest extra, g.addWithin rest (g.schema.elements.size + 1 + extra) =
      g.addElement (g.schema.elements.size + 1)) ∧
    g.expand (g.addElement (g.schema.elements.size + 1)) =
      g.addElement (g.schema.elements.size + 1) ∧
    (∀ next ∈ g.schema.nexts, ∀ extra visited current,
      Schema.walk next (g.schema.types.size + 1 + extra) visited current =
        Schema.walk next (g.schema.types.size + 1) visited current) ∧
    ∀ (openings : Nat) (spot : Spot) (e : Element) (id : ElementId) (path : String)
      (occurs : Occurs) (s : Synthesis),
      let added := g.addElement (openings + 1) spot e id path occurs s
      added.2.expanding = s.expanding ∧
      (∀ t, (g.schema.element id).type = some t → (g.schema.complex? t).isSome →
        (added.1 = none ↔ (id, t) ∈ s.expanding) ∧
        (added = (none, { s with anomalies := s.anomalies ++ [g.recursion id t] }) ↔
          (id, t) ∈ s.expanding)) ∧
      ((∀ t, ¬ g.Recurs s.expanding id t) → ∀ child : ChildAdder,
        (∀ spot e id path occurs s, NoneLeftOut s (child spot e id path occurs s).2) →
        (g.expand child spot e id path occurs s).2.recursions = s.recursions) := by
  refine ⟨g.addWithin_eq, ?_, fun next hnext => Schema.walk_budget hnext, ?_⟩
  · have hmore := g.addWithin_eq (fun _ _ _ _ _ => return none) 1
    rw [addWithin, addWithin_none] at hmore
    exact hmore
  · intro openings spot e id path occurs s added
    have hlevel := (g.addElement_sameStack (openings + 1) s.expanding spot e id path occurs s rfl).2
    refine ⟨hlevel, ?_, fun hfresh child hchild =>
      g.expand_recursions hchild hfresh spot e path occurs⟩
    intro t htype hcomplex
    by_cases hmem : (id, t) ∈ s.expanding
    · have hadded : added = _ := expand_of_recurs g spot e path occurs ⟨htype, hcomplex, hmem⟩
      simp [hadded, hmem]
    · have hadded : added = _ := expand_of_fresh g spot e path occurs htype hcomplex hmem
      have hsome := congrArg Prod.fst hadded
      have hkept : added.1 ≠ none := fun hnone => by
        rw [show added.1 = some _ from hsome] at hnone
        cases hnone
      exact ⟨⟨fun h => absurd h hkept, fun h => absurd h hmem⟩,
        fun h => absurd (congrArg Prod.fst h) hkept, fun h => absurd h hmem⟩

/-- A generator for one element, which contains itself. -/
def selfContaining : Generator where
  schema :=
    { target := none
      types := #[.complex
        { name := some ⟨none, "T"⟩, particle := some (.sequence [.element .once ⟨0⟩]) }]
      elements := #[{ name := ⟨none, "e"⟩, type := some ⟨0⟩ }]
      uses := #[]
      typeNames := .empty
      elementNames := .empty }
  substitutes := ⟨.empty⟩
  settings := {}
  layout := .plain

theorem expansion_ends_selfContaining :
    let s : Synthesis := { Synthesis.initial with expanding := [(⟨0⟩, ⟨0⟩)] }
    let e := Element.ofName ⟨none, "e"⟩
    selfContaining.addElement 2 ⟨⟨0⟩, ⟨0⟩⟩ e ⟨0⟩ "e" .once s =
      (none, { s with anomalies := [.recursiveType "e" "T"] }) := by
  intro s e
  obtain ⟨-, -, -, h⟩ := expansion_ends selfContaining
  obtain ⟨-, h, -⟩ := h 1 ⟨⟨0⟩, ⟨0⟩⟩ e ⟨0⟩ "e" .once s
  exact (h ⟨0⟩ rfl rfl).2.2 (by simp [s])

end Openings

end Generator

end SchemaForms
