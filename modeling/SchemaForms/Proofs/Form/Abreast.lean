import SchemaForms.Proofs.Form.Simulation
import SchemaForms.Proofs.Form.Wording
import SchemaForms.Proofs.Schema.Pruning

/-!
Two runs abreast: they go through the same states, but that one of them reports anomalies which the
other does not.  On the way every node stays worded as declared, so what is written for one
declaration is not found for another.
-/

namespace SchemaForms

open Synthesis

/-- How the anomalies of two runs go together. -/
abbrev Ledger := List Anomaly → List Anomaly → Prop

/-- Both runs may report the anomaly, and things stand as before. -/
def Ledger.Takes (A : Ledger) (a : Anomaly) : Prop :=
  ∀ ⦃as bs : List Anomaly⦄, A as bs → A (as ++ [a]) (bs ++ [a])

/-- Two states that differ in their anomalies alone. -/
structure Synthesis.Beside (A : Ledger) (s s' : Synthesis) : Prop where
  same : s' = { s with anomalies := s'.anomalies }
  anomalies : A s.anomalies s'.anomalies

theorem Synthesis.Beside.of_ledger {A : Ledger} {s : Synthesis} {as : List Anomaly}
    (h : A s.anomalies as) : s.Beside A { s with anomalies := as } := ⟨rfl, h⟩

/-- What two steps come to from two states: the same result and states that are abreast again. -/
structure Synthesis.Keeps {α : Type} (g : Generator) (A : Ledger) (s : Synthesis)
    (r r' : α × Synthesis) (Q : PrefixTable → α → Prop) : Prop where
  extend : s.prefixes.Extends r.2.prefixes
  worded : r.2.tree.All (NodeKind.Worded g r.2.prefixes)
  beside : r.2.Beside A r'.2
  result : r'.1 = r.1
  gives : Q r.2.prefixes r.1

/-- Two steps keep abreast once the prefixes of a table have been given out, and lead from one
ledger to the next; `Q` is what is known of their result. -/
def Abreast {α : Type} (g : Generator) (A B : Ledger) (t : PrefixTable) (f f' : Synth α)
    (Q : PrefixTable → α → Prop) : Prop :=
  ∀ s s' : Synthesis, t.Extends s.prefixes → s.tree.All (NodeKind.Worded g s.prefixes) →
    s.Beside A s' → s.Keeps g B (f s) (f' s') Q

/-- Nothing is known of the result. -/
abbrev Unknown {α : Type} (_ : PrefixTable) (_ : α) : Prop := True

namespace Abreast

variable {g : Generator} {A B C : Ledger} {t t' : PrefixTable} {α β : Type} {f f' : Synth α}
  {Q Q' : PrefixTable → α → Prop} {R : PrefixTable → β → Prop}

theorem later (h : Abreast g A B t f f' Q) (ht : t.Extends t') : Abreast g A B t' f f' Q :=
  fun s s' hs => h s s' (ht.trans hs)

theorem weaken (h : Abreast g A B t f f' Q) (hQ : ∀ t' a, t.Extends t' → Q t' a → Q' t' a) :
    Abreast g A B t f f' Q' := fun s s' hs hw hb =>
  let k := h s s' hs hw hb
  { k with gives := hQ _ _ (hs.trans k.extend) k.gives }

/-- Whatever is known of the result. -/
theorem forget (h : Abreast g A B t f f' Q) : Abreast g A B t f f' Unknown :=
  h.weaken fun _ _ _ _ => trivial

/-- The anomalies are entered in another ledger. -/
theorem settle (h : Abreast g A B t f f' Q) (hA : ∀ ⦃as bs⦄, B as bs → C as bs) :
    Abreast g A C t f f' Q := fun s s' hs hw hb =>
  let k := h s s' hs hw hb
  { k with beside := ⟨k.beside.same, hA k.beside.anomalies⟩ }

theorem pure {a : α} (h : ∀ t', t.Extends t' → Q t' a) : Abreast g A A t (pure a) (pure a) Q :=
  fun _ _ hs hw hb => ⟨.refl, hw, hb, rfl, h _ hs⟩

theorem done (a : α) : Abreast g A A t (Pure.pure a) (Pure.pure a) Unknown :=
  pure fun _ _ => trivial

theorem bind {k q : α → Synth β} (hf : Abreast g A B t f f' Q)
    (hk : ∀ a t', t.Extends t' → Q t' a → Abreast g B C t' (k a) (q a) R) :
    Abreast g A C t (f >>= k) (f' >>= q) R := by
  intro s s' hs hw hb
  have h := hf s s' hs hw hb
  have h' := hk (f s).1 (f s).2.prefixes (hs.trans h.extend) h.gives (f s).2 (f' s').2 .refl
    h.worded h.beside
  have hrun' : (f' >>= q) s' = q (f s).1 (f' s').2 := by
    rw [← h.result]
    rfl
  change s.Keeps g C (k (f s).1 (f s).2) _ R
  rw [hrun']
  exact { h' with extend := h.extend.trans h'.extend }

/-- After a look at what both runs have in common. -/
theorem look {k k' : Synthesis → Synth β}
    (hk : ∀ s as, Abreast g A B t (k s) (k' { s with anomalies := as }) R) :
    Abreast g A B t (get >>= k) (get >>= k') R := by
  intro s s' hs hw hb
  have h := hk s s'.anomalies s s' hs hw hb
  rwa [← hb.same] at h

/-- A step that neither sees nor changes the anomalies keeps abreast with itself. -/
theorem blind {f : Synth α}
    (hrun : ∀ (s : Synthesis) (as : List Anomaly),
      f { s with anomalies := as } = ((f s).1, { (f s).2 with anomalies := as }))
    (hprefixes : ∀ s : Synthesis, s.prefixes.Extends (f s).2.prefixes)
    (hworded : ∀ s : Synthesis, t.Extends s.prefixes → s.tree.All (NodeKind.Worded g s.prefixes) →
      (f s).2.tree.All (NodeKind.Worded g (f s).2.prefixes))
    (hQ : ∀ s, Q (f s).2.prefixes (f s).1) : Abreast g A A t f f Q := by
  intro s s' hs hw hb
  have hown : (f s).2.anomalies = s.anomalies :=
    congrArg (fun r : α × Synthesis => r.2.anomalies) (hrun s s.anomalies)
  have hother : f s' = ((f s).1, { (f s).2 with anomalies := s'.anomalies }) := by
    rw [hb.same]
    exact hrun s s'.anomalies
  rw [hother]
  exact ⟨hprefixes s, hworded s hs hw, .of_ledger (hown ▸ hb.anomalies), rfl, hQ s⟩

/-- A step that leaves arena and prefixes alone too. -/
theorem still {f : Synth α}
    (hrun : ∀ (s : Synthesis) (as : List Anomaly),
      f { s with anomalies := as } = ((f s).1, { (f s).2 with anomalies := as }))
    (hprefixes : ∀ s, (f s).2.prefixes = s.prefixes) (htree : ∀ s, (f s).2.tree = s.tree)
    (hQ : ∀ s, Q (f s).2.prefixes (f s).1) : Abreast g A A t f f Q :=
  blind hrun (fun s => hprefixes s ▸ .refl) (fun s _ hw => by rwa [htree, hprefixes]) hQ

/-- A change of the arena under which nodes stay worded. -/
theorem onTree (op : Tree → α × Tree)
    (hop : ∀ t', t.Extends t' → ∀ tree : Tree, tree.All (NodeKind.Worded g t') →
      (op tree).2.All (NodeKind.Worded g t')) : Abreast g A A t (onTree op) (onTree op) Unknown :=
  blind (fun _ _ => rfl) (fun _ => .refl) (fun s hs hw => hop _ hs s.tree hw) fun _ => trivial

theorem allocate (name : String) : Abreast g A A t (allocate name) (allocate name) Unknown :=
  still (fun _ _ => rfl) (fun _ => rfl) (fun _ => rfl) fun _ => trivial

theorem enter (e : ElementId) (type : TypeId) :
    Abreast g A A t (enter e type) (enter e type) Unknown := by
  have hrun (s : Synthesis) : Synthesis.enter e type s = if s.expanding.contains (e, type) then
      (false, s) else (true, { s with expanding := (e, type) :: s.expanding }) := rfl
  refine still (fun s as => ?_) (fun s => ?_) (fun s => ?_) fun _ => trivial
  all_goals
    simp only [hrun]
    split <;> rfl

theorem leave : Abreast g A A t leave leave Unknown :=
  still (fun _ _ => rfl) (fun _ => rfl) (fun _ => rfl) fun _ => trivial

theorem swapReused (binds : List NodeId) :
    Abreast g A A t (swapReused binds) (swapReused binds) Unknown :=
  still (fun _ _ => rfl) (fun _ => rfl) (fun _ => rfl) fun _ => trivial

theorem noteReused (bind : NodeId) :
    Abreast g A A t (noteReused bind) (noteReused bind) Unknown := by
  have hrun (s : Synthesis) : (Synthesis.noteReused bind s) =
      ((), if s.reused.contains bind then s else { s with reused := s.reused ++ [bind] }) := rfl
  refine still (fun s as => ?_) (fun s => ?_) (fun s => ?_) fun _ => trivial
  all_goals
    simp only [hrun]
    split <;> rfl

/-- An anomaly that both runs report. -/
theorem report {a : Anomaly} (ha : ∀ ⦃as bs⦄, A as bs → B (as ++ [a]) (bs ++ [a])) :
    Abreast g A B t (report a) (report a) Unknown :=
  fun s s' _ hw hb => ⟨.refl, hw, ⟨by rw [hb.same]; rfl, ha hb.anomalies⟩, rfl, trivial⟩

/-- A step that reports an anomaly, where the other run does nothing. -/
theorem drop {f : Synth α} {a : α} {x : Anomaly}
    (hx : ∀ ⦃as bs⦄, A as bs → B (as ++ [x]) bs)
    (hrun : ∀ s : Synthesis, t.Extends s.prefixes → s.tree.All (NodeKind.Worded g s.prefixes) →
      f s = (a, { s with anomalies := s.anomalies ++ [x] })) :
    Abreast g A B t f (Pure.pure a) fun _ b => b = a := by
  intro s s' hs hw hb
  rw [hrun s hs hw]
  exact ⟨.refl, hw, ⟨hb.same, hx hb.anomalies⟩, rfl, rfl⟩

theorem qualified (name : QName) :
    Abreast g A A t (qualified name) (qualified name) fun t' r => t'.textOf name = some r.2 := by
  have hextends (s : Synthesis) : s.prefixes.Extends (Synthesis.qualified name s).2.prefixes := by
    unfold Synthesis.qualified
    cases name.nspace with
    | none => exact .refl
    | some ns => exact .single ⟨ns, rfl⟩
  refine blind (fun s as => ?_) hextends (fun s _ hw id => ?_) (textOf_qualified name)
  · unfold Synthesis.qualified
    cases name.nspace <;> rfl
  · have htree := (Quiet.qualified name).tree_eq s
    rw [htree]
    exact (hw id).mono (hextends s)

/-! Nodes. -/

theorem create {k : NodeKind} (hk : k.Worded g t) : Abreast g A A t (create k) (create k) Unknown :=
  onTree _ fun _ ht _ htree => htree.create (hk.mono ht)

theorem append (parent child : NodeId) :
    Abreast g A A t (append parent child) (append parent child) Unknown :=
  onTree _ fun _ _ _ htree => htree.append parent child

theorem modifyBind (id : NodeId) {h : Bind → Bind}
    (hh : ∀ t', t.Extends t' → ∀ b, b.Worded g t' → (h b).Worded g t') :
    Abreast g A A t (modifyBind id h) (modifyBind id h) Unknown :=
  onTree _ fun t' ht _ htree => htree.modifyKind id fun k hk => by
    cases k with
    | bind b => exact hh t' ht b hk
    | _ => exact hk

theorem deepCopy (id : NodeId) : Abreast g A A t (deepCopy id) (deepCopy id) Unknown :=
  blind (fun _ _ => rfl) (fun _ => .refl)
    (fun s _ hw => hw.deepCopy (fun _ ids hk => hk.copyKind ids)
      (fun table _ hk => hk.redirect table) s.ids id) fun _ => trivial

theorem addBind (scope : NodeId) {b : Bind} {nodeset : String} (hnodeset : g.IsNodeset t nodeset)
    (hb : b.relevant = none) :
    Abreast g A A t (Generator.addBind scope b nodeset) (Generator.addBind scope b nodeset)
      Unknown := by
  refine (allocate "bind").bind fun id t' ht _ => ?_
  refine bind (create (k := .bind _) ⟨hnodeset.mono ht, fun e he => ?_⟩) fun node _ _ _ => ?_
  · have hnone : b.relevant = some e := he
    rw [hb] at hnone
    cases hnone
  · exact (append scope node).bind fun _ _ _ _ => done _

theorem addTriggers (container : NodeId) (cs : List Control) (hcs : ∀ c ∈ cs, c.kind.choices = []) :
    Abreast g A A t (Generator.addTriggers container cs) (Generator.addTriggers container cs)
      Unknown := by
  induction cs generalizing t with
  | nil => exact done ()
  | cons c cs ih =>
    have hc : ∀ choice ∈ c.kind.choices, choice.Worded g t := by
      rw [hcs c List.mem_cons_self]
      exact fun _ h => nomatch h
    refine (create (k := .control c) hc).bind fun node _ _ _ => ?_
    exact (append container node).bind fun _ _ _ _ =>
      ih fun c hc => hcs c (List.mem_cons_of_mem _ hc)

theorem repeatActions (repeatId : String) (bind : Option String) :
    Abreast g A A t (Generator.repeatActions repeatId bind) (Generator.repeatActions repeatId bind)
      Unknown :=
  (allocate _).bind fun _ _ _ _ => (allocate _).bind fun _ _ _ _ => (allocate _).bind
    fun _ _ _ _ => done _

theorem choicesFor (values : List String) :
    Abreast g A A t (Generator.choicesFor values) (Generator.choicesFor values) Unknown := by
  induction values generalizing t with
  | nil => exact done []
  | cons v vs ih => exact (allocate "item").bind fun _ _ _ _ => ih.bind fun _ _ _ _ => done _

/-- No choice of a field selects a case. -/
theorem fieldControl (type : TypeId) (bindId : String) :
    Abreast g A A t (g.fieldControl type bindId) (g.fieldControl type bindId)
      fun t' c => ∀ choice ∈ c.kind.choices, choice.Worded g t' := by
  have hplain : Abreast g A A t (g.fieldControl type bindId) (g.fieldControl type bindId)
      Unknown := by
    unfold Generator.fieldControl
    split
    · exact (allocate "textarea").bind fun _ _ _ _ => done _
    · split
      · exact (allocate "select").bind fun _ _ _ _ => (choicesFor _).bind fun _ _ _ _ => done _
      · split
        · exact (allocate _).bind fun _ _ _ _ => done _
        · exact (allocate "select1").bind fun _ _ _ _ => (choicesFor _).bind fun _ _ _ _ => done _
  intro s s' hs hw hb
  refine { hplain s s' hs hw hb with gives := fun choice hchoice htoggle => ?_ }
  have hfield := (fieldControl_spec g type bindId s).1
  unfold Control.IsField at hfield
  generalize (g.fieldControl type bindId s).1.kind = kind at hfield hchoice
  cases kind with
  | selectOne cs =>
    rw [hfield choice hchoice] at htoggle
    cases htoggle
  | selectMany cs =>
    rw [hfield choice hchoice] at htoggle
    cases htoggle
  | _ => cases hchoice

section Layout

variable (hl : g.layout.Decorates)

include hl

theorem place (area control : NodeId) :
    Abreast g A A t (g.place area control) (g.place area control) Unknown :=
  (onTree _ fun _ _ _ htree => hl.control (fun _ => trivial) htree control).bind
    fun _ _ _ _ => append _ _

theorem addControl (area : NodeId) {c : Control}
    (hc : ∀ choice ∈ c.kind.choices, choice.Worded g t) :
    Abreast g A A t (g.addControl area c) (g.addControl area c) Unknown :=
  (create (k := .control c) hc).bind fun node _ _ _ => (place hl area node).bind
    fun _ _ _ _ => done node

theorem contentOf (group : NodeId) :
    Abreast g A A t (g.contentOf group) (g.contentOf group) Unknown :=
  onTree _ fun _ _ _ htree => hl.groupContent (fun _ => trivial) htree group

/-! Repeats and fields. -/

theorem addTriggerRow (area : NodeId) (cs : List Control) (hcs : ∀ c ∈ cs, c.kind.choices = []) :
    Abreast g A A t (g.addTriggerRow area cs) (g.addTriggerRow area cs) Unknown := by
  cases cs with
  | nil => exact done ()
  | cons c cs =>
    have hc : ∀ choice ∈ c.kind.choices, choice.Worded g t := by
      rw [hcs c List.mem_cons_self]
      exact fun _ h => nomatch h
    refine (create (k := .control c) hc).bind fun trigger _ _ _ => ?_
    refine (onTree (g.layout.control trigger) fun _ _ _ htree =>
      hl.control (fun _ => trivial) htree trigger).bind fun container _ _ _ => ?_
    exact (append area container).bind fun _ _ _ _ =>
      addTriggers _ cs fun c hc => hcs c (List.mem_cons_of_mem _ hc)

theorem addRepeat (hkept : ∀ id, A.Takes (.missingRepeatBind id)) (spot : Spot) :
    Abreast g A A t (g.addRepeat spot) (g.addRepeat spot) Unknown := by
  unfold Generator.addRepeat
  refine (allocate "repeat").bind fun id _ _ _ => look fun s as => ?_
  refine bind (B := A) (Q := Unknown) ?_ fun _ _ _ _ =>
    (repeatActions id _).bind fun actions _ _ _ => ?_
  · cases Generator.governingBind s.tree spot.scope with
    | none => exact report (hkept id)
    | some _ => exact done ()
  refine bind (create ?_) fun node _ _ _ => ?_
  · exact fun _ h => nomatch h
  refine (addTriggerRow hl spot.area _ fun c hc => ?_).bind fun _ _ _ _ => ?_
  · obtain ⟨a, -, rfl⟩ := List.mem_map.1 hc
    rfl
  · exact (place hl spot.area node).bind fun _ _ _ _ => done node

theorem itemsArea (hkept : ∀ id, A.Takes (.missingRepeatBind id)) (spot : Spot) (occurs : Occurs) :
    Abreast g A A t (g.itemsArea spot occurs) (g.itemsArea spot occurs) Unknown := by
  unfold Generator.itemsArea
  split
  · exact (addRepeat hl hkept spot).bind fun node _ _ _ => contentOf hl node
  · exact done _

theorem valueSpot (hkept : ∀ id, A.Takes (.missingRepeatBind id)) (spot : Spot) (bindRef : BindRef)
    (type : Option String) (owner : Generator.Owner) (occurs : Occurs) :
    Abreast g A A t (g.valueSpot spot bindRef type owner occurs)
      (g.valueSpot spot bindRef type owner occurs) Unknown := by
  unfold Generator.valueSpot
  split
  · refine (allocate "group").bind fun id _ _ _ => ?_
    refine bind (addControl hl spot.area ?_) fun group _ _ _ => ?_
    · exact fun _ h => nomatch h
    refine (contentOf hl group).bind fun content _ _ _ => ?_
    refine (addRepeat hl hkept ⟨spot.scope, content⟩).bind fun region _ _ _ => ?_
    refine (contentOf hl region).bind fun area _ _ _ => ?_
    exact (addBind bindRef.node .here rfl).bind fun item _ _ _ => done _
  · exact done _

theorem addField (hkept : ∀ id, A.Takes (.missingRepeatBind id)) (spot : Spot) (type : TypeId)
    (owner : Generator.Owner) {path : String} (hpath : g.IsNodeset t path) (occurs : Occurs) :
    Abreast g A A t (g.addField spot type owner path occurs)
      (g.addField spot type owner path occurs) Unknown := by
  unfold Generator.addField
  refine (addBind spot.scope hpath rfl).bind fun bindRef _ _ _ => ?_
  refine (valueSpot hl hkept spot bindRef _ owner occurs).bind fun p _ _ _ => ?_
  refine (fieldControl type p.2).bind fun control _ _ hcontrol => ?_
  exact bind (addControl hl p.1 hcontrol) fun _ _ _ _ => done ()

/-! Reuse. -/

theorem reuse (hkept : ∀ name, A.Takes (.reusedControlNotFound name)) (spot : Spot)
    (nodeset : String) : Abreast g A A t (g.reuse spot nodeset) (g.reuse spot nodeset) Unknown := by
  unfold Generator.reuse
  refine look fun s as => ?_
  dsimp only
  split
  · exact done false
  · refine look fun s' as' => ?_
    dsimp only
    split
    · exact (report (hkept nodeset)).bind fun _ _ _ _ => done true
    · next source _ =>
      refine (deepCopy source).bind fun copy _ _ _ => ?_
      refine (place hl spot.area copy).bind fun _ _ _ _ => ?_
      exact (noteReused _).bind fun _ _ _ _ => done true

end Layout

theorem typeValue (type : TypeId) :
    Abreast g A A t (g.typeValue type) (g.typeValue type) fun t' value =>
      g.typeText t' type = some value := by
  unfold Generator.typeValue Generator.typeText
  cases (g.schema.typeDef type).name? with
  | none => exact pure fun _ _ => rfl
  | some name => exact (qualified name).bind fun r _ _ hr => pure fun _ ht => ht.textOf hr

theorem typeConditions {types : List TypeId} (htypes : ∀ u ∈ types, (g.schema.complex? u).isSome) :
    Abreast g A A t (g.typeConditions types) (g.typeConditions types) fun t' conditions =>
      g.AreConditions t' conditions ∧ conditions.length = types.length := by
  induction types generalizing t with
  | nil => exact pure fun _ _ => ⟨fun _ hc => (nomatch hc), rfl⟩
  | cons type types ih =>
    refine (typeValue type).bind fun value t₁ _ hvalue => ?_
    refine (ih fun u hu => htypes u (List.mem_cons_of_mem _ hu)).bind fun rest t₂ ht₂ hrest => ?_
    refine pure fun t₃ ht₃ => ⟨fun c hc => ?_, by rw [List.length_cons, hrest.2, List.length_cons]⟩
    rcases List.mem_cons.1 hc with rfl | hc
    · exact ⟨value, ⟨type, htypes type List.mem_cons_self,
        Generator.typeText_extends (ht₂.trans ht₃) hvalue⟩, rfl⟩
    · obtain ⟨v, hv, rfl⟩ := hrest.1 c hc
      exact ⟨v, hv.mono ht₃, rfl⟩

theorem guardBinds (existing reused : List NodeId) {conditions : List String}
    (hconditions : g.AreConditions t conditions) (hne : conditions ≠ []) (ids : List NodeId) :
    Abreast g A A t (Generator.guardBinds existing reused conditions ids)
      (Generator.guardBinds existing reused conditions ids) Unknown := by
  induction ids with
  | nil => exact done ()
  | cons id ids ih =>
    refine (modifyBind id fun t' ht b hb => ?_).bind fun _ _ ht _ => ih.later ht
    exact hb.guard (fun c hc => (hconditions c hc).imp fun _ hv => ⟨hv.1.mono ht, hv.2⟩) hne ..

/-- The types that a case is relevant for are complex. -/
theorem applyRelevance (elementBind : NodeId) (existing reused : List NodeId) {type : TypeId}
    (htypes : ∀ u ∈ type :: g.substitutes.of type, (g.schema.complex? u).isSome) :
    Abreast g A A t (g.applyRelevance elementBind existing reused type)
      (g.applyRelevance elementBind existing reused type) Unknown := by
  refine (typeConditions htypes).bind fun conditions _ _ hconditions => look fun s as => ?_
  refine guardBinds existing reused hconditions.1 (fun hnil => ?_) _
  have hlength := hconditions.2
  rw [hnil] at hlength
  cases hlength

/-- The choices of a type switch say what `xsi:type` says. -/
theorem typeChoices {types : List TypeId} (htypes : ∀ u ∈ types, (g.schema.complex? u).isSome) :
    Abreast g A A t (g.typeChoices types) (g.typeChoices types) fun t' choices =>
      (∀ c ∈ choices, c.1.Worded g t') ∧ choices.length = types.length := by
  induction types generalizing t with
  | nil => exact pure fun _ _ => ⟨fun _ hc => (nomatch hc), rfl⟩
  | cons type types ih =>
    refine (allocate "item").bind fun item _ _ _ => (allocate "action").bind fun action _ _ _ => ?_
    refine (allocate "toggle").bind fun toggle _ _ _ => ?_
    refine (allocate "case").bind fun caseId _ _ _ => ?_
    refine (typeValue type).bind fun value t₁ _ hvalue => ?_
    refine (ih fun u hu => htypes u (List.mem_cons_of_mem _ hu)).bind fun rest t₂ ht₂ hrest => ?_
    refine pure fun t₃ ht₃ => ⟨fun c hc => ?_, by rw [List.length_cons, hrest.2, List.length_cons]⟩
    rcases List.mem_cons.1 hc with rfl | hc
    · exact fun _ => ⟨type, htypes type List.mem_cons_self,
        Generator.typeText_extends (ht₂.trans ht₃) hvalue⟩
    · exact fun htoggle => (hrest.1 c hc htoggle).mono ht₃

theorem promptChoice (label : String) (count : Nat) :
    Abreast g A A t (g.promptChoice label count) (g.promptChoice label count) fun _ choices =>
      ∀ c ∈ choices, c.toggle = none := by
  unfold Generator.promptChoice
  split
  · exact (allocate "item").bind fun _ _ _ _ => pure fun _ _ c hc => List.mem_singleton.1 hc ▸ rfl
  · exact pure fun _ _ _ hc => nomatch hc

end Abreast

end SchemaForms
