import SchemaForms.Proofs.Form.Abreast
import SchemaForms.Proofs.Form.Alike
import SchemaForms.Proofs.Form.Drawing
import SchemaForms.Proofs.Form.Inheriting
import SchemaForms.Proofs.Form.Reporting

/-!
A pruned schema under the generator.  What is left out has no type, and no name that anything with a
type has; so its run through the original schema finds no bind, makes none, and leaves nothing but
its anomaly behind.
-/

namespace SchemaForms

open Synthesis
open Xml (Element)

/-! Names that no bind has. -/

namespace Generator

variable {g : Generator} {t : PrefixTable} {text : String}

theorem cleanElement (hn : g.schema.NCNamed) (id : ElementId) :
    (PathStep.child (g.schema.element id).name).Clean :=
  ⟨fun _ hc => hn.not_mem_element id hc, fun hns => (hn.steplike (g := g) id hns).1⟩

theorem cleanUse (hn : g.schema.NCNamed) (id : UseId) :
    (PathStep.attr (g.schema.use id).decl.name).Clean := fun _ hc => hn.not_mem_use id hc

/-- No bind is for an element when no element of its name has a type. -/
theorem not_isNodeset_element (hn : g.schema.NCNamed) (ht : t.Apart) {id : ElementId}
    (htext : t.textOf (g.schema.element id).name = some text)
    (hnone : ∀ id', (g.schema.element id').name = (g.schema.element id).name →
      (g.schema.element id').type = none) : ¬ g.IsNodeset t text := by
  have hclean := cleanElement hn id
  have hslash : '/' ∉ text.toList :=
    ht.not_mem_textOf htext (hclean.1 _ (by decide)) (by decide) (by decide)
  intro h
  cases h with
  | here => exact hclean.text_ne_dot htext rfl
  | @element id' _ typed h =>
    cases h with
    | child htext' =>
      have hstep := hclean.eq_of_text (cleanElement hn id') ht htext htext'
      rw [hnone id' (PathStep.child.inj hstep).symm] at typed
      cases typed
    | root => exact hslash (by simp)
  | typeOf => exact hslash (by simp)
  | use => exact hclean.at_not_mem ht htext (by simp)

/-- No bind is for an attribute when no attribute of its name has a type. -/
theorem not_isNodeset_use (hn : g.schema.NCNamed) (ht : t.Apart) {id : UseId}
    (htext : t.textOf (g.schema.use id).decl.name = some text)
    (hnone : ∀ id', (g.schema.use id').decl.name = (g.schema.use id).decl.name →
      (g.schema.use id').decl.type = none) : ¬ g.IsNodeset t ("@" ++ text) := by
  have hclean := cleanUse hn id
  have hattr : (PathStep.attr (g.schema.use id).decl.name).text t = some ("@" ++ text) :=
    Option.map_eq_some_iff.2 ⟨text, htext, rfl⟩
  have hslash : '/' ∉ ("@" ++ text).toList := by
    rw [String.toList_append, List.mem_append, not_or]
    exact ⟨by decide, ht.not_mem_textOf htext (hclean _ (by decide)) (by decide) (by decide)⟩
  intro h
  generalize hpath : "@" ++ text = path at h hattr hslash
  cases h with
  | here => exact hclean.text_ne_dot hattr rfl
  | @element id' _ typed h =>
    cases h with
    | child htext' => cases (cleanElement hn id').eq_of_text hclean ht htext' hattr
    | root => exact hslash (by simp)
  | typeOf => exact hslash (by simp)
  | @use id' text' typed htext' =>
    have hattr' : (PathStep.attr (g.schema.use id').decl.name).text t = some ("@" ++ text') :=
      Option.map_eq_some_iff.2 ⟨text', htext', rfl⟩
    have hstep := hclean.eq_of_text (cleanUse hn id') ht hattr hattr'
    rw [hnone id' (PathStep.attr.inj hstep).symm] at typed
    cases typed

/-- In an arena of worded nodes, what is no nodeset is not found. -/
theorem childBind_eq_none {tree : Tree} (h : tree.All (NodeKind.Worded g t))
    (htext : ¬ g.IsNodeset t text) (scope : NodeId) : childBind tree scope text = none := by
  refine List.findSome?_eq_none_iff.2 fun id _ => ?_
  unfold bindWith Tree.bind?
  have hid := h id
  cases hkind : tree.kind id with
  | bind b =>
    rw [hkind] at hid
    have hne : b.nodeset ≠ text := fun he => htext (he ▸ hid.nodeset)
    simp only [NodeKind.bind?, if_neg hne]
  | _ => rfl

end Generator

/-- The prefix that a name is written with has been given out, or there is none. -/
def PrefixTable.Knows (t : PrefixTable) (name : QName) : Prop :=
  ∀ ns, name.nspace = some ns → ∃ p, t.entries.get? ns = some p

/-- A schema takes the place of another one from which declarations without types have been pruned,
once all prefixes of their names have been given out. -/
structure Pruning (g : Generator) (L : Losses) (s : Schema) (t : PrefixTable) : Prop where
  layout : g.layout.Decorates
  derived : g.substitutes = Substitutes.ofSchema g.schema
  pruned : g.schema.Pruned L s
  named : g.schema.NCNamed
  apart : t.Apart
  untypedElements : ∀ id, L.elements id → ∀ id',
    (g.schema.element id').name = (g.schema.element id).name → (g.schema.element id').type = none
  untypedUses : ∀ id, L.uses id → ∀ id',
    (g.schema.use id').decl.name = (g.schema.use id).decl.name → (g.schema.use id').decl.type = none
  knownElements : ∀ id, L.elements id → t.Knows (g.schema.element id).name
  knownUses : ∀ id, L.uses id → t.Knows (g.schema.use id).decl.name

theorem PrefixTable.Knows.later {t t' : PrefixTable} {name : QName} (h : t.Knows name)
    (ht : t.Extends t') : t'.Knows name :=
  fun ns hns => (h ns hns).imp fun _ hp => ht.get? hp

/-- A name whose prefix is known changes nothing. -/
theorem PrefixTable.Knows.qualified {name : QName} {s : Synthesis} (h : s.prefixes.Knows name) :
    ∃ r, qualified name s = (r, s) ∧ s.prefixes.textOf name = some r.2 := by
  unfold Synthesis.qualified PrefixTable.textOf
  cases hns : name.nspace with
  | none => exact ⟨_, rfl, rfl⟩
  | some ns =>
    obtain ⟨p, hp⟩ := h ns hns
    exact ⟨(some p, p ++ ":" ++ name.localName), by simp [PrefixTable.prefixFor, hp], by simp [hp]⟩

namespace Pruning

variable {g : Generator} {L : Losses} {s' : Schema} {t t' : PrefixTable}

theorem later (h : Pruning g L s' t) (ht : t.Extends t') : Pruning g L s' t' :=
  { h with
    apart := ht.apart h.apart
    knownElements := fun id hid => (h.knownElements id hid).later ht
    knownUses := fun id hid => (h.knownUses id hid).later ht }

theorem alike (h : Pruning g L s' t) : g.schema.Alike s' := h.pruned.alike

end Pruning

/-! The two runs. -/

/-- Two steps keep abreast under a schema and a pruned one, and more becomes due on the way. -/
abbrev Pruning.Pair {α : Type} (g : Generator) (root : ElementId) (s' : Schema)
    (due due' due₁ due₁' : List Anomaly) (t : PrefixTable) (f f' : Synth α) : Prop :=
  Abreast g (g.Accounts root s' due due') (g.Accounts root s' due₁ due₁') t f f' Unknown

namespace Generator

/-- An element that is met is filled with the content of a type. -/
def FilledWith (g : Generator) (root owner : ElementId) (type : TypeId) : Prop :=
  g.Leads root owner ∧ ∃ declared, (g.schema.element owner).type = some declared ∧
    (g.schema.complex? declared).isSome ∧ type ∈ g.fillings declared

theorem FilledWith.leads {g : Generator} {root owner : ElementId} {type : TypeId}
    (h : g.FilledWith root owner type) {c : ComplexType} (hc : g.schema.complex? type = some c)
    {x : ElementId × Occurs} (hx : x ∈ modelChildren c) : g.Leads root x.1 := by
  obtain ⟨howner, declared, hdeclared, hcomplex, htype⟩ := h
  exact howner.tail ⟨declared, hdeclared, hcomplex, type, htype, x.2,
    child_mem_members.2 ⟨c, hc, hx⟩⟩

namespace Accounts

variable {g : Generator} {root : ElementId} {s' : Schema} {due due' : List Anomaly}

theorem takes_missingRepeatBind (id : String) :
    Ledger.Takes (g.Accounts root s' due due') (.missingRepeatBind id) :=
  fun _ _ h => (h.report _).remit trivial

theorem takes_reusedControlNotFound (name : String) :
    Ledger.Takes (g.Accounts root s' due due') (.reusedControlNotFound name) :=
  fun _ _ h => (h.report _).remit trivial

end Accounts

end Generator

namespace Pruning

open Generator (Filling ChildAdder run_bind schema_withSchema)
open Generator.Accounts (takes_missingRepeatBind takes_reusedControlNotFound)
open Abreast (done)

variable {g : Generator} {L : Losses} {s' : Schema} {t t' : PrefixTable} {root : ElementId}
  {due due' : List Anomaly}

theorem useAnomalies_eq (h : Pruning g L s' t) : s'.useAnomalies = g.schema.useAnomalies := by
  funext id
  rw [Schema.useAnomalies, Schema.useAnomalies, h.alike.use_eq]

theorem elementAnomalies_eq (h : Pruning g L s' t) :
    s'.elementAnomalies = g.schema.elementAnomalies := by
  funext id
  rw [Schema.elementAnomalies, Schema.elementAnomalies, h.alike.element_eq]

/-- Where there is no bind to reuse, nothing happens. -/
theorem reuses_idle (f : Filling) (isInherited : Bool) (area : NodeId) {path : String}
    {s : Synthesis} (hnone : Generator.childBind s.tree f.bind path = none) :
    g.reuses f isInherited area path s = (false, s) := by
  unfold Generator.reuses
  split
  · have hget : (get : Synth Synthesis) s = (s, s) := rfl
    unfold Generator.reuse
    rw [run_bind hget]
    dsimp only
    rw [hnone]
    rfl
  · rfl

/-- What is taken over from an earlier case has a bind. -/
theorem reuses (h : Pruning g L s' t) (f : Filling) {isInherited isInherited' : Bool}
    (area : NodeId) {path : String}
    (hpath : isInherited' = isInherited ∨ ∀ t', t.Extends t' → ¬ g.IsNodeset t' path) :
    Abreast g (g.Accounts root s' due due') (g.Accounts root s' due due') t
      (g.reuses f isInherited area path) ((g.withSchema s').reuses f isInherited' area path)
      fun t' reused => reused = true → g.IsNodeset t' path := by
  have hplain : Pair g root s' due due' due due' t (g.reuses f isInherited area path)
      ((g.withSchema s').reuses f isInherited' area path) := by
    rcases hpath with rfl | hpath
    · change Abreast g _ _ t (g.reuses f _ area path) (g.reuses f _ area path) _
      unfold Generator.reuses
      split
      · exact Abreast.reuse h.layout takes_reusedControlNotFound _ _
      · exact done false
    · intro s₁ s₂ hs hw hb
      have hnone := Generator.childBind_eq_none hw (hpath _ hs) f.bind
      have hnone' : Generator.childBind s₂.tree f.bind path = none := by
        rw [hb.same]
        exact hnone
      rw [reuses_idle f _ area hnone, reuses_idle f _ area hnone']
      exact ⟨.refl, hw, hb, rfl, trivial⟩
  intro s₁ s₂ hs hw hb
  have hkeeps := hplain s₁ s₂ hs hw hb
  refine { hkeeps with gives := fun hreused => ?_ }
  by_contra hnot
  have hnone := Generator.childBind_eq_none hw (fun hn => hnot (hn.mono hkeeps.extend)) f.bind
  rw [reuses_idle f _ area hnone] at hreused
  cases hreused

theorem addText (h : Pruning g L s' t) (f : Filling) {c c' : ComplexType} (hc : c.Pruned L c')
    (area : NodeId) :
    Pair g root s' due due' due due' t (g.addText f c area)
      ((g.withSchema s').addText f c' area) := by
  rw [hc.rest]
  simp only [Generator.addText, schema_withSchema, h.alike.element_eq, h.alike.simpleContent_eq,
    h.alike.addField_eq]
  split
  · exact Abreast.addField h.layout takes_missingRepeatBind _ _ _ .here _
  · exact Abreast.addField h.layout takes_missingRepeatBind _ _ _ .here _
  · exact done ()

/-! Attributes. -/

/-- An attribute without a type is passed over only if there is one of its name with a type. -/
theorem pass_use (h : Pruning g L s' t) {id : UseId} {text : String}
    (htext : t.textOf (g.schema.use id).decl.name = some text)
    (hfound : g.IsNodeset t ("@" ++ text)) {as bs : List Anomaly}
    (hdue : g.Accounts root s' due due' as bs) :
    g.Accounts root s' (due ++ g.schema.useAnomalies id) (due' ++ g.schema.useAnomalies id)
      as bs := by
  rw [Schema.useAnomalies]
  split
  · next htype =>
    refine hdue.pass (.inr ?_)
    by_contra hnone
    refine Generator.not_isNodeset_use h.named h.apart htext (fun id' hid' => ?_) hfound
    by_contra htyped
    exact hnone ⟨id, id', htype, rfl, hid', Option.isSome_iff_ne_none.2 htyped⟩
  · rwa [List.append_nil, List.append_nil]

theorem addUse (h : Pruning g L s' t) (f : Filling) (area : NodeId) (e : Element) (id : UseId) :
    Pair g root s' due due' (due ++ g.schema.useAnomalies id)
      (due' ++ g.schema.useAnomalies id) t (g.addUse f area e id)
      ((g.withSchema s').addUse f area e id) := by
  unfold Generator.addUse
  simp only [schema_withSchema, h.alike.use_eq, h.alike.addField_eq]
  refine (Abreast.qualified _).bind fun named t₁ ht₁ hnamed => ?_
  refine ((h.later ht₁).reuses f area ?_).bind fun reused t₂ ht₂ hreused => ?_
  · by_cases hlost : L.uses id
    · exact .inr fun t₂ ht₂ => Generator.not_isNodeset_use h.named (ht₂.apart (ht₁.apart h.apart))
        (ht₂.textOf hnamed) (h.untypedUses id hlost)
    · exact .inl (h.pruned.inheritsUse_eq f.type hlost)
  split
  · next htrue =>
    refine (done e).settle fun as bs hdue => ?_
    exact (h.later (ht₁.trans ht₂)).pass_use (ht₂.textOf hnamed) (hreused htrue) hdue
  · rw [Schema.useAnomalies]
    cases htype : (g.schema.use id).decl.type with
    | none =>
      rw [if_pos rfl]
      exact (Abreast.report fun as bs hdue => hdue.report _).bind fun _ _ _ _ => done e
    | some type =>
      rw [if_neg (Option.some_ne_none _), List.append_nil, List.append_nil]
      refine Abreast.bind (Abreast.addField h.layout takes_missingRepeatBind _ _ _ ?_ _)
        fun _ _ _ _ => done _
      exact .use (htype ▸ rfl) (ht₂.textOf hnamed)

/-- The run without a lost attribute misses an anomaly and nothing else. -/
theorem dropUse (h : Pruning g L s' t) (f : Filling) (area : NodeId) (e : Element) {id : UseId}
    (hlost : L.uses id) :
    Pair g root s' due due' (due ++ g.schema.useAnomalies id) due' t
      (g.addUse f area e id) (pure e) := by
  have htype := h.untypedUses id hlost id rfl
  rw [Schema.useAnomalies, if_pos htype]
  refine (Abreast.drop (fun as bs hdue => hdue.drop _) fun s hs hw => ?_).forget
  obtain ⟨r, hrun, htext⟩ := ((h.knownUses id hlost).later hs).qualified
  have hnone := Generator.childBind_eq_none hw (Generator.not_isNodeset_use h.named
    (hs.apart h.apart) htext (h.untypedUses id hlost)) f.bind
  rw [Generator.addUse, run_bind hrun]
  dsimp only
  rw [run_bind (reuses_idle f _ area hnone), htype]
  rfl

theorem addUses (h : Pruning g L s' t) (f : Filling) (area : NodeId) (e : Element)
    {ids ids' : List UseId} (hids : Thins L.uses Eq ids ids') :
    Pair g root s' due due' (due ++ ids.flatMap g.schema.useAnomalies)
      (due' ++ ids'.flatMap g.schema.useAnomalies) t (g.addUses f area e ids)
      ((g.withSchema s').addUses f area e ids') := by
  induction hids generalizing t e due due' with
  | nil =>
    rw [List.flatMap_nil, List.append_nil, List.append_nil]
    exact done e
  | @keep id _ ids ids' hid _ ih =>
    subst hid
    rw [List.flatMap_cons, List.flatMap_cons, ← List.append_assoc,
      ← List.append_assoc]
    exact (h.addUse f area e id).bind fun e' t₁ ht₁ _ => ih (h.later ht₁) e'
  | drop hlost _ ih =>
    rw [List.flatMap_cons, ← List.append_assoc]
    exact (h.dropUse f area e hlost).bind (q := fun e => (g.withSchema s').addUses f area e _)
      fun e' t₁ ht₁ _ => ih (h.later ht₁) e'

/-! Elements. -/

/-- Two ways to add children keep abreast, and what is lost is left out. -/
structure Adders (g : Generator) (L : Losses) (root : ElementId) (s' : Schema) (t : PrefixTable)
    (child child' : ChildAdder) : Prop where
  pairs : ∀ {t' due due'}, t.Extends t' → ∀ spot e {id} {path} occurs, g.IsPathOf t' id path →
    g.Leads root id → Pair g root s' due due' (due ++ g.schema.elementAnomalies id)
      (due' ++ g.schema.elementAnomalies id) t' (child spot e id path occurs)
      (child' spot e id path occurs)
  skips : ∀ {t' due due'}, t.Extends t' → ∀ spot e {id} path occurs, L.elements id →
    Abreast g (g.Accounts root s' due due')
      (g.Accounts root s' (due ++ g.schema.elementAnomalies id) due') t'
      (child spot e id path occurs) (pure none) fun _ r => r = none

theorem Adders.later {child child' : ChildAdder} (h : Adders g L root s' t child child')
    (ht : t.Extends t') : Adders g L root s' t' child child' :=
  ⟨fun ht' => h.pairs (ht.trans ht'), fun ht' => h.skips (ht.trans ht')⟩

variable {child child' : ChildAdder}

/-- An element without a type is passed over only if there is one of its name with a type. -/
theorem pass_element (h : Pruning g L s' t) {id : ElementId} {text : String}
    (htext : t.textOf (g.schema.element id).name = some text) (hfound : g.IsNodeset t text)
    {as bs : List Anomaly} (hdue : g.Accounts root s' due due' as bs) :
    g.Accounts root s' (due ++ g.schema.elementAnomalies id) (due' ++ g.schema.elementAnomalies id)
      as bs := by
  rw [Schema.elementAnomalies]
  split
  · next htype =>
    refine hdue.pass (.inl ?_)
    by_contra hnone
    refine Generator.not_isNodeset_element h.named h.apart htext (fun id' hid' => ?_) hfound
    by_contra htyped
    exact hnone ⟨id, id', htype, rfl, hid', Option.isSome_iff_ne_none.2 htyped⟩
  · rwa [List.append_nil, List.append_nil]

theorem addChildElement (h : Pruning g L s' t) (hchild : Adders g L root s' t child child')
    (f : Filling) (area : NodeId) (e : Element) {id : ElementId} {occurs : Occurs}
    (hoccurs : occurs.isEmpty = false) (hled : g.Leads root id) :
    Pair g root s' due due' (due ++ g.schema.elementAnomalies id)
      (due' ++ g.schema.elementAnomalies id) t (g.addChildElement child f area e id occurs)
      ((g.withSchema s').addChildElement child' f area e id occurs) := by
  unfold Generator.addChildElement
  simp only [schema_withSchema, h.alike.element_eq, hoccurs, Bool.false_eq_true, if_false]
  refine (Abreast.qualified _).bind fun named t₁ ht₁ hnamed => ?_
  refine ((h.later ht₁).reuses f area ?_).bind fun reused t₂ ht₂ hreused => ?_
  · by_cases hlost : ∃ lost, L.elements lost ∧
        (g.schema.element lost).name = (g.schema.element id).name
    · obtain ⟨lost, hlost, hname⟩ := hlost
      refine .inr fun t₂ ht₂ => Generator.not_isNodeset_element h.named
        (ht₂.apart (ht₁.apart h.apart)) (ht₂.textOf hnamed) fun id' hid' => ?_
      exact h.untypedElements lost hlost id' (hid'.trans hname.symm)
    · exact .inl (h.pruned.inheritsElement_eq f.type fun lost hid hname =>
        hlost ⟨lost, hid, hname⟩)
  split
  · next htrue =>
    refine (done e).settle fun as bs hdue => ?_
    exact (h.later (ht₁.trans ht₂)).pass_element (ht₂.textOf hnamed) (hreused htrue) hdue
  · refine (hchild.pairs (ht₁.trans ht₂) _ _ _ (.child (ht₂.textOf hnamed)) hled).bind
      fun data _ _ _ => ?_
    cases data with
    | none => exact done e
    | some data => exact done (e.addChild data)

/-- The run without a lost element misses an anomaly and nothing else. -/
theorem dropChildElement (h : Pruning g L s' t) (hchild : Adders g L root s' t child child')
    (f : Filling) (area : NodeId) (e : Element) {id : ElementId} {occurs : Occurs}
    (hoccurs : occurs.isEmpty = false) (hlost : L.elements id) :
    Pair g root s' due due' (due ++ g.schema.elementAnomalies id) due' t
      (g.addChildElement child f area e id occurs) (pure e) := by
  unfold Generator.addChildElement
  simp only [hoccurs, Bool.false_eq_true, if_false]
  intro s₁ s₂ hs hw hb
  obtain ⟨r, hrun, htext⟩ := ((h.knownElements id hlost).later hs).qualified
  have hnone := Generator.childBind_eq_none hw (Generator.not_isNodeset_element h.named
    (hs.apart h.apart) htext (h.untypedElements id hlost)) f.bind
  rw [run_bind hrun, run_bind (reuses_idle f _ area hnone)]
  refine (hchild.skips .refl ⟨f.bind, area⟩ _ r.2 occurs hlost).bind (q := fun _ => pure e)
    (fun data _ _ hdata => ?_) s₁ s₂ hs hw hb
  rw [hdata]
  exact done e

/-! Content models. -/

theorem dropParticle (h : Pruning g L s' t) (hchild : Adders g L root s' t child child')
    (f : Filling) (area : NodeId) (e : Element) {p : Particle} (hp : p.IsLost L) :
    Pair g root s' due due' (due ++ g.schema.particleAnomalies f.owner p) due' t
      (Generator.addParticle g child f area e p) (pure e) := by
  cases p with
  | element occurs id =>
    rw [Generator.addParticle, Schema.particleAnomalies]
    cases hoccurs : occurs.isEmpty with
    | true =>
      rw [if_pos rfl, List.append_nil, Generator.addChildElement, if_pos hoccurs]
      exact done e
    | false => exact h.dropChildElement hchild f area e hoccurs hp
  | group => exact hp.elim
  | wildcard occurs w =>
    rw [Generator.addParticle]
    exact (Abreast.drop (fun as bs hdue => hdue.drop _) fun _ _ _ => rfl).forget

mutual

theorem addParticle {t : PrefixTable} {due due' : List Anomaly} (h : Pruning g L s' t)
    (hchild : Adders g L root s' t child child') (f : Filling) (area : NodeId) (e : Element)
    (p : Particle) {p' : Particle} (hp : p.Pruned L p')
    (hled : ∀ c ∈ p.children, g.Leads root c.1) :
    Pair g root s' due due' (due ++ g.schema.particleAnomalies f.owner p)
      (due' ++ s'.particleAnomalies f.owner p') t (Generator.addParticle g child f area e p)
      (Generator.addParticle (g.withSchema s') child' f area e p') := by
  cases p with
  | element occurs id =>
    cases hp
    rw [Generator.addParticle, Generator.addParticle, Schema.particleAnomalies,
      Schema.particleAnomalies, h.elementAnomalies_eq]
    cases hoccurs : occurs.isEmpty with
    | true =>
      rw [if_pos rfl, List.append_nil, List.append_nil, Generator.addChildElement,
        Generator.addChildElement, if_pos hoccurs, if_pos hoccurs]
      exact done e
    | false =>
      have hmem : (id, occurs) ∈ (Particle.element occurs id).children := by
        rw [Particle.children, if_neg (by simp [hoccurs])]
        exact List.mem_singleton_self _
      exact h.addChildElement hchild f area e hoccurs (hled _ hmem)
  | group occurs compositor ps =>
    cases hp with
    | @group _ _ _ ps' hps =>
      rw [Generator.addParticle, Generator.addParticle, Schema.particleAnomalies,
        Schema.particleAnomalies]
      refine (Abreast.itemsArea h.layout takes_missingRepeatBind ⟨f.bind, area⟩ occurs).bind
        fun area' t₁ ht₁ _ => ?_
      exact addParticles (h.later ht₁) (hchild.later ht₁) f area' e ps hps hled
  | wildcard occurs w =>
    cases hp
    rw [Generator.addParticle, Generator.addParticle, Schema.particleAnomalies,
      Schema.particleAnomalies]
    simp only [schema_withSchema, h.alike.element_eq]
    exact (Abreast.report fun as bs hdue => hdue.report _).bind fun _ _ _ _ => done e

theorem addParticles {t : PrefixTable} {due due' : List Anomaly} (h : Pruning g L s' t)
    (hchild : Adders g L root s' t child child') (f : Filling) (area : NodeId) (e : Element)
    (ps : List Particle) {ps' : List Particle}
    (hps : Thins (Particle.IsLost L) (Particle.Pruned L) ps ps')
    (hled : ∀ c ∈ Particle.childrenOf ps, g.Leads root c.1) :
    Pair g root s' due due' (due ++ g.schema.particlesAnomalies f.owner ps)
      (due' ++ s'.particlesAnomalies f.owner ps') t (Generator.addParticles g child f area e ps)
      (Generator.addParticles (g.withSchema s') child' f area e ps') := by
  cases ps with
  | nil =>
    cases hps
    rw [Generator.addParticles, Generator.addParticles, Schema.particlesAnomalies,
      Schema.particlesAnomalies, List.append_nil, List.append_nil]
    exact done e
  | cons p ps =>
    rw [Particle.childrenOf, List.forall_mem_append] at hled
    rw [Generator.addParticles, Schema.particlesAnomalies, ← List.append_assoc]
    cases hps with
    | @keep _ p' _ ps' hp rest =>
      rw [Generator.addParticles, Schema.particlesAnomalies, ← List.append_assoc]
      refine (addParticle h hchild f area e p hp hled.1).bind fun e' t₁ ht₁ _ => ?_
      exact addParticles (h.later ht₁) (hchild.later ht₁) f area e' ps rest hled.2
    | drop hp rest =>
      refine (h.dropParticle hchild f area e hp).bind
        (q := fun e => Generator.addParticles (g.withSchema s') child' f area e ps')
        fun e' t₁ ht₁ _ => ?_
      exact addParticles (h.later ht₁) (hchild.later ht₁) f area e' ps rest hled.2

end

theorem addContentModel (h : Pruning g L s' t) (hchild : Adders g L root s' t child child')
    (f : Filling) (area : NodeId) (e : Element) {c c' : ComplexType} (hc : c.Pruned L c')
    (hled : ∀ x ∈ Generator.modelChildren c, g.Leads root x.1) :
    Pair g root s' due due' (due ++ g.schema.modelAnomalies f.owner c)
      (due' ++ s'.modelAnomalies f.owner c') t (g.addContentModel child f area e c)
      ((g.withSchema s').addContentModel child' f area e c') := by
  have hcontent := hc.content
  have hidle : Pair g root s' due due' (due ++ []) (due' ++ []) t (pure e) (pure e) := by
    rw [List.append_nil, List.append_nil]
    exact done e
  unfold Generator.modelChildren at hled
  unfold Generator.addContentModel Schema.modelAnomalies
  generalize c.particle = content at hcontent hled
  generalize c'.particle = content' at hcontent
  cases hcontent with
  | none => exact hidle
  | @some p p' hp =>
    cases hp with
    | element => exact hidle
    | group occurs compositor hps =>
      exact h.addParticle hchild f area e _ (.group occurs compositor hps) hled
    | wildcard => exact hidle
  | @lost p hp =>
    cases p with
    | element => exact hidle
    | group => exact hp.elim
    | wildcard => exact hidle

/-- What becomes due when an element is filled with the content of a type. -/
theorem addComplex (h : Pruning g L s' t) (hchild : Adders g L root s' t child child')
    {f : Filling} (hf : g.FilledWith root f.owner f.type) (area : NodeId) (e : Element)
    (occurs : Occurs) :
    Pair g root s' due due' (due ++ g.schema.contentAnomalies f.owner f.type)
      (due' ++ s'.contentAnomalies f.owner f.type) t (g.addComplex child f area e occurs)
      ((g.withSchema s').addComplex child' f area e occurs) := by
  unfold Generator.addComplex Schema.contentAnomalies
  simp only [schema_withSchema, h.alike.element_eq]
  rcases h.pruned.complex? f.type with ⟨hc, hc'⟩ | ⟨c, c', hc, hc', hpruned⟩
  · rw [hc, hc']
    dsimp only
    rw [List.append_nil, List.append_nil]
    exact done e
  · rw [hc, hc']
    dsimp only
    rw [h.useAnomalies_eq, ← List.append_assoc, ← List.append_assoc]
    refine Abreast.look fun s as => (Abreast.allocate "group").bind fun id t₁ ht₁ _ => ?_
    refine Abreast.bind (Abreast.addControl h.layout area ?_) fun group t₂ ht₂ _ => ?_
    · exact List.forall_mem_nil _
    refine (Abreast.contentOf h.layout group).bind fun content t₃ ht₃ _ => ?_
    refine Abreast.look fun s as => ?_
    refine (Abreast.itemsArea h.layout takes_missingRepeatBind ⟨_, content⟩ occurs).bind
      fun items t₄ ht₄ _ => ?_
    have h₄ := (((h.later ht₁).later ht₂).later ht₃).later ht₄
    refine (h₄.addText f hpruned items).bind fun _ t₅ ht₅ _ => ?_
    refine ((h₄.later ht₅).addUses f items e hpruned.uses).bind fun e' t₆ ht₆ _ => ?_
    have ht := ((((ht₁.trans ht₂).trans ht₃).trans ht₄).trans ht₅).trans ht₆
    exact (h.later ht).addContentModel (hchild.later ht) f items e' hpruned fun x => hf.leads hc

end Pruning

end SchemaForms
