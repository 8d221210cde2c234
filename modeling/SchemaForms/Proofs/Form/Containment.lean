import SchemaForms.Proofs.Form.Furnishing
import SchemaForms.Proofs.Form.Openings
import SchemaForms.Proofs.Form.Pruned
import SchemaForms.Proofs.Form.Shown

/-!
Anomalies are contained.  A form of a pruned schema is the form of the original schema, with the
same nodes, identifiers, prefixes and skeleton; only anomalies of what has been pruned are missing.
-/

namespace SchemaForms

open Synthesis
open Xml (Element)

namespace Pruning

open Generator (Filling ChildAdder schema_withSchema settings_withSchema substitutes_withSchema)
open Generator.Accounts (takes_missingRepeatBind)
open Abreast (done)

variable {g : Generator} {L : Losses} {s' : Schema} {t : PrefixTable} {root owner : ElementId}
  {due due' : List Anomaly} {child child' : ChildAdder}

theorem complex_of_substitutes (h : Pruning g L s' t) {type u : TypeId}
    (hu : u ∈ g.substitutes.of type) : (g.schema.complex? u).isSome := by
  rw [h.derived] at hu
  exact Substitutes.complex_of_canSubstitute (Substitutes.canSubstitute_of_mem hu)

/-! Elements of several types. -/

theorem addCase (h : Pruning g L s' t) (hchild : Adders g L root s' t child child')
    (switch bind : NodeId) (declared : TypeId) (isFirst : Bool) (e : Element) {type : TypeId}
    (hfilled : g.FilledWith root owner type) (hcomplex : (g.schema.complex? type).isSome)
    (caseId : String) :
    Pair g root s' due due' (due ++ g.schema.contentAnomalies owner type)
      (due' ++ s'.contentAnomalies owner type) t
      (g.addCase child switch bind owner declared isFirst e type caseId)
      ((g.withSchema s').addCase child' switch bind owner declared isFirst e type caseId) := by
  unfold Generator.addCase
  simp only [schema_withSchema, h.alike.element_eq, h.alike.displayName_eq,
    h.alike.applyRelevance_eq]
  refine Abreast.bind (Abreast.create ?_) fun node t₁ ht₁ _ => ?_
  · exact List.forall_mem_nil _
  refine (Abreast.append switch node).bind fun _ t₂ ht₂ _ => ?_
  refine (Abreast.contentOf h.layout node).bind fun content t₃ ht₃ _ => ?_
  refine Abreast.look fun s as => (Abreast.swapReused []).bind fun outer t₄ ht₄ _ => ?_
  have ht := ((ht₁.trans ht₂).trans ht₃).trans ht₄
  refine ((h.later ht).addComplex (hchild.later ht)
    (f := ⟨bind, type, owner, decide (type ≠ declared)⟩) hfilled content _ .once).bind
    fun data t₅ ht₅ _ => ?_
  refine (Abreast.swapReused outer).bind fun reused t₆ ht₆ _ => ?_
  split
  · refine (Abreast.applyRelevance bind _ reused fun u hu => ?_).bind fun _ _ _ _ => done _
    rcases List.mem_cons.1 hu with rfl | hu
    · exact hcomplex
    · exact h.complex_of_substitutes hu
  · exact (done _).bind fun _ _ _ _ => done _

theorem addCases (h : Pruning g L s' t) (hchild : Adders g L root s' t child child')
    (switch bind : NodeId) (declared : TypeId) (isFirst : Bool) (e : Element) {types : List TypeId}
    {ids : List String} (hids : ids.length = types.length)
    (htypes : ∀ u ∈ types, g.FilledWith root owner u ∧ (g.schema.complex? u).isSome) :
    Pair g root s' due due' (due ++ types.flatMap (g.schema.contentAnomalies owner))
      (due' ++ types.flatMap (s'.contentAnomalies owner)) t
      (g.addCases child switch bind owner declared isFirst e (types.zip ids))
      ((g.withSchema s').addCases child' switch bind owner declared isFirst e
        (types.zip ids)) := by
  induction types generalizing t isFirst e ids due due' with
  | nil =>
    rw [List.flatMap_nil, List.flatMap_nil, List.append_nil, List.append_nil]
    exact done e
  | cons u types ih =>
    obtain ⟨caseId, ids, rfl⟩ := List.exists_cons_of_length_eq_add_one hids
    obtain ⟨⟨hfilled, hcomplex⟩, htypes⟩ := List.forall_mem_cons.1 htypes
    rw [List.flatMap_cons, List.flatMap_cons, ← List.append_assoc, ← List.append_assoc]
    refine (h.addCase hchild switch bind declared isFirst e hfilled hcomplex caseId).bind
      fun e' t₁ ht₁ _ => ?_
    exact ih (h.later ht₁) (hchild.later ht₁) false e' (Nat.succ.inj hids) htypes

theorem addSwitch (h : Pruning g L s' t) (hchild : Adders g L root s' t child child') (spot : Spot)
    (e : Element) {declared : TypeId} (hdeclared : (g.schema.element owner).type = some declared)
    {types : List TypeId} {path : String} (hpath : g.IsPathOf t owner path) (occurs : Occurs)
    (htypes : ∀ u ∈ types, g.FilledWith root owner u ∧ (g.schema.complex? u).isSome) :
    Pair g root s' due due' (due ++ types.flatMap (g.schema.contentAnomalies owner))
      (due' ++ types.flatMap (s'.contentAnomalies owner)) t
      (g.addSwitch child spot e owner declared types path occurs)
      ((g.withSchema s').addSwitch child' spot e owner declared types path occurs) := by
  have htyped : (g.schema.element owner).type.isSome := hdeclared ▸ rfl
  unfold Generator.addSwitch
  simp only [schema_withSchema, settings_withSchema, h.alike.element_eq, h.alike.typeChoices_eq,
    h.alike.typeValue_eq]
  refine (Abreast.allocate "select1").bind fun selectId t₁ ht₁ _ => ?_
  refine Abreast.bind (Abreast.addBind spot.scope (.typeOf htyped (hpath.mono ht₁)) ?_)
    fun typeBind t₂ ht₂ _ => ?_
  · unfold Generator.typeBind
    split <;> rfl
  have hpath₂ := hpath.mono (ht₁.trans ht₂)
  refine Abreast.bind (Abreast.addBind spot.scope (.element htyped hpath₂) rfl)
    fun bind t₃ ht₃ _ => ?_
  refine (Abreast.itemsArea h.layout takes_missingRepeatBind spot occurs).bind
    fun area t₄ ht₄ _ => ?_
  refine (Abreast.promptChoice _ types.length).bind fun prompt t₅ ht₅ hprompt => ?_
  refine (Abreast.typeChoices fun u hu => (htypes u hu).2).bind fun choices t₆ ht₆ hchoices => ?_
  refine Abreast.bind (Abreast.addControl h.layout area ?_) fun _ t₇ ht₇ _ => ?_
  · intro choice hchoice htoggle
    rcases List.mem_append.1 hchoice with hchoice | hchoice
    · rw [hprompt choice hchoice] at htoggle
      cases htoggle
    · obtain ⟨c, hc, rfl⟩ := List.mem_map.1 hchoice
      exact hchoices.1 c hc htoggle
  refine (Abreast.allocate "trigger").bind fun triggerId t₈ ht₈ _ => ?_
  refine (Abreast.allocate "action").bind fun actionId t₉ ht₉ _ => ?_
  refine (Abreast.allocate "dispatch").bind fun dispatchId t₁₀ ht₁₀ _ => ?_
  refine Abreast.bind (Abreast.create ?_) fun trigger t₁₁ ht₁₁ _ => ?_
  · exact List.forall_mem_nil _
  refine (Abreast.append area trigger).bind fun _ t₁₂ ht₁₂ _ => ?_
  refine (Abreast.allocate "switch").bind fun switchId t₁₃ ht₁₃ _ => ?_
  refine Abreast.bind (Abreast.addControl h.layout area ?_) fun switch t₁₄ ht₁₄ _ => ?_
  · exact List.forall_mem_nil _
  refine (Abreast.typeValue _).bind fun first t₁₅ ht₁₅ _ => ?_
  have ht : t.Extends t₁₅ := (((((((((((((ht₁.trans ht₂).trans ht₃).trans ht₄).trans ht₅).trans
    ht₆).trans ht₇).trans ht₈).trans ht₉).trans ht₁₀).trans ht₁₁).trans ht₁₂).trans ht₁₃).trans
    ht₁₄).trans ht₁₅
  exact (h.later ht).addCases (hchild.later ht) switch bind.node declared true _
    (by rw [List.length_map, hchoices.2]) htypes

/-! Elements. -/

theorem addPlain (h : Pruning g L s' t) (hchild : Adders g L root s' t child child') (spot : Spot)
    (e : Element) {declared resolved : TypeId}
    (hdeclared : (g.schema.element owner).type = some declared)
    (hfilled : g.FilledWith root owner resolved) {path : String} (hpath : g.IsPathOf t owner path)
    (occurs : Occurs) :
    Pair g root s' due due' (due ++ g.schema.contentAnomalies owner resolved)
      (due' ++ s'.contentAnomalies owner resolved) t
      (g.addPlain child spot e owner declared resolved path occurs)
      ((g.withSchema s').addPlain child' spot e owner declared resolved path occurs) := by
  have hbind {t₁ : PrefixTable} (ht₁ : t.Extends t₁) (e : Element) :
      Pair g root s' due due' (due ++ g.schema.contentAnomalies owner resolved)
        (due' ++ s'.contentAnomalies owner resolved) t₁
        (do g.addComplex child ⟨(← Generator.addBind spot.scope {} path).node, resolved, owner,
              false⟩ spot.area e occurs)
        (do (g.withSchema s').addComplex child' ⟨(← Generator.addBind spot.scope {} path).node,
              resolved, owner, false⟩ spot.area e occurs) := by
    refine Abreast.bind (Abreast.addBind spot.scope
      (.element (hdeclared ▸ rfl) (hpath.mono ht₁)) rfl) fun bind t₂ ht₂ _ => ?_
    exact (h.later (ht₁.trans ht₂)).addComplex (hchild.later (ht₁.trans ht₂))
      (f := ⟨bind.node, resolved, owner, false⟩) hfilled spot.area e occurs
  unfold Generator.addPlain
  simp only [h.alike.typeValue_eq]
  split
  · exact hbind .refl e
  · exact (Abreast.typeValue resolved).bind fun value t₁ ht₁ _ => hbind ht₁ _

theorem expand (h : Pruning g L s' t) (hchild : Adders g L root s' t child child') (spot : Spot)
    (e : Element) {id : ElementId} {path : String} (hpath : g.IsPathOf t id path) (occurs : Occurs)
    (hled : g.Leads root id) :
    Pair g root s' due due' (due ++ g.schema.elementAnomalies id)
      (due' ++ g.schema.elementAnomalies id) t (g.expand child spot e id path occurs)
      ((g.withSchema s').expand child' spot e id path occurs) := by
  have hnone (type : TypeId) : (s'.complex? type).isNone = (g.schema.complex? type).isNone :=
    h.alike.complex?_eq (f := Option.isNone) (fun _ _ _ => rfl) type
  unfold Generator.expand Schema.elementAnomalies
  simp only [schema_withSchema, h.alike.element_eq, h.alike.displayName_eq, h.alike.candidates_eq,
    h.alike.addField_eq, hnone]
  cases hdeclared : (g.schema.element id).type with
  | none =>
    rw [if_pos rfl]
    exact (Abreast.report fun as bs hdue => hdue.report _).bind fun _ _ _ _ => done none
  | some declared =>
    dsimp only
    rw [if_neg (Option.some_ne_none _), List.append_nil, List.append_nil]
    have htyped : (g.schema.element id).type.isSome := hdeclared ▸ rfl
    split
    · exact (Abreast.addField h.layout takes_missingRepeatBind spot declared _
        (.element htyped hpath) occurs).bind fun _ _ _ _ => done (some e)
    · next hcomplex =>
      have hcomplex : (g.schema.complex? declared).isSome := by
        rwa [Bool.not_eq_true, Option.isNone_eq_false_iff] at hcomplex
      have hfilled {u : TypeId} (hu : u ∈ g.fillings declared) : g.FilledWith root id u :=
        ⟨hled, declared, hdeclared, hcomplex, hu⟩
      have hanomalies (s : Schema) : g.fillingAnomalies s id =
          (g.fillings declared).flatMap (s.contentAnomalies id) := by
        rw [Generator.fillingAnomalies, hdeclared]
      refine (Abreast.enter id declared).bind fun entered t₁ ht₁ _ => ?_
      split
      · have h₁ := h.later ht₁
        have hchild₁ := hchild.later ht₁
        have hpath₁ := hpath.mono ht₁
        have hleave {t' : PrefixTable} (data : Element) : Pair g root s'
            (due ++ (g.fillings declared).flatMap (g.schema.contentAnomalies id))
            (due' ++ (g.fillings declared).flatMap (s'.contentAnomalies id)) due due' t'
            (do leave; return some data) (do leave; return some data) := by
          rw [← hanomalies, ← hanomalies]
          exact (Abreast.leave.bind fun _ _ _ _ => done (some data)).settle
            fun as bs hdue => hdue.fill hled
        rcases hcandidates : g.candidates declared with _ | ⟨resolved, _ | ⟨other, rest⟩⟩
        · have hone : g.fillings declared = [declared] := by rw [Generator.fillings, hcandidates]
          simp only [hone, List.flatMap_singleton] at hleave
          exact (h₁.addPlain hchild₁ spot e hdeclared
            (hfilled (hone ▸ List.mem_singleton_self _)) hpath₁ occurs).bind
            fun data _ _ _ => hleave data
        · have hone : g.fillings declared = [resolved] := by rw [Generator.fillings, hcandidates]
          simp only [hone, List.flatMap_singleton] at hleave
          exact (h₁.addPlain hchild₁ spot e hdeclared
            (hfilled (hone ▸ List.mem_singleton_self _)) hpath₁ occurs).bind
            fun data _ _ _ => hleave data
        · have hall : g.fillings declared = resolved :: other :: rest := by
            rw [Generator.fillings, hcandidates]
          rw [hall] at hleave
          refine (h₁.addSwitch hchild₁ spot e hdeclared hpath₁ occurs fun u hu => ?_).bind
            fun data _ _ _ => hleave data
          exact ⟨hfilled (hall ▸ hu),
            Generator.complex_of_mem_candidates h.derived (hcandidates ▸ hu) hcomplex⟩
      · exact (Abreast.report fun as bs hdue => (hdue.report _).remit trivial).bind
          fun _ _ _ _ => done none

/-- An element without a type leaves an anomaly behind and nothing else. -/
theorem skip (spot : Spot) (e : Element) {id : ElementId}
    (htype : (g.schema.element id).type = none) (path : String) (occurs : Occurs) :
    Abreast g (g.Accounts root s' due due')
      (g.Accounts root s' (due ++ g.schema.elementAnomalies id) due') t
      (g.expand child spot e id path occurs) (pure none) fun _ r => r = none := by
  rw [Schema.elementAnomalies, if_pos htype]
  refine Abreast.drop (fun as bs hdue => hdue.drop _) fun s _ _ => ?_
  unfold Generator.expand
  simp only [htype]
  rfl

/-- The end of the expansions that can be opened, where only what has no type leaves a trace. -/
def atLimit (g : Generator) : ChildAdder := fun _ _ id _ _ =>
  match (g.schema.element id).type with
  | none => do
    report (.unresolvedType (g.schema.element id).name.localName)
    return none
  | some _ => return none

theorem addWithin (h : Pruning g L s' t) (openings : Nat) :
    Adders g L root s' t (g.addWithin (atLimit g) openings)
      ((g.withSchema s').addWithin (atLimit (g.withSchema s')) openings) := by
  induction openings generalizing t with
  | zero =>
    constructor
    · intro t' due due' ht spot e id path occurs _ _
      unfold Generator.addWithin atLimit Schema.elementAnomalies
      rw [schema_withSchema, h.alike.element_eq]
      cases htype : (g.schema.element id).type with
      | none =>
        rw [if_pos rfl]
        exact (Abreast.report fun as bs hdue => hdue.report _).bind fun _ _ _ _ => done none
      | some type =>
        rw [if_neg (Option.some_ne_none _), List.append_nil, List.append_nil]
        exact done none
    · intro t' due due' ht spot e id path occurs hlost
      have htype := h.untypedElements id hlost id rfl
      rw [Schema.elementAnomalies, if_pos htype]
      refine Abreast.drop (fun as bs hdue => hdue.drop _) fun s _ _ => ?_
      unfold Generator.addWithin atLimit
      rw [htype]
      rfl
  | succ openings ih =>
    constructor
    · intro t' due due' ht spot e id path occurs hpath hled
      exact (h.later ht).expand (ih (h.later ht)) spot e hpath occurs hled
    · intro t' due due' ht spot e id path occurs hlost
      exact skip spot e (h.untypedElements id hlost id rfl) path occurs

/-- As many expansions can be opened as there may be. -/
theorem addElement (h : Pruning g L s' t) :
    Adders g L root s' t (g.addElement (g.schema.elements.size + 1))
      ((g.withSchema s').addElement (g.schema.elements.size + 1)) := by
  have hsize : (g.withSchema s').schema.elements.size = g.schema.elements.size := by
    rw [schema_withSchema, h.alike.elements]
  have heq := g.addWithin_eq (atLimit g) 0
  have heq' := (g.withSchema s').addWithin_eq (atLimit (g.withSchema s')) 0
  rw [hsize] at heq'
  rw [← heq, ← heq']
  exact h.addWithin _

/-! Forms. -/

theorem build (h : Pruning g L s' t) (r : Request) (nsPrefix : Option String) {rootName : String}
    (hname : t.textOf (g.schema.element root).name = some rootName) :
    Pair g root s' due due' due due' t (g.build r root nsPrefix rootName)
      ((g.withSchema s').build r root nsPrefix rootName) := by
  have hroot {as bs : List Anomaly} (hdue : g.Accounts root s'
      (due ++ g.schema.elementAnomalies root) (due' ++ g.schema.elementAnomalies root) as bs) :
      g.Accounts root s' due due' as bs := by
    rw [Schema.elementAnomalies] at hdue
    split at hdue
    · next htype => exact hdue.remit ⟨htype, rfl⟩
    · rwa [List.append_nil, List.append_nil] at hdue
  unfold Generator.build
  simp only [schema_withSchema, h.alike.element_eq, h.alike.elements]
  refine (Abreast.onTree _ fun _ _ _ htree => h.layout.envelope (fun _ => trivial) htree).bind
    fun envelope t₁ ht₁ _ => ?_
  refine (Abreast.allocate "model").bind fun modelId t₂ ht₂ _ => ?_
  refine Abreast.bind (Abreast.create (by exact trivial)) fun model t₃ ht₃ _ => ?_
  refine (Abreast.onTree _ fun _ _ _ htree => h.layout.model (fun _ => trivial) htree model).bind
    fun container t₄ ht₄ _ => ?_
  refine (Abreast.append envelope container).bind fun _ t₅ ht₅ _ => ?_
  refine (Abreast.onTree _ fun _ _ _ htree => h.layout.form (fun _ => trivial) htree envelope).bind
    fun form t₆ ht₆ _ => ?_
  refine (Abreast.allocate "instance").bind fun instanceId t₇ ht₇ _ => ?_
  refine Abreast.bind (Abreast.create (by exact trivial)) fun data t₈ ht₈ _ => ?_
  refine (Abreast.append model data).bind fun _ t₉ ht₉ _ => ?_
  refine (Abreast.contentOf h.layout form).bind fun content t₁₀ ht₁₀ _ => ?_
  have ht : t.Extends t₁₀ := ((((((((ht₁.trans ht₂).trans ht₃).trans ht₄).trans ht₅).trans
    ht₆).trans ht₇).trans ht₈).trans ht₉).trans ht₁₀
  refine Abreast.bind (((h.later ht).addElement.pairs .refl ⟨model, content⟩ _ .once
    (.root (ht.textOf hname)) .refl).settle fun as bs => hroot) fun filled t₁₁ ht₁₁ _ => ?_
  refine (Abreast.allocate "submission").bind fun submissionId t₁₂ ht₁₂ _ => ?_
  refine Abreast.bind (Abreast.create (by exact trivial)) fun submission t₁₃ ht₁₃ _ => ?_
  refine (Abreast.append model submission).bind fun _ t₁₄ ht₁₄ _ => ?_
  refine (Abreast.allocate "submit").bind fun submitId t₁₅ ht₁₅ _ => ?_
  refine Abreast.bind (Abreast.addControl h.layout content ?_) fun _ _ _ _ => done _
  exact List.forall_mem_nil _

end Pruning

/-! Results. -/

theorem PrefixTable.knows_qualified (name : QName) (s : Synthesis) :
    (qualified name s).2.prefixes.Knows name := by
  intro ns hns
  have hspells := PrefixTable.spells_qualified name s
  generalize (qualified name s).1.1 = leading at hspells
  cases hspells with
  | bare => cases hns
  | @prefixed nspace p h => exact ⟨p, Option.some.inj hns ▸ h⟩

/-- What can be left out of a schema without a trace: declarations without types, their names in the
target namespace or in none, when nothing of the same name has a type. -/
structure Schema.Idle (s : Schema) (L : Losses) : Prop where
  elements : ∀ id, L.elements id → ∀ id', (s.element id').name = (s.element id).name →
    (s.element id').type = none
  uses : ∀ id, L.uses id → ∀ id', (s.use id').decl.name = (s.use id).decl.name →
    (s.use id').decl.type = none
  elementNames : ∀ id, L.elements id → ∀ ns, (s.element id).name.nspace = some ns →
    s.target = some ns
  useNames : ∀ id, L.uses id → ∀ ns, (s.use id).decl.name.nspace = some ns → s.target = some ns

theorem anomalies_qualified (name : QName) (s : Synthesis) :
    (qualified name s).2.anomalies = s.anomalies := by
  unfold qualified
  cases name.nspace <;> rfl

namespace Generator

variable {g : Generator} {L : Losses} {s' : Schema}

/-- The pruning is in force once the name of the root has been written. -/
theorem pruning_qualified (hl : g.layout.Decorates)
    (hsubstitutes : g.substitutes = Substitutes.ofSchema g.schema) (hn : g.schema.NCNamed)
    (hpruned : g.schema.Pruned L s') (hidle : g.schema.Idle L) {root : ElementId}
    (hroot : (g.schema.element root).name.nspace = g.schema.target) :
    Pruning g L s' (qualified (g.schema.element root).name .initial).2.prefixes where
  layout := hl
  derived := hsubstitutes
  pruned := hpruned
  named := hn
  apart := (Calm.qualified (g.schema.element root).name .initial).prefixes.apart
    PrefixTable.apart_empty
  untypedElements := hidle.elements
  untypedUses := hidle.uses
  knownElements := fun id hid ns hns =>
    PrefixTable.knows_qualified _ _ ns (hroot.trans (hidle.elementNames id hid ns hns))
  knownUses := fun id hid ns hns =>
    PrefixTable.knows_qualified _ _ ns (hroot.trans (hidle.useNames id hid ns hns))

/-- The form that a build comes to. -/
def formOf (target : Option String) (time : String) (r : Request) (rootName : String)
    (built : (Element × NodeId) × Synthesis) : Form :=
  let namespaces := built.2.prefixes.declarations
  let skeleton := namespaces.foldl (fun e (p, ns) => e.declare p ns) built.1.1
  let instanceRoot := (r.instanceRoot.map prepareRoot).getD skeleton
  { tree := built.2.tree.modifyKind built.1.2 fun
      | .instanceData id _ => .instanceData id (some instanceRoot)
      | kind => kind
    rootName := rootName
    target := target
    namespaces := namespaces
    skeleton := skeleton
    anomalies := built.2.anomalies
    generatedAt := time
    base := r.base }

/-- When the root of a request is declared, there is a form unless another root is supplied. -/
theorem generate_found {r : Request} {root : ElementId}
    (hroot : g.schema.findElement (QName.of g.schema.target r.root) = some root) (time : String) :
    let named := qualified (g.schema.element root).name .initial
    g.generate time r = match r.instanceRoot.filter (!fits (g.schema.element root) ·) with
      | some wrong => .error (.synthesis (.instanceRootMismatch named.1.2 wrong.written))
      | none => .ok (formOf g.schema.target time r named.1.2
          (g.build r root named.1.1 named.1.2 named.2)) := by
  unfold generate
  rw [hroot]
  dsimp only
  generalize qualified (g.schema.element root).name .initial = named
  obtain ⟨⟨nsPrefix, rootName⟩, s⟩ := named
  dsimp only
  generalize g.build r root nsPrefix rootName s = built
  cases r.instanceRoot.filter (!fits (g.schema.element root) ·) with
  | some wrong => rfl
  | none => rfl

/-- The two builds that a request comes to keep abreast. -/
theorem build_keeps {root : ElementId}
    (h : Pruning g L s' (qualified (g.schema.element root).name .initial).2.prefixes)
    (r : Request) :
    let named := qualified (g.schema.element root).name .initial
    named.2.Keeps g (g.Accounts root s' [] []) (g.build r root named.1.1 named.1.2 named.2)
      ((g.withSchema s').build r root named.1.1 named.1.2 named.2) Unknown := by
  intro named
  have htree : named.2.tree = Tree.empty :=
    (Quiet.qualified (g.schema.element root).name).tree_eq .initial
  have hanomalies : named.2.anomalies = [] :=
    anomalies_qualified (g.schema.element root).name .initial
  refine h.build r named.1.1 (textOf_qualified _ _) named.2 named.2 .refl ?_ ⟨rfl, ?_⟩
  · rw [htree]
    exact fun _ => trivial
  · rw [hanomalies]
    exact .nil

/-- Under a schema and under the pruned one, a request comes to the same fault or to forms that
differ in their anomalies alone. -/
theorem generate_withSchema {r : Request} {root : ElementId}
    (hroot : g.schema.findElement (QName.of g.schema.target r.root) = some root)
    (h : Pruning g L s' (qualified (g.schema.element root).name .initial).2.prefixes)
    (time : String) :
    (∃ fault, g.generate time r = .error fault ∧ (g.withSchema s').generate time r = .error fault) ∨
      ∃ form anomalies, g.generate time r = .ok form ∧
        (g.withSchema s').generate time r = .ok { form with anomalies := anomalies } ∧
        g.Accounts root s' [] [] form.anomalies anomalies := by
  have hroot' : (g.withSchema s').schema.findElement
      (QName.of (g.withSchema s').schema.target r.root) = some root := by
    rw [schema_withSchema, h.alike.findElement_eq, h.alike.target]
    exact hroot
  rw [generate_found hroot, generate_found hroot', schema_withSchema, h.alike.element_eq,
    h.alike.target]
  have hbuilt := build_keeps h r
  dsimp only at hbuilt
  generalize qualified (g.schema.element root).name .initial = named at hbuilt ⊢
  generalize g.build r root named.1.1 named.1.2 named.2 = built at hbuilt ⊢
  generalize (g.withSchema s').build r root named.1.1 named.1.2 named.2 = built' at hbuilt ⊢
  cases r.instanceRoot.filter (!fits (g.schema.element root) ·) with
  | some wrong => exact .inl ⟨_, rfl, rfl⟩
  | none =>
    have hsame : built' = (built.1, { built.2 with anomalies := built'.2.anomalies }) :=
      Prod.ext hbuilt.result hbuilt.beside.same
    refine .inr ⟨_, built'.2.anomalies, rfl, ?_, hbuilt.beside.anomalies⟩
    exact congrArg (fun b => Except.ok (formOf g.schema.target time r named.1.2 b)) hsame

/-- Anomalies are contained.  When wildcards, and elements and attributes without types, are left
out of the content of types, a request comes to the same fault as before, or to the same form apart
from the anomalies.  Each time that an element is filled, those are missing that its content has
given cause to before and does not any more. -/
theorem anomalies_contained {s s' : Schema} {L : Losses} (hn : s.NCNamed) (hidle : s.Idle L)
    (hpruned : s.Pruned L s') (settings : Settings) (layout : Option Layout)
    (hl : ∀ l ∈ layout, l.Decorates) (time : String) {r : Request} {root : ElementId}
    (hroot : s.findElement (QName.of s.target r.root) = some root)
    (htarget : (s.element root).name.nspace = s.target) :
    let g := ofSchema s settings layout
    let g' := ofSchema s' settings layout
    (∃ fault, g.generate time r = .error fault ∧ g'.generate time r = .error fault) ∨
      ∃ form anomalies, g.generate time r = .ok form ∧
        g'.generate time r = .ok { form with anomalies := anomalies } ∧
        g.Accounts root s' [] [] form.anomalies anomalies := by
  intro g g'
  have hlayout : g.layout.Decorates := by
    cases layout with
    | none => exact Layout.decorates_page settings.stylesheet none
    | some l => exact hl l rfl
  have hover : g.withSchema s' = g' := withSchema_ofSchema hpruned.alike settings layout
  rw [← hover]
  exact generate_withSchema (g := g) hroot (pruning_qualified hlayout rfl hn hpruned hidle htarget)
    time

/-- A type with an attribute that has a type; it may also have an attribute and an element without
one, and a wildcard. -/
def lenientType (full : Bool) (name : String) (base : Option TypeId) : ComplexType where
  name := some ⟨none, name⟩
  base := base
  derivation := .extension
  uses := if full then [⟨0⟩, ⟨1⟩] else [⟨0⟩]
  particle := some (.sequence (if full then [.element .once ⟨1⟩, .wildcard .once {}] else []))

/-- Such a type, and an extension of it. -/
def lenientTypes (full : Bool) : List ComplexType :=
  [lenientType full "B" none, lenientType full "D" (some ⟨Schema.builtinCount⟩)]

/-- A schema with an element of these types, and an element of a given name without a type. -/
def lenient (child : String) (full : Bool) : Schema :=
  { choosing [] child (lenientTypes full) with
    elements := #[{ name := ⟨none, "r"⟩, type := some ⟨Schema.builtinCount⟩ },
      { name := ⟨none, child⟩ }]
    uses := #[{ decl := { name := ⟨none, "a"⟩, type := some Schema.anyType } },
      { decl := { name := ⟨none, "u"⟩ } }] }

theorem findElement_lenient (child : String) (full : Bool) :
    (lenient child full).findElement (QName.of (lenient child full).target "r") = some ⟨0⟩ :=
  @findElement_choosing [] child (lenientTypes full)

/-- The element and the attribute of such a schema that have no type. -/
def lenientLosses : Losses := ⟨(· = ⟨1⟩), (· = ⟨1⟩)⟩

theorem pruned_lenient (child : String) :
    (lenient child true).Pruned lenientLosses (lenient child false) := by
  have htype (name : String) (base : Option TypeId) :
      (lenientType true name base).Pruned lenientLosses (lenientType false name base) :=
    ⟨rfl, .keep rfl (.drop rfl .nil), .some (.group _ _ (.drop rfl (.drop trivial .nil)))⟩
  refine ⟨rfl, rfl, rfl, rfl, rfl, rfl, fun t => ?_⟩
  change ((choosing [] child (lenientTypes true)).typeDef t).Pruned lenientLosses
    ((choosing [] child (lenientTypes false)).typeDef t)
  rw [typeDef_choosing, typeDef_choosing]
  split
  · exact .refl _
  · generalize t.index - Schema.builtinCount = i
    rcases i with _ | _ | i
    · exact .complex (htype "B" none)
    · exact .complex (htype "D" (some ⟨Schema.builtinCount⟩))
    · exact .any

/-- Nothing else is named like what has no type. -/
theorem alone_lenient {child : String} (hne : child ≠ "r") (hempty : child ≠ "") :
    (∀ id, ((lenient child true).element id).name = ⟨none, child⟩ → id = ⟨1⟩) ∧
      ∀ id, ((lenient child true).use id).decl.name = ⟨none, "u"⟩ → id = ⟨1⟩ := by
  constructor
  · intro id hid
    obtain ⟨_ | _ | i⟩ := id
    · exact absurd (congrArg QName.localName hid).symm hne
    · rfl
    · exact absurd (congrArg QName.localName hid).symm hempty
  · intro id hid
    obtain ⟨_ | _ | i⟩ := id
    · exact absurd (congrArg QName.localName hid) (show "a" ≠ "u" by decide)
    · rfl
    · exact absurd (congrArg QName.localName hid) (show "" ≠ "u" by decide)

theorem idle_lenient {child : String} (hne : child ≠ "r") (hempty : child ≠ "") :
    (lenient child true).Idle lenientLosses := by
  obtain ⟨helement, huse⟩ := alone_lenient hne hempty
  refine ⟨fun id hid id' hname => ?_, fun id hid id' hname => ?_, fun id hid ns hns => ?_,
    fun id hid ns hns => ?_⟩
  · cases hid
    rw [helement id' hname]
    rfl
  · cases hid
    rw [huse id' hname]
    rfl
  · cases hid
    cases hns
  · cases hid
    cases hns

theorem anomalies_contained_lenient :
    ∃ form anomalies,
      (ofSchema (lenient "c" true) {} none).generate "" { root := "r" } = .ok form ∧
      (ofSchema (lenient "c" false) {} none).generate "" { root := "r" } =
        .ok { form with anomalies := anomalies } ∧
      (ofSchema (lenient "c" true) {} none).Accounts ⟨0⟩ (lenient "c" false) [] []
        form.anomalies anomalies := by
  have hnames : (lenient "c" true).elements.toList.all (fun decl => IsNCName decl.name.localName) ∧
      (lenient "c" true).uses.toList.all (fun use => IsNCName use.decl.name.localName) := by
    decide +kernel
  have hn : (lenient "c" true).NCNamed :=
    ⟨fun decl hdecl => List.all_eq_true.1 hnames.1 decl (Array.mem_toList_iff.2 hdecl),
      fun use huse => List.all_eq_true.1 hnames.2 use (Array.mem_toList_iff.2 huse)⟩
  obtain ⟨fault, hfault, -⟩ | h := anomalies_contained hn (idle_lenient (by decide) (by decide))
    (pruned_lenient "c") {} none (fun l hl => by cases hl) "" (r := { root := "r" })
    (findElement_lenient "c" true) rfl
  · obtain ⟨form, hform⟩ := generate_isOk (ofSchema (lenient "c" true) {} none) ""
      (r := { root := "r" }) (findElement_lenient "c" true) rfl
    rw [hform] at hfault
    cases hfault
  · exact h

/-- An element without a type leaves traces if it is named like the path of an attribute that two
types to choose from have in common. -/
theorem anomalies_uncontained :
    (lenient "@a" true).Idle lenientLosses ∧
      (lenient "@a" true).Pruned lenientLosses (lenient "@a" false) ∧
      (∀ id, ((lenient "@a" true).element id).name.nspace = none) ∧
      (∀ id, ((lenient "@a" true).element id).name = ⟨none, "@a"⟩ → id = ⟨1⟩) ∧
      (∀ id, ((lenient "@a" true).use id).decl.name = ⟨none, "u"⟩ → id = ⟨1⟩) ∧
      (lenient "@a" true).findElement ⟨none, "r"⟩ = some ⟨0⟩ ∧
      ∃ form form', (ofSchema (lenient "@a" true) {} (some .plain)).generate "" { root := "r" } =
          .ok form ∧
        (ofSchema (lenient "@a" false) {} (some .plain)).generate "" { root := "r" } = .ok form' ∧
        form'.tree ≠ form.tree := by
  obtain ⟨helement, huse⟩ := alone_lenient (show "@a" ≠ "r" by decide) (by decide)
  have hsub : Substitutes.ofSchema (lenient "@a" true) =
      ⟨⟨[(⟨Schema.builtinCount⟩, [⟨Schema.builtinCount + 1⟩])]⟩⟩ :=
    Substitutes.ofSchema_of_table (by decide +kernel) (by decide +kernel)
  have hsub' := (pruned_lenient "@a").alike.substitutes_eq.trans hsub
  obtain ⟨form, hform⟩ := generate_isOk (ofSchema (lenient "@a" true) {} (some .plain)) ""
    (r := { root := "r" }) (findElement_lenient "@a" true) rfl
  obtain ⟨form', hform'⟩ := generate_isOk (ofSchema (lenient "@a" false) {} (some .plain)) ""
    (r := { root := "r" }) (findElement_lenient "@a" false) rfl
  refine ⟨idle_lenient (by decide) (by decide), pruned_lenient "@a", fun id => ?_, helement, huse,
    findElement_lenient "@a" true, form, form', hform, hform', fun htree => ?_⟩
  · obtain ⟨_ | _ | i⟩ := id <;> rfl
  · have hsubstance := generate_substance (g := ofSchema (lenient "@a" true) {} (some .plain))
      .plain rfl "" { root := "r" }
    have hsubstance' := generate_substance (g := ofSchema (lenient "@a" false) {} (some .plain))
      .plain rfl "" { root := "r" }
    rw [hform, ofSchema, hsub] at hsubstance
    rw [hform', ofSchema, hsub'] at hsubstance'
    let nodes (f : Except Fault Substance) : Option Nat := f.toOption.map (·.nodes.labels.length)
    have hsame : nodes (.ok form'.substance) = nodes (.ok form.substance) :=
      congrArg (fun t : Tree => some t.unmarked.labels.length) htree
    rw [show Except.ok form.substance = _ from hsubstance,
      show Except.ok form'.substance = _ from hsubstance'] at hsame
    revert hsame
    decide +kernel

end Generator

end SchemaForms
