import SchemaForms.Proofs.Form.Outline
import SchemaForms.Proofs.Form.Relevance
import SchemaForms.Proofs.Form.Staging

/-!
Wording: what the texts in the nodes of a form are made of.  The nodeset of a bind, the relevance of
a bind and the value of a choice of types are written with names of declarations alone, each with
the prefix of its namespace.
-/

namespace SchemaForms

namespace Generator

section Texts

variable (g : Generator) (t : PrefixTable)

/-- The path of a declared element: its name, behind a slash when it is the root. -/
inductive IsPathOf (id : ElementId) : String → Prop
  | child {text : String} (h : t.textOf (g.schema.element id).name = some text) : IsPathOf id text
  | root {text : String} (h : t.textOf (g.schema.element id).name = some text) :
    IsPathOf id ("/" ++ text)

/-- What the nodeset of a bind says: a declared element, its `xsi:type`, a declared attribute, or
the value at hand.  Only what has a type is bound. -/
inductive IsNodeset : String → Prop
  | here : IsNodeset "."
  | element {id : ElementId} {path : String} (typed : (g.schema.element id).type.isSome)
    (h : g.IsPathOf t id path) : IsNodeset path
  | typeOf {id : ElementId} {path : String} (typed : (g.schema.element id).type.isSome)
    (h : g.IsPathOf t id path) : IsNodeset (path ++ "/@xsi:type")
  | use {id : UseId} {text : String} (typed : (g.schema.use id).decl.type.isSome)
    (h : t.textOf (g.schema.use id).decl.name = some text) : IsNodeset ("@" ++ text)

/-- What `xsi:type` says for a complex type. -/
def IsTypeValue (value : String) : Prop :=
  ∃ type, (g.schema.complex? type).isSome ∧ g.typeText t type = some value

/-- A relevance expression: conditions on `xsi:type` joined with each other. -/
inductive IsGuard : String → Prop
  | condition {value : String} (h : g.IsTypeValue t value) : IsGuard (typeCondition value)
  | either {e e' : String} (h : IsGuard e) (h' : IsGuard e') : IsGuard (e ++ " or " ++ e')
  | both {e e' : String} (h : IsGuard e) (h' : IsGuard e') : IsGuard ("(" ++ e ++ ") and " ++ e')
  | grouped {e : String} (h : IsGuard e) : IsGuard ("(" ++ e ++ ")")

end Texts

variable {g : Generator} {t t' : PrefixTable}

theorem IsPathOf.mono {id : ElementId} {path : String} (h : g.IsPathOf t id path)
    (ht : t.Extends t') : g.IsPathOf t' id path := by
  cases h with
  | child h => exact .child (ht.textOf h)
  | root h => exact .root (ht.textOf h)

theorem IsNodeset.mono {nodeset : String} (h : g.IsNodeset t nodeset) (ht : t.Extends t') :
    g.IsNodeset t' nodeset := by
  cases h with
  | here => exact .here
  | element typed h => exact .element typed (h.mono ht)
  | typeOf typed h => exact .typeOf typed (h.mono ht)
  | use typed h => exact .use typed (ht.textOf h)

theorem typeText_extends (ht : t.Extends t') {type : TypeId} {value : String}
    (h : g.typeText t type = some value) : g.typeText t' type = some value := by
  unfold typeText at h ⊢
  cases hname : (g.schema.typeDef type).name? with
  | none => simpa [hname] using h
  | some name =>
    simp only [hname] at h ⊢
    exact ht.textOf h

theorem IsTypeValue.mono {value : String} (h : g.IsTypeValue t value) (ht : t.Extends t') :
    g.IsTypeValue t' value := by
  obtain ⟨type, hcomplex, hvalue⟩ := h
  exact ⟨type, hcomplex, typeText_extends ht hvalue⟩

theorem IsGuard.mono {e : String} (h : g.IsGuard t e) (ht : t.Extends t') : g.IsGuard t' e := by
  induction h with
  | condition h => exact .condition (h.mono ht)
  | either _ _ ih ih' => exact .either ih ih'
  | both _ _ ih ih' => exact .both ih ih'
  | grouped _ ih => exact .grouped ih

/-! How relevance is put together. -/

/-- Each of some texts is a condition on `xsi:type`. -/
def AreConditions (g : Generator) (t : PrefixTable) (conditions : List String) : Prop :=
  ∀ c ∈ conditions, ∃ value, g.IsTypeValue t value ∧ c = typeCondition value

theorem AreConditions.isGuard {conditions : List String} (h : g.AreConditions t conditions)
    (hne : conditions ≠ []) : g.IsGuard t (String.intercalate " or " conditions) := by
  induction conditions with
  | nil => exact absurd rfl hne
  | cons c cs ih =>
    obtain ⟨value, hvalue, rfl⟩ := h c List.mem_cons_self
    have hrest : g.AreConditions t cs := fun c hc => h c (List.mem_cons_of_mem _ hc)
    cases cs with
    | nil =>
      rw [String.intercalate_singleton]
      exact .condition hvalue
    | cons c' cs =>
      rw [String.intercalate_cons_of_ne_nil (List.cons_ne_nil c' cs)]
      exact .either (.condition hvalue) (ih hrest (List.cons_ne_nil c' cs))

/-- Alternatives go behind a guard. -/
theorem IsGuard.foldl {e : String} (h : g.IsGuard t e) {conditions : List String}
    (hconditions : g.AreConditions t conditions) :
    g.IsGuard t (conditions.foldl (fun e a => e ++ " or " ++ a) e) := by
  induction conditions generalizing e with
  | nil => exact h
  | cons c cs ih =>
    obtain ⟨value, hvalue, rfl⟩ := hconditions c List.mem_cons_self
    exact ih (.either h (.condition hvalue)) fun c hc => hconditions c (List.mem_cons_of_mem _ hc)

theorem IsGuard.widen {e : String} (h : g.IsGuard t e) {conditions : List String}
    (hconditions : g.AreConditions t conditions) : g.IsGuard t (Bind.widen e conditions) := by
  have hmissing : g.AreConditions t (Bind.missing e conditions) := fun c hc =>
    hconditions c (List.mem_filter.1 hc).1
  unfold Bind.widen
  split
  · exact h
  · dsimp only
    split
    · exact h.grouped.foldl hmissing
    · exact h.foldl hmissing

end Generator

/-! Nodes that are worded so. -/

section Worded

variable (g : Generator) (t : PrefixTable)

structure Bind.Worded (b : Bind) : Prop where
  nodeset : g.IsNodeset t b.nodeset
  relevant : ∀ e ∈ b.relevant, g.IsGuard t e

/-- The choices that select a case are choices of types. -/
def Choice.Worded (c : Choice) : Prop := c.toggle.isSome → g.IsTypeValue t c.value

def NodeKind.Worded : NodeKind → Prop
  | .bind b => b.Worded g t
  | .control c => ∀ choice ∈ c.kind.choices, choice.Worded g t
  | _ => True

end Worded

variable {g : Generator} {t t' : PrefixTable}

theorem NodeKind.Worded.mono {k : NodeKind} (h : k.Worded g t) (ht : t.Extends t') :
    k.Worded g t' := by
  cases k with
  | bind b => exact ⟨h.nodeset.mono ht, fun e he => (h.relevant e he).mono ht⟩
  | control c => exact fun choice hc htoggle => (h choice hc htoggle).mono ht
  | _ => trivial

/-- A bind stays worded when its relevance becomes that of a case. -/
theorem Bind.Worded.guard {b : Bind} (h : b.Worded g t) {conditions : List String}
    (hconditions : g.AreConditions t conditions) (hne : conditions ≠ [])
    (existing reused : List NodeId) (id : NodeId) :
    (Generator.guardBind existing reused conditions id b).Worded g t := by
  have hnew := hconditions.isGuard hne
  unfold Generator.guardBind
  split
  · exact h
  · split
    · refine ⟨h.nodeset, fun e he => ?_⟩
      obtain rfl := Option.some.inj he
      unfold Bind.joinTo
      split
      · exact hnew
      · next old hold =>
        split
        · exact hnew
        · exact .both (h.relevant old hold) hnew
    · split
      · refine ⟨h.nodeset, fun e he => ?_⟩
        obtain ⟨old, hold, rfl⟩ := Option.map_eq_some_iff.1 he
        exact (h.relevant old hold).widen hconditions
      · exact h

/-- New identifiers change nothing of what choices say. -/
theorem worded_renumberChoices {cs : List Choice} (h : ∀ c ∈ cs, c.Worded g t)
    (ids : Identifiers) : ∀ c ∈ (renumberChoices cs ids).1, c.Worded g t := by
  induction cs generalizing ids with
  | nil => exact fun c hc => nomatch hc
  | cons c cs ih =>
    intro d hd
    rcases List.mem_cons.1 hd with rfl | hd
    · have hc := h c List.mem_cons_self
      obtain ⟨id, label, value, toggle⟩ := c
      cases toggle with
      | none => exact fun htoggle => nomatch htoggle
      | some _ => exact fun _ => hc rfl
    · exact ih (fun c hc => h c (List.mem_cons_of_mem _ hc)) _ d hd

theorem NodeKind.Worded.copyKind {k : NodeKind} (h : k.Worded g t) (ids : Identifiers) :
    (Tree.copyKind k ids).1.1.Worded g t := by
  cases k with
  | bind b => exact ⟨h.nodeset, h.relevant⟩
  | control c =>
    obtain ⟨id, kind, label, bind, appearance, hint⟩ := c
    cases kind with
    | selectOne cs => exact worded_renumberChoices h _
    | selectMany cs => exact worded_renumberChoices h _
    | trigger a =>
      cases a with
      | none => exact fun c hc => nomatch hc
      | some a => exact fun c hc => nomatch hc
    | _ => exact fun c hc => nomatch hc
  | _ => trivial

theorem NodeKind.Worded.redirect {k : NodeKind} (h : k.Worded g t) (table : Table String String) :
    (k.redirect table).Worded g t := by
  have hchoices {cs : List Choice} (hcs : ∀ c ∈ cs, c.Worded g t) :
      ∀ c ∈ cs.map (·.redirect table), c.Worded g t := by
    intro c hc
    obtain ⟨d, hd, rfl⟩ := List.mem_map.1 hc
    exact fun htoggle => hcs d hd (by simpa [Choice.redirect] using htoggle)
  cases k with
  | control c =>
    obtain ⟨id, kind, label, bind, appearance, hint⟩ := c
    cases kind with
    | selectOne cs => exact hchoices h
    | selectMany cs => exact hchoices h
    | trigger a =>
      cases a with
      | none => exact h
      | some a => exact fun c hc => nomatch hc
    | _ => exact h
  | _ => exact h

/-! What holds of all nodes of an arena. -/

namespace Tree

/-- All nodes are of some kind. -/
def All (P : NodeKind → Prop) (t : Tree) : Prop := ∀ id, P (t.kind id)

variable {P : NodeKind → Prop} {t : Tree}

theorem All.create (h : t.All P) {k : NodeKind} (hk : P k) : (t.create k).2.All P := by
  intro id
  rw [kind, node_create]
  split
  · exact hk
  · exact h id

theorem All.append (h : t.All P) (parent child : NodeId) : (t.append parent child).All P :=
  fun id => (t.kind_append parent child id).symm ▸ h id

theorem All.setRoot (h : t.All P) (root : NodeId) : (t.setRoot root).All P := h

theorem All.modifyKind (h : t.All P) (id : NodeId) {f : NodeKind → NodeKind}
    (hf : ∀ k, P k → P (f k)) : (t.modifyKind id f).All P := by
  intro other
  rw [Tree.modifyKind, kind, node_update]
  split
  · exact hf _ (h other)
  · exact h other

theorem All.copySubtree (hcopy : ∀ k ids, P k → P (copyKind k ids).1.1) (depth : Nat) (id : NodeId)
    (c : Copying) (h : c.tree.All P) : (Tree.copySubtree depth id c).2.tree.All P := by
  have hnode (id : NodeId) (c : Copying) (h : c.tree.All P) : (copyNode id c).2.tree.All P :=
    h.create (hcopy _ _ (h id))
  induction depth generalizing id c with
  | zero => exact hnode id c h
  | succ depth ih =>
    have hbelow (parent : NodeId) (cs : List NodeId) (c : Copying) (h : c.tree.All P) :
        (copyBelow (fun c => Tree.copySubtree depth c) parent cs c).2.tree.All P := by
      induction cs generalizing c with
      | nil => exact h
      | cons x cs ihcs => exact ihcs _ ((ih x c h).append _ _)
    exact hbelow _ _ _ (hnode id c h)

theorem All.deepCopy (hcopy : ∀ k ids, P k → P (copyKind k ids).1.1)
    (hredirect : ∀ table k, P k → P (NodeKind.redirect table k)) (h : t.All P) (ids : Identifiers)
    (id : NodeId) : (t.deepCopy ids id).2.1.All P := by
  have hredirects (table : Table String String) (ns : List NodeId) (t : Tree) (h : t.All P) :
      (ns.foldl (fun t n => t.modifyControl n (·.redirect table)) t).All P := by
    induction ns generalizing t with
    | nil => exact h
    | cons n ns ih =>
      refine ih _ (h.modifyKind n fun k hk => ?_)
      have := hredirect table k hk
      cases k <;> exact this
  exact hredirects _ _ _ (All.copySubtree hcopy _ _ _ h)

end Tree

/-- A layout that makes presentation markup and leaves all other nodes what they are. -/
structure Layout.Decorates (l : Layout) : Prop where
  envelope : ∀ {P : NodeKind → Prop} {t : Tree}, (∀ m, P (.markup m)) → t.All P →
    (l.envelope t).2.All P
  model : ∀ {P : NodeKind → Prop} {t : Tree}, (∀ m, P (.markup m)) → t.All P →
    ∀ n, (l.model n t).2.All P
  form : ∀ {P : NodeKind → Prop} {t : Tree}, (∀ m, P (.markup m)) → t.All P →
    ∀ n, (l.form n t).2.All P
  groupContent : ∀ {P : NodeKind → Prop} {t : Tree}, (∀ m, P (.markup m)) → t.All P →
    ∀ n, (l.groupContent n t).2.All P
  control : ∀ {P : NodeKind → Prop} {t : Tree}, (∀ m, P (.markup m)) → t.All P →
    ∀ n, (l.control n t).2.All P

theorem Layout.decorates_page (stylesheet : String) (title : Option String) :
    (Layout.page stylesheet title).Decorates where
  envelope hm h := by
    cases title with
    | none =>
      exact ((((h.create (hm _)).setRoot _).create (hm _)).append _ _ |>.create (hm _)).append _ _
    | some text =>
      exact (((((h.create (hm _)).setRoot _).create (hm _)).append _ _ |>.create (hm _)).append _ _
        |>.create (hm _)).append _ _
  model _ h n := by
    change (Layout.pageModel n _).2.All _
    unfold Layout.pageModel
    split
    · exact h
    · split
      · exact h
      · exact h.append _ _
  form hm h _ := (h.create (hm _)).append _ _
  groupContent _ h _ := h
  control hm h _ := (h.create (hm _)).append _ _

theorem Layout.Standard.decorates {l : Layout} (hl : l.Standard) : l.Decorates := by
  cases hl with
  | plain => exact ⟨fun hm h => h.create (hm _), fun _ h _ => h, fun _ h _ => h, fun _ h _ => h,
      fun _ h _ => h⟩
  | page stylesheet title => exact Layout.decorates_page stylesheet title

end SchemaForms
