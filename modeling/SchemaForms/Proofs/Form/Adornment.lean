import SchemaForms.Proofs.Form.Reaching
import SchemaForms.Proofs.Form.Seats
import SchemaForms.Proofs.Name.Prefixes

/-!
Adornment: the presentation markup in the arena of a form.  Layouts make markup whose names and
attributes can stand in a document anywhere, and a form has no other markup.
-/

namespace SchemaForms

open Synthesis

/-- Markup that can stand in a document anywhere: its attributes have names without prefixes, and
the only default namespace that it declares is the one of pages. -/
structure Markup.Plain (m : Markup) : Prop where
  name : IsNCName m.name = true
  keys : ∀ a ∈ m.attributes, IsNCName a.1 = true
  distinct : (m.attributes.map (·.1)).Nodup
  nspace : ∀ a ∈ m.attributes, a.1 = "xmlns" → a.2 = Layout.xhtmlNamespace

theorem Markup.plain_of_bare {name : String} (h : IsNCName name = true) (text : Option String) :
    Markup.Plain { name := name, text := text } :=
  ⟨h, fun _ ha => (nomatch ha), .nil, fun _ ha => (nomatch ha)⟩

/-- A node whose markup is plain, if it is markup. -/
def NodeKind.Plain : NodeKind → Prop
  | .markup m => m.Plain
  | _ => True

theorem NodeKind.Plain.copyKind {k : NodeKind} (h : k.Plain) (ids : Identifiers) :
    (Tree.copyKind k ids).1.1.Plain := by
  cases k with
  | markup m => exact h
  | _ => trivial

namespace Tree

variable {t t' : Tree} {n p c : NodeId} {k : NodeKind}

/-- All nodes in the arena are plain, and all children are nodes in the arena. -/
structure Adorned (t : Tree) : Prop where
  plain : ∀ n, n.index < t.size → (t.kind n).Plain
  children : ∀ p, ∀ c ∈ t.children p, c.index < t.size

/-- The arena grows and stays as it should be. -/
structure Adorns (t t' : Tree) : Prop where
  size_le : t.size ≤ t'.size
  adorned : t.Adorned → t'.Adorned

theorem Adorns.refl (t : Tree) : Adorns t t := ⟨Nat.le_refl _, id⟩

theorem Adorns.trans {t'' : Tree} (h : Adorns t t') (h' : Adorns t' t'') : Adorns t t'' :=
  ⟨Nat.le_trans h.size_le h'.size_le, fun ht => h'.adorned (h.adorned ht)⟩

theorem adorned_empty : empty.Adorned where
  plain _ hn := absurd hn (Nat.not_lt_zero _)
  children _ _ hc := absurd (lt_of_mem_children hc) (Nat.not_lt_zero _)

theorem adorns_create (t : Tree) (hk : k.Plain) : Adorns t (t.create k).2 where
  size_le := Nat.le_of_lt (size_create t k ▸ Nat.lt_succ_self _)
  adorned h := by
    have hlt {n : NodeId} (hn : n.index < t.size) : n.index < (t.create k).2.size :=
      size_create t k ▸ Nat.lt_succ_of_lt hn
    refine ⟨fun n hn => ?_, fun p c hc => ?_⟩
    · rw [kind, node_create]
      split
      · exact hk
      · next hne =>
        rw [size_create] at hn
        refine h.plain n (Nat.lt_of_le_of_ne (Nat.le_of_lt_succ hn) fun he => ?_)
        exact hne (congrArg NodeId.mk he)
    · rw [Tree.children, node_create] at hc
      split at hc
      · cases hc
      · exact hlt (h.children p c hc)

theorem adorns_append (p : NodeId) (hc : c.index < t.size) : Adorns t (t.append p c) where
  size_le := Nat.le_of_eq (size_append ..).symm
  adorned h := by
    refine ⟨fun n hn => ?_, fun q x hx => ?_⟩
    · rw [kind_append]
      exact h.plain n (size_append t p c ▸ hn)
    · rw [size_append]
      rcases mem_children_append hx with hx | ⟨-, rfl⟩
      · exact h.children q x hx
      · exact hc

theorem adorns_add (p : NodeId) (hk : k.Plain) : Adorns t (t.add p k) :=
  (adorns_create t hk).trans (adorns_append p (size_create t k ▸ Nat.lt_succ_self _))

theorem adorns_modifyKind (t : Tree) (n : NodeId) {f : NodeKind → NodeKind}
    (hf : ∀ k : NodeKind, k.Plain → (f k).Plain) : Adorns t (t.modifyKind n f) where
  size_le := Nat.le_of_eq (size_update ..).symm
  adorned h := by
    have hsize : (t.modifyKind n f).size = t.size := size_update ..
    refine ⟨fun m hm => ?_, fun p c hc => ?_⟩
    · rw [kind, modifyKind, node_update]
      split
      · exact hf _ (h.plain m (hsize ▸ hm))
      · exact h.plain m (hsize ▸ hm)
    · rw [hsize]
      refine h.children p c ?_
      rw [children, modifyKind, node_update] at hc
      split at hc <;> exact hc

theorem adorns_modifyBind (t : Tree) (n : NodeId) (f : Bind → Bind) :
    Adorns t (t.modifyBind n f) :=
  adorns_modifyKind t n fun k hk => by cases k <;> exact hk

theorem Adorned.setRoot (h : t.Adorned) (n : NodeId) : (t.setRoot n).Adorned :=
  ⟨h.plain, h.children⟩

/-! Copying. -/

/-- A copy is a new node, if the source is in the arena. -/
theorem adorns_copySubtree (depth : Nat) (n : NodeId) (c : Copying) (hc : c.tree.Adorned)
    (hn : n.index < c.tree.size) :
    Adorns c.tree (copySubtree depth n c).2.tree := by
  have hnode (n : NodeId) (c : Copying) (hc : c.tree.Adorned) (hn : n.index < c.tree.size) :
      Adorns c.tree (copyNode n c).2.tree :=
    adorns_create c.tree ((hc.plain n hn).copyKind c.ids)
  induction depth generalizing n c with
  | zero => exact hnode n c hc hn
  | succ depth ih =>
    have hbelow (parent : NodeId) (ns : List NodeId) (c : Copying) (hc : c.tree.Adorned)
        (hns : ∀ n ∈ ns, n.index < c.tree.size) :
        Adorns c.tree (copyBelow (fun n => copySubtree depth n) parent ns c).2.tree := by
      induction ns generalizing c with
      | nil => exact .refl _
      | cons n ns ihns =>
        rw [List.forall_mem_cons] at hns
        let next := (copySubtree depth n c).2
        have hcopy := ih n c hc hns.1
        have hlt := (loose_copySubtree depth n c parent).lt
        have hnext := hcopy.trans (adorns_append parent hlt)
        refine hnext.trans (ihns { next with tree := next.tree.append parent _ } (hnext.adorned hc)
          fun m hm => Nat.lt_of_lt_of_le (hns.2 m hm) hnext.size_le)
    have hfirst := hnode n c hc hn
    exact hfirst.trans (hbelow _ _ (copyNode n c).2 (hfirst.adorned hc)
      fun m hm => (hfirst.adorned hc).children _ m hm)

theorem adorns_deepCopy (ids : Identifiers) (ht : t.Adorned) (hn : n.index < t.size) :
    Adorns t (t.deepCopy ids n).2.1 := by
  let made := (copySubtree t.size n ⟨t, ids, .empty, []⟩).2
  have hcopy := adorns_copySubtree t.size n ⟨t, ids, .empty, []⟩ ht hn
  have hall (ns : List NodeId) (t : Tree) :
      Adorns t (ns.foldl (fun t n => t.modifyControl n (·.redirect made.renamed)) t) := by
    induction ns generalizing t with
    | nil => exact .refl _
    | cons n ns ih =>
      refine (adorns_modifyKind t n fun k hk => ?_).trans (ih _)
      cases k with
      | control c => trivial
      | _ => exact hk
  exact hcopy.trans (hall made.created made.tree)

end Tree

/-! What layouts do. -/

namespace Layout

open SchemaForms.Tree (Adorns)

variable {l : Layout} {t t' : Tree} {c p : NodeId}

/-- Layouts put controls into plain markup, if into any. -/
theorem Standard.plain_boxes (hl : l.Standard) : ∃ box, l.Boxes box ∧ ∀ m ∈ box, m.Plain := by
  cases hl with
  | plain => exact ⟨_, Layout.plain_boxes, fun m hm => by cases hm⟩
  | page stylesheet title =>
    refine ⟨_, page_boxes stylesheet title, fun m hm => ?_⟩
    obtain rfl := Option.some.inj hm
    exact ⟨by decide, by decide, by decide, by decide⟩

/-- A node of the arena is put into its container, and that below another node. -/
theorem adorns_place (hl : l.Standard) (p : NodeId) (hc : c.index < t.size) :
    Adorns t (l.place p c t) := by
  obtain ⟨box, hbox, hplain⟩ := hl.plain_boxes
  rw [place, hbox.control]
  cases box with
  | none => exact Tree.adorns_append p hc
  | some m =>
    have hcreated := Tree.adorns_create t (k := .markup m) (hplain m rfl)
    have hput := Tree.adorns_append (t := (t.create (.markup m)).2) ⟨t.size⟩
      (Nat.lt_of_lt_of_le hc hcreated.size_le)
    refine (hcreated.trans hput).trans (Tree.adorns_append p ?_)
    rw [Tree.size_append, Tree.size_create]
    exact Nat.lt_succ_self _

end Layout

/-- A step that keeps to plain markup. -/
def Adorning {α : Type} (f : Synth α) : Prop :=
  ∀ s : Synthesis, s.tree.Adorned → s.tree.Adorns (f s).2.tree

namespace Adorning

variable {α β : Type}

theorem still {f : Synth α} (h : ∀ s, (f s).2.tree = s.tree) : Adorning f := fun s _ =>
  h s ▸ .refl s.tree

theorem bind {f : Synth α} {k : α → Synth β} (hf : Adorning f) (hk : ∀ a, Adorning (k a)) :
    Adorning (f >>= k) := fun s hs =>
  (hf s hs).trans (hk (f s).1 (f s).2 ((hf s hs).adorned hs))

/-- After a step that does not see the arena. -/
theorem after {f : Synth α} {k : α → Synth β} (hf : Quiet f) (hk : ∀ a, Adorning (k a)) :
    Adorning (f >>= k) := bind (still hf.tree_eq) hk

/-- After a look at the state. -/
theorem look {k : Synthesis → Synth β} (hk : ∀ s, Adorning (k s)) : Adorning (get >>= k) :=
  fun s hs => hk s s hs

end Adorning

namespace Generator

open SchemaForms.Tree (Adorns)

variable {g : Generator}

/-! Steps of the generator. -/

theorem adorning_hang {β : Type} {k : NodeKind} (hk : k.Plain) (parent : NodeId)
    {next : NodeId → Synth β} (hnext : ∀ n, Adorning (next n)) :
    Adorning (create k >>= fun n => append parent n >>= fun _ => next n) := by
  intro s hs
  have hadd : Adorns s.tree (s.tree.add parent k) := Tree.adorns_add parent hk
  exact hadd.trans (hnext ⟨s.tree.size⟩ { s with tree := s.tree.add parent k } (hadd.adorned hs))

theorem adorning_addBind (scope : NodeId) (b : Bind) (nodeset : String) :
    Adorning (addBind scope b nodeset) :=
  .after (.allocate _) fun id =>
    adorning_hang (k := .bind { b with id := id, nodeset := nodeset }) trivial scope fun _ =>
      .still fun _ => rfl

theorem adorning_addControl (hl : g.layout.Standard) (area : NodeId) (c : Control) :
    Adorning (g.addControl area c) := by
  intro s _
  have hnew : s.tree.size < (s.tree.create (.control c)).2.size :=
    Nat.lt_of_lt_of_eq (Nat.lt_succ_self _) (Tree.size_create ..).symm
  exact (Tree.adorns_create s.tree (k := .control c) trivial).trans
    (Layout.adorns_place hl (c := ⟨s.tree.size⟩) area hnew)

theorem adorning_contentOf (hl : g.layout.Standard) (area : NodeId) :
    Adorning (g.contentOf area) := by
  obtain ⟨box, hbox⟩ := hl.boxes
  refine .still fun s => ?_
  change (g.layout.groupContent area s.tree).2 = s.tree
  rw [hbox.content]

theorem adorning_addTriggers (container : NodeId) (cs : List Control) :
    Adorning (addTriggers container cs) := by
  induction cs with
  | nil => exact .still fun _ => rfl
  | cons c cs ih => exact adorning_hang (k := .control c) trivial container fun _ => ih

theorem adorning_addTriggerRow (hl : g.layout.Standard) (area : NodeId) (cs : List Control) :
    Adorning (g.addTriggerRow area cs) := by
  cases cs with
  | nil => exact .still fun _ => rfl
  | cons c cs =>
    intro s hs
    let first := (s.tree.create (.control c)).2
    have hfirst : Adorns s.tree (g.layout.place area ⟨s.tree.size⟩ first) :=
      adorning_addControl hl area c s hs
    exact hfirst.trans (adorning_addTriggers
      (if (g.layout.control ⟨s.tree.size⟩ first).1 = ⟨s.tree.size⟩ then area
        else (g.layout.control ⟨s.tree.size⟩ first).1) cs
      { s with tree := g.layout.place area ⟨s.tree.size⟩ first } (hfirst.adorned hs))

/-- A control is made before the triggers and placed behind them. -/
theorem adorning_behindRow (hl : g.layout.Standard) (area : NodeId) (c : Control)
    (cs : List Control) :
    Adorning (create (.control c) >>= fun node => g.addTriggerRow area cs >>=
      fun _ => g.place area node >>= fun _ => pure node) := by
  intro s hs
  have hcreated := Tree.adorns_create s.tree (k := .control c) trivial
  have hnew : s.tree.size < (s.tree.create (.control c)).2.size :=
    Nat.lt_of_lt_of_eq (Nat.lt_succ_self _) (Tree.size_create ..).symm
  have hrow := adorning_addTriggerRow hl area cs { s with tree := (s.tree.create (.control c)).2 }
    (hcreated.adorned hs)
  have hplaced := Layout.adorns_place hl (c := ⟨s.tree.size⟩) area
    (Nat.lt_of_lt_of_le hnew hrow.size_le)
  exact (hcreated.trans hrow).trans hplaced

theorem adorning_addRepeat (hl : g.layout.Standard) (spot : Spot) : Adorning (g.addRepeat spot) := by
  refine .after (.allocate "repeat") fun id => .look fun s => ?_
  refine .after (.reportUngoverned id _) fun _ => ?_
  exact .after (.repeatActions id _) fun actions => adorning_behindRow hl _ _ _

/-- Only controls in the arena are copied. -/
theorem lt_of_findBoundTo {t : Tree} {id : String} {n : NodeId} (h : t.findBoundTo id = some n) :
    n.index < t.size := by
  refine Nat.lt_of_not_le fun hle => ?_
  have hbound := List.find?_some h
  rw [Tree.control?, Tree.kind, Tree.node_of_le hle] at hbound
  cases hbound

theorem adorning_reuse (hl : g.layout.Standard) (spot : Spot) (nodeset : String) :
    Adorning (g.reuse spot nodeset) := by
  intro s hs
  unfold reuse
  rw [run_bind (show (get : Synth Synthesis) s = (s, s) from rfl)]
  cases childBind s.tree spot.scope nodeset with
  | none => exact .refl _
  | some bind =>
    dsimp only
    rw [run_bind (show (get : Synth Synthesis) s = (s, s) from rfl)]
    cases hsource : s.tree.findBoundTo bind.id with
    | none => exact .refl _
    | some source =>
      have hcopy := Tree.adorns_deepCopy s.ids hs (lt_of_findBoundTo hsource)
      have hplaced := Layout.adorns_place hl spot.area
        (Tree.loose_deepCopy s.tree s.ids source source).lt
      change Adorns s.tree (if s.reused.contains bind.node then _ else _ : Synthesis).tree
      split <;> exact hcopy.trans hplaced

end Generator

/-- The discipline of steps that keep to plain markup. -/
def adorning {g : Generator} (hl : g.layout.Standard) : Discipline g where
  Step _ f _ := Adorning f
  pure _ := .still fun _ => rfl
  bind hf hk := hf.bind hk
  look hk := fun s hs => hk s s hs
  still h := .still h
  modifyBind n f := fun s _ => Tree.adorns_modifyBind s.tree n f
  hang _ _ hk := Generator.adorning_hang (k := .control _) trivial _ hk
  addBind b nodeset _ := Generator.adorning_addBind _ b nodeset
  addControl c _ := Generator.adorning_addControl hl _ c
  addSection _ _ := Generator.adorning_addControl hl _ _
  contentOf _ := Generator.adorning_contentOf hl _
  addRepeat spot _ := Generator.adorning_addRepeat hl spot
  reuse spot nodeset _ := Generator.adorning_reuse hl spot nodeset

namespace Generator

variable {g : Generator}

/-! The whole form. -/

theorem plain_htmlMarkup : htmlMarkup.Plain where
  name := by decide
  keys := by decide
  distinct := by decide
  nspace := by simp [htmlMarkup]

theorem plain_linkMarkup (stylesheet : String) : (linkMarkup stylesheet).Plain where
  name := (rfl : IsNCName "link" = true)
  keys := by
    simp only [linkMarkup, List.forall_mem_cons]
    exact ⟨by decide, by decide, by decide, fun _ ha => (nomatch ha)⟩
  distinct := by simp [linkMarkup]
  nspace := by simp [linkMarkup]

theorem adorned_envelope {l : Layout} (hl : l.Standard) : (l.envelope .empty).2.Adorned := by
  have hsingle {m : Markup} (hm : m.Plain) :
      ((Tree.empty.create (.markup m)).2.setRoot ⟨0⟩).Adorned :=
    ((Tree.adorns_create .empty (k := .markup m) hm).adorned Tree.adorned_empty).setRoot _
  cases hl with
  | plain => exact hsingle (Markup.plain_of_bare (by decide) none)
  | page stylesheet title =>
    have hhead : Tree.Adorns _ emptyPage :=
      Tree.adorns_add ⟨0⟩ (k := .markup headMarkup) (Markup.plain_of_bare (by decide) none)
    have hlink (t : Tree) : t.Adorns (t.add ⟨1⟩ (.markup (linkMarkup stylesheet))) :=
      Tree.adorns_add ⟨1⟩ (plain_linkMarkup stylesheet)
    have hpage := hhead.adorned (hsingle plain_htmlMarkup)
    cases title with
    | none => exact (hlink _).adorned hpage
    | some text =>
      have htitle : emptyPage.Adorns _ := Tree.adorns_add ⟨1⟩
        (k := .markup { name := "title", text := some text })
        (Markup.plain_of_bare (by decide) (some text))
      exact (htitle.trans (hlink _)).adorned hpage

theorem adorns_model {l : Layout} (hl : l.Standard) {n : NodeId} {t : Tree} (hn : n.index < t.size)
    (ht : t.Adorned) :
    t.Adorns (l.model n t).2 ∧ (l.model n t).1.index < (l.model n t).2.size := by
  cases hl with
  | plain => exact ⟨.refl _, hn⟩
  | page stylesheet title =>
    change t.Adorns (Layout.pageModel n t).2 ∧
      (Layout.pageModel n t).1.index < (Layout.pageModel n t).2.size
    unfold Layout.pageModel
    split
    · exact ⟨.refl _, hn⟩
    · split
      · exact ⟨.refl _, hn⟩
      · next head hfind =>
        refine ⟨Tree.adorns_append head hn, ?_⟩
        rw [Tree.size_append]
        exact ht.children _ _ (List.mem_of_find?_eq_some hfind)

theorem adorns_form {l : Layout} (hl : l.Standard) (n : NodeId) (t : Tree) :
    t.Adorns (l.form n t).2 := by
  cases hl with
  | plain => exact .refl _
  | page stylesheet title =>
    exact Tree.adorns_add n (k := .markup { name := "body" })
      (Markup.plain_of_bare (by decide) none)

/-- Before the root element is added, the arena is as it should be. -/
theorem adorned_stage (hl : g.layout.Standard) (r : Request) {s : Synthesis} (hs : s.tree = .empty) :
    (g.stage r s).2.tree.Adorned := by
  rw [stage_run, hs]
  have henvelope := adorned_envelope hl
  generalize g.layout.envelope .empty = e at henvelope
  have hcreated := Tree.adorns_create e.2
    (k := .model (s.ids.allocate "model").1 r.schemaReference) trivial
  have hnew := Nat.lt_of_lt_of_eq (Nat.lt_succ_self e.2.size)
    (e.2.size_create (.model (s.ids.allocate "model").1 r.schemaReference)).symm
  obtain ⟨hmodel, hcontainer⟩ := adorns_model hl (n := ⟨e.2.size⟩) hnew
    (hcreated.adorned henvelope)
  have hput := hmodel.trans (Tree.adorns_append e.1 hcontainer)
  have hform := hput.trans (adorns_form hl e.1 _)
  exact (hform.trans (Tree.adorns_add _ (k := .instanceData _ none) trivial)).adorned
    (hcreated.adorned henvelope)

theorem adorning_finish (hl : g.layout.Standard) (r : Request) (model form data : NodeId)
    (skeleton : Xml.Element) : Adorning (g.finish r model form data skeleton) := by
  refine .after (.allocate _) fun id => adorning_hang (k := .submission ..) trivial model fun _ => ?_
  refine .after (.allocate _) fun id => ?_
  exact (adorning_addControl hl form _).bind fun _ => .still fun _ => rfl

/-- All markup of a form is plain. -/
theorem generate_adorned (hl : g.layout.Standard) {time : String} {r : Request} {form : Form}
    (h : g.generate time r = .ok form) : form.tree.Adorned := by
  unfold generate at h
  split at h
  · cases h
  · next root _ =>
    have htree := (Quiet.qualified (g.schema.element root).name).tree_eq Synthesis.initial
    dsimp only at h
    generalize Synthesis.qualified (g.schema.element root).name Synthesis.initial = named
      at h htree
    obtain ⟨⟨nsPrefix, rootName⟩, s⟩ := named
    dsimp only at h htree
    have hbuilt : (g.build r root nsPrefix rootName s).2.tree.Adorned := by
      have hstage := adorned_stage hl r (s := s) htree
      rw [build_eq, run_bind (Prod.eta (g.stage r s)).symm]
      generalize g.stage r s = staged at hstage
      obtain ⟨⟨model, form, data⟩, s'⟩ := staged
      have hrest : Adorning (do
          let content ← g.contentOf form
          let skeleton := prepareRoot (bareInstance (g.schema.element root) nsPrefix)
          let filled ← g.addElement (g.schema.elements.size + 1) ⟨model, content⟩ skeleton root
            ("/" ++ rootName) .once
          g.finish r model content data (filled.getD skeleton)) := by
        refine (adorning_contentOf hl form).bind fun content => ?_
        exact Adorning.bind (Discipline.addElement (D := adorning hl) _ [.any content, .any model]
          _ _ _ _ _ List.mem_cons_self (.of_any (by simp))) fun _ => adorning_finish hl r _ _ _ _
      exact (hrest s' hstage).adorned hstage
    split at h
    · cases h
    · generalize g.build r root nsPrefix rootName s = built at h hbuilt
      obtain ⟨⟨skeleton, data⟩, s'⟩ := built
      cases h
      dsimp only at hbuilt ⊢
      refine (Tree.adorns_modifyKind s'.tree data fun k hk => ?_).adorned hbuilt
      cases k with
      | instanceData id _ => trivial
      | _ => exact hk

end Generator

end SchemaForms
