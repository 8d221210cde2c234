import SchemaForms.Proofs.Form.Following
import SchemaForms.Proofs.Form.Staging
import SchemaForms.Proofs.Schema.Substituting

/-!
The tree of a form, as its sketch draws it.
-/

namespace SchemaForms

open Grove (ids graft only both at? tops erase bounds relabel bindTops lastOf kidsOf Recasts boxed)
open Forest (tree leaf)
open Xml (Element)

/-- What a form is made of. -/
structure Drawing where
  model : String
  data : String
  submission : String
  submit : String
  binds : List Kid
  controls : Forest NodeKind
  /-- The instance that the schema alone gives. -/
  skeleton : Element

namespace Drawing

def submitControl (d : Drawing) : Control where
  id := d.submit
  kind := .submit d.submission
  label := some "Submit"

/-- The nodes of the form for a request. -/
def forest (d : Drawing) (r : Request) (root : Option Element) : Forest NodeKind :=
  tree (.model d.model r.schemaReference) (leaf (.instanceData d.data root) ++
      (Kid.forest d.binds).map .bind ++
      leaf (.submission d.submission r.submissionAction r.submissionMethod)) ++
    (d.controls ++ leaf (.control d.submitControl))

end Drawing

namespace Sketch

open Synthesis

/-- What is drawn around the root element. -/
def around (skeleton : Element) (p : Sketch (Option Element)) : Synth Drawing := do
  let model ← allocate "model"
  let data ← allocate "instance"
  let (filled, d) ← p {}
  let submission ← allocate "submission"
  let submit ← allocate "submit"
  return ⟨model, data, submission, submit, d.kids, d.controls, filled.getD skeleton⟩

/-- The sketch of a form. -/
def form (g : Generator) (root : ElementId) (nsPrefix : Option String) (rootName : String) :
    Synth Drawing :=
  let skeleton := Generator.prepareRoot (Generator.bareInstance (g.schema.element root) nsPrefix)
  around skeleton
    (element g (g.schema.elements.size + 1) skeleton root ("/" ++ rootName) .once)

theorem around_run (skeleton : Element) (p : Sketch (Option Element)) (s : Synthesis) :
    let model := s.ids.allocate "model"
    let data := model.2.allocate "instance"
    let drawn := p {} { s with ids := data.2 }
    let submission := drawn.2.ids.allocate "submission"
    let submit := submission.2.allocate "submit"
    around skeleton p s = (⟨model.1, data.1, submission.1, submit.1, drawn.1.2.kids,
      drawn.1.2.controls, drawn.1.1.getD skeleton⟩, { drawn.2 with ids := submit.2 }) := rfl

end Sketch

theorem Grove.labels_of_at? {f b : Grove} {x : NodeId} {k : NodeKind}
    (h : at? x f = some (k, b)) : ∀ a ∈ b.labels, a ∈ f.labels := fun a ha =>
  mem_labels_of_at? h (by simp [tree, ha])

theorem Grove.both_nil_right (x y : NodeId) (f : Grove) : both x f y .nil = only x f := by
  funext z
  unfold both only
  split
  · rfl
  · exact ite_self _

theorem Grove.both_nil_left {x y : NodeId} (hne : x ≠ y) (f : Grove) :
    both x .nil y f = only y f := by
  funext z
  unfold both only
  split
  · next hz => rw [if_neg (hz ▸ hne)]
  · rfl

section Staged

variable {g : Generator} {r : Request} {s : Synthesis} {t : Tree} {f : Grove}
  {model form data : NodeId} {id dataId : String} {reference : Option String}

theorem Stage.no_binds (h : Stage t f model form data id reference dataId) :
    ∀ a ∈ f.labels, a.2.bind? = none ∧ a.2.isBound = false := by
  intro a ha
  rcases h.others a ha with hm | rfl | rfl
  · obtain ⟨x, k⟩ := a
    cases k with
    | markup m => exact ⟨rfl, rfl⟩
    | _ => cases hm
  · exact ⟨rfl, rfl⟩
  · exact ⟨rfl, rfl⟩

theorem Stage.lastElementBind (h : Stage t f model form data id reference dataId) {x : NodeId}
    (hx : x ∈ ids f) : Generator.lastElementBind t x = none := by
  obtain ⟨⟨k, below⟩, hat⟩ := Grove.at?_eq_some_of_mem hx
  rw [Tree.lastElementBind_eq h.shows.toHolds hat, Grove.bindTops_eq_nil fun a ha => ?_]
  · rfl
  · exact (h.no_binds a (Grove.labels_of_at? hat a ha)).1

theorem Stage.bounds (h : Stage t f model form data id reference dataId) : bounds f = [] := by
  rw [Grove.bounds, List.filter_eq_nil_iff]
  intro a ha
  rw [(h.no_binds a ha).2]
  exact Bool.false_ne_true

/-- The scene before the root element is added. -/
theorem Stage.scene (h : Stage t f model form data id reference dataId) (htree : s.tree = t)
    (hreused : s.reused = []) : Scene s f model form {} := by
  subst htree
  have hmem : model ∈ ids f := (Grove.mem_of_at? h.at_model).1
  obtain ⟨p, hparent, hp, hlt, hq⟩ := h.parent
  refine ⟨⟨h.shows, ?_, ?_⟩, ⟨⟨_, _, h.at_model, rfl, ?_, ?_⟩, p, hparent, hp, hlt, ?_, ?_, hq⟩,
    h.at_form, h.ne, h.opened, (fun _ hk => by cases hk), fun _ hid => by cases hid⟩
  · rw [h.bounds]
    exact fun _ ha => by cases ha
  · rw [hreused]
    exact fun _ hx => by cases hx
  · refine ⟨fun hm => ?_, rfl⟩
    rw [hreused] at hm
    cases hm
  · rw [Grove.ids_leaf, List.mem_singleton]
    exact h.apart
  · exact h.lastElementBind hp
  · rw [Generator.governingBind, h.lastElementBind hp]
    cases hpp : s.tree.parent p with
    | none => rfl
    | some q => exact h.lastElementBind (hq q hpp).1

/-- The frame of the root element. -/
theorem frame_root {p : NodeId} (hp : s.tree.parent model = some p) :
    Frame.In ⟨model, p, none, none, []⟩ s {} :=
  ⟨rfl, rfl, hp, fun _ hid => by cases hid⟩

/-- What the stage has become when the root element has been added. -/
theorem Stage.on_eq {s' : Synthesis} {d : Draft} {γ : Growth}
    (h : Stage t f model form data id reference dataId) (hscene : Scene s f model form {})
    (ha : Adds s s' f model form {} d γ) :
    γ.on model form f = graft (both model γ.binds form γ.controls) f := by
  rw [Growth.on, Grove.relabel_graft,
    Grove.relabel_of_no_binds ha.recasts fun a hm => (h.no_binds a hm).1]
  refine Grove.graft_congr fun x _ => ?_
  unfold both
  split
  · exact ha.cast_new hscene ha.newBinds
  · split
    · exact ha.cast_new hscene ha.newControls
    · rfl

/-- The binds below the model are the kids. -/
theorem Stage.binds_eq {s' : Synthesis} {d : Draft} {γ : Growth}
    (h : Stage t f model form data id reference dataId) (hscene : Scene s f model form {})
    (ha : Adds s s' f model form {} d γ) (h' : Scene s' (γ.on model form f) model form d) :
    erase γ.binds = (Kid.forest d.kids).map .bind := by
  obtain ⟨k, below, hat, -, hdraws, -⟩ := h'.scopeAt.here
  cases hat.symm.trans (ha.at?_scope hscene h.at_model)
  have hdata : (γ.cast data (.instanceData dataId none)).bind? = none := by
    rw [ha.recasts.other data _ rfl]
    rfl
  simp only [relabel, leaf, tree, Forest.map_cons, Forest.map_nil, Forest.cons_append,
    Forest.nil_append, Draws, hdata] at hdraws
  exact hdraws.2.erase_eq ha.bindsOnly

end Staged

namespace Generator

open Synthesis

variable {g : Generator}

/-- What is made behind the root element. -/
def finish (g : Generator) (r : Request) (model form data : NodeId) (skeleton : Element) :
    Synth (Element × NodeId) := do
  let submissionId ← allocate "submission"
  let submission ← create (.submission submissionId r.submissionAction r.submissionMethod)
  append model submission
  let _ ← g.addControl form
    { id := ← allocate "submit", kind := .submit submissionId, label := some "Submit" }
  return (skeleton, data)

theorem build_eq (r : Request) (root : ElementId) (nsPrefix : Option String) (rootName : String) :
    g.build r root nsPrefix rootName = (do
      let (model, form, data) ← g.stage r
      let content ← g.contentOf form
      let skeleton := prepareRoot (bareInstance (g.schema.element root) nsPrefix)
      let filled ← g.addElement (g.schema.elements.size + 1) ⟨model, content⟩ skeleton root
        ("/" ++ rootName) .once
      g.finish r model content data (filled.getD skeleton)) := by
  simp only [build, stage, finish, bind_assoc, pure_bind]

/-- The submission is hung behind the binds and its control behind the controls. -/
theorem finish_hangs {box : Option Markup} (hl : g.layout.Boxes box) (r : Request)
    {model form : NodeId} (data : NodeId) (skeleton : Element) {s : Synthesis} {f : Grove}
    (h : s.tree.Shows f) (hmodel : model ∈ ids f) (hform : form ∈ ids f) :
    let submission := s.ids.allocate "submission"
    let submit := submission.2.allocate "submit"
    let sent : NodeKind := .submission submission.1 r.submissionAction r.submissionMethod
    ∃ t c, g.finish r model form data skeleton s =
        ((skeleton, data), { s with ids := submit.2, tree := t }) ∧
      t.Holds (graft (only form c)
        (graft (only model (leaf (⟨s.tree.size⟩, sent))) f)) ∧
      t.root = s.tree.root ∧
      erase c = leaf (.control
        { id := submit.1, kind := .submit submission.1, label := some "Submit" }) ∧
      (∀ a ∈ c.labels, a.2.bind? = none) ∧ (∀ x ∈ ids c, s.tree.size ≤ x.index) := by
  intro submission submit sent
  have hsent : (s.tree.add model sent).Holds
      (graft (only model (leaf (⟨s.tree.size⟩, sent))) f) := h.toHolds.add hmodel sent
  let c : Control := { id := submit.1, kind := .submit submission.1, label := some "Submit" }
  obtain ⟨t, b, hrun, hhangs, herase⟩ := addControl_hangs hl c
    { s with ids := submit.2, tree := s.tree.add model sent } _ hsent
    ((Grove.mem_ids_graft _ _).2 (.inl hform))
  refine ⟨t, b, ?_, hhangs.holds, hhangs.root.trans (Tree.root_add ..), herase, hhangs.controlsOnly,
    fun x hx => ?_⟩
  · exact congrArg (Prod.mk (skeleton, data)) hrun
  · refine Nat.le_trans ?_ (hhangs.new x hx)
    exact Nat.le_trans (Nat.le_succ _) (Nat.le_of_eq (Tree.size_add ..).symm)

end Generator

/-- The groves of which a form consists before the instance is put in: the stage with binds and
controls added. -/
structure Finished (t : Tree) (f b c : Grove) (model form data : NodeId) (id dataId : String)
    (reference : Option String) : Prop where
  stage : ∃ t₀, Stage t₀ f model form data id reference dataId
  shows : t.Shows (graft (both model b form c) f)
  newBinds : ∀ x ∈ ids b, x ∉ ids f
  newControls : ∀ x ∈ ids c, x ∉ ids f
  bare : ∀ a ∈ b.labels, ¬ a.2.isMarkup
  unbound : ∀ a ∈ c.labels, a.2.bind? = none

theorem Stage.finished {s s' : Synthesis} {t t' : Tree} {f c : Grove} {model form data n : NodeId}
    {id dataId : String} {reference : Option String} {d : Draft} {γ : Growth} {sent : NodeKind}
    (h : Stage t f model form data id reference dataId) (hscene : Scene s f model form {})
    (ha : Adds s s' f model form {} d γ) (hn : s'.tree.size ≤ n.index) (hsent : ¬ sent.isMarkup)
    (hholds : t'.Holds (graft (only form c)
      (graft (only model (leaf (n, sent))) (γ.on model form f))))
    (hroot : t'.root = s'.tree.root) (hunbound : ∀ a ∈ c.labels, a.2.bind? = none)
    (hnew : ∀ x ∈ ids c, s'.tree.size ≤ x.index) :
    Finished t' f (γ.binds ++ leaf (n, sent)) (γ.controls ++ c) model form data id dataId
      reference where
  stage := ⟨t, h⟩
  shows := by
    have hmem : model ∈ ids f := hscene.scope_mem
    have hform : form ∈ ids f := hscene.area_mem
    have hL : ∀ x ∈ ids f, x ∉ ids (leaf (n, sent)) := by
      intro x hx hm
      rw [Grove.ids_leaf, List.mem_singleton] at hm
      subst hm
      exact Nat.not_lt.2 (Nat.le_trans ha.size_le hn) (hscene.lt hx)
    have hB : ∀ x ∈ ids f, x ∉ ids γ.binds := fun x hx => hscene.not_mem_of_new ha.newBinds hx
    have hC : ∀ x ∈ ids f, x ∉ ids γ.controls := fun x hx =>
      hscene.not_mem_of_new ha.newControls hx
    have hgrove : graft (only form c) (graft (only model (leaf (n, sent)))
        (graft (both model γ.binds form γ.controls) f)) =
        graft (both model (γ.binds ++ leaf (n, sent)) form (γ.controls ++ c)) f := by
      rw [← Grove.both_nil_right model form, Grove.graft_both_both ⟨hB _ hmem, hB _ hform⟩
        ⟨hC _ hmem, hC _ hform⟩, ← Grove.both_nil_left h.ne, Grove.graft_both_both,
        Forest.append_nil, Forest.append_nil]
      · rw [Grove.ids_append, List.mem_append, List.mem_append, not_or, not_or]
        exact ⟨⟨hB _ hmem, hL _ hmem⟩, hB _ hform, hL _ hform⟩
      · rw [Forest.append_nil]
        exact ⟨hC _ hmem, hC _ hform⟩
    have hon := h.on_eq hscene ha
    rw [hon, hgrove] at hholds
    refine ⟨hholds, ?_⟩
    obtain ⟨a, b, hf, -⟩ := h.shows.root
    obtain ⟨a', b', ha', hroot'⟩ := ha.shows.root
    rw [hon, hf] at ha'
    rw [hf]
    cases ha'
    exact ⟨a, _, rfl, hroot.trans hroot'⟩
  newBinds x hx hm := by
    rw [Grove.ids_append, Grove.ids_leaf, List.mem_append, List.mem_singleton] at hx
    rcases hx with hx | rfl
    · exact hscene.not_mem_of_new ha.newBinds hm hx
    · exact Nat.not_lt.2 (Nat.le_trans ha.size_le hn) (hscene.lt hm)
  newControls x hx hm := by
    rw [Grove.ids_append, List.mem_append] at hx
    rcases hx with hx | hx
    · exact hscene.not_mem_of_new ha.newControls hm hx
    · exact Nat.not_lt.2 (Nat.le_trans ha.size_le (hnew x hx)) (hscene.lt hm)
  bare a hm := by
    rw [Forest.labels_append, List.mem_append] at hm
    rcases hm with hm | hm
    · intro hmarkup
      have := ha.bindsOnly a hm
      rw [Grove.bind?_of_isMarkup hmarkup] at this
      cases this
    · rw [List.mem_singleton.1 hm]
      exact hsent
  unbound a hm := by
    rw [Forest.labels_append, List.mem_append] at hm
    exact hm.elim (ha.controlsOnly a) (hunbound a)

namespace Generator

open Synthesis

variable {g : Generator}

theorem run_bind {α β : Type} {m : Synth α} {k : α → Synth β} {s s' : Synthesis} {a : α}
    (h : m s = (a, s')) : (m >>= k) s = k a s' := by
  change k (m s).1 (m s).2 = _
  rw [h]

/-- Building a form for a request draws its sketch. -/
theorem build_finishes (hl : g.layout.Standard)
    (hsubstitutes : g.substitutes = Substitutes.ofSchema g.schema) (r : Request) (root : ElementId)
    (nsPrefix : Option String) (rootName : String) {s : Synthesis} (htree : s.tree = .empty)
    (hreused : s.reused = []) :
    let drawn := Sketch.form g root nsPrefix rootName s
    let built := g.build r root nsPrefix rootName s
    built.1.1 = drawn.1.skeleton ∧ built.2.prefixes = drawn.2.prefixes ∧
      built.2.anomalies = drawn.2.anomalies ∧
      ∃ t f b c model form, Finished t f b c model form built.1.2 drawn.1.model drawn.1.data
          r.schemaReference ∧ built.2.tree = t ∧
        erase b = (Kid.forest drawn.1.binds).map .bind ++
          leaf (.submission drawn.1.submission r.submissionAction r.submissionMethod) ∧
        erase c = drawn.1.controls ++ leaf (.control drawn.1.submitControl) := by
  intro drawn built
  obtain ⟨box, hbox⟩ := hl.boxes
  obtain ⟨t, f, model, form, data, hstage, hset⟩ := stage_sets (r := r) hl htree
  have hscene : Scene (staged s t) f model form {} := hset.scene rfl hreused
  obtain ⟨p, hparent, -⟩ := hset.parent
  let skeleton := prepareRoot (bareInstance (g.schema.element root) nsPrefix)
  have helement := (Follows.element hbox
    (fun t t' ht' ht => complex_of_mem_candidates hsubstitutes ht' ht)
    (g.schema.elements.size + 1) ⟨model, p, none, none, []⟩ form skeleton root ("/" ++ rootName)
    .once).1
  obtain ⟨hresult, hbare, -, γ, ha, h'⟩ := helement hscene trivial (frame_root hparent)
  let added := g.addElement (g.schema.elements.size + 1) ⟨model, form⟩ skeleton root
    ("/" ++ rootName) .once (staged s t)
  obtain ⟨t', c, hrun, hholds, hroot, herase, hunbound, hnew⟩ := finish_hangs hbox r data
    (added.1.getD skeleton) h'.world.shows h'.scope_mem h'.area_mem
  have hbuilt : built = g.finish r model form data (added.1.getD skeleton) added.2 := by
    have hcontent : g.contentOf form (staged s t) = (form, staged s t) := by
      change ((g.layout.groupContent form t).1, { staged s t with
        tree := (g.layout.groupContent form t).2 }) = _
      rw [hbox.content]
      rfl
    dsimp only [built]
    rw [build_eq, run_bind hstage]
    exact (run_bind hcontent).trans (run_bind (Prod.eta added).symm)
  have hstart : ({ s with ids := ((s.ids.allocate "model").2.allocate "instance").2 } :
      Synthesis) = (staged s t).bare := by
    rw [Synthesis.bare, staged, ← htree, ← hreused]
  have hdrawn := Sketch.around_run skeleton (Sketch.element g (g.schema.elements.size + 1) skeleton
    root ("/" ++ rootName) .once) s
  dsimp only at hdrawn
  rw [hstart, ← hbare, ← hresult] at hdrawn
  have hbuilt' := hbuilt.trans hrun
  have hfinished := hset.finished hscene ha (n := ⟨added.2.tree.size⟩) (Nat.le_refl _)
    (by simp [NodeKind.isMarkup]) hholds hroot hunbound hnew
  have hdrawn' : drawn = _ := hdrawn
  rw [hbuilt', hdrawn']
  refine ⟨rfl, rfl, rfl, t', f, _, _, model, form, hfinished, rfl, ?_, ?_⟩
  · rw [Grove.erase_append, hset.binds_eq hscene ha h']
    rfl
  · have hdrawn := ha.drawn
    rw [Grove.erase_append, herase]
    rw [Forest.nil_append] at hdrawn
    exact congrArg (· ++ _) hdrawn.symm

end Generator

end SchemaForms
