import SchemaForms.Proofs.Form.Simulation

/-!
Staging: the arena when the envelope, the model and its instance have been made, and no binds or
controls yet.
-/

namespace SchemaForms

open Grove (ids graft only both at? tops erase bounds relabel)
open Forest (tree leaf)

namespace Tree

variable {t : Tree}

theorem Holds.empty : empty.Holds .nil := ⟨trivial, .nil, fun _ hx => by cases hx⟩

theorem Holds.setRoot {f : Grove} (h : t.Holds f) (x : NodeId) : (t.setRoot x).Holds f :=
  ⟨h.links.congr fun _ _ => rfl, h.nodup, h.lt⟩

/-- A new node below another one. -/
def add (t : Tree) (x : NodeId) (k : NodeKind) : Tree := (t.create k).2.append x (t.create k).1

theorem size_add (t : Tree) (x : NodeId) (k : NodeKind) : (t.add x k).size = t.size + 1 :=
  (size_append ..).trans (size_create ..)

theorem root_add (t : Tree) (x : NodeId) (k : NodeKind) : (t.add x k).root = t.root :=
  root_append ..

theorem Holds.add {f : Grove} (h : t.Holds f) {x : NodeId} (hx : x ∈ ids f) (k : NodeKind) :
    (t.add x k).Holds (graft (only x (leaf (⟨t.size⟩, k))) f) :=
  (h.create k).append hx

/-- An only child stays so when it is appended again. -/
theorem node_append_again {p c : NodeId} (hne : p ≠ c) (hp : p.index < t.size)
    (hc : c.index < t.size) (hparent : t.parent c = some p) (hchildren : t.children p = [c])
    (x : NodeId) : (t.append p c).node x = t.node x := by
  have hdetach : t.detach c =
      t.update p fun n => { n with children := n.children.filter (· ≠ c) } := by
    unfold detach
    rw [hparent]
  have hfilter : [c].filter (· ≠ c) = [] := by simp
  have hnp : (t.node p).children = [c] := hchildren
  have hnc : (t.node c).parent = some p := hparent
  simp only [append, if_neg hne, hdetach, node_update, size_update, hp, hc, and_true]
  by_cases hxp : x = p
  · subst hxp
    rw [if_pos rfl, if_neg (Ne.symm hne), if_pos rfl]
    simp only [hnp, hfilter, List.nil_append]
    rw [← hnp]
  · by_cases hxc : x = c
    · subst hxc
      rw [if_neg (Ne.symm hxp), if_pos rfl, if_neg hne, ← hnc]
    · rw [if_neg (Ne.symm hxp), if_neg (Ne.symm hxc), if_neg (Ne.symm hxp)]

theorem Holds.again {f : Grove} (h : t.Holds f) {p c : NodeId} (hne : p ≠ c) (hp : p ∈ ids f)
    (hc : c ∈ ids f) (hparent : t.parent c = some p) (hchildren : t.children p = [c]) :
    (t.append p c).Holds f where
  links := h.links.congr fun x _ =>
    node_append_again hne (h.lt p hp) (h.lt c hc) hparent hchildren x
  nodup := h.nodup
  lt x hx := Nat.lt_of_lt_of_eq (h.lt x hx) (size_append ..).symm

end Tree

/-- What is there before an element is added: a model with an instance, and a place for controls. -/
structure Stage (t : Tree) (f : Grove) (model form data : NodeId) (id : String)
    (reference : Option String) (dataId : String) : Prop where
  shows : t.Shows f
  at_model : at? model f =
    some (.model id reference, leaf (data, .instanceData dataId none))
  at_form : form ∈ ids f
  ne : model ≠ form
  apart : form ≠ data
  parent : ∃ p, t.parent model = some p ∧ p ∈ ids f ∧ p.index < model.index ∧
    ∀ q, t.parent p = some q → q ∈ ids f ∧ q.index < p.index
  /-- Besides, there is presentation markup. -/
  others : ∀ a ∈ f.labels, a.2.isMarkup ∨ a = (model, .model id reference) ∨
    a = (data, .instanceData dataId none)
  opened : Open f form
  erased : ∀ b c root, data ∉ ids b → data ∉ ids c →
    erase (relabel (fun x k => if x = data then .instanceData dataId root else k)
      (graft (both model b form c) f)) =
      tree (.model id reference) (leaf (.instanceData dataId root) ++ erase b) ++ erase c

theorem relabel_new {data : NodeId} {b : Grove} (hb : data ∉ ids b) (k : NodeKind) :
    relabel (fun x k' => if x = data then k else k') b = b :=
  Grove.relabel_eq_self fun x hx _ => if_neg fun he : x = data => hb (he ▸ hx)

/-- An envelope around the model, with the controls behind that. -/
theorem stage_envelope {t : Tree} {m : Markup} {id dataId : String} {reference : Option String}
    (h : t.Holds (tree (⟨0⟩, .markup m) (tree (⟨1⟩, .model id reference)
      (leaf (⟨2⟩, .instanceData dataId none))))) (hroot : t.root = some ⟨0⟩) :
    Stage t (tree (⟨0⟩, .markup m) (tree (⟨1⟩, .model id reference)
      (leaf (⟨2⟩, .instanceData dataId none)))) ⟨1⟩ ⟨0⟩ ⟨2⟩ id reference dataId where
  shows := ⟨h, _, _, rfl, hroot⟩
  at_model := rfl
  at_form := by simp
  ne := by simp
  apart := by simp
  parent := by
    obtain ⟨henv, ⟨hmodel, -⟩, -⟩ := h.links
    refine ⟨⟨0⟩, by rw [Tree.parent, hmodel], by simp, Nat.zero_lt_one, fun q hq => ?_⟩
    rw [Tree.parent, henv] at hq
    cases hq
  others a ha := by
    simp only [tree, leaf, Forest.labels_cons, Forest.labels_nil, List.append_nil, List.mem_cons,
      List.not_mem_nil, or_false] at ha
    rcases ha with rfl | ha
    · exact .inl rfl
    · exact .inr ha
  opened g := by
    simp [tree, leaf, only, Grove.bounds_cons, NodeKind.isBound, NodeKind.control?]
  erased b c root hb hc := by
    have hb' := relabel_new hb (.instanceData dataId root)
    have hc' := relabel_new hc (.instanceData dataId root)
    unfold relabel at hb' hc' ⊢
    simp [tree, leaf, both, erase, NodeKind.isMarkup, hb', hc']

/-- A page with the model behind all else in its head, and a body for the controls. -/
theorem stage_page {t : Tree} (m m' m'' : Markup) {i : Nat} {id dataId : String}
    {reference : Option String} {front : Grove}
    (hfront : ∀ a ∈ front.labels, a.2.isMarkup) (herase : erase front = .nil)
    (hlt : ∀ x ∈ ids front, x.index < i) (hi : 1 < i)
    (h : t.Holds (tree (⟨0⟩, .markup m) (tree (⟨1⟩, .markup m') (front ++
      tree (⟨i⟩, .model id reference) (leaf (⟨i + 2⟩, .instanceData dataId none))) ++
      leaf (⟨i + 1⟩, .markup m'')))) (hroot : t.root = some ⟨0⟩) :
    Stage t (tree (⟨0⟩, .markup m) (tree (⟨1⟩, .markup m') (front ++
      tree (⟨i⟩, .model id reference) (leaf (⟨i + 2⟩, .instanceData dataId none))) ++
      leaf (⟨i + 1⟩, .markup m''))) ⟨i⟩ ⟨i + 1⟩ ⟨i + 2⟩ id reference dataId where
  shows := ⟨h, _, _, rfl, hroot⟩
  at_model := by
    have hnone : front.find (fun a => decide (a.1 = ⟨i⟩)) = none :=
      Forest.find_eq_none fun a ha => decide_eq_false fun he => by
        have := hlt a.1 (List.mem_map_of_mem ha)
        rw [he] at this
        exact Nat.lt_irrefl _ this
    have h0 : (⟨0⟩ : NodeId) ≠ ⟨i⟩ := fun he => by
      cases he
      exact absurd hi (by decide)
    have h1 : (⟨1⟩ : NodeId) ≠ ⟨i⟩ := fun he => by
      cases he
      exact absurd hi (by decide)
    simp [at?, tree, Forest.find, Forest.find_append, hnone, h0, h1]
  at_form := by simp
  ne := by simp
  apart := by simp
  parent := by
    obtain ⟨hhtml, hlinks, -⟩ := h.links
    obtain ⟨⟨hhead, hlinks, -⟩, -⟩ := Tree.links_append.1 hlinks
    obtain ⟨-, hmodel, -⟩ := Tree.links_append.1 hlinks
    refine ⟨⟨1⟩, by rw [Tree.parent, hmodel], by simp, hi, fun q hq => ?_⟩
    rw [Tree.parent, hhead] at hq
    cases hq
    exact ⟨by simp, Nat.zero_lt_one⟩
  others a ha := by
    simp only [tree, leaf, Forest.labels_cons, Forest.labels_nil, Forest.labels_append,
      List.append_nil, List.mem_cons, List.mem_append, List.not_mem_nil, or_false] at ha
    rcases ha with rfl | (rfl | ha | ha) | rfl
    · exact .inl rfl
    · exact .inl rfl
    · exact .inl (hfront a ha)
    · exact .inr ha
    · exact .inl rfl
  opened g := by
    have hself : graft (only ⟨i + 1⟩ g) front = front :=
      Grove.graft_eq_self fun x hx => Grove.only_of_ne (fun he => by
        have := hlt x hx
        rw [he] at this
        exact Nat.not_succ_lt_self this) g
    have h0 : (⟨0⟩ : NodeId) ≠ ⟨i + 1⟩ := by simp
    have h1 : (⟨1⟩ : NodeId) ≠ ⟨i + 1⟩ := fun he => by
      cases he
      exact absurd hi (by decide)
    simp [tree, leaf, Grove.only_of_ne, hself, h0, h1, Grove.bounds_cons, NodeKind.isBound,
      NodeKind.control?]
  erased b c root hb hc := by
    have hb' := relabel_new hb (.instanceData dataId root)
    have hc' := relabel_new hc (.instanceData dataId root)
    have hgraft : graft (both ⟨i⟩ b ⟨i + 1⟩ c) front = front := Grove.graft_eq_self fun x hx => by
      have hx := hlt x hx
      refine Grove.both_of_ne (fun he => ?_) (fun he => ?_) b c
      · exact absurd hx (by rw [he]; exact Nat.lt_irrefl _)
      · exact absurd hx (by rw [he]; exact Nat.not_succ_lt_self)
    have hnew : (⟨i + 2⟩ : NodeId) ∉ ids front := fun hm => absurd (hlt _ hm) (by simp)
    have hself := relabel_new hnew (.instanceData dataId root)
    have h0 : (⟨0⟩ : NodeId) ≠ ⟨i⟩ := fun he => by
      cases he
      exact absurd hi (by decide)
    have h1 : (⟨1⟩ : NodeId) ≠ ⟨i⟩ := fun he => by
      cases he
      exact absurd hi (by decide)
    have h1' : (⟨1⟩ : NodeId) ≠ ⟨i + 1⟩ := fun he => by
      cases he
      exact absurd hi (by decide)
    unfold relabel at hb' hc' hself ⊢
    simp [tree, leaf, both, hgraft, erase, NodeKind.isMarkup, hb', hc', hself, herase, h0, h1, h1']

/-- The layouts of forms: bare ones and pages. -/
inductive Layout.Standard : Layout → Prop
  | plain : Standard plain
  | page (stylesheet : String) (title : Option String) : Standard (page stylesheet title)

theorem Layout.Standard.boxes {l : Layout} (h : l.Standard) : ∃ box, l.Boxes box := by
  cases h with
  | plain => exact ⟨_, plain_boxes⟩
  | page stylesheet title => exact ⟨_, page_boxes stylesheet title⟩

namespace Generator

open Synthesis

/-- Makes all that is there before the root element is added. -/
def stage (g : Generator) (r : Request) : Synth (NodeId × NodeId × NodeId) := do
  let envelope ← onTree g.layout.envelope
  let model ← create (.model (← allocate "model") r.schemaReference)
  let container ← onTree (g.layout.model model)
  append envelope container
  let form ← onTree (g.layout.form envelope)
  let data ← create (.instanceData (← allocate "instance") none)
  append model data
  return (model, form, data)

/-- The state when the identifiers of the model and its instance have been given out. -/
def staged (s : Synthesis) (t : Tree) : Synthesis :=
  { s with ids := ((s.ids.allocate "model").2.allocate "instance").2, tree := t }

variable {g : Generator} {r : Request} {s : Synthesis}

theorem stage_plain (hl : g.layout = .plain) (htree : s.tree = .empty) : ∃ t f model form data,
    g.stage r s = ((model, form, data), staged s t) ∧
      Stage t f model form data (s.ids.allocate "model").1 r.schemaReference
        ((s.ids.allocate "model").2.allocate "instance").1 := by
  let envelope : NodeKind := .markup { name := "envelope" }
  let model : NodeKind := .model (s.ids.allocate "model").1 r.schemaReference
  let data : NodeKind := .instanceData ((s.ids.allocate "model").2.allocate "instance").1 none
  let t₀ : Tree := (Tree.empty.create envelope).2.setRoot ⟨0⟩
  have h₀ : t₀.Holds (leaf (⟨0⟩, envelope)) := (Tree.Holds.empty.create envelope).setRoot ⟨0⟩
  have h₁ : (t₀.add ⟨0⟩ model).Holds (tree (⟨0⟩, envelope) (leaf (⟨1⟩, model))) :=
    h₀.add (by simp) model
  have h₂ : ((t₀.add ⟨0⟩ model).add ⟨1⟩ data).Holds
      (tree (⟨0⟩, envelope) (tree (⟨1⟩, model) (leaf (⟨2⟩, data)))) := by
    have h := h₁.add (x := ⟨1⟩) (by simp) data
    rw [Tree.size_add, show t₀.size = 1 from rfl] at h
    simpa [Forest.tree, Forest.leaf, only] using h
  refine ⟨_, _, ⟨1⟩, ⟨0⟩, ⟨2⟩, ?_, stage_envelope h₂ ?_⟩
  · obtain ⟨ids, prefixes, t, anomalies, expanding, reused⟩ := s
    subst htree
    simp only [stage, hl]
    rfl
  · rw [Tree.root_add, Tree.root_add]
    rfl

/-- A page with markup in its head and nothing else. -/
structure Head (t : Tree) (html head : Markup) (front : Grove) : Prop where
  holds : t.Holds (Forest.tree (⟨0⟩, .markup html) (Forest.tree (⟨1⟩, .markup head) front))
  root : t.root = some ⟨0⟩
  lt : 1 < t.size
  markup : ∀ a ∈ front.labels, a.2.isMarkup
  erased : erase front = .nil

theorem Head.holds_add {t : Tree} {html head : Markup} {front : Grove}
    (h : Head t html head front) (k : NodeKind) : (t.add ⟨1⟩ k).Holds
      (Forest.tree (⟨0⟩, .markup html) (Forest.tree (⟨1⟩, .markup head)
        (front ++ Forest.leaf (⟨t.size⟩, k)))) := by
  have hnodup := h.holds.nodup
  simp only [Grove.ids_tree, List.nodup_cons, List.mem_cons, not_or] at hnodup
  have hself : graft (only ⟨1⟩ (Forest.leaf (⟨t.size⟩, k))) front = front :=
    Grove.graft_eq_self fun x hx =>
      Grove.only_of_ne (fun he : x = ⟨1⟩ => hnodup.2.1 (he ▸ hx)) _
  have hadd := h.holds.add (x := ⟨1⟩) (by simp) k
  simpa [Forest.tree, only, hself] using hadd

theorem Head.add {t : Tree} {html head : Markup} {front : Grove} (h : Head t html head front)
    (m : Markup) :
    Head (t.add ⟨1⟩ (.markup m)) html head (front ++ Forest.leaf (⟨t.size⟩, .markup m)) where
  holds := h.holds_add (.markup m)
  root := (Tree.root_add ..).trans h.root
  lt := Nat.lt_of_lt_of_eq (Nat.lt_succ_of_lt h.lt) (Tree.size_add ..).symm
  markup a ha := by
    rw [Forest.labels_append, List.mem_append] at ha
    rcases ha with ha | ha
    · exact h.markup a ha
    · rw [List.mem_singleton.1 ha]
      rfl
  erased := by
    rw [Grove.erase_append, h.erased]
    rfl

def htmlMarkup : Markup := { name := "html", attributes := [("xmlns", Layout.xhtmlNamespace)] }

def headMarkup : Markup := { name := "head" }

def linkMarkup (stylesheet : String) : Markup where
  name := "link"
  attributes := [("rel", "stylesheet"), ("type", "text/css"), ("href", stylesheet)]

/-- A page with an empty head. -/
def emptyPage : Tree :=
  ((Tree.empty.create (.markup htmlMarkup)).2.setRoot ⟨0⟩).add ⟨0⟩ (.markup headMarkup)

theorem emptyPage_head : Head emptyPage htmlMarkup headMarkup .nil where
  holds := ((Tree.Holds.empty.create (.markup htmlMarkup)).setRoot ⟨0⟩).add
    (List.mem_singleton.2 rfl) (.markup headMarkup)
  root := Tree.root_add ..
  lt := by
    rw [emptyPage, Tree.size_add]
    decide
  markup _ ha := by cases ha
  erased := rfl

theorem pageEnvelope_head (stylesheet : String) (title : Option String) :
    ∃ front, Head (Layout.pageEnvelope stylesheet title .empty).2 htmlMarkup headMarkup front := by
  cases title with
  | none =>
    have hrun : (Layout.pageEnvelope stylesheet none .empty).2 =
        emptyPage.add ⟨1⟩ (.markup (linkMarkup stylesheet)) := rfl
    rw [hrun]
    exact ⟨_, emptyPage_head.add _⟩
  | some text =>
    have hrun : (Layout.pageEnvelope stylesheet (some text) .empty).2 =
        (emptyPage.add ⟨1⟩ (.markup { name := "title", text := some text })).add ⟨1⟩
          (.markup (linkMarkup stylesheet)) := rfl
    rw [hrun]
    exact ⟨_, (emptyPage_head.add _).add _⟩

/-- The model goes behind all else in the head. -/
theorem Head.model {t : Tree} {html : Markup} {front : Grove} (h : Head t html headMarkup front)
    (k : NodeKind) :
    Layout.pageModel ⟨t.size⟩ (t.create k).2 = (⟨1⟩, t.add ⟨1⟩ k) := by
  obtain ⟨hlinks, -⟩ := Tree.links_append.1 (h.holds.create k).links
  obtain ⟨hhtml, ⟨hhead, -⟩, -⟩ := hlinks
  have hroot : (t.create k).2.root = some ⟨0⟩ := h.root
  have hchildren : (t.create k).2.children ⟨0⟩ = [⟨1⟩] := by
    rw [Tree.children, hhtml]
    rfl
  have hkind : (t.create k).2.kind ⟨1⟩ = .markup headMarkup := by
    rw [Tree.kind, hhead]
  simp only [Layout.pageModel, hroot, hchildren, List.find?_cons, hkind]
  rfl

/-- The arena of a page once the model, the body and the instance are there. -/
theorem Head.filled {t : Tree} {html : Markup} {front : Grove} (h : Head t html headMarkup front)
    (id dataId : String) (reference : Option String) (body : Markup) :
    let t₁ := (t.add ⟨1⟩ (.model id reference)).append ⟨0⟩ ⟨1⟩
    let t₂ := (t₁.add ⟨0⟩ (.markup body)).add ⟨t.size⟩ (.instanceData dataId none)
    ∃ f, Stage t₂ f ⟨t.size⟩ ⟨t.size + 1⟩ ⟨t.size + 2⟩ id reference dataId := by
  intro t₁ t₂
  have h₁ := h.holds_add (.model id reference)
  obtain ⟨hhtml, ⟨hhead, -⟩, -⟩ := h₁.links
  have h₁' : t₁.Holds _ := h₁.again (p := ⟨0⟩) (c := ⟨1⟩) (by simp) (by simp) (by simp)
    (by rw [Tree.parent, hhead]) (by rw [Tree.children, hhtml]; rfl)
  have hsize : t₁.size = t.size + 1 := (Tree.size_append ..).trans (Tree.size_add ..)
  have hsize' : (t₁.add ⟨0⟩ (.markup body)).size = t.size + 2 := by rw [Tree.size_add, hsize]
  have hnodup := h₁'.nodup
  simp only [Grove.ids_tree, Grove.ids_append, Grove.ids_leaf, List.nodup_cons, List.mem_cons,
    List.mem_append, List.not_mem_nil, or_false, not_or] at hnodup
  obtain ⟨⟨h01, h0, h0'⟩, ⟨-, h1'⟩, -⟩ := hnodup
  have hlt : ∀ x ∈ ids front, x.index < t.size := fun x hx => h.holds.lt x (by simp [hx])
  have h₂ := h₁'.add (x := ⟨0⟩) (by simp) (.markup body)
  have h₃ := h₂.add (x := ⟨t.size⟩) (by simp [Grove.mem_ids_graft]) (.instanceData dataId none)
  have hfront₀ (g : Grove) : graft (only ⟨0⟩ g) front = front :=
    Grove.graft_eq_self fun x hx => Grove.only_of_ne (fun he : x = ⟨0⟩ => h0 (he ▸ hx)) g
  have hfront₁ (g : Grove) : graft (only ⟨t.size⟩ g) front = front :=
    Grove.graft_eq_self fun x hx => Grove.only_of_ne (fun he => by
      have := hlt x hx
      rw [he] at this
      exact Nat.lt_irrefl _ this) g
  refine ⟨_, stage_page html headMarkup body h.markup h.erased hlt h.lt ?_ ?_⟩
  · rw [hsize, hsize'] at h₃
    simpa [Forest.tree, Forest.leaf, only, hfront₀, hfront₁, h01, Ne.symm h01, h0', Ne.symm h0', h1',
      Ne.symm h1'] using h₃
  · exact (Tree.root_add ..).trans ((Tree.root_add ..).trans ((Tree.root_append ..).trans
      ((Tree.root_add ..).trans h.root)))

theorem stage_run : g.stage r s =
    let e := g.layout.envelope s.tree
    let m := g.layout.model ⟨e.2.size⟩
      (e.2.create (.model (s.ids.allocate "model").1 r.schemaReference)).2
    let f := g.layout.form e.1 (m.2.append e.1 m.1)
    ((⟨e.2.size⟩, f.1, ⟨f.2.size⟩), staged s (f.2.add ⟨e.2.size⟩
      (.instanceData ((s.ids.allocate "model").2.allocate "instance").1 none))) := rfl

/-- In every layout there is, the stage is set before the root element is added. -/
theorem stage_sets (hl : g.layout.Standard) (htree : s.tree = .empty) : ∃ t f model form data,
    g.stage r s = ((model, form, data), staged s t) ∧
      Stage t f model form data (s.ids.allocate "model").1 r.schemaReference
        ((s.ids.allocate "model").2.allocate "instance").1 := by
  generalize hlayout : g.layout = l at hl
  cases hl with
  | plain => exact stage_plain hlayout htree
  | page stylesheet title =>
    obtain ⟨front, hhead⟩ := pageEnvelope_head stylesheet title
    have henvelope : (Layout.page stylesheet title).envelope .empty =
        (⟨0⟩, (Layout.pageEnvelope stylesheet title .empty).2) := rfl
    generalize (Layout.pageEnvelope stylesheet title .empty).2 = t₀ at hhead henvelope
    have hmodel (k : NodeKind) : (Layout.page stylesheet title).model ⟨t₀.size⟩ (t₀.create k).2 =
        (⟨1⟩, t₀.add ⟨1⟩ k) := hhead.model k
    have hbody (t : Tree) : (Layout.page stylesheet title).form ⟨0⟩ t =
        (⟨t.size⟩, t.add ⟨0⟩ (.markup { name := "body" })) := rfl
    obtain ⟨f, hf⟩ := hhead.filled (s.ids.allocate "model").1
      ((s.ids.allocate "model").2.allocate "instance").1 r.schemaReference { name := "body" }
    refine ⟨_, f, ⟨t₀.size⟩, ⟨t₀.size + 1⟩, ⟨t₀.size + 2⟩, ?_, hf⟩
    simp only [stage_run, hlayout, htree, henvelope, hmodel, hbody, Tree.size_add,
      Tree.size_append]

end Generator

end SchemaForms
