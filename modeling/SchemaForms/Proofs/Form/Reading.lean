import SchemaForms.Proofs.Form.Drawing
import SchemaForms.Proofs.Form.Sharing

/-!
Reading the tree of a form: what the arena gives for its nodes is what the drawn forest has there.
-/

namespace SchemaForms

open Grove (ids graft only both at? tops erase relabel bindTops)
open Forest (tree leaf)
open Xml (Element)

namespace Forest

variable {α β : Type}

/-- All nodes in document order, each with what is below it. -/
def parts : Forest α → List (α × Forest α)
  | nil => []
  | cons a b r => (a, b) :: (parts b ++ parts r)

@[simp] theorem parts_append (f g : Forest α) : (f ++ g).parts = f.parts ++ g.parts := by
  induction f with
  | nil => rfl
  | cons a b r _ ih => simp [parts, ih]

theorem mem_labels_of_mem_parts {f : Forest α} {p : α × Forest α} (h : p ∈ f.parts) :
    p.1 ∈ f.labels ∧ ∀ a ∈ p.2.labels, a ∈ f.labels := by
  induction f with
  | nil => cases h
  | cons a b r ihb ihr =>
    simp only [parts, List.mem_cons, List.mem_append, labels_cons] at h ⊢
    rcases h with rfl | h | h
    · exact ⟨.inl rfl, fun c hc => .inr (.inl hc)⟩
    · exact ⟨.inr (.inl (ihb h).1), fun c hc => .inr (.inl ((ihb h).2 c hc))⟩
    · exact ⟨.inr (.inr (ihr h).1), fun c hc => .inr (.inr ((ihr h).2 c hc))⟩

end Forest

namespace Grove

/-- Erasure keeps what is neither markup nor inside other nodes alone. -/
theorem filterMap_erase {β : Type} {p : NodeKind → Option β}
    (hp : ∀ k : NodeKind, k.isMarkup → p k = none) (f : Grove) :
    (erase f).labels.filterMap p = f.labels.filterMap fun a => p a.2 := by
  induction f with
  | nil => rfl
  | cons a b r ihb ihr =>
    rw [erase]
    split
    · next hm =>
      rw [Forest.labels_append, List.filterMap_append, ihb, ihr, Forest.labels_cons,
        List.filterMap_cons, hp _ hm, List.filterMap_append]
    · rw [Forest.labels_cons, Forest.labels_cons, List.filterMap_cons, List.filterMap_cons,
        List.filterMap_append, List.filterMap_append, ihb, ihr]

theorem not_isMarkup_of_mem_erase {f : Grove} {k : NodeKind} (h : k ∈ (erase f).labels) :
    ¬ k.isMarkup := by
  induction f with
  | nil => cases h
  | cons a b r ihb ihr =>
    rw [erase] at h
    split at h
    · rw [Forest.labels_append, List.mem_append] at h
      exact h.elim ihb ihr
    · next hm =>
      rw [Forest.labels_cons, List.mem_cons, List.mem_append] at h
      rcases h with rfl | h | h
      · exact hm
      · exact ihb h
      · exact ihr h

theorem label_of_at? {f b : Grove} {x : NodeId} {k : NodeKind} (h : at? x f = some (k, b)) :
    (x, k) ∈ f.labels :=
  mem_labels_of_at? h (by simp [tree])

/-- Where there is no markup, nothing is left out. -/
theorem erase_eq_map {f : Grove} (hf : ∀ a ∈ f.labels, ¬ a.2.isMarkup) : erase f = f.map (·.2) := by
  induction f with
  | nil => rfl
  | cons a b r ihb ihr =>
    simp only [Forest.labels_cons, List.mem_cons, List.mem_append] at hf
    rw [erase, if_neg (hf a (.inl rfl)), ihb fun c hc => hf c (.inr (.inl hc)),
      ihr fun c hc => hf c (.inr (.inr hc)), Forest.map_cons]

theorem roots_erase {f : Grove} (hf : ∀ a ∈ f.labels, ¬ a.2.isMarkup) :
    (erase f).roots = f.roots.map (·.2) := by
  rw [erase_eq_map hf, Forest.roots_map]

/-- A node other than markup is a part of the erasure. -/
theorem mem_parts_erase {f b : Grove} {x : NodeId} {k : NodeKind} (h : at? x f = some (k, b))
    (hk : ¬ k.isMarkup) : (k, erase b) ∈ (erase f).parts := by
  induction f with
  | nil => cases h
  | cons a below after ihb iha =>
    simp only [at?, Forest.find, decide_eq_true_eq] at h
    rw [erase]
    split at h
    · cases h
      rw [if_neg hk]
      exact List.mem_cons_self ..
    · rw [Option.map_or, Option.or_eq_some_iff] at h
      split
      · rw [Forest.parts_append, List.mem_append]
        exact h.imp ihb fun h => iha h.2
      · rw [Forest.parts, List.mem_cons, List.mem_append]
        exact .inr (h.imp ihb fun h => iha h.2)

/-- A part of the erasure of a grove with distinct nodes is found at a node. -/
theorem at?_of_mem_parts {f : Grove} {p : NodeKind × Forest NodeKind} (hf : (ids f).Nodup)
    (h : p ∈ (erase f).parts) : ∃ x b, at? x f = some (p.1, b) ∧ erase b = p.2 := by
  induction f with
  | nil => cases h
  | cons a below after ihb iha =>
    have hnodup := hf
    simp only [ids_cons, List.nodup_cons, List.mem_append, not_or, List.nodup_append] at hnodup
    obtain ⟨⟨hab, haa⟩, hb, ha, hdisjoint⟩ := hnodup
    have hcons (y : NodeId) : at? y (.cons a below after) =
        if a.1 = y then some (a.2, below) else (at? y below).or (at? y after) := by
      simp only [at?, Forest.find, decide_eq_true_eq]
      split <;> simp [Option.map_or]
    have hbelow (h : p ∈ (erase below).parts) : ∃ x b, at? x (.cons a below after) = some (p.1, b) ∧
        erase b = p.2 := by
      obtain ⟨x, b, hat, he⟩ := ihb hb h
      have hx := (mem_of_at? hat).1
      refine ⟨x, b, ?_, he⟩
      rw [hcons, if_neg fun hax : a.1 = x => hab (hax ▸ hx), hat, Option.some_or]
    have hafter (h : p ∈ (erase after).parts) : ∃ x b, at? x (.cons a below after) = some (p.1, b) ∧
        erase b = p.2 := by
      obtain ⟨x, b, hat, he⟩ := iha ha h
      have hx := (mem_of_at? hat).1
      have hnone : at? x below = none := by
        cases hxb : at? x below with
        | none => rfl
        | some y => exact absurd rfl (hdisjoint x (mem_of_at? hxb).1 x hx)
      refine ⟨x, b, ?_, he⟩
      rw [hcons, if_neg fun hax : a.1 = x => haa (hax ▸ hx), hnone, Option.none_or, hat]
    rw [erase] at h
    split at h
    · rw [Forest.parts_append, List.mem_append] at h
      exact h.elim hbelow hafter
    · rw [Forest.parts, List.mem_cons, List.mem_append] at h
      rcases h with rfl | h | h
      · exact ⟨a.1, below, by rw [hcons, if_pos rfl], rfl⟩
      · exact hbelow h
      · exact hafter h

/-- No markup stands between binds or around them, the model apart. -/
def Tidy (f : Grove) : Prop :=
  ∀ x k b, at? x f = some (k, b) → bindTops b = [] ∧
      (k.isMarkup ∨ ∀ a ∈ b.labels, a.2.bind? = none) ∨
    ¬ k.isMarkup ∧ ∀ a ∈ b.labels, ¬ a.2.isMarkup

end Grove

namespace Tree

theorem filterMap_tops {t : Tree} {parent : Option NodeId} {f : Grove} (h : t.Links parent f) :
    (tops f).filterMap t.bind? = bindTops f := by
  induction f with
  | nil => rfl
  | cons a b r _ ih =>
    obtain ⟨ha, -, hr⟩ := h
    have hkind : t.bind? a.1 = a.2.bind? := by rw [Tree.bind?, Tree.kind, ha]
    have hrest := ih hr
    simp only [Grove.tops_cons, bindTops, Forest.roots, List.filterMap_cons, hkind] at hrest ⊢
    rw [hrest]

theorem filterMap_ids {t : Tree} {parent : Option NodeId} {f : Grove} (h : t.Links parent f) :
    (ids f).filterMap t.control? = f.labels.filterMap fun a => a.2.control? := by
  rw [ids, List.filterMap_map]
  refine List.filterMap_congr fun a ha => ?_
  rw [Function.comp_apply, Tree.control?, kind_of_mem_labels h ha]

theorem Shows.descendants {t : Tree} {f b : Grove} {x : NodeId} {k : NodeKind} (h : t.Shows f)
    (hat : at? x f = some (k, b)) : t.descendants x = ids b := by
  obtain ⟨-, hchildren, hlinks⟩ := links_at? h.links hat
  have hlength : (ids b).length ≤ t.size :=
    Nat.le_trans (Nat.le_trans (Nat.le_succ _) (Grove.sublist_of_at? hat).length_le) h.length_le
  have hbelow := below_eq hlinks t.size hlength
  have hpos : 0 < t.size := Nat.zero_lt_of_lt (h.lt x (Grove.mem_of_at? hat).1)
  obtain ⟨n, hn⟩ := Nat.exists_eq_succ_of_ne_zero (Nat.ne_of_gt hpos)
  rw [hn] at hbelow
  rw [Tree.descendants, hn, Tree.below, hchildren]
  exact hbelow

/-- What the arena gives for what is below a node. -/
structure Over (t : Tree) (x : NodeId) (b : Forest NodeKind) : Prop where
  binds : (t.children x).filterMap t.bind? = b.roots.filterMap NodeKind.bind?
  controls : (t.descendants x).filterMap t.control? = b.labels.filterMap NodeKind.control?

/-- The arena gives the nodes of a forest, and markup without binds around them. -/
structure Reads (t : Tree) (f : Forest NodeKind) : Prop where
  part : ∀ x ∈ t.walk, (t.children x).filterMap t.bind? = [] ∧ (t.kind x).isMarkup ∨
    ∃ b, (t.kind x, b) ∈ f.parts ∧ t.Over x b
  node : ∀ p ∈ f.parts, ∃ x ∈ t.walk, t.kind x = p.1 ∧ t.Over x p.2
  controls : t.walk.filterMap t.control? = f.labels.filterMap NodeKind.control?

/-- The arena reads what it shows. -/
theorem Shows.reads {t : Tree} {f : Grove} (h : t.Shows f) (htidy : f.Tidy) :
    t.Reads (erase f) := by
  have hcontrol : ∀ k : NodeKind, k.isMarkup → k.control? = none := by
    intro k hk
    cases k with
    | markup m => rfl
    | _ => cases hk
  have hover {x : NodeId} {k : NodeKind} {b : Grove} (hat : at? x f = some (k, b))
      (hk : ¬ k.isMarkup) : t.Over x (erase b) := by
    obtain ⟨-, hchildren, hlinks⟩ := links_at? h.links hat
    constructor
    · rw [hchildren, filterMap_tops hlinks]
      rcases htidy x k b hat with ⟨hnil, hnone⟩ | ⟨-, hbare⟩
      · rw [hnil, eq_comm, List.filterMap_eq_nil_iff]
        intro k' hk'
        obtain ⟨a, ha, rfl⟩ := Grove.mem_of_mem_erase (Forest.mem_labels_of_mem_roots hk')
        exact hnone.resolve_left hk a ha
      · rw [Grove.roots_erase hbare, List.filterMap_map]
        rfl
    · rw [h.descendants hat, filterMap_ids hlinks, Grove.filterMap_erase hcontrol]
  refine ⟨fun x hx => ?_, fun p hp => ?_, ?_⟩
  · rw [h.walk] at hx
    obtain ⟨⟨k, b⟩, hat⟩ := Grove.at?_eq_some_of_mem hx
    obtain ⟨hkind, hchildren, hlinks⟩ := links_at? h.links hat
    rw [hkind]
    by_cases hk : k.isMarkup
    · refine .inl ⟨?_, hk⟩
      rw [hchildren, filterMap_tops hlinks]
      exact ((htidy x k b hat).resolve_right fun hn => hn.1 hk).1
    · exact .inr ⟨erase b, Grove.mem_parts_erase hat hk, hover hat hk⟩
  · obtain ⟨x, b, hat, he⟩ := Grove.at?_of_mem_parts h.nodup hp
    have hk := Grove.not_isMarkup_of_mem_erase (Forest.mem_labels_of_mem_parts hp).1
    refine ⟨x, ?_, (links_at? h.links hat).1, he ▸ hover hat hk⟩
    rw [h.walk]
    exact (Grove.mem_of_at? hat).1
  · rw [h.walk, filterMap_ids h.links, Grove.filterMap_erase hcontrol]

end Tree

/-- Gives the instance its content. -/
def putInstance (root : Element) : NodeKind → NodeKind
  | .instanceData id _ => .instanceData id (some root)
  | kind => kind

theorem bind?_putInstance (root : Element) (k : NodeKind) :
    (putInstance root k).bind? = k.bind? := by
  cases k <;> rfl

theorem isMarkup_putInstance (root : Element) (k : NodeKind) :
    (putInstance root k).isMarkup = k.isMarkup := by
  cases k <;> rfl

section Finished

variable {t : Tree} {f b c : Grove} {model form data : NodeId} {id dataId : String}
  {reference : Option String}

theorem Stage.data_mem (h : Stage t f model form data id reference dataId) :
    at? data (tree (model, .model id reference) (leaf (data, .instanceData dataId none))) =
      some (.instanceData dataId none, .nil) ∧ data ≠ model := by
  have hnodup := h.shows.nodup.sublist (Grove.sublist_of_at? h.at_model)
  rw [Grove.ids_leaf, List.nodup_cons, List.mem_singleton] at hnodup
  refine ⟨?_, Ne.symm hnodup.1⟩
  simp [at?, tree, leaf, Forest.find, hnodup.1]

theorem Stage.data_ne (h : Stage t f model form data id reference dataId) : data ≠ model :=
  h.data_mem.2

theorem Stage.at_data (h : Stage t f model form data id reference dataId) :
    at? data f = some (.instanceData dataId none, .nil) := by
  rw [Grove.at?_of_at? h.shows.nodup h.at_model (by simp), h.data_mem.1]

/-- Where binds are, there is no markup, and where controls are, there are no binds. -/
theorem Finished.tidy (h : Finished t f b c model form data id dataId reference) :
    (graft (both model b form c) f).Tidy := by
  intro x k below hat
  obtain ⟨t₀, hstage⟩ := h.stage
  have hmodel : model ∈ ids f := (Grove.mem_of_at? hstage.at_model).1
  obtain ⟨-, hdisjoint⟩ := Grove.nodup_grafts h.shows.nodup
  have hapart := hdisjoint model hmodel form hstage.at_form hstage.ne
  rw [Grove.both_self, both, if_neg hstage.ne.symm, if_pos rfl] at hapart
  rcases (Grove.mem_ids_graft _ _).1 (Grove.mem_of_at? hat).1 with hx | ⟨y, hy, hx⟩
  · obtain ⟨⟨k₀, b₀⟩, hat₀⟩ := Grove.at?_eq_some_of_mem hx
    have hgrown := Grove.at?_graft (h := both model b form c) hat₀ fun y _ hm => by
      unfold both at hm
      split at hm
      · exact h.newBinds x hm hx
      · split at hm
        · exact h.newControls x hm hx
        · cases hm
    cases hat.symm.trans hgrown
    have hdata := hstage.at_data
    have hgraft : graft (both model b form c) (leaf (data, .instanceData dataId none)) =
        leaf (data, .instanceData dataId none) :=
      Grove.graft_eq_self fun y hy => by
        rw [Grove.ids_leaf, List.mem_singleton] at hy
        rw [hy, Grove.both_of_ne hstage.data_ne hstage.apart.symm]
    by_cases hxm : x = model
    · subst hxm
      cases hat₀.symm.trans hstage.at_model
      refine .inr ⟨by simp [NodeKind.isMarkup], fun a ha => ?_⟩
      rw [hgraft, Grove.both_self, Forest.labels_append, List.mem_append] at ha
      rcases ha with ha | ha
      · rw [List.mem_singleton.1 ha]
        simp [NodeKind.isMarkup]
      · exact h.bare a ha
    · have hb₀ : ∀ a ∈ b₀.labels, a.2.bind? = none := fun a ha =>
        (hstage.no_binds a (Grove.labels_of_at? hat₀ a ha)).1
      have hboth : ∀ a ∈ (both model b form c x).labels, a.2.bind? = none := by
        intro a ha
        unfold both at ha
        rw [if_neg hxm] at ha
        split at ha
        · exact h.unbound a ha
        · cases ha
      refine .inl ⟨?_, ?_⟩
      · rw [Grove.bindTops_append, Grove.bindTops_graft, Grove.bindTops_eq_nil hb₀,
          Grove.bindTops_eq_nil hboth]
        rfl
      · rcases hstage.others _ (Grove.label_of_at? hat₀) with hk | he | he
        · exact .inl hk
        · cases he
          exact absurd rfl hxm
        · cases he
          cases hat₀.symm.trans hdata
          rw [Grove.graft_nil, Grove.both_of_ne hstage.data_ne hstage.apart.symm]
          exact .inr fun a ha => by cases ha
  · unfold both at hx
    split at hx
    · next hym =>
      obtain ⟨⟨k', below'⟩, hatb⟩ := Grove.at?_eq_some_of_mem hx
      have hnew := Grove.at?_graft_new (h := both model b form c) (y := model)
        (by rw [Grove.both_self]; exact hatb) hmodel (h.newBinds x hx) fun z _ hz => by
          unfold both
          rw [if_neg hz]
          split
          · exact fun hc => hapart hx hc
          · exact List.not_mem_nil
      cases hat.symm.trans hnew
      exact .inr ⟨h.bare _ (Grove.label_of_at? hatb), fun a ha =>
        h.bare a (Grove.labels_of_at? hatb a ha)⟩
    · split at hx
      · obtain ⟨⟨k', below'⟩, hatc⟩ := Grove.at?_eq_some_of_mem hx
        have hnew := Grove.at?_graft_new (h := both model b form c) (y := form)
          (by rw [both, if_neg hstage.ne.symm, if_pos rfl]; exact hatc) hstage.at_form
          (h.newControls x hx) fun z _ hz => by
            unfold both
            split
            · exact fun hb => hapart hb hx
            · exact List.not_mem_nil
        cases hat.symm.trans hnew
        have hnone := fun a ha => h.unbound a (Grove.labels_of_at? hatc a ha)
        exact .inl ⟨Grove.bindTops_eq_nil hnone, .inr hnone⟩
      · cases hx

/-- The label of the instance. -/
theorem Finished.label_data (h : Finished t f b c model form data id dataId reference)
    {a : NodeId × NodeKind} (ha : a ∈ (graft (both model b form c) f).labels)
    (hdata : a.1 = data) : a.2 = .instanceData dataId none := by
  obtain ⟨t₀, hstage⟩ := h.stage
  have hmem : data ∈ ids f := (Grove.mem_of_at? hstage.at_data).1
  rcases Grove.mem_labels_graft ha with ha | ⟨y, ha⟩
  · rw [← Tree.kind_of_mem_labels hstage.shows.links ha, hdata]
    exact (Tree.links_at? hstage.shows.links hstage.at_data).1
  · have hx : a.1 ∈ ids (both model b form c y) := List.mem_map_of_mem ha
    rw [hdata] at hx
    unfold both at hx
    split at hx
    · exact absurd hmem (h.newBinds data hx)
    · split at hx
      · exact absurd hmem (h.newControls data hx)
      · cases hx

/-- The grove of a form whose instance has its content. -/
def filled (data : NodeId) (root : Element) (f : Grove) : Grove :=
  relabel (fun y k => if y = data then putInstance root k else k) f

theorem Finished.shows_filled (h : Finished t f b c model form data id dataId reference)
    (root : Element) : (t.modifyKind data (putInstance root)).Shows
      (filled data root (graft (both model b form c) f)) := by
  obtain ⟨t₀, hstage⟩ := h.stage
  have hmem : data ∈ ids f := (Grove.mem_of_at? hstage.at_data).1
  have hlt := h.shows.lt data ((Grove.mem_ids_graft _ _).2 (.inl hmem))
  have hholds := h.shows.toHolds.modifyKind hlt (putInstance root)
  obtain ⟨a, below, he, hroot⟩ := h.shows.root
  refine ⟨hholds, ?_⟩
  rw [he]
  exact ⟨_, _, rfl, hroot⟩

theorem Finished.erase_filled (h : Finished t f b c model form data id dataId reference)
    (root : Element) : erase (filled data root (graft (both model b form c) f)) =
      tree (.model id reference) (leaf (.instanceData dataId (some root)) ++ erase b) ++
        erase c := by
  obtain ⟨t₀, hstage⟩ := h.stage
  have hmem : data ∈ ids f := (Grove.mem_of_at? hstage.at_data).1
  rw [← hstage.erased b c (some root) (fun hm => h.newBinds data hm hmem)
    (fun hm => h.newControls data hm hmem), filled, relabel, relabel]
  congr 1
  refine Forest.map_congr fun a ha => ?_
  split
  · next hdata =>
    rw [h.label_data ha hdata]
    rfl
  · rfl

theorem Finished.tidy_filled (h : Finished t f b c model form data id dataId reference)
    (root : Element) : (filled data root (graft (both model b form c) f)).Tidy := by
  intro x k below hat
  rw [filled, Grove.at?_relabel, Option.map_eq_some_iff] at hat
  obtain ⟨⟨k₀, below₀⟩, hat₀, he⟩ := hat
  cases he
  have hbind (y : NodeId) (k : NodeKind) :
      (if y = data then putInstance root k else k).bind? = k.bind? := by
    split
    · exact bind?_putInstance root k
    · rfl
  have hmarkup (y : NodeId) (k : NodeKind) :
      (if y = data then putInstance root k else k).isMarkup = k.isMarkup := by
    split
    · exact isMarkup_putInstance root k
    · rfl
  have hlabels (a : NodeId × NodeKind) (ha : a ∈ (relabel (fun y k =>
      if y = data then putInstance root k else k) below₀).labels) :
      ∃ a₀ ∈ below₀.labels, a₀.2.bind? = a.2.bind? ∧ a₀.2.isMarkup = a.2.isMarkup := by
    rw [relabel, Forest.labels_map, List.mem_map] at ha
    obtain ⟨a₀, ha₀, rfl⟩ := ha
    exact ⟨a₀, ha₀, (hbind a₀.1 a₀.2).symm, (hmarkup a₀.1 a₀.2).symm⟩
  have htops : bindTops (relabel (fun y k => if y = data then putInstance root k else k) below₀) =
      bindTops below₀ := by
    rw [bindTops, bindTops, relabel, Forest.roots_map, List.filterMap_map]
    exact List.filterMap_congr fun a _ => hbind a.1 a.2
  rw [htops, hmarkup]
  rcases h.tidy x k₀ below₀ hat₀ with ⟨hnil, hnone⟩ | ⟨hk, hbare⟩
  · refine .inl ⟨hnil, hnone.imp_right fun hnone a ha => ?_⟩
    obtain ⟨a₀, ha₀, hb, -⟩ := hlabels a ha
    rw [← hb, hnone a₀ ha₀]
  · refine .inr ⟨hk, fun a ha => ?_⟩
    obtain ⟨a₀, ha₀, -, hm⟩ := hlabels a ha
    rw [← hm]
    exact hbare a₀ ha₀

end Finished

namespace Generator

variable {g : Generator}

/-- The tree of a form that has been generated shows the nodes of its sketch. -/
theorem generate_shows (hl : g.layout.Standard)
    (hsubstitutes : g.substitutes = Substitutes.ofSchema g.schema) {time : String} {r : Request}
    {form : Form} (h : g.generate time r = .ok form) :
    ∃ root f, g.schema.findElement (QName.of g.schema.target r.root) = some root ∧
      form.tree.Shows f ∧ f.Tidy ∧
      let named := Synthesis.qualified (g.schema.element root).name Synthesis.initial
      let drawn := Sketch.form g root named.1.1 named.1.2 named.2
      erase f = drawn.1.forest r (some ((r.instanceRoot.map prepareRoot).getD form.skeleton)) ∧
        form.namespaces = drawn.2.prefixes.declarations ∧
        form.skeleton = form.namespaces.foldl (fun e (p, ns) => e.declare p ns)
          drawn.1.skeleton ∧
        form.anomalies = drawn.2.anomalies := by
  unfold generate at h
  cases hroot : g.schema.findElement (QName.of g.schema.target r.root) with
  | none =>
    rw [hroot] at h
    cases h
  | some root =>
    rw [hroot] at h
    have hquiet := Quiet.qualified (g.schema.element root).name
    have htree := hquiet.tree_eq Synthesis.initial
    have hreused := hquiet.reused_eq Synthesis.initial
    dsimp only at h
    generalize hnamed : Synthesis.qualified (g.schema.element root).name Synthesis.initial = named
      at h htree hreused
    obtain ⟨⟨nsPrefix, rootName⟩, s⟩ := named
    dsimp only at h
    split at h
    · cases h
    · obtain ⟨hskeleton, hprefixes, hanomalies, t, f, b, c, model, modelForm, hfinished, ht, hb,
        hc⟩ := build_finishes hl hsubstitutes r root nsPrefix rootName htree hreused
      generalize g.build r root nsPrefix rootName s = built
        at h hskeleton hprefixes hanomalies hfinished ht
      obtain ⟨⟨skeleton, data⟩, s'⟩ := built
      dsimp only at h hskeleton hprefixes hanomalies hfinished ht
      cases h
      subst ht
      have hshows := hfinished.shows_filled ((r.instanceRoot.map prepareRoot).getD
        (s'.prefixes.declarations.foldl (fun e (p, ns) => e.declare p ns) skeleton))
      refine ⟨root, _, rfl, hshows, hfinished.tidy_filled _, ?_⟩
      rw [hnamed]
      refine ⟨?_, by rw [hprefixes], by rw [hskeleton], hanomalies⟩
      rw [hfinished.erase_filled, hb, hc, ← Forest.append_assoc]
      rfl

end Generator

end SchemaForms
