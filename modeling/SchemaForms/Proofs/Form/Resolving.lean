import SchemaForms.Proofs.Form.Distinct
import SchemaForms.Proofs.Form.Presentation

/-!
References resolve.  Whatever a node of a form refers to is there, and what has been copied refers
to the copies where the source refers to itself.
-/

namespace SchemaForms

open Forest (tree leaf)

/-- Every reference of a node leads to a node. -/
def Tree.Closed (t : Tree) : Prop :=
  ∀ n ∈ t.walk, ∀ ref ∈ (t.kind n).references, ∃ m ∈ t.walk, (t.kind m).target? = some ref

namespace Forest

/-- What a reference in the source of a copy becomes: where it leads to a node of the source it
leads to the copy of that node, and otherwise it stays. -/
def Follows (source copy : Forest NodeKind) (ref ref' : Reference) : Prop :=
  (∀ p ∈ source.pairs copy, p.1.target? = some ref → p.2.target? = some ref') ∧
    ((∀ p ∈ source.pairs copy, p.1.target? ≠ some ref) → ref' = ref)

/-- A copy of the source whose references, node by node, follow what has been copied. -/
structure FollowsAlong (source copy : Forest NodeKind) : Prop where
  copies : ∃ ids, copy = (source.copy ids).1
  references : ∀ p ∈ source.pairs copy,
    List.Forall₂ (Follows source copy) p.1.references p.2.references

/-- The parts of a part are parts of the whole. -/
theorem mem_parts_trans {α : Type} {f : Forest α} {p q : α × Forest α} (hp : p ∈ f.parts)
    (hq : q ∈ p.2.parts) : q ∈ f.parts := by
  induction f with
  | nil => cases hp
  | cons a below after ihb iha =>
    simp only [parts, List.mem_cons, List.mem_append] at hp ⊢
    rcases hp with rfl | hp | hp
    · exact .inr (.inl hq)
    · exact .inr (.inl (ihb hp))
    · exact .inr (.inr (iha hp))

theorem parts_subset_of_mem {α : Type} {f below : Forest α} {a : α} (h : (a, below) ∈ f.parts) :
    (tree a below).parts ⊆ f.parts := by
  intro q hq
  rw [parts_tree] at hq
  rcases List.mem_cons.1 hq with rfl | hq
  · exact h
  · exact mem_parts_trans h hq

theorem identifiers_sublist {f below : Forest NodeKind} {k : NodeKind}
    (h : (k, below) ∈ f.parts) : (tree k below).identifiers.Sublist f.identifiers := by
  induction f with
  | nil => cases h
  | cons a inner after ihb iha =>
    have hcons : (cons a inner after).identifiers =
        a.identifiers ++ (inner.identifiers ++ after.identifiers) := by
      simp [identifiers]
    simp only [parts, List.mem_cons, List.mem_append] at h
    rw [hcons]
    rcases h with h | h | h
    · cases h
      rw [identifiers_tree]
      exact (List.sublist_append_left ..).append_left _
    · exact ((ihb h).trans (List.sublist_append_left ..)).trans (List.sublist_append_right ..)
    · exact ((iha h).trans (List.sublist_append_right ..)).trans (List.sublist_append_right ..)

/-- Where no identifier is carried twice, no two controls have the same one. -/
theorem nodup_ids {f : Forest NodeKind} (hf : f.Titled) (hnodup : f.identifiers.Nodup) :
    (f.labels.map NodeKind.id?).Nodup := by
  unfold Titled at hf
  unfold identifiers at hnodup
  generalize f.labels = ks at hf hnodup
  induction ks with
  | nil => exact List.nodup_nil
  | cons k ks ih =>
    rw [List.flatMap_cons, List.nodup_append] at hnodup
    obtain ⟨-, hrest, hdisjoint⟩ := hnodup
    rw [List.map_cons, List.nodup_cons]
    refine ⟨fun hmem => ?_, ih (fun k' hk' => hf k' (List.mem_cons_of_mem _ hk')) hrest⟩
    obtain ⟨k', hk', hid⟩ := List.mem_map.1 hmem
    obtain ⟨c, rfl, -⟩ := hf k List.mem_cons_self
    obtain ⟨c', rfl, -⟩ := hf k' (List.mem_cons_of_mem _ hk')
    have hhead (c : Control) : c.id ∈ (NodeKind.control c).identifiers := List.mem_cons_self
    exact hdisjoint c.id (hhead c) c'.id (List.mem_flatMap.2 ⟨_, hk', hhead c'⟩)
      (Option.some.inj hid).symm

/-- Nodes with distinct identifiers have one copy each. -/
theorem pairs_unique {f f' : Forest NodeKind} (hnodup : (f.labels.map NodeKind.id?).Nodup)
    {p q : NodeKind × NodeKind} (hp : p ∈ f.pairs f') (hq : q ∈ f.pairs f')
    (hid : p.1.id? = q.1.id?) : p = q := by
  obtain ⟨i, hi, rfl⟩ := List.getElem_of_mem hp
  obtain ⟨j, hj, rfl⟩ := List.getElem_of_mem hq
  have hlt {n : Nat} (hn : n < (f.pairs f').length) : n < f.labels.length := by
    have := hn
    rw [pairs, List.length_zip] at this
    omega
  have hlabel {n : Nat} (hn : n < (f.pairs f').length) :
      (f.labels.map NodeKind.id?)[n]? = some (f.pairs f')[n].1.id? := by
    rw [List.getElem?_map, List.getElem?_eq_getElem (hlt hn), Option.map_some]
    simp only [pairs, List.getElem_zip]
  have hij : i = j := by
    apply (List.getElem?_inj (by simpa using hlt hi) hnodup).1
    rw [hlabel hi, hlabel hj, hid]
  subst hij
  rfl

theorem followsAlong_copy {f : Forest NodeKind} (hf : f.Titled) (hnodup : f.identifiers.Nodup)
    (hrefs : ∀ k ∈ f.labels, ∀ ref ∈ k.references,
      (∃ id, ref = .bind id) ∨ ∃ c : Control, c.Titled ∧ c.target? = some ref)
    (ids : Identifiers) : f.FollowsAlong (f.copy ids).1 := by
  obtain ⟨table, hpairs, htable⟩ := copy_spec hf ids
  refine ⟨⟨ids, rfl⟩, fun p hp => ?_⟩
  obtain ⟨c, ids', hc, rfl⟩ := hpairs p hp
  rw [NodeKind.references, NodeKind.references, Control.references_copied,
    List.forall₂_map_right_iff, List.forall₂_same]
  intro ref href
  rcases hrefs _ (List.of_mem_zip hp).1 ref href with ⟨id, rfl⟩ | ⟨c₀, hc₀, htarget⟩
  · refine ⟨fun q hq hq' => ?_, fun _ => rfl⟩
    obtain ⟨c', _, _, rfl⟩ := hpairs q hq
    have htarget : c'.target? = some (.bind id) := hq'
    unfold Control.target? at htarget
    split at htarget <;> cases htarget
  · rcases redirect_spec hpairs htable hc₀ htarget with ⟨hnot, hsame⟩ | ⟨q, hq, hq₁, hq₂⟩
    · exact ⟨fun q hq hq' => absurd hq' (hnot q hq), fun _ => hsame⟩
    · refine ⟨fun q' hq' htarget' => ?_, fun hnot => absurd hq₁ (hnot q hq)⟩
      obtain ⟨c₁, _, _, rfl⟩ := hpairs q hq
      obtain ⟨c₂, _, _, rfl⟩ := hpairs q' hq'
      have hid (c : Control) (h : c.target? = some ref) : c.id = ref.id := by
        rw [Control.target?_eq] at h
        exact (Reference.id_of_named h).symm
      have heq : c₂.id = c₁.id := (hid c₂ htarget').trans (hid c₁ hq₁).symm
      have hsame := pairs_unique (nodup_ids hf hnodup) hq' hq (congrArg some heq)
      rw [hsame]
      exact hq₂

end Forest

/-! The references of a form. -/

section Form

variable {g : Generator}

/-- The trees that have been copied while a form was made, each with its copy. -/
def Generator.copies (g : Generator) (r : Request) : List (Forest NodeKind × Forest NodeKind) :=
  match g.schema.findElement (QName.of g.schema.target r.root) with
  | none => []
  | some root =>
    let named := Synthesis.qualified (g.schema.element root).name Synthesis.initial
    (Sketch.filled g root named.1.1 named.1.2 named.2).1.copies

theorem Grove.mem_erase {f : Grove} {a : NodeId × NodeKind} (ha : a ∈ f.labels)
    (hmarkup : ¬ a.2.isMarkup) : a.2 ∈ (Grove.erase f).labels := by
  induction f with
  | nil => cases ha
  | cons c below after ihb iha =>
    simp only [Forest.labels_cons, List.mem_cons, List.mem_append] at ha
    rw [Grove.erase]
    rcases ha with rfl | ha | ha
    · rw [if_neg hmarkup]
      exact List.mem_cons_self
    · split
      · rw [Forest.labels_append]
        exact List.mem_append_left _ (ihb ha)
      · exact List.mem_cons_of_mem _ (List.mem_append_left _ (ihb ha))
    · split
      · rw [Forest.labels_append]
        exact List.mem_append_right _ (iha ha)
      · exact List.mem_cons_of_mem _ (List.mem_append_right _ (iha ha))

/-- The references of an arena are those of its nodes other than markup. -/
theorem Tree.Shows.closed {t : Tree} {f : Grove} (h : t.Shows f)
    (hclosed : ∀ k ∈ (Grove.erase f).labels, ∀ ref ∈ k.references,
      ∃ k' ∈ (Grove.erase f).labels, k'.target? = some ref) : t.Closed := by
  intro n hn ref href
  rw [h.walk] at hn
  obtain ⟨a, ha, rfl⟩ := List.mem_map.1 hn
  rw [kind_of_mem_labels h.links ha] at href
  have hmarkup : ¬ a.2.isMarkup := by
    intro hmarkup
    obtain ⟨x, k⟩ := a
    cases k with
    | control c => cases hmarkup
    | _ => cases href
  obtain ⟨k', hk', htarget⟩ := hclosed a.2 (Grove.mem_erase ha hmarkup) ref href
  obtain ⟨a', ha', rfl⟩ := Grove.mem_of_mem_erase hk'
  refine ⟨a'.1, ?_, ?_⟩
  · rw [h.walk]
    exact List.mem_map_of_mem ha'
  · rw [kind_of_mem_labels h.links ha']
    exact htarget

theorem linked_filled (root : ElementId) (nsPrefix : Option String) (rootName : String)
    {s : Synthesis} (hs : s.prefixes.Clean) :
    let made := (Sketch.filled g root nsPrefix rootName s).1
    Linked made.controls (made.knownIds []) made.kids made.copies :=
  (Sketch.grows_filled g root nsPrefix rootName s hs []).linked .nil linked_nil

/-- What is in a form. -/
theorem Drawing.mem_forest {d : Drawing} {r : Request} {root : Option Xml.Element} {k : NodeKind} :
    k ∈ (d.forest r root).labels ↔
      k = .model d.model r.schemaReference ∨ k = .instanceData d.data root ∨
      (∃ b ∈ (Kid.forest d.binds).labels, .bind b = k) ∨
      k = .submission d.submission r.submissionAction r.submissionMethod ∨
      k ∈ d.controls.labels ∨ k = .control d.submitControl := by
  simp [forest, tree, leaf]

theorem Drawing.closed_forest {d : Drawing} {kids : List Kid}
    {copies : List (Forest NodeKind × Forest NodeKind)}
    (h : Linked d.controls ((Kid.forest d.binds).labels.map (·.id)) kids copies) (r : Request)
    (root : Option Xml.Element) :
    ∀ k ∈ (d.forest r root).labels, ∀ ref ∈ k.references,
      ∃ k' ∈ (d.forest r root).labels, k'.target? = some ref := by
  intro k hk ref href
  rcases mem_forest.1 hk with rfl | rfl | ⟨b, -, rfl⟩ | rfl | hk | rfl
  · cases href
  · cases href
  · cases href
  · cases href
  · rcases h.closed k hk ref href with ⟨id, hid, rfl⟩ | ⟨k', hk', htarget⟩
    · obtain ⟨b, hb, rfl⟩ := List.mem_map.1 hid
      exact ⟨.bind b, mem_forest.2 (.inr (.inr (.inl ⟨b, hb, rfl⟩))), rfl⟩
    · exact ⟨k', mem_forest.2 (.inr (.inr (.inr (.inr (.inl hk'))))), htarget⟩
  · rw [List.mem_singleton.1 href]
    exact ⟨_, mem_forest.2 (.inr (.inr (.inr (.inl rfl)))), rfl⟩

theorem Drawing.parts_controls (d : Drawing) (r : Request) (root : Option Xml.Element) :
    d.controls.parts ⊆ (d.forest r root).parts := by
  intro q hq
  rw [forest, Forest.parts_append, Forest.parts_append]
  exact List.mem_append_right _ (List.mem_append_left _ hq)

namespace Generator

/-- No reference of a form dangles: the bind of every control, insertion and deletion, the case of
every toggle, the target of every dispatch, the repeat in every index expression and the submission
are there.  What has been copied is there too, as is the copy, and references within the source have
become references within the copy. -/
theorem references_resolve (s : Schema) (settings : Settings) {l : Layout} (hl : l.Standard)
    {time : String} {r : Request} {form : Form}
    (h : (ofSchema s settings (some l)).generate time r = .ok form) :
    form.tree.Closed ∧ ∀ p ∈ (ofSchema s settings (some l)).copies r,
      p.1.parts ⊆ form.tree.unmarked.parts ∧ p.2.parts ⊆ form.tree.unmarked.parts ∧
        p.1.FollowsAlong p.2 := by
  obtain ⟨root, f, hroot, hshows, -, hnodes, -⟩ := generate_shows hl rfl h
  let named := Synthesis.qualified (s.element root).name Synthesis.initial
  have hnamed := clean_named (s.element root).name
  have hlinked := linked_filled (g := ofSchema s settings (some l)) root named.1.1 named.1.2 hnamed
  have hids := nodup_drawn (g := ofSchema s settings (some l)) root named.1.1 named.1.2 hnamed r
    (some ((r.instanceRoot.map prepareRoot).getD form.skeleton))
  constructor
  · apply hshows.closed
    rw [hnodes]
    exact Drawing.closed_forest hlinked r _
  · intro p hp
    rw [hshows.unmarked_eq, hnodes]
    have hmade : p ∈ (Sketch.filled (ofSchema s settings (some l)) root named.1.1 named.1.2
        named.2).1.copies := by
      rw [copies, hroot] at hp
      exact hp
    obtain ⟨k, below, ids, hsource, hcopy, hpart, hcopied⟩ := hlinked.copies p hmade
    rw [hcopy, hsource] at hcopied
    rw [hcopy, hsource]
    have hwhole := Drawing.parts_controls (Sketch.form (ofSchema s settings (some l)) root named.1.1
      named.1.2 named.2).1 r (some ((r.instanceRoot.map prepareRoot).getD form.skeleton))
    refine ⟨List.Subset.trans (Forest.parts_subset_of_mem hpart) hwhole,
      List.Subset.trans hcopied hwhole, ?_⟩
    apply Forest.followsAlong_copy (hlinked.titled.part hpart)
    · exact hids.sublist (Forest.identifiers_sublist (hwhole hpart))
    · intro k' hk' ref href
      rcases hlinked.closed k' (Forest.mem_labels_of_part hpart hk') ref href with
        ⟨id, -, rfl⟩ | ⟨k₀, hk₀, htarget⟩
      · exact .inl ⟨id, rfl⟩
      · obtain ⟨c₀, rfl, hc₀⟩ := hlinked.titled k₀ hk₀
        exact .inr ⟨c₀, hc₀, htarget⟩

theorem substitutes_extended : Substitutes.ofSchema extended =
    ⟨⟨[(⟨Schema.builtinCount⟩, [⟨Schema.builtinCount + 1⟩])]⟩⟩ :=
  Substitutes.ofSchema_of_table (by decide +kernel) (by decide +kernel)

theorem references_resolve_extended :
    ∃ form, (ofSchema extended {} (some .plain)).generate "" { root := "e" } = .ok form ∧
      form.tree.Closed ∧ ∃ p ∈ (ofSchema extended {} (some .plain)).copies { root := "e" },
        p.1.parts ⊆ form.tree.unmarked.parts ∧ p.2.parts ⊆ form.tree.unmarked.parts ∧
          p.1.FollowsAlong p.2 := by
  obtain ⟨form, hform⟩ := generate_extended
  obtain ⟨hclosed, hcopies⟩ := references_resolve extended {} .plain hform
  have hlength : ((ofSchema extended {} (some .plain)).copies { root := "e" }).length = 1 := by
    rw [ofSchema, substitutes_extended]
    decide +kernel
  obtain ⟨p, hp⟩ := List.exists_mem_of_length_pos (Nat.lt_of_lt_of_eq Nat.one_pos hlength.symm)
  exact ⟨form, hform, hclosed, p, hp, hcopies p hp⟩

end Generator

end Form

end SchemaForms
