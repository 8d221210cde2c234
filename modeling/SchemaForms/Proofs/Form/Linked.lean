import SchemaForms.Proofs.Form.Grown
import SchemaForms.Proofs.Form.Reading
import SchemaForms.Proofs.Form.References

/-!
What the steps of a sketch keep: every reference leads somewhere, and what is copied stays part of
the form, as does the copy.
-/

namespace SchemaForms

open Forest (tree leaf)
open Identifiers (identifier)

namespace Forest

variable {α : Type}

theorem mem_labels_iff {f : Forest α} {a : α} : a ∈ f.labels ↔ ∃ b, (a, b) ∈ f.parts := by
  constructor
  · intro h
    induction f with
    | nil => cases h
    | cons c below after ihb iha =>
      simp only [labels_cons, List.mem_cons, List.mem_append] at h
      simp only [parts, List.mem_cons, List.mem_append]
      rcases h with rfl | h | h
      · exact ⟨below, .inl rfl⟩
      · obtain ⟨b, hb⟩ := ihb h
        exact ⟨b, .inr (.inl hb)⟩
      · obtain ⟨b, hb⟩ := iha h
        exact ⟨b, .inr (.inr hb)⟩
  · rintro ⟨b, hb⟩
    exact (mem_labels_of_mem_parts hb).1

theorem mem_parts_of_find {p : α → Bool} {f : Forest α} {x : α × Forest α} (h : f.find p = some x) :
    x ∈ f.parts := by
  induction f with
  | nil => cases h
  | cons a below after ihb iha =>
    simp only [find] at h
    simp only [parts, List.mem_cons, List.mem_append]
    split at h
    · exact .inl (Option.some.inj h).symm
    · rcases Option.or_eq_some_iff.1 h with h | ⟨-, h⟩
      · exact .inr (.inl (ihb h))
      · exact .inr (.inr (iha h))

theorem mem_labels_of_part {f : Forest α} {a b : α} {below : Forest α} (h : (a, below) ∈ f.parts)
    (hb : b ∈ (tree a below).labels) : b ∈ f.labels := by
  simp only [tree, labels_cons, labels_nil, List.append_nil, List.mem_cons] at hb
  rcases hb with rfl | hb
  · exact (mem_labels_of_mem_parts h).1
  · exact (mem_labels_of_mem_parts h).2 b hb

theorem Titled.part {f below : Forest NodeKind} {k : NodeKind} (h : f.Titled)
    (hpart : (k, below) ∈ f.parts) : (tree k below).Titled :=
  fun k' hk' => h k' (mem_labels_of_part hpart hk')

@[simp] theorem parts_tree (a : α) (f : Forest α) : (tree a f).parts = (a, f) :: f.parts := by
  simp [tree, parts]

@[simp] theorem parts_leaves (as : List α) : (leaves as).parts = as.map fun a => (a, nil) := by
  induction as with
  | nil => rfl
  | cons a as ih => simp [leaves, parts, ih]

end Forest

/-- A reference leads to a bind with one of the identifiers or to a node of the forest. -/
def Within (ids : List String) (f : Forest NodeKind) (ref : Reference) : Prop :=
  (∃ id ∈ ids, ref = .bind id) ∨ ∃ k ∈ f.labels, k.target? = some ref

/-- A tree of the forest with a copy that is in the forest too. -/
def IsCopied (f : Forest NodeKind) (p : Forest NodeKind × Forest NodeKind) : Prop :=
  ∃ k below ids, p.1 = tree k below ∧ p.2 = (p.1.copy ids).1 ∧ (k, below) ∈ f.parts ∧
    p.2.parts ⊆ f.parts

/-- All controls there are, with the identifiers of the binds there are, the sources of copies that
some kids have, and the copies made so far. -/
structure Linked (f : Forest NodeKind) (ids : List String) (kids : List Kid)
    (copies : List (Forest NodeKind × Forest NodeKind)) : Prop where
  titled : f.Titled
  closed : ∀ k ∈ f.labels, ∀ ref ∈ k.references, Within ids f ref
  sources : ∀ kid ∈ kids, ∀ p ∈ kid.source, p ∈ f.parts
  copies : ∀ p ∈ copies, IsCopied f p

section Linked

variable {f f' : Forest NodeKind} {ids ids' : List String} {kids kids' : List Kid}
  {copies : List (Forest NodeKind × Forest NodeKind)}

theorem Within.mono {ref : Reference} (h : Within ids f ref) (hids : ids ⊆ ids')
    (hparts : f.parts ⊆ f'.parts) : Within ids' f' ref := by
  rcases h with ⟨id, hid, rfl⟩ | ⟨k, hk, href⟩
  · exact .inl ⟨id, hids hid, rfl⟩
  · obtain ⟨b, hb⟩ := Forest.mem_labels_iff.1 hk
    exact .inr ⟨k, Forest.mem_labels_iff.2 ⟨b, hparts hb⟩, href⟩

theorem IsCopied.mono {p : Forest NodeKind × Forest NodeKind} (h : IsCopied f p)
    (hparts : f.parts ⊆ f'.parts) : IsCopied f' p := by
  obtain ⟨k, below, given, hsource, hcopy, hpart, hcopied⟩ := h
  exact ⟨k, below, given, hsource, hcopy, hparts hpart, List.Subset.trans hcopied hparts⟩

/-- New controls may be put into a form when their references lead somewhere in it. -/
theorem Linked.extend (h : Linked f ids kids copies) (hids : ids ⊆ ids')
    (hparts : f.parts ⊆ f'.parts)
    (hnew : ∀ k ∈ f'.labels, k ∈ f.labels ∨ (∃ c, k = .control c ∧ c.Titled) ∧
      ∀ ref ∈ k.references, Within ids' f' ref)
    (hsources : ∀ kid ∈ kids', ∀ p ∈ kid.source, p ∈ f'.parts) :
    Linked f' ids' kids' copies where
  titled k hk := (hnew k hk).elim (h.titled k) (·.1)
  closed k hk ref href := by
    rcases hnew k hk with hold | ⟨-, hnew⟩
    · exact (h.closed k hold ref href).mono hids hparts
    · exact hnew ref href
  sources := hsources
  copies p hp := (h.copies p hp).mono hparts

theorem Linked.sources_mono (h : Linked f ids kids copies) (hparts : f.parts ⊆ f'.parts) :
    ∀ kid ∈ kids, ∀ p ∈ kid.source, p ∈ f'.parts :=
  fun kid hkid p hp => hparts (h.sources kid hkid p hp)

end Linked

/-- The identifiers of all binds that are known where a draft is made. -/
def Draft.knownIds (K : List Bind) (d : Draft) : List String := (d.known K).map (·.id)

/-- The binds of kids with the same cores have the same cores, all the way down. -/
theorem cores_forest {kids kids' : List Kid} (h : kids.map Kid.core = kids'.map Kid.core) :
    (Kid.forest kids).labels.map Bind.core = (Kid.forest kids').labels.map Bind.core := by
  have hforest (kids : List Kid) : (Kid.forest kids).labels.map Bind.core =
      (kids.map Kid.core).flatMap fun c => c.1 :: c.2.1.labels.map Bind.core := by
    induction kids with
    | nil => rfl
    | cons kid kids ih => simp [Kid.forest, Kid.core, ih]
  rw [hforest, hforest, h]

theorem ids_forest_of_core {kids kids' : List Kid} (h : kids.map Kid.core = kids'.map Kid.core) :
    (Kid.forest kids).labels.map (·.id) = (Kid.forest kids').labels.map (·.id) := by
  have hids := congrArg (List.map (·.1)) (cores_forest h)
  rwa [List.map_map, List.map_map] at hids

theorem share_core (nodeset : String) (kids : List Kid) :
    (Sketch.share nodeset kids).map Kid.core = kids.map Kid.core := by
  induction kids with
  | nil => rfl
  | cons kid kids ih =>
    rw [Sketch.share]
    split
    · rfl
    · rw [List.map_cons, List.map_cons, ih]

theorem forest_settle (controls : Forest NodeKind) (kids : List Kid) :
    Kid.forest (kids.map (Sketch.settle controls)) = Kid.forest kids := by
  induction kids with
  | nil => rfl
  | cons kid kids ih =>
    have hkid : (Sketch.settle controls kid).bind = kid.bind ∧
        (Sketch.settle controls kid).below = kid.below := by
      unfold Sketch.settle
      split <;> exact ⟨rfl, rfl⟩
    rw [List.map_cons, Kid.forest, Kid.forest, ih, hkid.1, hkid.2]

section Known

variable {g : Generator} {K : List Bind} {d d' : Draft} {s s' : Synthesis} {P P' : List String}

theorem known_core_of_core {kids : List Kid} (h : kids.map Kid.core = d.kids.map Kid.core) :
    (Draft.known K { d with kids := kids }).map Bind.core = (d.known K).map Bind.core := by
  simp only [Draft.known, List.map_append]
  rw [cores_forest h]

theorem knownIds_of_core {kids : List Kid} (h : kids.map Kid.core = d.kids.map Kid.core) :
    Draft.knownIds K { d with kids := kids } = d.knownIds K := by
  simp only [Draft.knownIds, Draft.known, List.map_append]
  rw [ids_forest_of_core h]

/-- Binds that are known stay known, whatever becomes of their relevance. -/
theorem Grows.cores_subset (h : Grows g K d s P d' s' P') :
    (d.known K).map Bind.core ⊆ (d'.known K).map Bind.core := by
  induction h with
  | mint => exact List.Subset.refl _
  | perm => exact List.Subset.refl _
  | trans _ _ ih ih' => exact List.Subset.trans ih ih'
  | field => exact List.Subset.refl _
  | box _ _ _ _ _ ih => exact ih
  | repeated _ _ _ ih => exact ih
  | kid =>
    simp only [Draft.known, Kid.forest_append, Forest.labels_append, List.map_append,
      ← List.append_assoc]
    exact List.subset_append_left ..
  | @slot K d s P d' s' P' _ ih =>
    have hforest := forest_settle d'.controls d'.kids
    simp only [Draft.known] at ih ⊢
    rw [hforest]
    exact ih
  | @copy K d _ _ _ _ _ nodeset =>
    have hcore := known_core_of_core (K := K) (d := d) (share_core nodeset d.kids)
    exact fun core hc => hcore.symm ▸ hc
  | switch _ _ _ _ _ _ _ _ _ _ _ ih => exact ih
  | guard h => exact fun core hc => (known_core_of_core h).symm ▸ hc

theorem Grows.knownIds_subset (h : Grows g K d s P d' s' P') : d.knownIds K ⊆ d'.knownIds K := by
  have hids := List.map_subset (·.1) h.cores_subset
  rwa [List.map_map, List.map_map] at hids

end Known

/-- Controls are only added behind those there are. -/
theorem Grows.controls_eq {g : Generator} {K : List Bind} {d d' : Draft} {s s' : Synthesis}
    {P P' : List String} (h : Grows g K d s P d' s' P') :
    ∃ added, d'.controls = d.controls ++ added := by
  induction h with
  | mint => exact ⟨.nil, (Forest.append_nil _).symm⟩
  | perm => exact ⟨.nil, (Forest.append_nil _).symm⟩
  | trans _ _ ih ih' =>
    obtain ⟨added, h⟩ := ih
    obtain ⟨added', h'⟩ := ih'
    exact ⟨added ++ added', by rw [h', h, Forest.append_assoc]⟩
  | field => exact ⟨_, rfl⟩
  | box => exact ⟨_, rfl⟩
  | repeated => exact ⟨_, rfl⟩
  | kid _ _ _ _ _ ih => exact ih
  | slot => exact ⟨_, rfl⟩
  | copy => exact ⟨_, rfl⟩
  | switch => exact ⟨_, rfl⟩
  | guard => exact ⟨.nil, (Forest.append_nil _).symm⟩

/-! Each step keeps the links. -/

theorem Control.IsField.references_eq {c : Control} (h : c.IsField) : c.kind.references = [] := by
  obtain ⟨id, kind⟩ := c
  have hchoices {cs : List Choice} (hcs : ∀ choice ∈ cs, choice.toggle = none) :
      cs.flatMap Choice.references = [] := by
    rw [List.flatMap_eq_nil_iff]
    intro choice hchoice
    rw [Choice.references, hcs choice hchoice]
    rfl
  cases kind with
  | selectOne cs => exact hchoices h
  | selectMany cs => exact hchoices h
  | input _ => rfl
  | textArea => rfl
  | upload => rfl
  | range _ _ => rfl
  | _ => cases h

theorem Control.IsBox.references_eq {c : Control} (h : c.IsBox) : c.kind.references = [] := by
  rcases h with h | ⟨selected, h⟩
  · rw [h]
    rfl
  · rw [h]
    rfl

section Steps

variable {f : Forest NodeKind} {ids : List String} {kids : List Kid}
  {copies : List (Forest NodeKind × Forest NodeKind)}

/-- The bind of a control is there. -/
theorem within_bind {c : Control} {f' : Forest NodeKind} (hkind : c.kind.references = [])
    (hbind : ∀ id ∈ c.bind, id ∈ ids) :
    ∀ ref ∈ (NodeKind.control c).references, Within ids f' ref := by
  intro ref href
  rw [NodeKind.references, Control.references, hkind, List.append_nil] at href
  obtain ⟨id, hid, rfl⟩ := List.mem_map.1 href
  exact .inl ⟨id, hbind id (Option.mem_toList.1 hid), rfl⟩

theorem Linked.field (h : Linked f ids kids copies) {c : Control} (hc : c.IsField)
    (hnamed : c.Named) (hbind : ∀ id ∈ c.bind, id ∈ ids) :
    Linked (f ++ leaf (NodeKind.control c)) ids kids copies := by
  have hparts : f.parts ⊆ (f ++ leaf (NodeKind.control c)).parts := by
    rw [Forest.parts_append]
    exact List.subset_append_left ..
  apply h.extend (List.Subset.refl _) hparts
  · intro k hk
    simp only [Forest.labels_append, leaf, tree, Forest.labels_cons, Forest.labels_nil,
      List.append_nil, List.mem_append, List.mem_singleton] at hk
    rcases hk with hk | rfl
    · exact .inl hk
    · exact .inr ⟨⟨c, rfl, .inl hnamed⟩, within_bind hc.references_eq hbind⟩
  · exact h.sources_mono hparts

theorem Linked.box {inner : Forest NodeKind} (h : Linked (f ++ inner) ids kids copies) {c : Control}
    (hc : c.IsBox) (hnamed : c.Named) (hbind : ∀ id ∈ c.bind, id ∈ ids) :
    Linked (f ++ tree (.control c) inner) ids kids copies := by
  have hparts : (f ++ inner).parts ⊆ (f ++ tree (NodeKind.control c) inner).parts := by
    intro q hq
    rw [Forest.parts_append, List.mem_append] at hq ⊢
    rw [Forest.parts_tree]
    exact hq.imp_right (List.mem_cons_of_mem _)
  apply h.extend (List.Subset.refl _) hparts
  · intro k hk
    simp only [Forest.labels_append, tree, Forest.labels_cons, Forest.labels_nil,
      List.append_nil, List.mem_append, List.mem_cons] at hk ⊢
    rcases hk with hk | rfl | hk
    · exact .inl (.inl hk)
    · exact .inr ⟨⟨c, rfl, .inl hnamed⟩, within_bind hc.references_eq hbind⟩
    · exact .inl (.inr hk)
  · exact h.sources_mono hparts

/-- What the triggers of a repeat refer to: its bind and the repeat itself. -/
theorem references_repeatTriggers {id before after delete : String} {bind : Option String}
    {c : Control} (hc : c ∈ repeatTriggers id bind before after delete) {ref : Reference}
    (href : ref ∈ c.references) : (∃ b ∈ bind, ref = .bind b) ∨ ref = .region id := by
  have hone : indexTarget "1" = none := by decide
  simp only [repeatTriggers, List.mem_cons, List.not_mem_nil, or_false] at hc
  have hbind (h : ref ∈ bind.toList.map Reference.bind) : ∃ b ∈ bind, ref = .bind b := by
    obtain ⟨b, hb, rfl⟩ := List.mem_map.1 h
    exact ⟨b, Option.mem_toList.1 hb, rfl⟩
  rcases hc with rfl | rfl | rfl
  · simp only [Generator.repeatTrigger, Control.references, ControlKind.references,
      Action.references, hone, Option.toList_none, List.map_nil, List.append_nil, List.nil_append]
      at href
    exact .inl (hbind href)
  · simp only [Generator.repeatTrigger, Control.references, ControlKind.references,
      Action.references, indexTarget_indexExpression, Option.toList_none, Option.toList_some,
      List.map_nil, List.map_cons, List.nil_append, List.mem_append, List.mem_singleton] at href
    exact href.imp_left hbind
  · simp only [Generator.repeatTrigger, Control.references, ControlKind.references,
      Action.references, indexTarget_indexExpression, Option.toList_none, Option.toList_some,
      List.map_nil, List.map_cons, List.nil_append, List.mem_append, List.mem_singleton] at href
    exact href.imp_left hbind

theorem titled_repeatTriggers {n : Nat} {before after delete : String} {bind : Option String}
    {c : Control} (hc : c ∈ repeatTriggers (identifier "repeat" n) bind before after delete) :
    c.Titled := by
  simp only [repeatTriggers, List.mem_cons, List.not_mem_nil, or_false] at hc
  rcases hc with rfl | rfl | rfl
  · exact .inr ⟨rfl, n, "insert_before", by decide, rfl⟩
  · exact .inr ⟨rfl, n, "insert_after", by decide, rfl⟩
  · exact .inr ⟨rfl, n, "delete", by decide, rfl⟩

theorem Linked.repeated {inner : Forest NodeKind} (h : Linked (f ++ inner) ids kids copies)
    {bind : Option String} (hbind : ∀ id ∈ bind, id ∈ ids) (n : Nat)
    (before after delete : String) :
    Linked (f ++ repeatForest (identifier "repeat" n) bind before after delete inner) ids kids
      copies := by
  let id := identifier "repeat" n
  let whole := f ++ repeatForest id bind before after delete inner
  have hparts : (f ++ inner).parts ⊆ whole.parts := by
    intro q hq
    rw [Forest.parts_append, List.mem_append] at hq ⊢
    rw [repeatForest, Forest.parts_append, Forest.parts_tree]
    exact hq.imp_right fun hq => List.mem_append_right _ (List.mem_cons_of_mem _ hq)
  have hlabels {k : NodeKind} : k ∈ whole.labels ↔ k ∈ f.labels ∨
      (∃ c ∈ repeatTriggers id bind before after delete, NodeKind.control c = k) ∨
      k = .control (repeatRegion id bind) ∨ k ∈ inner.labels := by
    simp [whole, repeatForest, tree]
  apply h.extend (List.Subset.refl _) hparts
  · intro k hk
    rw [Forest.labels_append, List.mem_append]
    rcases hlabels.1 hk with hk | ⟨c, hc, rfl⟩ | rfl | hk
    · exact .inl (.inl hk)
    · refine .inr ⟨⟨c, rfl, titled_repeatTriggers hc⟩, fun ref href => ?_⟩
      rcases references_repeatTriggers hc href with ⟨b, hb, rfl⟩ | rfl
      · exact .inl ⟨b, hbind b hb, rfl⟩
      · exact .inr ⟨_, hlabels.2 (.inr (.inr (.inl rfl))), rfl⟩
    · exact .inr ⟨⟨_, rfl, .inl ⟨n, rfl⟩⟩, within_bind rfl hbind⟩
    · exact .inl (.inr hk)
  · exact h.sources_mono hparts

/-- What a choice of types refers to: its bind and the cases of the switch. -/
theorem Chooses.references {g : Generator} {binds : List Bind} {prefixes : PrefixTable}
    {declared : TypeId} {select trigger switch : Control} {cases : List Control}
    (h : Chooses g binds prefixes declared select trigger switch cases) {ref : Reference}
    (href : ref ∈ select.references) :
    (∃ b ∈ binds, ref = .bind b.id) ∨ ∃ c ∈ cases, ref = .case c.id := by
  obtain ⟨label, prompt, toggled, hkind, hprompt, hcases, -, b, hb, hbind, -⟩ := h.choices
  rw [Control.references, hbind, hkind] at href
  rcases List.mem_append.1 href with href | href
  · exact .inl ⟨b, hb, List.mem_singleton.1 href⟩
  · obtain ⟨c, hc, href⟩ := List.mem_flatMap.1 href
    rcases List.mem_append.1 hc with hc | hc
    · have hnone : c.toggle = none := by
        have hmem := List.mem_map_of_mem (f := Choice.face) hc
        rw [hprompt] at hmem
        split at hmem
        · exact Option.map_eq_none_iff.1 (congrArg Prod.snd (List.mem_singleton.1 hmem))
        · cases hmem
      rw [Choice.references, hnone] at href
      cases href
    · obtain ⟨t, ht, rfl⟩ := List.mem_map.1 href
      have hmem := List.mem_map_of_mem (f := fun c : Choice => c.toggle.map (·.caseId)) hc
      rw [hcases, Option.mem_toList.1 ht] at hmem
      obtain ⟨c', hc', he⟩ := List.mem_map.1 hmem
      exact .inr ⟨c', hc', congrArg Reference.case (Option.some.inj he).symm⟩

/-- The cases of a switch are cases. -/
theorem Chooses.target?_case {g : Generator} {binds : List Bind} {prefixes : PrefixTable}
    {declared : TypeId} {select trigger switch : Control} {cases : List Control}
    (h : Chooses g binds prefixes declared select trigger switch cases) {c : Control}
    (hc : c ∈ cases) : c.target? = some (.case c.id) := by
  have hkind := List.mem_map_of_mem (f := Control.kind) hc
  rw [h.selected] at hkind
  obtain ⟨selected, -, hselected⟩ := List.mem_map.1 hkind
  rw [Control.target?, ← hselected]

theorem Linked.switch {inner : Forest NodeKind} (h : Linked (f ++ inner) ids kids copies)
    {g : Generator} {binds : List Bind} {prefixes : PrefixTable} {declared : TypeId}
    {select trigger switch : Control} {cases : List Control}
    (hchooses : Chooses g binds prefixes declared select trigger switch cases)
    (hbinds : ∀ b ∈ binds, b.id ∈ ids) (hselect : select.Named) (htrigger : trigger.Named)
    (hswitch : switch.Named) (hcases : inner.roots = cases.map .control) :
    Linked (f ++ switchForest select trigger switch inner) ids kids copies := by
  let whole := f ++ switchForest select trigger switch inner
  have hparts : (f ++ inner).parts ⊆ whole.parts := by
    intro q hq
    rw [Forest.parts_append, List.mem_append] at hq ⊢
    rw [switchForest, Forest.parts_append, Forest.parts_append, Forest.parts_tree]
    exact hq.imp_right fun hq =>
      List.mem_append_right _ (List.mem_append_right _ (List.mem_cons_of_mem _ hq))
  have hlabels {k : NodeKind} : k ∈ whole.labels ↔ k ∈ f.labels ∨ k = .control select ∨
      k = .control trigger ∨ k = .control switch ∨ k ∈ inner.labels := by
    simp [whole, switchForest, leaf, tree]
  obtain ⟨label, prompt, toggled, hkind, -⟩ := hchooses.choices
  obtain ⟨action, id, hconfirms⟩ := hchooses.confirms
  apply h.extend (List.Subset.refl _) hparts
  · intro k hk
    rw [Forest.labels_append, List.mem_append]
    rcases hlabels.1 hk with hk | rfl | rfl | rfl | hk
    · exact .inl (.inl hk)
    · refine .inr ⟨⟨_, rfl, .inl hselect⟩, fun ref href => ?_⟩
      rcases hchooses.references href with ⟨b, hb, rfl⟩ | ⟨c, hc, rfl⟩
      · exact .inl ⟨b.id, hbinds b hb, rfl⟩
      · refine .inr ⟨.control c, ?_, hchooses.target?_case hc⟩
        have hroot : NodeKind.control c ∈ inner.roots := hcases ▸ List.mem_map_of_mem hc
        exact hlabels.2 (.inr (.inr (.inr (.inr (Forest.mem_labels_of_mem_roots hroot)))))
    · refine .inr ⟨⟨_, rfl, .inl htrigger⟩, fun ref href => ?_⟩
      rw [NodeKind.references, Control.references, hchooses.unbound.1, hconfirms] at href
      rw [List.mem_singleton.1 href]
      refine .inr ⟨.control select, hlabels.2 (.inr (.inl rfl)), ?_⟩
      rw [NodeKind.target?, Control.target?, hkind]
    · refine .inr ⟨⟨_, rfl, .inl hswitch⟩, within_bind ?_ fun id hid => ?_⟩
      · rw [hchooses.switches]
        rfl
      · rw [hchooses.unbound.2] at hid
        cases hid
    · exact .inl (.inr hk)
  · exact h.sources_mono hparts

/-- A copy refers to what the source refers to, or to the copy of that. -/
theorem Linked.copy (h : Linked f ids kids copies) {k : NodeKind} {below : Forest NodeKind}
    (hpart : (k, below) ∈ f.parts) (given : Identifiers) :
    Linked (f ++ ((tree k below).copy given).1) ids kids
      (copies ++ [(tree k below, ((tree k below).copy given).1)]) := by
  let source := tree k below
  let copied := (source.copy given).1
  have htitled : source.Titled := h.titled.part hpart
  obtain ⟨table, hpairs, htable⟩ := Forest.copy_spec htitled given
  have hparts : f.parts ⊆ (f ++ copied).parts := by
    rw [Forest.parts_append]
    exact List.subset_append_left ..
  have hnew : ∀ k' ∈ (f ++ copied).labels, k' ∈ f.labels ∨
      (∃ c, k' = .control c ∧ c.Titled) ∧
        ∀ ref ∈ k'.references, Within ids (f ++ copied) ref := by
    intro k' hk'
    rw [Forest.labels_append, List.mem_append] at hk'
    refine hk'.imp id fun hk' => ?_
    rw [← Forest.snd_pairs_copy] at hk'
    obtain ⟨p, hp, rfl⟩ := List.mem_map.1 hk'
    obtain ⟨c, given', hc, rfl⟩ := hpairs p hp
    have hold : NodeKind.control c ∈ f.labels := Forest.mem_labels_of_part hpart (List.of_mem_zip hp).1
    refine ⟨⟨_, rfl, .inl (c.named_copied given' table)⟩, fun ref href => ?_⟩
    rw [NodeKind.references, Control.references_copied] at href
    obtain ⟨old, hold', rfl⟩ := List.mem_map.1 href
    rcases h.closed _ hold old hold' with ⟨id, hid, rfl⟩ | ⟨k₀, hk₀, htarget⟩
    · exact .inl ⟨id, hid, rfl⟩
    · obtain ⟨c₀, rfl, hc₀⟩ := h.titled k₀ hk₀
      rcases Forest.redirect_spec hpairs htable hc₀ htarget with ⟨-, hsame⟩ | ⟨q, hq, -, hq'⟩
      · rw [hsame]
        exact .inr ⟨_, by rw [Forest.labels_append]; exact List.mem_append_left _ hk₀, htarget⟩
      · refine .inr ⟨q.2, ?_, hq'⟩
        rw [Forest.labels_append, ← Forest.snd_pairs_copy]
        exact List.mem_append_right _ (List.mem_map_of_mem hq)
  have hlinked : Linked (f ++ copied) ids kids copies :=
    h.extend (List.Subset.refl _) hparts hnew (h.sources_mono hparts)
  refine { hlinked with copies := fun p hp => ?_ }
  rcases List.mem_append.1 hp with hp | hp
  · exact hlinked.copies p hp
  · rw [List.mem_singleton.1 hp]
    refine ⟨k, below, given, rfl, rfl, hparts hpart, ?_⟩
    rw [Forest.parts_append]
    exact List.subset_append_right ..

end Steps

section Run

variable {g : Generator} {K : List Bind} {d d' : Draft} {s s' : Synthesis} {P P' : List String}

theorem Linked.settle {f inner : Forest NodeKind} {ids : List String} {kids : List Kid}
    {copies : List (Forest NodeKind × Forest NodeKind)} (h : Linked (f ++ inner) ids kids copies) :
    Linked (f ++ inner) ids (kids.map (Sketch.settle inner)) copies := by
  refine { h with sources := fun kid hkid p hp => ?_ }
  obtain ⟨old, hold, rfl⟩ := List.mem_map.1 hkid
  unfold Sketch.settle at hp
  split at hp
  · rw [Forest.parts_append]
    exact List.mem_append_right _ (Forest.mem_parts_of_find hp)
  · exact h.sources old hold p hp

theorem Linked.of_core {f : Forest NodeKind} {ids : List String} {kids kids' : List Kid}
    {copies : List (Forest NodeKind × Forest NodeKind)} (h : Linked f ids kids copies)
    (hcore : kids'.map Kid.core = kids.map Kid.core) : Linked f ids kids' copies := by
  refine { h with sources := fun kid hkid p hp => ?_ }
  have hmem := List.mem_map_of_mem (f := Kid.core) hkid
  rw [hcore] at hmem
  obtain ⟨old, hold, he⟩ := List.mem_map.1 hmem
  have hsource : old.source = kid.source := congrArg (·.2.2) he
  exact h.sources old hold p (hsource ▸ hp)

theorem Linked.opened {f f' : Forest NodeKind} {ids : List String} {kids : List Kid}
    {copies : List (Forest NodeKind × Forest NodeKind)} (h : Linked (f ++ f') ids kids copies) :
    Linked ((f ++ f') ++ .nil) ids kids copies := by
  rwa [Forest.append_nil]

/-- A new bind begins with no binds inside. -/
theorem Linked.inside {f : Forest NodeKind} (h : Linked f (d.knownIds K) d.kids d.copies) (b : Bind)
    (own above around : Option String) :
    Linked f (Draft.knownIds (d.known K ++ [b]) ⟨own, above, around, [], d.controls, d.copies⟩) []
      d.copies := by
  refine h.extend ?_ (List.Subset.refl _) (fun k hk => .inl hk) fun kid hkid => nomatch hkid
  simp [Draft.knownIds, Draft.known]

/-- Whatever steps a sketch takes, the links are kept. -/
theorem Grows.linked (h : Grows g K d s P d' s' P') :
    ∀ A : Forest NodeKind, Linked (A ++ d.controls) (d.knownIds K) d.kids d.copies →
      Linked (A ++ d'.controls) (d'.knownIds K) d'.kids d'.copies := by
  have hids {K : List Bind} {d : Draft} {b : Bind} (hb : b ∈ d.known K) : b.id ∈ d.knownIds K :=
    List.mem_map_of_mem hb
  have hbound {K : List Bind} {d d' : Draft} {s s' : Synthesis} {P P' : List String}
      (h : Grows g K { d with controls := .nil } s P d' s' P') {bind : Option String}
      (hbind : ∀ id ∈ bind, ∃ b ∈ d.known K, b.id = id) : ∀ id ∈ bind, id ∈ d'.knownIds K := by
    intro id hid
    obtain ⟨b, hb, rfl⟩ := hbind id hid
    exact h.knownIds_subset (hids hb)
  induction h with
  | mint => exact fun A h => h
  | perm => exact fun A h => h
  | trans _ _ ih ih' => exact fun A h => ih' A (ih A h)
  | field c hc hnamed hbind =>
    intro A h
    obtain ⟨b, hb, hcb⟩ := hbind
    rw [← Forest.append_assoc]
    exact h.field hc hnamed fun id hid => by
      rw [hcb] at hid
      exact Option.some.inj hid ▸ hids hb
  | box c hc hnamed hbind inner ih =>
    intro A h
    rw [← Forest.append_assoc]
    exact (ih _ h.opened).box hc hnamed (hbound inner hbind)
  | repeated n hbind inner ih =>
    intro A h
    rw [← Forest.append_assoc]
    exact (ih _ h.opened).repeated (hbound inner hbind) n _ _ _
  | @kid K d _ _ d' _ _ b own above around inner ih =>
    intro A h
    have hend := ih A (h.inside b own above around)
    refine hend.extend ?_ (List.Subset.refl _) (fun k hk => .inl hk) ?_
    · simp [Draft.knownIds, Draft.known, Kid.forest_append, Kid.forest]
    · intro kid hkid p hp
      rcases List.mem_append.1 hkid with hkid | hkid
      · obtain ⟨added, hadded⟩ := inner.controls_eq
        have hpart := h.sources kid hkid p hp
        rw [show d'.controls = d.controls ++ added from hadded, ← Forest.append_assoc,
          Forest.parts_append]
        exact List.mem_append_left _ hpart
      · rw [List.mem_singleton.1 hkid] at hp
        cases hp
  | @slot K _ _ _ d' _ _ _ ih =>
    intro A h
    have hend := (ih _ h.opened).settle
    rw [Forest.append_assoc] at hend
    have hids : Draft.knownIds K { d' with kids := d'.kids.map (Sketch.settle d'.controls) } =
        d'.knownIds K := by
      simp only [Draft.knownIds, Draft.known, forest_settle]
    exact hids.symm ▸ hend
  | @copy K d s _ kid k below nodeset _ hfind hsource =>
    intro A h
    rw [← Forest.append_assoc]
    have hcopied := h.copy (h.sources kid (List.mem_of_find?_eq_some hfind) _ hsource) s.ids
    have hids := knownIds_of_core (K := K) (share_core nodeset d.kids)
    exact hids.symm ▸ hcopied.of_core (share_core nodeset d.kids)
  | switch declared select trigger switch cases hchooses hselect htrigger hswitch inner hcases ih =>
    intro A h
    rw [← Forest.append_assoc]
    exact (ih _ h.opened).switch hchooses (fun b hb => inner.knownIds_subset (hids hb)) hselect
      htrigger hswitch hcases
  | @guard K d _ _ kids hcore =>
    intro A h
    have hids := knownIds_of_core (K := K) hcore
    exact hids.symm ▸ h.of_core hcore

end Run

end SchemaForms
