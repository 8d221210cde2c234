import SchemaForms.Proofs.Form.Switches

/-!
Attendance: the triggers of a repeat stand directly in front of it.  There they stay in every copy of
what is around the repeat; only a repeat that is copied itself leaves them behind.
-/

namespace SchemaForms

open Forest (tree leaf)

/-- The nodes that stand side by side: those at the top, and those below each node. -/
def Forest.rows {α : Type} (f : Forest α) : List (List α) := f.roots :: f.parts.map (·.2.roots)

/-- The triggers of a repeat: one inserts an item before all others, one inserts an item behind the
current one, and one deletes the current one. -/
def Control.AttendedBy (c : Control) (ts : List Control) : Prop :=
  ∃ before after delete, ts.map (·.kind) =
    [.trigger (some (.insert before c.bind .before "1")),
      .trigger (some (.insert after c.bind .after (indexExpression c.id))),
      .trigger (some (.delete delete c.bind (indexExpression c.id)))]

/-- A control that has been copied without what stood beside it, or the copy of such a one. -/
inductive Stray (copies : List (Forest NodeKind × Forest NodeKind)) : Control → Prop
  | top {p c below} (hp : p ∈ copies) (hcopy : p.2 = tree (.control c) below) : Stray copies c
  | inside {p c c'} (hp : p ∈ copies) (hpair : (.control c, .control c') ∈ p.1.pairs p.2)
      (hc : Stray copies c) : Stray copies c'

/-- Controls in which each repeat stands behind its triggers, unless it is a stray. -/
inductive Attended (copies : List (Forest NodeKind × Forest NodeKind)) : Forest NodeKind → Prop
  | nil : Attended copies .nil
  | plain {c below after} (hc : c.kind ≠ .repeatRegion) (hbelow : Attended copies below)
      (hafter : Attended copies after) : Attended copies (.cons (.control c) below after)
  | stray {c below after} (hc : Stray copies c) (hbelow : Attended copies below)
      (hafter : Attended copies after) : Attended copies (.cons (.control c) below after)
  | behind {t₁ t₂ t₃ c below after} (hc : c.AttendedBy [t₁, t₂, t₃])
      (hbelow : Attended copies below) (hafter : Attended copies after) :
      Attended copies (.cons (.control t₁) .nil (.cons (.control t₂) .nil
        (.cons (.control t₃) .nil (.cons (.control c) below after))))

theorem Forest.Alike.and {α β : Type} {R S : α → β → Prop} {f : Forest α} {f' : Forest β}
    (h : Alike R f f') (h' : Alike S f f') : Alike (fun a b => R a b ∧ S a b) f f' := by
  induction f generalizing f' with
  | nil =>
    cases f' with
    | nil => exact trivial
    | cons => cases h
  | cons a below after ihb iha =>
    cases f' with
    | nil => cases h
    | cons a' below' after' => exact ⟨⟨h.1, h'.1⟩, ihb h.2.1 h'.2.1, iha h.2.2 h'.2.2⟩

section Rows

variable {copies copies' : List (Forest NodeKind × Forest NodeKind)} {f f' : Forest NodeKind}

theorem Stray.mono {c : Control} (h : Stray copies c) (hcopies : copies ⊆ copies') :
    Stray copies' c := by
  induction h with
  | top hp hcopy => exact .top (hcopies hp) hcopy
  | inside hp hpair _ ih => exact .inside (hcopies hp) hpair ih

namespace Attended

theorem mono (h : Attended copies f) (hcopies : copies ⊆ copies') : Attended copies' f := by
  induction h with
  | nil => exact .nil
  | plain hc _ _ ih ih' => exact .plain hc ih ih'
  | stray hc _ _ ih ih' => exact .stray (hc.mono hcopies) ih ih'
  | behind hc _ _ ih ih' => exact .behind hc ih ih'

theorem append (h : Attended copies f) (h' : Attended copies f') : Attended copies (f ++ f') := by
  induction h with
  | nil => exact h'
  | plain hc hbelow _ _ ih => exact .plain hc hbelow ih
  | stray hc hbelow _ _ ih => exact .stray hc hbelow ih
  | behind hc hbelow _ _ ih => exact .behind hc hbelow ih

theorem boxed {c : Control} (hc : c.kind ≠ .repeatRegion) (h : Attended copies f) :
    Attended copies (tree (.control c) f) := .plain hc h .nil

/-- What is below a part is attended as well. -/
theorem part (h : Attended copies f) {k : NodeKind} {below : Forest NodeKind}
    (hpart : (k, below) ∈ f.parts) : Attended copies below := by
  induction h with
  | nil => cases hpart
  | plain _ hbelow _ ih ih' | stray _ hbelow _ ih ih' =>
    simp only [Forest.parts, List.mem_cons, List.mem_append] at hpart
    rcases hpart with hpart | hpart | hpart
    · cases hpart
      exact hbelow
    · exact ih hpart
    · exact ih' hpart
  | behind _ hbelow _ ih ih' =>
    simp only [Forest.parts, List.nil_append, List.mem_cons, List.mem_append] at hpart
    rcases hpart with hpart | hpart | hpart | hpart | hpart | hpart
    · cases hpart
      exact .nil
    · cases hpart
      exact .nil
    · cases hpart
      exact .nil
    · cases hpart
      exact hbelow
    · exact ih hpart
    · exact ih' hpart

/-- A repeat in the top row has its triggers in front of it. -/
theorem roots (h : Attended copies f) {front rest : List NodeKind} {c : Control}
    (hrow : f.roots = front ++ .control c :: rest) (hc : c.kind = .repeatRegion) :
    (∃ others ts, front = others ++ ts.map .control ∧ c.AttendedBy ts) ∨ Stray copies c := by
  -- whatever stands in front of the rest of the row stands in front of the triggers
  have hfront {k : NodeKind} {front : List NodeKind}
      (h : (∃ others ts, front = others ++ ts.map .control ∧ c.AttendedBy ts) ∨ Stray copies c) :
      (∃ others ts, k :: front = others ++ ts.map .control ∧ c.AttendedBy ts) ∨
        Stray copies c := by
    refine h.imp_left ?_
    rintro ⟨others, ts, rfl, hts⟩
    exact ⟨k :: others, ts, rfl, hts⟩
  induction h generalizing front with
  | nil => simp [Forest.roots] at hrow
  | plain hplain _ _ _ ih =>
    cases front with
    | nil =>
      cases hrow
      exact absurd hc hplain
    | cons k front =>
      rw [Forest.roots, List.cons_append, List.cons.injEq] at hrow
      exact hfront (ih hrow.2)
  | stray hstray _ _ _ ih =>
    cases front with
    | nil =>
      cases hrow
      exact .inr hstray
    | cons k front =>
      rw [Forest.roots, List.cons_append, List.cons.injEq] at hrow
      exact hfront (ih hrow.2)
  | @behind t₁ t₂ t₃ _ _ _ hts _ _ _ ih =>
    have hkinds := hts
    obtain ⟨_, _, _, hkinds⟩ := hkinds
    simp only [List.map_cons, List.map_nil, List.cons.injEq, and_true] at hkinds
    obtain ⟨hk₁, hk₂, hk₃⟩ := hkinds
    obtain _ | ⟨k₁, _ | ⟨k₂, _ | ⟨k₃, _ | ⟨k, front⟩⟩⟩⟩ := front
    · cases hrow
      exact absurd hc (by simp [hk₁])
    · cases hrow
      exact absurd hc (by simp [hk₂])
    · cases hrow
      exact absurd hc (by simp [hk₃])
    · cases hrow
      exact .inl ⟨[], [t₁, t₂, t₃], rfl, hts⟩
    · simp only [Forest.roots, List.cons_append, List.cons.injEq] at hrow
      exact hfront (hfront (hfront (hfront (ih hrow.2.2.2.2))))

end Attended

end Rows

/-! Copies. -/

theorem ControlKind.eq_repeatRegion {k : ControlKind} (h : k.elementName = "repeat") :
    k = .repeatRegion := by
  cases k with
  | repeatRegion => rfl
  | _ => exact absurd h (by simp [elementName])

theorem redirectIndex_indexExpression (table : Table String String) (id : String) :
    redirectIndex table (indexExpression id) = indexExpression (renamed table id) := by
  unfold redirectIndex renamed
  rw [indexTarget_indexExpression, Option.bind_some]
  cases table.get? id <;> rfl

section Copies

variable {table : Table String String} {copies : List (Forest NodeKind × Forest NodeKind)}

theorem Control.IsCopyOf.kind_ne {c c' : Control} (h : c.IsCopyOf table c')
    (hc : c.kind ≠ .repeatRegion) : c'.kind ≠ .repeatRegion := by
  intro hkind
  apply hc
  apply ControlKind.eq_repeatRegion
  rw [← h.elementName_eq, hkind]
  rfl

/-- Copies of the triggers of a repeat are the triggers of its copy. -/
theorem Control.AttendedBy.copy {c c' t₁ t₁' t₂ t₂' t₃ t₃' : Control}
    (h : c.AttendedBy [t₁, t₂, t₃]) (hc : c.IsCopyOf table c') (h₁ : t₁.IsCopyOf table t₁')
    (h₂ : t₂.IsCopyOf table t₂') (h₃ : t₃.IsCopyOf table t₃') :
    c'.AttendedBy [t₁', t₂', t₃'] := by
  obtain ⟨before, after, delete, hkinds⟩ := h
  simp only [List.map_cons, List.map_nil, List.cons.injEq, and_true] at hkinds
  obtain ⟨hk₁, hk₂, hk₃⟩ := hkinds
  have hid := hc.2
  obtain ⟨⟨ids, rfl⟩, -⟩ := hc
  obtain ⟨⟨ids₁, rfl⟩, -⟩ := h₁
  obtain ⟨⟨ids₂, rfl⟩, -⟩ := h₂
  obtain ⟨⟨ids₃, rfl⟩, -⟩ := h₃
  change ∃ before after delete, [(t₁.kind.renumber _).1.redirect table,
    (t₂.kind.renumber _).1.redirect table, (t₃.kind.renumber _).1.redirect table] = _
  rw [hid, ← redirectIndex_indexExpression, hk₁, hk₂, hk₃]
  exact ⟨_, _, _, rfl⟩

/-- A copy of some controls, node by node. -/
theorem Attended.copy {copies' : List (Forest NodeKind × Forest NodeKind)}
    {p : Forest NodeKind × Forest NodeKind} {f f' : Forest NodeKind} (h : Attended copies f)
    (hcopies : copies ⊆ copies') (hp : p ∈ copies')
    (hcopy : f.Alike (fun k k' => NodeKind.IsCopyOf table k k' ∧ (k, k') ∈ p.1.pairs p.2) f') :
    Attended copies' f' := by
  induction h generalizing f' with
  | nil =>
    obtain rfl := hcopy.eq_nil
    exact .nil
  | plain hc _ _ ih ih' =>
    cases f' with
    | nil => cases hcopy
    | cons k below after =>
      obtain ⟨⟨⟨c, c', hk, rfl, hcc⟩, -⟩, hbelow, hafter⟩ := hcopy
      cases hk
      exact .plain (hcc.kind_ne hc) (ih hbelow) (ih' hafter)
  | stray hc _ _ ih ih' =>
    cases f' with
    | nil => cases hcopy
    | cons k below after =>
      obtain ⟨⟨⟨c, c', hk, rfl, -⟩, hpair⟩, hbelow, hafter⟩ := hcopy
      cases hk
      exact .stray (.inside hp hpair (hc.mono hcopies)) (ih hbelow) (ih' hafter)
  | behind hts _ _ ih ih' =>
    obtain _ | ⟨k₁, below₁, _ | ⟨k₂, below₂, _ | ⟨k₃, below₃, _ | ⟨k, below, after⟩⟩⟩⟩ := f'
    · cases hcopy
    · cases hcopy.2.2
    · cases hcopy.2.2.2.2
    · cases hcopy.2.2.2.2.2.2
    · obtain ⟨⟨⟨_, _, hk₁, rfl, h₁⟩, -⟩, hnil₁, ⟨⟨_, _, hk₂, rfl, h₂⟩, -⟩, hnil₂,
        ⟨⟨_, _, hk₃, rfl, h₃⟩, -⟩, hnil₃, ⟨⟨_, _, hk, rfl, hc⟩, -⟩, hbelow, hafter⟩ := hcopy
      cases hk₁
      cases hk₂
      cases hk₃
      cases hk
      obtain rfl := hnil₁.eq_nil
      obtain rfl := hnil₂.eq_nil
      obtain rfl := hnil₃.eq_nil
      exact .behind (hts.copy hc h₁ h₂ h₃) (ih hbelow) (ih' hafter)

end Copies

/-- A tree whose inside is attended is so in its copy, where the top is a stray. -/
theorem Attended.copyTree {copies : List (Forest NodeKind × Forest NodeKind)} {c : Control}
    {below : Forest NodeKind} (h : Attended copies below)
    (htitled : (tree (.control c) below).Titled)
    (hnodup : (tree (.control c) below).identifiers.Nodup) (ids : Identifiers) :
    Attended (copies ++ [(tree (.control c) below, ((tree (.control c) below).copy ids).1)])
      ((tree (.control c) below).copy ids).1 := by
  obtain ⟨table, halike⟩ := Forest.alike_copy htitled hnodup ids
  have hshape := (Forest.map_copy (fun _ _ => rfl) (fun _ _ => rfl) (tree (.control c) below) ids :
    _ = (tree (.control c) below).map fun _ => ())
  have hpairs := halike.and (Forest.alike_of_shape hshape.symm)
  generalize ((tree (.control c) below).copy ids).1 = copied at hpairs
  obtain _ | ⟨k, below', after⟩ := copied
  · cases hpairs
  · have hp : (tree (.control c) below, .cons k below' after) ∈
        copies ++ [(tree (.control c) below, .cons k below' after)] := by simp
    obtain ⟨⟨⟨_, c', hk, rfl, -⟩, -⟩, hbelow, hafter⟩ := hpairs
    obtain rfl := hafter.eq_nil
    exact .stray (.top hp rfl) (h.copy (List.subset_append_left ..) hp hbelow) .nil

/-! Whatever steps a sketch takes, repeats stand behind their triggers. -/

section Run

variable {g : Generator} {K : List Bind} {d d' : Draft} {s s' : Synthesis} {P P' : List String}

/-- Copies are only added. -/
theorem Grows.copies_subset (h : Grows g K d s P d' s' P') : d.copies ⊆ d'.copies := by
  induction h with
  | mint => exact List.Subset.refl _
  | perm => exact List.Subset.refl _
  | trans _ _ ih ih' => exact List.Subset.trans ih ih'
  | field => exact List.Subset.refl _
  | box _ _ _ _ _ ih => exact ih
  | repeated _ _ _ ih => exact ih
  | kid _ _ _ _ _ ih => exact ih
  | slot _ ih => exact ih
  | copy => exact List.subset_append_left ..
  | switch _ _ _ _ _ _ _ _ _ _ _ ih => exact ih
  | guard => exact List.Subset.refl _

/-- The repeats in a draft are attended, and so are those inside what may be copied. -/
structure Draft.IsAttended (d : Draft) : Prop where
  controls : Attended d.copies d.controls
  sources : ∀ kid ∈ d.kids, ∀ k below, kid.source = some (k, below) → Attended d.copies below

theorem Draft.IsAttended.opened (h : d.IsAttended) :
    Draft.IsAttended { d with controls := .nil } := ⟨.nil, h.sources⟩

theorem Control.IsField.not_repeat {c : Control} (h : c.IsField) : c.kind ≠ .repeatRegion := by
  intro hkind
  rw [Control.IsField, hkind] at h
  exact h

theorem Control.IsBox.not_repeat {c : Control} (h : c.IsBox) : c.kind ≠ .repeatRegion := by
  obtain hkind | ⟨selected, hkind⟩ := h
  · simp [hkind]
  · simp [hkind]

theorem Attended.repeated {copies : List (Forest NodeKind × Forest NodeKind)}
    {f : Forest NodeKind} (h : Attended copies f) (id : String) (bind : Option String)
    (before after delete : String) :
    Attended copies (repeatForest id bind before after delete f) :=
  .behind ⟨before, after, delete, rfl⟩ h .nil

theorem Attended.switch {binds : List Bind} {prefixes : PrefixTable} {declared : TypeId}
    {select trigger switch : Control} {cases : List Control}
    (hchooses : Chooses g binds prefixes declared select trigger switch cases)
    {copies : List (Forest NodeKind × Forest NodeKind)} {f : Forest NodeKind}
    (h : Attended copies f) : Attended copies (switchForest select trigger switch f) := by
  obtain ⟨label, prompt, toggled, hselect, -⟩ := hchooses.choices
  obtain ⟨action, id, htrigger⟩ := hchooses.confirms
  have hswitch := hchooses.switches
  exact .plain (by simp [hselect]) .nil (.plain (by simp [htrigger]) .nil
    (.plain (by simp [hswitch]) h .nil))

theorem Grows.isAttended (h : Grows g K d s P d' s' P') :
    ∀ A : Forest NodeKind, Linked (A ++ d.controls) (d.knownIds K) d.kids d.copies →
      Counted A K d s P → d.IsAttended → d'.IsAttended := by
  induction h with
  | mint => exact fun A _ _ hd => hd
  | perm => exact fun A _ _ hd => hd
  | trans h h' ih ih' =>
    intro A hlinked hcounted hd
    exact ih' A (h.linked A hlinked) (h.counted hlinked hcounted) (ih A hlinked hcounted hd)
  | field c hc =>
    intro A _ _ hd
    exact ⟨hd.controls.append (.boxed hc.not_repeat .nil), hd.sources⟩
  | @box _ _ _ P _ _ _ c hc _ _ inner ih =>
    intro A hlinked hcounted hd
    have hinner := ih _ hlinked.opened (hcounted.opened fun x => List.count_le_count_cons) hd.opened
    have hbefore := hd.controls.mono inner.copies_subset
    exact ⟨hbefore.append (.boxed hc.not_repeat hinner.controls), hinner.sources⟩
  | repeated n _ inner ih =>
    intro A hlinked hcounted hd
    have hinner := ih _ hlinked.opened (hcounted.opened fun x => by
      rw [List.count_append]
      omega) hd.opened
    have hbefore := hd.controls.mono inner.copies_subset
    exact ⟨hbefore.append (hinner.controls.repeated _ _ _ _ _), hinner.sources⟩
  | @kid K d s P d' s' P' b own above around inner ih =>
    intro A hlinked hcounted hd
    have hinner := ih A (hlinked.inside b own above around) (hcounted.inside own above around)
      ⟨hd.controls, fun kid hkid => absurd hkid List.not_mem_nil⟩
    refine ⟨hinner.controls, ?_⟩
    intro kid hkid k below hsource
    rcases List.mem_append.1 hkid with hkid | hkid
    · exact (hd.sources kid hkid k below hsource).mono inner.copies_subset
    · rw [List.mem_singleton.1 hkid] at hsource
      cases hsource
  | @slot K d s P d' s' P' inner ih =>
    intro A hlinked hcounted hd
    have hinner := ih _ hlinked.opened (hcounted.opened fun x => Nat.le_refl (P.count x)) hd.opened
    have hbefore := hd.controls.mono inner.copies_subset
    refine ⟨hbefore.append hinner.controls, ?_⟩
    intro kid hkid k below hsource
    obtain ⟨old, hold, rfl⟩ := List.mem_map.1 hkid
    unfold Sketch.settle at hsource
    split at hsource
    · exact hinner.controls.part (Forest.mem_parts_of_find hsource)
    · exact hinner.sources old hold k below hsource
  | @copy K d s P kid k below nodeset _ hfind hsource =>
    intro A hlinked hcounted hd
    have hmem := List.mem_of_find?_eq_some hfind
    have hpart := hlinked.sources kid hmem _ hsource
    have htitled := hlinked.titled.part hpart
    have hnodup := hcounted.nodup_controls.sublist (Forest.identifiers_sublist hpart)
    obtain ⟨c, rfl, -⟩ := htitled k List.mem_cons_self
    have hcopied := (hd.sources kid hmem _ below hsource).copyTree htitled hnodup s.ids
    have hcopies := List.subset_append_left d.copies
      [(tree (.control c) below, ((tree (.control c) below).copy s.ids).1)]
    refine ⟨(hd.controls.mono hcopies).append hcopied, ?_⟩
    intro kid' hkid' k below hsource'
    obtain ⟨old, hold, he⟩ := List.mem_map.1 (share_core nodeset d.kids ▸
      List.mem_map_of_mem (f := Kid.core) hkid' : kid'.core ∈ d.kids.map Kid.core)
    have hsource'' : old.source = kid'.source := congrArg (·.2.2) he
    exact (hd.sources old hold k below (hsource''.trans hsource')).mono hcopies
  | switch declared select trigger switch cases hchooses _ _ _ inner _ ih =>
    intro A hlinked hcounted hd
    have hinner := ih _ hlinked.opened (hcounted.opened fun x => by
      simp only [List.count_append, List.count_cons]
      omega) hd.opened
    have hbefore := hd.controls.mono inner.copies_subset
    exact ⟨hbefore.append (.switch hchooses hinner.controls), hinner.sources⟩
  | @guard K d s P kids hcore =>
    intro A _ _ hd
    refine ⟨hd.controls, ?_⟩
    intro kid hkid k below hsource
    obtain ⟨old, hold, he⟩ := List.mem_map.1 (hcore ▸
      List.mem_map_of_mem (f := Kid.core) hkid : kid.core ∈ d.kids.map Kid.core)
    have hsource' : old.source = kid.source := congrArg (·.2.2) he
    exact hd.sources old hold k below (hsource'.trans hsource)

end Run

/-! The repeats of a form. -/

namespace Generator

variable {g : Generator}

theorem isAttended_filled (root : ElementId) (nsPrefix : Option String) (rootName : String)
    {s : Synthesis} (hs : s.prefixes.Clean) :
    (Sketch.filled g root nsPrefix rootName s).1.IsAttended := by
  have hgrows := Sketch.grows_filled g root nsPrefix rootName s hs []
  apply hgrows.isAttended .nil linked_nil
  · exact fun x => .of_le (Nat.le_refl 0)
  · exact ⟨.nil, fun kid hkid => absurd hkid List.not_mem_nil⟩

/-- The rows of a form are those of its controls, and rows without repeats. -/
theorem row_of_forest {d : Drawing} {r : Request} {root : Option Xml.Element}
    {copies : List (Forest NodeKind × Forest NodeKind)} (h : Attended copies d.controls)
    {row : List NodeKind} (hrow : row ∈ (d.forest r root).rows) {front rest : List NodeKind}
    {c : Control} (hsplit : row = front ++ .control c :: rest) (hc : c.kind = .repeatRegion) :
    (∃ others ts, front = others ++ ts.map .control ∧ c.AttendedBy ts) ∨ Stray copies c := by
  let model : NodeKind := .model d.model r.schemaReference
  let submit : NodeKind := .control d.submitControl
  rcases List.mem_cons.1 hrow with rfl | hrow
  · -- the controls stand between the model and the control of the submission
    have hroots : (d.forest r root).roots = model :: (d.controls ++ leaf submit).roots := by
      simp [Drawing.forest, tree, Forest.roots, model, submit]
    have hattended : Attended copies (d.controls ++ leaf submit) :=
      h.append (.boxed (by simp [Drawing.submitControl]) .nil)
    rw [hroots] at hsplit
    cases front with
    | nil => simp [model] at hsplit
    | cons k front =>
      rw [List.cons_append, List.cons.injEq] at hsplit
      refine (hattended.roots hsplit.2 hc).imp_left ?_
      rintro ⟨others, ts, rfl, hts⟩
      exact ⟨k :: others, ts, rfl, hts⟩
  · obtain ⟨⟨k, below⟩, hpart, rfl⟩ := List.mem_map.1 hrow
    have hmem : .control c ∈ below.roots := hsplit ▸ by simp
    rw [Drawing.forest, Forest.parts_append, Forest.parts_append, List.mem_append, List.mem_append]
      at hpart
    rcases hpart with hpart | hpart | hpart
    · -- no control is in the model
      have hlabel := (Forest.mem_labels_of_mem_parts hpart).2 _ (Forest.mem_labels_of_mem_roots hmem)
      simp [tree, leaf] at hlabel
    · exact (h.part hpart).roots hsplit hc
    · rw [leaf, Forest.parts_tree] at hpart
      cases List.mem_singleton.1 hpart
      cases hmem

/-- Every repeat of a form stands directly behind its three triggers, wherever it is and whatever it
has been copied with; except where it has been copied itself, or is the copy of such a one. -/
theorem repeats_attended (s : Schema) (settings : Settings) {l : Layout} (hl : l.Standard)
    {time : String} {r : Request} {form : Form}
    (h : (ofSchema s settings (some l)).generate time r = .ok form) {row : List NodeKind}
    (hrow : row ∈ form.tree.unmarked.rows) {front rest : List NodeKind} {c : Control}
    (hsplit : row = front ++ .control c :: rest) (hc : c.kind = .repeatRegion) :
    (∃ others ts, front = others ++ ts.map .control ∧ c.AttendedBy ts) ∨
      Stray ((ofSchema s settings (some l)).copies r) c := by
  obtain ⟨root, f, hroot, hshows, -, hnodes, -⟩ := generate_shows hl rfl h
  let g := ofSchema s settings (some l)
  let named := Synthesis.qualified (s.element root).name Synthesis.initial
  have hcopies : g.copies r = (Sketch.filled g root named.1.1 named.1.2 named.2).1.copies := by
    rw [copies, hroot]
    rfl
  have hfilled := (isAttended_filled (g := g) root named.1.1 named.1.2
    (clean_named (s.element root).name)).controls
  rw [hshows.unmarked_eq, hnodes] at hrow
  rw [hcopies]
  exact row_of_forest (d := (Sketch.form g root named.1.1 named.1.2 named.2).1) hfilled hrow hsplit hc

/-- A schema in which the types that an element may have share a child that may stand any number of
times and have several types itself. -/
def sharedRepeat : Schema :=
  let base : TypeId := ⟨Schema.builtinCount⟩
  let child : TypeId := ⟨Schema.builtinCount + 2⟩
  let content : Particle := .sequence [.element ⟨1, none⟩ ⟨1⟩]
  { target := none
    types := (Schema.empty none).types ++
      #[.complex { name := some ⟨none, "B"⟩, particle := some content },
        .complex
          { name := some ⟨none, "D"⟩, base := some base, derivation := .extension
            particle := some content },
        .complex { name := some ⟨none, "X"⟩ },
        .complex { name := some ⟨none, "Y"⟩, base := some child, derivation := .extension }]
    elements := #[{ name := ⟨none, "r"⟩, type := some base },
      { name := ⟨none, "c"⟩, type := some child }]
    uses := #[]
    typeNames := (Schema.empty none).typeNames
    elementNames := Table.empty.put ⟨none, "r"⟩ ⟨0⟩ }

theorem substitutes_sharedRepeat : Substitutes.ofSchema sharedRepeat =
    ⟨⟨[(⟨Schema.builtinCount⟩, [⟨Schema.builtinCount + 1⟩]),
      (⟨Schema.builtinCount + 2⟩, [⟨Schema.builtinCount + 3⟩])]⟩⟩ := by
  have htable : sharedRepeat.namedTypes.foldl (fun table id =>
      Substitutes.ascend sharedRepeat table []
        (sharedRepeat.chain (Substitutes.parent sharedRepeat) id)) Table.empty =
      ⟨[(⟨Schema.builtinCount⟩, [⟨Schema.builtinCount + 1⟩]),
        (⟨Schema.builtinCount + 2⟩, [⟨Schema.builtinCount + 3⟩])]⟩ := by
    decide +kernel
  rw [Substitutes.ofSchema, htable]
  simp [Substitutes.sortByDepth]

theorem repeats_attended_sharedRepeat :
    ∃ form, (ofSchema sharedRepeat {} (some .plain)).generate "" { root := "r" } = .ok form ∧
      ∀ row ∈ form.tree.unmarked.rows, ∀ front c rest, row = front ++ .control c :: rest →
        c.kind = .repeatRegion →
        (∃ others ts, front = others ++ ts.map .control ∧ c.AttendedBy ts) ∨
          Stray ((ofSchema sharedRepeat {} (some .plain)).copies { root := "r" }) c := by
  have hroot : sharedRepeat.findElement (QName.of sharedRepeat.target "r") = some ⟨0⟩ := by
    decide +kernel
  obtain ⟨form, hform⟩ := generate_isOk (ofSchema sharedRepeat {} (some .plain)) ""
    (r := { root := "r" }) hroot rfl
  exact ⟨form, hform, fun row hrow front c rest hsplit hc =>
    repeats_attended sharedRepeat {} .plain hform hrow hsplit hc⟩

/-- Whether a repeat is the first one in a row. -/
def isLedByRepeat (row : List NodeKind) : Bool :=
  row.head?.any fun k => k.control?.any (·.kind.isRepeat)

/-- The copy of the repeat comes without triggers: nothing stands in front of it. -/
theorem repeats_attended_bare :
    ((ofSchema sharedRepeat {} (some .plain)).generate "" { root := "r" }).toOption.any
      (fun form => form.tree.unmarked.rows.any isLedByRepeat) = true := by
  have hnodes (result : Except Fault Form) :
      result.toOption.any (fun form => form.tree.unmarked.rows.any isLedByRepeat) =
        (result.map Form.substance).toOption.any fun s => s.nodes.rows.any isLedByRepeat := by
    cases result <;> rfl
  rw [hnodes, generate_substance .plain rfl, ofSchema, substitutes_sharedRepeat]
  decide +kernel

end Generator

end SchemaForms
