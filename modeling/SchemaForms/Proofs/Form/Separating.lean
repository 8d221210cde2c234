import SchemaForms.Proofs.Form.Enlisting

/-!
Binds of several cases.  The cases of a switch put their binds under one bind.  Between two cases it
is known of each of these which of the types lists its name, and for which of them it is relevant at
least.  So a case that puts a bind for a nodeset that has one already has added it for its type.
-/

namespace SchemaForms

open Synthesis
open Xml (Element)

/-- A bind is put in place of another: it has the same nodeset, and is relevant for all values of
`xsi:type` that this is relevant for. -/
structure Bind.Amends (b b' : Bind) : Prop where
  nodeset : b'.nodeset = b.nodeset
  guarded : b'.Guarded
  relevant : b.relevant ≠ none → b'.relevant ≠ none
  concerns : ∀ value, b.Concerns value → b'.Concerns value

section Amends

variable {g : Generator} {prefixes : PrefixTable} {a a' b b' : Bind}

theorem Bind.AddedFor.amend {t : TypeId} {step : PathStep} (h : b.AddedFor g prefixes t step)
    (hb : b.Amends b') : b'.AddedFor g prefixes t step where
  adds := h.adds
  named := hb.nodeset.symm ▸ h.named
  relevant := hb.relevant h.relevant
  concerns := by
    obtain ⟨value, hvalue, hconcerns⟩ := h.concerns
    exact ⟨value, hvalue, hb.concerns value hconcerns⟩

theorem Bind.Apart.amend (h : Bind.Apart g prefixes a b) (ha : a'.nodeset = a.nodeset)
    (hb : b.Amends b') : Bind.Apart g prefixes a' b' := by
  intro he
  rw [ha, hb.nodeset] at he
  refine (h he).imp ha.trans ?_
  rintro ⟨declared, t, t', step, hsub, hstep, hadded⟩
  exact ⟨declared, t, t', step, hsub, hstep, hadded.amend hb⟩

end Amends

namespace Kid

variable {kids : List Kid}

theorem orderly_iff {g : Generator} {prefixes : PrefixTable} :
    Orderly g prefixes (forest kids) ↔
      kids.Pairwise (fun a b => Bind.Apart g prefixes a.bind b.bind) ∧
        ∀ kid ∈ kids, Orderly g prefixes kid.below := by
  have hsettled : OrderlyBelow g prefixes (forest kids) ↔
      ∀ kid ∈ kids, Orderly g prefixes kid.below := by
    induction kids with
    | nil => exact ⟨fun _ _ h => (nomatch h), fun _ _ h => (nomatch h)⟩
    | cons kid kids ih =>
      have hcons : forest (kid :: kids) = Forest.tree kid.bind kid.below ++ forest kids := rfl
      rw [hcons, orderlyBelow_append, orderlyBelow_tree, ih, List.forall_mem_cons]
  rw [Orderly, roots_forest, List.pairwise_map, hsettled]

theorem forest_split {f f' : Forest Bind} (h : forest kids = f ++ f') :
    forest (kids.take f.roots.length) = f ∧ forest (kids.drop f.roots.length) = f' := by
  induction f generalizing kids with
  | nil => exact ⟨rfl, h⟩
  | cons b below f _ ih =>
    cases kids with
    | nil => cases h
    | cons kid kids =>
      injection h with hb hbelow hrest
      obtain ⟨hf, hf'⟩ := ih hrest
      subst hb hbelow
      exact ⟨by rw [Forest.roots, List.length_cons, List.take_succ_cons, forest, hf], hf'⟩

variable {kid : Kid} {values : List String}

theorem nodeset_guardKid (isNew : Bool) (conditions : List String) (kid : Kid) :
    (Sketch.guardKid isNew conditions kid).bind.nodeset = kid.bind.nodeset := by
  unfold Sketch.guardKid
  split
  · rfl
  · split
    · rfl
    · split <;> rfl

theorem below_guardKid (isNew : Bool) (conditions : List String) (kid : Kid) :
    (Sketch.guardKid isNew conditions kid).below = kid.below := by
  unfold Sketch.guardKid
  split
  · rfl
  · split
    · rfl
    · split <;> rfl

/-- What a case finds stays relevant for what it was relevant for. -/
theorem amends_guardKid (hkid : kid.bind.Guarded) (h : Unspaced values) :
    kid.bind.Amends (Sketch.guardKid false (values.map typeCondition) kid).bind := by
  unfold Sketch.guardKid
  split
  · exact ⟨rfl, hkid, id, fun _ => id⟩
  · rw [if_neg Bool.false_ne_true]
    split
    · obtain ⟨hguarded, hconcerns⟩ := hkid.widenRelevance h
      refine ⟨rfl, hguarded, fun hsome hnone => hsome ?_, fun value hvalue => ?_⟩
      · exact Option.map_eq_none_iff.1 hnone
      · exact (hconcerns value).2 (.inl hvalue)
    · exact ⟨rfl, hkid, id, fun _ => id⟩

/-- What a case makes gets relevant for its types, the text apart. -/
theorem guardKid_new (hkid : kid.bind.relevant = none) (hne : values ≠ []) (h : Unspaced values) :
    let b := (Sketch.guardKid true (values.map typeCondition) kid).bind
    b.Guarded ∧ (kid.bind.nodeset = "." ∨
      b.relevant ≠ none ∧ ∀ value ∈ values, b.Concerns value) := by
  intro b
  unfold b Sketch.guardKid
  split
  · next hdot => exact ⟨.inl hkid, .inl hdot⟩
  · rw [if_pos rfl]
    obtain ⟨hguarded, hconcerns⟩ := Bind.guarded_addRelevance hkid hne h
    exact ⟨hguarded, .inr ⟨Option.some_ne_none _, fun value hvalue => (hconcerns value).2 hvalue⟩⟩

end Kid

/-- The binds of a switch when the cases of some types are made: each is for the text or for a name
that one of the types lists, and they are apart. -/
structure Separate (g : Generator) (done : List TypeId) (t : PrefixTable) (f : Forest Bind) :
    Prop where
  start : done = [] → f = .nil
  known : ∀ b ∈ f.roots, b.nodeset = "." ∨
    ∃ u ∈ done, ∃ step ∈ g.listed u, Naming t (some step) b.nodeset
  guarded : ∀ b ∈ f.roots, b.Guarded
  orderly : Orderly g t f
  paired : Paired f

namespace Separate

variable {g : Generator} {done rest : List TypeId} {declared : TypeId} {t t' : PrefixTable}
  {f new : Forest Bind} {role : Sketch.Role}

theorem nil : Separate g [] t .nil :=
  ⟨fun _ => rfl, fun _ h => (nomatch h), fun _ h => (nomatch h), orderly_nil, paired_nil⟩

theorem mono (h : Separate g done t f) (ht : t.Extends t') : Separate g done t' f where
  start := h.start
  known := fun b hb => (h.known b hb).imp_right fun ⟨u, hu, step, hstep, hnaming⟩ =>
    ⟨u, hu, step, hstep, hnaming.mono ht⟩
  guarded := h.guarded
  orderly := h.orderly.mono ht
  paired := h.paired

theorem listed_of_keys {a : TypeId} {x : String}
    (h : NamedIn (none :: (g.listed a).map some) t x) :
    x = "." ∨ ∃ step ∈ g.listed a, Naming t (some step) x := by
  obtain ⟨key, hkey, hnaming⟩ := h
  rcases List.mem_cons.1 hkey with rfl | hkey
  · exact .inl hnaming
  · obtain ⟨step, hstep, rfl⟩ := List.mem_map.1 hkey
    exact .inr ⟨step, hstep, hnaming⟩

/-- The first case. -/
theorem first (role : Sketch.Role)
    (hnew : Enlisted g t (role.Puts g (none :: (g.listed role.type).map some) f t) new)
    (hpaired : Paired new) : Separate g [role.type] t new where
  start := fun h => nomatch h
  known := fun b hb => (listed_of_keys (hnew.named b hb).named).imp_right
    fun ⟨step, hstep, hnaming⟩ => ⟨_, List.mem_singleton_self _, step, hstep, hnaming⟩
  guarded := fun b hb => .inl (hnew.idle b hb)
  orderly := hnew.orderly
  paired := hpaired

variable {olds news : List Kid} {values : List String}

/-- A later case makes what it adds relevant for its type, and leaves that of the others. -/
theorem next (role : Sketch.Role) (h : Separate g done t (Kid.forest olds))
    (hnew : Enlisted g t (role.Puts g (none :: (g.listed role.type).map some) (Kid.forest olds) t)
      (Kid.forest news))
    (hpaired : Paired (Kid.forest olds ++ Kid.forest news)) (hrole : role.inherits = true)
    (hcandidates : done ++ role.type :: rest = g.candidates declared) (ht : t.Apart)
    (hunspaced : Unspaced values) {value : String} (hvalue : value ∈ values)
    (htext : g.typeText t role.type = some value) :
    Separate g (done ++ [role.type]) t (Kid.forest
      (olds.map (Sketch.guardKid false (values.map typeCondition)) ++
        news.map (Sketch.guardKid true (values.map typeCondition)))) := by
  have hold {kid : Kid} (hkid : kid ∈ olds) : kid.bind ∈ (Kid.forest olds).roots := by
    rw [Kid.roots_forest]
    exact List.mem_map_of_mem hkid
  have hmade {kid : Kid} (hkid : kid ∈ news) : kid.bind ∈ (Kid.forest news).roots := by
    rw [Kid.roots_forest]
    exact List.mem_map_of_mem hkid
  have hamends {kid : Kid} (hkid : kid ∈ olds) :=
    Kid.amends_guardKid (h.guarded _ (hold hkid)) hunspaced
  have hguard {kid : Kid} (hkid : kid ∈ news) := Kid.guardKid_new (hnew.idle _ (hmade hkid))
    (List.ne_nil_of_mem hvalue) hunspaced
  obtain ⟨hapart, hbelow⟩ := Kid.orderly_iff.1 h.orderly
  refine ⟨fun hnil => absurd hnil (by simp), ?_, ?_, Kid.orderly_iff.2 ⟨?_, ?_⟩, ?_⟩
  · rw [Kid.roots_forest, List.map_append, List.forall_mem_append, List.forall_mem_map,
      List.forall_mem_map, List.forall_mem_map, List.forall_mem_map]
    refine ⟨fun kid hkid => ?_, fun kid hkid => ?_⟩
    · rw [Kid.nodeset_guardKid]
      refine (h.known _ (hold hkid)).imp_right fun ⟨u, hu, hlisted⟩ => ?_
      exact ⟨u, List.mem_append_left _ hu, hlisted⟩
    · rw [Kid.nodeset_guardKid]
      refine (listed_of_keys (hnew.named _ (hmade hkid)).named).imp_right fun hlisted => ?_
      exact ⟨_, List.mem_append_right _ (List.mem_singleton_self _), hlisted⟩
  · rw [Kid.roots_forest, List.map_append, List.forall_mem_append, List.forall_mem_map,
      List.forall_mem_map, List.forall_mem_map, List.forall_mem_map]
    exact ⟨fun kid hkid => (hamends hkid).guarded, fun kid hkid => (hguard hkid).1⟩
  · refine List.pairwise_append.2 ⟨?_, ?_, ?_⟩
    · refine List.pairwise_map.2 (hapart.imp_of_mem fun ha hb hab => ?_)
      exact hab.amend (hamends ha).nodeset (hamends hb)
    · have hfresh := hnew.fresh
      rw [Kid.roots_forest, List.pairwise_map] at hfresh
      refine List.pairwise_map.2 (hfresh.imp fun hab he => absurd ?_ hab)
      rwa [Kid.nodeset_guardKid, Kid.nodeset_guardKid] at he
    · -- an earlier bind and a new one: the name is not inherited, or the earlier one were reused
      intro _ hfound _ hput he
      obtain ⟨a, ha, rfl⟩ := List.mem_map.1 hfound
      obtain ⟨b, hb, rfl⟩ := List.mem_map.1 hput
      rw [Kid.nodeset_guardKid, Kid.nodeset_guardKid] at he
      rw [Kid.nodeset_guardKid]
      rcases h.known _ (hold ha) with hdot | ⟨u, hu, step, hstep, hnaming⟩
      · exact .inl hdot
      rcases (hguard hb).2 with hdot | ⟨hrelevant, hconcerns⟩
      · exact .inl (he.trans hdot)
      rcases (hnew.named _ (hmade hb)).added hrole _ (hold ha) he with
        hdot | ⟨step', hadds, hnaming'⟩
      · exact .inl (he.trans hdot)
      have hstep' := Naming.eq (he ▸ hnaming) hnaming' ht
      injection hstep' with hstep'
      subst hstep'
      refine .inr ⟨declared, u, role.type, step, ?_, hstep, hadds, ?_, hrelevant, value, htext,
        hconcerns value hvalue⟩
      · rw [← hcandidates]
        exact (List.singleton_sublist.2 hu).append
          (List.singleton_sublist.2 (List.mem_cons_self ..))
      · rwa [Kid.nodeset_guardKid]
  · rw [List.forall_mem_append, List.forall_mem_map, List.forall_mem_map]
    refine ⟨fun kid hkid => ?_, fun kid hkid => ?_⟩
    · rw [Kid.below_guardKid]
      exact hbelow kid hkid
    · rw [Kid.below_guardKid]
      exact (Kid.orderly_iff.1 hnew.orderly).2 kid hkid
  · have hnodesets : (Kid.forest (olds.map (Sketch.guardKid false (values.map typeCondition)) ++
        news.map (Sketch.guardKid true (values.map typeCondition)))).roots.map (·.nodeset) =
          (Kid.forest olds ++ Kid.forest news).roots.map (·.nodeset) := by
      rw [← Kid.forest_append, Kid.roots_forest, Kid.roots_forest, List.map_append, List.map_append]
      simp [Function.comp_def, Kid.nodeset_guardKid]
    exact hpaired.of_nodesets hnodesets

end Separate

namespace Sketch

variable {g : Generator} {child : ChildSketch} {owner : ElementId} {declared a : TypeId}
  {done rest : List TypeId} {t t' : PrefixTable} {f new : Forest Bind}

/-- What the content of a type puts. -/
abbrev Contributes (g : Generator) (role : Role) : Forest Bind → PrefixTable → String → Prop :=
  role.Puts g (none :: (g.listed role.type).map some)

/-- At the end of a case, its binds are relevant for its types. -/
theorem turns_guardCase (hnamed : g.schema.TypesNamed)
    (hcandidates : done ++ a :: rest = g.candidates declared) (hfirst : a = declared → done = [])
    (ht : t.Apart) (h : Separate g done t f)
    (hnew : Enlisted g t (Contributes g ⟨a, owner, decide (a ≠ declared)⟩ f t) new)
    (hpaired : Paired (f ++ new)) :
    Turns t (f ++ new) (fun _ => Separate g (done ++ [a]))
      (guardCase g f.roots.length a declared) := by
  have hlater {t' : PrefixTable} (ht : t.Extends t') : Enlisted g t'
      (Contributes g ⟨a, owner, decide (a ≠ declared)⟩ f t') new :=
    (hnew.extend ht).mono fun x hx => hx.mono ht (List.Subset.refl _)
  unfold guardCase
  split
  · next hne =>
    intro d s hs hd
    unfold applyRelevance
    rw [ends_bind, ends_lift, ends_modify]
    have hext := (Calm.typeConditions (g := g) (a :: g.substitutes.of a) s).prefixes
    have hapart := (hs.trans hext).apart ht
    obtain ⟨values, hvalues, htexts⟩ :=
      Generator.typeConditions_values g (a :: g.substitutes.of a) s
    have hunspaced : Unspaced values := by
      intro value hvalue
      obtain ⟨n, hn, rfl⟩ := List.getElem_of_mem hvalue
      have hlength := htexts.length_eq
      exact Generator.typeText_unspaced hnamed hapart (htexts.get (hlength ▸ hn) hn)
    obtain ⟨hold, hmade⟩ := Kid.forest_split hd
    obtain ⟨value, values, hvalue, -, rfl⟩ := List.forall₂_cons_left_iff.1 htexts
    refine ⟨hext, ?_⟩
    rw [guardKids, hvalues]
    refine Separate.next ⟨a, owner, decide (a ≠ declared)⟩ ?_ ?_ ?_ (by simpa using hne)
      hcandidates hapart hunspaced (List.mem_cons_self ..) hvalue
    · rw [hold]
      exact h.mono (hs.trans hext)
    · rw [hold, hmade]
      exact hlater (hs.trans hext)
    · rw [hold, hmade]
      exact hpaired
  · next hsame =>
    have hnil := hfirst (Decidable.not_not.1 hsame)
    subst hnil
    obtain rfl := h.start rfl
    refine (Turns.pure ()).mono ?_
    rintro _ t' _ ht' rfl
    exact Separate.first ⟨a, owner, decide (a ≠ declared)⟩ (hlater ht') hpaired

section Switch

variable (hnamed : g.schema.TypesNamed)
  (hcomplex : ∀ role e occurs, Enlists g (Contributes g role) (complex g child role e occurs))

include hnamed hcomplex

/-- What one case does. -/
theorem turns_typeCase (hcandidates : done ++ a :: rest = g.candidates declared)
    (hfirst : a = declared → done = []) (ht : t.Apart) (h : Separate g done t f) (isFirst : Bool)
    (e : Element) (caseId : String) :
    Turns t f (fun _ => Separate g (done ++ [a]))
      (typeCase g child owner declared isFirst e a caseId) := by
  refine .within (fun d s hs hd => ?_) _ _
  have hlength : d.kids.length = f.roots.length := by
    rw [← hd, Kid.roots_forest, List.length_map]
  have hunshare (t : PrefixTable) (f : Forest Bind) :
      Turns t f (fun _ _ f' => f' = f) unshare := by
    refine fun d' s' _ hd' => ⟨.refl, ?_⟩
    have hkids : Kid.forest (d'.kids.map fun kid => { kid with shared := false }) =
        Kid.forest d'.kids := Kid.forest_eq (by rw [List.map_map]; rfl)
    exact hkids.trans hd'
  have hall : Turns t f (fun _ => Separate g (done ++ [a])) (do
      let data ← complex g child ⟨a, owner, decide (a ≠ declared)⟩
        (Element.ofName (g.schema.element owner).name) .once
      guardCase g f.roots.length a declared
      unshare
      return Generator.mergeCase e data) := by
    refine (hcomplex _ _ _ t f ht h.paired).bind ?_
    rintro data t₁ _ ht₁ ⟨hpaired, new, rfl, hnew⟩
    refine (turns_guardCase hnamed hcandidates hfirst (ht₁.apart ht) (h.mono ht₁) hnew
      hpaired).bind fun _ t₂ f₂ _ hseparate => ?_
    refine (hunshare t₂ f₂).first fun _ => (Turns.pure _).mono ?_
    rintro _ t₃ _ ht₃ rfl
    exact hseparate.mono ht₃
  rw [← hlength] at hall
  exact hall d s hs hd

/-- The cases of a switch, from left to right. -/
theorem turns_typeCases {types : List TypeId} (hcandidates : done ++ types = g.candidates declared)
    (hdeclared : declared ∉ (g.candidates declared).tail) (ht : t.Apart) (h : Separate g done t f)
    (isFirst : Bool) (e : Element) (ids : List String) :
    Turns t f (fun _ t' f' => ∃ done', Separate g done' t' f')
      (typeCases g child owner declared isFirst e (types.zip ids)) := by
  induction types generalizing t f done isFirst e ids with
  | nil => exact (Turns.pure e).mono fun _ _ _ ht' he => ⟨done, he ▸ h.mono ht'⟩
  | cons a rest ih =>
    cases ids with
    | nil => exact (Turns.pure e).mono fun _ _ _ ht' he => ⟨done, he ▸ h.mono ht'⟩
    | cons id ids =>
      have hfirst : a = declared → done = [] := by
        rintro rfl
        cases done with
        | nil => rfl
        | cons u done =>
          rw [← hcandidates] at hdeclared
          exact absurd (List.mem_append_right _ (List.mem_cons_self ..)) hdeclared
      refine (turns_typeCase hnamed hcomplex hcandidates hfirst ht h isFirst e id).bind ?_
      intro e' t' f' ht' h'
      exact ih (by rw [List.append_assoc]; exact hcandidates) (ht'.apart ht) h' false e' ids

theorem enlists_switch (e : Element) (hdeclared : declared ∉ (g.candidates declared).tail)
    {path : String} (hpath : ∀ y, path ≠ y ++ "/@xsi:type") (occurs : Occurs) :
    Enlists g (fun _ _ x => x = path ∨ x = path ++ "/@xsi:type")
      (switch g child e owner declared (g.candidates declared) path occurs) := by
  have hown : Fills g ownId := fun _ _ => .look fun d =>
    (Turns.pure (d.own.getD "")).mono fun _ _ _ _ he => he ▸ orderly_nil
  unfold switch
  refine fun t f ht hf => .after (Calm.allocate "select1") fun selectId => ?_
  refine (Turns.withKid (hown t ht)).bind ?_
  rintro typeBindId t₁ _ ht₁ ⟨id, below, rfl, hbelow⟩
  refine (Turns.withKid (J := fun _ => Orderly g) (.look fun d => .items ?_ _ _)).mono ?_
  · refine .after (Calm.promptChoice _ _) fun prompt => .after (Calm.typeChoices _)
      fun choices => .first (.leaves _) fun _ => ?_
    refine .after (Calm.allocate "trigger") fun triggerId => .after (Calm.allocate "action")
      fun actionId => .after (Calm.allocate "dispatch") fun dispatchId => ?_
    refine .first (.leaves _) fun _ => .after (Calm.allocate "switch") fun switchId => ?_
    refine .within (.after (Calm.typeValue _) fun first => ?_) _ _
    exact (turns_typeCases hnamed hcomplex (List.nil_append _) hdeclared (ht₁.apart ht) .nil true _
      _).mono fun _ _ _ _ ⟨_, h⟩ => h.orderly
  · rintro _ t₂ _ ht₂ ⟨id', below', rfl, hbelow'⟩
    rw [Forest.append_assoc]
    refine ⟨hf.snoc fun b hb x hx => ?_, _, rfl, Enlisted.append
      (.tree (.inr rfl) (relevant_typeBind ..) (hbelow.mono ht₂)) (.tree (.inl rfl) rfl hbelow') ?_⟩
    · rcases List.mem_cons.1 hb with rfl | hb
      · exact ⟨_, List.mem_cons_of_mem _ (List.mem_singleton_self _),
          (String.append_left_inj _).1 hx⟩
      · rw [List.mem_singleton.1 hb] at hx
        exact absurd hx (hpath x)
    · intro b hb b' hb' he
      rw [List.mem_singleton.1 hb, List.mem_singleton.1 hb'] at he
      exact hpath path he.symm

omit hnamed in
theorem enlists_plain (e : Element) (resolved : TypeId) {path : String}
    (hpath : ∀ y, path ≠ y ++ "/@xsi:type") (occurs : Occurs) :
    Enlists g (fun _ _ x => x = path) (plain g child e owner declared resolved path occurs) := by
  have hkid (e : Element) : Enlists g (fun _ _ x => x = path) (withKid {} path
      (complex g child ⟨resolved, owner, false⟩ e occurs)) :=
    .withKid rfl hpath (hcomplex ⟨resolved, owner, false⟩ e occurs).fills
  unfold plain
  split
  · exact hkid e
  · exact .after (Calm.typeValue resolved) fun value => hkid _

end Switch

theorem enlists_expand (hnamed : g.schema.TypesNamed)
    (hcandidates : ∀ t, t ∉ (g.candidates t).tail) {child : ChildSketch}
    (hcomplex : ∀ role e occurs, Enlists g (Contributes g role) (complex g child role e occurs)) :
    ChildSketch.Enlists g (expand g child) := by
  intro e id path occurs hpath
  have hleave {p : Sketch Element}
      (hp : Enlists g (fun _ _ x => x = path ∨ x = path ++ "/@xsi:type") p) :
      Enlists g (fun _ _ x => x = path ∨ x = path ++ "/@xsi:type") (do
        let data ← p
        leave
        return some data : Sketch (Option Element)) :=
    .last hp (fun _ _ _ _ _ _ hd => ⟨.refl, hd⟩) fun _ _ _ _ _ h => h
  unfold expand
  dsimp only
  split
  · exact .after (Calm.report _) fun _ => .pure Option.none
  · next t htype =>
    split
    · refine Enlists.last ((enlists_field t _ hpath occurs).mono fun _ _ _ _ _ => .inl)
        (fun _ _ _ => .pure _) ?_
      exact fun _ _ _ _ _ h => h
    · refine .first (fun _ _ d s _ hd => ?_) fun entered => ?_
      · rw [ends_lift]
        have hs' : (enter id t s).2.prefixes = s.prefixes := by
          unfold enter
          split <;> rfl
        exact ⟨hs'.symm ▸ .refl, hd⟩
      · split
        · have hplain (resolved : TypeId) :
              Enlists g (fun _ _ x => x = path ∨ x = path ++ "/@xsi:type")
                (plain g child e id t resolved path occurs) :=
            (enlists_plain hcomplex e resolved hpath occurs).mono fun _ _ _ _ _ => .inl
          split
          · exact hleave (hplain t)
          · exact hleave (hplain _)
          · exact hleave (enlists_switch hnamed hcomplex e (hcandidates t) hpath occurs)
        · exact .after (Calm.report _) fun _ => .pure Option.none

/-- The binds that an element is given are apart wherever they stand beside each other. -/
theorem enlists_element (hg : g.schema.NCNamed) (hnamed : g.schema.TypesNamed)
    (huses : g.schema.AttributesOnce) (hchildren : g.schema.ElementsOnce)
    (hcandidates : ∀ t, t ∉ (g.candidates t).tail) (openings : Nat) :
    ChildSketch.Enlists g (element g openings) := by
  induction openings with
  | zero => exact fun _ _ _ _ _ => .pure Option.none
  | succ openings ih =>
    exact enlists_expand hnamed hcandidates fun role e occurs =>
      enlists_complex hg ih huses hchildren role e occurs

end Sketch

end SchemaForms
