import SchemaForms.Proofs.Schema.Ending

/-!
Every document is loaded or refused.  Building on deeper builders does not change what shallower
ones have come to, and the depth that loading is given is enough for every document: what loading
answers is what it would answer without a bound.
-/

namespace SchemaForms.Loader

open SchemaForms.Xml
open SchemaForms.Source (parts part? groupNames)

/-- Where the first step does not come to an end of its depth, the second one does the same. -/
def Refines {α : Type} (f g : Load α) : Prop := ∀ p, f p = .error exhaustion ∨ f p = g p

namespace Refines

variable {α β : Type} {f g h : Load α}

theorem refl (f : Load α) : Refines f f := fun _ => .inr rfl

theorem trans (hfg : Refines f g) (hgh : Refines g h) : Refines f h := fun p => by
  rcases hfg p with he | he
  · exact .inl he
  · rcases hgh p with he' | he'
    · exact .inl (he.trans he')
    · exact .inr (he.trans he')

theorem bind {k l : α → Load β} (hf : Refines f g) (hk : ∀ a, Refines (k a) (l a)) :
    Refines (f >>= k) (g >>= l) := by
  intro p
  change (f p).bind (fun x => k x.1 x.2) = .error exhaustion ∨
    (f p).bind (fun x => k x.1 x.2) = (g p).bind fun x => l x.1 x.2
  rcases hf p with he | he
  · rw [he]
    exact .inl rfl
  · rw [← he]
    cases f p with
    | error fault => exact .inr rfl
    | ok x => exact hk x.1 x.2

/-- Steps that begin alike. -/
theorem next (f : Load α) {k l : α → Load β} (hk : ∀ a, Refines (k a) (l a)) :
    Refines (f >>= k) (f >>= l) := (refl f).bind hk

/-- Steps that end alike. -/
theorem onward (hf : Refines f g) (k : α → Load β) : Refines (f >>= k) (g >>= k) :=
  hf.bind fun a => .refl (k a)

end Refines

/-- Where the first builders do not come to an end of their depth, the second ones do the same. -/
structure RefiningBuilders (b b' : Builders) : Prop where
  ensure : ∀ ctx id, Refines (b.ensure ctx id) (b'.ensure ctx id)
  complexType : ∀ ctx e id name,
    Refines (b.complexType ctx e id name) (b'.complexType ctx e id name)
  simpleType : ∀ ctx e name, Refines (b.simpleType ctx e name) (b'.simpleType ctx e name)
  particle : ∀ ctx enclosing e, Refines (b.particle ctx enclosing e) (b'.particle ctx enclosing e)
  uses : ∀ ctx e, Refines (b.uses ctx e) (b'.uses ctx e)

section Steps

variable {b b' : Builders} (hb : RefiningBuilders b b') (ctx : Context)
include hb

theorem refines_resolveType (e : Element) (reference : String) :
    Refines (resolveType b ctx e reference) (resolveType b' ctx e reference) := by
  unfold resolveType
  split
  · exact .refl _
  · refine .next _ fun p => ?_
    split
    · exact .refl _
    · exact (hb.ensure ctx _).onward _

theorem refines_anonymousSimple (e : Element) :
    Refines (anonymousSimple b ctx e) (anonymousSimple b' ctx e) :=
  (hb.simpleType ctx e none).onward _

theorem refines_anonymousComplex (e : Element) :
    Refines (anonymousComplex b ctx e) (anonymousComplex b' ctx e) :=
  .next _ fun id => .next _ fun _ => .next _ fun _ => (hb.complexType ctx e id none).onward _

theorem refines_globalDef (e : Element) (id : TypeId) (name : Option QName) :
    Refines (globalDef b ctx e id name) (globalDef b' ctx e id name) := by
  unfold globalDef
  split
  · exact (hb.complexType ctx e id name).onward _
  · exact (hb.simpleType ctx e name).onward _

theorem refines_ensureType (id : TypeId) :
    Refines (ensureType b ctx id) (ensureType b' ctx id) := by
  refine .next _ fun p => ?_
  split
  · exact .refl _
  · split
    · exact .refl _
    · exact .next _ fun _ => (refines_globalDef hb ctx _ _ _).onward _

theorem refines_namedOrInline (e : Element) (key : String) :
    Refines (namedOrInline b ctx e key) (namedOrInline b' ctx e key) := by
  unfold namedOrInline
  split
  · exact refines_resolveType hb ctx e _
  · split
    · exact (refines_anonymousSimple hb ctx _).onward _
    · exact .refl _

theorem refines_unionMembers (e : Element) (references : List String) :
    Refines (unionMembers b ctx e references) (unionMembers b' ctx e references) := by
  induction references with
  | nil => exact .refl _
  | cons reference rest ih =>
    exact (refines_resolveType hb ctx e reference).bind fun _ => ih.onward _

theorem refines_inlineMembers (es : List Element) :
    Refines (inlineMembers b ctx es) (inlineMembers b' ctx es) := by
  induction es with
  | nil => exact .refl _
  | cons e es ih => exact (refines_anonymousSimple hb ctx e).bind fun _ => ih.onward _

theorem refines_simpleType (e : Element) (name : Option QName) :
    Refines (simpleType b ctx e name) (simpleType b' ctx e name) := by
  unfold simpleType
  split
  · split
    · exact (refines_namedOrInline hb ctx _ _).onward _
    · split
      · exact .next _ fun _ => (refines_namedOrInline hb ctx _ _).onward _
      · exact .next _ fun _ => (refines_unionMembers hb ctx _ _).bind fun _ =>
          (refines_inlineMembers hb ctx _).onward _
  · exact .refl _

theorem refines_elementType (e : Element) :
    Refines (elementType b ctx e) (elementType b' ctx e) := by
  unfold elementType
  split
  · exact refines_resolveType hb ctx e _
  · split
    · exact (refines_anonymousComplex hb ctx _).onward _
    · split
      · exact (refines_anonymousSimple hb ctx _).onward _
      · exact .refl _

theorem refines_elementDecl (e : Element) (name : QName) (enclosing : Option TypeId) :
    Refines (elementDecl b ctx e name enclosing) (elementDecl b' ctx e name enclosing) :=
  (refines_elementType hb ctx e).onward _

theorem refines_localElement (enclosing : TypeId) (e : Element) :
    Refines (localElement b ctx enclosing e) (localElement b' ctx enclosing e) := by
  unfold localElement
  split
  · exact .refl _
  · split
    · exact .refl _
    · exact (refines_elementDecl hb ctx e _ _).onward _

theorem refines_members (enclosing : TypeId) (es : List Element) :
    Refines (members b ctx enclosing es) (members b' ctx enclosing es) := by
  induction es with
  | nil => exact .refl _
  | cons e es ih => exact (hb.particle ctx enclosing e).bind fun _ => ih.onward _

theorem refines_groupReference (enclosing : TypeId) (bounds : Occurs) (e : Element) :
    Refines (groupReference b ctx enclosing bounds e)
      (groupReference b' ctx enclosing bounds e) := by
  unfold groupReference
  split
  · exact .refl _
  · split
    · exact .refl _
    · split
      · exact .refl _
      · split
        · exact .refl _
        · split
          · exact .refl _
          · exact (hb.particle _ enclosing _).onward _

theorem refines_particle (enclosing : TypeId) (e : Element) :
    Refines (particle b ctx enclosing e) (particle b' ctx enclosing e) := by
  refine .next _ fun bounds => ?_
  split
  · exact (refines_members hb ctx enclosing _).onward _
  · split
    · exact (refines_localElement hb ctx enclosing e).onward _
    · split
      · exact refines_groupReference hb ctx enclosing bounds e
      · exact .refl _

theorem refines_contentModel (enclosing : TypeId) (e : Element) :
    Refines (contentModel b ctx enclosing e) (contentModel b' ctx enclosing e) := by
  unfold contentModel
  split
  · exact hb.particle ctx enclosing _
  · exact .refl _

theorem refines_attributeDecl (e : Element) (isGlobal : Bool) :
    Refines (attributeDecl b ctx e isGlobal) (attributeDecl b' ctx e isGlobal) := by
  unfold attributeDecl
  split
  · exact .refl _
  · dsimp only
    split
    · exact .refl _
    · exact (refines_namedOrInline hb ctx e _).onward _

theorem refines_attributeUse (e : Element) :
    Refines (attributeUse b ctx e) (attributeUse b' ctx e) := by
  unfold attributeUse
  dsimp only
  split
  · split
    · exact .refl _
    · split
      · exact .refl _
      · split
        · exact .refl _
        · exact (refines_attributeDecl hb ctx _ true).onward _
  · exact (refines_attributeDecl hb ctx e false).onward _

theorem refines_attributeGroup (e : Element) :
    Refines (attributeGroup b ctx e) (attributeGroup b' ctx e) := by
  unfold attributeGroup
  split
  · exact .refl _
  · split
    · exact .refl _
    · split
      · exact .refl _
      · exact hb.uses _ _

theorem refines_usesOf (es : List Element) : Refines (usesOf b ctx es) (usesOf b' ctx es) := by
  induction es with
  | nil => exact .refl _
  | cons e es ih =>
    unfold usesOf
    dsimp only
    split
    · exact (refines_attributeUse hb ctx e).bind fun _ => ih.onward _
    · split
      · exact (refines_attributeGroup hb ctx e).bind fun _ => ih.onward _
      · exact .next _ fun _ => ih.onward _

theorem refines_derivationOf (d : Element) :
    Refines (derivationOf b ctx d) (derivationOf b' ctx d) := by
  unfold derivationOf
  dsimp only
  split
  · exact .refl _
  · exact (refines_resolveType hb ctx d _).onward _

theorem refines_complexType (e : Element) (id : TypeId) (name : Option QName) :
    Refines (complexType b ctx e id name) (complexType b' ctx e id name) := by
  unfold complexType
  split
  · exact .next _ fun d => (refines_derivationOf hb ctx d).bind fun _ =>
      (refines_usesOf hb ctx _).onward _
  · exact .next _ fun d => (refines_derivationOf hb ctx d).bind fun _ =>
      (refines_contentModel hb ctx id d).bind fun _ => (refines_usesOf hb ctx _).onward _
  · exact (refines_contentModel hb ctx id e).bind fun _ => (refines_usesOf hb ctx _).onward _

theorem refines_ensureAll (types : List (TypeId × Element)) :
    Refines (ensureAll b ctx types) (ensureAll b' ctx types) := by
  induction types with
  | nil => exact .refl _
  | cons t types ih => exact (hb.ensure ctx t.1).bind fun _ => ih

theorem refines_buildElements (elements : List (ElementId × Element)) :
    Refines (buildElements b ctx elements) (buildElements b' ctx elements) := by
  induction elements with
  | nil => exact .refl _
  | cons x elements ih =>
    exact .next _ fun _ => (refines_elementDecl hb ctx x.2 _ none).bind fun _ => .next _ fun _ => ih

theorem refines_buildAll : Refines (buildAll b ctx) (buildAll b' ctx) :=
  (refines_ensureAll hb ctx _).bind fun _ => refines_buildElements hb ctx _

end Steps

/-- Deeper builders do what shallower ones do, where these do not come to an end of their depth. -/
theorem refining_builders (depth extra : Nat) :
    RefiningBuilders (builders depth) (builders (depth + extra)) := by
  induction depth with
  | zero =>
    refine ⟨?_, ?_, ?_, ?_, ?_⟩
    · exact fun _ _ _ => .inl rfl
    · exact fun _ _ _ _ _ => .inl rfl
    · exact fun _ _ _ _ => .inl rfl
    · exact fun _ _ _ _ => .inl rfl
    · exact fun _ _ _ => .inl rfl
  | succ depth ih =>
    rw [Nat.succ_add]
    refine ⟨?_, ?_, ?_, ?_, ?_⟩
    · exact fun ctx id => refines_ensureType ih ctx id
    · exact fun ctx e id name => refines_complexType ih ctx e id name
    · exact fun ctx e name => refines_simpleType ih ctx e name
    · exact fun ctx enclosing e => refines_particle ih ctx enclosing e
    · exact fun ctx e => refines_usesOf ih ctx _

/-! The declarations of a document. -/

/-- The number of types and groups that are declared. -/
def openings (c : Context) : Nat :=
  c.types.length + (c.groups.keys.length + c.attributeGroups.keys.length)

theorem length_keys_put {κ α : Type} [DecidableEq κ] (t : Table κ α) (key : κ) (value : α) :
    (t.put key value).keys.length ≤ t.keys.length + 1 := by
  rw [Table.keys_put]
  split
  · exact Nat.le_succ _
  · simp

theorem bounded_put {size : Nat} {t : Table QName Element} {name : QName} {e : Element}
    (ht : ∀ x ∈ t.entries, Source.count x.2 ≤ size) (he : Source.count e ≤ size) :
    ∀ x ∈ (t.put name e).entries, Source.count x.2 ≤ size := by
  intro x hx
  rcases Table.mem_entries_put hx with hx | rfl
  · exact ht x hx
  · exact he

theorem bounded_append {ι : Type} {size : Nat} {xs : List (ι × Element)} {id : ι} {e : Element}
    (hxs : ∀ x ∈ xs, Source.count x.2 ≤ size) (he : Source.count e ≤ size) :
    ∀ x ∈ xs ++ [(id, e)], Source.count x.2 ≤ size := by
  intro x hx
  rcases List.mem_append.1 hx with hx | hx
  · exact hxs x hx
  · rw [List.mem_singleton.1 hx]
    exact he

theorem bounded_register {c c' : Context} {s s' : Schema} {e : Element} {size : Nat}
    (h : Bounded c size) (he : Source.count e ≤ size) (hr : register c s e = .ok (c', s')) :
    Bounded c' size ∧ openings c' ≤ openings c + 1 := by
  unfold register at hr
  cases hname : globalName c e with
  | error fault =>
    simp only [hname] at hr
    repeat' split at hr
    all_goals cases hr
    exact ⟨h, Nat.le_succ _⟩
  | ok name =>
    have hgroups := length_keys_put c.groups name e
    have hattributeGroups := length_keys_put c.attributeGroups name e
    simp only [hname] at hr
    repeat' split at hr
    all_goals cases hr
    · refine ⟨{ h with types := bounded_append h.types he }, ?_⟩
      simp only [openings, List.length_append, List.length_singleton]
      omega
    · refine ⟨{ h with types := bounded_append h.types he }, ?_⟩
      simp only [openings, List.length_append, List.length_singleton]
      omega
    · exact ⟨{ h with elements := bounded_append h.elements he }, Nat.le_succ _⟩
    · refine ⟨{ h with groups := bounded_put h.groups he }, ?_⟩
      simp only [openings]
      omega
    · refine ⟨{ h with attributeGroups := bounded_put h.attributeGroups he }, ?_⟩
      simp only [openings]
      omega
    · exact ⟨{ h with attributes := bounded_put h.attributes he }, Nat.le_succ _⟩
    · exact ⟨h, Nat.le_succ _⟩

theorem bounded_registerAll {es : List Element} {c c' : Context} {s s' : Schema} {size : Nat}
    (h : Bounded c size) (hes : ∀ e ∈ es, Source.count e ≤ size)
    (hr : registerAll c s es = .ok (c', s')) :
    Bounded c' size ∧ openings c' ≤ openings c + es.length := by
  induction es generalizing c s with
  | nil =>
    cases hr
    exact ⟨h, Nat.le_refl _⟩
  | cons e es ih =>
    unfold registerAll at hr
    cases hone : register c s e with
    | error fault =>
      rw [hone] at hr
      cases hr
    | ok next =>
      rw [hone] at hr
      obtain ⟨hnext, hle⟩ := bounded_register h (hes e (List.mem_cons_self ..)) hone
      obtain ⟨hall, hle'⟩ := ih hnext (fun e he => hes e (List.mem_cons_of_mem _ he)) hr
      refine ⟨hall, ?_⟩
      rw [List.length_cons]
      omega

theorem length_le_countIn (es : List Element) : es.length ≤ Source.countIn es := by
  induction es with
  | nil => exact Nat.le_refl _
  | cons e es ih =>
    have hpos : 0 < Source.count e := by
      cases e
      rw [Source.count]
      omega
    rw [List.length_cons, Source.countIn]
    omega

theorem length_parts_le (e : Element) : (parts e).length ≤ Source.count e := by
  obtain ⟨_, _, _, _, children, _, _⟩ := e
  have hle := length_le_countIn children
  have hfilter : (List.filter (fun c : Element => c.name.nspace == some schemaNamespace &&
      c.localName != "annotation") children).length ≤ children.length := List.length_filter_le ..
  rw [Source.count]
  exact Nat.le_trans hfilter (Nat.le_succ_of_le hle)

theorem bounded_declarations {root : Element} {c : Context} {s : Schema}
    (h : declarations root = .ok (c, s)) :
    Bounded c (Source.count root) ∧ openings c ≤ Source.count root := by
  have hstart (target : Option String) (elements attributes : Bool) : Bounded
      { target := target, qualifiedElements := elements, qualifiedAttributes := attributes }
      (Source.count root) := by
    refine ⟨?_, ?_, ?_, ?_, ?_⟩
    all_goals exact fun x hx => by cases hx
  obtain ⟨hbounded, hle⟩ := bounded_registerAll (hstart _ _ _)
    (fun e he => Nat.le_of_lt (count_lt_of_mem_parts he)) h
  refine ⟨hbounded, Nat.le_trans hle ?_⟩
  have := length_parts_le root
  simpa [openings, Table.keys, Table.empty] using this

theorem depthBound_suffices (root : Element) {opens : Nat} (h : opens ≤ Source.count root) :
    reserve (Source.count root) opens + 2 * Source.count root + 1 ≤ depthBound root := by
  have hreserve : reserve (Source.count root) opens ≤ reserve (Source.count root)
    (Source.count root) := Nat.mul_le_mul_right _ h
  calc reserve (Source.count root) opens + 2 * Source.count root + 1
      = reserve (Source.count root) opens + (2 * Source.count root + 1) := Nat.add_assoc _ _ _
    _ ≤ reserve (Source.count root) (Source.count root) + (2 * Source.count root + 1) :=
      Nat.add_le_add_right hreserve _
    _ = (Source.count root + 1) * (2 * Source.count root + 1) := (reserve_succ _ _).symm
    _ ≤ (Source.count root + 2) * (4 * (Source.count root + 2)) :=
      Nat.mul_le_mul (by omega) (by omega)
    _ = depthBound root := Nat.mul_comm _ _

/-- Building all that a document declares comes to an end within the depth that it is given. -/
theorem buildAll_ne_exhaustion {root : Element} {c : Context} {s : Schema}
    (h : declarations root = .ok (c, s)) :
    buildAll (builders (depthBound root)) c { schema := s } ≠ .error exhaustion := by
  obtain ⟨hbounded, hle⟩ := bounded_declarations h
  have hwaiting : waiting c { schema := s } ≤ c.types.length := by
    have hlength := unmet_le (c.types.map (·.1)) []
    rwa [List.length_map] at hlength
  have hclosed : closedGroups c c ≤ c.groups.keys.length + c.attributeGroups.keys.length :=
    Nat.add_le_add (unmet_le _ _) (unmet_le _ _)
  have hopens : c.types.length + closedGroups c c ≤ Source.count root := by
    unfold openings at hle
    omega
  exact completes_buildAll (completing_builders hbounded _) ⟨_, _, rfl⟩ hbounded ⟨rfl, rfl⟩
    (depthBound_suffices root hopens) _ (takenUp_declarations h).inOrder hwaiting

theorem globalName_ne_exhaustion (c : Context) (e : Element) :
    globalName c e ≠ .error exhaustion := by
  intro h
  unfold globalName at h
  split at h
  · cases h
  · cases h

theorem declarations_ne_exhaustion (root : Element) : declarations root ≠ .error exhaustion := by
  have hone (c : Context) (s : Schema) (e : Element) : register c s e ≠ .error exhaustion := by
    intro h
    unfold register at h
    cases hname : globalName c e with
    | error fault =>
      have hne : fault ≠ exhaustion := fun he => globalName_ne_exhaustion c e (he ▸ hname)
      simp only [hname] at h
      repeat' split at h
      all_goals cases h
      all_goals exact hne rfl
    | ok name =>
      simp only [hname] at h
      repeat' split at h
      all_goals cases h
  have hall : ∀ (es : List Element) (c : Context) (s : Schema),
      registerAll c s es ≠ .error exhaustion := by
    intro es
    induction es with
    | nil => exact fun c s h => by cases h
    | cons e es ih =>
      intro c s h
      unfold registerAll at h
      cases hr : register c s e with
      | error fault =>
        rw [hr] at h
        exact hone c s e (hr.trans h)
      | ok next =>
        rw [hr] at h
        exact ih _ _ h
  exact hall _ _ _

theorem run_ne_exhaustion (root : Element) : run root ≠ .error exhaustion := by
  intro h
  unfold run at h
  split at h
  · cases h
  · cases hd : declarations root with
    | error fault =>
      rw [hd] at h
      have hfault : fault = exhaustion := Except.error.inj h
      exact declarations_ne_exhaustion root (hfault ▸ hd)
    | ok x =>
      obtain ⟨c, s⟩ := x
      rw [hd] at h
      change ((buildAll (builders (depthBound root)) c { schema := s }).bind
        fun x => Except.ok x.2) = .error exhaustion at h
      cases hbuild : buildAll (builders (depthBound root)) c { schema := s } with
      | error fault =>
        rw [hbuild] at h
        have hfault : fault = exhaustion := Except.error.inj h
        exact buildAll_ne_exhaustion hd (hfault ▸ hbuild)
      | ok x =>
        rw [hbuild] at h
        cases h

/-- What builders of a given depth build of a schema document. -/
def runAt (depth : Nat) (root : Element) : Except Fault Progress := do
  if root.name ≠ ⟨some schemaNamespace, "schema"⟩ then
    throw (.ofProblem (.notASchema root.written))
  let (ctx, s) ← declarations root
  let ((), p) ← buildAll (builders depth) ctx { schema := s }
  return p

theorem run_eq_runAt (root : Element) : run root = runAt (depthBound root) root := rfl

/-- Builders that are deeper than the bound build the same. -/
theorem runAt_of_deeper (root : Element) (extra : Nat) :
    runAt (depthBound root + extra) root = run root := by
  rw [run_eq_runAt]
  unfold runAt
  split
  · rfl
  · cases hd : declarations root with
    | error fault => rfl
    | ok x =>
      obtain ⟨c, s⟩ := x
      have hbuild : buildAll (builders (depthBound root)) c { schema := s } =
          buildAll (builders (depthBound root + extra)) c { schema := s } :=
        (refines_buildAll (refining_builders _ extra) c _).resolve_left (buildAll_ne_exhaustion hd)
      change (buildAll (builders (depthBound root + extra)) c { schema := s }).bind _ =
        (buildAll (builders (depthBound root)) c { schema := s }).bind _
      rw [hbuild]

/-- Every document is loaded or refused, and never for want of depth; and however great the depth of
the builders is beyond the bound, they build the same. -/
theorem loading_ends (document : Option Element) :
    ((∃ s, Schema.ofDocument document = .ok s) ∨
      ∃ fault, Schema.ofDocument document = .error fault ∧ fault ≠ .ofProblem .nestingExhausted) ∧
    ∀ root extra, runAt (depthBound root + extra) root = run root := by
  refine ⟨?_, runAt_of_deeper⟩
  cases hload : Schema.ofDocument document with
  | ok s => exact .inl ⟨s, rfl⟩
  | error fault =>
    refine .inr ⟨fault, rfl, ?_⟩
    rintro rfl
    cases document with
    | none => cases hload
    | some root =>
      change (run root).map (·.schema) = .error exhaustion at hload
      cases hrun : run root with
      | error fault =>
        rw [hrun] at hload
        have hfault : fault = exhaustion := Except.error.inj hload
        exact run_ne_exhaustion root (hfault ▸ hrun)
      | ok p =>
        rw [hrun] at hload
        cases hload

end SchemaForms.Loader
