import SchemaForms.Proofs.Schema.Chains
import SchemaForms.Proofs.Schema.Extension

/-!
Loading ends.  Between two openings of a type or a group, building goes down the document, and each
global type and each group is opened only once on the way: so the builders of a great enough depth
never come to an end of their depth, whatever the document.
-/

namespace SchemaForms.Loader

open SchemaForms.Xml
open SchemaForms.Source (parts part? groupNames)

theorem ofProblem_injective : Function.Injective Fault.ofProblem := fun _ _ h => by
  cases h
  rfl

/-- The depth of the builders was not enough. -/
def exhaustion : Fault := .ofProblem .nestingExhausted

/-! Sizes of declarations. -/

theorem count_le_countIn {e : Element} {es : List Element} (h : e ∈ es) :
    Source.count e ≤ Source.countIn es := by
  induction es with
  | nil => cases h
  | cons e' es ih =>
    rw [Source.countIn]
    rcases List.mem_cons.1 h with rfl | h
    · omega
    · have := ih h
      omega

theorem count_lt_of_mem_parts {d e : Element} (h : d ∈ parts e) :
    Source.count d < Source.count e := by
  have hchild : d ∈ e.children := (List.mem_filter.1 h).1
  have hle := count_le_countIn hchild
  obtain ⟨_, _, _, _, children, _, _⟩ := e
  rw [Source.count]
  exact Nat.lt_succ_of_le hle

theorem count_lt_of_part {d e : Element} {names : List String} (h : part? e names = some d) :
    Source.count d < Source.count e :=
  count_lt_of_mem_parts (List.mem_of_find?_eq_some h)

theorem count_lt_of_derivation {d e : Element} (h : Source.derivation e = .ok d) :
    Source.count d < Source.count e := by
  unfold Source.derivation at h
  split at h
  · next d' hd =>
    cases h
    exact count_lt_of_part hd
  · cases h

/-- All global declarations are small. -/
structure Bounded (c : Context) (size : Nat) : Prop where
  types : ∀ x ∈ c.types, Source.count x.2 ≤ size
  elements : ∀ x ∈ c.elements, Source.count x.2 ≤ size
  groups : ∀ x ∈ c.groups.entries, Source.count x.2 ≤ size
  attributeGroups : ∀ x ∈ c.attributeGroups.entries, Source.count x.2 ≤ size
  attributes : ∀ x ∈ c.attributes.entries, Source.count x.2 ≤ size

/-! What is still to be opened. -/

/-- The number of global types whose building has not begun. -/
def waiting (c : Context) (p : Progress) : Nat := unmet (c.types.map (·.1)) (p.notes.map (·.1))

/-- The number of groups that are not open. -/
def closedGroups (c ctx : Context) : Nat :=
  unmet c.groups.keys ctx.openGroups + unmet c.attributeGroups.keys ctx.openAttributeGroups

theorem unmet_le_of_subset {α : Type} [BEq α] [LawfulBEq α] {all met more : List α}
    (h : met ⊆ more) : unmet all more ≤ unmet all met := by
  rw [unmet, unmet, ← List.countP_eq_length_filter, ← List.countP_eq_length_filter]
  refine List.countP_mono_left fun x _ hx => ?_
  simp only [Bool.not_eq_true', List.contains_eq_mem, decide_eq_false_iff_not] at hx ⊢
  exact fun hm => hx (h hm)

theorem waiting_le {c : Context} {p q : Progress} (h : Keeps p q) : waiting c q ≤ waiting c p := by
  refine unmet_le_of_subset fun id hid => ?_
  obtain ⟨n, hn, rfl⟩ := List.mem_map.1 hid
  exact List.mem_map_of_mem (h.mem_notes hn)

theorem waiting_begun {c : Context} {p : Progress} {id : TypeId} {e : Element}
    (he : Table.find id c.types = some e) (hnew : p.hasBegun id = false) :
    waiting c (p.begun id) < waiting c p := by
  have hmem : id ∈ c.types.map (·.1) := List.mem_map_of_mem (f := (·.1))
    (Table.mem_entries_of_get? (t := ⟨c.types⟩) he)
  refine unmet_cons_lt hmem fun hm => ?_
  obtain ⟨n, hn, rfl⟩ := List.mem_map.1 hm
  have hany : p.hasBegun n.1 = true := List.any_eq_true.2 ⟨n, hn, by simp⟩
  rw [hany] at hnew
  cases hnew

/-- The depth that is used up by all that can still be opened. -/
def reserve (size opens : Nat) : Nat := opens * (2 * size + 1)

theorem reserve_succ (size opens : Nat) :
    reserve size (opens + 1) = reserve size opens + (2 * size + 1) := Nat.succ_mul _ _

theorem reserve_of_lt (size : Nat) {opens opens' : Nat} (h : opens' < opens) :
    reserve size opens' + (2 * size + 1) ≤ reserve size opens := by
  rw [← reserve_succ]
  exact Nat.mul_le_mul_right _ h

/-- While no more than so many types wait, the step does not come to an end of its depth. -/
def Completes {α : Type} (c : Context) (most : Nat) (f : Load α) : Prop :=
  ∀ p, InOrder c p → waiting c p ≤ most → f p ≠ .error exhaustion

namespace Completes

variable {α β : Type} {c : Context} {most : Nat}

theorem pure (a : α) : Completes c most (pure a : Load α) := fun _ _ _ h => by cases h

theorem fail {problem : SchemaProblem} (h : problem ≠ .nestingExhausted) :
    Completes c most (Loader.fail problem : Load α) := fun p _ _ he => by
  change Except.error (Fault.ofProblem problem) = .error exhaustion at he
  exact h (ofProblem_injective (Except.error.inj he))

theorem get : Completes c most (get : Load Progress) := fun _ _ _ h => by cases h

theorem lift {x : Except Fault α} {k : α → Load β} (h : x ≠ .error exhaustion)
    (hk : ∀ a, x = .ok a → Completes c most (k a)) :
    Completes c most ((liftM x : Load α) >>= k) := fun p ho hw he => by
  cases hx : x with
  | ok a =>
    rw [hx] at he
    exact hk a hx p ho hw he
  | error fault =>
    rw [hx] at he h
    have hsame : (Except.error fault : Except Fault (β × Progress)) = .error exhaustion := he
    exact h (by rw [Except.error.inj hsame])

theorem bind {f : Load α} {k : α → Load β} (hf : Completes c most f) (hsound : Sound c f)
    (hk : ∀ a, Completes c most (k a)) : Completes c most (f >>= k) := by
  intro p ho hw he
  change (f p).bind (fun x => k x.1 x.2) = .error exhaustion at he
  cases hrun : f p with
  | error fault =>
    rw [hrun] at he
    have hfault : fault = exhaustion := Except.error.inj he
    exact hf p ho hw (hfault ▸ hrun)
  | ok x =>
    rw [hrun] at he
    obtain ⟨hl, hq⟩ := hsound ho hrun
    exact hk x.1 x.2 hq (Nat.le_trans (waiting_le hl.toKeeps) hw) he

theorem addType (t : TypeDef) : Completes c most (addType t) := fun _ _ _ h => by cases h

theorem addElement (d : ElementDecl) : Completes c most (addElement d) := fun _ _ _ h => by cases h

theorem addUse (u : AttributeUse) : Completes c most (addUse u) := fun _ _ _ h => by cases h

end Completes

theorem occurs_ne_exhaustion (e : Element) : Source.occurs e ≠ .error exhaustion := by
  intro h
  unfold Source.occurs Occurs.parse at h
  cases hmin : Occurs.parseMin (e.attribute? "minOccurs") with
  | error problem =>
    rw [hmin] at h
    have hproblem : problem = .nestingExhausted := ofProblem_injective (Except.error.inj h)
    subst hproblem
    unfold Occurs.parseMin at hmin
    repeat' split at hmin
    all_goals cases hmin
  | ok least =>
    rw [hmin] at h
    change ((Occurs.parseMax least (e.attribute? "maxOccurs")).bind _).mapError _ = _ at h
    cases hmax : Occurs.parseMax least (e.attribute? "maxOccurs") with
    | error problem =>
      rw [hmax] at h
      have hproblem : problem = .nestingExhausted := ofProblem_injective (Except.error.inj h)
      subst hproblem
      unfold Occurs.parseMax at hmax
      dsimp only at hmax
      repeat' split at hmax
      all_goals cases hmax
    | ok most =>
      rw [hmax] at h
      cases h

theorem derivation_ne_exhaustion (e : Element) : Source.derivation e ≠ .error exhaustion := by
  intro h
  unfold Source.derivation at h
  split at h
  · cases h
  · cases h

/-- Builders that complete what the depth allows for. -/
structure CompletingBuilders (c : Context) (size depth : Nat) (b : Builders) : Prop where
  sound : SoundBuilders c b
  ensure : ∀ ctx id most, c.Same ctx → reserve size (most + closedGroups c ctx) + 1 ≤ depth →
    Completes c most (b.ensure ctx id)
  simpleType : ∀ ctx e name most, c.Same ctx →
    reserve size (most + closedGroups c ctx) + Source.count e + 1 ≤ depth →
    Completes c most (b.simpleType ctx e name)
  complexType : ∀ ctx e id name most, c.Same ctx →
    reserve size (most + closedGroups c ctx) + size + Source.count e + 1 ≤ depth →
    Completes c most (b.complexType ctx e id name)
  particle : ∀ ctx enclosing e most, c.Same ctx →
    reserve size (most + closedGroups c ctx) + size + Source.count e + 1 ≤ depth →
    Completes c most (b.particle ctx enclosing e)
  uses : ∀ ctx e most, c.Same ctx →
    reserve size (most + closedGroups c ctx) + size + Source.count e + 1 ≤ depth →
    Completes c most (b.uses ctx e)

section Steps

variable {c ctx : Context} {b : Builders} {size depth most : Nat}
  (hb : CompletingBuilders c size depth b) (hc : c.Same ctx) (hsize : Bounded c size)
include hb hc

theorem completes_resolveType (e : Element) (reference : String)
    (h : reserve size (most + closedGroups c ctx) + 1 ≤ depth) :
    Completes c most (resolveType b ctx e reference) := by
  unfold resolveType
  split
  · exact .pure _
  · refine Completes.get.bind .get fun p => ?_
    split
    · exact .pure _
    · exact (hb.ensure ctx _ most hc h).bind (hb.sound.ensure ctx _ hc) fun _ => .pure _

theorem completes_anonymousSimple (e : Element)
    (h : reserve size (most + closedGroups c ctx) + Source.count e + 1 ≤ depth) :
    Completes c most (anonymousSimple b ctx e) :=
  (hb.simpleType ctx e none most hc h).bind (hb.sound.simpleType ctx e none hc) fun _ => .addType _

theorem completes_namedOrInline (e : Element) (key : String)
    (h : reserve size (most + closedGroups c ctx) + Source.count e ≤ depth) :
    Completes c most (namedOrInline b ctx e key) := by
  have hpos : 0 < Source.count e := by
    cases e
    rw [Source.count]
    omega
  unfold namedOrInline
  split
  · exact completes_resolveType hb hc e _ (by omega)
  · split
    · next inline hinline =>
      have hlt := count_lt_of_part hinline
      exact (completes_anonymousSimple hb hc inline (by omega)).bind
        (sound_anonymousSimple hb.sound hc inline) fun _ => .pure _
    · exact .pure _

omit hb hc in
theorem completes_anySimpleType : Completes c most anySimpleType :=
  Completes.get.bind .get fun _ => .pure _

theorem completes_unionMembers (e : Element) (references : List String)
    (h : reserve size (most + closedGroups c ctx) + 1 ≤ depth) :
    Completes c most (unionMembers b ctx e references) := by
  induction references with
  | nil => exact .pure _
  | cons reference rest ih =>
    exact (completes_resolveType hb hc e reference h).bind
      (sound_resolveType hb.sound hc e reference) fun _ =>
        ih.bind (sound_unionMembers hb.sound hc e rest) fun _ => .pure _

theorem completes_inlineMembers (es : List Element)
    (h : ∀ e ∈ es, reserve size (most + closedGroups c ctx) + Source.count e + 1 ≤ depth) :
    Completes c most (inlineMembers b ctx es) := by
  induction es with
  | nil => exact .pure _
  | cons e es ih =>
    have hrest := ih fun e' he' => h e' (List.mem_cons_of_mem _ he')
    exact (completes_anonymousSimple hb hc e (h e (List.mem_cons_self ..))).bind
      (sound_anonymousSimple hb.sound hc e) fun _ =>
        hrest.bind (sound_inlineMembers hb.sound hc es) fun _ => .pure _

theorem completes_simpleType (e : Element) (name : Option QName)
    (h : reserve size (most + closedGroups c ctx) + Source.count e ≤ depth) :
    Completes c most (simpleType b ctx e name) := by
  unfold simpleType
  split
  · next d hd =>
    have hlt := count_lt_of_part hd
    split
    · exact (completes_namedOrInline hb hc d _ (by omega)).bind
        (sound_namedOrInline hb.sound hc d _) fun _ => Completes.get.bind .get fun _ => .pure _
    · split
      · exact completes_anySimpleType.bind sound_anySimpleType fun _ =>
          (completes_namedOrInline hb hc d _ (by omega)).bind
            (sound_namedOrInline hb.sound hc d _) fun _ => .pure _
      · refine completes_anySimpleType.bind sound_anySimpleType fun _ =>
          (completes_unionMembers hb hc d _ (by omega)).bind
            (sound_unionMembers hb.sound hc d _) fun _ => ?_
        refine (completes_inlineMembers hb hc _ fun inline hinline => ?_).bind
          (sound_inlineMembers hb.sound hc _) fun _ => .pure _
        have hlt' := count_lt_of_mem_parts (List.mem_filter.1 hinline).1
        omega
  · exact .fail (by simp)

theorem completes_anonymousComplex (e : Element)
    (h : reserve size (most + closedGroups c ctx) + size + Source.count e + 1 ≤ depth) :
    Completes c most (anonymousComplex b ctx e) := by
  intro p ho hw he
  have ho₃ : InOrder c ((p.placed e).begun ⟨p.schema.types.size⟩) := ho.placed_begun e
  have hnew (state : BuildState) : ((⟨p.schema.types.size⟩ : TypeId), state) ∉ p.notes := fun hm =>
    Nat.lt_irrefl _ (ho.noted _ state hm)
  have hk : Keeps p ((p.placed e).begun ⟨p.schema.types.size⟩) :=
    (later_placed ho e).toKeeps.trans (keeps_begun _ hnew)
  refine hb.complexType ctx e ⟨p.schema.types.size⟩ none most hc h _ ho₃
    (Nat.le_trans (waiting_le hk) hw) ?_
  change ((b.complexType ctx e ⟨p.schema.types.size⟩ none
    ((p.placed e).begun ⟨p.schema.types.size⟩)).bind _) = _ at he
  cases hrun : b.complexType ctx e ⟨p.schema.types.size⟩ none
      ((p.placed e).begun ⟨p.schema.types.size⟩) with
  | error fault =>
    rw [hrun] at he
    rw [Except.error.inj he]
  | ok x =>
    rw [hrun] at he
    cases he

theorem completes_elementType (e : Element)
    (h : reserve size (most + closedGroups c ctx) + size + Source.count e ≤ depth) :
    Completes c most (elementType b ctx e) := by
  have hpos : 0 < Source.count e := by
    cases e
    rw [Source.count]
    omega
  unfold elementType
  split
  · exact completes_resolveType hb hc e _ (by omega)
  · split
    · next inline hinline =>
      have hlt := count_lt_of_part hinline
      exact (completes_anonymousComplex hb hc inline (by omega)).bind
        (sound_anonymousComplex hb.sound hc inline) fun _ => .pure _
    · split
      · next inline hinline =>
        have hlt := count_lt_of_part hinline
        exact (completes_anonymousSimple hb hc inline (by omega)).bind
          (sound_anonymousSimple hb.sound hc inline) fun _ => .pure _
      · exact .pure _

theorem completes_elementDecl (e : Element) (name : QName) (enclosing : Option TypeId)
    (h : reserve size (most + closedGroups c ctx) + size + Source.count e ≤ depth) :
    Completes c most (elementDecl b ctx e name enclosing) :=
  (completes_elementType hb hc e h).bind (sound_elementType hb.sound hc e) fun _ => .pure _

theorem completes_localElement (enclosing : TypeId) (e : Element)
    (h : reserve size (most + closedGroups c ctx) + size + Source.count e ≤ depth) :
    Completes c most (localElement b ctx enclosing e) := by
  unfold localElement
  split
  · exact Completes.get.bind .get fun _ => .pure _
  · split
    · exact .fail (by simp)
    · exact (completes_elementDecl hb hc e _ _ h).bind (sound_elementDecl hb.sound hc e _ _)
        fun _ => (Completes.addElement _).bind (.addElement _) fun _ => .pure _

theorem completes_members (enclosing : TypeId) (es : List Element)
    (h : ∀ e ∈ es, reserve size (most + closedGroups c ctx) + size + Source.count e + 1 ≤ depth) :
    Completes c most (members b ctx enclosing es) := by
  induction es with
  | nil => exact .pure _
  | cons e es ih =>
    have hrest := ih fun e' he' => h e' (List.mem_cons_of_mem _ he')
    exact (hb.particle ctx enclosing e most hc (h e (List.mem_cons_self ..))).bind
      (hb.sound.particle ctx enclosing e hc) fun _ =>
        hrest.bind (sound_members hb.sound hc enclosing es) fun _ => .pure _

include hsize in
/-- Opening a group leaves one less to be opened. -/
theorem completes_groupReference (enclosing : TypeId) (bounds : Occurs) (e : Element)
    (h : reserve size (most + closedGroups c ctx) + size + Source.count e ≤ depth) :
    Completes c most (groupReference b ctx enclosing bounds e) := by
  unfold groupReference
  split
  · exact .fail (by simp)
  · split
    · exact .pure _
    · next name _ =>
      split
      · exact .pure _
      · next definition hdefinition =>
        split
        · exact .pure _
        · next hopen =>
          split
          · exact .pure _
          · next model hmodel =>
            let inner : Context := { ctx with openGroups := name :: ctx.openGroups }
            obtain ⟨groups, attributeGroups, rfl⟩ := hc
            have hinner : c.Same inner := ⟨_, _, rfl⟩
            have hentry := Table.mem_entries_of_get? hdefinition
            have hcount : Source.count definition ≤ size := hsize.groups _ hentry
            have hlt := count_lt_of_part hmodel
            have hfewer : closedGroups c inner < closedGroups c
                { c with openGroups := groups, openAttributeGroups := attributeGroups } := by
              refine Nat.add_lt_add_right (unmet_cons_lt ?_ ?_) _
              · exact List.mem_map_of_mem (f := (·.1)) hentry
              · simpa using hopen
            have hreserve := reserve_of_lt size (Nat.add_lt_add_left hfewer most)
            exact (hb.particle inner enclosing model most hinner (by omega)).bind
              (hb.sound.particle inner enclosing model hinner) fun _ => .pure _

include hsize in
theorem completes_particle (enclosing : TypeId) (e : Element)
    (h : reserve size (most + closedGroups c ctx) + size + Source.count e ≤ depth) :
    Completes c most (particle b ctx enclosing e) := by
  unfold particle
  refine .lift (occurs_ne_exhaustion e) fun bounds _ => ?_
  split
  · refine (completes_members hb hc enclosing _ fun d hd => ?_).bind
      (sound_members hb.sound hc enclosing _) fun _ => .pure _
    have hlt := count_lt_of_mem_parts hd
    omega
  · split
    · exact (completes_localElement hb hc enclosing e h).bind
        (sound_localElement hb.sound hc enclosing e) fun _ => .pure _
    · split
      · exact completes_groupReference hb hc hsize enclosing bounds e h
      · split
        · exact .pure _
        · exact .pure _

theorem completes_contentModel (enclosing : TypeId) (e : Element)
    (h : reserve size (most + closedGroups c ctx) + size + Source.count e ≤ depth) :
    Completes c most (contentModel b ctx enclosing e) := by
  unfold contentModel
  split
  · next model hmodel =>
    have hlt := count_lt_of_part hmodel
    exact hb.particle ctx enclosing model most hc (by omega)
  · exact .pure _

theorem completes_attributeDecl (e : Element) (isGlobal : Bool)
    (h : reserve size (most + closedGroups c ctx) + Source.count e ≤ depth) :
    Completes c most (attributeDecl b ctx e isGlobal) := by
  unfold attributeDecl
  split
  · exact .fail (by simp)
  · dsimp only
    split
    · exact completes_anySimpleType.bind sound_anySimpleType fun _ => .pure _
    · exact (completes_namedOrInline hb hc e _ h).bind (sound_namedOrInline hb.sound hc e _)
        fun _ => .pure _

include hsize in
theorem completes_attributeUse (e : Element)
    (h : reserve size (most + closedGroups c ctx) + size + Source.count e ≤ depth) :
    Completes c most (attributeUse b ctx e) := by
  unfold attributeUse
  dsimp only
  split
  · split
    · exact .pure _
    · split
      · exact .pure _
      · split
        · exact .pure _
        · next definition hdefinition =>
          have hcount : Source.count definition ≤ size := by
            obtain ⟨groups, attributeGroups, rfl⟩ := hc
            exact hsize.attributes _ (Table.mem_entries_of_get? hdefinition)
          exact (completes_attributeDecl hb hc definition true (by omega)).bind
            (sound_attributeDecl hb.sound hc definition true) fun _ =>
              (Completes.addUse _).bind (.addUse _) fun _ => .pure _
  · refine (completes_attributeDecl hb hc e false (by omega)).bind
      (sound_attributeDecl hb.sound hc e false) fun _ => ?_
    split
    · exact .pure _
    · exact (Completes.addUse _).bind (.addUse _) fun _ => .pure _

include hsize in
theorem completes_attributeGroup (e : Element)
    (h : reserve size (most + closedGroups c ctx) + size + Source.count e ≤ depth) :
    Completes c most (attributeGroup b ctx e) := by
  unfold attributeGroup
  split
  · exact .pure _
  · next name _ =>
    split
    · exact .pure _
    · next definition hdefinition =>
      split
      · exact .pure _
      · next hopen =>
        let inner : Context :=
          { ctx with openAttributeGroups := name :: ctx.openAttributeGroups }
        obtain ⟨groups, attributeGroups, rfl⟩ := hc
        have hentry := Table.mem_entries_of_get? hdefinition
        have hcount : Source.count definition ≤ size := hsize.attributeGroups _ hentry
        have hfewer : closedGroups c inner < closedGroups c
            { c with openGroups := groups, openAttributeGroups := attributeGroups } := by
          refine Nat.add_lt_add_left (unmet_cons_lt ?_ ?_) _
          · exact List.mem_map_of_mem (f := (·.1)) hentry
          · simpa using hopen
        have hreserve := reserve_of_lt size (Nat.add_lt_add_left hfewer most)
        exact hb.uses inner definition most ⟨_, _, rfl⟩ (by omega)

include hsize in
theorem completes_usesOf (es : List Element)
    (h : ∀ e ∈ es, reserve size (most + closedGroups c ctx) + size + Source.count e ≤ depth) :
    Completes c most (usesOf b ctx es) := by
  induction es with
  | nil => exact .pure _
  | cons e es ih =>
    have hfirst := h e (List.mem_cons_self ..)
    have hrest := ih fun e' he' => h e' (List.mem_cons_of_mem _ he')
    have hsound := sound_usesOf hb.sound hc es
    unfold usesOf
    dsimp only
    split
    · exact (completes_attributeUse hb hc hsize e hfirst).bind (sound_attributeUse hb.sound hc e)
        fun _ => hrest.bind hsound fun _ => .pure _
    · split
      · exact (completes_attributeGroup hb hc hsize e hfirst).bind
          (sound_attributeGroup hb.sound hc e) fun _ => hrest.bind hsound fun _ => .pure _
      · exact (Completes.pure _).bind (.pure _) fun _ => hrest.bind hsound fun _ => .pure _

include hsize in
theorem completes_attributeUses (e : Element)
    (h : reserve size (most + closedGroups c ctx) + size + Source.count e ≤ depth) :
    Completes c most (attributeUses b ctx e) := by
  refine completes_usesOf hb hc hsize _ fun d hd => ?_
  have hlt := count_lt_of_mem_parts hd
  omega

theorem completes_derivationOf (d : Element)
    (h : reserve size (most + closedGroups c ctx) + 1 ≤ depth) :
    Completes c most (derivationOf b ctx d) := by
  unfold derivationOf
  dsimp only
  split
  · exact .fail (by simp)
  · exact (completes_resolveType hb hc d _ h).bind (sound_resolveType hb.sound hc d _)
      fun _ => .pure _

include hsize in
theorem completes_simpleContent (bare : ComplexType) (content : Element)
    (h : reserve size (most + closedGroups c ctx) + size + Source.count content ≤ depth) :
    Completes c most (simpleContent b ctx bare content) := by
  refine .lift (derivation_ne_exhaustion content) fun d hd => ?_
  have hlt := count_lt_of_derivation hd
  exact (completes_derivationOf hb hc d (by omega)).bind (sound_derivationOf hb.sound hc d)
    fun _ => (completes_attributeUses hb hc hsize d (by omega)).bind
      (sound_attributeUses hb.sound hc d) fun _ => Completes.get.bind .get fun _ => .pure _

include hsize in
theorem completes_complexContent (id : TypeId) (bare : ComplexType) (mixed : Bool)
    (content : Element)
    (h : reserve size (most + closedGroups c ctx) + size + Source.count content ≤ depth) :
    Completes c most (complexContent b ctx id bare mixed content) := by
  refine .lift (derivation_ne_exhaustion content) fun d hd => ?_
  have hlt := count_lt_of_derivation hd
  exact (completes_derivationOf hb hc d (by omega)).bind (sound_derivationOf hb.sound hc d)
    fun _ => (completes_contentModel hb hc id d (by omega)).bind
      (sound_contentModel hb.sound hc id d) fun _ =>
        (completes_attributeUses hb hc hsize d (by omega)).bind
          (sound_attributeUses hb.sound hc d) fun _ => Completes.get.bind .get fun _ => .pure _

include hsize in
theorem completes_plainContent (id : TypeId) (bare : ComplexType) (mixed : Bool) (e : Element)
    (h : reserve size (most + closedGroups c ctx) + size + Source.count e ≤ depth) :
    Completes c most (plainContent b ctx id bare mixed e) :=
  (completes_contentModel hb hc id e h).bind (sound_contentModel hb.sound hc id e) fun _ =>
    (completes_attributeUses hb hc hsize e h).bind (sound_attributeUses hb.sound hc e)
      fun _ => .pure _

include hsize in
theorem completes_complexType (e : Element) (id : TypeId) (name : Option QName)
    (h : reserve size (most + closedGroups c ctx) + size + Source.count e ≤ depth) :
    Completes c most (complexType b ctx e id name) := by
  unfold complexType
  split
  · next hcontent =>
    have hlt := count_lt_of_part hcontent
    exact completes_simpleContent hb hc hsize _ _ (by omega)
  · next content _ hcontent =>
    have hlt := count_lt_of_part hcontent
    exact completes_complexContent hb hc hsize id _ _ content (by omega)
  · exact completes_plainContent hb hc hsize id _ _ e h

theorem completes_globalDef (e : Element) (id : TypeId) (name : Option QName)
    (h : reserve size (most + closedGroups c ctx) + size + Source.count e + 1 ≤ depth) :
    Completes c most (globalDef b ctx e id name) := by
  unfold globalDef
  split
  · exact (hb.complexType ctx e id name most hc h).bind (hb.sound.complexType ctx e id name hc)
      fun _ => .pure _
  · exact (hb.simpleType ctx e name most hc (by omega)).bind (hb.sound.simpleType ctx e name hc)
      fun _ => .pure _

include hsize in
/-- Beginning a type leaves one less to be begun. -/
theorem completes_ensureType (id : TypeId)
    (h : reserve size (most + closedGroups c ctx) ≤ depth) :
    Completes c most (ensureType b ctx id) := by
  intro p ho hw he
  unfold ensureType at he
  rw [get_bind] at he
  cases hbegun : p.hasBegun id with
  | true =>
    rw [if_pos hbegun] at he
    cases he
  | false =>
    rw [if_neg (by simp [hbegun]), find_types hc] at he
    cases hfind : Table.find id c.types with
    | none =>
      rw [hfind] at he
      cases he
    | some e =>
      rw [hfind] at he
      have hnew (state : BuildState) : (id, state) ∉ p.notes := fun hm => by
        rw [hasBegun_iff.2 ⟨state, hm⟩] at hbegun
        cases hbegun
      have ho' : InOrder c (p.begun id) := ho.begun (ho.globals id e hfind).1 hnew
      have hless := waiting_begun hfind hbegun
      have hcount : Source.count e ≤ size :=
        hsize.types _ (Table.mem_entries_of_get? (t := ⟨c.types⟩) hfind)
      have hreserve := reserve_of_lt size
        (show most - 1 + closedGroups c ctx < most + closedGroups c ctx by omega)
      have hdef : Completes c (most - 1) (globalDef b ctx e id (p.schema.typeDef id).name?) :=
        completes_globalDef hb hc e id _ (by omega)
      refine hdef (p.begun id) ho' (by omega) ?_
      change ((globalDef b ctx e id (p.schema.typeDef id).name? (p.begun id)).bind _) = _ at he
      cases hrun : globalDef b ctx e id (p.schema.typeDef id).name? (p.begun id) with
      | error fault =>
        rw [hrun] at he
        rw [Except.error.inj he]
      | ok x =>
        rw [hrun] at he
        cases he

theorem completes_ensureAll (types : List (TypeId × Element))
    (h : reserve size (most + closedGroups c ctx) + 1 ≤ depth) :
    Completes c most (ensureAll b ctx types) := by
  induction types with
  | nil => exact .pure _
  | cons t types ih =>
    exact (hb.ensure ctx t.1 most hc h).bind (hb.sound.ensure ctx t.1 hc) fun _ => ih

theorem completes_buildElements (elements : List (ElementId × Element))
    (h : ∀ x ∈ elements,
      reserve size (most + closedGroups c ctx) + size + Source.count x.2 ≤ depth) :
    Completes c most (buildElements b ctx elements) := by
  induction elements with
  | nil => exact .pure _
  | cons x elements ih =>
    refine Completes.get.bind .get fun p => ?_
    refine (completes_elementDecl hb hc x.2 _ none (h x (List.mem_cons_self ..))).bind
      (sound_elementDecl hb.sound hc x.2 _ none) fun decl => ?_
    refine Completes.bind (fun _ _ _ he => by cases he) (Sound.of_frame fun p _ q hrun => ?_)
      fun _ => ih fun x hx => h x (List.mem_cons_of_mem _ hx)
    cases hrun
    exact ⟨rfl, rfl, rfl, rfl⟩

include hsize in
theorem completes_buildAll (hall : ctx.types = c.types ∧ ctx.elements = c.elements)
    (h : reserve size (most + closedGroups c ctx) + 2 * size + 1 ≤ depth) :
    Completes c most (buildAll b ctx) := by
  refine (completes_ensureAll hb hc _ (by omega)).bind (sound_ensureAll hb.sound hc _) fun _ => ?_
  refine completes_buildElements hb hc _ fun x hx => ?_
  have hcount := hsize.elements x (hall.2 ▸ hx)
  omega

end Steps

/-- Builders complete what their depth allows for. -/
theorem completing_builders {c : Context} {size : Nat} (hsize : Bounded c size) (depth : Nat) :
    CompletingBuilders c size depth (builders depth) := by
  induction depth with
  | zero =>
    refine ⟨sound_builders c 0, ?_, ?_, ?_, ?_, ?_⟩
    · exact fun _ _ _ _ h => absurd h (by omega)
    · exact fun _ _ _ _ _ h => absurd h (by omega)
    · exact fun _ _ _ _ _ _ h => absurd h (by omega)
    · exact fun _ _ _ _ _ h => absurd h (by omega)
    · exact fun _ _ _ _ h => absurd h (by omega)
  | succ depth ih =>
    refine ⟨sound_builders c (depth + 1), ?_, ?_, ?_, ?_, ?_⟩
    · exact fun ctx id most hc h => completes_ensureType ih hc hsize id (by omega)
    · exact fun ctx e name most hc h => completes_simpleType ih hc e name (by omega)
    · exact fun ctx e id name most hc h => completes_complexType ih hc hsize e id name (by omega)
    · exact fun ctx enclosing e most hc h => completes_particle ih hc hsize enclosing e (by omega)
    · exact fun ctx e most hc h => completes_attributeUses ih hc hsize e (by omega)

end SchemaForms.Loader
