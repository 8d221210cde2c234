import SchemaForms.Proofs.Form.Expanding

/-!
Binds side by side.  The binds in an element stand in a row, each of them for one step of a path; a
switch has two, the one for the type of its element in front of that of the element itself.  Only
the binds in the element of a switch are made relevant for some types.
-/

namespace SchemaForms

open Synthesis
open Xml (Element)

/-- A step of a path: no slash is in it. -/
def IsStep (nodeset : String) : Prop := '/' ∉ nodeset.toList

/-- A bind has no relevance, unless it is one of those that are made relevant for some types; the
bind of a text is not. -/
def Bind.Spared (guarded : Bool) (b : Bind) : Prop :=
  b.relevant = none ∨ guarded = true ∧ b.nodeset ≠ "."

/-- A row of binds, for nodesets of some kind; they have relevance only if the row is in the element
of a switch. -/
inductive Row {α : Type} (bind? : α → Option Bind) : (String → Prop) → Bool → Forest α → Prop
  | nil {S guarded} : Row bind? S guarded .nil
  | other {S guarded a below after} (ha : bind? a = none) (inner : Row bind? S false below)
      (rest : Row bind? S guarded after) : Row bind? S guarded (.cons a below after)
  | single {S guarded a b below after} (ha : bind? a = some b)
      (hnodeset : b.nodeset = "." ∨ S b.nodeset) (hb : b.Spared guarded)
      (inner : Row bind? IsStep false below) (rest : Row bind? S guarded after) :
      Row bind? S guarded (.cons a below after)
  | switch {S guarded a d a' e below after} (ha : bind? a = some d) (ha' : bind? a' = some e)
      (hnodeset : S e.nodeset) (hempty : e.nodeset ≠ "") (hdot : e.nodeset ≠ ".")
      (htells : d.nodeset = e.nodeset ++ "/@xsi:type") (hd : d.Spared guarded)
      (he : e.Spared guarded) (inner : Row bind? IsStep true below)
      (rest : Row bind? S guarded after) :
      Row bind? S guarded (.cons a .nil (.cons a' below after))

namespace Row

variable {α β : Type} {bind? : α → Option Bind} {S : String → Prop} {guarded : Bool}
  {f f' : Forest α}

theorem append (h : Row bind? S guarded f) (h' : Row bind? S guarded f') :
    Row bind? S guarded (f ++ f') := by
  induction h with
  | nil => exact h'
  | other ha inner _ _ ih => exact .other ha inner (ih h')
  | single ha hnodeset hb inner _ _ ih => exact .single ha hnodeset hb inner (ih h')
  | switch ha ha' hnodeset hempty hdot htells hd he inner _ _ ih =>
    exact .switch ha ha' hnodeset hempty hdot htells hd he inner (ih h')

/-- Nodes that are no binds do not matter. -/
theorem of_no_binds (h : ∀ a ∈ f.labels, bind? a = none) : Row bind? S guarded f := by
  induction f generalizing guarded with
  | nil => exact .nil
  | cons a below after ihb iha =>
    simp only [Forest.labels_cons, List.mem_cons, List.mem_append] at h
    exact .other (h a (.inl rfl)) (ihb fun x hx => h x (.inr (.inl hx)))
      (iha fun x hx => h x (.inr (.inr hx)))

theorem map {bind? : β → Option Bind} {h : α → β} {f : Forest α}
    (hf : Row (fun a => bind? (h a)) S guarded f) : Row bind? S guarded (f.map h) := by
  induction hf with
  | nil => exact .nil
  | other ha _ _ ihb iha => exact .other ha ihb iha
  | single ha hnodeset hb _ _ ihb iha => exact .single ha hnodeset hb ihb iha
  | switch ha ha' hnodeset hempty hdot htells hd he _ _ ihb iha =>
    exact .switch ha ha' hnodeset hempty hdot htells hd he ihb iha

end Row

/-- What may become of a bind with the types of a switch: its relevance, unless it is for a text. -/
structure Kid.Regards (kid kid' : Kid) : Prop where
  below : kid'.below = kid.below
  nodeset : kid'.bind.nodeset = kid.bind.nodeset
  text : kid.bind.nodeset = "." → kid'.bind.relevant = kid.bind.relevant

theorem Kid.Regards.spared {kid kid' : Kid} (h : kid.Regards kid') (hkid : kid.bind.Spared true) :
    kid'.bind.Spared true := by
  by_cases hdot : kid.bind.nodeset = "."
  · exact .inl ((h.text hdot).trans (hkid.resolve_right fun hn => hn.2 hdot))
  · exact .inr ⟨rfl, h.nodeset ▸ hdot⟩

/-- The binds in the element of a switch may be made relevant for some types. -/
theorem Row.regards {S : String → Prop} {kids kids' : List Kid}
    (h : Row some S true (Kid.forest kids)) (hkids : List.Forall₂ Kid.Regards kids kids') :
    Row some S true (Kid.forest kids') := by
  generalize hf : Kid.forest kids = f at h
  generalize hguarded : true = guarded at h
  induction h generalizing kids kids' with
  | nil =>
    cases hkids with
    | nil => exact .nil
    | cons => cases hf
  | other ha => cases ha
  | single ha hnodeset hb inner _ _ ih =>
    cases ha
    cases hguarded
    cases hkids with
    | nil => cases hf
    | cons hkid hrest =>
      cases hf
      refine .single rfl (hkid.nodeset ▸ hnodeset) (hkid.spared hb) ?_ (ih hrest rfl rfl)
      rwa [hkid.below]
  | switch ha ha' hnodeset hempty hdot htells hd he inner _ _ ih =>
    cases ha
    cases ha'
    cases hguarded
    cases hkids with
    | nil => cases hf
    | cons hkid hrest =>
      cases hrest with
      | nil =>
        injection hf with _ _ hforest
        cases hforest
      | cons hkid' hrest =>
        injection hf with hbind hbelow hforest
        injection hforest with hbind' hbelow' hforest'
        subst hbind hbind' hbelow' hforest'
        rw [Kid.forest, Kid.forest, hkid.below, hkid'.below, hbelow]
        refine .switch rfl rfl ?_ ?_ ?_ ?_ (hkid.spared hd) (hkid'.spared he) inner
          (ih hrest rfl rfl)
        · exact hkid'.nodeset ▸ hnodeset
        · exact hkid'.nodeset ▸ hempty
        · exact hkid'.nodeset ▸ hdot
        · rw [hkid.nodeset, hkid'.nodeset, htells]

/-- Notes on kids are not seen in the forest of their binds. -/
theorem Kid.forest_eq {kids kids' : List Kid}
    (h : kids.map (fun kid => (kid.bind, kid.below)) = kids'.map fun kid => (kid.bind, kid.below)) :
    Kid.forest kids = Kid.forest kids' := by
  have hforest (kids : List Kid) : Kid.forest kids =
      (kids.map fun kid => (kid.bind, kid.below)).foldr (fun c f => .cons c.1 c.2 f) .nil := by
    induction kids with
    | nil => rfl
    | cons kid kids ih =>
      rw [Kid.forest, ih]
      rfl
  rw [hforest, hforest, h]

theorem Kid.forest_share (nodeset : String) (kids : List Kid) :
    Kid.forest (Sketch.share nodeset kids) = Kid.forest kids := by
  induction kids with
  | nil => rfl
  | cons kid kids ih =>
    rw [Sketch.share]
    split
    · rfl
    · rw [Kid.forest, Kid.forest, ih]

/-- What the types of a case do to the binds of an element. -/
theorem Kid.regards_guardKids (existing : Nat) (conditions : List String) (kids : List Kid) :
    List.Forall₂ Kid.Regards kids (Sketch.guardKids existing conditions kids) := by
  have hguard (isNew : Bool) (kid : Kid) :
      kid.Regards (Sketch.guardKid isNew conditions kid) := by
    unfold Sketch.guardKid
    split
    · exact ⟨rfl, rfl, fun _ => rfl⟩
    · next hdot =>
      split
      · exact ⟨rfl, rfl, fun h => absurd h hdot⟩
      · split
        · exact ⟨rfl, rfl, fun h => absurd h hdot⟩
        · exact ⟨rfl, rfl, fun _ => rfl⟩
  have hall (isNew : Bool) (kids : List Kid) :
      List.Forall₂ Kid.Regards kids (kids.map (Sketch.guardKid isNew conditions)) := by
    rw [List.forall₂_map_right_iff]
    exact List.forall₂_same.2 fun kid _ => hguard isNew kid
  have happend : List.Forall₂ Kid.Regards (kids.take existing ++ kids.drop existing)
      (Sketch.guardKids existing conditions kids) := List.rel_append (hall false _) (hall true _)
  rwa [List.take_append_drop] at happend

/-! Names as steps. -/

/-- The name of an element is a step, and if types can be chosen for the element, it is more than a
dot. -/
theorem Schema.NCNamed.isStep_element {g : Generator} (h : g.schema.NCNamed) {t : PrefixTable}
    (ht : t.Apart) {id : ElementId} {x : String} (hx : t.textOf (g.schema.element id).name = some x) :
    IsStep x ∧ (¬ g.Plain id → x ≠ "" ∧ x ≠ ".") := by
  refine ⟨ht.not_mem_textOf hx (h.not_mem_element id (by decide)) (by decide) (by decide), ?_⟩
  intro hplain
  unfold PrefixTable.textOf at hx
  cases hns : (g.schema.element id).name.nspace with
  | none =>
    rw [hns] at hx
    obtain ⟨hdot, -, hempty⟩ := h.steplike id hns
    exact Option.some.inj hx ▸ ⟨fun he => hplain (hempty he), hdot⟩
  | some ns =>
    rw [hns] at hx
    obtain ⟨p, -, rfl⟩ := Option.map_eq_some_iff.1 hx
    have hcolon : ':' ∈ (p ++ ":" ++ (g.schema.element id).name.localName).toList := by simp
    constructor
    · intro he
      rw [he] at hcolon
      exact absurd hcolon (by decide)
    · intro he
      rw [he] at hcolon
      exact absurd hcolon (by decide)

theorem Schema.NCNamed.isStep_use {s : Schema} (h : s.NCNamed) {t : PrefixTable} (ht : t.Apart)
    {id : UseId} {x : String} (hx : t.textOf (s.use id).decl.name = some x) : IsStep ("@" ++ x) := by
  have hslash : '/' ∉ x.toList :=
    ht.not_mem_textOf hx (h.not_mem_use id (by decide)) (by decide) (by decide)
  simpa [IsStep] using hslash

namespace Sketch

variable {α β : Type} {g : Generator} {S : String → Prop} {guarded : Bool}

/-- A sketch keeps the binds of the element in a row. -/
def Aligns (S : String → Prop) (guarded : Bool) (p : Sketch α) : Prop :=
  ∀ (d : Draft) (s : Synthesis), Row some S guarded (Kid.forest d.kids) → s.prefixes.Apart →
    p.Ends d s fun _ d' s' => Row some S guarded (Kid.forest d'.kids) ∧ s'.prefixes.Apart

namespace Aligns

variable {p : Sketch α}

theorem pure (a : α) : Aligns S guarded (Pure.pure a : Sketch α) := fun _ _ hd hs => ⟨hd, hs⟩

theorem bind {q : α → Sketch β} (hp : Aligns S guarded p) (hq : ∀ a, Aligns S guarded (q a)) :
    Aligns S guarded (p >>= q) := by
  intro d s hd hs
  rw [ends_bind]
  exact (hp d s hd hs).mono fun a d' s' ⟨hd', hs'⟩ => hq a d' s' hd' hs'

/-- After a step, and what it gives. -/
theorem lifted {f : Synth β} {k : β → Sketch α} (hf : Calm f) (R : β → Prop)
    (hR : ∀ s : Synthesis, s.prefixes.Apart → R (f s).1) (hk : ∀ b, R b → Aligns S guarded (k b)) :
    Aligns S guarded (liftM f >>= k) := fun d s hd hs =>
  hk _ (hR s hs) d _ hd ((hf s).prefixes.apart hs)

theorem after {f : Synth β} (hf : Calm f) {k : β → Sketch α} (hk : ∀ b, Aligns S guarded (k b)) :
    Aligns S guarded (liftM f >>= k) :=
  lifted hf (fun _ => True) (fun _ _ => trivial) fun b _ => hk b

theorem look {k : Draft → Sketch α} (hk : ∀ d, Aligns S guarded (k d)) :
    Aligns S guarded (get >>= k) := fun d s => hk d d s

theorem leaves (cs : List Control) : Aligns S guarded (Sketch.leaves cs) := fun _ _ hd hs => ⟨hd, hs⟩

theorem within (hp : Aligns S guarded p) (cs : List Control) (c : Control) :
    Aligns S guarded (Sketch.within cs c p) := fun d s hd hs =>
  hp { d with controls := .nil } s hd hs

theorem slot (hp : Aligns S guarded p) : Aligns S guarded (Sketch.slot p) := by
  intro d s hd hs
  rw [ends_slot]
  refine (hp { d with controls := .nil } s hd hs).mono fun a d' s' ⟨hd', hs'⟩ => ⟨?_, hs'⟩
  rw [forest_settle]
  exact hd'

/-- A bind for one step, around a row of others. -/
theorem withKid {b : Bind} {nodeset : String} (hb : b.relevant = none)
    (hnodeset : nodeset = "." ∨ S nodeset) (hp : Aligns IsStep false p) :
    Aligns S guarded (Sketch.withKid b nodeset p) := by
  intro d s hd hs
  rw [ends_withKid]
  intro id kid
  have hs' := (Calm.allocate "bind" s).prefixes.apart hs
  refine (hp _ _ .nil hs').mono fun a d' s' ⟨hd', hs'⟩ => ⟨?_, hs'⟩
  rw [Kid.forest_append]
  exact hd.append (.single rfl hnodeset (.inl hb) hd' .nil)

/-- The two binds of a switch. -/
theorem withKids {b : Bind} {path : String} {q : String → Sketch α} (hb : b.relevant = none)
    (hpath : S path) (hempty : path ≠ "") (hdot : path ≠ ".")
    (hq : ∀ id, Aligns IsStep true (q id)) :
    Aligns S guarded (Sketch.withKid b (path ++ "/@xsi:type") ownId >>= fun id =>
      Sketch.withKid {} path (q id)) := by
  intro d s hd hs
  rw [ends_bind, ends_withKid]
  intro id kid
  rw [ownId, ends_bind, ends_get, ends_pure, ends_withKid]
  intro id' kid'
  have hs' := (Calm.allocate "bind" _).prefixes.apart ((Calm.allocate "bind" s).prefixes.apart hs)
  refine (hq _ _ _ .nil hs').mono fun a d' s' ⟨hd', hs'⟩ => ⟨?_, hs'⟩
  rw [Kid.forest_append, Kid.forest_append, Forest.append_assoc]
  exact hd.append (.switch rfl rfl hpath hempty hdot rfl (.inl hb) (.inl rfl) hd' .nil)

theorem repeatOf (hp : Aligns S guarded p) (id : String) (bind : Option String) :
    Aligns S guarded (Sketch.repeatOf id bind p) :=
  .after (Calm.reportUngoverned id bind) fun _ => .after (Calm.repeatActions id bind) fun _ =>
    hp.within _ _

theorem repeated (hp : Aligns S guarded p) (bind : Option String) :
    Aligns S guarded (Sketch.repeated bind p) :=
  .after (Calm.allocate "repeat") fun id => hp.repeatOf id bind

theorem items (hp : Aligns S guarded p) (bind : Option String) (occurs : Occurs) :
    Aligns S guarded (Sketch.items bind occurs p) := by
  unfold Sketch.items
  split
  · exact hp.repeated bind
  · exact hp

theorem groupItems (hp : Aligns S guarded p) (occurs : Occurs) :
    Aligns S guarded (Sketch.groupItems occurs p) := by
  unfold Sketch.groupItems
  split
  · exact .after (Calm.allocate "repeat") fun id => .look fun d => hp.repeatOf id d.governing
  · exact hp

end Aligns

/-- Children align the binds that they are given a path for. -/
def ChildSketch.Aligns (g : Generator) (child : ChildSketch) : Prop :=
  ∀ (S : String → Prop) (guarded : Bool) (e : Element) (id : ElementId) (path : String)
    (occurs : Occurs), S path → (¬ g.Plain id → path ≠ "" ∧ path ≠ ".") →
    Sketch.Aligns S guarded (child e id path occurs)

theorem aligns_valueControl (t : TypeId) (owner : Generator.Owner) :
    Aligns S guarded (valueControl g t owner) :=
  .look fun d => .after (Calm.fieldControl t (d.own.getD "")) fun _ => .leaves _

theorem aligns_field (t : TypeId) (owner : Generator.Owner) {path : String}
    (hpath : path = "." ∨ S path) (occurs : Occurs) : Aligns S guarded (field g t owner path occurs) := by
  refine .withKid rfl hpath ?_
  split
  · exact .look fun d => .after (Calm.allocate "group") fun id =>
      .within (.repeated (.withKid rfl (.inl rfl) (aligns_valueControl t owner)) d.around) _ _
  · exact aligns_valueControl t owner

theorem aligns_text (f : Role) (t : ComplexType) : Aligns S guarded (text g f t) := by
  unfold text
  dsimp only
  split
  · exact .slot (aligns_field _ _ (.inl rfl) _)
  · exact .slot (aligns_field _ _ (.inl rfl) _)
  · exact .pure _

theorem aligns_reuses (f : Role) (isInherited : Bool) (nodeset : String) :
    Aligns S guarded (reuses f isInherited nodeset) := by
  unfold reuses
  split
  · intro d s hd hs
    unfold Ends reuse
    cases d.kids.find? (·.bind.nodeset = nodeset) with
    | none => exact ⟨hd, hs⟩
    | some kid =>
      cases hsource : kid.source with
      | none =>
        simp only [hsource]
        exact ⟨hd, hs⟩
      | some source =>
        obtain ⟨k, below⟩ := source
        simp only [hsource]
        refine ⟨?_, hs⟩
        change Row some S guarded (Kid.forest (share nodeset d.kids))
        rwa [Kid.forest_share]
  · exact .pure false

theorem aligns_use (hg : g.schema.NCNamed) (f : Role) (e : Element) (id : UseId) :
    Aligns IsStep guarded (use g f e id) := by
  refine .lifted (Calm.qualified _) (fun a => IsStep ("@" ++ a.2)) (fun s hs => ?_)
    fun ⟨nsPrefix, name⟩ hname => ?_
  · exact hg.isStep_use ((Calm.qualified _ s).prefixes.apart hs) (textOf_qualified _ s)
  · refine (aligns_reuses _ _ _).bind fun reused => ?_
    split
    · exact .pure e
    · split
      · exact .after (Calm.report _) fun _ => .pure e
      · exact (Aligns.slot (aligns_field _ _ (.inr hname) _)).bind fun _ => .pure _

theorem aligns_uses (hg : g.schema.NCNamed) (f : Role) (e : Element) (ids : List UseId) :
    Aligns IsStep guarded (uses g f e ids) := by
  induction ids generalizing e with
  | nil => exact .pure e
  | cons id ids ih => exact (aligns_use hg f e id).bind fun e => ih e

theorem aligns_childElement (hg : g.schema.NCNamed) {child : ChildSketch} (hchild : child.Aligns g)
    (f : Role) (e : Element) (id : ElementId) (occurs : Occurs) :
    Aligns IsStep guarded (childElement g child f e id occurs) := by
  unfold childElement
  split
  · exact .pure e
  · refine .lifted (Calm.qualified _)
      (fun a => IsStep a.2 ∧ (¬ g.Plain id → a.2 ≠ "" ∧ a.2 ≠ ".")) (fun s hs => ?_)
      fun ⟨nsPrefix, name⟩ ⟨hstep, hname⟩ => ?_
    · exact hg.isStep_element ((Calm.qualified _ s).prefixes.apart hs) (textOf_qualified _ s)
    · refine (aligns_reuses _ _ _).bind fun reused => ?_
      split
      · exact .pure e
      · refine (Aligns.slot (hchild _ _ _ id name occurs hstep hname)).bind fun data => ?_
        split
        · exact .pure _
        · exact .pure e

mutual

theorem aligns_particle (hg : g.schema.NCNamed) {child : ChildSketch} (hchild : child.Aligns g)
    (f : Role) (e : Element) : ∀ p, Aligns IsStep guarded (particle g child f e p)
  | .element occurs id => aligns_childElement hg hchild f e id occurs
  | .group occurs _ members => (aligns_particles hg hchild f e members).groupItems occurs
  | .wildcard _ _ => .after (Calm.report _) fun _ => .pure e

theorem aligns_particles (hg : g.schema.NCNamed) {child : ChildSketch} (hchild : child.Aligns g)
    (f : Role) (e : Element) : ∀ ps, Aligns IsStep guarded (particles g child f e ps)
  | [] => .pure e
  | p :: ps => (aligns_particle hg hchild f e p).bind fun e' => aligns_particles hg hchild f e' ps

end

section Content

variable (hg : g.schema.NCNamed) {child : ChildSketch} (hchild : child.Aligns g)

include hg hchild

theorem aligns_complex (f : Role) (e : Element) (occurs : Occurs) :
    Aligns IsStep guarded (complex g child f e occurs) := by
  unfold complex
  split
  · exact .pure e
  · refine .look fun d => .after (Calm.allocate "group") fun id => .within (.items ?_ _ _) _ _
    refine (aligns_text f _).bind fun _ => (aligns_uses hg f e _).bind fun e' => ?_
    unfold contentModel
    split
    · exact aligns_particle hg hchild f e' _
    · exact .pure e'

/-- A case only makes binds relevant for its types that stand in the element of the switch. -/
theorem aligns_typeCase (owner : ElementId) (declared : TypeId) (isFirst : Bool) (e : Element)
    (t : TypeId) (caseId : String) :
    Aligns IsStep true (typeCase g child owner declared isFirst e t caseId) := by
  refine .within (.look fun d => ?_) _ _
  refine (aligns_complex hg hchild _ _ .once).bind fun data => Aligns.bind ?_ fun _ =>
    Aligns.bind ?_ fun _ => .pure _
  · unfold guardCase
    split
    · refine .after (Calm.typeConditions _) fun conditions d' s hd hs => ⟨?_, hs⟩
      exact hd.regards (Kid.regards_guardKids _ conditions d'.kids)
    · exact .pure ()
  · refine fun d s hd hs => ⟨?_, hs⟩
    have hkids : Kid.forest (d.kids.map fun kid => { kid with shared := false }) =
        Kid.forest d.kids := Kid.forest_eq (by rw [List.map_map]; rfl)
    exact hkids ▸ hd

theorem aligns_typeCases (owner : ElementId) (declared : TypeId) (isFirst : Bool) (e : Element)
    (cases : List (TypeId × String)) :
    Aligns IsStep true (typeCases g child owner declared isFirst e cases) := by
  induction cases generalizing isFirst e with
  | nil => exact .pure e
  | cons c cases ih =>
    exact (aligns_typeCase hg hchild owner declared isFirst e c.1 c.2).bind fun e => ih false e

theorem aligns_switch (e : Element) (owner : ElementId) (declared : TypeId) (types : List TypeId)
    {path : String} (hpath : S path) (hempty : path ≠ "") (hdot : path ≠ ".") (occurs : Occurs) :
    Aligns S guarded (switch g child e owner declared types path occurs) := by
  refine .after (Calm.allocate "select1") fun selectId => ?_
  refine .withKids (relevant_typeBind g _ _) hpath hempty hdot fun typeBindId => ?_
  refine .look fun d => .items ?_ _ _
  refine .after (Calm.promptChoice _ _) fun prompt => .after (Calm.typeChoices types) fun choices => ?_
  refine (Aligns.leaves _).bind fun _ => ?_
  refine .after (Calm.allocate "trigger") fun triggerId => .after (Calm.allocate "action")
    fun actionId => .after (Calm.allocate "dispatch") fun dispatchId => ?_
  refine (Aligns.leaves _).bind fun _ => .after (Calm.allocate "switch") fun switchId => ?_
  exact .within (.after (Calm.typeValue _) fun first =>
    aligns_typeCases hg hchild owner declared true _ _) _ _

theorem aligns_plain (e : Element) (owner : ElementId) (declared resolved : TypeId)
    {path : String} (hpath : S path) (occurs : Occurs) :
    Aligns S guarded (plain g child e owner declared resolved path occurs) := by
  have hkid (e : Element) : Aligns S guarded (withKid {} path
      (complex g child ⟨resolved, owner, false⟩ e occurs)) :=
    .withKid rfl (.inr hpath) (aligns_complex hg hchild _ e occurs)
  unfold plain
  split
  · exact hkid e
  · exact .after (Calm.typeValue resolved) fun value => hkid _

theorem aligns_expand : ChildSketch.Aligns g (expand g child) := by
  intro S guarded e id path occurs hpath hplain
  have hleave {p : Sketch Element} (hp : Aligns S guarded p) : Aligns S guarded (do
      let data ← p
      leave
      return some data : Sketch (Option Element)) :=
    hp.bind fun data d s hd hs => ⟨hd, hs⟩
  unfold expand
  dsimp only
  split
  · exact .after (Calm.report _) fun _ => .pure none
  · next t htype =>
    split
    · exact (aligns_field t _ (.inr hpath) occurs).bind fun _ => .pure _
    · next hcomplex =>
      intro d s hd hs
      rw [ends_bind, ends_lift]
      have hs' : (enter id t s).2.prefixes = s.prefixes := by
        unfold enter
        split <;> rfl
      refine (?_ : Aligns S guarded _) d _ hd (hs'.symm ▸ hs)
      split
      · split
        · exact hleave (aligns_plain hg hchild e id t t hpath occurs)
        · next resolved _ => exact hleave (aligns_plain hg hchild e id t resolved hpath occurs)
        · next types hnil hone =>
          have hswitched : ¬ g.Plain id := by
            intro h
            have hlength := h t htype (by simpa [Option.isSome_iff_ne_none] using hcomplex)
            match hc : g.candidates t, hlength with
            | [], _ => exact hnil hc
            | [resolved], _ => exact hone resolved hc
          obtain ⟨hempty, hdot⟩ := hplain hswitched
          exact hleave (aligns_switch hg hchild e id t _ hpath hempty hdot occurs)
      · exact .after (Calm.report _) fun _ => .pure none

end Content

/-- Whatever is made for an element, binds stand in rows in it. -/
theorem aligns_element (hg : g.schema.NCNamed) (openings : Nat) :
    ChildSketch.Aligns g (element g openings) := by
  induction openings with
  | zero => exact fun _ _ _ _ _ _ _ _ => .pure none
  | succ openings ih => exact aligns_expand hg ih

end Sketch

end SchemaForms
