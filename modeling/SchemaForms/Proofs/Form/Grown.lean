import SchemaForms.Proofs.Form.Drawing
import SchemaForms.Proofs.Form.Growing

/-!
Every sketch grows by the steps there are.
-/

namespace SchemaForms

open Synthesis
open Forest (tree leaf)
open Xml (Element)

/-- The binds that a draft has been told of. -/
structure Place where
  own : Option String
  above : Option String
  around : Option String

def Draft.place (d : Draft) : Place := ⟨d.own, d.above, d.around⟩

/-- The binds that a draft has been told of are around it. -/
def Place.Known (φ : Place) (K : List Bind) : Prop :=
  ∀ id ∈ φ.own.toList ++ φ.above.toList ++ φ.around.toList, ∃ b ∈ K, b.id = id

theorem Kid.roots_forest (kids : List Kid) : (Kid.forest kids).roots = kids.map (·.bind) := by
  induction kids with
  | nil => rfl
  | cons kid kids ih => rw [Kid.forest, Forest.roots, ih, List.map_cons]

theorem Kid.forest_append (ks ks' : List Kid) :
    Kid.forest (ks ++ ks') = Kid.forest ks ++ Kid.forest ks' := by
  induction ks with
  | nil => rfl
  | cons k ks ih =>
    rw [List.cons_append, Kid.forest, Kid.forest, ih]
    rfl

section Known

variable {K : List Bind} {d : Draft}

theorem Draft.mem_known {b : Bind} (h : b ∈ K) : b ∈ d.known K := List.mem_append_left _ h

theorem Kid.mem_forest {kids : List Kid} {kid : Kid} (h : kid ∈ kids) :
    kid.bind ∈ (Kid.forest kids).labels := by
  induction kids with
  | nil => cases h
  | cons k ks ih =>
    rw [Kid.forest, Forest.labels_cons]
    rcases List.mem_cons.1 h with rfl | h
    · exact List.mem_cons_self ..
    · exact List.mem_cons_of_mem _ (List.mem_append_right _ (ih h))

theorem Kid.lastElement_mem {kids : List Kid} {id : String} (h : id ∈ Kid.lastElement kids) :
    ∃ b ∈ (Kid.forest kids).labels, b.id = id := by
  obtain ⟨b, hb, rfl⟩ := Option.map_eq_some_iff.1 h
  obtain ⟨kid, hkid, rfl⟩ := List.mem_map.1 (List.mem_of_find?_eq_some hb)
  exact ⟨kid.bind, Kid.mem_forest (List.mem_reverse.1 hkid), rfl⟩

theorem Place.Known.governing (h : d.place.Known K) {id : String} (hid : id ∈ d.governing) :
    ∃ b ∈ d.known K, b.id = id := by
  unfold Draft.governing at hid
  cases hlast : Kid.lastElement d.kids with
  | some last =>
    rw [hlast] at hid
    obtain ⟨b, hb, he⟩ := Kid.lastElement_mem (Option.mem_def.2 hlast)
    cases hid
    exact ⟨b, List.mem_append_right _ hb, he⟩
  | none =>
    rw [hlast] at hid
    have habove : d.above = some id := hid
    obtain ⟨b, hb, he⟩ := h id (by simp [Draft.place, habove])
    exact ⟨b, Draft.mem_known hb, he⟩

/-- The bind around a draft is there for its controls. -/
theorem Place.Known.own (h : d.place.Known K) {id : String} (hid : id ∈ d.own) :
    ∃ b ∈ d.known K, b.id = id := by
  obtain ⟨b, hb, he⟩ := h id (by simp [Draft.place, Option.mem_def.1 hid])
  exact ⟨b, Draft.mem_known hb, he⟩

theorem Place.Known.around (h : d.place.Known K) {id : String} (hid : id ∈ d.around) :
    ∃ b ∈ d.known K, b.id = id := by
  obtain ⟨b, hb, he⟩ := h id (by simp [Draft.place, Option.mem_def.1 hid])
  exact ⟨b, Draft.mem_known hb, he⟩

/-- A new bind is around what is made for it, as are those before it. -/
theorem Place.Known.withKid (h : d.place.Known K) (b : Bind) :
    let kids := d.kids ++ [({ bind := b } : Kid)]
    Place.Known ⟨some b.id, Kid.lastElement kids, Draft.governing { d with kids := kids }⟩
      (d.known K ++ [b]) := by
  intro kids
  have hlabels : d.known K ++ [b] = Draft.known K { d with kids := kids } := by
    simp [kids, Draft.known, Kid.forest_append, Kid.forest]
  rw [hlabels]
  intro id hid
  simp only [List.mem_append, Option.mem_toList] at hid
  rcases hid with (hid | hid) | hid
  · cases hid
    refine ⟨b, ?_, rfl⟩
    rw [← hlabels]
    exact List.mem_append_right _ (List.mem_singleton_self b)
  · obtain ⟨b', hb, he⟩ := Kid.lastElement_mem hid
    exact ⟨b', List.mem_append_right _ hb, he⟩
  · exact Place.Known.governing (d := { d with kids := kids }) h hid

end Known

namespace Sketch

variable {α β : Type} {g : Generator} {φ : Place} {B : List Bind}

/-- From one draft on, a sketch grows by steps that use up some identifiers, give out others, and
leave the draft where it is. -/
def GrownAt (g : Generator) (K : List Bind) (d : Draft) (pre : List String)
    (out : α → List String) (p : Sketch α) : Prop :=
  ∀ s P, s.prefixes.Clean →
    Grows g K d s (pre ++ P) (p d s).1.2 (p d s).2 (out (p d s).1.1 ++ P) ∧
      (p d s).1.2.place = d.place

/-- Wherever a draft has been told of some binds, and some others are around it, a sketch grows by
such steps. -/
def Grown (g : Generator) (φ : Place) (B : List Bind) (pre : List String) (out : α → List String)
    (p : Sketch α) : Prop :=
  ∀ K d, d.place = φ → φ.Known K → B ⊆ K → GrownAt g K d pre out p

/-- A sketch that uses up all it gives out. -/
abbrev Grown' (g : Generator) (p : Sketch α) : Prop := ∀ φ, Grown g φ [] [] (fun _ => []) p

namespace Grown

theorem pure (a : α) (pre : List String) : Grown g φ B pre (fun _ => pre) (pure a : Sketch α) :=
  fun _ _ _ _ _ _ _ _ => ⟨.perm (.refl _), rfl⟩

theorem bind {p : Sketch α} {q : α → Sketch β} {pre : List String} {mid : α → List String}
    {out : β → List String} (hp : Grown g φ B pre mid p)
    (hq : ∀ a, Grown g φ B (mid a) out (q a)) : Grown g φ B pre out (p >>= q) := by
  intro K d hφ hK hB s P hs
  obtain ⟨hgrows, hplace⟩ := hp K d hφ hK hB s P hs
  obtain ⟨hgrows', hplace'⟩ := hq _ K _ (hplace.trans hφ) hK hB (p d s).2 P (hgrows.onward.clean hs)
  exact ⟨hgrows.trans hgrows', hplace'.trans hplace⟩

/-- Identifiers that a sketch does not use stay for later. -/
theorem frame {p : Sketch α} {pre : List String} {out : α → List String}
    (hp : Grown g φ B pre out p) (R : List String) :
    Grown g φ B (pre ++ R) (fun a => out a ++ R) p := by
  intro K d hφ hK hB s P hs
  rw [List.append_assoc]
  have h := hp K d hφ hK hB s (R ++ P) hs
  rw [← List.append_assoc (out _)] at h
  exact h

theorem mono {p : Sketch α} {B' : List Bind} {pre : List String} {out : α → List String}
    (hp : Grown g φ B pre out p) (h : B ⊆ B') : Grown g φ B' pre out p :=
  fun K d hφ hK hB => hp K d hφ hK (List.Subset.trans h hB)

theorem look {P : Draft → Sketch α} {pre : List String} {out : α → List String}
    (h : ∀ d : Draft, d.place = φ → Grown g φ B pre out (P d)) :
    Grown g φ B pre out (get >>= P) :=
  fun K d hφ hK hB => h d hφ K d hφ hK hB

theorem lifted {f : Synth α} {q : α → Sketch β} {pre : List String} {out : β → List String}
    (given : α → List String) (R : α → Prop) (hf : Minting f given)
    (hR : ∀ s : Synthesis, s.prefixes.Clean → R (f s).1)
    (hq : ∀ a, R a → Grown g φ B (given a ++ pre) out (q a)) :
    Grown g φ B pre out (StateT.lift f >>= q) := by
  intro K d hφ hK hB s P hs
  obtain ⟨hgrows, hplace⟩ := hq _ (hR s hs) K d hφ hK hB (f s).2 P ((hf s).clean hs)
  rw [List.append_assoc] at hgrows
  exact ⟨(Grows.mint (hf s)).trans hgrows, hplace⟩

theorem led {f : Synth α} {q : α → Sketch β} {pre : List String} {out : β → List String}
    (hf : Leading f) (hq : ∀ a, Grown g φ B pre out (q a)) :
    Grown g φ B pre out (StateT.lift f >>= q) :=
  lifted (fun _ => []) (fun _ => True) (fun s => (hf s).mints) (fun _ _ => trivial)
    fun a _ => hq a

theorem allocated {name : String} {q : String → Sketch β} {pre : List String}
    {out : β → List String}
    (hq : ∀ n, Grown g φ B (Identifiers.identifier name n :: pre) out
      (q (Identifiers.identifier name n))) :
    Grown g φ B pre out (StateT.lift (allocate name) >>= q) :=
  lifted (fun id => [id]) (fun id => ∃ n, id = Identifiers.identifier name n)
    (fun s => mints_allocate s name) (fun _ _ => ⟨_, rfl⟩) fun _ ⟨n, hid⟩ => hid ▸ hq n

theorem slot {p : Sketch α} {pre : List String} {out : α → List String}
    (hp : Grown g φ B pre out p) : Grown g φ B pre out (Sketch.slot p) := by
  intro K d hφ hK hB s P hs
  obtain ⟨hgrows, hplace⟩ := hp K { d with controls := .nil } hφ hK hB s P hs
  exact ⟨.slot hgrows, hplace⟩

theorem box {p : Sketch α} {c : Control} {pre used : List String} {out : α → List String}
    (hc : c.IsBox) (hnamed : c.Named) (hbind : ∀ id ∈ c.bind, id ∈ φ.own)
    (hused : used = c.id :: pre) (hp : Grown g φ B pre out p) :
    Grown g φ B used out (Sketch.within [] c p) := by
  intro K d hφ hK hB s P hs
  subst hused
  obtain ⟨hgrows, hplace⟩ := hp K { d with controls := .nil } hφ hK hB s P hs
  subst hφ
  exact ⟨.box c hc hnamed (fun id hid => hK.own (hbind id hid)) hgrows, hplace⟩

/-- Around what is made for a new bind are the binds that were there. -/
theorem withKid_at {p : Sketch α} {b : Bind} {nodeset : String} {pre : List String}
    {out : α → List String} {K : List Bind} {d : Draft} (hK : d.place.Known K)
    (hB : B ⊆ d.known K) (hp : ∀ id above around, Grown g ⟨some id, above, around⟩ B pre out p) :
    GrownAt g K d pre out (Sketch.withKid b nodeset p) := by
  intro s P hs
  let own : Bind := { b with id := (allocate "bind" s).1, nodeset := nodeset }
  let kids := d.kids ++ [({ bind := own } : Kid)]
  have hknown := hK.withKid own
  obtain ⟨hgrows, -⟩ := hp own.id (Kid.lastElement kids) (Draft.governing { d with kids := kids })
    (d.known K ++ [own]) ⟨some own.id, Kid.lastElement kids,
      Draft.governing { d with kids := kids }, [], d.controls, d.copies⟩ rfl hknown
    (List.Subset.trans hB (List.subset_append_left ..)) (allocate "bind" s).2 P hs
  exact ⟨(Grows.mint (mints_allocate s "bind")).trans (.kid own _ _ _ hgrows), rfl⟩

theorem withKid {p : Sketch α} {b : Bind} {nodeset : String} {pre : List String}
    {out : α → List String} (hp : ∀ id above around, Grown g ⟨some id, above, around⟩ B pre out p) :
    Grown g φ B pre out (Sketch.withKid b nodeset p) := by
  intro K d hφ hK hB
  subst hφ
  exact withKid_at hK (List.Subset.trans hB (List.subset_append_left ..)) hp

/-- Around what is made for a bind, the bind beside it is known. -/
theorem withKid_beside {q : String → Sketch α} {b b' : Bind} {nodeset nodeset' : String}
    {pre : List String} {out : α → List String}
    (hq : ∀ beside id above around, Grown g ⟨some id, above, around⟩
      ({ b with id := beside, nodeset := nodeset } :: B) pre out (q beside)) :
    Grown g φ B pre out (Sketch.withKid b nodeset ownId >>= fun beside =>
      Sketch.withKid b' nodeset' (q beside)) := by
  intro K d hφ hK hB s P hs
  subst hφ
  let own : Bind := { b with id := (allocate "bind" s).1, nodeset := nodeset }
  let d' : Draft := { d with kids := d.kids ++ [({ bind := own } : Kid)] }
  have hstep : Grows g K d s (pre ++ P) d' (allocate "bind" s).2 (pre ++ P) := by
    apply (Grows.mint (mints_allocate s "bind")).trans
    exact .kid own none none none (.perm (.refl _))
  have hbeside : own :: B ⊆ d'.known K := by
    intro b hb
    rcases List.mem_cons.1 hb with rfl | hb
    · have hkid : ({ bind := own } : Kid) ∈ d'.kids := by simp [d']
      exact List.mem_append_right _ (Kid.mem_forest hkid)
    · exact Draft.mem_known (hB hb)
  have hgrown : GrownAt g K d' pre out (Sketch.withKid b' nodeset' (q own.id)) :=
    withKid_at hK hbeside (hq own.id)
  obtain ⟨hgrows, hplace⟩ := hgrown (allocate "bind" s).2 P hs
  exact ⟨hstep.trans hgrows, hplace⟩

theorem repeatOf_at {p : Sketch α} {n : Nat} {governs : Option String} {pre : List String}
    {out : α → List String} {K : List Bind} {d : Draft}
    (hbind : ∀ id ∈ governs, ∃ b ∈ d.known K, b.id = id)
    (hp : GrownAt g K { d with controls := .nil } pre out p) :
    let id := Identifiers.identifier "repeat" n
    GrownAt g K d (id :: Identifiers.endings.map (fun e => id ++ "-" ++ e) ++ pre) out
      (Sketch.repeatOf id governs p) := by
  intro id s P hs
  let s₁ := (Generator.reportUngoverned id governs s).2
  let s₂ := (allocate "insert" s₁).2
  let s₃ := (allocate "insert" s₂).2
  let s₄ := (allocate "delete" s₃).2
  have hmints : Mints s s₄ ([(allocate "insert" s₁).1] ++ ([(allocate "insert" s₂).1] ++
      [(allocate "delete" s₃).1])) :=
    (Leading.reportUngoverned id governs s).mints.trans ((mints_allocate s₁ "insert").trans
      ((mints_allocate s₂ "insert").trans (mints_allocate s₃ "delete")))
  obtain ⟨hgrows, hplace⟩ := hp s₄ P (hmints.clean hs)
  have hrepeat := @Grows.repeated g K _ _ _ _ _ _ governs (allocate "insert" s₁).1
    (allocate "insert" s₂).1 (allocate "delete" s₃).1 n hbind hgrows
  refine ⟨(Grows.mint hmints).trans (.trans (.perm ?_) hrepeat), hplace⟩
  rw [List.append_assoc (id :: _) pre P, ← List.append_assoc]
  exact List.perm_append_comm.append_right _

theorem repeated {p : Sketch α} {pre : List String} {out : α → List String}
    (hp : Grown g φ B pre out p) : Grown g φ B pre out (Sketch.repeated φ.around p) := by
  intro K d hφ hK hB s P hs
  subst hφ
  obtain ⟨hgrows, hplace⟩ := repeatOf_at (n := s.ids.count "repeat") (fun _ => hK.around)
    (hp K { d with controls := .nil } rfl hK hB) (allocate "repeat" s).2 P hs
  rw [List.append_assoc] at hgrows
  exact ⟨(Grows.mint (mints_allocate_all s "repeat")).trans hgrows, hplace⟩

theorem items {p : Sketch α} {occurs : Occurs} {pre : List String} {out : α → List String}
    (hp : Grown g φ B pre out p) : Grown g φ B pre out (Sketch.items φ.around occurs p) := by
  unfold Sketch.items
  split
  · exact repeated hp
  · exact hp

theorem groupItems {p : Sketch α} {occurs : Occurs} {pre : List String} {out : α → List String}
    (hp : Grown g φ B pre out p) : Grown g φ B pre out (Sketch.groupItems occurs p) := by
  unfold Sketch.groupItems
  split
  · intro K d hφ hK hB s P hs
    subst hφ
    obtain ⟨hgrows, hplace⟩ := repeatOf_at (n := s.ids.count "repeat") (fun _ => hK.governing)
      (hp K { d with controls := .nil } rfl hK hB) (allocate "repeat" s).2 P hs
    rw [List.append_assoc] at hgrows
    exact ⟨(Grows.mint (mints_allocate_all s "repeat")).trans hgrows, hplace⟩
  · exact hp

end Grown

/-! The parts of an element. -/

theorem grown_valueControl (t : TypeId) (owner : Generator.Owner) (id : String)
    (above around : Option String) :
    Grown g ⟨some id, above, around⟩ [] [] (fun _ => []) (valueControl g t owner) := by
  intro K d hφ hK _ s P _
  have hown : d.own = some id := congrArg Place.own hφ
  obtain ⟨b, hb, rfl⟩ := (hφ ▸ hK : d.place.Known K).own hown
  have hspec := fieldControl_spec g t b.id s
  have hmints := Minting.fieldControl g t b.id s
  have hrun : valueControl g t owner d s =
      (((), { d with
        controls := d.controls ++ .leaves [.control { (g.fieldControl t b.id s).1 with
          label := some (caption owner.name), hint := owner.hint }] }),
        (g.fieldControl t b.id s).2) := by
    change (((), ({ d with controls := d.controls ++ .leaves [.control
      { (g.fieldControl t (d.own.getD "") s).1 with
        label := some (caption owner.name), hint := owner.hint }] } : Draft)),
      (g.fieldControl t (d.own.getD "") s).2) = _
    rw [hown]
    rfl
  rw [hrun]
  let c : Control := { (g.fieldControl t b.id s).1 with
    label := some (caption owner.name), hint := owner.hint }
  exact ⟨(Grows.mint hmints).trans (.field c hspec.1 hspec.2.1 ⟨b, hb, hspec.2.2⟩), rfl⟩

theorem grown_field (t : TypeId) (owner : Generator.Owner) (path : String) (occurs : Occurs) :
    Grown' g (field g t owner path occurs) := by
  intro φ
  apply Grown.withKid
  intro id above around
  split
  · apply Grown.look
    intro d hd
    have hown : d.own = some id := congrArg Place.own hd
    have haround : d.around = around := congrArg Place.around hd
    rw [hown, haround]
    apply Grown.allocated
    intro n
    apply Grown.box
    · exact .inl rfl
    · exact ⟨n, rfl⟩
    · exact fun _ h => h
    · rfl
    · apply Grown.repeated (φ := ⟨some id, above, around⟩)
      exact Grown.withKid fun id' above' around' => grown_valueControl t owner id' above' around'
  · exact grown_valueControl t owner id above around

section Content

variable {child : ChildSketch} {f : Role}

theorem grown_text (t : ComplexType) : Grown' g (text g f t) := by
  intro φ
  unfold text
  split
  · exact Grown.slot (grown_field _ _ _ _ φ)
  · exact Grown.slot (grown_field _ _ _ _ φ)
  · exact Grown.pure () []

theorem grown_reuse {nodeset : String} (h : IsDeclared g nodeset) : Grown' g (reuse nodeset) := by
  intro φ K d _ _ _ s P _
  cases hfind : d.kids.find? (·.bind.nodeset = nodeset) with
  | none =>
    have hrun : reuse nodeset d s = ((false, d), s) := by
      unfold reuse
      rw [hfind]
      rfl
    rw [hrun]
    exact ⟨.perm (.refl _), rfl⟩
  | some kid =>
    cases hsource : kid.source with
    | none =>
      have hrun : reuse nodeset d s =
          ((true, d), (report (.reusedControlNotFound nodeset) s).2) := by
        unfold reuse
        rw [hfind]
        dsimp only
        rw [hsource]
        rfl
      rw [hrun]
      exact ⟨.mint (Leading.report _ s).mints, rfl⟩
    | some source =>
      obtain ⟨k, below⟩ := source
      have hrun : reuse nodeset d s =
          ((true, { d with
            controls := d.controls ++ ((tree k below).copy s.ids).1
            kids := Sketch.share nodeset d.kids
            copies := d.copies ++ [(tree k below, ((tree k below).copy s.ids).1)] }),
          { s with ids := ((tree k below).copy s.ids).2 }) := by
        unfold reuse
        rw [hfind]
        dsimp only
        rw [hsource]
        rfl
      rw [hrun]
      exact ⟨.copy nodeset h hfind hsource, rfl⟩

theorem grown_reuses {nodeset : String} (h : IsDeclared g nodeset) (isInherited : Bool) :
    Grown' g (reuses f isInherited nodeset) := by
  intro φ
  unfold reuses
  split
  · exact grown_reuse h φ
  · exact Grown.pure false []

theorem grown_use (e : Element) (id : UseId) : Grown' g (use g f e id) := by
  intro φ
  apply Grown.lifted (fun _ => []) (fun a => IsDeclared g ("@" ++ a.2))
    (fun s => (Leading.qualified _ s).mints) (fun s hs => ⟨_, (Leading.qualified _ s).clean hs,
      .inl ⟨id, by rw [textOf_qualified]; rfl⟩⟩)
  rintro ⟨nsPrefix, name⟩ hname
  apply Grown.bind (grown_reuses hname _ φ)
  intro reused
  split
  · exact Grown.pure e []
  · split
    · exact Grown.led (Leading.report _) fun _ => Grown.pure e []
    · exact Grown.bind (Grown.slot (grown_field _ _ _ _ φ)) fun _ => Grown.pure _ []

theorem grown_uses (e : Element) (ids : List UseId) : Grown' g (uses g f e ids) := by
  intro φ
  induction ids generalizing e with
  | nil => exact Grown.pure e []
  | cons id ids ih => exact Grown.bind (grown_use e id φ) fun e' => ih e'

/-- A sketch of children grows wherever it is used. -/
def GrownChild (g : Generator) (child : ChildSketch) : Prop :=
  ∀ e id path occurs, Grown' g (child e id path occurs)

theorem grown_childElement (hchild : GrownChild g child) (e : Element) (id : ElementId)
    (occurs : Occurs) : Grown' g (childElement g child f e id occurs) := by
  intro φ
  unfold childElement
  split
  · exact Grown.pure e []
  · apply Grown.lifted (fun _ => []) (fun a => IsDeclared g a.2)
      (fun s => (Leading.qualified _ s).mints) (fun s hs => ⟨_, (Leading.qualified _ s).clean hs,
        .inr ⟨id, textOf_qualified _ s⟩⟩)
    rintro ⟨nsPrefix, name⟩ hname
    apply Grown.bind (grown_reuses hname _ φ)
    intro reused
    split
    · exact Grown.pure e []
    · apply Grown.bind (Grown.slot (hchild _ id name occurs φ))
      intro data
      split
      · exact Grown.pure _ []
      · exact Grown.pure e []

mutual

theorem grown_particle (hchild : GrownChild g child) (e : Element) :
    ∀ p, Grown' g (particle g child f e p)
  | .element occurs id => grown_childElement hchild e id occurs
  | .group _ _ members => fun φ => Grown.groupItems (grown_particles hchild e members φ)
  | .wildcard _ _ => fun _ => Grown.led (Leading.report _) fun _ => Grown.pure e []

theorem grown_particles (hchild : GrownChild g child) (e : Element) :
    ∀ ps, Grown' g (particles g child f e ps)
  | [] => fun _ => Grown.pure e []
  | p :: ps => fun φ =>
    Grown.bind (grown_particle hchild e p φ) fun e' => grown_particles hchild e' ps φ

end

theorem grown_contentModel (hchild : GrownChild g child) (e : Element) (t : ComplexType) :
    Grown' g (contentModel g child f e t) := by
  intro φ
  unfold contentModel
  split
  · exact grown_particle hchild e _ φ
  · exact Grown.pure e []

theorem grown_content (hchild : GrownChild g child) (e : Element) (t : ComplexType) :
    Grown' g (content g child f e t) := by
  intro φ
  apply Grown.bind (grown_text t φ)
  intro _
  exact Grown.bind (grown_uses e t.uses φ) fun e' => grown_contentModel hchild e' t φ

theorem grown_complex (hchild : GrownChild g child) (e : Element) (occurs : Occurs) :
    Grown' g (complex g child f e occurs) := by
  intro φ
  unfold complex
  split
  · exact Grown.pure e []
  · next t _ =>
    apply Grown.look
    intro d hd
    have hown : d.own = φ.own := congrArg Place.own hd
    have haround : d.around = φ.around := congrArg Place.around hd
    apply Grown.allocated
    intro n
    rw [hown, haround]
    apply Grown.box
    · exact .inl rfl
    · exact ⟨n, rfl⟩
    · exact fun _ h => h
    · rfl
    · exact Grown.items (grown_content hchild e t φ)

theorem core_guardKid (isNew : Bool) (conditions : List String) (kid : Kid) :
    (guardKid isNew conditions kid).core = kid.core := by
  unfold guardKid
  split
  · rfl
  · split
    · rfl
    · split <;> rfl

theorem core_guardKids (existing : Nat) (conditions : List String) (kids : List Kid) :
    (guardKids existing conditions kids).map Kid.core = kids.map Kid.core := by
  unfold guardKids
  rw [List.map_append, List.map_map, List.map_map]
  have hcore (isNew : Bool) : Kid.core ∘ guardKid isNew conditions = Kid.core :=
    funext fun kid => core_guardKid isNew conditions kid
  rw [hcore, hcore, ← List.map_append, List.take_append_drop]

theorem grown_guardCase (existing : Nat) (t declared : TypeId) :
    Grown' g (guardCase g existing t declared) := by
  intro φ
  unfold guardCase
  split
  · apply Grown.led (Leading.typeConditions g _)
    exact fun conditions K d _ _ _ s P _ => ⟨.guard (core_guardKids existing conditions d.kids), rfl⟩
  · exact Grown.pure () []

theorem grown_unshare : Grown' g unshare :=
  fun _ K d _ _ _ s P _ => ⟨.guard (by rw [List.map_map]; rfl), rfl⟩

theorem grown_typeCase (hchild : GrownChild g child) (owner : ElementId) (declared : TypeId)
    (isFirst : Bool) (e : Element) (t : TypeId) {n : Nat} (rest : List String) {φ : Place} :
    let caseId := Identifiers.identifier "case" n
    Grown g φ [] (caseId :: rest) (fun _ => rest)
      (typeCase g child owner declared isFirst e t caseId) := by
  intro caseId
  apply Grown.box
  · exact .inr ⟨isFirst, rfl⟩
  · exact ⟨n, rfl⟩
  · exact fun _ h => nomatch h
  · rfl
  · apply Grown.look
    intro d _
    have hinner (bare : Element) : Grown g φ [] [] (fun _ => []) (do
        let data ← complex g child ⟨t, owner, decide (t ≠ declared)⟩ bare .once
        guardCase g d.kids.length t declared
        unshare
        return Generator.mergeCase e data) := by
      apply Grown.bind (grown_complex hchild _ .once φ)
      intro data
      apply Grown.bind (grown_guardCase d.kids.length t declared φ)
      intro _
      exact Grown.bind (grown_unshare φ) fun _ => Grown.pure _ []
    exact (hinner _).frame rest

theorem grown_typeCases (hchild : GrownChild g child) (owner : ElementId) (declared : TypeId)
    {cases : List (TypeId × String)} {φ : Place}
    (hnamed : ∀ c ∈ cases, ∃ n, c.2 = Identifiers.identifier "case" n) :
    ∀ isFirst e, Grown g φ [] (cases.map (·.2)) (fun _ => [])
      (typeCases g child owner declared isFirst e cases) := by
  induction cases with
  | nil => exact fun _ e => Grown.pure e []
  | cons c cases ih =>
    intro isFirst e
    obtain ⟨t, caseId⟩ := c
    obtain ⟨n, rfl⟩ := hnamed _ List.mem_cons_self
    apply Grown.bind (grown_typeCase hchild owner declared isFirst e t (cases.map (·.2)))
    exact ih (fun c hc => hnamed c (List.mem_cons_of_mem _ hc)) false

/-- The cases of a switch. -/
def caseControls (g : Generator) : Bool → List (TypeId × String) → List Control
  | _, [] => []
  | isFirst, (t, caseId) :: rest =>
    { id := caseId, kind := .switchCase isFirst
      label := some (caption (g.schema.displayName t)) } :: caseControls g false rest

theorem ids_caseControls (isFirst : Bool) (cases : List (TypeId × String)) :
    (caseControls g isFirst cases).map (·.id) = cases.map (·.2) := by
  induction cases generalizing isFirst with
  | nil => rfl
  | cons c cases ih =>
    rw [caseControls, List.map_cons, List.map_cons, ih]

theorem kinds_caseControls (cases : List (TypeId × String)) :
    (caseControls g true cases).map (·.kind) = (selections cases.length).map .switchCase := by
  have hrest (cases : List (TypeId × String)) : (caseControls g false cases).map (·.kind) =
      (List.replicate cases.length false).map .switchCase := by
    induction cases with
    | nil => rfl
    | cons c cases ih =>
      rw [caseControls, List.map_cons, ih]
      rfl
  cases cases with
  | nil => rfl
  | cons c cases =>
    rw [caseControls, List.map_cons, hrest]
    rfl

/-- The trees that the cases of a switch add to a section are those of their controls. -/
theorem roots_typeCases (owner : ElementId) (declared : TypeId) (cases : List (TypeId × String))
    (isFirst : Bool) (e : Element) (d : Draft) (s : Synthesis) :
    (typeCases g child owner declared isFirst e cases d s).1.2.controls.roots =
      d.controls.roots ++ (caseControls g isFirst cases).map .control := by
  induction cases generalizing isFirst e d s with
  | nil => exact (List.append_nil _).symm
  | cons c cases ih =>
    refine (ih false _ _ _).trans ?_
    change (d.controls ++ (_ ++ tree _ _)).roots ++ _ = _
    rw [Forest.roots_append, List.append_assoc]
    rfl

theorem promptChoice_spec (label : String) (count : Nat) (s : Synthesis) :
    (g.promptChoice label count s).1.map Choice.face =
      if g.settings.isLongOne count then [(Generator.promptText label, none)] else [] := by
  unfold Generator.promptChoice
  split <;> rfl

theorem constraint_typeBind (label : String) (count : Nat) :
    (g.typeBind label count).constraint = promptConstraint label (g.settings.isLongOne count) := by
  unfold Generator.typeBind promptConstraint
  split <;> rfl

/-- The identifiers that have been given out for a switch, as they are used. -/
theorem switch_perm (selectId triggerId action dispatch switchId : String) (prompt : List Choice)
    (choices : List (Choice × String)) (P : List String) :
    ((prompt.flatMap Choice.identifiers ++ Minting.ofChoices choices ++
        ([triggerId] ++ ([action] ++ ([dispatch] ++ [switchId])))) ++ selectId :: P).Perm
      ((selectId :: (prompt ++ choices.map (·.1)).flatMap Choice.identifiers ++ []) ++
        ((triggerId :: [] ++ [action, dispatch]) ++ switchId :: (choices.map (·.2) ++ P))) := by
  have hchoices : (Minting.ofChoices choices).Perm
      ((choices.map (·.1)).flatMap Choice.identifiers ++ choices.map (·.2)) := by
    have h := (List.flatMap_append_perm choices (fun c => c.1.identifiers) fun c => [c.2]).symm
    rw [← List.flatMap_map, ← List.map_eq_flatMap] at h
    exact h
  rw [List.perm_iff_count] at hchoices ⊢
  intro x
  have hx := hchoices x
  simp only [List.count_append, List.count_cons, List.count_nil, List.flatMap_append] at hx ⊢
  omega

/-- A switch with its choice and its cases, once the choice has an identifier and a bind. -/
theorem grown_choosing (hchild : GrownChild g child) (e : Element) (owner : ElementId)
    (declared : TypeId) (hseveral : 2 ≤ (g.candidates declared).length) {φ : Place} {label : String}
    {b : Bind} (hconstraint : b.constraint =
      promptConstraint label (g.settings.isLongOne (g.candidates declared).length))
    (hnodeset : ∃ path, b.nodeset = path ++ "/@xsi:type")
    (hdeclares : ∃ e, (g.schema.element e).type = some declared ∧
      label = caption ((g.schema.element e).name.localName ++ " Type")) (n : Nat) :
    let types := g.candidates declared
    let selectId := Identifiers.identifier "select1" n
    Grown g φ [b] [selectId] (fun _ => []) (do
      let prompt ← g.promptChoice label types.length
      let choices ← g.typeChoices types
      leaves [{ id := selectId, kind := .selectOne (prompt ++ choices.map (·.1)), label := some label
                bind := some b.id
                appearance := some (g.settings.oneAppearance types.length) }]
      let triggerId ← allocate "trigger"
      let actionId ← allocate "action"
      let dispatchId ← allocate "dispatch"
      leaves [{ id := triggerId
                kind := .trigger (some (.dispatch actionId dispatchId "DOMActivate" selectId))
                label := some "Validate Choice" }]
      let switchId ← allocate "switch"
      within [] { id := switchId, kind := .switch } do
        let first ← g.typeValue (types.headD declared)
        let e := Generator.addAttribute e Generator.xsiType (some "xsi") first
        typeCases g child owner declared true e (types.zip (choices.map (·.2)))) := by
  intro types selectId K d hφ hK hB s P hs
  let prompt := (g.promptChoice label types.length s).1
  let s₁ := (g.promptChoice label types.length s).2
  let choices := (g.typeChoices types s₁).1
  let s₂ := (g.typeChoices types s₁).2
  let s₃ := (allocate "trigger" s₂).2
  let s₄ := (allocate "action" s₃).2
  let s₅ := (allocate "dispatch" s₄).2
  let s₆ := (allocate "switch" s₅).2
  let select : Control :=
    { id := selectId, kind := .selectOne (prompt ++ choices.map (·.1)), label := some label
      bind := some b.id, appearance := some (g.settings.oneAppearance types.length) }
  let trigger : Control :=
    { id := (allocate "trigger" s₂).1
      kind := .trigger (some (.dispatch (allocate "action" s₃).1 (allocate "dispatch" s₄).1
        "DOMActivate" selectId))
      label := some "Validate Choice" }
  let switch : Control := { id := (allocate "switch" s₅).1, kind := .switch }
  let zipped := types.zip (choices.map (·.2))
  let p : Sketch Element := do
    let first ← g.typeValue (types.headD declared)
    let e := Generator.addAttribute e Generator.xsiType (some "xsi") first
    typeCases g child owner declared true e zipped
  obtain ⟨htoggles, hvalues, hnamed⟩ := typeChoices_spec g types s₁
  have hlength : choices.length = types.length := by
    have h := congrArg List.length hvalues
    rwa [List.length_map, List.length_map] at h
  have hsnd : zipped.map (·.2) = choices.map (·.2) := List.map_snd_zip (by simp [hlength])
  have hzipped : zipped.length = types.length := by simp [zipped, hlength]
  have hchooses : Chooses g (d.known K) s₆.prefixes declared select trigger switch
      (caseControls g true zipped) := by
    constructor
    · exact hseveral
    · obtain ⟨e, he, hlabel⟩ := hdeclares
      exact ⟨e, he, congrArg some hlabel⟩
    · refine ⟨label, prompt, choices.map (·.1), rfl, promptChoice_spec _ _ s, ?_, ?_, b,
        Draft.mem_known (hB List.mem_cons_self), rfl, hnodeset, hconstraint⟩
      · have hids := congrArg (List.map some) ((ids_caseControls (g := g) true zipped).trans hsnd)
        rw [List.map_map, List.map_map] at hids
        rw [List.map_map]
        exact htoggles.trans hids.symm
      · rw [List.map_map]
        exact hvalues
    · exact ⟨_, _, rfl⟩
    · exact ⟨rfl, rfl⟩
    · rfl
    · rw [kinds_caseControls, hzipped]
  have hcases : Grown g φ [] (zipped.map (·.2)) (fun _ => []) p :=
    Grown.led (Leading.typeValue g _) fun first => grown_typeCases hchild owner declared
      (fun c hc => by
        have hmem : c.2 ∈ choices.map (·.2) := hsnd ▸ List.mem_map_of_mem hc
        obtain ⟨c', hc', he⟩ := List.mem_map.1 hmem
        exact he ▸ hnamed c' hc') true _
  have hmints := ((Minting.promptChoice g label types.length s).trans
    (Minting.typeChoices g types s₁)).trans ((mints_allocate s₂ "trigger").trans
      ((mints_allocate s₃ "action").trans ((mints_allocate s₄ "dispatch").trans
        (mints_allocate s₅ "switch"))))
  obtain ⟨hgrows, hplace⟩ := hcases K { d with controls := .nil } hφ hK (List.nil_subset _) s₆ P
    (hmints.clean hs)
  have hroots : (p { d with controls := .nil } s₆).1.2.controls.roots =
      (caseControls g true zipped).map .control :=
    (roots_typeCases owner declared zipped true _ _ _).trans (List.nil_append _)
  have hswitch := Grows.switch declared select trigger switch _ hchooses ⟨n, rfl⟩ ⟨_, rfl⟩ ⟨_, rfl⟩
    hgrows hroots
  rw [hsnd] at hswitch
  have hperm := switch_perm selectId trigger.id (allocate "action" s₃).1 (allocate "dispatch" s₄).1
    switch.id prompt choices P
  have hall := (Grows.mint (P := selectId :: P) hmints).trans (.trans (.perm hperm) hswitch)
  have hforest (f below : Forest NodeKind) : f ++ switchForest select trigger switch below =
      f ++ .leaves [.control select] ++ .leaves [.control trigger] ++
        (.leaves [] ++ tree (.control switch) below) := by
    rw [Forest.append_assoc, Forest.append_assoc]
    rfl
  rw [hforest] at hall
  exact ⟨hall, hplace⟩

theorem grown_switch (hchild : GrownChild g child) (e : Element) (owner : ElementId)
    (declared : TypeId) (path : String) (occurs : Occurs)
    (htype : (g.schema.element owner).type = some declared)
    (hseveral : 2 ≤ (g.candidates declared).length) :
    Grown' g (switch g child e owner declared (g.candidates declared) path occurs) := by
  intro φ
  apply Grown.allocated
  intro n
  apply Grown.withKid_beside
  intro beside id above around
  apply Grown.look
  intro d hd
  have haround : d.around = around := congrArg Place.around hd
  rw [haround]
  apply Grown.items (φ := ⟨some id, above, around⟩)
  apply grown_choosing hchild e owner declared hseveral
  · exact constraint_typeBind _ _
  · exact ⟨path, rfl⟩
  · exact ⟨owner, htype, rfl⟩

theorem grown_plain (hchild : GrownChild g child) (e : Element) (owner : ElementId)
    (declared resolved : TypeId) (path : String) (occurs : Occurs) :
    Grown' g (plain g child e owner declared resolved path occurs) := by
  intro φ
  have hkid (e : Element) : Grown g φ [] [] (fun _ => [])
      (withKid {} path (complex g child ⟨resolved, owner, false⟩ e occurs)) :=
    Grown.withKid fun _ _ _ => grown_complex hchild e occurs _
  unfold plain
  split
  · exact hkid e
  · exact Grown.led (Leading.typeValue g _) fun _ => hkid _

theorem grown_expand (hchild : GrownChild g child) (e : Element) (id : ElementId) (path : String)
    (occurs : Occurs) : Grown' g (expand g child e id path occurs) := by
  intro φ
  unfold expand
  dsimp only
  split
  · exact Grown.led (Leading.report _) fun _ => Grown.pure none []
  · next t htype =>
    split
    · exact Grown.bind (grown_field _ _ _ _ φ) fun _ => Grown.pure _ []
    · apply Grown.led (Leading.enter id t)
      intro entered
      split
      · have hleave (data : Element) : Grown g φ [] [] (fun _ => [])
            (StateT.lift leave >>= fun _ => (Pure.pure (some data) : Sketch (Option Element))) :=
          Grown.led Leading.leave fun _ => Grown.pure _ []
        split
        · exact Grown.bind (grown_plain hchild e id t t path occurs φ) hleave
        · exact Grown.bind (grown_plain hchild e id t _ path occurs φ) hleave
        · next hnil hone =>
          apply Grown.bind (grown_switch hchild e id t path occurs htype ?_ φ) hleave
          generalize g.candidates t = types at hnil hone
          match types with
          | [] => exact absurd rfl hnil
          | [t] => exact absurd rfl (hone t)
          | _ :: _ :: _ => simp
      · exact Grown.led (Leading.report _) fun _ => Grown.pure none []

end Content

/-- Every element grows by the steps that there are, however many expansions can be opened. -/
theorem grown_element (g : Generator) (openings : Nat) : GrownChild g (element g openings) := by
  induction openings with
  | zero => exact fun e id path occurs φ => Grown.pure none []
  | succ openings ih => exact fun e id path occurs => grown_expand ih e id path occurs

/-! The form as a whole. -/

/-- The counters when the content of a form begins. -/
def opened (s : Synthesis) : Synthesis := (allocate "instance" (allocate "model" s).2).2

/-- The draft that the content of a form ends with. -/
def filled (g : Generator) (root : ElementId) (nsPrefix : Option String) (rootName : String)
    (s : Synthesis) : Draft × Synthesis :=
  let skeleton := Generator.prepareRoot (Generator.bareInstance (g.schema.element root) nsPrefix)
  let run := element g (g.schema.elements.size + 1) skeleton root ("/" ++ rootName) .once {} (opened s)
  (run.1.2, run.2)

section Form

variable (g : Generator) (root : ElementId) (nsPrefix : Option String) (rootName : String)
  (s : Synthesis)

theorem mints_opened : let drawing := (form g root nsPrefix rootName s).1
    Mints s (opened s) [drawing.model, drawing.data] :=
  (mints_allocate s "model").trans (mints_allocate _ "instance")

/-- The content of a form grows out of nothing. -/
theorem grows_filled (hs : s.prefixes.Clean) (P : List String) :
    let made := filled g root nsPrefix rootName s
    Grows g [] {} (opened s) P made.1 made.2 P := by
  have hunknown : Place.Known ⟨none, none, none⟩ [] := fun id hid => nomatch hid
  exact (grown_element g _ _ root _ .once _ [] {} rfl hunknown (List.nil_subset _) (opened s) P
    hs).1

theorem mints_closed : let drawn := form g root nsPrefix rootName s
    Mints (filled g root nsPrefix rootName s).2 drawn.2 [drawn.1.submission, drawn.1.submit] :=
  (mints_allocate _ "submission").trans (mints_allocate _ "submit")

end Form

end Sketch

end SchemaForms
