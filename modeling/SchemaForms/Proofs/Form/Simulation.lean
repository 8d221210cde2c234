import SchemaForms.Proofs.Form.Hanging
import SchemaForms.Proofs.Form.Scene

/-!
The generator follows its sketches.  A step of the generator simulates a sketch when, in every scene,
both give the same result and the same identifiers, and the arena comes to show what the sketch has
drafted.
-/

namespace SchemaForms

open Grove (ids graft only both at? tops erase bounds relabel bindTops lastOf kidsOf Recasts)
open Forest (tree leaf)
open Synthesis

/-- All but the arena and the notes about its nodes. -/
def Synthesis.bare (s : Synthesis) : Synthesis := { s with tree := .empty, reused := [] }

/-- The arena and the notes of the one, all else of the other. -/
def Synthesis.over (s σ : Synthesis) : Synthesis := { σ with tree := s.tree, reused := s.reused }

/-- A step that neither sees nor changes the arena. -/
structure Quiet {α : Type} (f : Synth α) : Prop where
  run : ∀ s, f s = ((f s.bare).1, s.over (f s.bare).2)
  before : ∀ s : Synthesis, s.ids.Before (f s).2.ids

namespace Quiet

variable {α β : Type}

theorem bare_self {f : Synth α} (hf : Quiet f) (s : Synthesis) :
    (f s.bare).2.bare = (f s.bare).2 := by
  rw [hf.run s.bare]
  rfl

theorem tree_eq {f : Synth α} (hf : Quiet f) (s : Synthesis) : (f s).2.tree = s.tree := by
  rw [hf.run s]
  rfl

theorem reused_eq {f : Synth α} (hf : Quiet f) (s : Synthesis) : (f s).2.reused = s.reused := by
  rw [hf.run s]
  rfl

theorem fst_eq {f : Synth α} (hf : Quiet f) (s : Synthesis) : (f s).1 = (f s.bare).1 := by
  rw [hf.run s]

theorem bare_eq {f : Synth α} (hf : Quiet f) (s : Synthesis) : (f s).2.bare = (f s.bare).2 := by
  rw [hf.run s]
  exact hf.bare_self s

theorem pure (a : α) : Quiet (pure a : Synth α) := ⟨fun _ => rfl, fun s => .refl s.ids⟩

theorem bind {f : Synth α} {k : α → Synth β} (hf : Quiet f) (hk : ∀ a, Quiet (k a)) :
    Quiet (f >>= k) where
  run s := by
    have hbare : (s.over (f s.bare).2).bare = (f s.bare).2.bare := rfl
    change k (f s).1 (f s).2 = _
    rw [hf.run s, (hk _).run, hbare, hf.bare_self]
    rfl
  before s := (hf.before s).trans ((hk _).before _)

theorem map {f : Synth α} (g : α → β) (hf : Quiet f) : Quiet (g <$> f) :=
  hf.bind fun a => .pure (g a)

theorem allocate (name : String) : Quiet (allocate name) :=
  ⟨fun _ => rfl, fun s => s.ids.before_allocate name⟩

theorem report (a : Anomaly) : Quiet (report a) := ⟨fun _ => rfl, fun s => .refl s.ids⟩

theorem qualified (name : QName) : Quiet (qualified name) := by
  unfold Synthesis.qualified
  cases name.nspace with
  | none => exact .pure _
  | some ns => exact ⟨fun _ => rfl, fun s => .refl s.ids⟩

theorem enter (e : ElementId) (t : TypeId) : Quiet (enter e t) := by
  constructor
  · intro s
    unfold Synthesis.enter
    have hbare : s.bare.expanding = s.expanding := rfl
    rw [hbare]
    split <;> rfl
  · intro s
    unfold Synthesis.enter
    split <;> exact .refl _

theorem leave : Quiet leave := ⟨fun _ => rfl, fun s => .refl s.ids⟩

theorem copy (f : Forest NodeKind) : Quiet (Sketch.copy f) :=
  ⟨fun _ => rfl, fun s => before_copyAll f ⟨s.ids, .empty⟩⟩

theorem typeValue (g : Generator) (t : TypeId) : Quiet (g.typeValue t) := by
  unfold Generator.typeValue
  split
  · exact (qualified _).bind fun _ => .pure _
  · exact .pure _

theorem typeConditions (g : Generator) (ts : List TypeId) : Quiet (g.typeConditions ts) := by
  induction ts with
  | nil => exact .pure _
  | cons t ts ih => exact (typeValue g t).bind fun _ => ih.bind fun _ => .pure _

theorem choicesFor (values : List String) : Quiet (Generator.choicesFor values) := by
  induction values with
  | nil => exact .pure _
  | cons v vs ih => exact (allocate _).bind fun _ => ih.bind fun _ => .pure _

theorem fieldControl (g : Generator) (t : TypeId) (bind : String) :
    Quiet (g.fieldControl t bind) := by
  unfold Generator.fieldControl
  split
  · exact (allocate _).bind fun _ => .pure _
  · split
    · exact (allocate _).bind fun _ => (choicesFor _).bind fun _ => .pure _
    · split
      · exact (allocate _).bind fun _ => .pure _
      · exact (allocate _).bind fun _ => (choicesFor _).bind fun _ => .pure _

theorem repeatActions (repeatId : String) (bind : Option String) :
    Quiet (Generator.repeatActions repeatId bind) :=
  (allocate _).bind fun _ => (allocate _).bind fun _ => (allocate _).bind fun _ => .pure _

theorem reportUngoverned (repeatId : String) (bind : Option String) :
    Quiet (Generator.reportUngoverned repeatId bind) := by
  cases bind with
  | none => exact report _
  | some _ => exact .pure _

theorem typeChoices (g : Generator) (ts : List TypeId) : Quiet (g.typeChoices ts) := by
  induction ts with
  | nil => exact .pure _
  | cons t ts ih =>
    exact (allocate _).bind fun _ => (allocate _).bind fun _ => (allocate _).bind fun _ =>
      (allocate _).bind fun _ => (typeValue g t).bind fun _ => ih.bind fun _ => .pure _

theorem promptChoice (g : Generator) (label : String) (count : Nat) :
    Quiet (g.promptChoice label count) := by
  unfold Generator.promptChoice
  split
  · exact (allocate _).bind fun _ => .pure _
  · exact .pure _

end Quiet

theorem Growth.on_nil (scope area : NodeId) (f : Grove) : Growth.on {} scope area f = f := by
  rw [Growth.on, Grove.graft_both_nil]
  exact Grove.relabel_eq_self fun _ _ _ => rfl

/-- A step that leaves the arena and the notes about it alone. -/
theorem Adds.still {s s' : Synthesis} {f : Grove} {scope area : NodeId} {d d' : Draft}
    (h : s.tree.Shows f) (htree : s'.tree = s.tree) (hreused : s'.reused = s.reused)
    (hids : s.ids.Before s'.ids) (hd : d' = d) : Adds s s' f scope area d d' {} := by
  subst hd
  refine ⟨?_, ?_, hids, ?_, ?_, ?_, ?_, .id, fun _ _ _ => rfl, ?_, ?_, rfl, rfl, rfl, ?_, ?_⟩
  · rwa [Growth.on_nil, htree]
  · exact Nat.le_of_eq (by rw [htree])
  · exact fun _ hx => by cases hx
  · exact fun _ hx => by cases hx
  · exact fun _ hx => by cases hx
  · exact fun _ hx => by cases hx
  · exact fun _ hx => by cases hx
  · exact (Forest.append_nil _).symm
  · exact fun kid hkid => .inl ⟨kid, hkid, rfl, id⟩
  · exact fun _ _ _ => by rw [hreused]

theorem Scene.still {s s' : Synthesis} {f : Grove} {scope area : NodeId} {d : Draft}
    (h : Scene s f scope area d) (htree : s'.tree = s.tree) (hreused : s'.reused = s.reused)
    (hids : s.ids.Before s'.ids) : Scene s' f scope area d := by
  obtain ⟨k, below, hat, hown, hdraws, harea⟩ := h.scopeAt.here
  refine { h with
    world := ⟨htree ▸ h.world.shows, fun a ha id hid => (h.world.refs a ha id hid).mono hids, ?_⟩
    scopeAt := ⟨⟨k, below, hat, hown, hdraws.congr fun x _ => by rw [hreused], harea⟩,
      htree ▸ h.scopeAt.outer⟩
    given := fun id hid => (h.given id hid).mono hids }
  rw [htree, hreused]
  exact h.world.reused

/-- One growth after another; some nodes were kids before both. -/
def Growth.andThen (γ γ' : Growth) (kids : List NodeId) : Growth where
  cast x k := if x ∈ kids then γ'.cast x (γ.cast x k) else k
  binds := relabel γ'.cast γ.binds ++ γ'.binds
  controls := γ.controls ++ γ'.controls

section Trans

variable {s s' s'' : Synthesis} {f : Grove} {scope area : NodeId} {d d' d'' : Draft} {γ γ' : Growth}

theorem Adds.on_on (h : Scene s f scope area d) (ha : Adds s s' f scope area d d' γ)
    (h' : Scene s' (γ.on scope area f) scope area d')
    (ha' : Adds s' s'' (γ.on scope area f) scope area d' d'' γ') :
    γ'.on scope area (γ.on scope area f) =
      (γ.andThen γ' (kidsOf scope f)).on scope area f := by
  have hnew {g : Grove} (hg : ∀ x ∈ ids g, s'.tree.size ≤ x.index) :
      ∀ x ∈ ids g, s.tree.size ≤ x.index := fun x hx => Nat.le_trans ha.size_le (hg x hx)
  have hB' : relabel γ.cast γ'.binds = γ'.binds := ha.cast_new h (hnew ha'.newBinds)
  have hC' : relabel γ.cast γ'.controls = γ'.controls := ha.cast_new h (hnew ha'.newControls)
  have hcast {g : Grove} (hg : ∀ x ∈ ids g, s.tree.size ≤ x.index) :
      relabel (γ.andThen γ' (kidsOf scope f)).cast g = g :=
    Grove.relabel_eq_self fun x hx k => if_neg fun hm =>
      Nat.not_lt.2 (hg x hx) (h.lt (Grove.mem_of_mem_kidsOf hm))
  have hboth (x : NodeId) : relabel γ.cast (both scope γ'.binds area γ'.controls x) =
      both scope γ'.binds area γ'.controls x := by
    unfold both
    split
    · exact hB'
    · split
      · exact hC'
      · rfl
  have hcomm : graft (both scope γ'.binds area γ'.controls) (γ.on scope area f) =
      relabel γ.cast (graft (both scope (γ.binds ++ γ'.binds) area (γ.controls ++ γ'.controls)) f) := by
    rw [← Grove.graft_both_both
      ⟨h.not_mem_of_new ha.newBinds h.scope_mem, h.not_mem_of_new ha.newBinds h.area_mem⟩
      ⟨h.not_mem_of_new ha.newControls h.scope_mem, h.not_mem_of_new ha.newControls h.area_mem⟩,
      Grove.relabel_graft γ.cast (both scope γ'.binds area γ'.controls)]
    exact Grove.graft_congr fun x _ => (hboth x).symm
  rw [Growth.on, hcomm, Grove.relabel_relabel, Growth.on, Grove.relabel_graft, Grove.relabel_graft]
  have hf : relabel (fun x k => γ'.cast x (γ.cast x k)) f =
      relabel (γ.andThen γ' (kidsOf scope f)).cast f := by
    refine Grove.relabel_congr fun x hx k => ?_
    by_cases hk : x ∈ kidsOf scope f
    · exact (if_pos hk).symm
    · have hx' : x ∉ kidsOf scope (γ.on scope area f) := by
        rw [ha.kidsOf_eq h, List.mem_append, not_or]
        exact ⟨hk, fun hm => h.not_mem_of_new ha.newBinds hx (Grove.mem_ids_of_mem_tops hm)⟩
      dsimp only [Growth.andThen]
      rw [if_neg hk, ha.castKids x hk, ha'.castKids x hx']
  rw [hf]
  refine Grove.graft_congr fun x _ => ?_
  have hsplit (g : Grove) : relabel (fun x k => γ'.cast x (γ.cast x k)) g =
      relabel γ'.cast (relabel γ.cast g) := (Grove.relabel_relabel ..).symm
  have hB'' : ∀ x ∈ ids (relabel γ'.cast γ.binds ++ γ'.binds), s.tree.size ≤ x.index := by
    intro x hx
    rw [Grove.ids_append, Grove.ids_relabel, List.mem_append] at hx
    exact hx.elim (ha.newBinds x) (hnew ha'.newBinds x)
  have hC'' : ∀ x ∈ ids (γ.controls ++ γ'.controls), s.tree.size ≤ x.index := by
    intro x hx
    rw [Grove.ids_append, List.mem_append] at hx
    exact hx.elim (ha.newControls x) (hnew ha'.newControls x)
  unfold both
  split
  · rw [hsplit, Grove.relabel_append, Grove.relabel_append, ha.cast_new h ha.newBinds, hB',
      ha'.cast_new h' ha'.newBinds]
    exact (hcast hB'').symm
  · split
    · rw [hsplit, Grove.relabel_append, Grove.relabel_append, ha.cast_new h ha.newControls, hC',
        ha'.cast_new h' ha'.newControls, Grove.relabel_of_no_binds ha'.recasts ha.controlsOnly]
      exact (hcast hC'').symm
    · rfl

theorem bindsOnly_relabel {c : NodeId → NodeKind → NodeKind} (hc : Recasts c) {g : Grove}
    (hg : ∀ a ∈ g.labels, a.2.bind?.isSome) : ∀ a ∈ (relabel c g).labels, a.2.bind?.isSome := by
  intro a hm
  rw [relabel, Forest.labels_map] at hm
  obtain ⟨⟨x, k⟩, hb, rfl⟩ := List.mem_map.1 hm
  have hk := hg _ hb
  cases k with
  | bind b =>
    obtain ⟨b', hb', -⟩ := hc.bind x b
    simp [hb', NodeKind.bind?]
  | _ => cases hk

theorem Adds.trans (h : Scene s f scope area d) (ha : Adds s s' f scope area d d' γ)
    (h' : Scene s' (γ.on scope area f) scope area d')
    (ha' : Adds s' s'' (γ.on scope area f) scope area d' d'' γ') :
    Adds s s'' f scope area d d'' (γ.andThen γ' (kidsOf scope f)) where
  shows := ha.on_on h h' ha' ▸ ha'.shows
  size_le := Nat.le_trans ha.size_le ha'.size_le
  before := ha.before.trans ha'.before
  newBinds x hx := by
    rw [Growth.andThen, Grove.ids_append, Grove.ids_relabel, List.mem_append] at hx
    exact hx.elim (ha.newBinds x) fun hx => Nat.le_trans ha.size_le (ha'.newBinds x hx)
  newControls x hx := by
    rw [Growth.andThen, Grove.ids_append, List.mem_append] at hx
    exact hx.elim (ha.newControls x) fun hx => Nat.le_trans ha.size_le (ha'.newControls x hx)
  bindsOnly a hm := by
    rw [Growth.andThen, Forest.labels_append, List.mem_append] at hm
    exact hm.elim (bindsOnly_relabel ha'.recasts ha.bindsOnly a) (ha'.bindsOnly a)
  controlsOnly a hm := by
    rw [Growth.andThen, Forest.labels_append, List.mem_append] at hm
    exact hm.elim (ha.controlsOnly a) (ha'.controlsOnly a)
  recasts := by
    refine ⟨fun x k hk => ?_, fun x b => ?_⟩
    · dsimp only [Growth.andThen]
      split
      · rw [ha.recasts.other x k hk, ha'.recasts.other x k hk]
      · rfl
    · dsimp only [Growth.andThen]
      split
      · obtain ⟨b', hb', hid, hnodeset⟩ := ha.recasts.bind x b
        obtain ⟨b'', hb'', hid', hnodeset'⟩ := ha'.recasts.bind x b'
        exact ⟨b'', by rw [hb', hb''], hid'.trans hid, hnodeset'.trans hnodeset⟩
      · exact ⟨b, rfl, rfl, rfl⟩
  castKids x hx k := if_neg hx
  refs a hm id hid := by
    rw [Growth.andThen, Grove.bounds_append, List.mem_append] at hm
    exact hm.elim (fun hm => (ha.refs a hm id hid).mono ha'.before) fun hm => ha'.refs a hm id hid
  drawn := by rw [ha'.drawn, ha.drawn, Forest.append_assoc, Growth.andThen, Grove.erase_append]
  own := ha'.own.trans ha.own
  above := ha'.above.trans ha.above
  around := ha'.around.trans ha.around
  fresh kid hkid := by
    rcases ha'.fresh kid hkid with ⟨old, hold, hid, hsource⟩ | hnew
    · rcases ha.fresh old hold with ⟨oldest, holdest, hid', hsource'⟩ | hnew
      · exact .inl ⟨oldest, holdest, hid'.trans hid, fun hs => hsource (hsource' hs)⟩
      · exact .inr (hid ▸ hnew)
    · exact .inr fun hgiven => hnew (hgiven.mono ha.before)
  reused x hx hkids := by
    rw [ha'.reused x (Nat.lt_of_lt_of_le hx ha.size_le) ?_, ha.reused x hx hkids]
    rw [ha.kidsOf_eq h, List.mem_append, not_or]
    exact ⟨hkids, fun hm => Nat.not_lt.2 (ha.newBinds x (Grove.mem_ids_of_mem_tops hm)) hx⟩

end Trans

/-- What is known of the element that is being filled. -/
structure Frame where
  scope : NodeId
  parent : NodeId
  own : Option String := none
  around : Option String := none
  /-- Identifiers of binds. -/
  known : List String := []

structure Frame.In (φ : Frame) (s : Synthesis) (d : Draft) : Prop where
  own : d.own = φ.own
  around : d.around = φ.around
  parent : s.tree.parent φ.scope = some φ.parent
  known : ∀ id ∈ φ.known, s.ids.Given "bind" id

/-- A frame in which more binds are known. -/
def Frame.knowing (φ : Frame) (ids : List String) : Frame := { φ with known := ids ++ φ.known }

theorem Frame.In.knowing {φ : Frame} {s : Synthesis} {d : Draft} (hφ : φ.In s d) {ids : List String}
    (hids : ∀ id ∈ ids, s.ids.Given "bind" id) : (φ.knowing ids).In s d :=
  { hφ with known := fun id hid => (List.mem_append.1 hid).elim (hids id) (hφ.known id) }

theorem Frame.In.mono {φ : Frame} {s s' : Synthesis} {f : Grove} {area : NodeId} {d d' : Draft}
    {γ : Growth} (hφ : φ.In s d) (h : Scene s f φ.scope area d)
    (ha : Adds s s' f φ.scope area d d' γ) : φ.In s' d' where
  own := ha.own.trans hφ.own
  around := ha.around.trans hφ.around
  parent := (ha.parent_eq h h.scope_mem).trans hφ.parent
  known id hid := (hφ.known id hid).mono ha.before

/-- A step follows a sketch in the scenes of a frame and an area; an invariant of the kids holds
before and after. -/
def Follows {α : Type} (I : List Kid → Prop) (φ : Frame) (area : NodeId) (f : Synth α)
    (p : Sketch α) : Prop :=
  ∀ ⦃s : Synthesis⦄ ⦃grove : Grove⦄ ⦃d : Draft⦄, Scene s grove φ.scope area d → I d.kids →
    φ.In s d → (f s).1 = (p d s.bare).1.1 ∧ (f s).2.bare = (p d s.bare).2 ∧
      I (p d s.bare).1.2.kids ∧
      ∃ γ, Adds s (f s).2 grove φ.scope area d (p d s.bare).1.2 γ ∧
        Scene (f s).2 (γ.on φ.scope area grove) φ.scope area (p d s.bare).1.2

/-- Nothing is required of the kids. -/
abbrev Any (_ : List Kid) : Prop := True

theorem Tree.Shows.of_holds {t t' : Tree} {f : Grove} {scope area : NodeId} {γ : Growth}
    (h : t.Shows f) (hroot : t'.root = t.root) (hholds : t'.Holds (γ.on scope area f)) :
    t'.Shows (γ.on scope area f) := by
  refine ⟨hholds, ?_⟩
  obtain ⟨a, b, rfl, ha⟩ := h.root
  exact ⟨_, _, rfl, hroot.trans ha⟩

theorem Growth.on_binds (scope area : NodeId) (b f : Grove) :
    Growth.on { binds := b } scope area f = graft (only scope b) f := by
  rw [Growth.on, Grove.relabel_eq_self fun _ _ _ => rfl]
  refine Grove.graft_congr fun x _ => ?_
  unfold both only
  split
  · rfl
  · exact ite_self _

theorem Growth.on_controls {scope area : NodeId} (hne : scope ≠ area) (c f : Grove) :
    Growth.on { controls := c } scope area f = graft (only area c) f := by
  rw [Growth.on, Grove.relabel_eq_self fun _ _ _ => rfl]
  refine Grove.graft_congr fun x _ => ?_
  unfold both only
  split
  · next hx => rw [if_neg (hx ▸ hne)]
  · rfl

namespace Follows

variable {α β : Type} {I : List Kid → Prop} {φ : Frame} {area : NodeId}

theorem pure (a : α) : Follows I φ area (pure a) (pure a) := fun _ _ _ h hI _ =>
  ⟨rfl, rfl, hI, {}, .still h.world.shows rfl rfl (.refl _) rfl, by rwa [Growth.on_nil]⟩

theorem bind {f : Synth α} {p : Sketch α} {k : α → Synth β} {q : α → Sketch β}
    (hf : Follows I φ area f p) (hk : ∀ a, Follows I φ area (k a) (q a)) :
    Follows I φ area (f >>= k) (p >>= q) := by
  intro s grove d h hI hφ
  obtain ⟨hresult, hbare, hI', γ, ha, h'⟩ := hf h hI hφ
  obtain ⟨hresult', hbare', hI'', γ', ha', h''⟩ := hk (f s).1 h' hI' (hφ.mono h ha)
  rw [hresult, hbare] at hresult' hbare' ha' h'' hI''
  have hrun : (f >>= k) s = k (p d s.bare).1.1 (f s).2 := by
    rw [← hresult]
    rfl
  rw [hrun]
  exact ⟨hresult', hbare', hI'', _, ha.trans h h' ha', ha.on_on h h' ha' ▸ h''⟩

/-- A step that does not see the arena follows itself. -/
theorem quiet {f : Synth α} (hf : Quiet f) : Follows I φ area f (StateT.lift f) := by
  intro s grove d h hI _
  refine ⟨hf.fst_eq s, hf.bare_eq s, hI, {},
    .still h.world.shows (hf.tree_eq s) (hf.reused_eq s) (hf.before s) rfl, ?_⟩
  rw [Growth.on_nil]
  exact h.still (hf.tree_eq s) (hf.reused_eq s) (hf.before s)

end Follows

end SchemaForms
