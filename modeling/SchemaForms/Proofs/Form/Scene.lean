import SchemaForms.Proofs.Form.Sketch

/-!
Scenes: what the arena shows while an element is being filled.  The binds of the element are the
children of one node, the scope; new controls go behind all others, below a node, the area.
-/

namespace SchemaForms

open Grove (ids graft only both at? tops erase bounds relabel)
open Forest (tree leaf)

namespace Grove

/-- The binds among the topmost nodes. -/
def bindTops (f : Grove) : List Bind := f.roots.filterMap (·.2.bind?)

@[simp] theorem bindTops_append (f g : Grove) : bindTops (f ++ g) = bindTops f ++ bindTops g := by
  simp [bindTops]

/-- The last element bind of some. -/
def lastOf (binds : List Bind) : Option String :=
  (binds.reverse.find? fun b => !b.isAttribute).map (·.id)

theorem bindTops_graft (h : NodeId → Grove) (f : Grove) : bindTops (graft h f) = bindTops f := by
  induction f with
  | nil => rfl
  | cons a b r _ ih =>
    simp only [bindTops, graft_cons, Forest.roots, List.filterMap_cons] at ih ⊢
    rw [ih]

theorem bindTops_eq_nil {f : Grove} (h : ∀ a ∈ f.labels, a.2.bind? = none) : bindTops f = [] := by
  rw [bindTops, List.filterMap_eq_nil_iff]
  exact fun a ha => h a (Forest.mem_labels_of_mem_roots ha)

/-- The nodes directly below a node. -/
def kidsOf (x : NodeId) (f : Grove) : List NodeId := ((at? x f).map fun y => tops y.2).getD []

theorem kidsOf_eq {x : NodeId} {f below : Grove} {k : NodeKind} (h : at? x f = some (k, below)) :
    kidsOf x f = tops below := by
  rw [kidsOf, h]
  rfl

theorem mem_ids_of_mem_tops {f : Grove} {x : NodeId} (h : x ∈ tops f) : x ∈ ids f := by
  obtain ⟨a, ha, rfl⟩ := List.mem_map.1 h
  exact List.mem_map_of_mem (Forest.mem_labels_of_mem_roots ha)

theorem mem_of_mem_kidsOf {x y : NodeId} {f : Grove} (h : y ∈ kidsOf x f) : y ∈ ids f := by
  cases hx : at? x f with
  | none =>
    rw [kidsOf, hx] at h
    cases h
  | some z =>
    obtain ⟨k, below⟩ := z
    rw [kidsOf_eq hx] at h
    exact (mem_of_at? hx).2 y (mem_ids_of_mem_tops h)

theorem both_self (x y : NodeId) (f g : Grove) : both x f y g x = f := if_pos rfl

theorem both_of_ne {x y z : NodeId} (hx : z ≠ x) (hy : z ≠ y) (f g : Grove) :
    both x f y g z = .nil := by
  simp [both, hx, hy]

theorem graft_both_of_not_mem {x y : NodeId} {f : Grove} (hx : x ∉ ids f) (hy : y ∉ ids f)
    (g h : Grove) : graft (both x g y h) f = f :=
  graft_eq_self fun z hz =>
    both_of_ne (fun he : z = x => hx (he ▸ hz)) (fun he : z = y => hy (he ▸ hz)) g h

theorem graft_both_nil (x y : NodeId) (f : Grove) : graft (both x .nil y .nil) f = f :=
  graft_eq_self fun z _ => by simp [both]

/-- Grafting at two nodes twice. -/
theorem graft_both_both {x y : NodeId} {f g g' h h' : Grove} (hg : x ∉ ids g ∧ y ∉ ids g)
    (hh : x ∉ ids h ∧ y ∉ ids h) :
    graft (both x g' y h') (graft (both x g y h) f) = graft (both x (g ++ g') y (h ++ h')) f := by
  rw [graft_graft]
  refine graft_congr fun z _ => ?_
  simp only [both]
  split
  · rw [graft_both_of_not_mem hg.1 hg.2]
  · split
    · rw [graft_both_of_not_mem hh.1 hh.2]
    · rfl

/-- A change of binds that keeps their identifiers and nodesets. -/
structure Recasts (c : NodeId → NodeKind → NodeKind) : Prop where
  other : ∀ x k, k.bind? = none → c x k = k
  bind : ∀ x b, ∃ b', c x (.bind b) = .bind b' ∧ b'.id = b.id ∧ b'.nodeset = b.nodeset

theorem Recasts.id : Recasts fun _ k => k := ⟨fun _ _ _ => rfl, fun _ b => ⟨b, rfl, rfl, rfl⟩⟩

theorem relabel_graft (c : NodeId → NodeKind → NodeKind) (h : NodeId → Grove) (f : Grove) :
    relabel c (graft h f) = graft (fun x => relabel c (h x)) (relabel c f) := by
  induction f with
  | nil => rfl
  | cons a b r ihb ihr =>
    unfold relabel at ihb ihr ⊢
    rw [graft_cons, Forest.map_cons, Forest.map_append, ihb, ihr]
    rfl

theorem at?_relabel (c : NodeId → NodeKind → NodeKind) (x : NodeId) (f : Grove) :
    at? x (relabel c f) = (at? x f).map fun y => (c x y.1, relabel c y.2) := by
  rw [at?, relabel, Forest.find_map, at?, Option.map_map, Option.map_map]
  cases h : f.find fun a => decide (a.1 = x) with
  | none => rfl
  | some y =>
    have hx : y.1.1 = x := of_decide_eq_true (Forest.find_mem h).2.2
    simp [hx, relabel]

theorem relabel_of_no_binds {c : NodeId → NodeKind → NodeKind} (hc : Recasts c) {f : Grove}
    (hf : ∀ a ∈ f.labels, a.2.bind? = none) : relabel c f = f := by
  induction f with
  | nil => rfl
  | cons a b r ihb ihr =>
    simp only [Forest.labels_cons, List.mem_cons, List.mem_append] at hf
    have hb := ihb fun x hx => hf x (.inr (.inl hx))
    have hr := ihr fun x hx => hf x (.inr (.inr hx))
    unfold relabel at hb hr ⊢
    rw [Forest.map_cons, hb, hr, hc.other a.1 a.2 (hf a (.inl rfl))]

theorem bounds_relabel {c : NodeId → NodeKind → NodeKind} (hc : Recasts c) (f : Grove) :
    bounds (relabel c f) = bounds f := by
  induction f with
  | nil => rfl
  | cons a b r ihb ihr =>
    unfold relabel at ihb ihr ⊢
    rw [Forest.map_cons, bounds_cons, bounds_cons, ihb, ihr]
    congr 2
    obtain ⟨x, k⟩ := a
    cases hk : k.bind? with
    | none => rw [hc.other x k hk]
    | some bd =>
      cases k with
      | bind bd =>
        obtain ⟨b', hb', -⟩ := hc.bind x bd
        simp [hb', NodeKind.isBound, NodeKind.control?]
      | _ => cases hk

theorem keys_relabel {c : NodeId → NodeKind → NodeKind} (hc : Recasts c) (f : Grove) :
    (bindTops (relabel c f)).map (fun b => (b.id, b.nodeset)) =
      (bindTops f).map fun b => (b.id, b.nodeset) := by
  induction f with
  | nil => rfl
  | cons a b r _ ih =>
    obtain ⟨x, k⟩ := a
    unfold relabel at ih ⊢
    simp only [bindTops, Forest.map_cons, Forest.roots, List.filterMap_cons] at ih ⊢
    cases hk : k.bind? with
    | none =>
      rw [hc.other x k hk, hk]
      exact ih
    | some bd =>
      cases k with
      | bind bd =>
        cases hk
        obtain ⟨b', hb', hid, hnodeset⟩ := hc.bind x bd
        rw [hb', show (NodeKind.bind b').bind? = some b' from rfl]
        simp only [List.map_cons, ih, hid, hnodeset]
      | _ => cases hk

theorem length_bindTops_relabel {c : NodeId → NodeKind → NodeKind} (hc : Recasts c) (f : Grove) :
    (bindTops (relabel c f)).length = (bindTops f).length := by
  simpa using congrArg List.length (keys_relabel hc f)

theorem lastOf_relabel {c : NodeId → NodeKind → NodeKind} (hc : Recasts c) (f : Grove) :
    lastOf (bindTops (relabel c f)) = lastOf (bindTops f) := by
  have hkey (bs : List Bind) : lastOf bs =
      ((bs.map fun b => (b.id, b.nodeset)).reverse.find? fun y => !y.2.startsWith "@").map
        (·.1) := by
    rw [← List.map_reverse, List.find?_map, Option.map_map]
    rfl
  rw [hkey, hkey, keys_relabel hc]

end Grove

open Grove (bindTops lastOf kidsOf Recasts)

/-- What a step adds to the scope and to the area, and how it changes the kids of the scope. -/
structure Growth where
  cast : NodeId → NodeKind → NodeKind := fun _ k => k
  binds : Grove := .nil
  controls : Grove := .nil

def Growth.on (γ : Growth) (scope area : NodeId) (f : Grove) : Grove :=
  relabel γ.cast (graft (both scope γ.binds area γ.controls) f)

namespace Tree

/-- What growing does to the nodes that were there. -/
theorem node_growth {t t' : Tree} {f : Grove} {h : NodeId → Grove}
    {c : NodeId → NodeKind → NodeKind} (ht : t.Holds f) (ht' : t'.Holds (relabel c (graft h f)))
    {x : NodeId} (hx : x ∈ ids f) :
    t'.node x = ⟨c x (t.kind x), t.parent x, t.children x ++ tops (h x)⟩ := by
  suffices hnode : ∀ (f : Grove) (p : Option NodeId), t.Links p f →
      t'.Links p (relabel c (graft h f)) → x ∈ ids f →
      t'.node x = ⟨c x (t.kind x), t.parent x, t.children x ++ tops (h x)⟩ from
    hnode f none ht.links ht'.links hx
  intro f
  induction f with
  | nil => exact fun _ _ _ hx => by cases hx
  | cons a b r ihb ihr =>
    rintro p ⟨ha, hb, hr⟩ ⟨ha', hb', hr'⟩ hx
    change t'.Links _ (relabel c (graft h b ++ h a.1)) at hb'
    rw [Grove.relabel_append, links_append] at hb'
    simp only [Grove.ids_cons, List.mem_cons, List.mem_append] at hx
    rcases hx with rfl | hx | hx
    · have htops : tops (relabel c (graft h b ++ h a.1)) = tops b ++ tops (h a.1) := by simp
      rw [ha', Tree.children, Tree.parent, Tree.kind, ha]
      exact congrArg (Node.mk _ _) htops
    · exact ihb _ hb hb'.1 hx
    · exact ihr _ hr hr' hx

theorem Links.bindTops_eq {t : Tree} {p : Option NodeId} {f : Grove} (h : t.Links p f) :
    (tops f).filterMap t.bind? = bindTops f := by
  induction f with
  | nil => rfl
  | cons a b r _ ih =>
    obtain ⟨ha, -, hr⟩ := h
    have hkind : t.bind? a.1 = a.2.bind? := by rw [Tree.bind?, Tree.kind, ha]
    have hrest := ih hr
    simp only [Grove.tops_cons, bindTops, Forest.roots, List.filterMap_cons, hkind] at hrest ⊢
    rw [hrest]

theorem lastElementBind_eq {t : Tree} {f below : Grove} {x : NodeId} {k : NodeKind}
    (ht : t.Holds f) (hx : at? x f = some (k, below)) :
    Generator.lastElementBind t x = lastOf (bindTops below) := by
  obtain ⟨-, hchildren, hlinks⟩ := links_at? ht.links hx
  rw [Generator.lastElementBind, hchildren, List.filterMap_reverse, hlinks.bindTops_eq, lastOf]

end Tree

/-- The identifier has been given out for a name. -/
def Identifiers.Given (ids : Identifiers) (name id : String) : Prop :=
  ∃ n < ids.count name, id = Identifiers.identifier name n

theorem Identifiers.Given.mono {ids ids' : Identifiers} {name id : String} (h : ids.Given name id)
    (hle : ids.Before ids') : ids'.Given name id := by
  obtain ⟨n, hn, rfl⟩ := h
  exact ⟨n, Nat.lt_of_lt_of_le hn (hle name), rfl⟩

/-- The identifiers of binds that a draft mentions. -/
def Draft.names (d : Draft) : List String :=
  d.own.toList ++ d.above.toList ++ d.around.toList ++ d.kids.map (·.bind.id)

/-- New controls below the area stand behind all others. -/
def Open (f : Grove) (area : NodeId) : Prop :=
  ∀ g, bounds (graft (only area g) f) = bounds f ++ bounds g

/-- The source of a kid is the first control of its bind, and nothing is being made below it. -/
def Sourced (f : Grove) (scope area : NodeId) (kid : Kid) : Prop :=
  ∀ k below, kid.source = some (k, below) → ∃ x b,
    f.labels.find? (·.2.isBoundTo kid.bind.id) = some (x, k) ∧ at? x f = some (k, b) ∧
    erase (tree (x, k) b) = tree k below ∧
    (∀ a ∈ (tree (x, k) b).labels, a.2.bind? = none) ∧ scope ∉ x :: ids b ∧ area ∉ x :: ids b

/-- The binds among some trees are the kids of a draft, with what is below them, and those of them,
and of the trees, are shared that are noted as copied. -/
def Draws (s : Synthesis) : Grove → List Kid → Prop
  | .nil, kids => kids = []
  | .cons a b r, kids =>
    match a.2.bind? with
    | none => a.1 ∉ s.reused ∧ Draws s r kids
    | some own => ∃ kid rest, kids = kid :: rest ∧ own = kid.bind ∧
        erase b = kid.below.map .bind ∧ (a.1 ∈ s.reused ↔ kid.shared = true) ∧ Draws s r rest

namespace Draws

variable {s s' : Synthesis} {f g : Grove} {kids kids' : List Kid}

theorem append (h : Draws s f kids) (h' : Draws s g kids') : Draws s (f ++ g) (kids ++ kids') := by
  induction f generalizing kids with
  | nil =>
    rw [show kids = [] from h]
    exact h'
  | cons a b r _ ih =>
    simp only [Draws, Forest.cons_append] at h ⊢
    cases ha : a.2.bind? with
    | none =>
      rw [ha] at h
      exact ⟨h.1, ih h.2⟩
    | some own =>
      rw [ha] at h
      obtain ⟨kid, rest, rfl, hown, hbelow, hshared, hrest⟩ := h
      exact ⟨kid, rest ++ kids', rfl, hown, hbelow, hshared, ih hrest⟩

theorem bindTops_eq (h : Draws s f kids) : bindTops f = kids.map (·.bind) := by
  induction f generalizing kids with
  | nil => rw [show kids = [] from h]; rfl
  | cons a b r _ ih =>
    simp only [Draws] at h
    rw [bindTops, Forest.roots, List.filterMap_cons]
    cases ha : a.2.bind? with
    | none =>
      rw [ha] at h
      exact ih h.2
    | some own =>
      rw [ha] at h
      obtain ⟨kid, rest, rfl, rfl, -, -, hrest⟩ := h
      rw [List.map_cons, ← ih hrest]
      rfl

theorem lastOf_eq (h : Draws s f kids) : lastOf (bindTops f) = Kid.lastElement kids := by
  rw [h.bindTops_eq, lastOf, Kid.lastElement, List.map_reverse]

theorem erase_eq (h : Draws s f kids) (hf : ∀ a ∈ f.labels, a.2.bind?.isSome) :
    erase f = (Kid.forest kids).map .bind := by
  induction f generalizing kids with
  | nil => rw [show kids = [] from h]; rfl
  | cons a b r _ ih =>
    simp only [Forest.labels_cons, List.mem_cons, List.mem_append] at hf
    obtain ⟨x, k⟩ := a
    cases k with
    | bind own =>
      obtain ⟨kid, rest, rfl, rfl, hbelow, -, hrest⟩ := h
      rw [Grove.erase_cons, Grove.erase_bind, hbelow, ih hrest fun c hc => hf c (.inr (.inr hc))]
      rfl
    | _ => exact absurd (hf _ (.inl rfl)) (by simp [NodeKind.bind?])

theorem congr (h : Draws s f kids) (hr : ∀ x ∈ tops f, x ∈ s'.reused ↔ x ∈ s.reused) :
    Draws s' f kids := by
  induction f generalizing kids with
  | nil => exact h
  | cons a b r _ ih =>
    simp only [Grove.tops_cons, List.mem_cons] at hr
    simp only [Draws] at h ⊢
    cases ha : a.2.bind? with
    | none =>
      rw [ha] at h
      exact ⟨fun hm => h.1 ((hr a.1 (.inl rfl)).1 hm), ih h.2 fun x hx => hr x (.inr hx)⟩
    | some own =>
      rw [ha] at h
      obtain ⟨kid, rest, rfl, hown, hbelow, hshared, hrest⟩ := h
      exact ⟨kid, rest, rfl, hown, hbelow, (hr a.1 (.inl rfl)).trans hshared,
        ih hrest fun x hx => hr x (.inr hx)⟩

end Draws

/-- The arena shows the grove, and all that is noted elsewhere refers to it. -/
structure World (s : Synthesis) (f : Grove) : Prop where
  shows : s.tree.Shows f
  refs : ∀ a ∈ bounds f, ∀ id, a.2.isBoundTo id → s.ids.Given "bind" id
  reused : ∀ x ∈ s.reused, x.index < s.tree.size

/-- The scope, with what is around it. -/
structure ScopeAt (s : Synthesis) (f : Grove) (scope area : NodeId) (d : Draft) : Prop where
  here : ∃ k below, at? scope f = some (k, below) ∧ k.bind?.map (·.id) = d.own ∧
    Draws s below d.kids ∧ area ∉ ids below
  outer : ∃ p, s.tree.parent scope = some p ∧ p ∈ ids f ∧ p.index < scope.index ∧
    Generator.lastElementBind s.tree p = d.above ∧ Generator.governingBind s.tree p = d.around ∧
    ∀ q, s.tree.parent p = some q → q ∈ ids f ∧ q.index < p.index

structure Scene (s : Synthesis) (f : Grove) (scope area : NodeId) (d : Draft) : Prop where
  world : World s f
  scopeAt : ScopeAt s f scope area d
  area_mem : area ∈ ids f
  ne : scope ≠ area
  opened : Open f area
  sourced : ∀ kid ∈ d.kids, Sourced f scope area kid
  given : ∀ id ∈ d.names, s.ids.Given "bind" id

/-- What a step of the generator does to the arena, besides what it drafts. -/
structure Adds (s s' : Synthesis) (f : Grove) (scope area : NodeId) (d d' : Draft) (γ : Growth) :
    Prop where
  shows : s'.tree.Shows (γ.on scope area f)
  size_le : s.tree.size ≤ s'.tree.size
  before : s.ids.Before s'.ids
  newBinds : ∀ x ∈ ids γ.binds, s.tree.size ≤ x.index
  newControls : ∀ x ∈ ids γ.controls, s.tree.size ≤ x.index
  bindsOnly : ∀ a ∈ γ.binds.labels, a.2.bind?.isSome
  controlsOnly : ∀ a ∈ γ.controls.labels, a.2.bind? = none
  recasts : Recasts γ.cast
  castKids : ∀ x, x ∉ kidsOf scope f → ∀ k, γ.cast x k = k
  refs : ∀ a ∈ bounds γ.controls, ∀ id, a.2.isBoundTo id → s'.ids.Given "bind" id
  drawn : d'.controls = d.controls ++ erase γ.controls
  own : d'.own = d.own
  above : d'.above = d.above
  around : d'.around = d.around
  /-- A kid was there before, with its source if it had one, or has a new identifier. -/
  fresh : ∀ kid ∈ d'.kids, (∃ old ∈ d.kids, old.bind.id = kid.bind.id ∧
    (old.source.isSome → kid.source.isSome)) ∨ ¬ s.ids.Given "bind" kid.bind.id
  /-- Only the kids of the scope, and new nodes, may be noted as copied. -/
  reused : ∀ x, x.index < s.tree.size → x ∉ kidsOf scope f → (x ∈ s'.reused ↔ x ∈ s.reused)

/-- The record of copies is not part of a scene. -/
theorem Scene.record {s : Synthesis} {f : Grove} {scope area : NodeId} {d : Draft}
    (h : Scene s f scope area d) (copies : List (Forest NodeKind × Forest NodeKind)) :
    Scene s f scope area { d with copies := copies } :=
  ⟨h.world, ⟨h.scopeAt.here, h.scopeAt.outer⟩, h.area_mem, h.ne, h.opened, h.sourced, h.given⟩

theorem Adds.record {s s' : Synthesis} {f : Grove} {scope area : NodeId} {d d' : Draft} {γ : Growth}
    (h : Adds s s' f scope area d d' γ) (copies : List (Forest NodeKind × Forest NodeKind)) :
    Adds s s' f scope area d { d' with copies := copies } γ :=
  { h with }

theorem bounds_eq_nil {f : Grove} (h : ∀ a ∈ f.labels, a.2.bind?.isSome) : bounds f = [] := by
  rw [bounds, List.filter_eq_nil_iff]
  intro a ha
  have := h a ha
  obtain ⟨x, k⟩ := a
  cases k with
  | bind b => simp [NodeKind.isBound, NodeKind.control?]
  | _ => cases this

theorem Open.bounds_both {f g h : Grove} {scope area : NodeId} (hopen : Open f area)
    (hne : scope ≠ area) (hg : bounds g = []) :
    bounds (graft (both scope g area h) f) = bounds f ++ bounds h := by
  rw [← hopen h]
  refine Grove.bounds_graft_congr fun x _ => ?_
  unfold both only
  split
  · next hx => rw [if_neg (hx ▸ hne), hg]; rfl
  · rfl

section Growing

variable {s s' : Synthesis} {f below : Grove} {scope area : NodeId} {d d' : Draft} {γ : Growth}

theorem Scene.lt (h : Scene s f scope area d) {x : NodeId} (hx : x ∈ ids f) :
    x.index < s.tree.size :=
  h.world.shows.lt x hx

theorem Scene.scope_mem (h : Scene s f scope area d) : scope ∈ ids f := by
  obtain ⟨k, below, hk, -⟩ := h.scopeAt.here
  exact (Grove.mem_of_at? hk).1

/-- New nodes are none of the nodes that were there. -/
theorem Scene.not_mem_of_new (h : Scene s f scope area d) {g : Grove}
    (hg : ∀ x ∈ ids g, s.tree.size ≤ x.index) {x : NodeId} (hx : x ∈ ids f) : x ∉ ids g := fun hm =>
  Nat.not_lt.2 (hg x hm) (h.lt hx)

theorem Scene.not_mem_below (h : Scene s f scope area d) {k : NodeKind}
    (hat : at? scope f = some (k, below)) : scope ∉ ids below ∧ area ∉ ids below := by
  obtain ⟨k', below', hat', -, -, harea⟩ := h.scopeAt.here
  cases hat.symm.trans hat'
  have hnodup := h.world.shows.nodup.sublist (Grove.sublist_of_at? hat)
  exact ⟨(List.nodup_cons.1 hnodup).1, harea⟩

theorem Adds.not_mem_both (ha : Adds s s' f scope area d d' γ) (h : Scene s f scope area d)
    {x : NodeId} (hx : x ∈ ids f) (y : NodeId) : x ∉ ids (both scope γ.binds area γ.controls y) := by
  unfold both
  split
  · exact h.not_mem_of_new ha.newBinds hx
  · split
    · exact h.not_mem_of_new ha.newControls hx
    · exact List.not_mem_nil

theorem Adds.bounds_eq (ha : Adds s s' f scope area d d' γ) (h : Scene s f scope area d) :
    bounds (γ.on scope area f) = bounds f ++ bounds γ.controls :=
  (Grove.bounds_relabel ha.recasts _).trans
    (h.opened.bounds_both h.ne (bounds_eq_nil ha.bindsOnly))

theorem Adds.find?_eq (ha : Adds s s' f scope area d d' γ) (h : Scene s f scope area d)
    (bindId : String) :
    (γ.on scope area f).labels.find? (·.2.isBoundTo bindId) =
      (f.labels.find? (·.2.isBoundTo bindId)).or
        (γ.controls.labels.find? (·.2.isBoundTo bindId)) := by
  simp only [← Grove.find?_bounds]
  rw [ha.bounds_eq h, List.find?_append]

/-- A part of the grove that holds no binds, nor the scope or the area, stays as it is. -/
theorem Adds.at?_eq (ha : Adds s s' f scope area d d' γ) (h : Scene s f scope area d) {x : NodeId}
    {k : NodeKind} {b : Grove} (hat : at? x f = some (k, b))
    (hbinds : ∀ a ∈ (tree (x, k) b).labels, a.2.bind? = none) (hscope : scope ∉ x :: ids b)
    (harea : area ∉ x :: ids b) : at? x (γ.on scope area f) = some (k, b) := by
  simp only [List.mem_cons, not_or] at hscope harea
  simp only [Forest.tree, Forest.labels_cons, List.mem_cons, List.mem_append] at hbinds
  have hgraft := Grove.at?_graft (h := both scope γ.binds area γ.controls) hat fun y _ =>
    ha.not_mem_both h (Grove.mem_of_at? hat).1 y
  rw [Grove.graft_both_of_not_mem hscope.2 harea.2,
    Grove.both_of_ne (Ne.symm hscope.1) (Ne.symm harea.1), Forest.append_nil] at hgraft
  rw [Growth.on, Grove.at?_relabel, hgraft, Option.map_some,
    ha.recasts.other x k (hbinds _ (.inl rfl)),
    Grove.relabel_of_no_binds ha.recasts fun a hm => hbinds a (.inr (.inl hm))]

/-- The source stays, also when another section is filled that was not there before. -/
theorem Sourced.grow {kid : Kid} {area' : NodeId} (hk : Sourced f scope area kid)
    (ha : Adds s s' f scope area d d' γ) (h : Scene s f scope area d)
    (hnew : area' ∈ ids f → area' = area) : Sourced (γ.on scope area f) scope area' kid := by
  intro k below hsource
  obtain ⟨x, b, hfind, hat, herase, hbinds, hscope, harea⟩ := hk k below hsource
  refine ⟨x, b, ?_, ha.at?_eq h hat hbinds hscope harea, herase, hbinds, hscope, fun hm => ?_⟩
  · rw [ha.find?_eq h, hfind]
    rfl
  · exact harea (hnew ((Grove.sublist_of_at? hat).subset hm) ▸ hm)

theorem Adds.opened (ha : Adds s s' f scope area d d' γ) (h : Scene s f scope area d) :
    Open (γ.on scope area f) area := by
  intro g
  have hself {b : Grove} (hb : ∀ x ∈ ids b, s.tree.size ≤ x.index) : graft (only area g) b = b :=
    Grove.graft_eq_self fun x hx =>
      Grove.only_of_ne (fun he : x = area => h.not_mem_of_new hb h.area_mem (he ▸ hx)) g
  have hgraft : graft (only area g) (graft (both scope γ.binds area γ.controls) f) =
      graft (both scope γ.binds area (γ.controls ++ g)) f := by
    rw [Grove.graft_graft]
    refine Grove.graft_congr fun x _ => ?_
    unfold both only
    split
    · next hx => rw [if_neg (hx ▸ h.ne), Forest.append_nil]; exact hself ha.newBinds
    · split
      · exact congrArg (· ++ g) (hself ha.newControls)
      · rfl
  have hrelabel : bounds (graft (only area g) (γ.on scope area f)) =
      bounds (graft (only area g) (graft (both scope γ.binds area γ.controls) f)) := by
    rw [← Grove.bounds_relabel ha.recasts (graft (only area g) (graft _ f)), Grove.relabel_graft]
    refine Grove.bounds_graft_congr fun x _ => ?_
    exact (Grove.bounds_relabel ha.recasts _).symm
  rw [hrelabel, hgraft, h.opened.bounds_both h.ne (bounds_eq_nil ha.bindsOnly), ha.bounds_eq h,
    Grove.bounds_append, List.append_assoc]

theorem Adds.cast_new (ha : Adds s s' f scope area d d' γ) (h : Scene s f scope area d) {g : Grove}
    (hg : ∀ x ∈ ids g, s.tree.size ≤ x.index) : relabel γ.cast g = g :=
  Grove.relabel_eq_self fun x hx =>
    ha.castKids x fun hm => Nat.not_lt.2 (hg x hx) (h.lt (Grove.mem_of_mem_kidsOf hm))

theorem Adds.at?_scope (ha : Adds s s' f scope area d d' γ) (h : Scene s f scope area d)
    {k : NodeKind} (hat : at? scope f = some (k, below)) :
    at? scope (γ.on scope area f) = some (k, relabel γ.cast below ++ γ.binds) := by
  obtain ⟨hscope, harea⟩ := h.not_mem_below hat
  have hgraft := Grove.at?_graft (h := both scope γ.binds area γ.controls) hat fun y _ =>
    ha.not_mem_both h h.scope_mem y
  rw [Grove.both_self, Grove.graft_both_of_not_mem hscope harea] at hgraft
  have hcast : γ.cast scope k = k := ha.castKids scope (fun hm =>
    hscope (Grove.mem_ids_of_mem_tops (Grove.kidsOf_eq hat ▸ hm))) k
  rw [Growth.on, Grove.at?_relabel, hgraft, Option.map_some, hcast, Grove.relabel_append,
    ha.cast_new h ha.newBinds]

theorem Adds.kidsOf_eq (ha : Adds s s' f scope area d d' γ) (h : Scene s f scope area d) :
    kidsOf scope (γ.on scope area f) = kidsOf scope f ++ tops γ.binds := by
  obtain ⟨k, below, hat, -⟩ := h.scopeAt.here
  rw [Grove.kidsOf_eq (ha.at?_scope h hat), Grove.kidsOf_eq hat]
  simp

theorem Adds.node_eq (ha : Adds s s' f scope area d d' γ) (h : Scene s f scope area d) {x : NodeId}
    (hx : x ∈ ids f) : s'.tree.node x = ⟨γ.cast x (s.tree.kind x), s.tree.parent x,
      s.tree.children x ++ tops (both scope γ.binds area γ.controls x)⟩ :=
  Tree.node_growth h.world.shows.toHolds ha.shows.toHolds hx

theorem Adds.parent_eq (ha : Adds s s' f scope area d d' γ) (h : Scene s f scope area d)
    {x : NodeId} (hx : x ∈ ids f) : s'.tree.parent x = s.tree.parent x := by
  rw [Tree.parent, ha.node_eq h hx]

theorem Adds.lastElementBind_eq (ha : Adds s s' f scope area d d' γ) (h : Scene s f scope area d)
    {x : NodeId} (hx : x ∈ ids f) (hne : x ≠ scope) :
    Generator.lastElementBind s'.tree x = Generator.lastElementBind s.tree x := by
  obtain ⟨⟨k, below⟩, hat⟩ := Grove.at?_eq_some_of_mem hx
  have hat' := Grove.at?_graft (h := both scope γ.binds area γ.controls) hat fun y _ =>
    ha.not_mem_both h hx y
  have hat'' : at? x (γ.on scope area f) = some (γ.cast x k,
      relabel γ.cast (graft (both scope γ.binds area γ.controls) below ++
        both scope γ.binds area γ.controls x)) := by
    rw [Growth.on, Grove.at?_relabel, hat']
    rfl
  rw [Tree.lastElementBind_eq ha.shows.toHolds hat'',
    Tree.lastElementBind_eq h.world.shows.toHolds hat, Grove.lastOf_relabel ha.recasts]
  have hnone : bindTops (both scope γ.binds area γ.controls x) = [] := by
    simp only [both, if_neg hne]
    split
    · exact Grove.bindTops_eq_nil ha.controlsOnly
    · rfl
  rw [Grove.bindTops_append, hnone, List.append_nil, Grove.bindTops_graft]

theorem Growth.ids_mem (γ : Growth) {x : NodeId} (hx : x ∈ ids f) :
    x ∈ ids (γ.on scope area f) := by
  rw [Growth.on, Grove.ids_relabel, Grove.mem_ids_graft]
  exact .inl hx

/-- The scene after a step, when the kids are drawn. -/
theorem Scene.grow (h : Scene s f scope area d) (ha : Adds s s' f scope area d d' γ)
    (hreused : ∀ x ∈ s'.reused, x.index < s'.tree.size)
    (hkids : ∀ k below, at? scope f = some (k, below) →
      Draws s' (relabel γ.cast below ++ γ.binds) d'.kids)
    (hsourced : ∀ kid ∈ d'.kids, Sourced (γ.on scope area f) scope area kid)
    (hgiven : ∀ kid ∈ d'.kids, s'.ids.Given "bind" kid.bind.id) :
    Scene s' (γ.on scope area f) scope area d' := by
  refine ⟨⟨ha.shows, ?_, hreused⟩, ⟨?_, ?_⟩, γ.ids_mem h.area_mem, h.ne, ha.opened h, hsourced, ?_⟩
  · intro a hm id hid
    rw [ha.bounds_eq h, List.mem_append] at hm
    rcases hm with hm | hm
    · exact (h.world.refs a hm id hid).mono ha.before
    · exact ha.refs a hm id hid
  · obtain ⟨k, below, hat, hown, -, harea⟩ := h.scopeAt.here
    refine ⟨k, _, ha.at?_scope h hat, ha.own ▸ hown, hkids k below hat, ?_⟩
    rw [Grove.ids_append, Grove.ids_relabel, List.mem_append, not_or]
    exact ⟨harea, h.not_mem_of_new ha.newBinds h.area_mem⟩
  · obtain ⟨p, hparent, hp, hlt, habove, haround, hq⟩ := h.scopeAt.outer
    have hne : p ≠ scope := fun he => Nat.lt_irrefl _ (he ▸ hlt)
    have hlast := ha.lastElementBind_eq h hp hne
    refine ⟨p, (ha.parent_eq h h.scope_mem).trans hparent, γ.ids_mem hp, hlt, ?_, ?_, ?_⟩
    · rw [hlast, habove, ha.above]
    · rw [ha.around, ← haround, Generator.governingBind, Generator.governingBind, hlast,
        ha.parent_eq h hp]
      cases hpp : s.tree.parent p with
      | none => rfl
      | some q =>
        obtain ⟨hqf, hqp⟩ := hq q hpp
        have hqne : q ≠ scope := fun he => Nat.lt_irrefl _ (Nat.lt_trans hqp (he ▸ hlt))
        rw [Option.bind_some, Option.bind_some, ha.lastElementBind_eq h hqf hqne]
    · intro q hpp
      rw [ha.parent_eq h hp] at hpp
      obtain ⟨hqf, hqp⟩ := hq q hpp
      exact ⟨γ.ids_mem hqf, hqp⟩
  · intro id hid
    have hold := h.given id
    simp only [Draft.names, List.mem_append, ha.own, ha.above, ha.around] at hid hold
    rcases hid with hid | hid
    · exact (hold (.inl hid)).mono ha.before
    · obtain ⟨kid, hkid, rfl⟩ := List.mem_map.1 hid
      exact hgiven kid hkid

end Growing

end SchemaForms
