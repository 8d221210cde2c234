import SchemaForms.Proofs.Form.Sharing

/-!
Cases: what a case of a type switch does to the binds of its element, those it makes and those it
shares with earlier cases.
-/

namespace SchemaForms

open Grove (ids graft only both at? tops erase bounds relabel bindTops lastOf kidsOf Recasts)
open Forest (tree leaf)
open Sketch (guardKid guardKids)
open Generator (guardBind guardBinds)

namespace Draws

variable {s s' : Synthesis} {f g : Grove} {kids : List Kid}

theorem split (h : Draws s (f ++ g) kids) :
    ∃ ks ks', kids = ks ++ ks' ∧ Draws s f ks ∧ Draws s g ks' := by
  induction f generalizing kids with
  | nil => exact ⟨[], kids, rfl, rfl, h⟩
  | cons a b r _ ih =>
    simp only [Draws, Forest.cons_append] at h ⊢
    cases ha : a.2.bind? with
    | none =>
      rw [ha] at h
      obtain ⟨ks, ks', rfl, hks, hks'⟩ := ih h.2
      exact ⟨ks, ks', rfl, ⟨h.1, hks⟩, hks'⟩
    | some own =>
      rw [ha] at h
      obtain ⟨kid, rest, rfl, hown, hbelow, hshared, hrest⟩ := h
      obtain ⟨ks, ks', rfl, hks, hks'⟩ := ih hrest
      exact ⟨kid :: ks, ks', rfl, ⟨kid, ks, rfl, hown, hbelow, hshared, hks⟩, hks'⟩

/-- Changing the binds of kids where they are drawn. -/
theorem recast {c : NodeId → NodeKind → NodeKind} {p : Kid → Kid} (h : Draws s f kids)
    (hc : Recasts c) (hnodup : (ids f).Nodup) (hinner : ∀ x ∈ ids f, x ∉ tops f → ∀ k, c x k = k)
    (hkid : ∀ x ∈ tops f, ∀ kid : Kid, (x ∈ s.reused ↔ kid.shared = true) →
      c x (.bind kid.bind) = .bind (p kid).bind)
    (hp : ∀ kid, (p kid).below = kid.below ∧ (p kid).shared = kid.shared) :
    Draws s (relabel c f) (kids.map p) := by
  induction f generalizing kids with
  | nil =>
    rw [show kids = [] from h]
    rfl
  | cons a b r _ ih =>
    simp only [Grove.ids_cons, List.nodup_cons, List.mem_append, not_or, List.nodup_append] at hnodup
    obtain ⟨⟨hab, har⟩, hb, hr, hdisjoint⟩ := hnodup
    simp only [Grove.ids_cons, Grove.tops_cons, List.mem_cons, List.mem_append, not_or] at hinner hkid
    have hbelow : relabel c b = b := Grove.relabel_eq_self fun x hx =>
      hinner x (.inr (.inl hx)) ⟨fun he => hab (he ▸ hx), fun hm =>
        hdisjoint x hx x (Grove.mem_ids_of_mem_tops hm) rfl⟩
    have ih' {rest : List Kid} (hrest : Draws s r rest) : Draws s (relabel c r) (rest.map p) :=
      ih hrest hr (fun x hx hnot => hinner x (.inr (.inr hx)) ⟨fun he => har (he ▸ hx), hnot⟩)
        fun x hx => hkid x (.inr hx)
    obtain ⟨x, k⟩ := a
    unfold relabel at hbelow ih' ⊢
    simp only [Draws, Forest.map_cons, hbelow] at h ⊢
    cases hk : k.bind? with
    | none =>
      rw [hk] at h
      rw [hc.other x k hk, hk]
      exact ⟨h.1, ih' h.2⟩
    | some own =>
      cases k with
      | bind own' =>
        cases hk
        obtain ⟨kid, rest, rfl, rfl, hbelow', hshared, hrest⟩ := h
        rw [hkid x (.inl rfl) kid hshared]
        exact ⟨p kid, rest.map p, rfl, rfl, by rw [(hp kid).1, hbelow'], by rw [(hp kid).2, hshared],
          ih' hrest⟩
      | _ => cases hk

end Draws

/-- The kind of a node after a case. -/
def NodeKind.guard (existing reused : List NodeId) (conditions : List String) (x : NodeId) :
    NodeKind → NodeKind
  | .bind b => .bind (guardBind existing reused conditions x b)
  | k => k

theorem guardBinds_run (existing reused : List NodeId) (conditions : List String)
    (xs : List NodeId) (s : Synthesis) :
    guardBinds existing reused conditions xs s = ((), { s with
      tree := xs.foldl (fun t x => t.modifyKind x (.guard existing reused conditions x)) s.tree }) := by
  induction xs generalizing s with
  | nil => rfl
  | cons x xs ih =>
    have hone (t : Tree) : t.modifyBind x (guardBind existing reused conditions x) =
        t.modifyKind x (.guard existing reused conditions x) := by
      unfold Tree.modifyBind
      congr 1
    rw [List.foldl_cons, ← hone]
    exact ih _

theorem guardBind_keeps (existing reused : List NodeId) (conditions : List String) (x : NodeId)
    (b : Bind) : (guardBind existing reused conditions x b).id = b.id ∧
      (guardBind existing reused conditions x b).nodeset = b.nodeset := by
  unfold guardBind
  split
  · exact ⟨rfl, rfl⟩
  · split
    · exact ⟨rfl, rfl⟩
    · split <;> exact ⟨rfl, rfl⟩

section Guarding

variable {s : Synthesis} {f old new : Grove} {scope area : NodeId} {d : Draft} {k : NodeKind}
  {ks ks' : List Kid} {existing : List NodeId}

/-- How a case changes the kids of the scope. -/
def guarding (f : Grove) (scope : NodeId) (existing reused : List NodeId)
    (conditions : List String) (x : NodeId) (k : NodeKind) : NodeKind :=
  if x ∈ kidsOf scope f then k.guard existing reused conditions x else k

theorem guarding_recasts (f : Grove) (scope : NodeId) (existing reused : List NodeId)
    (conditions : List String) : Recasts (guarding f scope existing reused conditions) := by
  refine ⟨fun x k hk => ?_, fun x b => ?_⟩
  · unfold guarding
    split
    · cases k with
      | bind b => cases hk
      | _ => rfl
    · rfl
  · unfold guarding
    split
    · exact ⟨_, rfl, guardBind_keeps ..⟩
    · exact ⟨b, rfl, rfl, rfl⟩

theorem guardKid_keeps (isNew : Bool) (conditions : List String) (kid : Kid) :
    (guardKid isNew conditions kid).below = kid.below ∧
      (guardKid isNew conditions kid).shared = kid.shared ∧
      (guardKid isNew conditions kid).source = kid.source ∧
      (guardKid isNew conditions kid).bind.id = kid.bind.id := by
  unfold guardKid
  split
  · exact ⟨rfl, rfl, rfl, rfl⟩
  · split
    · exact ⟨rfl, rfl, rfl, rfl⟩
    · split <;> exact ⟨rfl, rfl, rfl, rfl⟩

theorem guard_eq_guardKid {isNew : Bool} {x : NodeId} {kid : Kid} (conditions : List String)
    (hnew : existing.contains x = !isNew) (hshared : x ∈ s.reused ↔ kid.shared = true) :
    (NodeKind.bind kid.bind).guard existing s.reused conditions x =
      .bind (guardKid isNew conditions kid).bind := by
  have hcontains : s.reused.contains x = kid.shared := by
    rw [Bool.eq_iff_iff, List.contains_iff_mem, hshared]
  rw [NodeKind.guard, guardBind, guardKid, hnew, hcontains, Bool.not_not]
  split
  · rfl
  · split
    · rfl
    · split <;> rfl

theorem mem_guardKids {n : Nat} {conditions : List String} {kids : List Kid} {kid : Kid}
    (h : kid ∈ guardKids n conditions kids) :
    ∃ kid₀ ∈ kids, kid₀.source = kid.source ∧ kid₀.bind.id = kid.bind.id := by
  rcases List.mem_append.1 h with h | h
  · obtain ⟨kid₀, hkid₀, rfl⟩ := List.mem_map.1 h
    obtain ⟨-, -, hs, hid⟩ := guardKid_keeps false conditions kid₀
    exact ⟨kid₀, List.mem_of_mem_take hkid₀, hs.symm, hid.symm⟩
  · obtain ⟨kid₀, hkid₀, rfl⟩ := List.mem_map.1 h
    obtain ⟨-, -, hs, hid⟩ := guardKid_keeps true conditions kid₀
    exact ⟨kid₀, List.mem_of_mem_drop hkid₀, hs.symm, hid.symm⟩

theorem Sketch.guardCase_keeps {g : Generator} {n : Nat} {t declared : TypeId} {d : Draft}
    {s : Synthesis} {kid : Kid} (h : kid ∈ (guardCase g n t declared d s).1.2.kids) :
    ∃ kid₀ ∈ d.kids, kid₀.source = kid.source ∧ kid₀.bind.id = kid.bind.id := by
  unfold guardCase at h
  split at h
  · exact mem_guardKids h
  · exact ⟨kid, h, rfl, rfl⟩

/-- The binds of a scope are guarded as its kids are, those before the case and those from it. -/
theorem Scene.guarded (h : Scene s f scope area d) (hat : at? scope f = some (k, old ++ new))
    (hkids : d.kids = ks ++ ks') (hks : Draws s old ks) (hks' : Draws s new ks')
    (hold : ∀ x ∈ tops old, x ∈ existing) (hnew : ∀ x ∈ tops new, x ∉ existing)
    (conditions : List String) :
    let s' := (guardBinds existing s.reused conditions (s.tree.children scope) s).2
    let d' := { d with kids := guardKids ks.length conditions d.kids }
    let γ : Growth := { cast := guarding f scope existing s.reused conditions }
    Adds s s' f scope area d d' γ ∧ Scene s' (γ.on scope area f) scope area d' := by
  intro s' d' γ
  obtain ⟨-, hchildren, -⟩ := Tree.links_at? h.world.shows.links hat
  have hkidsOf : kidsOf scope f = tops (old ++ new) := Grove.kidsOf_eq hat
  have hnodup : (ids (old ++ new)).Nodup :=
    (List.nodup_cons.1 (h.world.shows.nodup.sublist (Grove.sublist_of_at? hat))).2
  have hin : ∀ x ∈ tops (old ++ new), x ∈ ids f := fun x hx =>
    (Grove.mem_of_at? hat).2 x (Grove.mem_ids_of_mem_tops hx)
  obtain ⟨hholds, hsize, hroot⟩ := h.world.shows.modifyAll
    (fun x => NodeKind.guard existing s.reused conditions x)
    (hnodup.sublist (Grove.tops_sublist _)) fun x hx => h.lt (hin x hx)
  let guarded := (tops (old ++ new)).foldl
    (fun t x => t.modifyKind x (.guard existing s.reused conditions x)) s.tree
  have hrun : s' = { s with tree := guarded } := by
    dsimp only [guarded]
    rw [← hchildren]
    exact congrArg Prod.snd (guardBinds_run ..)
  have hon : γ.on scope area f = relabel γ.cast f := by
    rw [Growth.on, Grove.graft_both_nil]
  have hguarding : relabel γ.cast f = relabel (fun x k => if x ∈ tops (old ++ new) then
      k.guard existing s.reused conditions x else k) f := by
    rw [← hkidsOf]
    rfl
  have hids : s'.ids = s.ids := by rw [hrun]
  have hreused : s'.reused = s.reused := by rw [hrun]
  have htree : s'.tree.size = s.tree.size := by
    rw [hrun]
    exact hsize
  have ha : Adds s s' f scope area d d' γ := by
    refine ⟨?_, ?_, ?_, fun x hx => ?_, fun x hx => ?_, fun x hx => ?_, fun x hx => ?_,
      guarding_recasts .., fun x hx k => if_neg hx, fun x hx => ?_, (Forest.append_nil _).symm, rfl,
      rfl, rfl, fun kid hkid => ?_, fun x _ _ => by rw [hreused]⟩
    · refine h.world.shows.of_holds ?_ ?_
      · rw [hrun]
        exact hroot
      · rw [hon, hguarding, hrun]
        exact hholds
    · exact Nat.le_of_eq htree.symm
    · rw [hids]
      exact .refl _
    all_goals try cases hx
    obtain ⟨kid₀, hkid₀, hs, hid⟩ := mem_guardKids hkid
    exact .inl ⟨kid₀, hkid₀, hid, by rw [hs]; exact id⟩
  refine ⟨ha, h.grow ha ?_ ?_ ?_ ?_⟩
  · rw [hreused, htree]
    exact h.world.reused
  · intro k' below hat'
    cases hat.symm.trans hat'
    have hnodup' := hnodup
    rw [Grove.ids_append, List.nodup_append] at hnodup'
    obtain ⟨hnodupOld, hnodupNew, hdisjoint⟩ := hnodup'
    have hsplit : d'.kids = ks.map (guardKid false conditions) ++
        ks'.map (guardKid true conditions) := by
      simp only [d', guardKids, hkids, List.take_left, List.drop_left]
    have hcast (x : NodeId) (k : NodeKind) : γ.cast x k =
        if x ∈ tops (old ++ new) then k.guard existing s.reused conditions x else k := by
      rw [← hkidsOf]
      rfl
    have hbelow (isNew : Bool) (kid : Kid) : (guardKid isNew conditions kid).below = kid.below ∧
        (guardKid isNew conditions kid).shared = kid.shared :=
      ⟨(guardKid_keeps isNew conditions kid).1, (guardKid_keeps isNew conditions kid).2.1⟩
    rw [Forest.append_nil, Grove.relabel_append, hsplit]
    refine Draws.congr (s := s) (.append
      (hks.recast ha.recasts hnodupOld (fun x hx hnot k => ?_) (fun x hx kid hshared => ?_)
        (hbelow false))
      (hks'.recast ha.recasts hnodupNew (fun x hx hnot k => ?_) (fun x hx kid hshared => ?_)
        (hbelow true))) fun x _ => by rw [hreused]
    · rw [hcast, if_neg]
      rw [Grove.tops_append, List.mem_append, not_or]
      exact ⟨hnot, fun hm => hdisjoint x hx x (Grove.mem_ids_of_mem_tops hm) rfl⟩
    · rw [hcast, if_pos (by rw [Grove.tops_append]; exact List.mem_append_left _ hx)]
      exact guard_eq_guardKid conditions (by simpa using hold x hx) hshared
    · rw [hcast, if_neg]
      rw [Grove.tops_append, List.mem_append, not_or]
      exact ⟨fun hm => hdisjoint x (Grove.mem_ids_of_mem_tops hm) x hx rfl, hnot⟩
    · rw [hcast, if_pos (by rw [Grove.tops_append]; exact List.mem_append_right _ hx)]
      exact guard_eq_guardKid conditions (by simpa using hnew x hx) hshared
  · intro kid hkid k' below' hs
    obtain ⟨kid₀, hkid₀, hs₀, hid⟩ := mem_guardKids hkid
    have := (h.sourced kid₀ hkid₀).grow ha h (fun _ => rfl) k' below' (hs₀.trans hs)
    rwa [hid] at this
  · intro kid hkid
    obtain ⟨kid₀, hkid₀, -, hid⟩ := mem_guardKids hkid
    rw [hids, ← hid]
    exact h.given _ (List.mem_append_right _ (List.mem_map_of_mem hkid₀))

end Guarding

/-- Each kid has a source and none is shared, as between cases. -/
def Idle (kids : List Kid) : Prop := Settled kids ∧ ∀ kid ∈ kids, kid.shared = false

theorem settled_nil : Settled [] := fun _ hk => by cases hk

theorem idle_nil : Idle [] := ⟨settled_nil, fun _ hk => by cases hk⟩

/-- A kid that the next case has not shared yet. -/
def Kid.unshared (kid : Kid) : Kid := { kid with shared := false }

theorem Draws.unshared {s s' : Synthesis} {f : Grove} {kids : List Kid} (h : Draws s f kids)
    (hf : ∀ x ∈ tops f, x ∉ s'.reused) : Draws s' f (kids.map Kid.unshared) := by
  induction f generalizing kids with
  | nil =>
    rw [show kids = [] from h]
    rfl
  | cons a b r _ ih =>
    simp only [Grove.tops_cons, List.mem_cons] at hf
    simp only [Draws] at h ⊢
    cases ha : a.2.bind? with
    | none =>
      rw [ha] at h
      exact ⟨hf a.1 (.inl rfl), ih h.2 fun x hx => hf x (.inr hx)⟩
    | some own =>
      rw [ha] at h
      obtain ⟨kid, rest, rfl, hown, hbelow, hshared, hrest⟩ := h
      exact ⟨kid.unshared, rest.map Kid.unshared, rfl, hown, hbelow,
        iff_of_false (hf a.1 (.inl rfl)) Bool.false_ne_true, ih hrest fun x hx => hf x (.inr hx)⟩

/-- None of the trees is noted when no kid is shared. -/
theorem Draws.not_reused {s : Synthesis} {f : Grove} {kids : List Kid} (h : Draws s f kids)
    (hkids : ∀ kid ∈ kids, kid.shared = false) : ∀ x ∈ tops f, x ∉ s.reused := by
  induction f generalizing kids with
  | nil => exact fun x hx => by cases hx
  | cons a b r _ ih =>
    simp only [Grove.tops_cons, List.mem_cons, forall_eq_or_imp]
    simp only [Draws] at h
    cases ha : a.2.bind? with
    | none =>
      rw [ha] at h
      exact ⟨h.1, ih h.2 hkids⟩
    | some own =>
      rw [ha] at h
      obtain ⟨kid, rest, rfl, hown, hbelow, hshared, hrest⟩ := h
      refine ⟨fun hm => ?_, ih hrest fun kid' hkid' => hkids kid' (List.mem_cons_of_mem _ hkid')⟩
      have := hkids kid (List.mem_cons_self ..)
      rw [hshared.1 hm] at this
      cases this

theorem Kid.map_unshared {kids : List Kid} (h : ∀ kid ∈ kids, kid.shared = false) :
    kids.map Kid.unshared = kids := by
  refine (List.map_congr_left fun kid hkid => ?_).trans (List.map_id kids)
  rw [Kid.unshared, ← h kid hkid]
  rfl

section Case

variable {α : Type} {g : Generator} {φ : Frame} {area : NodeId}

/-- What comes after the content of a case: its binds are guarded, unless it is the case of the
declared type. -/
def guardCase (g : Generator) (scope : NodeId) (existing : List NodeId) (t declared : TypeId)
    (s : Synthesis) : Synthesis :=
  if t ≠ declared then (g.applyRelevance scope existing s.reused t s).2 else s

theorem applyRelevance_run (g : Generator) (scope : NodeId) (existing reused outer : List NodeId)
    (t : TypeId) (s : Synthesis) :
    g.applyRelevance scope existing reused t { s with reused := outer } =
      ((), { (g.applyRelevance scope existing reused t s).2 with reused := outer }) := by
  have hq := Quiet.typeConditions g (t :: g.substitutes.of t)
  have hrun (s : Synthesis) : g.applyRelevance scope existing reused t s =
      guardBinds existing reused (g.typeConditions (t :: g.substitutes.of t) s).1
        ((g.typeConditions (t :: g.substitutes.of t) s).2.tree.children scope)
        (g.typeConditions (t :: g.substitutes.of t) s).2 := rfl
  rw [hrun, hrun, guardBinds_run, guardBinds_run, hq.run s, hq.run { s with reused := outer }]
  rfl

/-- The binds are guarded as in the sketch. -/
theorem Scene.guardCase {s : Synthesis} {f old new : Grove} {scope : NodeId} {d : Draft}
    {k : NodeKind} {ks ks' : List Kid} {existing : List NodeId} (h : Scene s f scope area d)
    (hat : at? scope f = some (k, old ++ new)) (hkids : d.kids = ks ++ ks') (hks : Draws s old ks)
    (hks' : Draws s new ks') (hold : ∀ x ∈ tops old, x ∈ existing)
    (hnew : ∀ x ∈ tops new, x ∉ existing) (t declared : TypeId) :
    let s' := guardCase g scope existing t declared s
    let sketched := Sketch.guardCase g ks.length t declared d s.bare
    ∃ γ, Adds s s' f scope area d sketched.1.2 γ ∧ Scene s' (γ.on scope area f) scope area
      sketched.1.2 ∧ s'.bare = sketched.2 := by
  unfold SchemaForms.guardCase Sketch.guardCase
  split
  · have hq := Quiet.typeConditions g (t :: g.substitutes.of t)
    let conditions := g.typeConditions (t :: g.substitutes.of t)
    have htree : (conditions s).2.tree = s.tree := hq.tree_eq s
    have hreused : (conditions s).2.reused = s.reused := hq.reused_eq s
    have hstill : Adds s (conditions s).2 f scope area d d {} :=
      .still h.world.shows htree hreused (hq.before s) rfl
    have h₁ := h.still htree hreused (hq.before s)
    obtain ⟨ha, h₂⟩ := h₁.guarded hat hkids (hks.congr fun x _ => by rw [hreused])
      (hks'.congr fun x _ => by rw [hreused]) hold hnew (conditions s).1
    have hrun : (g.applyRelevance scope existing s.reused t s).2 =
        (guardBinds existing (conditions s).2.reused (conditions s).1
          ((conditions s).2.tree.children scope) (conditions s).2).2 := by
      rw [hreused]
      rfl
    have hsketch : Sketch.applyRelevance g ks.length t d s.bare =
        (((), { d with kids := guardKids ks.length (conditions s).1 d.kids }),
          (conditions s).2.bare) := by
      rw [hq.fst_eq s, hq.bare_eq s]
      rfl
    rw [hrun, hsketch]
    rw [← Growth.on_nil scope area f] at h₁ ha
    refine ⟨_, hstill.trans h h₁ ha, ?_, ?_⟩
    · rwa [← hstill.on_on h h₁ ha, Growth.on_nil]
    · rw [guardBinds_run]
      rfl
  · exact ⟨{}, .still h.world.shows rfl rfl (.refl _) rfl, by rwa [Growth.on_nil], rfl⟩

/-- One case of a switch, around its content. -/
theorem Follows.case {f : Synth α} {p : Sketch α} {β : Type} (k : α → β)
    (hf : Follows Settled φ area f p) (t declared : TypeId) :
    Follows Idle φ area
      (do
        let existing := (← get).tree.children φ.scope
        let outer ← Synthesis.swapReused []
        let data ← f
        let reused ← Synthesis.swapReused outer
        if t ≠ declared then g.applyRelevance φ.scope existing reused t
        return k data)
      (do
        let existing := (← get).kids.length
        let data ← p
        Sketch.guardCase g existing t declared
        Sketch.unshare
        return k data) := by
  intro s grove d h ⟨hsettled, hunshared⟩ hφ
  obtain ⟨k₀, below, hat, -, hdraws, -⟩ := h.scopeAt.here
  obtain ⟨-, hchildren, -⟩ := Tree.links_at? h.world.shows.links hat
  let s₀ : Synthesis := { s with reused := [] }
  have hdraws₀ : Draws s₀ below d.kids := by
    rw [← Kid.map_unshared hunshared]
    exact hdraws.unshared fun x _ => List.not_mem_nil
  have hdrawn : ∀ k b, at? φ.scope grove = some (k, b) → Draws s₀ b d.kids := by
    intro k b hat'
    cases hat.symm.trans hat'
    exact hdraws₀
  have h₀ : Scene s₀ grove φ.scope area d :=
    h.renote rfl rfl (fun x hx => by cases hx) hdrawn fun kid hkid => ⟨kid, hkid, rfl, rfl⟩
  obtain ⟨hresult, hbare, hsettled₁, γ, ha, h₁⟩ := hf h₀ hsettled ⟨hφ.own, hφ.around, hφ.parent, hφ.known⟩
  let s₁ := (f s₀).2
  let d₁ := (p d s.bare).1.2
  change Adds s₀ s₁ grove φ.scope area d d₁ γ at ha
  change Scene s₁ (γ.on φ.scope area grove) φ.scope area d₁ at h₁
  obtain ⟨k₁, below₁, hat₁, -, hdraws₁, -⟩ := h₁.scopeAt.here
  cases hat₁.symm.trans (ha.at?_scope h₀ hat)
  obtain ⟨ks, ks', hkids, hks, hks'⟩ := hdraws₁.split
  have hlength : ks.length = d.kids.length := by
    have hnow := congrArg List.length hks.bindTops_eq
    have hbefore := congrArg List.length hdraws.bindTops_eq
    rw [Grove.length_bindTops_relabel ha.recasts] at hnow
    simpa [hbefore] using hnow.symm
  let existing := s.tree.children φ.scope
  let s₂ := guardCase g φ.scope existing t declared s₁
  let s' : Synthesis := { s₂ with reused := s.reused }
  let sketched := Sketch.guardCase g d.kids.length t declared d₁ s₁.bare
  let d₂ := sketched.1.2
  obtain ⟨γ₂, ha₂, h₂, hbare₂⟩ : ∃ γ₂, Adds s₁ s₂ (γ.on φ.scope area grove) φ.scope area d₁ d₂ γ₂ ∧
      Scene s₂ (γ₂.on φ.scope area (γ.on φ.scope area grove)) φ.scope area d₂ ∧
        s₂.bare = sketched.2 := by
    have hold : ∀ x ∈ tops (relabel γ.cast below), x ∈ s.tree.children φ.scope := fun x hx => by
      rwa [hchildren, ← Grove.tops_relabel γ.cast]
    have hnew : ∀ x ∈ tops γ.binds, x ∉ s.tree.children φ.scope := by
      intro x hx hm
      rw [hchildren] at hm
      have hm' := (Grove.mem_of_at? hat).2 x (Grove.mem_ids_of_mem_tops hm)
      exact h.not_mem_of_new ha.newBinds hm' (Grove.mem_ids_of_mem_tops hx)
    have hguard := h₁.guardCase (g := g) hat₁ hkids hks hks' hold hnew t declared
    rwa [hlength] at hguard
  have hall := ha.trans h₀ h₁ ha₂
  have hkeeps : ∀ kid ∈ d₂.kids.map Kid.unshared, ∃ old ∈ d₂.kids, old.bind = kid.bind ∧
      old.source = kid.source := by
    intro kid hkid
    obtain ⟨old, hold, rfl⟩ := List.mem_map.1 hkid
    exact ⟨old, hold, rfl, rfl⟩
  have hsize : s.tree.size ≤ s₂.tree.size := hall.size_le
  have hrun : (do
      let existing := (← get).tree.children φ.scope
      let outer ← Synthesis.swapReused []
      let data ← f
      let reused ← Synthesis.swapReused outer
      if t ≠ declared then g.applyRelevance φ.scope existing reused t
      return k data : Synth β) s = (k (f s₀).1, s') := by
    by_cases ht : t ≠ declared
    · have hrelevance := applyRelevance_run g φ.scope existing s₁.reused s.reused t s₁
      have hs' : s' = (g.applyRelevance φ.scope existing s₁.reused t
          { s₁ with reused := s.reused }).2 := by
        rw [hrelevance]
        dsimp only [s', s₂, guardCase]
        rw [if_pos ht]
      simp only [if_pos ht, hs']
      rfl
    · have hs' : s' = { s₁ with reused := s.reused } := by
        dsimp only [s', s₂, guardCase]
        rw [if_neg ht]
      simp only [if_neg ht, hs']
      rfl
  have hsketch : (do
      let existing := (← get).kids.length
      let data ← p
      Sketch.guardCase g existing t declared
      Sketch.unshare
      return k data : Sketch β) d s.bare =
        ((k (p d s.bare).1.1, { d₂ with kids := d₂.kids.map Kid.unshared }), s₂.bare) := by
    have hd₂ : sketched = Sketch.guardCase g d.kids.length t declared d₁ (p d s.bare).2 := by
      rw [show (p d s.bare).2 = s₁.bare from hbare.symm]
    rw [hbare₂]
    dsimp only [d₂]
    rw [hd₂]
    rfl
  rw [hrun, hsketch]
  refine ⟨congrArg k hresult, rfl, ⟨?_, ?_⟩, γ.andThen γ₂ (kidsOf φ.scope grove), ?_, ?_⟩
  · intro kid hkid
    obtain ⟨kid₂, hkid₂, -, hs⟩ := hkeeps kid hkid
    obtain ⟨kid₁, hkid₁, hs₁, -⟩ := Sketch.guardCase_keeps hkid₂
    rw [← hs, ← hs₁]
    exact hsettled₁ kid₁ hkid₁
  · intro kid hkid
    obtain ⟨old, -, rfl⟩ := List.mem_map.1 hkid
    rfl
  · refine { hall with fresh := ?_, reused := fun x hx hnot => .rfl }
    intro kid hkid
    obtain ⟨old, hold, rfl⟩ := List.mem_map.1 hkid
    exact hall.fresh old hold
  · rw [← ha.on_on h₀ h₁ ha₂]
    refine h₂.renote rfl rfl ?_ ?_ hkeeps
    · exact fun x hx => Nat.lt_of_lt_of_le (h.world.reused x hx) hsize
    · intro k below hatk
      obtain ⟨k', below', hat', -, hdraws₂, -⟩ := h₂.scopeAt.here
      cases hat'.symm.trans hatk
      refine hdraws₂.unshared fun x hx => ?_
      have hkidsOf := hall.kidsOf_eq h₀
      rw [← ha.on_on h₀ h₁ ha₂, Grove.kidsOf_eq hatk, Grove.kidsOf_eq hat] at hkidsOf
      rw [hkidsOf, List.mem_append] at hx
      rcases hx with hx | hx
      · exact hdraws.not_reused hunshared x hx
      · intro hm
        exact Nat.not_lt.2 (hall.newBinds x (Grove.mem_ids_of_mem_tops hx)) (h.world.reused x hm)

end Case

end SchemaForms
