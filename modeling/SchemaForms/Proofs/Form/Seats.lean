import SchemaForms.Proofs.Form.Discipline
import SchemaForms.Proofs.Form.Drawing

/-!
Markup and switches.  Boxes are put around controls of a section, and no section is a switch: what
hangs in a switch hangs there without a box.
-/

namespace SchemaForms

open Synthesis

def NodeKind.isSwitch : NodeKind → Bool
  | .control c => c.kind == .switch
  | _ => false

namespace Tree

/-- No markup hangs directly in a switch. -/
def Seated (t : Tree) : Prop :=
  ∀ n, (t.kind n).isSwitch = true → ∀ m ∈ t.children n, (t.kind m).isMarkup = false

/-- Nodes stay switches or markup, if they are, and nothing is seated amiss. -/
structure Keeps (t t' : Tree) : Prop where
  size_le : t.size ≤ t'.size
  isSwitch : ∀ n, n.index < t.size → (t'.kind n).isSwitch = (t.kind n).isSwitch
  isMarkup : ∀ n, n.index < t.size → (t'.kind n).isMarkup = (t.kind n).isMarkup
  seated : t.Seated → t'.Seated

variable {t t' t'' : Tree}

theorem Keeps.refl (t : Tree) : Keeps t t := ⟨Nat.le_refl _, fun _ _ => rfl, fun _ _ => rfl, id⟩

theorem Keeps.trans (h : Keeps t t') (h' : Keeps t' t'') : Keeps t t'' where
  size_le := Nat.le_trans h.size_le h'.size_le
  isSwitch n hn := (h'.isSwitch n (Nat.lt_of_lt_of_le hn h.size_le)).trans (h.isSwitch n hn)
  isMarkup n hn := (h'.isMarkup n (Nat.lt_of_lt_of_le hn h.size_le)).trans (h.isMarkup n hn)
  seated hs := h'.seated (h.seated hs)

/-- Where nodes beyond the last one are looked for, markup is found. -/
theorem lt_of_not_isMarkup {n : NodeId} (h : (t.kind n).isMarkup = false) : n.index < t.size := by
  apply Nat.lt_of_not_le
  intro hle
  rw [kind, node, Array.getD_eq_getD_getElem?, Array.getElem?_eq_none hle] at h
  cases h

theorem kind_create_of_lt {k : NodeKind} {n : NodeId} (hn : n.index < t.size) :
    (t.create k).2.node n = t.node n := by
  rw [node_create, if_neg]
  rintro rfl
  exact Nat.lt_irrefl _ hn

theorem keeps_create (t : Tree) (k : NodeKind) : Keeps t (t.create k).2 where
  size_le := by simp
  isSwitch n hn := by rw [kind, kind_create_of_lt hn, kind]
  isMarkup n hn := by rw [kind, kind_create_of_lt hn, kind]
  seated hs n hn m hm := by
    rw [kind, node_create] at hn
    rw [children, node_create] at hm
    by_cases hnew : n = (t.create k).1
    · rw [if_pos hnew] at hm
      cases hm
    · rw [if_neg hnew] at hn hm
      have hmarkup := hs n hn m hm
      rw [kind, kind_create_of_lt (lt_of_not_isMarkup hmarkup)]
      exact hmarkup

theorem keeps_setRoot (t : Tree) (n : NodeId) : Keeps t (t.setRoot n) :=
  ⟨Nat.le_refl _, fun _ _ => rfl, fun _ _ => rfl, id⟩

/-- Changes that keep where nodes hang, and what is a switch or markup. -/
theorem keeps_modifyKind (t : Tree) (n : NodeId) {f : NodeKind → NodeKind}
    (hswitch : ∀ k, (f k).isSwitch = k.isSwitch) (hmarkup : ∀ k, (f k).isMarkup = k.isMarkup) :
    Keeps t (t.modifyKind n f) := by
  have hkinds (m : NodeId) : ((t.modifyKind n f).kind m).isSwitch = (t.kind m).isSwitch ∧
      ((t.modifyKind n f).kind m).isMarkup = (t.kind m).isMarkup := by
    rw [kind, modifyKind, node_update]
    split
    · exact ⟨hswitch _, hmarkup _⟩
    · exact ⟨rfl, rfl⟩
  have hchildren (m : NodeId) : (t.modifyKind n f).children m = t.children m := by
    rw [children, modifyKind, node_update]
    split <;> rfl
  refine ⟨?_, fun m _ => (hkinds m).1, fun m _ => (hkinds m).2, fun hs m hm x hx => ?_⟩
  · have hsize : (t.modifyKind n f).size = t.size := size_update ..
    exact Nat.le_of_eq hsize.symm
  · rw [hchildren] at hx
    rw [(hkinds m).1] at hm
    rw [(hkinds x).2]
    exact hs m hm x hx

theorem keeps_modifyBind (t : Tree) (n : NodeId) (f : Bind → Bind) :
    Keeps t (t.modifyBind n f) := by
  unfold modifyBind
  apply keeps_modifyKind
  · intro k
    cases k <;> rfl
  · intro k
    cases k <;> rfl

theorem mem_children_append {p c n m : NodeId} (h : m ∈ (t.append p c).children n) :
    m ∈ t.children n ∨ n = p ∧ m = c := by
  have hdetach (x : NodeId) : x ∈ (t.detach c).children n → x ∈ t.children n := by
    intro hx
    unfold detach at hx
    split at hx
    · rw [children, node_update] at hx
      split at hx
      · exact (List.mem_filter.1 hx).1
      · exact hx
    · exact hx
  have hhang (x : NodeId) : x ∈ ((t.detach c).update c fun n =>
      { n with parent := some p }).children n → x ∈ t.children n := by
    intro hx
    apply hdetach
    rw [children, node_update] at hx
    split at hx
    · exact hx
    · exact hx
  unfold append at h
  split at h
  · exact .inl h
  · rw [children, node_update] at h
    split at h
    · next hn =>
      rcases List.mem_append.1 h with h | h
      · exact .inl (hhang m h)
      · exact .inr ⟨hn.1.symm, List.mem_singleton.1 h⟩
    · exact .inl (hhang m h)

theorem keeps_append {p c : NodeId}
    (h : (t.kind p).isSwitch = true → (t.kind c).isMarkup = false) : Keeps t (t.append p c) where
  size_le := by simp
  isSwitch n _ := by rw [kind_append]
  isMarkup n _ := by rw [kind_append]
  seated hs n hn m hm := by
    rw [kind_append] at hn ⊢
    rcases mem_children_append hm with hm | ⟨rfl, rfl⟩
    · exact hs n hn m hm
    · exact h hn

/-- A node that sections are made of: it is there, and no switch. -/
structure IsSection (t : Tree) (n : NodeId) : Prop where
  lt : n.index < t.size
  isSwitch : (t.kind n).isSwitch = false

theorem IsSection.keep {n : NodeId} (h : t.IsSection n) (hk : Keeps t t') : t'.IsSection n :=
  ⟨Nat.lt_of_lt_of_le h.lt hk.size_le, (hk.isSwitch n h.lt).trans h.isSwitch⟩

theorem IsSection.append {p : NodeId} (h : t.IsSection p) (c : NodeId) : Keeps t (t.append p c) :=
  keeps_append fun hp => by
    rw [h.isSwitch] at hp
    cases hp

theorem kind_create (t : Tree) (k : NodeKind) : (t.create k).2.kind (t.create k).1 = k := by
  rw [kind, node_create, if_pos rfl]

theorem isSection_create {k : NodeKind} (hk : k.isSwitch = false) :
    (t.create k).2.IsSection (t.create k).1 where
  lt := by
    rw [size_create]
    exact Nat.lt_succ_self _
  isSwitch := by rw [kind_create, hk]

/-! Copying. -/

theorem copyKind_faces (k : NodeKind) (ids : Identifiers) :
    (copyKind k ids).1.1.isSwitch = k.isSwitch ∧ (copyKind k ids).1.1.isMarkup = k.isMarkup := by
  cases k with
  | control c =>
    refine ⟨?_, rfl⟩
    obtain ⟨id, kind⟩ := c
    cases kind with
    | trigger action => cases action <;> rfl
    | _ => rfl
  | _ => exact ⟨rfl, rfl⟩

theorem not_isMarkup_of_isSwitch {k : NodeKind} (h : k.isSwitch = true) : k.isMarkup = false := by
  cases k with
  | control c => rfl
  | _ => cases h

/-- A copy of a node is of the same sort. -/
structure Copies (c c' : Copying) (n copy : NodeId) : Prop where
  keeps : Keeps c.tree c'.tree
  lt : copy.index < c'.tree.size
  isSwitch : (c'.tree.kind copy).isSwitch = (c.tree.kind n).isSwitch
  isMarkup : (c'.tree.kind copy).isMarkup = (c.tree.kind n).isMarkup

theorem copies_copyNode (n : NodeId) (c : Copying) :
    Copies c (copyNode n c).2 n (copyNode n c).1 := by
  obtain ⟨hswitch, hmarkup⟩ := copyKind_faces (c.tree.kind n) c.ids
  refine ⟨keeps_create _ _, ?_, ?_, ?_⟩
  · change _ < (c.tree.create (copyKind (c.tree.kind n) c.ids).1.1).2.size
    rw [size_create]
    exact Nat.lt_succ_self _
  · rw [← hswitch]
    exact congrArg NodeKind.isSwitch (kind_create _ _)
  · rw [← hmarkup]
    exact congrArg NodeKind.isMarkup (kind_create _ _)

/-- Copies of what hangs in a node hang in its copy, and no markup in that of a switch. -/
theorem keeps_copyBelow {one : NodeId → StateM Copying NodeId}
    (hone : ∀ n c, c.tree.Seated → Copies c (one n c).2 n (one n c).1) (parent : NodeId)
    (ns : List NodeId) (c : Copying) (hs : c.tree.Seated) (hparent : parent.index < c.tree.size)
    (hns : (c.tree.kind parent).isSwitch = true → ∀ n ∈ ns, (c.tree.kind n).isMarkup = false) :
    Keeps c.tree (copyBelow one parent ns c).2.tree := by
  induction ns generalizing c with
  | nil => exact .refl _
  | cons n ns ih =>
    let next : Copying := { (one n c).2 with tree := (one n c).2.tree.append parent (one n c).1 }
    have hcopy := hone n c hs
    have happend : Keeps (one n c).2.tree next.tree := by
      apply keeps_append
      intro hswitch
      rw [hcopy.keeps.isSwitch parent hparent] at hswitch
      rw [hcopy.isMarkup, hns hswitch n List.mem_cons_self]
    have hboth : Keeps c.tree next.tree := hcopy.keeps.trans happend
    have hrest : Keeps next.tree (copyBelow one parent ns next).2.tree := by
      apply ih next (hboth.seated hs) (Nat.lt_of_lt_of_le hparent hboth.size_le)
      intro hswitch m hm
      rw [hboth.isSwitch parent hparent] at hswitch
      have hmarkup := hns hswitch m (List.mem_cons_of_mem _ hm)
      rw [hboth.isMarkup m (lt_of_not_isMarkup hmarkup), hmarkup]
    exact hboth.trans hrest

theorem copies_copySubtree (depth : Nat) (n : NodeId) (c : Copying) (hs : c.tree.Seated) :
    Copies c (copySubtree depth n c).2 n (copySubtree depth n c).1 := by
  induction depth generalizing n c with
  | zero => exact copies_copyNode n c
  | succ depth ih =>
    let copy := (copyNode n c).1
    let next := (copyNode n c).2
    have hnode := copies_copyNode n c
    have hbelow : Keeps next.tree
        (copyBelow (fun m => copySubtree depth m) copy (next.tree.children n) next).2.tree := by
      apply keeps_copyBelow ih copy _ next (hnode.keeps.seated hs) hnode.lt
      intro hswitch m hm
      rw [hnode.isSwitch] at hswitch
      have hlt := lt_of_not_isMarkup (not_isMarkup_of_isSwitch hswitch)
      have hsource : (next.tree.kind n).isSwitch = true :=
        (hnode.keeps.isSwitch n hlt).trans hswitch
      exact hnode.keeps.seated hs n hsource m hm
    exact
      { keeps := hnode.keeps.trans hbelow
        lt := Nat.lt_of_lt_of_le hnode.lt hbelow.size_le
        isSwitch := (hbelow.isSwitch copy hnode.lt).trans hnode.isSwitch
        isMarkup := (hbelow.isMarkup copy hnode.lt).trans hnode.isMarkup }

theorem keeps_deepCopy (hs : t.Seated) (ids : Identifiers) (n : NodeId) :
    Keeps t (t.deepCopy ids n).2.1 ∧ ((t.deepCopy ids n).1).index < (t.deepCopy ids n).2.1.size := by
  let made := (copySubtree t.size n ⟨t, ids, .empty, []⟩).2
  have hcopy := copies_copySubtree t.size n ⟨t, ids, .empty, []⟩ hs
  have hredirect (t : Tree) (table : Table String String) (n : NodeId) :
      Keeps t (t.modifyControl n (·.redirect table)) := by
    apply keeps_modifyKind
    · intro k
      cases k with
      | control c =>
        obtain ⟨id, kind⟩ := c
        cases kind with
        | trigger action => cases action <;> rfl
        | _ => rfl
      | _ => rfl
    · intro k
      cases k <;> rfl
  have hall (ns : List NodeId) (t : Tree) (table : Table String String) :
      Keeps t (ns.foldl (fun t n => t.modifyControl n (·.redirect table)) t) := by
    induction ns generalizing t with
    | nil => exact .refl t
    | cons n ns ih => exact (hredirect t table n).trans (ih _)
  have hlast := hall made.created made.tree made.renamed
  exact ⟨hcopy.keeps.trans hlast, Nat.lt_of_lt_of_le hcopy.lt hlast.size_le⟩

end Tree

/-! Steps of the generator. -/

/-- In every arena where some nodes are sections and nothing is seated amiss, a step keeps it so; and
what it makes for more controls are sections too. -/
def Seats {α : Type} (areas : List NodeId) (f : Synth α) (made : α → List NodeId) : Prop :=
  ∀ s : Synthesis, s.tree.Seated → (∀ n ∈ areas, s.tree.IsSection n) →
    s.tree.Keeps (f s).2.tree ∧ ∀ n ∈ made (f s).1, (f s).2.tree.IsSection n

/-- A step that makes no section. -/
abbrev SeatsAll {α : Type} (areas : List NodeId) (f : Synth α) : Prop := Seats areas f fun _ => []

/-- Sections stay sections, and nothing is seated amiss. -/
def sections : Upkeep NodeId where
  Good := Tree.Seated
  Change := Tree.Keeps
  Fit := Tree.IsSection
  refl := .refl
  trans h h' := h.trans h'
  good h ht := h.seated ht
  fit h hp := hp.keep h

namespace Seats

variable {α β : Type} {areas : List NodeId} {made : α → List NodeId} {made' : β → List NodeId}

theorem of_keeps {f : Synth α}
    (h : ∀ s : Synthesis, s.tree.Seated → (∀ n ∈ areas, s.tree.IsSection n) →
      s.tree.Keeps (f s).2.tree) : SeatsAll areas f := Upkeep.of_change (U := sections) h

theorem pure {a : α} (h : made a ⊆ areas) : Seats areas (pure a) made :=
  Upkeep.pure (U := sections) h

theorem done (a : α) : SeatsAll areas (Pure.pure a) := pure (List.nil_subset _)

theorem bind {f : Synth α} {k : α → Synth β} (hf : Seats areas f made)
    (hk : ∀ a, Seats (made a ++ areas) (k a) made') : Seats areas (f >>= k) made' :=
  Upkeep.bind (U := sections) hf hk

/-- After a step that does not see the arena. -/
theorem after {f : Synth α} {k : α → Synth β} (hf : Quiet f) (hk : ∀ a, Seats areas (k a) made') :
    Seats areas (f >>= k) made' := Upkeep.after (U := sections) hf hk

/-- After a look at the state. -/
theorem look {k : Synthesis → Synth β} (hk : ∀ s, Seats areas (k s) made') :
    Seats areas (get >>= k) made' := Upkeep.look (U := sections) hk

theorem createNode {k : NodeKind} (hk : k.isSwitch = false) :
    Seats areas (create k) fun n => [n] := by
  intro s _ _
  refine ⟨Tree.keeps_create s.tree k, fun n hn => ?_⟩
  rw [List.mem_singleton.1 hn]
  exact Tree.isSection_create hk

theorem create {c : Control} (hc : c.kind ≠ .switch) :
    Seats areas (create (.control c)) fun n => [n] :=
  createNode (by simpa [NodeKind.isSwitch] using hc)

/-- A control is no markup, so it may hang anywhere. -/
theorem hang {c : Control} (hc : c.kind ≠ .switch) (parent : NodeId) {k : NodeId → Synth β}
    (hk : ∀ n, Seats ([n] ++ areas) (k n) made') :
    Seats areas (Synthesis.create (.control c) >>= fun n => append parent n >>= fun _ => k n)
      made' := by
  intro s hs hareas
  let made : Synthesis := { s with
    tree := (s.tree.create (.control c)).2.append parent (s.tree.create (.control c)).1 }
  have happend : (s.tree.create (.control c)).2.Keeps made.tree := by
    apply Tree.keeps_append
    intro _
    rw [Tree.kind_create]
    rfl
  have hboth := (Tree.keeps_create s.tree (.control c)).trans happend
  have hsection : (s.tree.create (.control c)).2.IsSection (s.tree.create (.control c)).1 :=
    Tree.isSection_create (by simpa [NodeKind.isSwitch] using hc)
  obtain ⟨hrest, hmade⟩ := hk (s.tree.create (.control c)).1 made (hboth.seated hs) fun n hn => by
    rcases List.mem_append.1 hn with hn | hn
    · exact List.mem_singleton.1 hn ▸ hsection.keep happend
    · exact (hareas n hn).keep hboth
  exact ⟨hboth.trans hrest, hmade⟩

theorem createAny (k : NodeKind) : SeatsAll areas (Synthesis.create k) :=
  of_keeps fun s _ _ => Tree.keeps_create s.tree k

end Seats

namespace Generator

variable {g : Generator} {areas : List NodeId} {area : NodeId}

theorem seats_append (child : NodeId) (harea : area ∈ areas) :
    SeatsAll areas (append area child) :=
  .of_keeps fun _ _ hareas => (hareas area harea).append child

/-- The container of a control: the control itself, or a box around it. -/
theorem keeps_container (hl : g.layout.Standard) (node : NodeId) (t : Tree) :
    t.Keeps (g.layout.control node t).2 ∧
      (t.IsSection node → (g.layout.control node t).2.IsSection (g.layout.control node t).1) := by
  obtain ⟨box, hbox⟩ := hl.boxes
  rw [hbox.control]
  cases box with
  | none => exact ⟨.refl t, id⟩
  | some m =>
    have hnew : (t.create (.markup m)).2.IsSection ⟨t.size⟩ := Tree.isSection_create rfl
    have happend := hnew.append node
    exact ⟨(Tree.keeps_create _ _).trans happend, fun _ => hnew.keep happend⟩

theorem seats_place (hl : g.layout.Standard) (node : NodeId) (harea : area ∈ areas) :
    SeatsAll areas (g.place area node) := by
  have hcontainer : SeatsAll areas (onTree (g.layout.control node)) :=
    .of_keeps fun s _ _ => (keeps_container hl node s.tree).1
  exact hcontainer.bind fun container => seats_append container harea

theorem seats_addControl (hl : g.layout.Standard) (c : Control) (harea : area ∈ areas) :
    SeatsAll areas (g.addControl area c) :=
  (Seats.createAny _).bind fun n => (seats_place hl n harea).bind fun _ => .done n

/-- A control that is no switch may be made a section. -/
theorem seats_addSection (hl : g.layout.Standard) {c : Control} (hc : c.kind ≠ .switch)
    (harea : area ∈ areas) : Seats areas (g.addControl area c) fun n => [n] := by
  apply (Seats.create hc).bind
  intro n
  apply (seats_place hl n (List.mem_cons_of_mem _ harea)).bind
  intro _
  exact .pure (List.subset_append_left ..)

theorem seats_contentOf (hl : g.layout.Standard) (harea : area ∈ areas) :
    Seats areas (g.contentOf area) fun n => [n] := by
  intro s _ hareas
  obtain ⟨box, hbox⟩ := hl.boxes
  have hrun : g.contentOf area s = (area, s) := by
    change ((g.layout.groupContent area s.tree).1,
      { s with tree := (g.layout.groupContent area s.tree).2 }) = _
    rw [hbox.content]
  rw [hrun]
  exact ⟨.refl _, fun n hn => List.mem_singleton.1 hn ▸ hareas area harea⟩

/-- A bind is no markup, so it may hang anywhere. -/
theorem seats_addBind (scope : NodeId) (b : Bind) (nodeset : String) :
    SeatsAll areas (addBind scope b nodeset) := by
  apply Seats.of_keeps
  intro s _ _
  let kind : NodeKind := .bind { b with id := (s.ids.allocate "bind").1, nodeset := nodeset }
  have hcreate := Tree.keeps_create s.tree kind
  have happend : (s.tree.create kind).2.Keeps
      ((s.tree.create kind).2.append scope (s.tree.create kind).1) := by
    apply Tree.keeps_append
    intro _
    rw [Tree.kind_create]
    rfl
  exact hcreate.trans happend

theorem seats_addTriggers (cs : List Control) (harea : area ∈ areas) :
    SeatsAll areas (addTriggers area cs) := by
  induction cs with
  | nil => exact .done ()
  | cons c cs ih =>
    exact (Seats.createAny _).bind fun trigger => (seats_append trigger harea).bind fun _ => ih

theorem seats_addTriggerRow (hl : g.layout.Standard) {cs : List Control}
    (hcs : ∀ c ∈ cs, c.kind ≠ .switch) (harea : area ∈ areas) :
    SeatsAll areas (g.addTriggerRow area cs) := by
  cases cs with
  | nil => exact .done ()
  | cons c cs =>
    apply (Seats.create (hcs c List.mem_cons_self)).bind
    intro trigger
    have hcontainer : Seats ([trigger] ++ areas) (onTree (g.layout.control trigger))
        fun n => [n] := by
      intro s _ hareas
      obtain ⟨hkeeps, hsection⟩ := keeps_container hl trigger s.tree
      refine ⟨hkeeps, fun n hn => ?_⟩
      rw [List.mem_singleton.1 hn]
      exact hsection (hareas trigger List.mem_cons_self)
    apply hcontainer.bind
    intro container
    have harea : area ∈ [container] ++ ([trigger] ++ areas) := by simp [harea]
    apply (seats_append container harea).bind
    intro _
    apply seats_addTriggers
    split
    · exact harea
    · exact List.mem_cons_self

theorem seats_addRepeat (hl : g.layout.Standard) (spot : Spot) (harea : spot.area ∈ areas) :
    Seats areas (g.addRepeat spot) fun n => [n] := by
  refine .after (.allocate "repeat") fun id => .look fun s => ?_
  refine .after (.reportUngoverned id _) fun _ => .after (.repeatActions id _) fun actions => ?_
  refine Seats.bind (Seats.create (by simp)) fun node => ?_
  have harea : spot.area ∈ [node] ++ areas := List.mem_cons_of_mem _ harea
  refine (seats_addTriggerRow hl (fun c hc => ?_) harea).bind fun _ => ?_
  · obtain ⟨a, -, rfl⟩ := List.mem_map.1 hc
    simp [repeatTrigger]
  · exact (seats_place hl node harea).bind fun _ => .pure (List.subset_append_left ..)

theorem seats_reuse (hl : g.layout.Standard) (spot : Spot) (nodeset : String)
    (harea : spot.area ∈ areas) : SeatsAll areas (g.reuse spot nodeset) := by
  unfold reuse
  refine .look fun s => ?_
  split
  · exact .done false
  · refine .look fun s => ?_
    split
    · exact .after (.report _) fun _ => .done true
    · have hcopy (n : NodeId) : SeatsAll areas (deepCopy n) := .of_keeps fun s hs _ =>
        (Tree.keeps_deepCopy hs s.ids n).1
      have hnote (n : NodeId) : SeatsAll areas (noteReused n) := .of_keeps fun s _ _ => by
        change s.tree.Keeps (if s.reused.contains n then s else _).tree
        split <;> exact .refl _
      exact (hcopy _).bind fun copy => (seats_place hl copy harea).bind fun _ =>
        (hnote _).bind fun _ => .done true

end Generator

/-- The anchors that are sections. -/
def Anchor.sections (anchors : List Anchor) : List NodeId :=
  anchors.filterMap fun
    | .any n => some n
    | .unboxed _ => none

theorem Anchor.mem_sections {anchors : List Anchor} {n : NodeId} (h : .any n ∈ anchors) :
    n ∈ sections anchors := List.mem_filterMap.2 ⟨_, h, rfl⟩

theorem Anchor.sections_append (anchors more : List Anchor) :
    sections (anchors ++ more) = sections anchors ++ sections more := List.filterMap_append

/-- The discipline of steps that seat nothing amiss. -/
def seating {g : Generator} (hl : g.layout.Standard) : Discipline g where
  Step anchors f made := Seats (Anchor.sections anchors) f fun a => Anchor.sections (made a)
  pure h := .pure fun _ hn => by
    obtain ⟨p, hp, hn⟩ := List.mem_filterMap.1 hn
    exact List.mem_filterMap.2 ⟨p, h hp, hn⟩
  bind hf hk := hf.bind fun a => Anchor.sections_append .. ▸ hk a
  look hk := .look hk
  still h := .of_keeps fun s _ _ => h s ▸ .refl s.tree
  modifyBind n f := .of_keeps fun s _ _ => Tree.keeps_modifyBind s.tree n f
  hang hc _ hk := .hang hc _ hk
  addBind b nodeset _ := (Generator.seats_addBind _ b nodeset)
  addControl c harea := Generator.seats_addControl hl c (Anchor.mem_sections harea)
  addSection hc harea := Generator.seats_addSection hl hc (Anchor.mem_sections harea)
  contentOf hgroup := Generator.seats_contentOf hl (Anchor.mem_sections hgroup)
  addRepeat spot harea := Generator.seats_addRepeat hl spot (Anchor.mem_sections harea)
  reuse spot nodeset harea := Generator.seats_reuse hl spot nodeset (Anchor.mem_sections harea)

namespace Generator

variable {g : Generator} {areas : List NodeId}

/-! The whole form. -/

theorem seats_onTree {f : Tree → NodeId × Tree}
    (h : ∀ t : Tree, t.Keeps (f t).2 ∧ (f t).2.IsSection (f t).1) :
    Seats areas (onTree f) fun n => [n] := by
  intro s _ _
  obtain ⟨hkeeps, hsection⟩ := h s.tree
  exact ⟨hkeeps, fun n hn => List.mem_singleton.1 hn ▸ hsection⟩

/-- Markup hangs in other markup. -/
theorem keeps_addMarkup {t : Tree} {parent : NodeId} (hparent : t.IsSection parent) (m : Markup) :
    let t' := (t.create (.markup m)).2.append parent (t.create (.markup m)).1
    t.Keeps t' ∧ t'.IsSection (t.create (.markup m)).1 := by
  have hcreate := Tree.keeps_create t (.markup m)
  have happend := (hparent.keep hcreate).append (t.create (.markup m)).1
  have hnew : (t.create (.markup m)).2.IsSection (t.create (.markup m)).1 :=
    Tree.isSection_create rfl
  exact ⟨hcreate.trans happend, hnew.keep happend⟩

theorem envelope_isSection (hl : g.layout.Standard) (t : Tree) :
    t.Keeps (g.layout.envelope t).2 ∧ (g.layout.envelope t).2.IsSection (g.layout.envelope t).1 := by
  have hroot (m : Markup) : let t' := (t.create (.markup m)).2.setRoot (t.create (.markup m)).1
      t.Keeps t' ∧ t'.IsSection (t.create (.markup m)).1 := by
    have hset := Tree.keeps_setRoot (t.create (.markup m)).2 (t.create (.markup m)).1
    have hnew : (t.create (.markup m)).2.IsSection (t.create (.markup m)).1 :=
      Tree.isSection_create rfl
    exact ⟨(Tree.keeps_create _ _).trans hset, hnew.keep hset⟩
  generalize g.layout = l at hl
  cases hl with
  | plain => exact hroot _
  | page stylesheet title =>
    obtain ⟨hfirst, hhtml⟩ := hroot htmlMarkup
    obtain ⟨hsecond, hhead⟩ := keeps_addMarkup hhtml headMarkup
    cases title with
    | none =>
      obtain ⟨hlink, -⟩ := keeps_addMarkup hhead (linkMarkup stylesheet)
      have hall := hsecond.trans hlink
      exact ⟨hfirst.trans hall, hhtml.keep hall⟩
    | some text =>
      obtain ⟨htitle, -⟩ := keeps_addMarkup hhead { name := "title", text := some text }
      obtain ⟨hlink, -⟩ := keeps_addMarkup (hhead.keep htitle) (linkMarkup stylesheet)
      have hall := hsecond.trans (htitle.trans hlink)
      exact ⟨hfirst.trans hall, hhtml.keep hall⟩

theorem keeps_model (hl : g.layout.Standard) (model : NodeId) (t : Tree) :
    t.Keeps (g.layout.model model t).2 := by
  generalize g.layout = l at hl
  cases hl with
  | plain => exact .refl t
  | page stylesheet title =>
    change t.Keeps (Layout.pageModel model t).2
    unfold Layout.pageModel
    split
    · exact .refl t
    · split
      · exact .refl t
      · next head hfind =>
        apply Tree.keeps_append
        intro hswitch
        have hhead : Layout.isHead (t.kind head) = true := by
          simpa using List.find?_some hfind
        unfold Layout.isHead at hhead
        split at hhead
        · next hkind =>
          rw [hkind] at hswitch
          cases hswitch
        · cases hhead

theorem form_isSection (hl : g.layout.Standard) {envelope : NodeId} {t : Tree}
    (h : t.IsSection envelope) : t.Keeps (g.layout.form envelope t).2 ∧
      (g.layout.form envelope t).2.IsSection (g.layout.form envelope t).1 := by
  generalize g.layout = l at hl
  cases hl with
  | plain => exact ⟨.refl t, h⟩
  | page stylesheet title => exact keeps_addMarkup h { name := "body" }

theorem seats_build (hl : g.layout.Standard) (r : Request) (root : ElementId)
    (nsPrefix : Option String) (rootName : String) :
    SeatsAll [] (g.build r root nsPrefix rootName) := by
  refine Seats.bind (seats_onTree (envelope_isSection hl)) fun envelope => ?_
  refine .after (.allocate _) fun modelId => ?_
  refine Seats.bind (Seats.createNode rfl) fun model => ?_
  refine Seats.bind (.of_keeps fun s _ _ => keeps_model hl model s.tree) fun container => ?_
  refine Seats.bind (seats_append container (by simp)) fun _ => ?_
  have hform : Seats ([model] ++ ([envelope] ++ [])) (onTree (g.layout.form envelope))
      fun n => [n] := by
    intro s _ hareas
    obtain ⟨hkeeps, hsection⟩ := form_isSection hl (hareas envelope (by simp))
    exact ⟨hkeeps, fun n hn => List.mem_singleton.1 hn ▸ hsection⟩
  refine Seats.bind hform fun form => .after (.allocate _) fun dataId => ?_
  refine Seats.bind (Seats.createAny _) fun data => ?_
  refine Seats.bind (seats_append data (by simp)) fun _ => ?_
  refine Seats.bind (seats_contentOf hl List.mem_cons_self) fun content => ?_
  have helement : SeatsAll [content, form, model, envelope]
      (g.addElement (g.schema.elements.size + 1) ⟨model, content⟩
        (prepareRoot (bareInstance (g.schema.element root) nsPrefix)) root ("/" ++ rootName) .once) :=
    Discipline.addElement (D := seating hl) _ [.any content, .any form, .any model, .any envelope]
      _ _ _ _ _ List.mem_cons_self (.of_any (by simp))
  refine Seats.bind helement fun filled => ?_
  refine .after (.allocate _) fun submissionId => ?_
  refine Seats.bind (Seats.createAny _) fun submission => ?_
  refine Seats.bind (seats_append submission (by simp)) fun _ => ?_
  refine .after (.allocate _) fun submitId => ?_
  exact (seats_addControl hl _ List.mem_cons_self).bind fun _ => .done _

/-- In a form no markup hangs directly in a switch. -/
theorem generate_seated (hl : g.layout.Standard) {time : String} {r : Request} {form : Form}
    (h : g.generate time r = .ok form) : form.tree.Seated := by
  unfold generate at h
  split at h
  · cases h
  · next root _ =>
    have htree := (Quiet.qualified (g.schema.element root).name).tree_eq Synthesis.initial
    dsimp only at h
    generalize Synthesis.qualified (g.schema.element root).name Synthesis.initial = named
      at h htree
    obtain ⟨⟨nsPrefix, rootName⟩, s⟩ := named
    dsimp only at h htree
    have hstart : s.tree.Seated := by
      rw [htree]
      exact fun n hn => nomatch hn
    have hbuilt := (seats_build hl r root nsPrefix rootName s hstart fun n hn => nomatch hn).1
    split at h
    · cases h
    · generalize g.build r root nsPrefix rootName s = built at h hbuilt
      obtain ⟨⟨skeleton, data⟩, s'⟩ := built
      cases h
      have hdata (f : NodeKind → NodeKind) (hf : ∀ k, (f k).isSwitch = k.isSwitch ∧
          (f k).isMarkup = k.isMarkup) : (s'.tree.modifyKind data f).Seated :=
        (Tree.keeps_modifyKind s'.tree data (fun k => (hf k).1) fun k => (hf k).2).seated
          (hbuilt.seated hstart)
      apply hdata
      intro k
      cases k <;> exact ⟨rfl, rfl⟩

end Generator

end SchemaForms
