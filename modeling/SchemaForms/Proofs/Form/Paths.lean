import SchemaForms.Proofs.Form.Reading

/-!
Paths: what the binds of a form select in its instance.  The path of a bind is put together from
the nodesets of the binds around it, by going up the tree; here it is read off the nodesets from
the outside in.
-/

namespace SchemaForms

/-- The nodesets that make up the path of a bind, given those of the node around it. -/
def Bind.route (b : Bind) (up : List String) : List String :=
  (if b.nodeset.startsWith "/" then [] else up) ++ (if b.nodeset = "." then [] else [b.nodeset])

/-- The path that a nodeset leads to from another path. -/
def pathInto (up nodeset : String) : String :=
  if nodeset = "." then up else if nodeset.startsWith "/" then nodeset else up ++ "/" ++ nodeset

/-- A dot is no absolute path. -/
theorem not_absolute_dot : ¬ ("." : String).startsWith "/" = true := by
  rw [String.startsWith_string_iff]
  decide

theorem pathInto_of_absolute (up : String) {nodeset : String} (h : nodeset.startsWith "/" = true) :
    pathInto up nodeset = nodeset := by
  have hne : nodeset ≠ "." := fun he => not_absolute_dot (he ▸ h)
  simp [pathInto, hne, h]

namespace Forest

variable {α β : Type}

/-- The routes of the binds of a forest in document order; around a node that is no bind a route
begins anew. -/
def routes (bind? : α → Option Bind) (up : List String) : Forest α → List (List String)
  | .nil => []
  | .cons a below after =>
    match bind? a with
    | none => routes bind? [] below ++ routes bind? up after
    | some b => b.route up :: (routes bind? (b.route up) below ++ routes bind? up after)

@[simp] theorem routes_append (bind? : α → Option Bind) (up : List String) (f g : Forest α) :
    (f ++ g).routes bind? up = f.routes bind? up ++ g.routes bind? up := by
  induction f with
  | nil => rfl
  | cons a below after _ ih =>
    simp only [cons_append, routes, ih]
    cases bind? a <;> simp

@[simp] theorem routes_map (bind? : β → Option Bind) (h : α → β) (up : List String)
    (f : Forest α) : (f.map h).routes bind? up = f.routes (fun a => bind? (h a)) up := by
  induction f generalizing up with
  | nil => rfl
  | cons a below after ihb iha => simp only [map_cons, routes, ihb, iha]

theorem routes_eq_nil {bind? : α → Option Bind} {f : Forest α} (up : List String)
    (h : ∀ a ∈ f.labels, bind? a = none) : f.routes bind? up = [] := by
  induction f generalizing up with
  | nil => rfl
  | cons a below after ihb iha =>
    simp only [labels_cons, List.mem_cons, List.mem_append] at h
    simp only [routes, h a (.inl rfl), ihb [] fun x hx => h x (.inr (.inl hx)),
      iha up fun x hx => h x (.inr (.inr hx)), List.append_nil]

/-- Only the topmost binds go on from the route around a forest. -/
theorem routes_of_roots {bind? : α → Option Bind} {f : Forest α} (up up' : List String)
    (h : ∀ a ∈ f.roots, bind? a = none) : f.routes bind? up = f.routes bind? up' := by
  induction f with
  | nil => rfl
  | cons a below after _ ih =>
    simp only [roots, List.mem_cons] at h
    simp only [routes, h a (.inl rfl), ih fun x hx => h x (.inr hx)]

/-- The paths that the nodesets of a forest lead to, from a path on. -/
def paths (up : String) : Forest String → List String
  | .nil => []
  | .cons nodeset below after =>
    pathInto up nodeset :: (paths (pathInto up nodeset) below ++ paths up after)

@[simp] theorem paths_append (up : String) (f g : Forest String) :
    (f ++ g).paths up = f.paths up ++ g.paths up := by
  induction f with
  | nil => rfl
  | cons nodeset below after _ ih => simp [paths, ih]

/-- Routes are paths with the slashes left out. -/
theorem paths_eq {f : Forest Bind} {up : List String} (hup : up ≠ []) :
    (f.map (·.nodeset)).paths (String.intercalate "/" up) =
      (f.routes some up).map (String.intercalate "/") := by
  induction f generalizing up with
  | nil => rfl
  | cons b below after ihb iha =>
    have hroute : b.route up ≠ [] ∧
        String.intercalate "/" (b.route up) = pathInto (String.intercalate "/" up) b.nodeset := by
      by_cases hdot : b.nodeset = "."
      · simp [Bind.route, pathInto, hdot, not_absolute_dot, hup]
      · cases hslash : b.nodeset.startsWith "/"
        · simp [Bind.route, pathInto, hdot, hslash,
            String.intercalate_append_of_ne_nil hup]
        · simp [Bind.route, pathInto, hdot, hslash]
    simp only [map_cons, paths, routes, List.map_cons, List.map_append, ← hroute.2, ihb hroute.1,
      iha hup]

/-- Where all topmost nodesets are absolute, it does not matter what is around them. -/
theorem paths_eq_of_absolute {f : Forest Bind} (up : String)
    (h : ∀ b ∈ f.roots, b.nodeset.startsWith "/" = true) :
    (f.map (·.nodeset)).paths up = (f.routes some []).map (String.intercalate "/") := by
  induction f with
  | nil => rfl
  | cons b below after _ iha =>
    simp only [roots, List.mem_cons] at h
    have hslash := h b (.inl rfl)
    have hne : b.nodeset ≠ "." := fun he => not_absolute_dot (he ▸ hslash)
    have hroute : b.route [] = [b.nodeset] := by simp [Bind.route, hne]
    have hup : [b.nodeset] ≠ [] := by simp
    have hbelow := paths_eq (f := below) hup
    rw [String.intercalate_singleton] at hbelow
    simp only [map_cons, paths, routes, hroute, List.map_cons, List.map_append,
      pathInto_of_absolute up hslash, String.intercalate_singleton, hbelow,
      iha fun b hb => h b (.inr hb)]

end Forest

namespace Tree

open Grove

/-- The path of a node is its route from what is around it, if one can go up far enough. -/
theorem Links.pathUp_eq {t : Tree} {parent : Option NodeId} {a : NodeId × NodeKind}
    {below after : Grove} (h : t.Links parent (.cons a below after)) {up : List String} {k : Nat}
    (hup : ∀ m, (t.pathUp (k + m) parent).reverse = up) {b : Bind} (hb : a.2.bind? = some b) (m : Nat) :
    (t.pathUp (k + 1 + m) (some a.1)).reverse = b.route up := by
  obtain ⟨ha, -, -⟩ := h
  have hbind : t.bind? a.1 = some b := by rw [Tree.bind?, Tree.kind, ha, hb]
  have hparent : t.parent a.1 = parent := by rw [Tree.parent, ha]
  rw [show k + 1 + m = (k + m) + 1 by omega, pathUp, hbind, hparent, ← hup m]
  dsimp only
  rw [Bind.route]
  split <;> split <;> simp

theorem Links.absolutePath_eq {t : Tree} {parent : Option NodeId} {a : NodeId × NodeKind}
    {below after : Grove} (h : t.Links parent (.cons a below after)) {up : List String} {k : Nat}
    (hup : ∀ m, (t.pathUp (k + m) parent).reverse = up) (hk : k < t.size) {b : Bind}
    (hb : a.2.bind? = some b) :
    t.absolutePath a.1 = some (String.intercalate "/" (b.route up)) := by
  have hown := h.pathUp_eq hup hb (t.size - (k + 1))
  rw [show k + 1 + (t.size - (k + 1)) = t.size by omega] at hown
  have hbind : t.bind? a.1 = some b := by rw [Tree.bind?, Tree.kind, h.1, hb]
  rw [absolutePath, hbind, hown]
  rfl

/-- Going up from the nodes of a grove gives the routes of its binds, if one can go up far enough:
`k` steps lead from the grove to the top. -/
theorem Links.routes {t : Tree} {parent : Option NodeId} {f : Grove} (h : t.Links parent f)
    {up : List String} {k : Nat} (hup : ∀ m, (t.pathUp (k + m) parent).reverse = up)
    (hk : k + (ids f).length ≤ t.size) :
    ((ids f).filter fun x => (t.bind? x).isSome).map (fun x => (t.pathUp t.size (some x)).reverse) =
      f.routes (fun a => a.2.bind?) up := by
  induction f generalizing parent up k with
  | nil => rfl
  | cons a b r ihb ihr =>
    have hlinks := h
    obtain ⟨ha, hb, hr⟩ := h
    rw [ids_cons, List.length_cons, List.length_append] at hk
    have hbind : t.bind? a.1 = a.2.bind? := by rw [Tree.bind?, Tree.kind, ha]
    have hafter := ihr hr hup (by omega)
    rw [ids_cons, List.filter_cons, hbind, Forest.routes]
    cases hkind : a.2.bind? with
    | none =>
      have hself : ∀ m, (t.pathUp (k + 1 + m) (some a.1)).reverse = [] := fun m => by
        rw [show k + 1 + m = (k + m) + 1 by omega, pathUp, hbind, hkind]
        rfl
      rw [if_neg (by simp), List.filter_append, List.map_append, hafter,
        ihb hb hself (by omega)]
    | some bind =>
      have hself := hlinks.pathUp_eq hup hkind
      have hown := hself (t.size - (k + 1))
      rw [show k + 1 + (t.size - (k + 1)) = t.size by omega] at hown
      rw [if_pos (by rfl), List.map_cons, List.filter_append, List.map_append, hafter,
        ihb hb hself (by omega), hown]

/-- The paths of the binds that the arena shows. -/
theorem Shows.absolutePaths {t : Tree} {f : Grove} (h : t.Shows f) :
    t.binds.map t.absolutePath =
      (f.routes (fun a => a.2.bind?) []).map fun route => some (String.intercalate "/" route) := by
  have htop : ∀ m, (t.pathUp (0 + m) none).reverse = [] := fun m => by
    cases m <;> rfl
  rw [← h.links.routes htop (by rw [Nat.zero_add]; exact h.length_le), List.map_map, Tree.binds,
    h.walk]
  refine List.map_congr_left fun x hx => ?_
  obtain ⟨b, hb⟩ := Option.isSome_iff_exists.1 (List.mem_filter.1 hx).2
  rw [absolutePath, hb]
  rfl

end Tree

namespace Grove

open Forest (tree leaf)

/-- Where markup and binds are kept apart, the routes are those without the markup. -/
theorem routes_erase {f : Grove} (h : ∀ p ∈ f.parts,
      (bindTops p.2 = [] ∧ (p.1.2.isMarkup ∨ ∀ a ∈ p.2.labels, a.2.bind? = none)) ∨
        ¬ p.1.2.isMarkup) (up : List String) :
    f.routes (fun a => a.2.bind?) up = (erase f).routes NodeKind.bind? up := by
  induction f generalizing up with
  | nil => rfl
  | cons a b r ihb ihr =>
    simp only [Forest.parts, List.mem_cons, List.mem_append] at h
    have hbelow (up : List String) := ihb (fun p hp => h p (.inr (.inl hp))) up
    have hafter := ihr (fun p hp => h p (.inr (.inr hp))) up
    rw [erase]
    by_cases hmarkup : a.2.isMarkup
    · have hnone : a.2.bind? = none := bind?_of_isMarkup hmarkup
      have htops := ((h (a, b) (.inl rfl)).resolve_right fun hn => hn hmarkup).1
      have hroots : ∀ x ∈ b.roots, x.2.bind? = none := by
        rw [bindTops, List.filterMap_eq_nil_iff] at htops
        exact htops
      rw [if_pos hmarkup, Forest.routes_append, Forest.routes, hnone, ← hbelow, ← hafter]
      exact congrArg (· ++ _) (Forest.routes_of_roots [] up hroots)
    · rw [if_neg hmarkup, Forest.routes, Forest.routes, hafter]
      cases a.2.bind? with
      | none => simp only [hbelow]
      | some bind => simp only [hbelow]

/-- A node of a grove with distinct nodes is found where it is. -/
theorem at?_of_mem {f : Grove} {x : NodeId} {k : NodeKind} {b : Grove} (hf : (ids f).Nodup)
    (h : ((x, k), b) ∈ f.parts) : at? x f = some (k, b) := by
  induction f with
  | nil => cases h
  | cons a below after ihb iha =>
    simp only [ids_cons, List.nodup_cons, List.mem_append, not_or, List.nodup_append] at hf
    obtain ⟨⟨hab, haa⟩, hb, ha, hdisjoint⟩ := hf
    have hcons : at? x (.cons a below after) =
        if a.1 = x then some (a.2, below) else (at? x below).or (at? x after) := by
      simp only [at?, Forest.find, decide_eq_true_eq]
      split <;> simp [Option.map_or]
    rw [Forest.parts, List.mem_cons, List.mem_append] at h
    rcases h with h | h | h
    · cases h
      rw [hcons, if_pos rfl]
    · have hat := ihb hb h
      have hx := (mem_of_at? hat).1
      rw [hcons, if_neg fun hax : a.1 = x => hab (hax ▸ hx), hat, Option.some_or]
    · have hat := iha ha h
      have hx := (mem_of_at? hat).1
      have hnone : at? x below = none := by
        cases hxb : at? x below with
        | none => rfl
        | some y => exact absurd rfl (hdisjoint x (mem_of_at? hxb).1 x hx)
      rw [hcons, if_neg fun hax : a.1 = x => haa (hax ▸ hx), hnone, Option.none_or, hat]

theorem Tidy.routes {f : Grove} (h : f.Tidy) (hnodup : (ids f).Nodup) (up : List String) :
    f.routes (fun a => a.2.bind?) up = (erase f).routes NodeKind.bind? up := by
  refine routes_erase (fun p hp => ?_) up
  obtain ⟨⟨x, k⟩, b⟩ := p
  exact (h x k b (at?_of_mem hnodup hp)).imp_right fun hn => hn.1

end Grove

open Forest (tree leaf) in
/-- The routes of the binds of a form are those below its model. -/
theorem Drawing.routes {d : Drawing} (hcontrols : ∀ k ∈ d.controls.labels, k.bind? = none)
    (r : Request) (root : Option Xml.Element) :
    (d.forest r root).routes NodeKind.bind? [] = (Kid.forest d.binds).routes some [] := by
  have hbinds : ((Kid.forest d.binds).map NodeKind.bind).routes NodeKind.bind? [] =
      (Kid.forest d.binds).routes some [] := Forest.routes_map ..
  have hnone : (d.controls ++ leaf (NodeKind.control d.submitControl)).routes NodeKind.bind? [] = [] :=
    Forest.routes_eq_nil [] fun k hk => by
      rw [Forest.labels_append, List.mem_append] at hk
      rcases hk with hk | hk
      · exact hcontrols k hk
      · cases List.mem_singleton.1 hk
        rfl
  rw [forest, Forest.routes_append, hnone, ← hbinds]
  simp [tree, leaf, Forest.routes, NodeKind.bind?]

end SchemaForms
