import SchemaForms.Proofs.Form.Arena

/-!
Erasure: a grove without node numbers and without presentation markup, and what of a grove is found
by looking for the controls of a bind.
-/

namespace SchemaForms

/-- Whether a node is a control of the bind with an identifier. -/
def NodeKind.isBoundTo (bindId : String) (k : NodeKind) : Bool :=
  (k.control?.bind (·.bind)) == some bindId

/-- Whether a node is a control of a bind. -/
def NodeKind.isBound (k : NodeKind) : Bool := (k.control?.bind (·.bind)).isSome

def NodeKind.isMarkup : NodeKind → Bool
  | .markup _ => true
  | _ => false

namespace Grove

open Forest (tree leaf)

/-- The kinds of a grove, where the trees below markup stand in its place. -/
def erase : Grove → Forest NodeKind
  | .nil => .nil
  | .cons a b r => if a.2.isMarkup then erase b ++ erase r else .cons a.2 (erase b) (erase r)

@[simp] theorem erase_nil : erase .nil = .nil := rfl

theorem erase_cons (a : NodeId × NodeKind) (b r : Grove) :
    erase (.cons a b r) = erase (tree a b) ++ erase r := by
  simp only [erase, Forest.tree]
  split <;> simp

@[simp] theorem erase_append (f g : Grove) : erase (f ++ g) = erase f ++ erase g := by
  induction f with
  | nil => rfl
  | cons a b r _ ih =>
    rw [Forest.cons_append, erase_cons, ih, erase_cons a b r, Forest.append_assoc]

@[simp] theorem erase_markup (x : NodeId) (m : Markup) (b : Grove) :
    erase (tree (x, .markup m) b) = erase b :=
  Forest.append_nil _

@[simp] theorem erase_control (x : NodeId) (c : Control) (b : Grove) :
    erase (tree (x, .control c) b) = tree (.control c) (erase b) := rfl

@[simp] theorem erase_bind (x : NodeId) (c : Bind) (b : Grove) :
    erase (tree (x, .bind c) b) = tree (.bind c) (erase b) := rfl

/-- Looking for something other than markup, erasure makes no difference. -/
theorem find_erase {p : NodeKind → Bool} (hp : ∀ k : NodeKind, k.isMarkup → p k = false)
    (f : Grove) :
    (erase f).find p = (f.find fun a => p a.2).map fun (a, b) => (a.2, erase b) := by
  induction f with
  | nil => rfl
  | cons a b r ihb ihr =>
    simp only [erase, Forest.find]
    split
    · next hm =>
      have hpa : ¬ p a.2 = true := by simp [hp _ hm]
      rw [Forest.find_append, ihb, ihr, if_neg hpa, Option.map_or]
    · rw [Forest.find, ihb, ihr]
      split
      · rfl
      · rw [Option.map_or]

/-- The controls of binds, in document order. -/
def bounds (f : Grove) : List (NodeId × NodeKind) := f.labels.filter (·.2.isBound)

@[simp] theorem bounds_nil : bounds .nil = [] := rfl

theorem bounds_cons (a : NodeId × NodeKind) (b r : Grove) :
    bounds (.cons a b r) = (if a.2.isBound then [a] else []) ++ bounds b ++ bounds r := by
  simp only [bounds, Forest.labels_cons, List.filter_cons, List.filter_append]
  split <;> simp

@[simp] theorem bounds_append (f g : Grove) : bounds (f ++ g) = bounds f ++ bounds g := by
  simp [bounds]

theorem bounds_graft_congr {h h' : NodeId → Grove} {f : Grove}
    (hh : ∀ x ∈ ids f, bounds (h x) = bounds (h' x)) :
    bounds (graft h f) = bounds (graft h' f) := by
  induction f with
  | nil => rfl
  | cons a b r ihb ihr =>
    simp only [ids_cons, List.mem_cons, List.mem_append] at hh
    rw [graft_cons, graft_cons, bounds_cons, bounds_cons, bounds_append, bounds_append,
      hh a.1 (.inl rfl), ihb fun x hx => hh x (.inr (.inl hx)),
      ihr fun x hx => hh x (.inr (.inr hx))]

theorem find?_bounds (bindId : String) (f : Grove) :
    (bounds f).find? (fun a => a.2.isBoundTo bindId) =
      f.labels.find? fun a => a.2.isBoundTo bindId := by
  rw [bounds, List.find?_filter]
  congr 1
  funext a
  rw [Bool.eq_iff_iff, decide_eq_true_iff]
  refine ⟨And.right, fun h => ⟨?_, h⟩⟩
  rw [NodeKind.isBound, eq_of_beq h]
  rfl

/-- In a grove with distinct nodes the nodes are found by number. -/
theorem at?_of_find {f b : Grove} {p : NodeId × NodeKind → Bool} {a : NodeId × NodeKind}
    (hf : (ids f).Nodup) (h : f.find p = some (a, b)) : at? a.1 f = some (a.2, b) := by
  induction f with
  | nil => cases h
  | cons c below after ihb iha =>
    simp only [ids_cons, List.nodup_cons, List.mem_append, not_or, List.nodup_append] at hf
    obtain ⟨⟨hcb, hca⟩, hb, ha, hdisjoint⟩ := hf
    have hmem {g : Grove} (hg : g.find p = some (a, b)) : a.1 ∈ ids g :=
      List.mem_map_of_mem (Forest.find_mem hg).1
    simp only [Forest.find] at h
    simp only [at?, Forest.find]
    split at h
    · cases h
      simp
    · rcases Option.or_eq_some_iff.1 h with h | ⟨-, h⟩
      · have hne : c.1 ≠ a.1 := fun he => hcb (he ▸ hmem h)
        have hfound := ihb hb h
        rw [at?, Option.map_eq_some_iff] at hfound
        obtain ⟨y, hy, hye⟩ := hfound
        simp [hne, hy, hye]
      · have hne : c.1 ≠ a.1 := fun he => hca (he ▸ hmem h)
        have hnone : below.find (fun c => decide (c.1 = a.1)) = none :=
          Forest.find_eq_none fun c hc => by
            have : c.1 ≠ a.1 := hdisjoint _ (List.mem_map_of_mem hc) _ (hmem h)
            simpa using this
        simp only [hne, decide_false, Bool.false_eq_true, if_false, hnone, Option.none_or]
        exact iha ha h

theorem at?_eq_some_of_mem {f : Grove} {x : NodeId} (h : x ∈ ids f) : ∃ y, at? x f = some y := by
  obtain ⟨a, ha, rfl⟩ := List.mem_map.1 h
  have hmap := Forest.find_map_fst (fun c : NodeId × NodeKind => decide (c.1 = a.1)) f
  cases hfind : f.find fun c => decide (c.1 = a.1) with
  | none =>
    rw [hfind] at hmap
    have := List.find?_eq_none.1 hmap.symm a ha
    simp at this
  | some y => exact ⟨(y.1.2, y.2), by simp [at?, hfind]⟩

theorem mem_of_at? {f b : Grove} {x : NodeId} {k : NodeKind} (h : at? x f = some (k, b)) :
    x ∈ ids f ∧ ∀ y ∈ ids b, y ∈ ids f := by
  have hsub := (sublist_of_at? h).subset
  exact ⟨hsub (List.mem_cons_self ..), fun y hy => hsub (List.mem_cons_of_mem _ hy)⟩

/-- What grafting leaves at a node of the grove. -/
theorem at?_graft {h : NodeId → Grove} {f b : Grove} {x : NodeId} {k : NodeKind}
    (hf : at? x f = some (k, b)) (hh : ∀ y ∈ ids f, x ∉ ids (h y)) :
    at? x (graft h f) = some (k, graft h b ++ h x) := by
  induction f with
  | nil => cases hf
  | cons a below after ihb iha =>
    simp only [ids_cons, List.mem_cons, List.mem_append] at hh
    simp only [at?, Forest.find] at hf
    simp only [at?, graft_cons, Forest.find]
    split at hf
    · next he =>
      cases hf
      simp only [he, if_true, Option.map_some]
      rw [of_decide_eq_true he]
    · next he =>
      rw [if_neg he, Option.map_or, Forest.find_append, Option.map_or]
      rw [Option.map_or, Option.or_eq_some_iff] at hf
      rcases hf with hf | ⟨hnone, hf⟩
      · have := ihb hf fun y hy => hh y (.inr (.inl hy))
        rw [at?] at this
        rw [this]
        rfl
      · have hbelow : (graft h below).find (fun c => decide (c.1 = x)) = none := by
          refine Forest.find_eq_none fun c hc => decide_eq_false fun hcx => ?_
          rcases (mem_ids_graft h below (y := x)).1 (hcx ▸ List.mem_map_of_mem hc) with hm | ⟨y, hy, hm⟩
          · obtain ⟨z, hz⟩ := at?_eq_some_of_mem hm
            rw [at?, hnone] at hz
            cases hz
          · exact hh y (.inr (.inl hy)) hm
        have hnew : (h a.1).find (fun c => decide (c.1 = x)) = none := by
          refine Forest.find_eq_none fun c hc => decide_eq_false fun hcx => ?_
          exact hh a.1 (.inl rfl) (hcx ▸ List.mem_map_of_mem hc)
        rw [hbelow, hnew]
        exact iha hf fun y hy => hh y (.inr (.inr hy))

/-- What grafting puts at a new node. -/
theorem at?_graft_new {h : NodeId → Grove} {f b : Grove} {x y : NodeId} {k : NodeKind}
    (hx : at? x (h y) = some (k, b)) (hy : y ∈ ids f) (hxf : x ∉ ids f)
    (hh : ∀ z ∈ ids f, z ≠ y → x ∉ ids (h z)) : at? x (graft h f) = some (k, b) := by
  have hnone {g : Grove} (hg : x ∉ ids g) : g.find (fun c => decide (c.1 = x)) = none :=
    Forest.find_eq_none fun c hc => decide_eq_false fun hcx => hg (hcx ▸ List.mem_map_of_mem hc)
  induction f with
  | nil => cases hy
  | cons a below after ihb iha =>
    simp only [ids_cons, List.mem_cons, List.mem_append, not_or] at hy hxf hh
    have hgraft {g : Grove} (hg : ∀ z ∈ ids g, z = a.1 ∨ z ∈ ids below ∨ z ∈ ids after)
        (hyg : y ∉ ids g) (hxg : x ∉ ids g) : x ∉ ids (graft h g) := by
      rw [mem_ids_graft]
      rintro (hm | ⟨z, hz, hm⟩)
      · exact hxg hm
      · exact hh z (hg z hz) (fun he => hyg (he ▸ hz)) hm
    simp only [at?, graft_cons, Forest.find, Ne.symm hxf.1, decide_false, Bool.false_eq_true,
      if_false, Forest.find_append, Option.map_or]
    by_cases hyb : y ∈ ids below
    · have := ihb hyb hxf.2.1 fun z hz => hh z (.inr (.inl hz))
      rw [at?] at this
      rw [this]
      rfl
    · rw [hnone (hgraft (fun z hz => .inr (.inl hz)) hyb hxf.2.1)]
      by_cases hya : a.1 = y
      · rw [hya, ← at?, hx]
        rfl
      · rw [hnone (hh a.1 (.inl rfl) hya)]
        have hyafter := (hy.resolve_left (Ne.symm hya)).resolve_left hyb
        exact iha hyafter hxf.2.2 fun z hz => hh z (.inr (.inr hz))

end Grove

end SchemaForms
