/-!
Forests: ordered trees side by side, each node with a label.
-/

namespace SchemaForms

/-- A tree, of which a label and what is below it are given, and the trees after it. -/
inductive Forest (α : Type) where
  | nil
  | cons (label : α) (below after : Forest α)
  deriving DecidableEq, Repr

namespace Forest

variable {α β γ : Type}

def append : Forest α → Forest α → Forest α
  | nil, g => g
  | cons a b r, g => cons a b (append r g)

instance : Append (Forest α) := ⟨append⟩

def tree (a : α) (below : Forest α) : Forest α := cons a below nil

def leaf (a : α) : Forest α := tree a nil

def leaves : List α → Forest α
  | [] => nil
  | a :: as => cons a nil (leaves as)

/-- All labels in document order. -/
def labels : Forest α → List α
  | nil => []
  | cons a b r => a :: (labels b ++ labels r)

/-- The labels of the topmost nodes. -/
def roots : Forest α → List α
  | nil => []
  | cons a _ r => a :: roots r

def map (f : α → β) : Forest α → Forest β
  | nil => nil
  | cons a b r => cons (f a) (map f b) (map f r)

/-- The first node in document order that a test accepts, and what is below it. -/
def find (p : α → Bool) : Forest α → Option (α × Forest α)
  | nil => none
  | cons a b r => if p a then some (a, b) else (find p b).or (find p r)

@[simp] theorem nil_append (f : Forest α) : nil ++ f = f := rfl

@[simp] theorem cons_append (a : α) (b r f : Forest α) : cons a b r ++ f = cons a b (r ++ f) := rfl

@[simp] theorem append_nil (f : Forest α) : f ++ nil = f := by
  induction f with
  | nil => rfl
  | cons a b r _ ih => simp [ih]

@[simp] theorem append_assoc (f g h : Forest α) : f ++ g ++ h = f ++ (g ++ h) := by
  induction f with
  | nil => rfl
  | cons a b r _ ih => simp [ih]

@[simp] theorem labels_nil : (nil : Forest α).labels = [] := rfl

@[simp] theorem labels_cons (a : α) (b r : Forest α) :
    (cons a b r).labels = a :: (b.labels ++ r.labels) := rfl

@[simp] theorem labels_append (f g : Forest α) : (f ++ g).labels = f.labels ++ g.labels := by
  induction f with
  | nil => rfl
  | cons a b r _ ih => simp [ih]

@[simp] theorem labels_leaves (as : List α) : (leaves as).labels = as := by
  induction as with
  | nil => rfl
  | cons a as ih => simp [leaves, ih]

@[simp] theorem roots_append (f g : Forest α) : (f ++ g).roots = f.roots ++ g.roots := by
  induction f with
  | nil => rfl
  | cons a b r _ ih => simp [roots, ih]

@[simp] theorem map_nil (f : α → β) : (nil : Forest α).map f = nil := rfl

@[simp] theorem map_cons (f : α → β) (a : α) (b r : Forest α) :
    (cons a b r).map f = cons (f a) (b.map f) (r.map f) := rfl

@[simp] theorem map_append (f : α → β) (g h : Forest α) :
    (g ++ h).map f = g.map f ++ h.map f := by
  induction g with
  | nil => rfl
  | cons a b r _ ih => simp [ih]

theorem map_map (f : α → β) (g : β → γ) (h : Forest α) :
    (h.map f).map g = h.map fun a => g (f a) := by
  induction h with
  | nil => rfl
  | cons a b r ihb ihr => simp [ihb, ihr]

@[simp] theorem labels_map (f : α → β) (g : Forest α) : (g.map f).labels = g.labels.map f := by
  induction g with
  | nil => rfl
  | cons a b r ihb ihr => simp [ihb, ihr]

@[simp] theorem roots_map (f : α → β) (g : Forest α) : (g.map f).roots = g.roots.map f := by
  induction g with
  | nil => rfl
  | cons a b r _ ih => simp [roots, ih]

theorem map_congr {f g : α → β} {h : Forest α} (hfg : ∀ a ∈ h.labels, f a = g a) :
    h.map f = h.map g := by
  induction h with
  | nil => rfl
  | cons a b r ihb ihr =>
    simp only [labels_cons, List.mem_cons, List.mem_append] at hfg
    rw [map_cons, map_cons, hfg a (.inl rfl), ihb fun x hx => hfg x (.inr (.inl hx)),
      ihr fun x hx => hfg x (.inr (.inr hx))]

theorem mem_labels_of_mem_roots {f : Forest α} {a : α} (h : a ∈ f.roots) : a ∈ f.labels := by
  induction f with
  | nil => exact h
  | cons b below r _ ih =>
    rcases List.mem_cons.1 h with rfl | h
    · exact List.mem_cons_self ..
    · exact List.mem_cons_of_mem _ (List.mem_append_right _ (ih h))

/-- A found node bears the label of the first one that the test accepts. -/
theorem find_map_fst (p : α → Bool) (f : Forest α) :
    (f.find p).map (·.1) = f.labels.find? p := by
  induction f with
  | nil => rfl
  | cons a b r ihb ihr =>
    simp only [find, labels_cons, List.find?_cons, List.find?_append]
    cases hp : p a
    · rw [← ihb, ← ihr]
      cases find p b <;> simp
    · simp

theorem find_append (p : α → Bool) (f g : Forest α) :
    (f ++ g).find p = (f.find p).or (g.find p) := by
  induction f with
  | nil => rfl
  | cons a b r _ ih =>
    simp only [cons_append, find, ih]
    cases p a
    · simp only [Bool.false_eq_true, if_false, Option.or_assoc]
    · simp

theorem find_eq_none {p : α → Bool} {f : Forest α} (h : ∀ a ∈ f.labels, p a = false) :
    f.find p = none := by
  have hmap := find_map_fst p f
  rw [List.find?_eq_none.2 (by simpa using h)] at hmap
  simpa using hmap

theorem find_congr {p q : α → Bool} {f : Forest α} (h : ∀ a ∈ f.labels, p a = q a) :
    f.find p = f.find q := by
  induction f with
  | nil => rfl
  | cons a b r ihb ihr =>
    simp only [labels_cons, List.mem_cons, List.mem_append] at h
    simp only [find]
    rw [h a (.inl rfl), ihb fun x hx => h x (.inr (.inl hx)),
      ihr fun x hx => h x (.inr (.inr hx))]

theorem find_mem {p : α → Bool} {f : Forest α} {x : α × Forest α} (h : f.find p = some x) :
    x.1 ∈ f.labels ∧ (∀ a ∈ x.2.labels, a ∈ f.labels) ∧ p x.1 = true := by
  induction f with
  | nil => cases h
  | cons a b r ihb ihr =>
    simp only [find] at h
    simp only [labels_cons, List.mem_cons, List.mem_append]
    split at h
    · next hp =>
      cases h
      exact ⟨.inl rfl, fun c hc => .inr (.inl hc), hp⟩
    · rcases Option.or_eq_some_iff.1 h with h | ⟨-, h⟩
      · obtain ⟨hx, hbelow, hp⟩ := ihb h
        exact ⟨.inr (.inl hx), fun c hc => .inr (.inl (hbelow c hc)), hp⟩
      · obtain ⟨hx, hbelow, hp⟩ := ihr h
        exact ⟨.inr (.inr hx), fun c hc => .inr (.inr (hbelow c hc)), hp⟩

theorem find_map (p : β → Bool) (f : α → β) (g : Forest α) :
    (g.map f).find p = (g.find fun a => p (f a)).map fun (a, b) => (f a, b.map f) := by
  induction g with
  | nil => rfl
  | cons a b r ihb ihr =>
    simp only [map_cons, find, ihb, ihr]
    split
    · rfl
    · cases find (fun a => p (f a)) b <;> simp

end Forest

end SchemaForms
