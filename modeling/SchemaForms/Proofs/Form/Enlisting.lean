import SchemaForms.Proofs.Form.Beside
import SchemaForms.Proofs.Form.Inheriting

/-!
Binds put behind others.  The binds that the content of one type is given all have different
nodesets, if no name comes twice in it.  What has a bind already, from the case of another type,
gets one more only if it is the text, or has a name that the type does not inherit.
-/

namespace SchemaForms

open Synthesis
open Xml (Element)

/-! Names and the nodesets that are made for them. -/

/-- A nodeset is made for a name, or without one for a text. -/
def Naming (t : PrefixTable) : Option PathStep → String → Prop
  | none, x => x = "."
  | some step, x => step.Clean ∧ ∃ y, step.text t = some y ∧ (x = y ∨ x = y ++ "/@xsi:type")

/-- A nodeset is made for one of some names. -/
def NamedIn (keys : List (Option PathStep)) (t : PrefixTable) (x : String) : Prop :=
  ∃ key ∈ keys, Naming t key x

theorem PathStep.Clean.slash_not_mem {step : PathStep} (h : step.Clean) {t : PrefixTable}
    (ht : t.Apart) {x : String} (hx : step.text t = some x) : '/' ∉ x.toList := by
  cases step with
  | child name =>
    have hlocal : '/' ∉ name.localName.toList := h.1 _ (by decide)
    exact ht.not_mem_textOf hx hlocal (by decide) (by decide)
  | attr name =>
    obtain ⟨y, hy, rfl⟩ := Option.map_eq_some_iff.1 hx
    have hlocal : '/' ∉ name.localName.toList := h _ (by decide)
    have hslash := ht.not_mem_textOf hy hlocal (by decide) (by decide)
    simpa using hslash
  | xsiType => exact h.elim

theorem ne_append_xsiType {x : String} (h : '/' ∉ x.toList) (y : String) :
    x ≠ y ++ "/@xsi:type" := by
  rintro rfl
  exact h (by simp)

namespace Naming

variable {t t' : PrefixTable} {key key' : Option PathStep} {x : String}

theorem mono (h : Naming t key x) (ht : t.Extends t') : Naming t' key x := by
  cases key with
  | none => exact h
  | some step =>
    obtain ⟨hclean, y, hy, hx⟩ := h
    exact ⟨hclean, y, PathStep.text_mono ht hy, hx⟩

/-- A nodeset tells which name it is made for. -/
theorem eq (h : Naming t key x) (h' : Naming t key' x) (ht : t.Apart) : key = key' := by
  have hdot {step : PathStep} (h : Naming t (some step) ".") : False := by
    obtain ⟨hclean, y, hy, rfl | hx⟩ := h
    · exact hclean.text_ne_dot hy rfl
    · exact ne_append_xsiType (by decide) y hx
  cases key with
  | none =>
    obtain rfl : x = "." := h
    cases key' with
    | none => rfl
    | some => exact (hdot h').elim
  | some step =>
    cases key' with
    | none =>
      obtain rfl : x = "." := h'
      exact (hdot h).elim
    | some step' =>
      obtain ⟨hclean, y, hy, hx⟩ := h
      obtain ⟨hclean', y', hy', hx'⟩ := h'
      have hsame : y = y' := by
        rcases hx with rfl | rfl <;> rcases hx' with he | he
        · exact he
        · exact absurd he (ne_append_xsiType (hclean.slash_not_mem ht hy) y')
        · exact absurd he.symm (ne_append_xsiType (hclean'.slash_not_mem ht hy') y)
        · exact (String.append_left_inj _).1 he
      rw [hclean.eq_of_text hclean' ht hy (hsame ▸ hy')]

end Naming

/-! Binds that are apart. -/

section Apart

variable (g : Generator) (prefixes : PrefixTable)

/-- A bind has been added for a type: it is for a name that the type lists and does not inherit, and
it has relevance, namely for what `xsi:type` says for the type at least. -/
structure Bind.AddedFor (t : TypeId) (step : PathStep) (b : Bind) : Prop where
  adds : g.Adds t step
  named : Naming prefixes (some step) b.nodeset
  relevant : b.relevant ≠ none
  concerns : ∃ value, g.typeText prefixes t = some value ∧ b.Concerns value

/-- Two binds, the second behind the first, are not for the same nodeset, unless this is that of a
text, or the second has been added for one of the types that an element may have, where one that
stands before it lists the name too. -/
def Bind.Apart (b b' : Bind) : Prop :=
  b.nodeset = b'.nodeset → b.nodeset = "." ∨ ∃ declared t t' step,
    [t, t'].Sublist (g.candidates declared) ∧ step ∈ g.listed t ∧ b'.AddedFor g prefixes t' step

/-- The binds in each bind of a forest are apart. -/
def OrderlyBelow (f : Forest Bind) : Prop :=
  ∀ p ∈ f.parts, p.2.roots.Pairwise (Bind.Apart g prefixes)

/-- Wherever binds of a forest stand beside each other, they are apart. -/
def Orderly (f : Forest Bind) : Prop :=
  f.roots.Pairwise (Bind.Apart g prefixes) ∧ OrderlyBelow g prefixes f

end Apart

section Apart

variable {g : Generator} {prefixes prefixes' : PrefixTable} {f f' : Forest Bind}

theorem Bind.AddedFor.mono {b : Bind} {t : TypeId} {step : PathStep}
    (h : b.AddedFor g prefixes t step) (hp : prefixes.Extends prefixes') :
    b.AddedFor g prefixes' t step where
  adds := h.adds
  named := h.named.mono hp
  relevant := h.relevant
  concerns := by
    obtain ⟨value, hvalue, hconcerns⟩ := h.concerns
    exact ⟨value, hp.typeText hvalue, hconcerns⟩

theorem Bind.Apart.mono {b b' : Bind} (h : Bind.Apart g prefixes b b')
    (hp : prefixes.Extends prefixes') : Bind.Apart g prefixes' b b' := fun he =>
  (h he).imp_right fun ⟨declared, t, t', step, hsub, hstep, hadded⟩ =>
    ⟨declared, t, t', step, hsub, hstep, hadded.mono hp⟩

theorem OrderlyBelow.mono (h : OrderlyBelow g prefixes f) (hp : prefixes.Extends prefixes') :
    OrderlyBelow g prefixes' f := fun p hpart => (h p hpart).imp fun hapart => hapart.mono hp

theorem Orderly.mono (h : Orderly g prefixes f) (hp : prefixes.Extends prefixes') :
    Orderly g prefixes' f := ⟨h.1.imp fun hapart => hapart.mono hp, h.2.mono hp⟩

theorem orderly_nil : Orderly g prefixes .nil := ⟨List.Pairwise.nil, fun _ h => nomatch h⟩

theorem orderlyBelow_tree {b : Bind} :
    OrderlyBelow g prefixes (Forest.tree b f) ↔ Orderly g prefixes f := by
  rw [OrderlyBelow, Orderly, Forest.parts_tree, List.forall_mem_cons]
  rfl

theorem orderlyBelow_append :
    OrderlyBelow g prefixes (f ++ f') ↔ OrderlyBelow g prefixes f ∧ OrderlyBelow g prefixes f' := by
  rw [OrderlyBelow, Forest.parts_append, List.forall_mem_append]
  rfl

end Apart

/-- Beside the bind for the type of an element there is the bind for this element. -/
def Paired (f : Forest Bind) : Prop :=
  ∀ b ∈ f.roots, ∀ x, b.nodeset = x ++ "/@xsi:type" → ∃ b' ∈ f.roots, b'.nodeset = x

theorem paired_nil : Paired .nil := fun _ h => nomatch h

/-- A bind that is not for a type may be put behind others. -/
theorem Paired.snoc {f f' : Forest Bind} (h : Paired f)
    (hf' : ∀ b ∈ f'.roots, ∀ x, b.nodeset = x ++ "/@xsi:type" → ∃ b' ∈ f'.roots, b'.nodeset = x) :
    Paired (f ++ f') := by
  intro b hb x hx
  rw [Forest.roots_append] at hb ⊢
  rcases List.mem_append.1 hb with hb | hb
  · obtain ⟨b', hb', hx'⟩ := h b hb x hx
    exact ⟨b', List.mem_append_left _ hb', hx'⟩
  · obtain ⟨b', hb', hx'⟩ := hf' b hb x hx
    exact ⟨b', List.mem_append_right _ hb', hx'⟩

theorem Paired.of_nodesets {f f' : Forest Bind} (h : Paired f)
    (he : f'.roots.map (·.nodeset) = f.roots.map (·.nodeset)) : Paired f' := by
  have hiff (f : Forest Bind) : Paired f ↔ ∀ y ∈ f.roots.map (·.nodeset), ∀ x,
      y = x ++ "/@xsi:type" → x ∈ f.roots.map (·.nodeset) := by
    rw [List.forall_mem_map]
    simp only [Paired, List.mem_map]
  rw [hiff, he]
  exact (hiff f).1 h

/-! Binds that are put behind others. -/

/-- Binds that are put behind others: each is relevant for all types, and their nodesets, of some
kind, are different. -/
structure Enlisted (g : Generator) (prefixes : PrefixTable) (N : String → Prop) (f : Forest Bind) :
    Prop where
  named : ∀ b ∈ f.roots, N b.nodeset
  idle : ∀ b ∈ f.roots, b.relevant = none
  fresh : f.roots.Pairwise fun b b' => b.nodeset ≠ b'.nodeset
  settled : OrderlyBelow g prefixes f

namespace Enlisted

variable {g : Generator} {prefixes prefixes' : PrefixTable} {N N' : String → Prop}
  {f f' : Forest Bind}

theorem nil : Enlisted g prefixes N .nil :=
  ⟨fun _ h => (nomatch h), fun _ h => (nomatch h), List.Pairwise.nil, orderly_nil.2⟩

theorem mono (h : Enlisted g prefixes N f) (hN : ∀ x, N x → N' x) : Enlisted g prefixes N' f :=
  ⟨fun b hb => hN _ (h.named b hb), h.idle, h.fresh, h.settled⟩

theorem extend (h : Enlisted g prefixes N f) (hp : prefixes.Extends prefixes') :
    Enlisted g prefixes' N f := ⟨h.named, h.idle, h.fresh, h.settled.mono hp⟩

theorem tree {b : Bind} (hN : N b.nodeset) (hb : b.relevant = none) (hf : Orderly g prefixes f) :
    Enlisted g prefixes N (.tree b f) where
  named := fun b' hb' => by rwa [List.mem_singleton.1 hb']
  idle := fun b' hb' => by rwa [List.mem_singleton.1 hb']
  fresh := List.pairwise_singleton ..
  settled := orderlyBelow_tree.2 hf

theorem append (h : Enlisted g prefixes N f) (h' : Enlisted g prefixes N f')
    (hnames : ∀ b ∈ f.roots, ∀ b' ∈ f'.roots, b.nodeset ≠ b'.nodeset) :
    Enlisted g prefixes N (f ++ f') := by
  refine ⟨?_, ?_, ?_, orderlyBelow_append.2 ⟨h.settled, h'.settled⟩⟩
  · rw [Forest.roots_append, List.forall_mem_append]
    exact ⟨h.named, h'.named⟩
  · rw [Forest.roots_append, List.forall_mem_append]
    exact ⟨h.idle, h'.idle⟩
  · rw [Forest.roots_append]
    exact List.pairwise_append.2 ⟨h.fresh, h'.fresh, hnames⟩

theorem orderly (h : Enlisted g prefixes N f) : Orderly g prefixes f :=
  ⟨h.fresh.imp fun hne he => absurd he hne, h.settled⟩

end Enlisted

namespace Sketch

variable {α β : Type} {g : Generator}

/-- From the binds `f`, and prefixes that extend those of `t`, a sketch leads to binds that `J`
tells, as it tells the result. -/
def Turns (t : PrefixTable) (f : Forest Bind) (J : α → PrefixTable → Forest Bind → Prop)
    (p : Sketch α) : Prop :=
  ∀ d s, t.Extends s.prefixes → Kid.forest d.kids = f →
    p.Ends d s fun a d' s' =>
      s.prefixes.Extends s'.prefixes ∧ J a s'.prefixes (Kid.forest d'.kids)

namespace Turns

variable {t : PrefixTable} {f : Forest Bind} {K : β → PrefixTable → Forest Bind → Prop}
  {J J' : α → PrefixTable → Forest Bind → Prop} {p : Sketch α}

theorem pure (a : α) : Turns t f (fun _ _ f' => f' = f) (Pure.pure a : Sketch α) :=
  fun _ _ _ hd => ⟨.refl, hd⟩

theorem mono (hp : Turns t f J p) (hJ : ∀ a t' f', t.Extends t' → J a t' f' → J' a t' f') :
    Turns t f J' p := fun d s hs hd =>
  (hp d s hs hd).mono fun _ _ _ ⟨hext, h⟩ => ⟨hext, hJ _ _ _ (hs.trans hext) h⟩

/-- The second of two steps goes on with the binds that the first leads to. -/
theorem bind {p : Sketch β} {q : β → Sketch α} (hp : Turns t f K p)
    (hq : ∀ b t' f', t.Extends t' → K b t' f' → Turns t' f' J (q b)) : Turns t f J (p >>= q) := by
  intro d s hs hd
  rw [ends_bind]
  refine (hp d s hs hd).mono fun b d' s' ⟨hext, hK⟩ => ?_
  exact (hq b _ _ (hs.trans hext) hK d' s' .refl rfl).mono fun _ _ _ ⟨hext', hJ⟩ =>
    ⟨hext.trans hext', hJ⟩

/-- A step that keeps the binds. -/
theorem first {p : Sketch β} {q : β → Sketch α} (hp : Turns t f (fun _ _ f' => f' = f) p)
    (hq : ∀ b, Turns t f J (q b)) : Turns t f J (p >>= q) := by
  intro d s hs hd
  rw [ends_bind]
  refine (hp d s hs hd).mono fun b d' s' ⟨hext, hd'⟩ => ?_
  exact (hq b d' s' (hs.trans hext) hd').mono fun _ _ _ ⟨hext', hJ⟩ => ⟨hext.trans hext', hJ⟩

theorem after {h : Synth β} (hh : Calm h) {k : β → Sketch α} (hk : ∀ b, Turns t f J (k b)) :
    Turns t f J (liftM h >>= k) :=
  .first (fun d s _ hd => by
    rw [ends_lift]
    exact ⟨(hh s).prefixes, hd⟩) hk

theorem look {k : Draft → Sketch α} (hk : ∀ d, Turns t f J (k d)) : Turns t f J (get >>= k) :=
  fun d s => hk d d s

theorem leaves (cs : List Control) : Turns t f (fun _ _ f' => f' = f) (Sketch.leaves cs) :=
  fun _ _ _ hd => ⟨.refl, hd⟩

theorem within (hp : Turns t f J p) (cs : List Control) (c : Control) :
    Turns t f J (Sketch.within cs c p) := fun d s hs hd => hp { d with controls := .nil } s hs hd

theorem slot (hp : Turns t f J p) : Turns t f J (Sketch.slot p) := by
  intro d s hs hd
  rw [ends_slot]
  refine (hp { d with controls := .nil } s hs hd).mono fun _ d' s' ⟨hext, hd'⟩ => ⟨hext, ?_⟩
  rw [forest_settle]
  exact hd'

theorem repeatOf (hp : Turns t f J p) (id : String) (bind : Option String) :
    Turns t f J (Sketch.repeatOf id bind p) :=
  .after (Calm.reportUngoverned id bind) fun _ => .after (Calm.repeatActions id bind) fun _ =>
    hp.within _ _

theorem repeated (hp : Turns t f J p) (bind : Option String) :
    Turns t f J (Sketch.repeated bind p) :=
  .after (Calm.allocate "repeat") fun id => hp.repeatOf id bind

theorem items (hp : Turns t f J p) (bind : Option String) (occurs : Occurs) :
    Turns t f J (Sketch.items bind occurs p) := by
  unfold Sketch.items
  split
  · exact hp.repeated bind
  · exact hp

theorem groupItems (hp : Turns t f J p) (occurs : Occurs) :
    Turns t f J (Sketch.groupItems occurs p) := by
  unfold Sketch.groupItems
  split
  · exact .after (Calm.allocate "repeat") fun id => .look fun d => hp.repeatOf id d.governing
  · exact hp

/-- If nothing is copied of an earlier case for what a type inherits, no bind is for it yet. -/
theorem reuses (role : Role) (isInherited : Bool) (nodeset : String) :
    Turns t f (fun reused _ f' => f' = f ∧ (reused = false → role.inherits = true →
      isInherited = true → ∀ b ∈ f.roots, b.nodeset ≠ nodeset))
      (Sketch.reuses role isInherited nodeset) := by
  intro d s _ hd
  unfold Sketch.reuses
  split
  · unfold Ends reuse
    cases hkid : d.kids.find? (·.bind.nodeset = nodeset) with
    | none =>
      refine ⟨.refl, hd, fun _ _ _ => ?_⟩
      rw [← hd, Kid.roots_forest, List.forall_mem_map]
      simpa using hkid
    | some kid =>
      cases hsource : kid.source with
      | none =>
        simp only [hsource]
        exact ⟨.refl, hd, fun h => absurd h.symm Bool.false_ne_true⟩
      | some source =>
        obtain ⟨k, below⟩ := source
        simp only [hsource]
        refine ⟨.refl, ?_, fun h => absurd h.symm Bool.false_ne_true⟩
        exact (Kid.forest_share nodeset d.kids).trans hd
  · next hnone =>
    exact ⟨.refl, hd, fun _ hinherits hinherited =>
      absurd (by rw [hinherits, hinherited]; rfl) hnone⟩

/-- A bind around others. -/
theorem withKid {b : Bind} {nodeset : String} (hp : Turns t .nil J p) :
    Turns t f (fun a t' f' => ∃ id below,
      f' = f ++ .tree { b with id := id, nodeset := nodeset } below ∧ J a t' below)
      (Sketch.withKid b nodeset p) := by
  intro d s hs hd
  rw [ends_withKid]
  intro id kid
  have hext := (Calm.allocate "bind" s).prefixes
  refine (hp _ _ (hs.trans hext) rfl).mono fun a d' s' ⟨hext', hd'⟩ => ?_
  refine ⟨hext.trans hext', id, Kid.forest d'.kids, ?_, hd'⟩
  rw [Kid.forest_append, hd]
  rfl

end Turns

/-- A sketch puts binds behind those that there are, whose nodesets are of a kind that the binds
before them and the prefixes tell. -/
def Enlists (g : Generator) (N : Forest Bind → PrefixTable → String → Prop) (p : Sketch α) : Prop :=
  ∀ t f, t.Apart → Paired f → Turns t f (fun _ t' f' => Paired f' ∧ ∃ new, f' = f ++ new ∧
    Enlisted g t' (N f t') new) p

/-- A sketch fills an element with binds that are apart. -/
def Fills (g : Generator) (p : Sketch α) : Prop :=
  ∀ t, t.Apart → Turns t .nil (fun _ => Orderly g) p

namespace Enlists

variable {N N' : Forest Bind → PrefixTable → String → Prop} {p : Sketch α}

theorem none (hp : ∀ t f, Turns t f (fun _ _ f' => f' = f) p) : Enlists g N p := fun t f _ hf =>
  (hp t f).mono fun _ _ f' _ (he : f' = f) =>
    ⟨he.symm ▸ hf, .nil, by rw [he, Forest.append_nil], .nil⟩

theorem pure (a : α) : Enlists g N (Pure.pure a : Sketch α) := .none fun _ _ => .pure a

theorem mono (hp : Enlists g N p)
    (hN : ∀ f t x, Paired f → t.Apart → N f t x → N' f t x) : Enlists g N' p := fun t f ht hf =>
  (hp t f ht hf).mono fun _ t' _ hext ⟨hpaired, new, he, hnew⟩ =>
    ⟨hpaired, new, he, hnew.mono fun x => hN f t' x hf (hext.apart ht)⟩

/-- The binds of two steps, whose nodesets are not the same. -/
theorem bind {q : α → Sketch β} (hp : Enlists g N p) (hq : ∀ a, Enlists g N' (q a))
    {M : Forest Bind → PrefixTable → String → Prop}
    (hN : ∀ f t t' x, t.Extends t' → N f t x → M f t' x)
    (hN' : ∀ f f' t x, N' (f ++ f') t x → M f t x)
    (hapart : ∀ f f' t t' x, t.Extends t' → t'.Apart → N f t x → ¬ N' f' t' x) :
    Enlists g M (p >>= q) := by
  intro t₀ f ht₀ hf
  refine (hp t₀ f ht₀ hf).bind ?_
  rintro a t _ ht ⟨hpaired, new, rfl, hnew⟩
  refine (hq a _ _ (ht.apart ht₀) hpaired).mono ?_
  rintro _ t' _ hext ⟨hpaired', new', rfl, hnew'⟩
  refine ⟨hpaired', new ++ new', by rw [Forest.append_assoc], ?_⟩
  have hfirst := (hnew.extend hext).mono fun x => hN f t t' x hext
  refine hfirst.append (hnew'.mono fun x => hN' f new t' x) fun b hb b' hb' he => ?_
  exact hapart _ _ _ _ _ hext ((ht.trans hext).apart ht₀) (hnew.named b hb)
    (he ▸ hnew'.named b' hb')

theorem after {h : Synth β} (hh : Calm h) {k : β → Sketch α} (hk : ∀ b, Enlists g N (k b)) :
    Enlists g N (liftM h >>= k) := fun t f ht hf => .after hh fun b => hk b t f ht hf

/-- A step that puts no binds. -/
theorem first {q : α → Sketch β} (hp : ∀ t f, Turns t f (fun _ _ f' => f' = f) p)
    (hq : ∀ a, Enlists g N (q a)) : Enlists g N (p >>= q) := fun t f ht hf =>
  (hp t f).first fun a => hq a t f ht hf

theorem last {q : α → Sketch β} (hp : Enlists g N p)
    (hq : ∀ a t f, Turns t f (fun _ _ f' => f' = f) (q a))
    (hmono : ∀ f t t' x, t.Extends t' → N f t x → N f t' x) : Enlists g N (p >>= q) := by
  have hnone (a : α) : Enlists g (fun _ _ _ => False) (q a) := .none (hq a)
  exact hp.bind hnone hmono (fun _ _ _ _ h => h.elim) fun _ _ _ _ _ _ _ _ h => h

theorem slot (hp : Enlists g N p) : Enlists g N (Sketch.slot p) := fun t f ht hf =>
  (hp t f ht hf).slot

/-- Once a name has been written, binds are put for this. -/
theorem named {name : QName} {k : Option String × String → Sketch α}
    {M : String → Forest Bind → String → Prop}
    (hk : ∀ (a : Option String × String) (t : PrefixTable), t.Apart → t.textOf name = some a.2 →
      Enlists g (fun f _ => M a.2 f) (k a))
    (hM : ∀ f t x y, Paired f → t.textOf name = some y → M y f x → N f t x) :
    Enlists g N (liftM (qualified name) >>= k) := by
  intro t f ht hf d s hs hd
  rw [ends_bind, ends_lift]
  have hext := (Calm.qualified name s).prefixes
  have htext := textOf_qualified name s
  have hapart := (hs.trans hext).apart ht
  refine (hk _ _ hapart htext t f ht hf d _ (hs.trans hext) hd).mono ?_
  rintro _ d' s' ⟨hext', hpaired, new, hnew, h⟩
  exact ⟨hext.trans hext', hpaired, new, hnew,
    h.mono fun x => hM f _ x _ hf (hext'.textOf htext)⟩

/-- A bind is put that is not copied from an earlier case: if it is inherited, there is none yet. -/
theorem unlessReused {role : Role} {isInherited : Bool} {path : String} {a : α}
    (hp : Enlists g N p) :
    Enlists g (fun f t x => N f t x ∧ (role.inherits = true → isInherited = true →
      ∀ b ∈ f.roots, b.nodeset ≠ path))
      (reuses role isInherited path >>=
        fun reused => if reused = true then Pure.pure a else p) := by
  intro t f ht hf
  refine (Turns.reuses role isInherited path).bind ?_
  rintro reused t' _ hext ⟨rfl, hfree⟩
  cases reused with
  | true =>
    refine (Turns.pure a).mono ?_
    rintro _ t'' _ - rfl
    exact ⟨hf, .nil, by rw [Forest.append_nil], .nil⟩
  | false =>
    refine (hp _ _ (hext.apart ht) hf).mono fun _ t'' _ _ ⟨hpaired, new, he, hnew⟩ => ?_
    exact ⟨hpaired, new, he, hnew.mono fun x hx => ⟨hx, hfree rfl⟩⟩

theorem fills (hp : Enlists g N p) : Fills g p := fun t ht =>
  (hp t .nil ht paired_nil).mono fun _ _ _ _ ⟨_, _, he, hnew⟩ => he ▸ hnew.orderly

/-- A bind around others, which is not for a type. -/
theorem withKid {b : Bind} {nodeset : String} (hb : b.relevant = Option.none)
    (hnodeset : ∀ y, nodeset ≠ y ++ "/@xsi:type") (hp : Fills g p) :
    Enlists g (fun _ _ x => x = nodeset) (Sketch.withKid b nodeset p) := by
  refine fun t f ht hf => (Turns.withKid (hp t ht)).mono ?_
  rintro _ t' _ - ⟨id, below, rfl, hbelow⟩
  refine ⟨hf.snoc fun b' hb' x hx => ?_, _, rfl, .tree rfl hb hbelow⟩
  rw [List.mem_singleton.1 hb'] at hx
  exact absurd hx (hnodeset x)

end Enlists

/-- Children put binds with the path that they are given, or with that of the name of their type. -/
def ChildSketch.Enlists (g : Generator) (child : ChildSketch) : Prop := ∀ e id path occurs,
  (∀ y, path ≠ y ++ "/@xsi:type") → Sketch.Enlists g
    (fun _ _ x => x = path ∨ x = path ++ "/@xsi:type") (child e id path occurs)

theorem fills_valueControl (t : TypeId) (owner : Generator.Owner) :
    Fills g (valueControl g t owner) := by
  intro prefixes _
  have hstill : Turns prefixes .nil (fun _ _ f' => f' = .nil) (valueControl g t owner) :=
    .look fun d => .after (Calm.fieldControl t (d.own.getD "")) fun _ => .leaves _
  exact hstill.mono fun _ _ _ _ he => he ▸ orderly_nil

theorem enlists_field (t : TypeId) (owner : Generator.Owner) {path : String}
    (hpath : ∀ y, path ≠ y ++ "/@xsi:type") (occurs : Occurs) :
    Enlists g (fun _ _ x => x = path) (field g t owner path occurs) := by
  refine .withKid rfl hpath ?_
  split
  · refine fun prefixes hprefixes => Turns.look fun d => .after (Calm.allocate "group") fun id =>
      .within (.repeated ?_ d.around) _ _
    exact (Enlists.withKid rfl (ne_append_xsiType (by decide))
      (fills_valueControl t owner)).fills prefixes hprefixes
  · exact fills_valueControl t owner

/-- What the nodesets of the binds are for that the content of a type puts behind others: the text
or names, and in a case that takes over from earlier ones, what has a bind there already is the
text or has a name that the type does not inherit. -/
structure Role.Puts (g : Generator) (role : Role) (keys : List (Option PathStep))
    (f : Forest Bind) (t : PrefixTable) (x : String) : Prop where
  named : NamedIn keys t x
  added : role.inherits = true → ∀ b ∈ f.roots, b.nodeset = x →
    x = "." ∨ ∃ step, g.Adds role.type step ∧ Naming t (some step) x

namespace Role.Puts

variable {role : Role} {keys keys' : List (Option PathStep)} {f f' : Forest Bind}
  {t t' : PrefixTable} {x : String}

theorem mono (h : role.Puts g keys f t x) (ht : t.Extends t') (hkeys : keys ⊆ keys') :
    role.Puts g keys' f t' x where
  named := by
    obtain ⟨key, hkey, hnaming⟩ := h.named
    exact ⟨key, hkeys hkey, hnaming.mono ht⟩
  added := fun hinherits b hb hx => (h.added hinherits b hb hx).imp_right
    fun ⟨step, hadds, hnaming⟩ => ⟨step, hadds, hnaming.mono ht⟩

theorem behind (h : role.Puts g keys (f ++ f') t x) : role.Puts g keys f t x where
  named := h.named
  added := fun hinherits b hb => h.added hinherits b
    (by rw [Forest.roots_append]; exact List.mem_append_left _ hb)

/-- The steps of a content put binds for names, where no two steps do so for the same. -/
theorem bind {p : Sketch α} {q : α → Sketch β} (hp : Enlists g (role.Puts g keys) p)
    (hq : ∀ a, Enlists g (role.Puts g keys') (q a)) (hkeys : keys.Disjoint keys') :
    Enlists g (role.Puts g (keys ++ keys')) (p >>= q) := by
  refine Enlists.bind hp hq ?_ ?_ ?_
  · exact fun f t t' x ht h => h.mono ht (List.subset_append_left ..)
  · exact fun f f' t x h => h.behind.mono .refl (List.subset_append_right ..)
  · rintro f f' t t' x ht hapart ⟨⟨key, hkey, h⟩, -⟩ ⟨⟨key', hkey', h'⟩, -⟩
    exact hkeys hkey ((h.mono ht).eq h' hapart ▸ hkey')

end Role.Puts

theorem enlists_text (role : Role) (t : ComplexType) :
    Enlists g (role.Puts g [Option.none]) (text g role t) := by
  have hfield {t : TypeId} {owner : Generator.Owner} {occurs : Occurs} :
      Enlists g (role.Puts g [Option.none]) (slot (field g t owner "." occurs)) :=
    (enlists_field t owner (ne_append_xsiType (by decide)) occurs).slot.mono fun f t x _ _ hx =>
      ⟨⟨Option.none, List.mem_singleton_self _, hx⟩, fun _ _ _ _ => .inl hx⟩
  unfold text
  dsimp only
  split
  · exact hfield
  · exact hfield
  · exact .pure _

section Content

variable (hg : g.schema.NCNamed)

include hg

theorem enlists_use (role : Role) (e : Element) {id : UseId}
    (hid : Member.use id ∈ g.members role.type) :
    Enlists g (role.Puts g [some (.attr (g.schema.use id).decl.name)]) (use g role e id) := by
  have hclean := hg.clean_attr id
  have htext {t : PrefixTable} {y : String} (hy : t.textOf (g.schema.use id).decl.name = some y) :
      (PathStep.attr (g.schema.use id).decl.name).text t = some ("@" ++ y) := by
    rw [PathStep.text, hy, Option.map_some]
  refine .named (M := fun y f x => x = "@" ++ y ∧ (role.inherits = true →
    Generator.inheritsUse g.schema role.type id = true → ∀ b ∈ f.roots, b.nodeset ≠ "@" ++ y))
    ?_ ?_
  · rintro ⟨nsPrefix, name⟩ t ht hname
    refine .unlessReused ?_
    split
    · exact .after (Calm.report _) fun _ => .pure e
    · refine Enlists.last (enlists_field _ _ ?_ _).slot (fun _ _ _ => .pure _) ?_
      · exact ne_append_xsiType (hclean.slash_not_mem ht (htext hname))
      · exact fun _ _ _ _ _ h => h
  · rintro f t x y - hy ⟨rfl, hfree⟩
    have hnaming : Naming t (some (.attr (g.schema.use id).decl.name)) ("@" ++ y) :=
      ⟨hclean, _, htext hy, .inl rfl⟩
    refine ⟨⟨_, List.mem_singleton_self _, hnaming⟩, fun hinherits b hb hx => .inr ?_⟩
    refine ⟨_, ⟨.use id, hid, rfl, Generator.not_inherited_use ?_⟩, hnaming⟩
    exact Bool.eq_false_iff.2 fun htrue => hfree hinherits htrue b hb hx

theorem enlists_uses (role : Role) (e : Element) (ids : List UseId)
    (hmembers : ∀ id ∈ ids, Member.use id ∈ g.members role.type)
    (hids : (ids.map fun id => (g.schema.use id).decl.name).Nodup) :
    Enlists g (role.Puts g (ids.map fun id => some (.attr (g.schema.use id).decl.name)))
      (uses g role e ids) := by
  induction ids generalizing e with
  | nil => exact .pure e
  | cons id ids ih =>
    obtain ⟨hid, hids⟩ := List.nodup_cons.1 hids
    rw [List.forall_mem_cons] at hmembers
    refine Role.Puts.bind (enlists_use hg role e hmembers.1) (fun e => ih e hmembers.2 hids) ?_
    intro key hkey hkey'
    obtain ⟨other, hother, rfl⟩ := List.mem_map.1 hkey'
    have hname := List.mem_singleton.1 hkey
    injection hname with hstep
    injection hstep with hname
    exact hid (List.mem_map.2 ⟨other, hother, hname⟩)

variable {child : ChildSketch} (hchild : child.Enlists g)

include hchild in
theorem enlists_childElement (role : Role) (e : Element) (id : ElementId) (occurs : Occurs)
    (hmembers : ∀ c ∈ (Particle.element occurs id).children,
      Member.child c.1 c.2 ∈ g.members role.type) :
    Enlists g (role.Puts g ((Particle.element occurs id).children.map fun c =>
      some (.child (g.schema.element c.1).name))) (childElement g child role e id occurs) := by
  have hclean := hg.clean_child (g := g) id
  unfold childElement
  unfold Particle.children at hmembers ⊢
  by_cases hempty : occurs.isEmpty = true
  · rw [if_pos hempty, if_pos hempty]
    exact .pure e
  · rw [if_neg hempty, List.forall_mem_singleton] at hmembers
    rw [if_neg hempty, if_neg hempty]
    refine .named (M := fun y f x => (x = y ∨ x = y ++ "/@xsi:type") ∧ (role.inherits = true →
      Generator.inheritsElement g.schema role.type (g.schema.element id).name = true →
        ∀ b ∈ f.roots, b.nodeset ≠ y))
      ?_ ?_
    · rintro ⟨nsPrefix, name⟩ t ht hname
      refine .unlessReused ?_
      have hpath (y : String) : name ≠ y ++ "/@xsi:type" :=
        ne_append_xsiType (hclean.slash_not_mem ht hname) y
      refine Enlists.last (hchild _ id name occurs hpath).slot (fun data _ _ => ?_) ?_
      · split
        · exact .pure _
        · exact .pure e
      · exact fun _ _ _ _ _ h => h
    · rintro f t x y hf hy ⟨hx, hfree⟩
      have hnaming : Naming t (some (.child (g.schema.element id).name)) x := ⟨hclean, y, hy, hx⟩
      refine ⟨⟨_, List.mem_singleton_self _, hnaming⟩, fun hinherits b hb hsame => .inr ?_⟩
      refine ⟨_, ⟨.child id occurs, hmembers, rfl, Generator.not_inherited_child ?_⟩, hnaming⟩
      have hthere : ∃ b ∈ f.roots, b.nodeset = y := by
        rcases hx with rfl | rfl
        · exact ⟨b, hb, hsame⟩
        · exact hf b hb y hsame
      obtain ⟨b', hb', hy'⟩ := hthere
      exact Bool.eq_false_iff.2 fun htrue => hfree hinherits htrue b' hb' hy'

omit hg

mutual

theorem enlists_particle (hg : g.schema.NCNamed) (hchild : child.Enlists g) (role : Role)
    (e : Element) : ∀ p : Particle,
    (∀ c ∈ p.children, Member.child c.1 c.2 ∈ g.members role.type) →
    (p.children.map fun c => (g.schema.element c.1).name).Nodup →
    Enlists g (role.Puts g (p.children.map fun c => some (.child (g.schema.element c.1).name)))
      (particle g child role e p)
  | .element occurs id, hmembers, _ =>
    enlists_childElement hg hchild role e id occurs hmembers
  | .group occurs _ members, hmembers, h => fun t f ht hf =>
    (enlists_particles hg hchild role e members hmembers h t f ht hf).groupItems occurs
  | .wildcard _ _, _, _ => .after (Calm.report _) fun _ => .pure e

theorem enlists_particles (hg : g.schema.NCNamed) (hchild : child.Enlists g) (role : Role)
    (e : Element) : ∀ ps : List Particle,
    (∀ c ∈ Particle.childrenOf ps, Member.child c.1 c.2 ∈ g.members role.type) →
    ((Particle.childrenOf ps).map fun c => (g.schema.element c.1).name).Nodup →
    Enlists g (role.Puts g ((Particle.childrenOf ps).map fun c =>
      some (.child (g.schema.element c.1).name))) (particles g child role e ps)
  | [], _, _ => .pure e
  | p :: ps, hmembers, h => by
    rw [Particle.childrenOf, List.map_append, List.nodup_append] at h
    obtain ⟨hp, hps, hdisjoint⟩ := h
    rw [Particle.childrenOf, List.forall_mem_append] at hmembers
    rw [Particle.childrenOf, List.map_append]
    refine Role.Puts.bind (enlists_particle hg hchild role e p hmembers.1 hp)
      (fun e => enlists_particles hg hchild role e ps hmembers.2 hps) ?_
    intro key hkey hkey'
    obtain ⟨a, ha, rfl⟩ := List.mem_map.1 hkey
    obtain ⟨b, hb, hname⟩ := List.mem_map.1 hkey'
    injection hname with hstep
    injection hstep with hname
    exact hdisjoint _ (List.mem_map_of_mem ha) _ (List.mem_map_of_mem hb) hname.symm

end

/-- The names that a type may put binds for. -/
theorem keys_subset {t : TypeId} {c : ComplexType} (hc : g.schema.complex? t = some c) :
    [Option.none] ++ (c.uses.map (fun id => some (.attr (g.schema.use id).decl.name)) ++
      (Generator.modelChildren c).map fun child => some (.child (g.schema.element child.1).name)) ⊆
        Option.none :: (g.listed t).map some := by
  refine List.append_subset.2
    ⟨by simp, List.subset_cons_of_subset _ (List.append_subset.2 ⟨?_, ?_⟩)⟩
  · intro key hkey
    obtain ⟨id, hid, rfl⟩ := List.mem_map.1 hkey
    exact List.mem_map_of_mem
      (Generator.attr_mem_listed.2 ⟨id, Generator.use_mem_members.2 ⟨c, hc, hid⟩, rfl⟩)
  · intro key hkey
    obtain ⟨⟨id, occurs⟩, hid, rfl⟩ := List.mem_map.1 hkey
    exact List.mem_map_of_mem
      (Generator.child_mem_listed.2 ⟨id, occurs, Generator.child_mem_members.2 ⟨c, hc, hid⟩, rfl⟩)

include hg hchild in
/-- The binds for the content of one type have different nodesets. -/
theorem enlists_complex (huses : g.schema.AttributesOnce) (hchildren : g.schema.ElementsOnce)
    (role : Role) (e : Element) (occurs : Occurs) :
    Enlists g (role.Puts g (Option.none :: (g.listed role.type).map some))
      (complex g child role e occurs) := by
  unfold complex
  cases ht : g.schema.complex? role.type with
  | none => exact .pure e
  | some t =>
    intro prefixes f hprefixes hf
    refine .look fun d => .after (Calm.allocate "group") fun id => .within (.items ?_ _ _) _ _
    refine Enlists.mono (N := role.Puts g _) ?_
      (fun _ _ _ _ _ h => h.mono .refl (keys_subset ht)) prefixes f hprefixes hf
    refine Role.Puts.bind (enlists_text role t) (fun _ => Role.Puts.bind
      (enlists_uses hg role e _ (fun id hid => Generator.use_mem_members.2 ⟨t, ht, hid⟩)
        (huses _ _ ht)) (fun e' => ?_) ?_) ?_
    · have hnodup := hchildren _ _ ht
      have hmembers (c : ElementId × Occurs) (hc : c ∈ Generator.modelChildren t) :
          Member.child c.1 c.2 ∈ g.members role.type := Generator.child_mem_members.2 ⟨t, ht, hc⟩
      unfold contentModel
      unfold Generator.modelChildren at hnodup hmembers ⊢
      cases hparticle : t.particle with
      | none => exact .pure e'
      | some p =>
        rw [hparticle] at hnodup hmembers
        cases p with
        | group occurs compositor members =>
          exact enlists_particle hg hchild role e' _ hmembers hnodup
        | element => exact .pure e'
        | wildcard => exact .pure e'
    · intro key hkey hkey'
      obtain ⟨a, -, rfl⟩ := List.mem_map.1 hkey
      obtain ⟨b, -, hb⟩ := List.mem_map.1 hkey'
      cases hb
    · intro key hkey hkey'
      obtain rfl := List.mem_singleton.1 hkey
      rcases List.mem_append.1 hkey' with hkey' | hkey'
      · obtain ⟨a, -, ha⟩ := List.mem_map.1 hkey'
        cases ha
      · obtain ⟨a, -, ha⟩ := List.mem_map.1 hkey'
        cases ha

end Content

end Sketch

end SchemaForms
