import SchemaForms.Proofs.Schema.Models

/-!
The steps of loading account for the content of the types that they build.  A step that reads a part
of a declaration knows where reading stands, so that a type that it asks for begins to be built with
the groups that are open there.
-/

namespace SchemaForms.Loader

open SchemaForms.Xml
open SchemaForms.Source (parts part? groupNames)

/-- Progress in good order whose graph is regular and whose types are accounted for. -/
structure Consistent (c : Context) (p : Progress) : Prop where
  order : InOrder c p
  regular : Regular c p
  accounted : Accounted c p

/-- A whole step that keeps the elements and accounts for the types that it builds. -/
structure Accounts (c : Context) (p q : Progress) : Prop extends Step c p q where
  keeps : p.schema.KeepsElements q.schema
  accounted : Accounted c q

/-- Where `P` holds of the progress before it, the step accounts for what it builds, and `Q` holds
of its answer and the progress after it. -/
def Follows {α : Type} (c : Context) (P : Progress → Prop) (f : Load α)
    (Q : α → Progress → Prop) : Prop :=
  ∀ ⦃p : Progress⦄ ⦃a : α⦄ ⦃q : Progress⦄, Consistent c p → P p → f p = .ok (a, q) →
    Accounts c p q ∧ Q a q

/-- Whole steps leave `P` as it is. -/
def Stays (c : Context) (P : Progress → Prop) : Prop :=
  ∀ ⦃p q : Progress⦄, InOrder c p → Step c p q → P p → P q

theorem stays_reading (c : Context) (type : TypeId) (opens : List QName) (e : Element) :
    Stays c (Reading c type opens e) := fun _ _ ho hstep h =>
  h.mono ho hstep.later.toKeeps hstep.grows hstep.later.innermost

theorem stays_standing (c : Context) (opens : List QName) (e : Element) :
    Stays c (Standing c opens e) := fun _ _ ho hstep h =>
  h.mono ho hstep.later.toKeeps hstep.grows hstep.later.innermost

namespace Accounts

variable {c : Context} {p q r : Progress}

theorem consistent (h : Accounts c p q) : Consistent c q := ⟨h.order, h.regular, h.accounted⟩

theorem refl (h : Consistent c p) : Accounts c p p :=
  { Step.refl h.order h.regular with
    keeps := .refl _
    accounted := h.accounted }

theorem trans (h : Accounts c p q) (h' : Accounts c q r) : Accounts c p r :=
  { h.toStep.trans h'.toStep with
    keeps := h.keeps.trans h'.keeps h.grows
    accounted := h'.accounted }

/-- What has been read is read in the graph after a further step. -/
theorem reads (h : Accounts c p q) {type : TypeId} {opens : List QName} {es : List Element}
    {ps : List Particle} (hreads : Reads c p.schema type opens es ps) :
    Reads c q.schema type opens es ps :=
  hreads.mono h.grows h.keeps

/-- A step that touches no notes has no types to account for. -/
theorem of_notes (hp : Consistent c p) (hstep : Step c p q)
    (hkeeps : p.schema.KeepsElements q.schema) (hn : q.notes = p.notes) : Accounts c p q :=
  { hstep with
    keeps := hkeeps
    accounted := hp.accounted.mono hp.order hstep.later.toKeeps hstep.grows hkeeps
      fun _ hid => .inl (hn ▸ hid) }

/-- The end of the building of a type whose content has been read. -/
theorem finish {id : TypeId} {t : TypeDef} {e : Element} {opens : List QName}
    (h : Accounts c p q) (hp : InOrder c p) (hbegun : (id, .building) ∈ p.notes)
    (hunbuilt : (id, .built) ∉ p.notes)
    (hkind : t.complex?.isSome = (p.schema.complex? id).isSome)
    (hname : t.name? = (p.schema.typeDef id).name?) (he : Declares c p id e)
    (hopen : OpenAround c p id opens) (hread : ∀ ct, t = .complex ct → ReadAs c q id opens e ct) :
    p.schema.KeepsElements (q.done id t).schema ∧ Accounted c (q.done id t) := by
  have hid : p.schema.HasType id := hp.noted id _ hbegun
  have hq : q.schema.HasType id := h.grows.hasType hid
  have hk : Keeps q (q.done id t) := keeps_done h.order (h.later.mem_notes hbegun)
    (fun hb => hunbuilt (h.later.untouched id hbegun hb)) (hkind.trans (h.later.kind id hid).symm)
  have hg : q.schema.Grows (q.done id t).schema :=
    Schema.grows_setType hq (hname.trans (h.grows.name id hid).symm)
  have hkeeps : q.schema.KeepsElements (q.done id t).schema := .of_eq rfl rfl
  refine ⟨h.keeps.trans hkeeps h.grows, h.accounted.mono h.order hk hg hkeeps fun other ho => ?_⟩
  by_cases hother : id = other
  · subst hother
    have hlast := h.later.toKeeps.trans hk
    refine .inr ⟨e, opens, hlast.declares he, hopen.mono hp hlast (h.grows.trans hg), ?_⟩
    intro ct hct
    have ht : t = .complex ct := by
      rw [Schema.complex?, Progress.done, typeDef_setType _ t hq, if_pos rfl] at hct
      cases t with
      | complex own => exact congrArg TypeDef.complex (Option.some.inj hct)
      | simple own => cases hct
      | any => cases hct
    exact (hread ct ht).mono h.order hk hg hkeeps
  · left
    simpa [Progress.done, Ne.symm hother] using ho

end Accounts

namespace Follows

variable {α β : Type} {c : Context} {P R : Progress → Prop} {f : Load α} {k : α → Load β}
  {Q Q' : α → Progress → Prop} {S : β → Progress → Prop}

theorem pure {a : α} (h : ∀ p, P p → Q a p) : Follows c P (pure a) Q := by
  intro p b q hp hP hrun
  obtain ⟨rfl, rfl⟩ := pure_ok hrun
  exact ⟨.refl hp, h p hP⟩

theorem fail (problem : SchemaProblem) : Follows c P (Loader.fail problem : Load α) Q := by
  intro p a q _ _ hrun
  cases hrun

theorem weaken (h : Follows c P f Q) (hP : ∀ p, R p → P p) (hQ : ∀ a p, Q a p → Q' a p) :
    Follows c R f Q' := fun p a q hp hR hrun =>
  (h hp (hP p hR) hrun).imp_right (hQ a q)

/-- The second step goes on from what the first one leaves behind. -/
theorem bind (hf : Follows c P f Q) (hk : ∀ a, Follows c (Q a) (k a) S) :
    Follows c P (f >>= k) S := by
  intro p b r hp hP hrun
  obtain ⟨a, q, hfirst, hrest⟩ := bind_ok hrun
  obtain ⟨hq, hQ⟩ := hf hp hP hfirst
  obtain ⟨hr, hS⟩ := hk a hq.consistent hQ hrest
  exact ⟨hq.trans hr, hS⟩

/-- The second step goes on from where the first one began. -/
theorem next (hP : Stays c P) (hf : Follows c P f Q) (hk : ∀ a, Follows c P (k a) S) :
    Follows c P (f >>= k) S := by
  intro p b r hp hp' hrun
  obtain ⟨a, q, hfirst, hrest⟩ := bind_ok hrun
  obtain ⟨hq, -⟩ := hf hp hp' hfirst
  obtain ⟨hr, hS⟩ := hk a hq.consistent (hP hp.order hq.toStep hp') hrest
  exact ⟨hq.trans hr, hS⟩

/-- A step that looks at the graph. -/
theorem get {k : Progress → Load α} (hk : ∀ p, Consistent c p → Follows c P (k p) Q) :
    Follows c P (get >>= k) Q := by
  intro p a q hp hP hrun
  rw [get_bind] at hrun
  exact hk p hp hp hP hrun

/-- What is known of the graph after the step. -/
theorem also {type : TypeId} {A : Schema → Prop} {pending : α → List ElementId}
    {B : α → Schema → Prop} (h : Follows c P f Q) (hplaces : Places c type A f pending B)
    (hA : ∀ p, Consistent c p → P p → A p.schema) :
    Follows c P f fun a q => Q a q ∧ B a q.schema := by
  intro p a q hp hP hrun
  obtain ⟨hq, hQ⟩ := h hp hP hrun
  exact ⟨hq, hQ, (hplaces hp.order hp.regular (hA p hp hP) hrun).2.2⟩

/-- A step that touches neither notes nor the names of elements. -/
theorem of_places {type : TypeId} {A : Schema → Prop} {pending : α → List ElementId}
    {B : α → Schema → Prop} (h : Places c type A f pending B)
    (hsame : ∀ p a q, f p = .ok (a, q) → p.schema.KeepsElements q.schema ∧ q.notes = p.notes) :
    Follows c (fun p => A p.schema) f fun a q => B a q.schema := by
  intro p a q hp hA hrun
  obtain ⟨hstep, -, hB⟩ := h hp.order hp.regular hA hrun
  obtain ⟨hkeeps, hn⟩ := hsame p a q hrun
  exact ⟨.of_notes hp hstep hkeeps hn, hB⟩

end Follows

end SchemaForms.Loader
