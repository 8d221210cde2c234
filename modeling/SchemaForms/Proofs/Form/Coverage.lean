import SchemaForms.Proofs.Form.Sources

/-!
Coverage: each bind that a declaration is given has a control among those that it is given.
-/

namespace SchemaForms

open Synthesis
open Xml (Element)

/-- A forest has a control of a bind. -/
def Forest.Binds (f : Forest NodeKind) (bindId : String) : Prop :=
  ∃ k ∈ f.labels, k.isBoundTo bindId = true

theorem Forest.Binds.find_isSome {f : Forest NodeKind} {bindId : String} (h : f.Binds bindId) :
    (f.find (·.isBoundTo bindId)).isSome := by
  obtain ⟨k, hk, hid⟩ := h
  have hmap := Forest.find_map_fst (fun k : NodeKind => k.isBoundTo bindId) f
  cases hf : f.find (·.isBoundTo bindId) with
  | some _ => rfl
  | none =>
    rw [hf] at hmap
    exact absurd hid (by simpa using List.find?_eq_none.1 hmap.symm k hk)

theorem Generator.fieldControl_bind (g : Generator) (t : TypeId) (bindId : String)
    (s : Synthesis) : (g.fieldControl t bindId s).1.bind = some bindId := by
  unfold fieldControl
  split
  · rfl
  · split
    · rfl
    · cases g.schema.enumeration t <;> rfl

namespace Sketch

variable {α β : Type} {own : Option String} {bindId : String}

/-- A sketch keeps the controls that have been drawn. -/
def Keeps (p : Sketch α) : Prop :=
  ∀ (d : Draft) (s : Synthesis), ∀ k ∈ d.controls.labels, k ∈ (p d s).1.2.controls.labels

/-- A sketch draws a control of a bind, for an element whose bind is known. -/
def Gives (own : Option String) (bindId : String) (p : Sketch α) : Prop :=
  ∀ (d : Draft) (s : Synthesis), d.own = own → (p d s).1.2.controls.Binds bindId

/-- A sketch leaves the draft as it is. -/
def Draftless (p : Sketch α) : Prop := ∀ (d : Draft) (s : Synthesis), (p d s).1.2 = d

theorem Draftless.lift (f : Synth α) : Draftless (StateT.lift f : Sketch α) := fun _ _ => rfl

theorem Draftless.pure (a : α) : Draftless (pure a : Sketch α) := fun _ _ => rfl

theorem Draftless.bind {p : Sketch α} {q : α → Sketch β} (hp : p.Draftless)
    (hq : ∀ a, (q a).Draftless) : Draftless (p >>= q) := fun d s => by
  change (q (p d s).1.1 (p d s).1.2 (p d s).2).1.2 = d
  rw [hp]
  exact hq _ _ _

theorem Draftless.keeps {p : Sketch α} (hp : p.Draftless) : p.Keeps := fun d s k hk => by
  rwa [hp d s]

theorem Keeps.bind {p : Sketch α} {q : α → Sketch β} (hp : p.Keeps) (hq : ∀ a, (q a).Keeps) :
    Keeps (p >>= q) := fun d s k hk => hq _ _ _ k (hp d s k hk)

theorem Keeps.leaves (cs : List Control) : Keeps (Sketch.leaves cs) := fun d s k hk => by
  change k ∈ (d.controls ++ _).labels
  rw [Forest.labels_append]
  exact List.mem_append_left _ hk

theorem Keeps.within (before : List Control) (c : Control) (p : Sketch α) :
    Keeps (Sketch.within before c p) := fun d s k hk => by
  change k ∈ (d.controls ++ _).labels
  rw [Forest.labels_append]
  exact List.mem_append_left _ hk

theorem Gives.then {p : Sketch α} {q : α → Sketch β} (hp : p.Gives own bindId)
    (hq : ∀ a, (q a).Keeps) : Gives own bindId (p >>= q) := fun d s hd => by
  obtain ⟨k, hk, hid⟩ := hp d s hd
  exact ⟨k, hq _ _ _ k hk, hid⟩

theorem Gives.after {p : Sketch α} {q : α → Sketch β} (hp : p.Draftless)
    (hq : ∀ a, (q a).Gives own bindId) : Gives own bindId (p >>= q) := fun d s hd =>
  hq _ _ _ (by rw [hp]; exact hd)

/-- What is drawn later counts, when the bind of the element stays. -/
theorem Gives.behind {p : Sketch α} {q : α → Sketch β} (hp : ∀ d s, (p d s).1.2.own = d.own)
    (hq : ∀ a, (q a).Gives own bindId) : Gives own bindId (p >>= q) := fun d s hd =>
  hq _ _ _ ((hp d s).trans hd)

theorem Gives.lifted {f : Synth α} {q : α → Sketch β} {R : α → Prop} (hf : ∀ s, R (f s).1)
    (hq : ∀ a, R a → (q a).Gives own bindId) : Gives own bindId (StateT.lift f >>= q) :=
  fun d s hd => hq _ (hf s) d _ hd

theorem Gives.look {P : Draft → Sketch α} (h : ∀ d : Draft, d.own = own → (P d).Gives own bindId) :
    Gives own bindId (get >>= P) := fun d s hd => h d hd d s hd

theorem Gives.leaves {cs : List Control} {c : Control} (hc : c ∈ cs) (hid : c.bind = some bindId) :
    Gives own bindId (Sketch.leaves cs) := fun d s _ => by
  refine ⟨.control c, ?_, by simp [NodeKind.isBoundTo, NodeKind.control?, hid]⟩
  change _ ∈ (d.controls ++ .leaves _).labels
  rw [Forest.labels_append, Forest.labels_leaves]
  exact List.mem_append_right _ (List.mem_map_of_mem hc)

theorem labels_within (before : List Control) (c : Control) (p : Sketch α) (d : Draft)
    (s : Synthesis) : (Sketch.within before c p d s).1.2.controls.labels =
      d.controls.labels ++ (before.map NodeKind.control ++
        .control c :: (p { d with controls := .nil } s).1.2.controls.labels) := by
  change (d.controls ++ (Forest.leaves _ ++ Forest.tree _ _)).labels = _
  rw [Forest.labels_append, Forest.labels_append, Forest.labels_leaves]
  simp only [Forest.tree, Forest.labels_cons, Forest.labels_nil, List.append_nil]

theorem Gives.within_self {before : List Control} {c : Control} {p : Sketch α}
    (hid : c.bind = some bindId) : Gives own bindId (Sketch.within before c p) := fun d s _ => by
  refine ⟨.control c, ?_, by simp [NodeKind.isBoundTo, NodeKind.control?, hid]⟩
  rw [labels_within]
  simp

theorem Gives.within {before : List Control} {c : Control} {p : Sketch α}
    (hp : p.Gives own bindId) : Gives own bindId (Sketch.within before c p) := fun d s hd => by
  obtain ⟨k, hk, hid⟩ := hp { d with controls := .nil } s hd
  refine ⟨k, ?_, hid⟩
  rw [labels_within]
  simp [hk]

theorem Gives.repeated {bind : Option String} {p : Sketch α} (hp : p.Gives own bindId) :
    Gives own bindId (Sketch.repeated bind p) :=
  .after (.lift _) fun _ => .after (.lift _) fun _ => .after (.lift _) fun _ => .within hp

theorem Gives.items {bind : Option String} {occurs : Occurs} {p : Sketch α}
    (hp : p.Gives own bindId) : Gives own bindId (Sketch.items bind occurs p) := by
  unfold Sketch.items
  split
  · exact hp.repeated
  · exact hp

/-! Declarations. -/

theorem Covers.lift (f : Synth α) : Covers (StateT.lift f : Sketch α) := fun _ _ hd _ kid hkid =>
  .inl (hd kid hkid)

theorem Covers.after {p : Sketch α} {q : α → Sketch β} (hp : p.Draftless)
    (hq : ∀ a, (q a).Covers) : Covers (p >>= q) := fun d s hd hnil => by
  have hsame := hp d s
  refine hq (p d s).1.1 (p d s).1.2 (p d s).2 ?_ ?_
  · rw [hsame]
    exact hd
  · rw [hsame]
    exact hnil

theorem Covers.then {p : Sketch α} {q : α → Sketch β} (hp : p.Covers)
    (hq : ∀ a, (q a).Draftless) : Covers (p >>= q) := fun d s hd hnil => by
  have hsame := hq (p d s).1.1 (p d s).1.2 (p d s).2
  have hcovers := hp d s hd hnil
  change ∀ kid ∈ (q (p d s).1.1 (p d s).1.2 (p d s).2).1.2.kids, kid.source.isSome ∨
    ((q (p d s).1.1 (p d s).1.2 (p d s).2).1.2.controls.find (·.isBoundTo kid.bind.id)).isSome
  rw [hsame]
  exact hcovers

theorem Covers.withKid {b : Bind} {nodeset : String} {p : Sketch α}
    (hp : ∀ id, p.Gives (some id) id) : Covers (Sketch.withKid b nodeset p) := by
  intro d s hd _ kid hkid
  rcases List.mem_append.1 hkid with hkid | hkid
  · exact .inl (hd kid hkid)
  · rw [List.mem_singleton.1 hkid]
    exact .inr (hp _ _ _ rfl).find_isSome

/-- Two binds, the second around what is made. -/
theorem Covers.withKids {b b' : Bind} {nodeset nodeset' : String} {p : String → Sketch α}
    (hp : ∀ id id', (p id).Gives (some id') id' ∧ (p id).Gives (some id') id) :
    Covers (Sketch.withKid b nodeset Sketch.ownId >>= fun id =>
      Sketch.withKid b' nodeset' (p id)) := by
  intro d s hd _ kid hkid
  rcases List.mem_append.1 hkid with hkid | hkid
  · rcases List.mem_append.1 hkid with hkid | hkid
    · exact .inl (hd kid hkid)
    · rw [List.mem_singleton.1 hkid]
      exact .inr ((hp _ _).2 _ _ rfl).find_isSome
  · rw [List.mem_singleton.1 hkid]
    exact .inr ((hp _ _).1 _ _ rfl).find_isSome

section Declarations

variable (g : Generator) (child : ChildSketch)

theorem field_covers (t : TypeId) (owner : Generator.Owner) (path : String) (occurs : Occurs) :
    (field g t owner path occurs).Covers := by
  refine .withKid fun id => ?_
  split
  · exact .look fun d hd => .after (.lift _) fun _ => .within_self hd
  · refine .look fun d hd => ?_
    rw [hd]
    exact .lifted (R := fun c => c.bind = some id) (g.fieldControl_bind t id) fun c hc =>
      .leaves (List.mem_singleton.2 rfl) hc

theorem complex_gives {f : Role} (hf : (g.schema.complex? f.type).isSome) (e : Element)
    (occurs : Occurs) (id : String) : (complex g child f e occurs).Gives (some id) id := by
  unfold complex
  split
  · next hnone =>
    rw [hnone] at hf
    cases hf
  · exact .look fun d hd => .after (.lift _) fun _ => .within_self hd

theorem guardCase_keeps_controls (existing : Nat) (t declared : TypeId) :
    (guardCase g existing t declared).Keeps := by
  unfold guardCase
  split
  · exact fun _ _ _ hk => hk
  · exact fun _ _ _ hk => hk

theorem typeCase_gives {t : TypeId} (ht : (g.schema.complex? t).isSome) (owner : ElementId)
    (declared : TypeId) (isFirst : Bool) (e : Element) (caseId id : String) :
    (typeCase g child owner declared isFirst e t caseId).Gives (some id) id :=
  .within (.look fun _ _ => .then (complex_gives g child ht _ _ id) fun _ =>
    (guardCase_keeps_controls g _ t declared).bind fun _ => .bind (fun _ _ _ hk => hk) fun _ =>
      (Draftless.pure _).keeps)

theorem typeCases_keeps (owner : ElementId) (declared : TypeId) (isFirst : Bool) (e : Element)
    (cases : List (TypeId × String)) : (typeCases g child owner declared isFirst e cases).Keeps := by
  induction cases generalizing isFirst e with
  | nil => exact (Draftless.pure e).keeps
  | cons c cases ih => exact .bind (.within _ _ _) fun e => ih false e

/-- The binds of an element with a choice of types: that of the choice and its own. -/
theorem switch_covers {types : List TypeId} (hne : types ≠ [])
    (htypes : ∀ t ∈ types, (g.schema.complex? t).isSome) (e : Element) (owner : ElementId)
    (declared : TypeId) (path : String) (occurs : Occurs) :
    (switch g child e owner declared types path occurs).Covers := by
  obtain ⟨t, ts, rfl⟩ := List.exists_cons_of_ne_nil hne
  have hchoices (s : Synthesis) : ∃ c cs, (g.typeChoices (t :: ts) s).1 = c :: cs := ⟨_, _, rfl⟩
  refine .after (.lift _) fun selectId => .withKids fun typeBindId id => ⟨?_, ?_⟩
  · refine .look fun d _ => .items (.after (.lift _) fun prompt =>
      .lifted (R := fun choices => ∃ c cs, choices = c :: cs) hchoices ?_)
    rintro choices ⟨c, cs, rfl⟩
    refine .behind (fun _ _ => rfl) fun _ => .after (.lift _) fun _ => .after (.lift _) fun _ =>
      .after (.lift _) fun _ => .behind (fun _ _ => rfl) fun _ => .after (.lift _) fun _ =>
      .within (.after (.lift _) fun first => ?_)
    exact .then (typeCase_gives g child (htypes t (List.mem_cons_self ..)) _ _ _ _ _ _) fun e =>
      typeCases_keeps g child _ _ _ e _
  · refine .look fun d _ => .items (.after (.lift _) fun prompt => .after (.lift _) fun choices =>
      .then (.leaves (List.mem_singleton.2 rfl) rfl) fun _ => ?_)
    exact (Draftless.lift _).keeps.bind fun _ => (Draftless.lift _).keeps.bind fun _ =>
      (Draftless.lift _).keeps.bind fun _ => (Keeps.leaves _).bind fun _ =>
      (Draftless.lift _).keeps.bind fun _ => .within _ _ _

theorem plain_covers {resolved : TypeId} (hresolved : (g.schema.complex? resolved).isSome)
    (e : Element) (owner : ElementId) (declared : TypeId) (path : String) (occurs : Occurs) :
    (plain g child e owner declared resolved path occurs).Covers := by
  have hkid (e : Element) : (withKid {} path
      (complex g child ⟨resolved, owner, false⟩ e occurs)).Covers :=
    .withKid fun id => complex_gives g child hresolved e occurs id
  unfold plain
  split
  · exact .after (.pure _) hkid
  · exact .after (.lift _) fun value => hkid _

/-- The candidates for a complex type are complex. -/
theorem expand_covers (hcandidates : ∀ t, ∀ t' ∈ g.candidates t, (g.schema.complex? t).isSome →
      (g.schema.complex? t').isSome)
    (e : Element) (id : ElementId) (path : String) (occurs : Occurs) :
    (expand g child e id path occurs).Covers := by
  have hleave (e : Element) : Draftless (do
      leave
      return some e : Sketch (Option Element)) := (Draftless.lift _).bind fun _ => .pure _
  unfold expand
  dsimp only
  split
  · exact .after (.lift _) fun _ => .lift (pure none)
  · next t _ =>
    split
    · exact .then (field_covers g t _ path occurs) fun _ => .pure _
    · next hcomplex =>
      have hsome : (g.schema.complex? t).isSome := by
        simpa [Option.isSome_iff_ne_none] using hcomplex
      refine .after (.lift _) fun entered => ?_
      split
      · split
        · exact .then (plain_covers g child hsome e id t path occurs) hleave
        · next resolved hone =>
          have hmem : resolved ∈ g.candidates t := hone ▸ List.mem_singleton.2 rfl
          exact .then (plain_covers g child (hcandidates t resolved hmem hsome) e id t path occurs)
            hleave
        · next types hnone _ =>
          exact .then (switch_covers g child hnone (fun t' ht' => hcandidates t t' ht' hsome) e id t
            path occurs) hleave
      · exact .after (.lift _) fun _ => .lift (pure none)

end Declarations

theorem element_covers {g : Generator} (hcandidates : ∀ t, ∀ t' ∈ g.candidates t,
      (g.schema.complex? t).isSome → (g.schema.complex? t').isSome)
    (openings : Nat) (e : Element) (id : ElementId) (path : String) (occurs : Occurs) :
    (element g openings e id path occurs).Covers := by
  cases openings with
  | zero => exact .lift (pure none)
  | succ openings => exact expand_covers g _ hcandidates e id path occurs

end Sketch

end SchemaForms
