import SchemaForms.Proofs.Form.Coverage
import SchemaForms.Proofs.Form.Expanding
import SchemaForms.Proofs.Form.Exposure
import SchemaForms.Proofs.Form.Inheritance

/-!
The content of a type, as far as it takes over binds of earlier cases.  Where a type lists no name
twice, and inherits what earlier cases have binds for, it has a control for each of these, and makes
new binds for what it lists besides.
-/

namespace SchemaForms

open Synthesis
open Forest (tree leaf)
open Xml (Element)

/-! How names are told apart. -/

namespace PathStep

variable {step step' : PathStep} {t t' : PrefixTable} {x : String}

/-- The name of an attribute or element has no character in it that no NCName goes on with, and is
no dot. -/
def Clean : PathStep → Prop
  | .child name => (∀ c, continuesNCName c = false → c ∉ name.localName.toList) ∧
      (name.nspace = none → name.localName ≠ ".")
  | .attr name => ∀ c, continuesNCName c = false → c ∉ name.localName.toList
  | .xsiType => False

theorem text_mono (ht : t.Extends t') (hx : step.text t = some x) : step.text t' = some x := by
  cases step with
  | child name => exact ht.textOf hx
  | attr name =>
    obtain ⟨y, hy, rfl⟩ := Option.map_eq_some_iff.1 hx
    exact Option.map_eq_some_iff.2 ⟨y, ht.textOf hy, rfl⟩
  | xsiType => exact hx

theorem Clean.text_ne_dot (h : step.Clean) (hx : step.text t = some x) : x ≠ "." := by
  rintro rfl
  cases step with
  | child name =>
    change t.textOf name = some "." at hx
    unfold PrefixTable.textOf at hx
    cases hns : name.nspace with
    | none =>
      rw [hns] at hx
      exact h.2 hns (Option.some.inj hx)
    | some ns =>
      rw [hns] at hx
      obtain ⟨p, -, htext⟩ := Option.map_eq_some_iff.1 hx
      have hmem : ':' ∈ (p ++ ":" ++ name.localName).toList := by simp
      rw [htext] at hmem
      exact absurd hmem (by decide)
  | attr name =>
    obtain ⟨y, -, htext⟩ := Option.map_eq_some_iff.1 hx
    have hlist := congrArg String.toList htext
    simp at hlist
  | xsiType => exact h

theorem Clean.at_not_mem {name : QName} (h : (PathStep.child name).Clean) (ht : t.Apart)
    (hx : (PathStep.child name).text t = some x) : '@' ∉ x.toList :=
  ht.not_mem_textOf hx (h.1 _ (by decide)) (by decide) (by decide)

/-- Attributes and elements are known by how they are written. -/
theorem Clean.eq_of_text (h : step.Clean) (h' : step'.Clean) (ht : t.Apart)
    (hx : step.text t = some x) (hx' : step'.text t = some x) : step = step' := by
  have hcolon : continuesNCName ':' = false := by decide
  have hmixed {name name' : QName} (h : (PathStep.child name).Clean)
      (hx : (PathStep.child name).text t = some x) (hx' : (PathStep.attr name').text t = some x) :
      False := by
    obtain ⟨y, -, rfl⟩ := Option.map_eq_some_iff.1 hx'
    exact h.at_not_mem ht hx (by simp)
  cases step with
  | child name =>
    cases step' with
    | child name' =>
      rw [ht.textOf_injective (h.1 _ hcolon) (h'.1 _ hcolon) hx hx']
    | attr name' => exact (hmixed h hx hx').elim
    | xsiType => exact h'.elim
  | attr name =>
    cases step' with
    | child name' => exact (hmixed h' hx' hx).elim
    | attr name' =>
      obtain ⟨y, hy, rfl⟩ := Option.map_eq_some_iff.1 hx
      obtain ⟨y', hy', htext⟩ := Option.map_eq_some_iff.1 hx'
      obtain rfl : y' = y := by simpa using htext
      rw [ht.textOf_injective (h _ hcolon) (h' _ hcolon) hy hy']
    | xsiType => exact h'.elim
  | xsiType => exact h.elim

end PathStep

theorem Schema.NCNamed.clean_child {g : Generator} (hnames : g.schema.NCNamed) (id : ElementId) :
    (PathStep.child (g.schema.element id).name).Clean :=
  ⟨fun _ hc => hnames.not_mem_element id hc, fun hns => (hnames.steplike (g := g) id hns).1⟩

theorem Schema.NCNamed.clean_attr {s : Schema} (hnames : s.NCNamed) (id : UseId) :
    (PathStep.attr (s.use id).decl.name).Clean := fun _ hc => hnames.not_mem_use id hc

theorem Schema.NCNamed.clean {g : Generator} (hnames : g.schema.NCNamed) {t : TypeId}
    {step : PathStep} (h : step ∈ g.listed t) : step.Clean := by
  cases step with
  | child name =>
    obtain ⟨id, occurs, -, rfl⟩ := Generator.child_mem_listed.1 h
    exact hnames.clean_child id
  | attr name =>
    obtain ⟨id, -, rfl⟩ := Generator.attr_mem_listed.1 h
    exact hnames.clean_attr id
  | xsiType => exact absurd h Generator.xsiType_not_mem_listed

/-! Kids. -/

namespace Kid

/-- What stays of a kid while a case is made. -/
def face (kid : Kid) : Bind × Forest Bind × Option (NodeKind × Forest NodeKind) :=
  (kid.bind, kid.below, kid.source)

/-- A kid is for an attribute or element of a name. -/
def At (t : PrefixTable) (kid : Kid) (step : PathStep) : Prop :=
  step.text t = some kid.bind.nodeset

/-- The kids have different nodesets, those for texts apart. -/
def Distinct (kids : List Kid) : Prop :=
  kids.Pairwise fun a b => a.bind.nodeset = b.bind.nodeset → a.bind.nodeset = "."

/-- The source of a kid is a control of its bind, with switches that show what they have to. -/
def Drawn (g : Generator) (prefixes : PrefixTable) (holdings : List Holding) (kid : Kid) : Prop :=
  ∃ k below, kid.source = some (k, below) ∧ k.isBoundTo kid.bind.id = true ∧
    Exposing g prefixes holdings (tree k below)

/-- A kid of an earlier case: what the type lists under its name, it inherits; and once that is
done, the kid is shared and has a control in the case. -/
structure Kept (g : Generator) (f : Sketch.Role) (t : PrefixTable) (done : List PathStep)
    (controls : Forest NodeKind) (kid : Kid) : Prop where
  origin : kid.bind.nodeset = "." ∧ kid.shared = false ∨ ∃ step : PathStep, step.Clean ∧
    kid.At t step ∧ (step ∈ g.listed f.type → f.inherits = true ∧ g.Inherits f.type step) ∧
    (kid.shared = true ↔ step ∈ done)
  bound : kid.shared = true → controls.Binds kid.bind.id

/-- A kid that a case has made; `P` tells that each has the nodeset of what it is made for. -/
structure Made (P : Prop) (t : PrefixTable) (done : List PathStep) (controls : Forest NodeKind)
    (kid : Kid) : Prop where
  irrelevant : kid.bind.relevant = none
  unshared : kid.shared = false
  bound : controls.Binds kid.bind.id
  origin : P → kid.bind.nodeset = "." ∨ ∃ step ∈ done, step.Clean ∧ kid.At t step

variable {g : Generator} {f : Sketch.Role} {P : Prop} {t t' : PrefixTable} {done : List PathStep}
  {controls controls' : Forest NodeKind} {kid : Kid} {holdings holdings' : List Holding}

theorem Drawn.mono (h : kid.Drawn g t holdings) (ht : t.Extends t') (hsub : holdings ⊆ holdings') :
    kid.Drawn g t' holdings' := by
  obtain ⟨k, below, hsource, hbound, hexposing⟩ := h
  exact ⟨k, below, hsource, hbound, hexposing.mono ht hsub⟩

theorem Kept.mono (h : kid.Kept g f t done controls) (ht : t.Extends t')
    (hcontrols : ∀ id, controls.Binds id → controls'.Binds id) :
    kid.Kept g f t' done controls' where
  origin := h.origin.imp_right fun ⟨step, hclean, hat, h⟩ =>
    ⟨step, hclean, PathStep.text_mono ht hat, h⟩
  bound hshared := hcontrols _ (h.bound hshared)

theorem Made.mono (h : kid.Made P t done controls) (ht : t.Extends t') {more : List PathStep}
    (hcontrols : ∀ id, controls.Binds id → controls'.Binds id) (hdone : done ⊆ more) :
    kid.Made P t' more controls' where
  irrelevant := h.irrelevant
  unshared := h.unshared
  bound := hcontrols _ h.bound
  origin hP := (h.origin hP).imp_right fun ⟨step, hstep, hclean, hat⟩ =>
    ⟨step, hdone hstep, hclean, PathStep.text_mono ht hat⟩

/-- Of distinct kids, one nodeset belongs to one kid. -/
theorem Distinct.eq_of_nodeset {kids : List Kid} (h : Distinct kids) {a b : Kid} (ha : a ∈ kids)
    (hb : b ∈ kids) (heq : a.bind.nodeset = b.bind.nodeset) (hdot : a.bind.nodeset ≠ ".") :
    a = b := by
  by_contra hne
  have : Std.Symm fun a b : Kid => a.bind.nodeset = b.bind.nodeset → a.bind.nodeset = "." :=
    ⟨fun a b hab he => he.trans (hab he.symm)⟩
  exact hdot (List.Pairwise.forall h ha hb hne heq)

end Kid

namespace Sketch

theorem share_eq_map {kids : List Kid} (h : Kid.Distinct kids) {x : String} (hx : x ≠ ".") :
    share x kids = kids.map fun kid =>
      if kid.bind.nodeset = x then { kid with shared := true } else kid := by
  induction kids with
  | nil => rfl
  | cons kid kids ih =>
    obtain ⟨hfirst, hrest⟩ := List.pairwise_cons.1 h
    rw [share, List.map_cons]
    split
    · next hkid =>
      congr 1
      refine (List.map_id' kids).symm.trans (List.map_congr_left fun kid' hkid' => ?_)
      rw [if_neg]
      exact fun hx' => hx (hkid ▸ hfirst kid' hkid' (hkid.trans hx'.symm))
    · rw [ih hrest]

/-- A declaration has been drawn from a draft without controls: the kids that it has been given are
bound to its controls, and if `Q` holds, there is at most one, with the nodeset given. -/
structure Sprouts (g : Generator) (Q : Prop) (x : String) (d : Draft) (s : Synthesis) (d' : Draft)
    (s' : Synthesis) : Prop where
  abides : s.Abides s'
  own : d'.own = d.own
  kids : ∃ new, d'.kids = d.kids ++ new ∧
    (∀ kid ∈ new, kid.bind.relevant = none ∧ kid.shared = false ∧ kid.source = none ∧
      d'.controls.Binds kid.bind.id) ∧
    (Q → new.length ≤ 1 ∧ ∀ kid ∈ new, kid.bind.nodeset = x) ∧
    Exposing g s'.prefixes (Kid.holdings new) d'.controls

/-- Some of the names that a type lists are done.  `D` is the draft before the case, with the kids of
earlier cases; `before` are controls of the case around those of the draft. -/
structure Midway (g : Generator) (f : Role) (P : Prop) (D : Draft) (before : Forest NodeKind)
    (done : List PathStep) (d : Draft) (s : Synthesis) : Prop where
  apart : s.prefixes.Apart
  own : d.own = D.own
  proper : P ∨ D.kids = []
  split : ∃ old new, d.kids = old ++ new ∧ old.map Kid.face = D.kids.map Kid.face ∧
    (∀ kid ∈ old, kid.Kept g f s.prefixes done (before ++ d.controls)) ∧
    ∀ kid ∈ new, kid.Made P s.prefixes done (before ++ d.controls)
  distinct : P → Kid.Distinct d.kids
  drawn : ∀ kid ∈ d.kids, kid.Drawn g s.prefixes (Kid.holdings d.kids)
  exposing : Exposing g s.prefixes (Kid.holdings d.kids) (before ++ d.controls)

namespace Midway

variable {g : Generator} {f : Role} {P Q : Prop} {D : Draft} {before before' : Forest NodeKind}
  {done : List PathStep} {d d' : Draft} {s s' : Synthesis} {step : PathStep} {x : String}

theorem after (h : Midway g f P D before done d s) (hs : s.Abides s') :
    Midway g f P D before done d s' where
  apart := hs.prefixes.apart h.apart
  own := h.own
  proper := h.proper
  split := by
    obtain ⟨old, new, hkids, hface, hold, hnew⟩ := h.split
    exact ⟨old, new, hkids, hface, fun kid hkid => (hold kid hkid).mono hs.prefixes fun _ h => h,
      fun kid hkid => (hnew kid hkid).mono hs.prefixes (fun _ h => h) (List.Subset.refl _)⟩
  distinct := h.distinct
  drawn kid hkid := (h.drawn kid hkid).mono hs.prefixes (List.Subset.refl _)
  exposing := h.exposing.mono hs.prefixes (List.Subset.refl _)

/-- The controls may be arranged otherwise. -/
theorem redraw (h : Midway g f P D before done d s) {controls : Forest NodeKind}
    (hbinds : ∀ id, (before ++ d.controls).Binds id → (before' ++ controls).Binds id)
    (hexposing : Exposing g s.prefixes (Kid.holdings d.kids) (before' ++ controls)) :
    Midway g f P D before' done { d with controls := controls } s where
  apart := h.apart
  own := h.own
  proper := h.proper
  split := by
    obtain ⟨old, new, hkids, hface, hold, hnew⟩ := h.split
    exact ⟨old, new, hkids, hface, fun kid hkid => (hold kid hkid).mono .refl hbinds,
      fun kid hkid => (hnew kid hkid).mono .refl hbinds (List.Subset.refl _)⟩
  distinct := h.distinct
  drawn := h.drawn
  exposing := hexposing

/-- A name is done for which there is no kid. -/
theorem skip (h : Midway g f P D before done d s)
    (hstep : P → ∀ kid ∈ d.kids, ¬ kid.At s.prefixes step) :
    Midway g f P D before (done ++ [step]) d s where
  apart := h.apart
  own := h.own
  proper := h.proper
  split := by
    obtain ⟨old, new, hkids, hface, hold, hnew⟩ := h.split
    refine ⟨old, new, hkids, hface, fun kid hkid => ⟨?_, (hold kid hkid).bound⟩, fun kid hkid =>
      (hnew kid hkid).mono .refl (fun _ h => h) (List.subset_append_left ..)⟩
    refine (hold kid hkid).origin.imp_right fun ⟨step', hclean, hat, hlisted, hshared⟩ =>
      ⟨step', hclean, hat, hlisted, hshared.trans ?_⟩
    have hP : P := h.proper.resolve_right fun hD => by
      rw [hD, List.map_nil, List.map_eq_nil_iff] at hface
      rw [hface] at hkid
      cases hkid
    have hne : step' ≠ step := by
      rintro rfl
      exact hstep hP kid (hkids ▸ List.mem_append_left _ hkid) hat
    simp [hne]
  distinct := h.distinct
  drawn := h.drawn
  exposing := h.exposing

/-- A name that is not done, and is not inherited, belongs to no kid. -/
theorem not_at (h : Midway g f P D before done d s) (hclean : step.Clean)
    (hlisted : step ∈ g.listed f.type) (hdone : step ∉ done)
    (hinherits : ¬ (f.inherits = true ∧ g.Inherits f.type step)) (hP : P) {kid : Kid}
    (hkid : kid ∈ d.kids) : ¬ kid.At s.prefixes step := by
  intro hat
  have hdot : kid.bind.nodeset ≠ "." := hclean.text_ne_dot hat
  obtain ⟨old, new, hkids, -, hold, hnew⟩ := h.split
  rw [hkids, List.mem_append] at hkid
  rcases hkid with hkid | hkid
  · rcases (hold kid hkid).origin with ⟨h', -⟩ | ⟨step', hclean', hat', hlisted', -⟩
    · exact hdot h'
    · obtain rfl := hclean'.eq_of_text hclean h.apart hat' hat
      exact hinherits (hlisted' hlisted)
  · rcases (hnew kid hkid).origin hP with h' | ⟨step', hstep', hclean', hat'⟩
    · exact hdot h'
    · obtain rfl := hclean'.eq_of_text hclean h.apart hat' hat
      exact hdone hstep'

/-- A kid of an earlier case is shared, and its control copied. -/
theorem share (h : Midway g f P D before done d s) (hP : P) (hclean : step.Clean)
    (hx : step.text s.prefixes = some x) (hdone : step ∉ done) {kid : Kid} (hkid : kid ∈ d.kids)
    (hnodeset : kid.bind.nodeset = x) {k : NodeKind} {below : Forest NodeKind}
    (hsource : kid.source = some (k, below)) (ids : Identifiers)
    (copies : List (Forest NodeKind × Forest NodeKind)) :
    Midway g f P D before (done ++ [step])
      { d with
        controls := d.controls ++ ((tree k below).copy ids).1
        kids := Sketch.share x d.kids
        copies := copies } s := by
  have hdot : x ≠ "." := hclean.text_ne_dot hx
  let mark := fun kid : Kid => if kid.bind.nodeset = x then { kid with shared := true } else kid
  have hshare : Sketch.share x d.kids = d.kids.map mark := share_eq_map (h.distinct hP) hdot
  have hmark (kid : Kid) : (mark kid).bind = kid.bind ∧ (mark kid).below = kid.below ∧
      (mark kid).source = kid.source := by
    unfold mark
    split <;> exact ⟨rfl, rfl, rfl⟩
  have hholdings : Kid.holdings (d.kids.map mark) = Kid.holdings d.kids := by
    apply Kid.holdings_congr
    rw [List.map_map]
    refine List.map_congr_left fun kid _ => ?_
    simp only [Function.comp_apply, Kid.holding, hmark]
  obtain ⟨k', below', hsource', hbound, hexposing⟩ := h.drawn kid hkid
  cases hsource.symm.trans hsource'
  have hcopied : ((tree k below).copy ids).1.Binds kid.bind.id :=
    (Forest.binds_root hbound below).of_marks (Forest.map_mark_copy _ ids).symm
  have hmore : ∀ id, (before ++ d.controls).Binds id →
      (before ++ (d.controls ++ ((tree k below).copy ids).1)).Binds id := by
    intro id hid
    rw [← Forest.append_assoc]
    exact hid.append_left _
  obtain ⟨old, new, hkids, hface, hold, hnew⟩ := h.split
  have hapart {kid' : Kid} (hkid' : kid' ∈ new) : kid'.bind.nodeset ≠ x := by
    intro hx'
    rcases (hnew kid' hkid').origin hP with h' | ⟨step', hstep', hclean', hat'⟩
    · exact hdot (hx'.symm.trans h')
    · exact hdone (hclean'.eq_of_text hclean h.apart hat' (hx.trans (congrArg some hx'.symm)) ▸ hstep')
  have hnew' : new.map mark = new :=
    (List.map_congr_left fun kid' hkid' => if_neg (hapart hkid')).trans (List.map_id' new)
  rw [hshare]
  refine ⟨h.apart, h.own, h.proper, ⟨old.map mark, new, ?_, ?_, ?_, ?_⟩, fun _ => ?_, ?_, ?_⟩
  · rw [hkids, List.map_append, hnew']
  · rw [← hface, List.map_map]
    refine List.map_congr_left fun kid _ => ?_
    simp only [Function.comp_apply, Kid.face, hmark]
  · intro kid₁ hkid₁
    obtain ⟨kid₀, hkid₀, rfl⟩ := List.mem_map.1 hkid₁
    have hmem : kid₀ ∈ d.kids := hkids ▸ List.mem_append_left _ hkid₀
    by_cases hkidx : kid₀.bind.nodeset = x
    · have hshared : mark kid₀ = { kid₀ with shared := true } := if_pos hkidx
      obtain rfl := (h.distinct hP).eq_of_nodeset hmem hkid (hkidx.trans hnodeset.symm)
        (hkidx ▸ hdot)
      rw [hshared]
      refine ⟨.inr ?_, fun _ => ?_⟩
      · rcases (hold kid₀ hkid₀).origin with ⟨h', -⟩ | ⟨step', hclean', hat', hlisted', -⟩
        · exact absurd (hkidx.symm.trans h') hdot
        · obtain rfl := hclean'.eq_of_text hclean h.apart hat' (hx.trans (congrArg some hkidx.symm))
          exact ⟨step', hclean', hat', hlisted', by simp⟩
      · rw [← Forest.append_assoc]
        exact hcopied.append_right _
    · have hsame : mark kid₀ = kid₀ := if_neg hkidx
      rw [hsame]
      refine ⟨(hold kid₀ hkid₀).origin.imp_right ?_, fun hs => hmore _ ((hold kid₀ hkid₀).bound hs)⟩
      rintro ⟨step', hclean', hat', hlisted', hshared'⟩
      have hne : step' ≠ step := by
        rintro rfl
        exact hkidx (Option.some.inj (hat'.symm.trans hx))
      exact ⟨step', hclean', hat', hlisted', by simp [hshared', hne]⟩
  · exact fun kid' hkid' => (hnew kid' hkid').mono .refl hmore (List.subset_append_left ..)
  · refine List.pairwise_map.2 ((h.distinct hP).imp fun hab => ?_)
    simpa only [hmark] using hab
  · intro kid₁ hkid₁
    obtain ⟨kid₀, hkid₀, rfl⟩ := List.mem_map.1 hkid₁
    rw [hholdings]
    obtain ⟨k₀, below₀, h₀⟩ := h.drawn kid₀ hkid₀
    exact ⟨k₀, below₀, by simpa only [hmark] using h₀⟩
  · rw [hholdings, ← Forest.append_assoc]
    exact h.exposing.append (hexposing.copy ids)

/-- A declaration is drawn. -/
theorem slot {α : Type} (h : Midway g f P D before done d s) {p : Sketch α}
    (hp : p.Ends { d with controls := .nil } s fun _ d' s' =>
      Sprouts g Q x { d with controls := .nil } s d' s') (hQ : P → Q)
    (hx : P → x = "." ∨ (∃ step ∈ done, step.Clean ∧ step.text s.prefixes = some x) ∧
      ∀ kid ∈ d.kids, kid.bind.nodeset ≠ x) :
    (Sketch.slot p).Ends d s fun _ d' s' => Midway g f P D before done d' s' ∧ s.Abides s' := by
  rw [ends_slot]
  refine hp.mono fun _ d' s' hsprouts => ⟨?_, hsprouts.abides⟩
  obtain ⟨more, hkids', hmore, hone, hexposing⟩ := hsprouts.kids
  change d'.kids = d.kids ++ more at hkids'
  have hprefixes := hsprouts.abides.prefixes
  have hsettled : d'.kids.map (settle d'.controls) = d.kids ++ more.map (settle d'.controls) := by
    rw [hkids', List.map_append]
    congr 1
    refine (List.map_congr_left fun kid hkid => ?_).trans (List.map_id' d.kids)
    obtain ⟨k, below, hsource, -⟩ := h.drawn kid hkid
    exact settle_of_isSome (by rw [hsource]; rfl) _
  have hholdings : Kid.holdings (more.map (settle d'.controls)) = Kid.holdings more := by
    apply Kid.holdings_congr
    rw [List.map_map]
    refine List.map_congr_left fun kid _ => ?_
    obtain ⟨hbind, hbelow, -⟩ := settle_keeps d'.controls kid
    simp only [Function.comp_apply, Kid.holding, hbind, hbelow]
  have hall : Kid.holdings (d.kids ++ more.map (settle d'.controls)) =
      Kid.holdings d.kids ++ Kid.holdings more := by
    rw [Kid.holdings_append, hholdings]
  have hgrown : ∀ id, (before ++ d.controls).Binds id →
      (before ++ (d.controls ++ d'.controls)).Binds id := by
    intro id hid
    rw [← Forest.append_assoc]
    exact hid.append_left _
  obtain ⟨old, new, hkids, hface, hold, hnew⟩ := h.split
  rw [hsettled]
  refine ⟨hprefixes.apart h.apart, hsprouts.own.trans h.own, h.proper, ⟨old, new ++ more.map (settle d'.controls), ?_, hface,
    fun kid hkid => (hold kid hkid).mono hprefixes hgrown, ?_⟩, fun hP => ?_, ?_, ?_⟩
  · rw [hkids, List.append_assoc]
  · intro kid hkid
    rcases List.mem_append.1 hkid with hkid | hkid
    · exact (hnew kid hkid).mono hprefixes hgrown (List.Subset.refl _)
    · obtain ⟨kid₀, hkid₀, rfl⟩ := List.mem_map.1 hkid
      obtain ⟨hbind, -, hshared⟩ := settle_keeps d'.controls kid₀
      obtain ⟨hrelevant, hunshared, -, hbinds⟩ := hmore kid₀ hkid₀
      refine ⟨hbind ▸ hrelevant, hshared.trans hunshared, ?_, fun hP => ?_⟩
      · rw [hbind, ← Forest.append_assoc]
        exact hbinds.append_right _
      · have hnodeset := (hone (hQ hP)).2 kid₀ hkid₀
        simp only [Kid.At, hbind, hnodeset]
        refine (hx hP).imp_right fun hfresh => ?_
        obtain ⟨⟨step, hstep, hclean, htext⟩, -⟩ := hfresh
        exact ⟨step, hstep, hclean, PathStep.text_mono hprefixes htext⟩
  · obtain ⟨hlength, hnodeset⟩ := hone (hQ hP)
    refine List.pairwise_append.2 ⟨h.distinct hP, ?_, fun a ha b hb heq => ?_⟩
    · rcases more with _ | ⟨kid, _ | ⟨kid', rest⟩⟩
      · exact .nil
      · exact List.pairwise_singleton ..
      · simp at hlength
    · obtain ⟨kid₀, hkid₀, rfl⟩ := List.mem_map.1 hb
      rw [(settle_keeps d'.controls kid₀).1, hnodeset kid₀ hkid₀] at heq
      exact (hx hP).elim (fun hdot => heq.trans hdot) fun hfresh => absurd heq (hfresh.2 a ha)
  · rw [hall]
    intro kid hkid
    rcases List.mem_append.1 hkid with hkid | hkid
    · exact (h.drawn kid hkid).mono hprefixes (List.subset_append_left ..)
    · obtain ⟨kid₀, hkid₀, rfl⟩ := List.mem_map.1 hkid
      obtain ⟨-, -, hsource, hbinds⟩ := hmore kid₀ hkid₀
      obtain ⟨⟨k, below⟩, hfind⟩ := Option.isSome_iff_exists.1 hbinds.find_isSome
      refine ⟨k, below, ?_, ?_, ?_⟩
      · rw [settle, hsource, if_pos Option.isNone_none]
        exact hfind
      · rw [(settle_keeps d'.controls kid₀).1]
        exact (Forest.find_mem hfind).2.2
      · exact (hexposing.part (Forest.mem_parts_of_find hfind)).mono .refl
          (List.subset_append_right ..)
  · rw [hall, ← Forest.append_assoc]
    exact (h.exposing.mono hprefixes (List.subset_append_left ..)).append
      (hexposing.mono .refl (List.subset_append_right ..))

end Midway

end Sketch

end SchemaForms
