import SchemaForms.Proofs.Form.Disclosure
import SchemaForms.Proofs.Form.Enumeration

/-!
Visibility.  In a type graph whose types and names can be told apart, no field that is relevant is
hidden: wherever an element may have several types, the case of each shows all binds of the element
that are relevant for it.
-/

namespace SchemaForms

open Synthesis
open Forest (tree)
open Xml (Element)

theorem Forest.binds_of_trees {f below : Forest NodeKind} {k : NodeKind} {id : String}
    (hmem : (k, below) ∈ f.trees) (h : below.Binds id) : f.Binds id := by
  induction f with
  | nil => cases hmem
  | cons a inner after _ ih =>
    have happend : Forest.cons a inner after = tree a inner ++ after := rfl
    rw [happend]
    rcases List.mem_cons.1 hmem with heq | hmem
    · cases heq
      exact (h.tree k).append_left after
    · exact (ih hmem).append_right _

namespace Sketch

variable {g : Generator} {child : ChildSketch} {Good : ElementId → Prop} {id : ElementId}
  {t : TypeId} {path : String} {d : Draft} {s : Synthesis}

theorem Midway.start {f : Role} {P : Prop} (hs : s.prefixes.Apart) (hkids : d.kids = [])
    (hcontrols : d.controls = .nil) : Midway g f P d .nil [] d s where
  apart := hs
  own := rfl
  proper := .inr hkids
  split := ⟨[], [], hkids, by rw [hkids], fun _ h => absurd h List.not_mem_nil,
    fun _ h => absurd h List.not_mem_nil⟩
  distinct _ := by
    rw [hkids]
    exact .nil
  drawn kid hkid := by
    rw [hkids] at hkid
    cases hkid
  exposing := by
    rw [hcontrols]
    exact .nil

/-- The bind of an element, around the binds of its content. -/
theorem holdings_around (b : Bind) (kids : List Kid) :
    Kid.holdings [{ bind := b, below := Kid.forest kids }] =
      (b.id, b.nodeset, Kid.forest kids) :: Kid.holdings kids := by
  rw [Kid.holdings_cons, Kid.holdings_nil, List.append_nil]
  rfl

theorem WrittenAs.mono {prefixes prefixes' : PrefixTable} (h : WrittenAs g id prefixes path)
    (hp : prefixes.Extends prefixes') : WrittenAs g id prefixes' path := by
  obtain ⟨x, hx, hpath⟩ := h
  exact ⟨x, hp.textOf hx, hpath⟩

theorem plain_sprouts (hg : g.Sound) {resolved : TypeId} (hchild : Sprouting g Good child)
    (hcomplex : (g.schema.complex? resolved).isSome)
    (hgood : ∀ id occurs, Member.child id occurs ∈ g.members resolved → Good id) (e : Element)
    (occurs : Occurs) (hd : d.controls = .nil) (hs : s.prefixes.Apart) :
    (plain g child e id t resolved path occurs).Ends d s fun _ d' s' =>
      Sprouts g True path d s d' s' := by
  have hrole : Role.Sound g ⟨resolved, id, false⟩ False := ⟨hg, nofun, False.elim⟩
  have hkid (e : Element) {s₀ : Synthesis} (hs₀ : s.Abides s₀) :
      (withKid {} path (complex g child ⟨resolved, id, false⟩ e occurs)).Ends d s₀ fun _ d' s' =>
        Sprouts g True path d s d' s' := by
    have hcalm := hs₀.trans (Calm.allocate "bind" s₀)
    rw [ends_withKid]
    refine Ends.mono (complex_midway hrole hchild hgood hcomplex e occurs
      (.start (hcalm.prefixes.apart hs) rfl hd) hd)
        fun _ d' s' ⟨hs', hmid, c, inner, hcontrols, _, hbound⟩ => ?_
    refine ⟨hcalm.trans hs', rfl, _, rfl, fun kid hkid => ?_, fun _ => ⟨Nat.le_refl 1,
      fun kid hkid => List.mem_singleton.1 hkid ▸ rfl⟩, ?_⟩
    · rw [List.mem_singleton.1 hkid]
      refine ⟨rfl, rfl, rfl, ?_⟩
      change d'.controls.Binds _
      rw [hcontrols]
      exact Forest.binds_root (by simp [NodeKind.isBoundTo, NodeKind.control?, hbound]) _
    · rw [holdings_around]
      exact hmid.exposing.mono .refl (List.subset_cons_self ..)
  unfold plain
  split
  · exact hkid e (.refl s)
  · rw [ends_bind, ends_lift]
    exact hkid _ (Calm.typeValue resolved s)

/-- The choices of a switch make the values known that name the types. -/
theorem typeChoices_valued (g : Generator) (ts : List TypeId) (s : Synthesis) :
    ∀ u ∈ ts, ∃ value, g.typeText (g.typeChoices ts s).2.prefixes u = some value := by
  intro u hu
  obtain ⟨-, hvalues, -⟩ := typeChoices_spec g ts s
  have hmem : g.typeText (g.typeChoices ts s).2.prefixes u ∈
      (g.typeChoices ts s).1.map fun c => some c.1.value := by
    rw [hvalues]
    exact List.mem_map_of_mem hu
  obtain ⟨c, -, hc⟩ := List.mem_map.1 hmem
  exact ⟨c.1.value, hc.symm⟩

theorem Between.start (ht : s.prefixes.Apart)
    (hvalued : ∀ u ∈ g.candidates t, ∃ value, g.typeText s.prefixes u = some value)
    {owner : String} (hown : d.own = some owner) (hkids : d.kids = [])
    (hcontrols : d.controls = .nil) : Between g t owner [] d s where
  apart := ht
  valued := hvalued
  own := hown
  unshared kid hkid := by
    rw [hkids] at hkid
    cases hkid
  known kid hkid := by
    rw [hkids] at hkid
    cases hkid
  distinct := by
    rw [hkids]
    exact .nil
  drawn kid hkid := by
    rw [hkids] at hkid
    cases hkid
  shown := by
    rw [hcontrols]
    exact .nil
  exposing := by
    rw [hcontrols]
    exact .nil

/-- When all cases are made, the switch has everything in it that it has to show. -/
theorem Between.exposesAll {owner : String} (h : Between g t owner (g.candidates t) d s)
    (htype : (g.schema.element id).type = some t) (hlength : 2 ≤ (g.candidates t).length)
    (hpath : WrittenAs g id s.prefixes path) :
    ExposesAll g s.prefixes ((owner, path, Kid.forest d.kids) :: Kid.holdings d.kids) d.controls ∧
      d.controls.Binds owner := by
  refine ⟨⟨id, t, owner, path, Kid.forest d.kids, htype, hlength, List.mem_cons_self .., hpath, ?_⟩,
    ?_⟩
  · rw [Kid.roots_forest]
    exact h.shown
  · obtain ⟨u, us, hcandidates⟩ : ∃ u us, g.candidates t = u :: us := by
      rcases hlist : g.candidates t with _ | ⟨u, us⟩
      · rw [hlist] at hlength
        simp at hlength
      · exact ⟨u, us, rfl⟩
    have hshown := h.shown
    rw [hcandidates] at hshown
    cases htrees : d.controls.trees with
    | nil =>
      rw [htrees] at hshown
      cases hshown
    | cons p ps =>
      rw [htrees] at hshown
      obtain ⟨hfirst, -⟩ := List.forall₂_cons.1 hshown
      obtain ⟨group, inner, hbelow, hbound⟩ := hfirst.boxed
      obtain ⟨k, below⟩ := p
      obtain rfl : below = tree group inner := hbelow
      have hbinds : (tree group inner).Binds owner := Forest.binds_root hbound inner
      exact Forest.binds_of_trees (htrees ▸ List.mem_cons_self ..) hbinds

theorem switch_sprouts (ht : g.Choosing t) (htype : (g.schema.element id).type = some t)
    (hlength : 2 ≤ (g.candidates t).length) (hchild : Sprouting g Good child)
    (hgood : ∀ u ∈ g.candidates t, ∀ id occurs, Member.child id occurs ∈ g.members u → Good id)
    (e : Element) (occurs : Occurs) (hd : d.controls = .nil) (hs : s.prefixes.Apart)
    (hpath : WrittenAs g id s.prefixes path) :
    (switch g child e id t (g.candidates t) path occurs).Ends d s fun _ d' s' =>
      Sprouts g False path d s d' s' := by
  unfold switch
  dsimp only
  rw [ends_bind, ends_lift, ends_bind, ends_withKid]
  have hbefore := ((Calm.allocate "select1" s).trans (Calm.allocate "bind" _)).trans
    (Calm.allocate "bind" _)
  dsimp only
  rw [ownId, ends_bind, ends_get, ends_pure, ends_withKid, ends_bind, ends_get]
  refine items_ends_around (g := g) hd fun s₁ hs₁ => ?_
  simp only [ends_bind, ends_lift, ends_leaves, ends_within]
  have hprompt := Calm.promptChoice (g := g)
    (caption ((g.schema.element id).name.localName ++ " Type")) (g.candidates t).length s₁
  generalize g.promptChoice _ _ s₁ = prompt at hprompt ⊢
  have hchoices := Calm.typeChoices (g := g) (g.candidates t) prompt.2
  have hchosen := typeChoices_valued g (g.candidates t) prompt.2
  have hcount := length_typeChoices g (g.candidates t) prompt.2
  generalize g.typeChoices (g.candidates t) prompt.2 = choices at hchoices hchosen hcount ⊢
  have hids := (((Calm.allocate "trigger" choices.2).trans (Calm.allocate "action" _)).trans
    (Calm.allocate "dispatch" _)).trans (Calm.allocate "switch" _)
  generalize (allocate "switch" _).2 = s₂ at hids ⊢
  have hfirst := Calm.typeValue (g := g) ((g.candidates t).headD t) s₂
  generalize g.typeValue ((g.candidates t).headD t) s₂ = first at hfirst ⊢
  have hs₀ := (((hbefore.trans hs₁).trans (hprompt.trans hchoices)).trans hids).trans hfirst
  have hvalued : ∀ u ∈ g.candidates t, ∃ value, g.typeText first.2.prefixes u = some value :=
    fun u hu => (hchosen u hu).imp fun value h => (hids.trans hfirst).prefixes.typeText h
  have hcases : [] ++ ((g.candidates t).zip (choices.1.map (·.2))).map (·.1) = g.candidates t :=
    List.map_fst_zip (by simp [hcount])
  refine Ends.mono (Between.typeCases ht hchild hgood id hcases
    (.start (hs₀.prefixes.apart hs) hvalued rfl rfl rfl) true _)
    fun _ d' s' hswitched controls hbinds hexposing => ?_
  obtain ⟨hs', hbetween⟩ := hswitched
  obtain ⟨hall, howner⟩ := hbetween.exposesAll htype hlength (hpath.mono (hs₀.trans hs').prefixes)
  refine ⟨hs₀.trans hs', rfl, _, List.append_assoc .., fun kid hkid => ?_, False.elim, hexposing _ ?_⟩
  · rcases List.mem_append.1 hkid with hkid | hkid
    · rw [List.mem_singleton.1 hkid]
      refine ⟨relevant_typeBind .., rfl, rfl, hbinds _ ?_⟩
      exact (((Forest.binds_root (by simp [NodeKind.isBoundTo, NodeKind.control?]) _).append_right
        _).append_left _).append_left _
    · rw [List.mem_singleton.1 hkid]
      exact ⟨rfl, rfl, rfl, hbinds _ ((howner.tree _).append_right _ |>.append_right _)⟩
  · have hleaf {c : Control} (hkind : c.kind ≠ .switch) (holdings : List Holding) :
        Exposing g s'.prefixes holdings (.leaves ([c].map .control)) :=
      Exposing.leaves fun c' hc' => List.mem_singleton.1 hc' ▸ hkind
    rw [Kid.holdings_append]
    refine Exposing.mono ?_ .refl (List.subset_append_right ..)
    rw [holdings_around, hd]
    refine ((Exposing.append .nil (hleaf ?_ _)).append (hleaf ?_ _)).append (Exposing.append .nil
      ((hbetween.exposing.mono .refl (List.subset_cons_self ..)).tree fun _ => hall))
    · exact fun h => by cases h
    · exact fun h => by cases h

end Sketch

/-- Wherever an element below, or this one, may have several types, these can be told apart. -/
def Generator.ClearBelow (g : Generator) (id : ElementId) : Prop :=
  ∀ e, g.Leads id e → ∀ t, (g.schema.element e).type = some t → (g.schema.complex? t).isSome →
    2 ≤ (g.candidates t).length → g.Clear t ∧ g.OneNameless t

namespace Sketch

variable {g : Generator} {id : ElementId} {t : TypeId} {path : String} {d d' : Draft}
  {s s' : Synthesis}

namespace Sprouts

variable {Q Q' : Prop}

theorem weaken (h : Sprouts g Q path d s d' s') (hQ : Q' → Q) : Sprouts g Q' path d s d' s' := by
  obtain ⟨new, hkids, hnew, hone, hexposing⟩ := h.kids
  exact ⟨h.abides, h.own, new, hkids, hnew, fun hq => hone (hQ hq), hexposing⟩

/-- Nothing is drawn. -/
theorem nothing (hd : d.controls = .nil) (hs : s.Abides s') : Sprouts g Q path d s d s' := by
  refine ⟨hs, rfl, [], (List.append_nil _).symm, fun _ h => absurd h List.not_mem_nil,
    fun _ => ⟨Nat.zero_le 1, fun _ h => absurd h List.not_mem_nil⟩, ?_⟩
  rw [hd]
  exact .nil

theorem leave {x : ElementId × TypeId}
    (h : Sprouts g Q path d { s with expanding := x :: s.expanding } d' s') :
    Sprouts g Q path d s d' { s' with expanding := s'.expanding.tail } :=
  ⟨abides_leave h.abides, h.own, h.kids⟩

end Sprouts

/-- An element shows all that is relevant of it. -/
theorem element_sprouts (hg : g.Sound) (openings : Nat) :
    Sprouting g g.ClearBelow (element g openings) := by
  induction openings with
  | zero => exact fun e id path occurs d s hd _ _ _ => .nothing hd (.refl s)
  | succ openings ih =>
    intro e id path occurs d s hd hs hgood hpath
    unfold element expand
    dsimp only
    cases htype : (g.schema.element id).type with
    | none =>
      dsimp only
      rw [ends_bind, ends_lift, ends_pure]
      exact .nothing hd (Calm.report _ s)
    | some t =>
      dsimp only
      cases ht : g.schema.complex? t with
      | none =>
        rw [if_pos Option.isNone_none, ends_bind]
        refine (sprouts_field t _ path occurs hd s).mono fun _ d' s' h => ?_
        rw [ends_pure]
        exact h.weaken fun _ => trivial
      | some c =>
        have hsome : (g.schema.complex? t).isSome := by rw [ht]; rfl
        have hheld {u : TypeId} (hu : u ∈ g.fillings t) :
            ∀ c o, Member.child c o ∈ g.members u → g.ClearBelow c := fun c o hc e hlead =>
          have hholds : g.Holds id c := ⟨t, htype, hsome, u, hu, o, hc⟩
          hgood e (hholds.leads hlead)
        rw [if_neg (by simp), ends_bind, ends_lift]
        by_cases hmem : (id, t) ∈ s.expanding
        · have henter : enter id t s = (false, s) := by simp [enter, hmem]
          rw [henter, if_neg (by simp), ends_bind, ends_lift, ends_pure]
          exact .nothing hd (Calm.report _ s)
        · have henter : enter id t s = (true, { s with expanding := (id, t) :: s.expanding }) := by
            simp [enter, hmem]
          rw [henter, if_pos rfl]
          split
          · next hnone =>
            have hfillings : g.fillings t = [t] := by simp [Generator.fillings, hnone]
            rw [ends_bind]
            refine Ends.mono (plain_sprouts hg ih hsome (hheld (by simp [hfillings])) _ occurs hd hs)
              fun _ d' s' h => ?_
            exact (h.weaken fun _ => trivial).leave
          · next resolved hone =>
            have hfillings : g.fillings t = [resolved] := by simp [Generator.fillings, hone]
            have hresolved := Generator.complex_of_mem_candidates hg.substitutes
              (hone ▸ List.mem_singleton_self resolved) hsome
            rw [ends_bind]
            refine Ends.mono (plain_sprouts hg ih hresolved (hheld (by simp [hfillings])) _ occurs hd
              hs) fun _ d' s' h => ?_
            exact (h.weaken fun _ => trivial).leave
          · next hnone hone =>
            have hlength : 2 ≤ (g.candidates t).length := by
              rcases hlist : g.candidates t with _ | ⟨resolved, _ | ⟨t', ts⟩⟩
              · exact absurd hlist hnone
              · exact absurd hlist (hone resolved)
              · simp
            have hfillings : g.fillings t = g.candidates t := by
              unfold Generator.fillings
              split
              · next h => simp [h] at hlength
              · rfl
            obtain ⟨hclear, hnameless⟩ := hgood id .refl t htype hsome hlength
            rw [ends_bind]
            refine Ends.mono (switch_sprouts ⟨hg, hsome, hclear, hnameless⟩ htype hlength ih
              (fun u hu => hheld (hfillings ▸ hu)) _ occurs hd hs hpath) fun _ d' s' h => ?_
            refine (h.weaken fun hplain => ?_).leave
            exact absurd (hplain t htype hsome) (by omega)

end Sketch

end SchemaForms
