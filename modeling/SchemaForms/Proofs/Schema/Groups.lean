import SchemaForms.Proofs.Schema.Asking
import SchemaForms.Proofs.Schema.Loaded

/-!
References to groups.  A reference in the content of a type stands for the content of the group
under its own bounds, except inside the expansion of that group, and except where the group is open
around the building of the type.  The latter has nothing circular about it.
-/

namespace SchemaForms.Loader

open SchemaForms.Xml
open SchemaForms.Source (parts part? groupNames)

/-! Following a whole run. -/

theorem openGroups_register {c c' : Context} {s s' : Schema} {e : Element}
    (h : register c s e = .ok (c', s')) : c'.openGroups = c.openGroups := by
  unfold register at h
  cases hname : globalName c e with
  | error fault =>
    simp only [hname] at h
    repeat' split at h
    all_goals cases h
    rfl
  | ok name =>
    simp only [hname] at h
    repeat' split at h
    all_goals cases h
    all_goals rfl

theorem openGroups_registerAll {es : List Element} {c c' : Context} {s s' : Schema}
    (h : registerAll c s es = .ok (c', s')) : c'.openGroups = c.openGroups := by
  induction es generalizing c s with
  | nil =>
    cases h
    rfl
  | cons e es ih =>
    unfold registerAll at h
    cases hone : register c s e with
    | error fault =>
      rw [hone] at h
      cases h
    | ok next =>
      rw [hone] at h
      exact (ih h).trans (openGroups_register hone)

theorem openGroups_declarations {root : Element} {c : Context} {s : Schema}
    (h : declarations root = .ok (c, s)) : c.openGroups = [] :=
  openGroups_registerAll h

theorem stays_idle (c : Context) (opens : List QName) : Stays c (Idle opens) :=
  fun _ _ _ hstep h => ⟨hstep.later.innermost.trans h.1, h.2⟩

section Building

variable {c ctx : Context} {b : Builders} (hb : FollowingBuilders c b) (hc : c.Same ctx)
include hb hc

theorem follows_ensureAll (types : List (TypeId × Element)) :
    Follows c (Idle ctx.openGroups) (ensureAll b ctx types) fun _ _ => True := by
  induction types with
  | nil => exact .pure fun _ _ => trivial
  | cons t types ih =>
    exact .next (stays_idle c _) ((hb.ensure ctx t.1 hc).weaken (fun _ h => .inr h)
      fun _ _ h => h) fun _ => ih

theorem follows_buildElements {elements : List (ElementId × Element)}
    (hsub : elements ⊆ c.elements) :
    Follows c (Idle ctx.openGroups) (buildElements b ctx elements) fun _ _ => True := by
  induction elements with
  | nil => exact .pure fun _ _ => trivial
  | cons x elements ih =>
    obtain ⟨hx, hsub⟩ := List.cons_subset.1 hsub
    intro p _ r hp hidle h
    unfold buildElements at h
    rw [get_bind] at h
    obtain ⟨d, q, hd, h⟩ := bind_ok h
    obtain ⟨_, q', hput, hrest⟩ := bind_ok h
    obtain ⟨hq, hname, henclosing, hholds⟩ := follows_elementDecl hb hc x.2 _ none hp
      ⟨.inr hidle, fun _ hid => by cases hid⟩ hd
    have hid := (hp.regular.elements x hx).1
    have hput' : q' = { q with schema := q.schema.setElement x.1 d } := by
      cases hput
      rfl
    have hq' : Accounts c q q' := by
      subst hput'
      exact .of_notes hq.consistent (.setElement hq.order hq.regular hx henclosing hholds)
        (.setElement (hq.grows.hasElement hid) (hname.trans (hq.keeps.name x.1 hid).symm)) rfl
    have hlast := hq.trans hq'
    obtain ⟨hr, -⟩ := ih hsub hlast.consistent (stays_idle c _ hp.order hlast.toStep hidle) hrest
    exact ⟨hlast.trans hr, trivial⟩

theorem follows_buildAll (hall : ctx.elements = c.elements) :
    Follows c (Idle ctx.openGroups) (buildAll b ctx) fun _ _ => True :=
  (follows_ensureAll hb hc _).next (stays_idle c _) fun _ =>
    follows_buildElements hb hc (hall ▸ List.Subset.refl _)

end Building

/-- All types that a run builds are accounted for. -/
theorem accounted_run {root : Element} {c : Context} {s : Schema} {p : Progress}
    (hd : declarations root = .ok (c, s)) (hrun : run root = .ok p) : Accounted c p := by
  have hstart : Consistent c { schema := s } :=
    ⟨(takenUp_declarations hd).inOrder, (registered_declarations hd).start,
      fun _ hid => by cases hid⟩
  have hidle : Idle c.openGroups { schema := s } := ⟨rfl, openGroups_declarations hd⟩
  exact (follows_buildAll (following_builders c _) ⟨_, _, rfl⟩ rfl hstart hidle
    (run_ok hd hrun)).1.accounted

/-- The content of a type is what its declaration says, read with the groups open that are open
around the building of the type: none, unless the type is first asked for while another one is being
built.  In it a reference to a group that has content is left out exactly if it stands inside the
expansion of that group or the group is open around the type (`Reads.reference`). -/
theorem content_of_declaration {root e : Element} {c : Context} {s : Schema} {p : Progress}
    {id : TypeId} {t : ComplexType} (hd : declarations root = .ok (c, s))
    (hrun : run root = .ok p) (he : Declares c p id e) (ht : p.schema.complex? id = some t) :
    ∃ opens own, OpenAround c p id opens ∧
      Reads c p.schema id opens (model? e).toList own.toList ∧ HoldsOwn p t own := by
  obtain ⟨e', opens, he', hopen, hread⟩ := accounted_run hd hrun id (built_of_declares hd hrun he)
  obtain rfl := (regular_run hd hrun).declares_unique he he'
  obtain ⟨own, hreads, hown⟩ := hread t ht
  exact ⟨opens, own, hopen, hreads, hown⟩

/-- A reference to a group `G`. -/
def groupRef : Element := xsd "group" [("ref", "G"), ("minOccurs", "0")] []

/-- A group `G` with an element of the type `T`. -/
def groupOfT : Element :=
  xsd "group" [("name", "G")] [
    xsd "sequence" [] [xsd "element" [("name", "x"), ("type", "T")] []]]

/-- A type with a reference to the group at the top of its content, and one with a reference in a
sequence. -/
def typeS : Element := xsd "complexType" [("name", "S")] [groupRef]

def typeT : Element := xsd "complexType" [("name", "T")] [xsd "sequence" [] [groupRef]]

set_option maxRecDepth 100000 in
/-- `T` is asked for inside the group, while `S` is being built, and loses its own reference. -/
theorem content_of_declaration_within : ∃ c s p t,
    declarations (xsd "schema" [] [groupOfT, typeS, typeT]) = .ok (c, s) ∧
    run (xsd "schema" [] [groupOfT, typeS, typeT]) = .ok p ∧ Declares c p ⟨47⟩ typeT ∧
    p.schema.complex? ⟨47⟩ = some t ∧ elementsOf t.particle = [] ∧
    p.notes = [(⟨46⟩, .built), (⟨47⟩, .built), (⟨47⟩, .building), (⟨46⟩, .building)] ∧
    ∃ opens own, (OpenAround c p ⟨47⟩ opens ∧
      Reads c p.schema ⟨47⟩ opens (model? typeT).toList own.toList ∧ HoldsOwn p t own) ∧
      QName.unqualified "G" ∈ opens := by
  have hdecl : ((declarations (xsd "schema" [] [groupOfT, typeS, typeT])).toOption.bind fun x =>
      (Table.find ⟨47⟩ x.1.types).bind fun e => (expansion? x.1 groupRef).map fun g => (e, g)) =
      some (typeT, QName.unqualified "G",
        xsd "sequence" [] [xsd "element" [("name", "x"), ("type", "T")] []]) := rfl
  have hloaded : ((run (xsd "schema" [] [groupOfT, typeS, typeT])).toOption.bind fun p =>
      (p.schema.complex? ⟨47⟩).map fun t => (t.derivation, elementsOf t.particle, p.notes)) =
      some (.none, [],
        [(⟨46⟩, .built), (⟨47⟩, .built), (⟨47⟩, .building), (⟨46⟩, .building)]) := by
    decide +kernel
  obtain ⟨⟨c, s⟩, hd, hfound⟩ := exists_ok hdecl
  obtain ⟨p, hrun, htype⟩ := exists_ok hloaded
  simp only [Option.bind_eq_some_iff, Option.map_eq_some_iff, Prod.mk.injEq] at hfound htype
  obtain ⟨e, he, g, hgroup, rfl, rfl⟩ := hfound
  obtain ⟨t, ht, hplain, helements, hnotes⟩ := htype
  have hdeclares : Declares c p ⟨47⟩ typeT := .inl he
  obtain ⟨opens, own, hopen, hreads, hown⟩ := content_of_declaration hd hrun hdeclares ht
  refine ⟨c, s, p, t, hd, hrun, hdeclares, ht, helements, hnotes, opens, own,
    ⟨hopen, hreads, hown⟩, ?_⟩
  obtain rfl : t.particle = own := by simpa [HoldsOwn, hplain] using hown
  obtain ⟨bounds, ps, hparticle, hmembers⟩ := hreads.of_compositor
    (show Compositor.ofName? "sequence" = some .sequence from rfl)
  have hnone : Particle.elementIdsOf ps = [] := by
    rw [Option.toList_eq_singleton_iff.1 hparticle] at helements
    exact helements
  rcases Reads.reference (e := groupRef) hmembers rfl hgroup with
    ⟨hin, -⟩ | ⟨-, _, _, qs, -, -, hinside, rfl⟩
  · exact hin
  · obtain ⟨_, id, rfl, -⟩ := Reads.declared hinside rfl rfl
    cases hnone

set_option maxRecDepth 100000 in
/-- The group is opened by `S` and still open when the type of its element is built, so `T` has no
element; declared in the other order, each of the types has one. -/
theorem group_open_across_types :
    (∃ p s t, run (xsd "schema" [] [groupOfT, typeS, typeT]) = .ok p ∧
      p.schema.complex? ⟨46⟩ = some s ∧ p.schema.complex? ⟨47⟩ = some t ∧
      (elementsOf s.particle).length = 1 ∧ elementsOf t.particle = []) ∧
    ∃ p s t, run (xsd "schema" [] [groupOfT, typeT, typeS]) = .ok p ∧
      p.schema.complex? ⟨46⟩ = some t ∧ p.schema.complex? ⟨47⟩ = some s ∧
      (elementsOf s.particle).length = 1 ∧ (elementsOf t.particle).length = 1 := by
  have hfirst : ((run (xsd "schema" [] [groupOfT, typeS, typeT])).toOption.bind fun p =>
      (p.schema.complex? ⟨46⟩).bind fun s => (p.schema.complex? ⟨47⟩).map fun t =>
        ((elementsOf s.particle).length, elementsOf t.particle)) = some (1, []) := by
    decide +kernel
  have hlast : ((run (xsd "schema" [] [groupOfT, typeT, typeS])).toOption.bind fun p =>
      (p.schema.complex? ⟨46⟩).bind fun t => (p.schema.complex? ⟨47⟩).map fun s =>
        ((elementsOf s.particle).length, (elementsOf t.particle).length)) = some (1, 1) := by
    decide +kernel
  obtain ⟨p, hp, hparticles⟩ := exists_ok hfirst
  obtain ⟨p', hp', hparticles'⟩ := exists_ok hlast
  simp only [Option.bind_eq_some_iff, Option.map_eq_some_iff, Prod.mk.injEq]
    at hparticles hparticles'
  obtain ⟨s, hs, t, ht, hone, hnone⟩ := hparticles
  obtain ⟨t', ht', s', hs', hone', htwo'⟩ := hparticles'
  exact ⟨⟨p, s, t, hp, hs, ht, hone, hnone⟩, ⟨p', s', t', hp', ht', hs', hone', htwo'⟩⟩

end SchemaForms.Loader
