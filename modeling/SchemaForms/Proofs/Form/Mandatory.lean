import SchemaForms.Proofs.Form.Calling
import SchemaForms.Proofs.Form.Presentation
import SchemaForms.Proofs.Form.Pruned
import SchemaForms.Proofs.Schema.Addresses
import SchemaForms.Proofs.Schema.Admitting

/-!
Values that have to be given.  A child is added for an element particle in the content of its
parent.  Main statement: the bind that it is given demands a value exactly if its type is not
complex and the bounds of this particle say "at least once and at most once"; the groups around the
particle are not asked, while they decide whether every word that the content admits has the
element.
-/

namespace SchemaForms

open Grove (bindTops)
open Synthesis
open Xml (Element)

namespace Particle

theorem at?_append (p : Particle) (a b : List Nat) :
    p.at? (a ++ b) = (p.at? a).bind fun q => q.at? b := by
  induction a generalizing p with
  | nil => cases p <;> rfl
  | cons i a ih =>
    cases p with
    | group o c ps =>
      rw [List.cons_append, at?, at?, Option.bind_assoc]
      exact Option.bind_congr fun q _ => ih q
    | _ => rfl

end Particle

/-- A content model of a type holds an element, which is not prohibited there. -/
structure Schema.Stands (s : Schema) (type : TypeId) (p : Particle) (id : ElementId)
    (occurs : Occurs) : Prop where
  content : ∃ t, s.complex? type = some t ∧ t.particle = some p
  place : ∃ a, p.at? a = some (.element occurs id)
  permitted : occurs.isEmpty = false

namespace Generator

variable {g : Generator} {child child' : ChildAdder}

/-! Children are added for what stands in a content model. -/

/-- Two ways to add children are the same for those of a type. -/
def SameInside (g : Generator) (type : TypeId) (child child' : ChildAdder) : Prop :=
  ∀ p id occurs, g.schema.Stands type p id occurs → ∀ spot e path,
    child' spot e id path occurs = child spot e id path occurs

section Content

variable {f : Filling} {root : Particle}

mutual

theorem addParticle_congr (hagree : SameInside g f.type child child')
    (hroot : ∃ t, g.schema.complex? f.type = some t ∧ t.particle = some root) (area : NodeId)
    (e : Element) (p : Particle) (hp : ∃ a, root.at? a = some p) :
    addParticle g child' f area e p = addParticle g child f area e p := by
  cases p with
  | element occurs id =>
    rw [addParticle, addParticle, addChildElement, addChildElement]
    cases hempty : occurs.isEmpty with
    | true => rfl
    | false => simp only [hagree root id occurs ⟨hroot, hp, hempty⟩]
  | group occurs compositor members =>
    obtain ⟨a, ha⟩ := hp
    rw [addParticle, addParticle]
    refine bind_congr fun area => addParticles_congr hagree hroot area e members fun m hm => ?_
    obtain ⟨i, hi⟩ := List.mem_iff_getElem?.1 hm
    refine ⟨a ++ [i], ?_⟩
    rw [Particle.at?_append, ha, Option.bind_some, Particle.at?, hi, Option.bind_some]
    cases m <;> rfl
  | wildcard => rfl

theorem addParticles_congr (hagree : SameInside g f.type child child')
    (hroot : ∃ t, g.schema.complex? f.type = some t ∧ t.particle = some root) (area : NodeId)
    (e : Element) (ps : List Particle) (hps : ∀ p ∈ ps, ∃ a, root.at? a = some p) :
    addParticles g child' f area e ps = addParticles g child f area e ps := by
  cases ps with
  | nil => rfl
  | cons p ps =>
    rw [addParticles, addParticles,
      addParticle_congr hagree hroot area e p (hps p List.mem_cons_self)]
    exact bind_congr fun e => addParticles_congr hagree hroot area e ps fun q hq =>
      hps q (List.mem_cons_of_mem p hq)

end

end Content

theorem addComplex_congr {f : Filling} (hagree : SameInside g f.type child child') (area : NodeId)
    (e : Element) (occurs : Occurs) :
    g.addComplex child' f area e occurs = g.addComplex child f area e occurs := by
  unfold addComplex
  cases ht : g.schema.complex? f.type with
  | none => rfl
  | some t =>
    have hmodel (area : NodeId) (e : Element) :
        g.addContentModel child' f area e t = g.addContentModel child f area e t := by
      unfold addContentModel
      cases hroot : t.particle with
      | none => rfl
      | some p =>
        cases p with
        | group occurs compositor members =>
          exact addParticle_congr hagree ⟨t, ht, hroot⟩ area e _ ⟨[], rfl⟩
        | _ => rfl
    simp only [hmodel]

theorem addCases_congr (switch bind : NodeId) (owner : ElementId) (declared : TypeId)
    (isFirst : Bool) (e : Element) {cases : List (TypeId × String)}
    (hagree : ∀ c ∈ cases, SameInside g c.1 child child') :
    g.addCases child' switch bind owner declared isFirst e cases =
      g.addCases child switch bind owner declared isFirst e cases := by
  induction cases generalizing isFirst e with
  | nil => rfl
  | cons c cases ih =>
    have hcase : g.addCase child' switch bind owner declared isFirst e c.1 c.2 =
        g.addCase child switch bind owner declared isFirst e c.1 c.2 := by
      have hcomplex := addComplex_congr
        (f := ⟨bind, c.1, owner, decide (c.1 ≠ declared)⟩) (hagree c List.mem_cons_self)
      simp only [addCase, hcomplex]
    rw [addCases, addCases, hcase]
    exact bind_congr fun e => ih false e fun other hother =>
      hagree other (List.mem_cons_of_mem c hother)

theorem addSwitch_congr (spot : Spot) (e : Element) (owner : ElementId) (declared : TypeId)
    {types : List TypeId} (hagree : ∀ t ∈ types, SameInside g t child child') (path : String)
    (occurs : Occurs) :
    g.addSwitch child' spot e owner declared types path occurs =
      g.addSwitch child spot e owner declared types path occurs := by
  have hcases (switch bind : NodeId) (e : Element) (ids : List String) :
      g.addCases child' switch bind owner declared true e (types.zip ids) =
        g.addCases child switch bind owner declared true e (types.zip ids) :=
    addCases_congr switch bind owner declared true e fun c hc => hagree c.1 (List.of_mem_zip hc).1
  simp only [addSwitch, hcases]

theorem addPlain_congr (spot : Spot) (e : Element) (owner : ElementId) (declared : TypeId)
    {resolved : TypeId} (hagree : SameInside g resolved child child') (path : String)
    (occurs : Occurs) :
    g.addPlain child' spot e owner declared resolved path occurs =
      g.addPlain child spot e owner declared resolved path occurs := by
  have hcomplex (bind : NodeId) :=
    addComplex_congr (f := ⟨bind, resolved, owner, false⟩) hagree
  simp only [addPlain, hcomplex]

theorem addTyped_congr (id : ElementId) {declared : TypeId}
    (hself : SameInside g declared child child')
    (hagree : ∀ t ∈ g.candidates declared, SameInside g t child child') (spot : Spot) (e : Element)
    (path : String) (occurs : Occurs) :
    g.addTyped child' spot e id declared path occurs =
      g.addTyped child spot e id declared path occurs := by
  unfold addTyped
  split
  · exact addPlain_congr spot e id declared hself path occurs
  · next resolved hone =>
    exact addPlain_congr spot e id declared (hagree resolved (hone ▸ List.mem_cons_self)) path
      occurs
  · exact addSwitch_congr spot e id declared hagree path occurs

/-- A type that an element may turn out to have. -/
def MayBe (g : Generator) (id : ElementId) (type : TypeId) : Prop :=
  ∃ declared, (g.schema.element id).type = some declared ∧
    (type = declared ∨ type ∈ g.candidates declared)

/-- What is added for an element depends on its children alone. -/
theorem expand_congr {id : ElementId}
    (hagree : ∀ type, g.MayBe id type → SameInside g type child child') (spot : Spot)
    (e : Element) (path : String) (occurs : Occurs) :
    g.expand child' spot e id path occurs = g.expand child spot e id path occurs := by
  cases hdeclared : (g.schema.element id).type with
  | none =>
    unfold expand
    simp only [hdeclared]
  | some t =>
    cases hcomplex : (g.schema.complex? t).isNone with
    | true =>
      unfold expand
      simp only [hdeclared, hcomplex, if_true]
    | false =>
      have htyped := addTyped_congr id (hagree t ⟨t, hdeclared, .inl rfl⟩)
        (fun type htype => hagree type ⟨t, hdeclared, .inr htype⟩) spot e path occurs
      rw [expand_typed g spot e path occurs hdeclared hcomplex,
        expand_typed g spot e path occurs hdeclared hcomplex, htyped]

/-- A child is added for an element in the content of a type that its parent may have. -/
theorem Calls.stands {n : Nat} {c c' : Call}
    (h : Calls (fun child => g.expand child c.spot c.data c.element c.path c.occurs)
      (g.addElement n) c.state c') :
    ∃ type p, g.MayBe c.element type ∧ g.schema.Stands type p c'.element c'.occurs := by
  refine h.mem (P := fun c' => ∃ type p, g.MayBe c.element type ∧
    g.schema.Stands type p c'.element c'.occurs) fun child' hsame => ?_
  have hagree (type : TypeId) (htype : g.MayBe c.element type) :
      SameInside g type (g.addElement n) child' := by
    intro p id occurs hstands spot e path
    funext s
    exact hsame ⟨s, spot, e, id, path, occurs⟩ ⟨type, p, htype, hstands⟩
  rw [expand_congr hagree]

end Generator

/-! The binds that a child is given. -/

/-- An element demands a value of its own: its type is not complex, and the bounds say "at least
once and at most once". -/
structure Generator.DemandsValue (g : Generator) (id : ElementId) (occurs : Occurs) : Prop where
  simple : ∃ t, (g.schema.element id).type = some t ∧ g.schema.complex? t = none
  least : 0 < occurs.min
  most : occurs.max = some 1

namespace Sketch

variable {α β : Type} {P : Bind → Prop}

/-- A sketch leaves the binds of the element as they are and puts more behind them. -/
def Appends (P : Bind → Prop) (p : Sketch α) : Prop := ∀ d s, ∃ made : List Kid,
  (p d s).1.2.kids = d.kids ++ made ∧ ∀ kid ∈ made, P kid.bind

namespace Appends

theorem lift (f : Synth α) : Appends P (StateT.lift f) := fun d _ => ⟨[], by simp; rfl, by simp⟩

theorem pure (a : α) : Appends P (pure a) := fun d _ => ⟨[], by simp; rfl, by simp⟩

theorem bind {p : Sketch α} {q : α → Sketch β} (hp : Appends P p) (hq : ∀ a, Appends P (q a)) :
    Appends P (p >>= q) := by
  intro d s
  obtain ⟨made, hkids, hmade⟩ := hp d s
  obtain ⟨made', hkids', hmade'⟩ := hq (p d s).1.1 (p d s).1.2 (p d s).2
  refine ⟨made ++ made', ?_, fun kid hkid => ?_⟩
  · rw [← List.append_assoc, ← hkids]
    exact hkids'
  · exact (List.mem_append.1 hkid).elim (hmade kid) (hmade' kid)

/-- Whatever is made inside it, a bind stays the last one. -/
theorem withKid {b : Bind} {nodeset : String} {p : Sketch α}
    (hb : ∀ id, P { b with id := id, nodeset := nodeset }) :
    Appends P (Sketch.withKid b nodeset p) :=
  fun _ _ => ⟨[_], rfl, fun _ hkid => List.mem_singleton.1 hkid ▸ hb _⟩

end Appends

/-- Elements are given binds that demand a value exactly if the elements do. -/
theorem appends_element (g : Generator) (openings : Nat) (e : Element) (id : ElementId)
    (path : String) (occurs : Occurs) :
    Appends (fun b => b.required = true ↔ g.DemandsValue id occurs)
      (element g openings e id path occurs) := by
  cases openings with
  | zero => exact .pure none
  | succ openings =>
    rw [element, expand]
    cases htype : (g.schema.element id).type with
    | none => exact (Appends.lift _).bind fun _ => .pure none
    | some t =>
      dsimp only
      split
      · next hsimple =>
        have hnone : g.schema.complex? t = none := Option.isNone_iff_eq_none.1 hsimple
        refine Appends.bind (.withKid fun bindId => ?_) fun _ => .pure _
        simp only [Bool.and_eq_true, decide_eq_true_eq, Occurs.isSingle, beq_iff_eq]
        exact ⟨fun h => ⟨⟨t, htype, hnone⟩, h.1, h.2⟩, fun h => ⟨h.least, h.most⟩⟩
      · next hcomplex =>
        have hnever : ¬ g.DemandsValue id occurs := by
          rintro ⟨⟨t', htype', hnone⟩, -, -⟩
          rw [htype, Option.some.injEq] at htype'
          rw [htype', hnone] at hcomplex
          exact hcomplex rfl
        have hkid {γ : Type} (nodeset : String) (p : Sketch γ) :
            Appends (fun b => b.required = true ↔ g.DemandsValue id occurs)
              (withKid {} nodeset p) := .withKid fun bindId => by simp [hnever]
        have hplain (child : ChildSketch) (resolved : TypeId) :
            Appends (fun b => b.required = true ↔ g.DemandsValue id occurs)
              (plain g child e id t resolved path occurs) := by
          unfold plain
          split
          · exact hkid _ _
          · exact (Appends.lift _).bind fun _ => hkid _ _
        have hswitch (child : ChildSketch) (types : List TypeId) :
            Appends (fun b => b.required = true ↔ g.DemandsValue id occurs)
              (switch g child e id t types path occurs) := by
          refine (Appends.lift _).bind fun selectId => .bind (.withKid fun bindId => ?_) fun _ =>
            hkid _ _
          unfold Generator.typeBind
          split <;> simp [Bind.addConstraint, hnever]
        have hleave {p : Sketch Element}
            (hp : Appends (fun b => b.required = true ↔ g.DemandsValue id occurs) p) :
            Appends (fun b => b.required = true ↔ g.DemandsValue id occurs) (do
              let data ← p
              leave
              return some data) := hp.bind fun _ => (Appends.lift _).bind fun _ => .pure _
        refine (Appends.lift _).bind fun entered => ?_
        split
        · split
          · exact hleave (hplain _ _)
          · exact hleave (hplain _ _)
          · exact hleave (hswitch _ _)
        · exact (Appends.lift _).bind fun _ => .pure none

end Sketch

/-- The binds below the scope of a scene are those that are drafted. -/
theorem Scene.binds_eq {s : Synthesis} {f : Grove} {scope area : NodeId} {d : Draft}
    (h : Scene s f scope area d) :
    (s.tree.children scope).filterMap s.tree.bind? = d.kids.map (·.bind) := by
  obtain ⟨k, below, hat, -, hdraws, -⟩ := h.scopeAt.here
  obtain ⟨-, hchildren, hlinks⟩ := Tree.links_at? h.world.shows.links hat
  rw [hchildren, ← hdraws.bindTops_eq]
  exact hlinks.bindTops_eq

namespace Generator

/-- The binds that hang in a node. -/
def bindsIn (t : Tree) (scope : NodeId) : List Bind := (t.children scope).filterMap t.bind?

/-- Wherever a child is added while a form is made, it stands in the content of a type that its
parent may have, and is not prohibited there.  The binds that it is given demand a value exactly if
its type is not complex and this particle may occur once and has to: no group around the particle
makes a difference.  Every word that the content admits has the element exactly if the content
demands it, and there the groups count. -/
theorem required_of_own_bounds (schema : Schema) (settings : Settings) {l : Layout}
    (hl : l.Standard) {r : Request} {n : Nat} {c c' : Call}
    (hc : Reached (ofSchema schema settings (some l)) r (n + 1) c)
    (hcalls : Calls (fun child => (ofSchema schema settings (some l)).expand child c.spot c.data
      c.element c.path c.occurs) ((ofSchema schema settings (some l)).addElement n) c.state c') :
    let g := ofSchema schema settings (some l)
    let after := (g.addElement n).answer c'
    ∃ type p, g.MayBe c.element type ∧ schema.Stands type p c'.element c'.occurs ∧
      (∃ made, bindsIn after.2.tree c'.spot.scope = bindsIn c'.state.tree c'.spot.scope ++ made ∧
        ∀ b ∈ made, b.required = true ↔ g.DemandsValue c'.element c'.occurs) ∧
      (p.Ordered → (p.demands c'.element = true ↔ ∀ w, p.Admits w → some c'.element ∈ w)) := by
  intro g after
  obtain ⟨type, p, hmay, hstands⟩ := hcalls.stands
  refine ⟨type, p, hmay, hstands, ?_, Particle.demands_iff⟩
  obtain ⟨box, hbox⟩ := Layout.Standard.boxes (l := g.layout) hl
  have hcandidates : ∀ t, ∀ t' ∈ g.candidates t, (g.schema.complex? t).isSome →
      (g.schema.complex? t').isSome := fun t t' ht' ht => complex_of_mem_candidates rfl ht' ht
  obtain ⟨⟨f, d, hscene⟩, -⟩ := (hc.child hcalls).places hl rfl
  obtain ⟨parent, hφ⟩ := hscene.framed
  let φ : Frame := ⟨c'.spot.scope, parent, d.own, d.around, []⟩
  have hfollows : Follows Any φ c'.spot.area
      (g.addElement n ⟨φ.scope, c'.spot.area⟩ c'.data c'.element c'.path c'.occurs)
      (Sketch.element g n c'.data c'.element c'.path c'.occurs) :=
    (Follows.element hbox hcandidates n φ _ _ _ _ _).1
  obtain ⟨-, -, -, γ, -, hscene'⟩ := hfollows hscene trivial hφ
  obtain ⟨made, hkids, hmade⟩ := Sketch.appends_element g n c'.data c'.element c'.path c'.occurs d
    c'.state.bare
  refine ⟨made.map (·.bind), ?_, List.forall_mem_map.2 hmade⟩
  have hafter := hscene'.binds_eq
  rw [hkids, List.map_append, ← hscene.binds_eq] at hafter
  exact hafter

/-- A schema with an element that holds one child, once. -/
def lone : Schema where
  target := none
  types := #[.any, .complex
    { content := .elementOnly, particle := some (.sequence [.element .once ⟨1⟩]) }]
  elements := #[{ name := ⟨none, "r"⟩, type := some ⟨1⟩ },
    { name := ⟨none, "c"⟩, type := some Schema.anyType }]
  uses := #[]
  typeNames := .empty
  elementNames := Table.empty.put ⟨none, "r"⟩ ⟨0⟩

theorem required_of_own_bounds_lone :
    let g := ofSchema lone {} (some .plain)
    ∃ c c', Reached g { root := "r" } 3 c ∧
      Calls (fun child => g.expand child c.spot c.data c.element c.path c.occurs) (g.addElement 2)
        c.state c' ∧ g.DemandsValue c'.element c'.occurs ∧
      let after := (g.addElement 2).answer c'
      ∃ type p, g.MayBe c.element type ∧ lone.Stands type p c'.element c'.occurs ∧
        (∃ made, bindsIn after.2.tree c'.spot.scope = bindsIn c'.state.tree c'.spot.scope ++ made ∧
          ∀ b ∈ made, b.required = true ↔ g.DemandsValue c'.element c'.occurs) ∧
        (p.Ordered → (p.demands c'.element = true ↔ ∀ w, p.Admits w → some c'.element ∈ w)) := by
  intro g
  let r : Request := { root := "r" }
  have hroot : lone.findElement (QName.of lone.target "r") = some ⟨0⟩ := by
    simp [lone, Schema.findElement, QName.of]
  have hreached : Reached g r 3 (g.rootCall r ⟨0⟩) := .root hroot rfl
  have htype : (g.schema.element (g.rootCall r ⟨0⟩).element).type = some ⟨1⟩ := rfl
  have hcandidates : g.candidates ⟨1⟩ = [⟨1⟩] := by decide +kernel
  have hfresh : (⟨0⟩, ⟨1⟩) ∉ (g.rootCall r ⟨0⟩).state.expanding := by
    rw [rootCall_expanding]
    exact List.not_mem_nil
  have hname : (g.schema.element ⟨1⟩).name.nspace = none := rfl
  have hoccurs : Occurs.once.isEmpty = false := rfl
  obtain ⟨state, spot, data, hcalls⟩ := calls_only_child (n := 2)
    htype (by rfl) hcandidates hfresh rfl rfl rfl rfl hoccurs hname
  exact ⟨_, _, hreached, hcalls, ⟨⟨Schema.anyType, rfl, rfl⟩, Nat.one_pos, rfl⟩,
    required_of_own_bounds lone {} .plain hreached hcalls⟩

/-- A choice of two elements. -/
def alternatives : Particle := .group .once .choice [.element .once ⟨1⟩, .element .once ⟨2⟩]

/-- A schema with an element of this content. -/
def choosingOne : Schema where
  target := none
  types := #[.any, .complex { content := .elementOnly, particle := some alternatives }]
  elements := #[{ name := ⟨none, "r"⟩, type := some ⟨1⟩ },
    { name := ⟨none, "a"⟩, type := some Schema.anyType },
    { name := ⟨none, "b"⟩, type := some Schema.anyType }]
  uses := #[]
  typeNames := .empty
  elementNames := Table.empty.put ⟨none, "r"⟩ ⟨0⟩

/-- The second alternative is left out of a word that is admitted, and a value for it is
demanded. -/
theorem required_alternative :
    (∃ w, alternatives.Admits w ∧ some ⟨2⟩ ∉ w) ∧
    ((ofSchema choosingOne {} (some .plain)).generate "" { root := "r" }).toOption.any
      (fun form => form.tree.unmarked.labels.any fun k =>
        k.bind?.any fun b => b.nodeset == "b" && b.required) = true := by
  refine ⟨⟨[some ⟨1⟩], ⟨[[some ⟨1⟩]], ⟨Nat.le_refl 1, fun m hm => ?_⟩, ?_, rfl⟩, by decide⟩, ?_⟩
  · exact Nat.le_of_eq (Option.some.inj hm)
  · intro v hv
    refine .inl ⟨[[some ⟨1⟩]], ⟨Nat.le_refl 1, fun m hm => ?_⟩, ?_, by simpa using hv⟩
    · exact Nat.le_of_eq (Option.some.inj hm)
    · exact fun u hu => List.mem_singleton.1 hu
  · have hnodes (result : Except Fault Form) (test : Bind → Bool) :
        result.toOption.any (fun form => form.tree.unmarked.labels.any fun k => k.bind?.any test) =
          (result.map Form.substance).toOption.any fun s =>
            s.nodes.labels.any fun k => k.bind?.any test := by
      cases result <;> rfl
    rw [hnodes, generate_substance .plain rfl]
    decide +kernel

end Generator

end SchemaForms
