import SchemaForms.Proofs.Form.Alike
import SchemaForms.Proofs.Form.Presentation
import SchemaForms.Proofs.Schema.Addresses

/-!
Prohibited content.  An element that may not occur adds nothing: a content model without it is filled
in the same way.  A group that may not occur is filled like one that occurs once: main statement:
where the bounds of all such groups are taken away, every request comes to the same form.
-/

namespace SchemaForms

open Synthesis
open Xml (Element)

/-! Content models with prohibitions taken away. -/

namespace Occurs

/-- The same bounds; once, where they prohibit. -/
def lifted (o : Occurs) : Occurs := if o.isEmpty then .once else o

@[simp] theorem isMultiple_lifted (o : Occurs) : o.lifted.isMultiple = o.isMultiple := by
  unfold lifted
  split
  · next h =>
    have hzero : o.max = some 0 := by simpa [isEmpty] using h
    simp [isMultiple, isEmpty, isSingle, once, hzero]
  · rfl

end Occurs

namespace Particle

mutual

/-- A content model of which no group is prohibited any more. -/
def lifted : Particle → Particle
  | .element occurs id => .element occurs id
  | .group occurs compositor members => .group occurs.lifted compositor (liftedIn members)
  | .wildcard occurs w => .wildcard occurs w

def liftedIn : List Particle → List Particle
  | [] => []
  | p :: ps => lifted p :: liftedIn ps

end

mutual

/-- A content model without the elements in it that are prohibited; there may be nothing left. -/
def permitted : Particle → Option Particle
  | .element occurs id => if occurs.isEmpty then none else some (.element occurs id)
  | .group occurs compositor members => some (.group occurs compositor (permittedIn members))
  | .wildcard occurs w => some (.wildcard occurs w)

def permittedIn : List Particle → List Particle
  | [] => []
  | p :: ps => (permitted p).toList ++ permittedIn ps

end

mutual

theorem elementIds_lifted (p : Particle) : p.lifted.elementIds = p.elementIds := by
  cases p with
  | element => rfl
  | wildcard => rfl
  | group occurs compositor members =>
    rw [lifted, elementIds, elementIds]
    exact elementIdsOf_liftedIn members

theorem elementIdsOf_liftedIn (ps : List Particle) :
    elementIdsOf (liftedIn ps) = elementIdsOf ps := by
  cases ps with
  | nil => rfl
  | cons p ps =>
    rw [liftedIn, elementIdsOf, elementIdsOf, elementIds_lifted p, elementIdsOf_liftedIn ps]

end

end Particle

namespace ComplexType

def lifted (t : ComplexType) : ComplexType := { t with particle := t.particle.map (·.lifted) }

def permitted (t : ComplexType) : ComplexType := { t with particle := t.particle.bind (·.permitted) }

end ComplexType

def TypeDef.lifted : TypeDef → TypeDef
  | .complex t => .complex t.lifted
  | t => t

namespace Schema

/-- A schema in which no group is prohibited any more. -/
def lifted (s : Schema) : Schema := { s with types := s.types.map (·.lifted) }

variable (s : Schema)

theorem typeDef_lifted (id : TypeId) : s.lifted.typeDef id = (s.typeDef id).lifted := by
  simp only [typeDef, lifted, Array.getD_eq_getD_getElem?, Array.getElem?_map]
  cases s.types[id.index]? <;> rfl

theorem complex?_lifted (id : TypeId) :
    s.lifted.complex? id = (s.complex? id).map (·.lifted) := by
  rw [complex?, complex?, typeDef_lifted]
  cases s.typeDef id <;> rfl

theorem alike_lifted : s.Alike s.lifted where
  target := rfl
  elements := rfl
  uses := rfl
  elementNames := rfl
  size := Array.size_map
  bare id := by
    rw [typeDef_lifted]
    cases s.typeDef id <;> rfl

theorem inheritsUse_lifted (t : TypeId) (use : UseId) :
    Generator.inheritsUse s.lifted t use = Generator.inheritsUse s t use := by
  unfold Generator.inheritsUse
  simp only [s.alike_lifted.ancestors_eq, complex?_lifted, Option.any_map]
  rfl

theorem inheritsElement_lifted (t : TypeId) (name : QName) :
    Generator.inheritsElement s.lifted t name = Generator.inheritsElement s t name := by
  unfold Generator.inheritsElement
  rw [s.alike_lifted.ancestors_eq]
  congr 1
  funext b
  rw [complex?_lifted, s.alike_lifted.element_eq]
  cases s.complex? b with
  | none => rfl
  | some t => cases hp : t.particle <;> simp [ComplexType.lifted, hp, Particle.elementIds_lifted]

end Schema

/-- Whether there is something of an element in a form: a bind with its name as the nodeset, a control
bound to it, and an instance node. -/
def Substance.shows (name : String) (s : Substance) : Bool :=
  s.nodes.labels.any (fun k => k.bind?.any fun b => b.nodeset == name &&
    s.nodes.labels.any (fun k => k.isBoundTo b.id)) &&
  s.skeleton.children.any fun e => e.name == ⟨none, name⟩

namespace Generator

variable (g : Generator) (child : ChildAdder) (f : Filling)

/-! What is prohibited adds nothing. -/

mutual

theorem addParticle_permitted (area : NodeId) (e : Element) (p : Particle) :
    addParticle g child f area e p =
      p.permitted.elim (pure e) (addParticle g child f area e ·) := by
  cases p with
  | element occurs id =>
    rw [Particle.permitted]
    split
    · next h => simp [addParticle, addChildElement, h]
    · rfl
  | group occurs compositor members =>
    rw [Particle.permitted, Option.elim_some, addParticle, addParticle]
    exact bind_congr fun area => addParticles_permitted area e members
  | wildcard => rfl

theorem addParticles_permitted (area : NodeId) (e : Element) (ps : List Particle) :
    addParticles g child f area e ps = addParticles g child f area e (Particle.permittedIn ps) := by
  cases ps with
  | nil => rfl
  | cons p ps =>
    rw [addParticles, Particle.permittedIn, addParticle_permitted area e p]
    cases p.permitted with
    | none => exact (pure_bind ..).trans (addParticles_permitted area e ps)
    | some q =>
      rw [Option.toList_some, List.singleton_append, addParticles]
      exact bind_congr fun e => addParticles_permitted area e ps

end

theorem addContentModel_permitted (area : NodeId) (e : Element) (t : ComplexType) :
    g.addContentModel child f area e t.permitted = g.addContentModel child f area e t := by
  unfold addContentModel ComplexType.permitted
  cases t.particle with
  | none => rfl
  | some p =>
    cases p with
    | element occurs id =>
      cases h : occurs.isEmpty <;> simp [Particle.permitted, h]
    | group occurs compositor members =>
      dsimp only [Option.bind_some]
      rw [addParticle_permitted g child f area e (.group occurs compositor members),
        Particle.permitted]
      rfl
    | wildcard => rfl

/-! Groups that are prohibited are filled. -/

theorem itemsArea_lifted (spot : Spot) (occurs : Occurs) :
    g.itemsArea spot occurs.lifted = g.itemsArea spot occurs := by
  rw [itemsArea, itemsArea, Occurs.isMultiple_lifted]

mutual

theorem addParticle_lifted (area : NodeId) (e : Element) (p : Particle) :
    addParticle (g.withSchema g.schema.lifted) child f area e p.lifted =
      addParticle g child f area e p := by
  cases p with
  | element occurs id =>
    simp only [Particle.lifted, addParticle, addChildElement, schema_withSchema,
      g.schema.inheritsElement_lifted, g.schema.alike_lifted.element_eq]
    rfl
  | group occurs compositor members =>
    rw [Particle.lifted, addParticle, addParticle]
    change g.itemsArea _ _ >>= _ = _
    rw [itemsArea_lifted]
    exact bind_congr fun area => addParticles_lifted area e members
  | wildcard occurs w =>
    rw [Particle.lifted, addParticle, addParticle, schema_withSchema,
      g.schema.alike_lifted.element_eq]

theorem addParticles_lifted (area : NodeId) (e : Element) (ps : List Particle) :
    addParticles (g.withSchema g.schema.lifted) child f area e (Particle.liftedIn ps) =
      addParticles g child f area e ps := by
  cases ps with
  | nil => rfl
  | cons p ps =>
    rw [Particle.liftedIn, addParticles, addParticles, addParticle_lifted area e p]
    exact bind_congr fun e => addParticles_lifted area e ps

end

theorem addContentModel_lifted (area : NodeId) (e : Element) (t : ComplexType) :
    (g.withSchema g.schema.lifted).addContentModel child f area e t.lifted =
      g.addContentModel child f area e t := by
  unfold addContentModel ComplexType.lifted
  cases t.particle with
  | none => rfl
  | some p =>
    cases p with
    | element => rfl
    | group occurs compositor members =>
      exact addParticle_lifted g child f area e (.group occurs compositor members)
    | wildcard => rfl

theorem addText_lifted (t : ComplexType) (area : NodeId) :
    (g.withSchema g.schema.lifted).addText f t.lifted area = g.addText f t area := by
  have h := g.schema.alike_lifted
  simp only [addText, schema_withSchema, h.element_eq, h.simpleContent_eq, h.addField_eq]
  rfl

theorem addUses_lifted (area : NodeId) (e : Element) (ids : List UseId) :
    (g.withSchema g.schema.lifted).addUses f area e ids = g.addUses f area e ids := by
  have h := g.schema.alike_lifted
  induction ids generalizing e with
  | nil => rfl
  | cons id ids ih =>
    have huse : (g.withSchema g.schema.lifted).addUse f area e id = g.addUse f area e id := by
      simp only [addUse, schema_withSchema, h.use_eq, g.schema.inheritsUse_lifted, h.addField_eq]
      rfl
    rw [addUses, addUses, huse]
    exact bind_congr fun e => ih e

theorem addComplex_lifted (area : NodeId) (e : Element) (occurs : Occurs) :
    (g.withSchema g.schema.lifted).addComplex child f area e occurs =
      g.addComplex child f area e occurs := by
  unfold addComplex
  rw [schema_withSchema, g.schema.complex?_lifted, g.schema.alike_lifted.element_eq]
  cases g.schema.complex? f.type with
  | none => rfl
  | some t =>
    simp only [Option.map_some, addText_lifted, addContentModel_lifted, addUses_lifted]
    rfl

theorem addCases_lifted (switch bind : NodeId) (owner : ElementId) (declared : TypeId)
    (isFirst : Bool) (e : Element) (cases : List (TypeId × String)) :
    (g.withSchema g.schema.lifted).addCases child switch bind owner declared isFirst e cases =
      g.addCases child switch bind owner declared isFirst e cases := by
  have h := g.schema.alike_lifted
  induction cases generalizing isFirst e with
  | nil => rfl
  | cons c cases ih =>
    have hcase : (g.withSchema g.schema.lifted).addCase child switch bind owner declared isFirst e
        c.1 c.2 = g.addCase child switch bind owner declared isFirst e c.1 c.2 := by
      simp only [addCase, schema_withSchema, h.displayName_eq, h.element_eq, addComplex_lifted,
        h.applyRelevance_eq]
      rfl
    rw [addCases, addCases, hcase]
    exact bind_congr fun e => ih false e

theorem addSwitch_lifted (spot : Spot) (e : Element) (owner : ElementId) (declared : TypeId)
    (types : List TypeId) (path : String) (occurs : Occurs) :
    (g.withSchema g.schema.lifted).addSwitch child spot e owner declared types path occurs =
      g.addSwitch child spot e owner declared types path occurs := by
  have h := g.schema.alike_lifted
  simp only [addSwitch, schema_withSchema, h.element_eq, h.typeChoices_eq, h.typeValue_eq,
    addCases_lifted]
  rfl

theorem addPlain_lifted (spot : Spot) (e : Element) (owner : ElementId)
    (declared resolved : TypeId) (path : String) (occurs : Occurs) :
    (g.withSchema g.schema.lifted).addPlain child spot e owner declared resolved path occurs =
      g.addPlain child spot e owner declared resolved path occurs := by
  simp only [addPlain, g.schema.alike_lifted.typeValue_eq, addComplex_lifted]

theorem expand_lifted : (g.withSchema g.schema.lifted).expand child = g.expand child := by
  have h := g.schema.alike_lifted
  funext spot e id path occurs
  have hnone (t : TypeId) : (g.schema.lifted.complex? t).isNone = (g.schema.complex? t).isNone :=
    h.complex?_eq (f := Option.isNone) (fun _ _ _ => rfl) t
  simp only [expand, schema_withSchema, h.element_eq, h.displayName_eq, h.candidates_eq,
    h.addField_eq, hnone, addPlain_lifted, addSwitch_lifted]

theorem addElement_lifted (openings : Nat) :
    (g.withSchema g.schema.lifted).addElement openings = g.addElement openings := by
  funext spot e id path occurs
  induction openings generalizing spot e id path occurs with
  | zero => rfl
  | succ openings ih =>
    have hchild : (g.withSchema g.schema.lifted).addElement openings = g.addElement openings := by
      funext spot e id path occurs
      exact ih ..
    rw [addElement, addElement, hchild, expand_lifted]

theorem generate_lifted (time : String) (r : Request) :
    (g.withSchema g.schema.lifted).generate time r = g.generate time r := by
  have h := g.schema.alike_lifted
  have hbuild : (g.withSchema g.schema.lifted).build = g.build := by
    funext r root nsPrefix rootName
    simp only [build, schema_withSchema, h.element_eq, h.elements, addElement_lifted]
    rfl
  simp only [generate, schema_withSchema, h.findElement_eq, h.element_eq, h.target, hbuild]

/-- Elements that are prohibited are left out: what stands in a content model without them is all that
is added from it.  Groups that are prohibited are not: every request comes to the form that it comes
to where they occur once. -/
theorem prohibited_elements_left_out (schema : Schema) (settings : Settings)
    (layout : Option Layout) :
    let g := ofSchema schema settings layout
    (∀ child f area e t,
      g.addContentModel child f area e t.permitted = g.addContentModel child f area e t) ∧
    ∀ time r, (ofSchema schema.lifted settings layout).generate time r = g.generate time r := by
  intro g
  refine ⟨addContentModel_permitted g, fun time r => ?_⟩
  rw [← withSchema_ofSchema schema.alike_lifted settings layout]
  exact generate_lifted _ time r

/-- A sequence that holds an element and a sequence that is prohibited. -/
def prohibitingModel : Particle :=
  .sequence [.element .once ⟨1⟩, .group ⟨0, some 0⟩ .sequence [.element .once ⟨2⟩]]

/-- An element of a type with this content. -/
def prohibiting : Schema where
  target := none
  types := #[.any, .complex { content := .elementOnly, particle := some prohibitingModel }]
  elements := #[{ name := ⟨none, "r"⟩, type := some ⟨1⟩ },
    { name := ⟨none, "a"⟩, type := some Schema.anyType },
    { name := ⟨none, "b"⟩, type := some Schema.anyType }]
  uses := #[]
  typeNames := .empty
  elementNames := Table.empty.put ⟨none, "r"⟩ ⟨0⟩

/-- The second element is shown, though it stands in the group that is prohibited. -/
theorem prohibited_group_filled :
    (prohibitingModel.at? [1]).map (·.occurs) = some ⟨0, some 0⟩ ∧
    (prohibitingModel.elementAt? [1, 0]) = some ⟨2⟩ ∧
    ((ofSchema prohibiting {} (some .plain)).generate "" { root := "r" }).toOption.any
      (fun form => form.substance.shows "b") = true := by
  have hsubstance (result : Except Fault Form) :
      result.toOption.any (fun form => form.substance.shows "b") =
        (result.map Form.substance).toOption.any fun s => s.shows "b" := by
    cases result <;> rfl
  rw [hsubstance, generate_substance .plain rfl]
  decide +kernel

end Generator

end SchemaForms
