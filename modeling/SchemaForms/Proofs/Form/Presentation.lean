import SchemaForms.Proofs.Form.Reading

/-!
The layout of a form is presentation only.  What a form is, its markup apart, is drawn by a sketch,
and the sketch does not ask for the layout.
-/

namespace SchemaForms

open Grove (ids tops erase)
open Xml (Element)

/-- Forests side by side. -/
def Forest.join {α : Type} : List (Forest α) → Forest α
  | [] => nil
  | f :: fs => f ++ join fs

namespace Tree

/-- A node and what is below it, down to a depth; what is below markup stands in its place. -/
def unmarkedAt (t : Tree) : Nat → NodeId → Forest NodeKind
  | 0, _ => .nil
  | depth + 1, id =>
    let below := Forest.join ((t.children id).map (t.unmarkedAt depth))
    if (t.kind id).isMarkup then below else .tree (t.kind id) below

/-- The nodes of a tree in their order, each markup node replaced by its children. -/
def unmarked (t : Tree) : Forest NodeKind :=
  match t.root with
  | some root => t.unmarkedAt t.size root
  | none => .nil

theorem join_unmarkedAt {t : Tree} {parent : Option NodeId} {f : Grove} (h : t.Links parent f)
    {depth : Nat} (hd : (ids f).length ≤ depth) :
    Forest.join ((tops f).map (t.unmarkedAt depth)) = erase f := by
  induction f generalizing parent depth with
  | nil => rfl
  | cons a b r ihb ihr =>
    obtain ⟨ha, hb, hr⟩ := h
    simp only [Grove.ids_cons, List.length_cons, List.length_append] at hd
    have hkind : t.kind a.1 = a.2 := by rw [Tree.kind, ha]
    have hchildren : t.children a.1 = tops b := by rw [Tree.children, ha]
    cases depth with
    | zero => omega
    | succ depth =>
      have hbelow := ihb hb (show (ids b).length ≤ depth by omega)
      have hrest := ihr hr (show (ids r).length ≤ depth + 1 by omega)
      simp only [Grove.tops_cons, List.map_cons, Forest.join, hrest]
      rw [unmarkedAt, hkind, hchildren, hbelow, erase]
      split
      · rfl
      · rfl

theorem Shows.unmarked_eq {t : Tree} {f : Grove} (h : t.Shows f) : t.unmarked = erase f := by
  obtain ⟨a, b, rfl, hroot⟩ := h.root
  have hjoin := join_unmarkedAt h.links h.length_le
  simp only [Grove.tops_tree, List.map_cons, List.map_nil, Forest.join, Forest.append_nil] at hjoin
  rw [Tree.unmarked, hroot]
  exact hjoin

end Tree

/-- What a form is, its presentation apart. -/
structure Substance where
  rootName : String
  target : Option String
  namespaces : List (String × String)
  skeleton : Element
  anomalies : List Anomaly
  generatedAt : String
  base : Option String
  nodes : Forest NodeKind

def Form.substance (f : Form) : Substance where
  rootName := f.rootName
  target := f.target
  namespaces := f.namespaces
  skeleton := f.skeleton
  anomalies := f.anomalies
  generatedAt := f.generatedAt
  base := f.base
  nodes := f.tree.unmarked

namespace Generator

variable (g : Generator) (l : Layout)

def withLayout : Generator := { g with layout := l }

theorem typeChoices_withLayout (ts : List TypeId) :
    (g.withLayout l).typeChoices ts = g.typeChoices ts := by
  induction ts with
  | nil => rfl
  | cons t ts ih =>
    simp only [typeChoices, ih]
    rfl

theorem typeConditions_withLayout (ts : List TypeId) :
    (g.withLayout l).typeConditions ts = g.typeConditions ts := by
  induction ts with
  | nil => rfl
  | cons t ts ih =>
    simp only [typeConditions, ih]
    rfl

end Generator

/-! A sketch is the same under every layout. -/

namespace Sketch

variable (g : Generator) (l : Layout)

theorem uses_withLayout (f : Role) (e : Element) (ids : List UseId) :
    uses (g.withLayout l) f e ids = uses g f e ids := by
  induction ids generalizing e with
  | nil => rfl
  | cons id ids ih =>
    simp only [uses, ih]
    rfl

section Content

variable (child : ChildSketch)

mutual

theorem particle_withLayout (f : Role) (e : Element) (p : Particle) :
    particle (g.withLayout l) child f e p = particle g child f e p := by
  cases p with
  | element occurs id => rfl
  | group occurs c members => simp only [particle, particles_withLayout f e members]
  | wildcard => rfl

theorem particles_withLayout (f : Role) (e : Element) (ps : List Particle) :
    particles (g.withLayout l) child f e ps = particles g child f e ps := by
  cases ps with
  | nil => rfl
  | cons p ps =>
    simp only [particles, particle_withLayout f e p]
    congr 1
    funext e
    exact particles_withLayout f e ps

end

theorem complex_withLayout (f : Role) (e : Element) (occurs : Occurs) :
    complex (g.withLayout l) child f e occurs = complex g child f e occurs := by
  have hmodel (e : Element) (t : ComplexType) :
      contentModel (g.withLayout l) child f e t = contentModel g child f e t := by
    unfold contentModel
    split
    · exact particle_withLayout g l child f e _
    · rfl
  simp only [complex, content, uses_withLayout, hmodel]
  rfl

theorem typeCase_withLayout (owner : ElementId) (declared : TypeId) (isFirst : Bool) (e : Element)
    (t : TypeId) (caseId : String) :
    typeCase (g.withLayout l) child owner declared isFirst e t caseId =
      typeCase g child owner declared isFirst e t caseId := by
  simp only [typeCase, complex_withLayout, guardCase, applyRelevance,
    Generator.typeConditions_withLayout]
  rfl

theorem typeCases_withLayout (owner : ElementId) (declared : TypeId) (isFirst : Bool) (e : Element)
    (cases : List (TypeId × String)) :
    typeCases (g.withLayout l) child owner declared isFirst e cases =
      typeCases g child owner declared isFirst e cases := by
  induction cases generalizing isFirst e with
  | nil => rfl
  | cons c cases ih => simp only [typeCases, typeCase_withLayout, ih]

theorem expand_withLayout (e : Element) (id : ElementId) (path : String) (occurs : Occurs) :
    expand (g.withLayout l) child e id path occurs = expand g child e id path occurs := by
  have hplain (declared resolved : TypeId) :
      plain (g.withLayout l) child e id declared resolved path occurs =
        plain g child e id declared resolved path occurs := by
    simp only [plain, complex_withLayout]
    rfl
  have hswitch (declared : TypeId) (types : List TypeId) :
      switch (g.withLayout l) child e id declared types path occurs =
        switch g child e id declared types path occurs := by
    simp only [switch, typeCases_withLayout, Generator.typeChoices_withLayout]
    rfl
  simp only [expand, hplain, hswitch]
  rfl

end Content

theorem element_withLayout (openings : Nat) :
    element (g.withLayout l) openings = element g openings := by
  induction openings with
  | zero => rfl
  | succ openings ih =>
    funext e id path occurs
    simp only [element, ih, expand_withLayout]

theorem form_withLayout (root : ElementId) (nsPrefix : Option String) (rootName : String) :
    form (g.withLayout l) root nsPrefix rootName = form g root nsPrefix rootName := by
  simp only [form, element_withLayout]
  rfl

end Sketch

namespace Generator

variable {g : Generator}

/-- The substance of a form, as it is sketched. -/
def sketched (g : Generator) (time : String) (r : Request) : Except Fault Substance :=
  match g.schema.findElement (QName.of g.schema.target r.root) with
  | none => .error (.synthesis (.rootNotDeclared r.root (g.schema.target.getD "")))
  | some root =>
    let named := Synthesis.qualified (g.schema.element root).name Synthesis.initial
    match r.instanceRoot.filter (!fits (g.schema.element root) ·) with
    | some wrong => .error (.synthesis (.instanceRootMismatch named.1.2 wrong.written))
    | none =>
      let drawn := Sketch.form g root named.1.1 named.1.2 named.2
      let namespaces := drawn.2.prefixes.declarations
      let skeleton := namespaces.foldl (fun e (p, ns) => e.declare p ns) drawn.1.skeleton
      .ok
        { rootName := named.1.2
          target := g.schema.target
          namespaces := namespaces
          skeleton := skeleton
          anomalies := drawn.2.anomalies
          generatedAt := time
          base := r.base
          nodes := drawn.1.forest r (some ((r.instanceRoot.map prepareRoot).getD skeleton)) }

theorem sketched_withLayout (l : Layout) (time : String) (r : Request) :
    (g.withLayout l).sketched time r = g.sketched time r := by
  simp only [sketched, Sketch.form_withLayout]
  rfl

/-- A request that is refused is refused by the sketch, for the same reason. -/
theorem sketched_eq_error {time : String} {r : Request} {fault : Fault}
    (h : g.generate time r = .error fault) : g.sketched time r = .error fault := by
  unfold generate at h
  unfold sketched
  cases hroot : g.schema.findElement (QName.of g.schema.target r.root) with
  | none =>
    rw [hroot] at h
    cases h
    rfl
  | some root =>
    rw [hroot] at h
    dsimp only at h ⊢
    generalize g.build r root = build at h
    cases hwrong : r.instanceRoot.filter (!fits (g.schema.element root) ·) with
    | none =>
      rw [hwrong] at h
      cases h
    | some wrong =>
      rw [hwrong] at h
      cases h
      rfl

/-- What is generated has the substance that is sketched. -/
theorem generate_substance (hl : g.layout.Standard)
    (hsubstitutes : g.substitutes = Substitutes.ofSchema g.schema) (time : String) (r : Request) :
    (g.generate time r).map Form.substance = g.sketched time r := by
  cases h : g.generate time r with
  | error fault => exact (sketched_eq_error h).symm
  | ok form =>
    obtain ⟨root, f, hroot, hshows, -, hnodes, hnamespaces, hskeleton, hanomalies⟩ :=
      generate_shows hl hsubstitutes h
    unfold generate at h
    unfold sketched
    rw [hroot] at h ⊢
    dsimp only at h ⊢
    generalize g.build r root = build at h
    cases hwrong : r.instanceRoot.filter (!fits (g.schema.element root) ·) with
    | some wrong =>
      rw [hwrong] at h
      cases h
    | none =>
      rw [hwrong] at h
      rw [← hnamespaces, ← hskeleton, ← hanomalies, ← hnodes, ← hshows.unmarked_eq]
      cases h
      rfl

/-- Bare forms and pages are the same, presentation apart: the request is refused for the same
reason, or the forms agree in all but markup. -/
theorem plain_page_agree (s : Schema) (settings : Settings) (stylesheet : String)
    (title : Option String) (time : String) (r : Request) :
    ((ofSchema s settings (some .plain)).generate time r).map Form.substance =
      ((ofSchema s settings (some (.page stylesheet title))).generate time r).map
        Form.substance := by
  rw [generate_substance .plain rfl, generate_substance (.page stylesheet title) rfl]
  exact (sketched_withLayout (g := ofSchema s settings (some (.page stylesheet title))) .plain
    time r)

end Generator

end SchemaForms
