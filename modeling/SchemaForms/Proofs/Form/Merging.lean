import SchemaForms.Proofs.Form.Expanding
import SchemaForms.Proofs.Name.Entering

/-!
Merging the data of the cases of a switch.  Where an element may have its declared type or one of
several substitutes, its data starts with what the declared type alone gives: every attribute with
its value, and every child, but of children of one name only the first.  So the children are those
of an expansion without substitutes exactly where the declared type names no child twice.
-/

namespace SchemaForms

open Synthesis
open Xml (Element)

/-! Children and attributes of merged data. -/

namespace Xml.Element

def childNames (e : Element) : List QName := e.children.map (·.name)

/-- The attributes, each with its value. -/
def fields (e : Element) : List (QName × String) := e.attributes.map fun a => (a.name, a.value)

end Xml.Element

namespace Generator

theorem fields_addAttribute (e : Element) (name : QName) (nsPrefix : Option String)
    (value : String) :
    (addAttribute e name nsPrefix value).fields = insertField e.fields (name, value) := by
  have hany : e.fields.any (·.1 == name) = e.attributes.any (·.name == name) := by
    simp [Element.fields, List.any_map, Function.comp_def]
  unfold addAttribute insertField
  rw [hany]
  split
  · rfl
  · simp [Element.fields]

theorem childNames_addNewChild (e child : Element) :
    (addNewChild e child).childNames = insertName e.childNames child.name := by
  have hmem : child.name ∈ e.childNames ↔ e.children.any (·.name == child.name) = true := by
    simp [Element.childNames]
  unfold addNewChild insertName
  simp only [hmem]
  split
  · rfl
  · simp [Element.childNames, Element.addChild]

theorem fields_mergeCase (e data : Element) :
    (mergeCase e data).fields = data.fields.foldl insertField e.fields := by
  have hchildren : (mergeCase e data).attributes = (mergeFields e data).attributes := by
    rw [mergeCase_eq]
    exact (children_foldl data.children (mergeFields e data)).1
  have hfields (attrs : List Xml.Attribute) (e : Element) :
      (attrs.foldl (fun e a => addAttribute e a.name a.nsPrefix a.value) e).fields =
        (attrs.map fun a => (a.name, a.value)).foldl insertField e.fields := by
    induction attrs generalizing e with
    | nil => rfl
    | cons a attrs ih => rw [List.foldl_cons, ih, fields_addAttribute]; rfl
  rw [Element.fields, hchildren]
  exact hfields data.attributes e

theorem childNames_mergeCase (e data : Element) :
    (mergeCase e data).childNames = data.childNames.foldl insertName e.childNames := by
  have hnames (cs : List Element) (e : Element) :
      (cs.foldl addNewChild e).childNames =
        (cs.map (·.name)).foldl insertName e.childNames := by
    induction cs generalizing e with
    | nil => rfl
    | cons c cs ih => rw [List.foldl_cons, ih, childNames_addNewChild]; rfl
  have hchildren : (mergeFields e data).childNames = e.childNames :=
    congrArg (List.map Element.name) (attributes_foldl data.attributes e).2.1
  rw [mergeCase_eq, hnames, hchildren]
  rfl

/-- Of all the data that is merged, a child stands for each name, in the order of first mention. -/
theorem childNames_foldl_mergeCase {e : Element} (he : e.children = []) (datas : List Element) :
    (datas.foldl mergeCase e).childNames = (datas.flatMap Element.childNames).eraseDups := by
  have hgeneral (known : List QName) (e : Element) (he : e.childNames = known.eraseDups) :
      (datas.foldl mergeCase e).childNames =
        (known ++ datas.flatMap Element.childNames).eraseDups := by
    induction datas generalizing known e with
    | nil => simpa using he
    | cons data datas ih =>
      rw [List.foldl_cons, ih (known ++ data.childNames), List.flatMap_cons, List.append_assoc]
      rw [childNames_mergeCase, he, foldl_insertName]
  exact hgeneral [] e (by simp [Element.childNames, he])

theorem fields_subset_foldl_mergeCase (e : Element) (datas : List Element) :
    e.fields ⊆ (datas.foldl mergeCase e).fields := by
  induction datas generalizing e with
  | nil => exact List.Subset.refl _
  | cons data datas ih =>
    refine List.Subset.trans (fun x hx => ?_) (ih (mergeCase e data))
    rw [fields_mergeCase, mem_foldl_insertField]
    exact .inl hx

end Generator

/-- With some expansions under way, a step gives a result of a kind, and they are under way after
it. -/
def Gives {α : Type} (stack : List (ElementId × TypeId)) (p : Synth α) (Q : α → Prop) : Prop :=
  ∀ s, s.expanding = stack → Q (p s).1 ∧ (p s).2.expanding = stack

namespace Gives

variable {α β : Type} {stack : List (ElementId × TypeId)} {P P' : α → Prop} {Q : β → Prop}
  {p : Synth α} {k : α → Synth β}

theorem pure {a : α} (h : P a) : Gives stack (pure a) P := fun _ hs => ⟨h, hs⟩

theorem bind (hp : Gives stack p P) (hk : ∀ a, P a → Gives stack (k a) Q) :
    Gives stack (p >>= k) Q := by
  intro s hs
  obtain ⟨ha, hs'⟩ := hp s hs
  exact hk (p s).1 ha (p s).2 hs'

theorem after (hp : Steady p) (hk : ∀ a, Gives stack (k a) Q) : Gives stack (p >>= k) Q :=
  fun s hs => hk (p s).1 (p s).2 ((hp s).1.trans hs)

theorem mono (hp : Gives stack p P) (h : ∀ a, P a → P' a) : Gives stack p P' :=
  fun s hs => (hp s hs).imp_left (h _)

end Gives

/-- An element has gained children of some names and entered some fields, unless it may have taken
over what an earlier case has. -/
structure Gains (inherits : Bool) (names : List QName) (fields : List (QName × String))
    (e e' : Element) : Prop where
  name : e'.name = e.name
  childNames : inherits = false → e'.childNames = e.childNames ++ names
  fields : inherits = false → e'.fields = fields.foldl insertField e.fields

namespace Gains

variable {inherits : Bool} {names names' : List QName} {fields fields' : List (QName × String)}
  {e e' e'' : Element}

theorem refl : Gains inherits [] [] e e := ⟨rfl, fun _ => (List.append_nil _).symm, fun _ => rfl⟩

theorem trans (h : Gains inherits names fields e e') (h' : Gains inherits names' fields' e' e'') :
    Gains inherits (names ++ names') (fields ++ fields') e e'' where
  name := h'.name.trans h.name
  childNames hi := by rw [h'.childNames hi, h.childNames hi, List.append_assoc]
  fields hi := by rw [h'.fields hi, h.fields hi, List.foldl_append]

end Gains

namespace Generator

variable (g : Generator)

/-- What an attribute enters, if it has a type. -/
def useFields (id : UseId) : List (QName × String) :=
  if (g.schema.use id).decl.type.isSome then
    [((g.schema.use id).decl.name, ((g.schema.use id).effectiveValue.map (·.value)).getD "")]
  else []

/-- An element of a content model is not left out, when at most so many expansions can be opened
and some are under way. -/
def admits (openings : Nat) (stack : List (ElementId × TypeId)) (id : ElementId) : Bool :=
  0 < openings &&
    (g.schema.element id).type.any fun t =>
      (g.schema.complex? t).isNone || !stack.contains (id, t)

/-- The names of those elements that are not left out. -/
def admitted (admits : ElementId → Bool) (children : List (ElementId × Occurs)) : List QName :=
  (children.filter fun c => admits c.1).map fun c => (g.schema.element c.1).name

def contentNames (admits : ElementId → Bool) (t : TypeId) : List QName :=
  ((g.schema.complex? t).map fun c => g.admitted admits (modelChildren c)).getD []

def contentFields (t : TypeId) : List (QName × String) :=
  ((g.schema.complex? t).map fun c => c.uses.flatMap g.useFields).getD []

/-- An element has what the content of a type gives where nothing is before. -/
structure HasContent (admits : ElementId → Bool) (t : TypeId) (data : Element) : Prop where
  childNames : data.childNames = g.contentNames admits t
  fields : data.fields = (g.contentFields t).foldl insertField []

/-- Children are added under their own names, all that are not left out. -/
def Admits (stack : List (ElementId × TypeId)) (admits : ElementId → Bool) (child : ChildAdder) :
    Prop :=
  ∀ spot e id path occurs, Gives stack (child spot e id path occurs) fun r =>
    r.map (·.name) = if admits id then some e.name else none

section Content

variable {g} {stack : List (ElementId × TypeId)} {admits : ElementId → Bool} {child : ChildAdder}

theorem reuses_gives (f : Filling) (isInherited : Bool) (area : NodeId) (nodeset : String) :
    Gives stack (g.reuses f isInherited area nodeset) fun r => f.inherits = false → r = false := by
  unfold reuses
  split
  case isTrue h =>
    intro s hs
    refine ⟨fun hf => ?_, ((Steady.reuse g _ _) s).1.trans hs⟩
    rw [hf] at h
    cases h
  case isFalse => exact .pure fun _ => rfl

theorem addUse_gives (f : Filling) (area : NodeId) (e : Element) (id : UseId) :
    Gives stack (g.addUse f area e id) (Gains f.inherits [] (g.useFields id) e) := by
  unfold addUse useFields
  refine .after (.qualified _) fun written => (reuses_gives f _ area _).bind fun reused hreused => ?_
  split
  case isTrue h =>
    have hinherits : f.inherits ≠ false := fun hf => by rw [hreused hf] at h; cases h
    exact .pure ⟨rfl, fun hf => absurd hf hinherits, fun hf => absurd hf hinherits⟩
  case isFalse =>
    cases (g.schema.use id).decl.type with
    | none => exact .after (.report rfl) fun _ => .pure .refl
    | some t =>
      refine .after (.addField g _ _ _ _ _) fun _ => .pure ⟨addAttribute_name .., fun _ => ?_, fun _ => ?_⟩
      · rw [List.append_nil, Element.childNames, children_addAttribute]
        rfl
      · exact fields_addAttribute ..

theorem addUses_gives (f : Filling) (area : NodeId) (e : Element) (ids : List UseId) :
    Gives stack (g.addUses f area e ids) (Gains f.inherits [] (ids.flatMap g.useFields) e) := by
  induction ids generalizing e with
  | nil => exact .pure .refl
  | cons id ids ih =>
    exact (addUse_gives f area e id).bind fun e' he => (ih e').mono fun e'' he' => he.trans he'

theorem addChildElement_gives (hchild : Admits stack admits child) (f : Filling)
    (area : NodeId) (e : Element) (id : ElementId) (occurs : Occurs) :
    Gives stack (g.addChildElement child f area e id occurs)
      (Gains f.inherits (g.admitted admits (Particle.element occurs id).children) [] e) := by
  unfold addChildElement Particle.children
  split
  case isTrue h => exact .pure .refl
  case isFalse h =>
    refine .after (.qualified _) fun written => (reuses_gives f _ area _).bind fun reused hreused => ?_
    split
    case isTrue h =>
      have hinherits : f.inherits ≠ false := fun hf => by rw [hreused hf] at h; cases h
      exact .pure ⟨rfl, fun hf => absurd hf hinherits, fun hf => absurd hf hinherits⟩
    case isFalse =>
      refine (hchild _ _ _ _ _).bind fun r hr => ?_
      have hname := (Sketch.children_bareInstance (g.schema.element id) written.1).2
      cases r with
      | none =>
        have hid : admits id = false := by
          by_contra hid
          simp [hid] at hr
        simpa [admitted, hid] using Gives.pure Gains.refl
      | some data =>
        have hid : admits id = true := by
          by_contra hid
          simp [hid] at hr
        have hdata : data.name = (g.schema.element id).name := by simpa [hid, hname] using hr
        exact .pure ⟨rfl, fun _ => by simp [admitted, hid, ← hdata, Element.childNames,
          Element.addChild], fun _ => rfl⟩

mutual

theorem addParticle_gives (hchild : Admits stack admits child) (f : Filling) (area : NodeId)
    (e : Element) (p : Particle) :
    Gives stack (g.addParticle child f area e p)
      (Gains f.inherits (g.admitted admits p.children) [] e) := by
  cases p with
  | element occurs id => exact addChildElement_gives hchild f area e id occurs
  | group occurs c members =>
    exact .after (.itemsArea g _ _) fun area => addParticles_gives hchild f area e members
  | wildcard => exact .after (.report rfl) fun _ => .pure .refl

theorem addParticles_gives (hchild : Admits stack admits child) (f : Filling) (area : NodeId)
    (e : Element) (ps : List Particle) :
    Gives stack (g.addParticles child f area e ps)
      (Gains f.inherits (g.admitted admits (Particle.childrenOf ps)) [] e) := by
  cases ps with
  | nil => exact .pure .refl
  | cons p ps =>
    refine (addParticle_gives hchild f area e p).bind fun e' he => ?_
    refine (addParticles_gives hchild f area e' ps).mono fun e'' he' => ?_
    have happend : g.admitted admits (Particle.childrenOf (p :: ps)) =
        g.admitted admits p.children ++ g.admitted admits (Particle.childrenOf ps) := by
      simp [admitted, Particle.childrenOf]
    rw [happend]
    exact he.trans he'

end

theorem addContentModel_gives (hchild : Admits stack admits child) (f : Filling) (area : NodeId)
    (e : Element) (t : ComplexType) :
    Gives stack (g.addContentModel child f area e t)
      (Gains f.inherits (g.admitted admits (modelChildren t)) [] e) := by
  unfold addContentModel modelChildren
  cases t.particle with
  | none => exact .pure .refl
  | some p =>
    cases p with
    | group occurs compositor members =>
      exact addParticle_gives hchild f area e (.group occurs compositor members)
    | element => exact .pure .refl
    | wildcard => exact .pure .refl

theorem addComplex_gives (hchild : Admits stack admits child) (f : Filling) (area : NodeId)
    (e : Element) (occurs : Occurs) :
    Gives stack (g.addComplex child f area e occurs)
      (Gains f.inherits (g.contentNames admits f.type) (g.contentFields f.type) e) := by
  unfold addComplex contentNames contentFields
  cases g.schema.complex? f.type with
  | none => exact .pure .refl
  | some t =>
    refine .after .get fun _ => .after (.allocate _) fun _ => .after (.addControl g _ _) fun _ => ?_
    refine .after (.contentOf g _) fun _ => .after .get fun _ => .after (.itemsArea g _ _) fun area => ?_
    refine .after (.addText g _ _ _) fun _ => (addUses_gives f area e t.uses).bind fun e' he => ?_
    refine (addContentModel_gives hchild f area e' t).mono fun e'' he' => ?_
    have hall := he.trans he'
    rwa [List.append_nil] at hall

theorem addPlain_gives (hchild : Admits stack admits child) (spot : Spot) (e : Element)
    (owner : ElementId) (declared resolved : TypeId) (path : String) (occurs : Occurs) :
    Gives stack (g.addPlain child spot e owner declared resolved path occurs) fun e' =>
      e'.name = e.name ∧ (resolved = declared →
        Gains false (g.contentNames admits declared) (g.contentFields declared) e e') := by
  have hrest (e : Element) : Gives stack
      (do
        let bind ← addBind spot.scope {} path
        g.addComplex child ⟨bind.node, resolved, owner, false⟩ spot.area e occurs)
      (Gains false (g.contentNames admits resolved) (g.contentFields resolved) e) :=
    .after (.addBind _ _ _) fun bind => addComplex_gives hchild _ spot.area e occurs
  unfold addPlain
  split
  case isTrue h =>
    refine Gives.bind (P := (· = e)) (.pure rfl) fun e₁ he₁ => ?_
    subst h he₁
    exact (hrest e₁).mono fun e' he => ⟨he.name, fun _ => he⟩
  case isFalse h =>
    refine .after (.typeValue g _) fun value => (hrest _).mono fun e' he => ?_
    exact ⟨he.name.trans (addAttribute_name ..), fun heq => absurd heq h⟩

/-- The data of a case is merged; that of the declared type is all that the type gives. -/
theorem addCase_gives (hchild : Admits stack admits child) (switch bind : NodeId)
    (owner : ElementId) (declared : TypeId) (isFirst : Bool) (e : Element) (t : TypeId)
    (caseId : String) :
    Gives stack (g.addCase child switch bind owner declared isFirst e t caseId) fun e' =>
      ∃ data, e' = mergeCase e data ∧ (t = declared → g.HasContent admits declared data) := by
  unfold addCase
  refine .after (.onTree _) fun node => .after (.onTree _) fun _ => .after (.contentOf g _) fun _ =>
    .after .get fun _ => .after (.swapReused _) fun _ => ?_
  refine (addComplex_gives hchild _ _ _ _).bind fun data hdata => .after (.swapReused _) fun _ => ?_
  have hresult : Gives stack (pure (mergeCase e data) : Synth Element) fun e' =>
      ∃ data, e' = mergeCase e data ∧ (t = declared → g.HasContent admits declared data) := by
    refine .pure ⟨data, rfl, fun ht => ?_⟩
    subst ht
    exact ⟨hdata.childNames (by simp), hdata.fields (by simp)⟩
  split
  case isTrue => exact .after (.applyRelevance g _ _ _ _) fun _ => hresult
  case isFalse => exact hresult

theorem addCases_gives (hchild : Admits stack admits child) (switch bind : NodeId)
    (owner : ElementId) (declared : TypeId) (isFirst : Bool) (e : Element)
    (cases : List (TypeId × String)) :
    Gives stack (g.addCases child switch bind owner declared isFirst e cases) fun e' =>
      ∃ datas : List Element, e' = datas.foldl mergeCase e ∧
        (cases.head?.map (·.1) = some declared → ∃ data rest, datas = data :: rest ∧ g.HasContent admits declared data) := by
  induction cases generalizing isFirst e with
  | nil => exact .pure ⟨[], rfl, nofun⟩
  | cons c cases ih =>
    refine (addCase_gives hchild switch bind owner declared isFirst e c.1 c.2).bind ?_
    rintro _ ⟨data, rfl, hdata⟩
    refine (ih false (mergeCase e data)).mono ?_
    rintro _ ⟨datas, rfl, -⟩
    exact ⟨data :: datas, rfl, fun hfirst => ⟨data, datas, rfl, hdata (Option.some.inj hfirst)⟩⟩

theorem typeChoices_gives (ts : List TypeId) :
    Gives stack (g.typeChoices ts) fun choices => choices.length = ts.length := by
  induction ts with
  | nil => exact .pure rfl
  | cons t ts ih =>
    refine .after (.allocate _) fun _ => .after (.allocate _) fun _ => .after (.allocate _) fun _ =>
      .after (.allocate _) fun _ => .after (.typeValue g _) fun _ => ih.bind fun rest hrest => ?_
    exact .pure (congrArg (· + 1) hrest)

theorem addSwitch_gives (hchild : Admits stack admits child) (spot : Spot) (e : Element)
    (owner : ElementId) (declared : TypeId) (types : List TypeId) (path : String)
    (occurs : Occurs) :
    Gives stack (g.addSwitch child spot e owner declared types path occurs) fun e' =>
      ∃ (value : String) (datas : List Element),
        e' = datas.foldl mergeCase (addAttribute e xsiType (some "xsi") value) ∧
        (types.head? = some declared → ∃ data rest, datas = data :: rest ∧ g.HasContent admits declared data) := by
  unfold addSwitch
  refine .after (.allocate _) fun _ => .after (.addBind _ _ _) fun _ => .after (.addBind _ _ _)
    fun bind => .after (.itemsArea g _ _) fun area => .after (.promptChoice g _ _) fun _ => ?_
  refine (typeChoices_gives types).bind fun choices hlength => ?_
  refine .after (.addControl g _ _) fun _ => .after (.allocate _) fun _ => .after (.allocate _)
    fun _ => .after (.allocate _) fun _ => .after (.onTree _) fun _ => .after (.onTree _) fun _ =>
    .after (.allocate _) fun _ => .after (.addControl g _ _) fun switch => .after (.typeValue g _)
    fun value => ?_
  refine (addCases_gives hchild switch bind.node owner declared true _ _).mono ?_
  rintro _ ⟨datas, rfl, hdatas⟩
  refine ⟨value, datas, rfl, fun hfirst => hdatas ?_⟩
  have hcases : (types.zip (choices.map (·.2))).map (·.1) = types :=
    List.map_fst_zip (by simp [hlength])
  rw [← List.head?_map, hcases, hfirst]

theorem name_foldl_mergeCase (e : Element) (datas : List Element) :
    (datas.foldl mergeCase e).name = e.name := by
  induction datas generalizing e with
  | nil => rfl
  | cons data datas ih => exact (ih _).trans (mergeCase_name e data)

theorem addTyped_gives (hchild : Admits stack admits child) (spot : Spot) (e : Element)
    (id : ElementId) (t : TypeId) (path : String) (occurs : Occurs) :
    Gives stack (g.addTyped child spot e id t path occurs) fun e' => e'.name = e.name := by
  unfold addTyped
  split
  · exact Gives.mono (addPlain_gives hchild spot e id t t path occurs) fun _ h => h.1
  · exact Gives.mono (addPlain_gives hchild spot e id t _ path occurs) fun _ h => h.1
  · refine Gives.mono (addSwitch_gives hchild spot e id t _ path occurs) ?_
    rintro _ ⟨value, datas, rfl, -⟩
    exact (name_foldl_mergeCase _ datas).trans (addAttribute_name ..)

end Content

/-- An element is left out exactly if no expansion can be opened, it has no type, or it recurs. -/
theorem addElement_admits (openings : Nat) (stack : List (ElementId × TypeId)) :
    Admits stack (g.admits openings stack) (g.addElement openings) := by
  induction openings generalizing stack with
  | zero => exact fun _ _ _ _ _ => .pure (by simp [admits])
  | succ openings ih =>
    intro spot e id path occurs
    unfold addElement
    cases htype : (g.schema.element id).type with
    | none =>
      unfold expand
      simp only [htype]
      exact .after (.report rfl) fun _ => .pure (by simp [admits, htype])
    | some t =>
      by_cases hcomplex : (g.schema.complex? t).isSome
      · intro s hs
        by_cases hmem : (id, t) ∈ stack
        · rw [expand_of_recurs g spot e path occurs ⟨htype, hcomplex, hs ▸ hmem⟩]
          exact ⟨by simp [admits, htype, hmem, Option.isSome_iff_ne_none.1 hcomplex], hs⟩
        · rw [expand_of_fresh g spot e path occurs htype hcomplex (hs ▸ hmem)]
          obtain ⟨hname, hstack⟩ := addTyped_gives (g := g) (ih ((id, t) :: stack)) spot e id t
            path occurs { s with expanding := (id, t) :: s.expanding } (by rw [hs])
          refine ⟨by simp [admits, htype, hmem, hname], ?_⟩
          exact (congrArg List.tail hstack).trans List.tail_cons
      · have hnone : (g.schema.complex? t).isNone = true := by simpa using hcomplex
        unfold expand
        simp only [htype, hnone, if_true]
        exact .after (.addField g _ _ _ _ _) fun _ => .pure (by simp [admits, htype, hnone])

theorem candidates_of_not_abstract {t : TypeId}
    (habstract : (g.schema.complex? t).any (·.isAbstract) = false) :
    g.candidates t = t :: g.substitutes.of t := by
  rw [candidates, habstract]
  rfl

/-- Where the declared type is one of several, its data is merged first. -/
theorem addElement_switched {openings : Nat} {id : ElementId} {t : TypeId} {s : Synthesis}
    (htype : (g.schema.element id).type = some t) (ht : (g.schema.complex? t).isSome)
    (habstract : (g.schema.complex? t).any (·.isAbstract) = false)
    (hlength : 2 ≤ (g.candidates t).length) (hfresh : (id, t) ∉ s.expanding) (spot : Spot)
    (e : Element) (path : String) (occurs : Occurs) :
    ∃ (value : String) (data : Element) (rest : List Element),
      (g.addElement (openings + 1) spot e id path occurs s).1 =
        some ((data :: rest).foldl mergeCase (addAttribute e xsiType (some "xsi") value)) ∧
      g.HasContent (g.admits openings ((id, t) :: s.expanding)) t data := by
  have hcandidates := g.candidates_of_not_abstract habstract
  have htyped : g.addTyped (g.addElement openings) spot e id t path occurs =
      g.addSwitch (g.addElement openings) spot e id t (g.candidates t) path occurs := by
    unfold addTyped
    rw [hcandidates] at hlength ⊢
    cases hsubstitutes : g.substitutes.of t with
    | nil => simp [hsubstitutes] at hlength
    | cons t' ts => rfl
  obtain ⟨⟨value, datas, hdata, hfirst⟩, -⟩ := addSwitch_gives (g := g)
    (g.addElement_admits openings ((id, t) :: s.expanding)) spot e id t (g.candidates t) path occurs
    { s with expanding := (id, t) :: s.expanding } rfl
  obtain ⟨data, rest, rfl, hcontent⟩ := hfirst (by rw [hcandidates]; rfl)
  refine ⟨value, data, rest, ?_, hcontent⟩
  rw [addElement, expand_of_fresh g spot e path occurs htype ht hfresh, htyped]
  exact congrArg some hdata

/-- The attributes of an element with the content of a type stay when data with this content is
merged into it, unless a name came between. -/
theorem attribute_of_merged {admits : ElementId → Bool} {t : TypeId} {e plain data : Element}
    {value : String} {rest : List Element}
    (hplain : Gains false (g.contentNames admits t) (g.contentFields t) e plain)
    (hdata : g.HasContent admits t data) {a : Xml.Attribute} (ha : a ∈ plain.attributes)
    (hname : a.name ≠ xsiType) :
    (a.name, a.value) ∈
      ((data :: rest).foldl mergeCase (addAttribute e xsiType (some "xsi") value)).fields := by
  have hmem : (a.name, a.value) ∈ plain.fields := List.mem_map_of_mem ha
  rw [hplain.fields rfl, mem_foldl_insertField] at hmem
  rw [List.foldl_cons]
  apply fields_subset_foldl_mergeCase
  rw [fields_mergeCase, mem_foldl_insertField, fields_addAttribute, mem_insertField,
    lookup_insertField, hdata.fields, lookup_foldl_insertField]
  rcases hmem with hmem | ⟨hnew, hlookup⟩
  · exact .inl (.inl hmem)
  · refine .inr ⟨?_, by simpa using hlookup⟩
    rw [hnew]
    simpa using hname

/-- An element that is expanded as its declared type and the substitutes starts with the data of an
expansion as the declared type alone, where of children of one name the first is kept.  So it has
the same children first exactly if these differ in name; and it has all the attributes, the one that
names the type apart, with the same values. -/
theorem switch_data {openings : Nat} {id : ElementId} {t : TypeId} {e : Element} {s : Synthesis}
    (htype : (g.schema.element id).type = some t) (ht : (g.schema.complex? t).isSome)
    (habstract : (g.schema.complex? t).any (·.isAbstract) = false)
    (hlength : 2 ≤ (g.candidates t).length) (hfresh : (id, t) ∉ s.expanding)
    (hchildren : e.children = []) (spot : Spot) (path : String) (occurs : Occurs) :
    ∃ data, (g.addElement (openings + 1) spot e id path occurs s).1 = some data ∧
      ∀ (spot : Spot) (path : String) (occurs : Occurs) (s' : Synthesis),
        s'.expanding = (id, t) :: s.expanding →
        let plain := (g.addPlain (g.addElement openings) spot e id t t path occurs s').1
        (∃ rest, data.childNames = (plain.childNames ++ rest).eraseDups) ∧
        (plain.childNames <+: data.childNames ↔ plain.childNames.Nodup) ∧
        ∀ a ∈ plain.attributes, a.name ≠ xsiType →
          ∃ b ∈ data.attributes, b.name = a.name ∧ b.value = a.value := by
  obtain ⟨value, first, rest, hdata, hcontent⟩ := g.addElement_switched htype ht habstract hlength
    hfresh spot e path occurs
  refine ⟨_, hdata, fun spot path occurs s' hs' => ?_⟩
  have hadmits := g.addElement_admits openings ((id, t) :: s.expanding)
  have hplain := (addPlain_gives (g := g) hadmits spot e id t t path occurs s' hs').1.2 rfl
  intro plain
  have hnames : ((first :: rest).foldl mergeCase
      (addAttribute e xsiType (some "xsi") value)).childNames =
        (plain.childNames ++ rest.flatMap Element.childNames).eraseDups := by
    have hbare : e.childNames = [] := congrArg (List.map Element.name) hchildren
    rw [childNames_foldl_mergeCase ((children_addAttribute ..).trans hchildren),
      List.flatMap_cons, hcontent.childNames, hplain.childNames rfl, hbare, List.nil_append]
  refine ⟨⟨_, hnames⟩, by rw [hnames]; exact prefix_eraseDups_iff, fun a ha hname => ?_⟩
  obtain ⟨b, hb, heq⟩ := List.mem_map.1 (g.attribute_of_merged hplain hcontent ha hname)
  exact ⟨b, hb, Prod.mk.inj heq⟩

/-- A type that names a child twice, and one that extends it by nothing. -/
def repeatingChild : Schema :=
  let base : TypeId := ⟨Schema.builtinCount⟩
  let content : Particle := .sequence [.element .once ⟨1⟩, .element .once ⟨2⟩, .element .once ⟨1⟩]
  { target := none
    types := (Schema.empty none).types ++
      #[.complex { name := some ⟨none, "B"⟩, uses := [⟨0⟩], particle := some content },
        .complex
          { name := some ⟨none, "D"⟩, base := some base, derivation := .extension, uses := [⟨0⟩]
            particle := some content }]
    elements := #[{ name := ⟨none, "r"⟩, type := some base },
      { name := ⟨none, "x"⟩, type := some Schema.anyType },
      { name := ⟨none, "y"⟩, type := some Schema.anyType }]
    uses := #[{ decl := { name := ⟨none, "a"⟩, type := some Schema.anyType },
                value := some (.default "7") }]
    typeNames := (Schema.empty none).typeNames
    elementNames := Table.empty.put ⟨none, "r"⟩ ⟨0⟩ }

theorem substitutes_repeatingChild : Substitutes.ofSchema repeatingChild =
    ⟨⟨[(⟨Schema.builtinCount⟩, [⟨Schema.builtinCount + 1⟩])]⟩⟩ := by
  have htable : repeatingChild.namedTypes.foldl (fun table id =>
      Substitutes.ascend repeatingChild table []
        (repeatingChild.chain (Substitutes.parent repeatingChild) id)) Table.empty =
      ⟨[(⟨Schema.builtinCount⟩, [⟨Schema.builtinCount + 1⟩])]⟩ := by
    decide +kernel
  rw [Substitutes.ofSchema, htable]
  simp [Substitutes.sortByDepth]

def repeating : Generator := ofSchema repeatingChild {} (some .plain)

/-- The root element before anything is made of it. -/
def bareRoot : Element := .ofName ⟨none, "r"⟩

/-- The data of the root element, which may have both types. -/
def switchedData : Option Element :=
  (repeating.addElement (3 + 1) ⟨⟨0⟩, ⟨0⟩⟩ bareRoot ⟨0⟩ "/r" .once .initial).1

/-- The expansion of the root element is under way. -/
def rootOpened : Synthesis :=
  { Synthesis.initial with expanding := [(⟨0⟩, ⟨Schema.builtinCount⟩)] }

/-- The data of the root element as its declared type alone. -/
def plainData : Element :=
  (repeating.addPlain (repeating.addElement 3) ⟨⟨0⟩, ⟨0⟩⟩ bareRoot ⟨0⟩ ⟨Schema.builtinCount⟩
    ⟨Schema.builtinCount⟩ "/r" .once rootOpened).1

theorem switch_data_repeatingChild :
    ∃ data, switchedData = some data ∧
      ∃ a ∈ data.attributes, a.name = ⟨none, "a"⟩ ∧ a.value = "7" := by
  have hlength : 2 ≤ (repeating.candidates ⟨Schema.builtinCount⟩).length := by
    rw [repeating, ofSchema, substitutes_repeatingChild]
    decide +kernel
  have ha : ⟨⟨none, "a"⟩, none, "7"⟩ ∈ plainData.attributes := by
    rw [plainData, repeating, ofSchema, substitutes_repeatingChild]
    decide +kernel
  have hroot : (repeating.schema.element ⟨0⟩).type = some ⟨Schema.builtinCount⟩ := by decide +kernel
  obtain ⟨data, hdata, h⟩ := @switch_data repeating 3 ⟨0⟩ ⟨Schema.builtinCount⟩ bareRoot .initial
    hroot (by decide +kernel) (by decide +kernel) hlength List.not_mem_nil rfl ⟨⟨0⟩, ⟨0⟩⟩ "/r" .once
  obtain ⟨-, -, hattributes⟩ := h ⟨⟨0⟩, ⟨0⟩⟩ "/r" .once rootOpened rfl
  rw [plainData] at ha
  exact ⟨data, hdata, hattributes _ ha (by decide)⟩

/-- The child that is named twice is there once when the element may have both types. -/
theorem switch_data_drops_child :
    switchedData.map Element.childNames = some [⟨none, "x"⟩, ⟨none, "y"⟩] ∧
      plainData.childNames = [⟨none, "x"⟩, ⟨none, "y"⟩, ⟨none, "x"⟩] := by
  rw [switchedData, plainData, repeating, ofSchema, substitutes_repeatingChild]
  decide +kernel

end Generator

end SchemaForms
