import SchemaForms.Proofs.Form.Openings
import SchemaForms.Proofs.Form.Paths
import SchemaForms.Proofs.Form.Growing
import SchemaForms.Proofs.Name.Prefixes

/-!
The outline of an element: the paths that the type graph alone gives to the element, its text, its
attributes and the elements below it, in document order.  Where several types may stand in the
element, it is that of all of them.  An element that is being expanded already is left out.
-/

namespace SchemaForms

/-- A step of a path in an instance. -/
inductive PathStep where
  | child (name : QName)
  | attr (name : QName)
  /-- The step to the attribute that names the type of an element. -/
  | xsiType
  deriving DecidableEq, Repr

abbrev Path := List PathStep

/-- A step as it is written, once the namespace has a prefix. -/
def PathStep.text (t : PrefixTable) : PathStep → Option String
  | .child name => t.textOf name
  | .attr name => (t.textOf name).map ("@" ++ ·)
  | .xsiType => some "@xsi:type"

/-- The steps of a path, with a slash before each. -/
def pathText (t : PrefixTable) : Path → Option String
  | [] => some ""
  | step :: path =>
    (step.text t).bind fun first => (pathText t path).map fun rest => "/" ++ first ++ rest

namespace Particle

mutual

/-- The elements that may occur in a particle and the groups nested in it, with their bounds. -/
def children : Particle → List (ElementId × Occurs)
  | .element occurs id => if occurs.isEmpty then [] else [(id, occurs)]
  | .group _ _ members => childrenOf members
  | .wildcard _ _ => []

def childrenOf : List Particle → List (ElementId × Occurs)
  | [] => []
  | p :: ps => children p ++ childrenOf ps

end

end Particle

/-- What the content of a type consists of. -/
inductive Member where
  /-- The text of the element. -/
  | value
  | use (id : UseId)
  | child (id : ElementId) (occurs : Occurs)
  deriving DecidableEq, Repr

namespace Generator

variable (g : Generator)

/-- The elements of a content model, which has to be a group. -/
def modelChildren (t : ComplexType) : List (ElementId × Occurs) :=
  match t.particle with
  | some (.group _ _ members) => Particle.childrenOf members
  | _ => []

/-- The text of an element of a type, where there is any. -/
def valueMembers (t : TypeId) (c : ComplexType) : List Member :=
  match c.content, g.schema.simpleContent t with
  | .simple, some _ | .mixed, some _ => [.value]
  | _, _ => []

/-- What the content of a type consists of, in order: text, attributes and elements. -/
def members (t : TypeId) : List Member :=
  match g.schema.complex? t with
  | none => []
  | some c =>
    g.valueMembers t c ++ (c.uses.map .use ++ (modelChildren c).map fun (id, o) => .child id o)

/-- The types whose content an element has: those it may have, or else the declared one. -/
def fillings (t : TypeId) : List TypeId :=
  match g.candidates t with
  | [] => [t]
  | types => types

/-- The paths of a member, given those of the elements below. -/
def memberPaths (below : ElementId → Occurs → List Path) : Member → List Path
  | .value => [[]]
  | .use id =>
    if (g.schema.use id).decl.type.isSome then [[.attr (g.schema.use id).decl.name]] else []
  | .child id occurs => (below id occurs).map (.child (g.schema.element id).name :: ·)

/-- The paths of an element and of all that is in it, from the element on, when at most so many
expansions can be opened and some are under way. -/
def outline : Nat → List (ElementId × TypeId) → ElementId → Occurs → List Path
  | 0, _, _, _ => []
  | openings + 1, stack, id, occurs =>
    match (g.schema.element id).type with
    | none => []
    | some t =>
      if (g.schema.complex? t).isNone then if occurs.isMultiple then [[], []] else [[]]
      else if stack.contains (id, t) then []
      else
        (if 2 ≤ (g.candidates t).length then [[.xsiType]] else []) ++
          [] :: (g.fillings t).flatMap fun t' =>
            (g.members t').flatMap (g.memberPaths (outline openings ((id, t) :: stack)))

/-- An element stands in the content of another one. -/
def Holds (e c : ElementId) : Prop :=
  ∃ t, (g.schema.element e).type = some t ∧ (g.schema.complex? t).isSome ∧
    ∃ t' ∈ g.fillings t, ∃ o, Member.child c o ∈ g.members t'

/-- An element is met when another one is added. -/
def Leads (e c : ElementId) : Prop := Relation.ReflTransGen g.Holds e c

/-- An element has no types to choose from. -/
def Plain (id : ElementId) : Prop :=
  ∀ t, (g.schema.element id).type = some t → (g.schema.complex? t).isSome →
    (g.candidates t).length ≤ 1

/-- Of the elements that are met, none has several types to choose from. -/
def Unswitched (id : ElementId) : Prop := ∀ e, g.Leads id e → g.Plain e

/-- The name of an element can be a step of a path as it is: where it has no namespace, it is no dot
and does not begin with a slash, and it is not empty if the name of a type comes behind it. -/
def Steplike (id : ElementId) : Prop :=
  (g.schema.element id).name.nspace = none →
    (g.schema.element id).name.localName ≠ "." ∧
    ¬ (g.schema.element id).name.localName.startsWith "/" = true ∧
    ((g.schema.element id).name.localName = "" → g.Plain id)

/-- The names of all elements that are met below an element can be steps of paths. -/
def Navigable (id : ElementId) : Prop := ∀ e c, g.Leads id e → g.Holds e c → g.Steplike c

/-- The names of an element and of all that are met below it can be steps of paths. -/
def Passable (id : ElementId) : Prop := g.Steplike id ∧ g.Navigable id

variable {g}

/-- What holds of everything that is met from an element on holds from those in it on. -/
theorem Holds.leads {e c c' : ElementId} (h : g.Holds e c) (h' : g.Leads c c') : g.Leads e c' :=
  Relation.ReflTransGen.head h h'

theorem Navigable.below {e c : ElementId} (h : g.Navigable e) (hc : g.Holds e c) :
    g.Passable c :=
  ⟨h e c .refl hc, fun e' c' hlead => h e' c' (hc.leads hlead)⟩

section Outline

variable {openings : Nat} {stack : List (ElementId × TypeId)} {id : ElementId} {t : TypeId}
  {occurs : Occurs}

theorem outline_untyped (h : (g.schema.element id).type = none) :
    g.outline openings stack id occurs = [] := by
  cases openings <;> simp [outline, h]

theorem outline_simple (h : (g.schema.element id).type = some t)
    (ht : g.schema.complex? t = none) :
    g.outline (openings + 1) stack id occurs = if occurs.isMultiple then [[], []] else [[]] := by
  simp [outline, h, ht]

theorem outline_recursive (h : (g.schema.element id).type = some t)
    (ht : (g.schema.complex? t).isSome) (hmem : (id, t) ∈ stack) :
    g.outline openings stack id occurs = [] := by
  cases openings with
  | zero => rfl
  | succ openings => simp [outline, h, Option.isSome_iff_ne_none.1 ht, hmem]

theorem outline_complex (h : (g.schema.element id).type = some t)
    (ht : (g.schema.complex? t).isSome) (hmem : (id, t) ∉ stack) :
    g.outline (openings + 1) stack id occurs =
      (if 2 ≤ (g.candidates t).length then [[.xsiType]] else []) ++
        [] :: (g.fillings t).flatMap fun t' =>
          (g.members t').flatMap (g.memberPaths (g.outline openings ((id, t) :: stack))) := by
  simp [outline, h, Option.isSome_iff_ne_none.1 ht, hmem]

/-- What is in an outline is the element, the name of its type, or from its content. -/
theorem of_mem_outline {p : Path} (h : p ∈ g.outline (openings + 1) stack id occurs) :
    p = [] ∨ p = [.xsiType] ∨ ∃ t, ∃ t' ∈ g.fillings t, ∃ m ∈ g.members t',
      p ∈ g.memberPaths (g.outline openings ((id, t) :: stack)) m := by
  cases htype : (g.schema.element id).type with
  | none =>
    rw [outline_untyped htype] at h
    cases h
  | some t =>
    by_cases ht : (g.schema.complex? t).isSome
    · by_cases hmem : (id, t) ∈ stack
      · rw [outline_recursive htype ht hmem] at h
        cases h
      · rw [outline_complex htype ht hmem, List.mem_append, List.mem_cons, List.mem_flatMap] at h
        rcases h with h | h | ⟨t', ht', h⟩
        · split at h
          · exact .inr (.inl (List.mem_singleton.1 h))
          · cases h
        · exact .inl h
        · exact .inr (.inr ⟨t, t', ht', List.mem_flatMap.1 h⟩)
    · rw [outline_simple htype (by simpa using ht)] at h
      split at h
      · exact .inl (by simpa using h)
      · exact .inl (List.mem_singleton.1 h)

/-- The outline does not depend on the bound of the recursion, once there is room for all
expansions. -/
theorem outline_stable {more : Nat} (h : g.room stack < openings) (h' : g.room stack < more) :
    g.outline openings stack id occurs = g.outline more stack id occurs := by
  induction openings generalizing more stack id occurs with
  | zero => omega
  | succ openings ih =>
    obtain ⟨more, rfl⟩ := Nat.exists_eq_succ_of_ne_zero (Nat.ne_zero_of_lt h')
    cases htype : (g.schema.element id).type with
    | none => rw [outline_untyped htype, outline_untyped htype]
    | some t =>
      by_cases ht : (g.schema.complex? t).isSome
      · by_cases hmem : (id, t) ∈ stack
        · rw [outline_recursive htype ht hmem, outline_recursive htype ht hmem]
        · have hroom : g.room ((id, t) :: stack) < g.room stack :=
            unmet_cons_lt (g.mem_expandable htype) hmem
          have hbelow : g.outline openings ((id, t) :: stack) =
              g.outline more ((id, t) :: stack) := by
            funext c o
            exact ih (by omega) (by omega)
          rw [outline_complex htype ht hmem, outline_complex htype ht hmem, hbelow]
      · have hnone : g.schema.complex? t = none := by simpa using ht
        rw [outline_simple htype hnone, outline_simple htype hnone]

end Outline

end Generator

/-! How paths are written. -/

namespace PrefixTable

variable {t t' : PrefixTable}

theorem Extends.textOf (h : t.Extends t') {name : QName} {text : String}
    (hname : t.textOf name = some text) : t'.textOf name = some text := by
  unfold PrefixTable.textOf at hname ⊢
  cases hns : name.nspace with
  | none => simpa [hns] using hname
  | some ns =>
    simp only [hns, Option.map_eq_some_iff] at hname ⊢
    obtain ⟨p, hp, rfl⟩ := hname
    exact ⟨p, h.get? hp, rfl⟩

theorem Extends.pathText (h : t.Extends t') {p : Path} {text : String}
    (hp : pathText t p = some text) : SchemaForms.pathText t' p = some text := by
  induction p generalizing text with
  | nil => exact hp
  | cons step p ih =>
    simp only [SchemaForms.pathText, Option.bind_eq_some_iff, Option.map_eq_some_iff] at hp ⊢
    obtain ⟨first, hfirst, rest, hrest, rfl⟩ := hp
    refine ⟨first, ?_, rest, ih hrest, rfl⟩
    cases step with
    | child name => exact h.textOf hfirst
    | attr name =>
      simp only [PathStep.text, Option.map_eq_some_iff] at hfirst ⊢
      obtain ⟨x, hx, rfl⟩ := hfirst
      exact ⟨x, h.textOf hx, rfl⟩
    | xsiType => exact hfirst

/-- A character that no name has, the colon apart, is in no written name. -/
theorem Apart.not_mem_textOf (h : t.Apart) {name : QName} {text : String} {c : Char}
    (hname : t.textOf name = some text) (hlocal : c ∉ name.localName.toList) (hcolon : c ≠ ':')
    (hc : isNameChar c = false) : c ∉ text.toList := by
  unfold PrefixTable.textOf at hname
  cases hns : name.nspace with
  | none =>
    rw [hns] at hname
    cases hname
    exact hlocal
  | some ns =>
    rw [hns] at hname
    obtain ⟨p, hp, rfl⟩ := Option.map_eq_some_iff.1 hname
    intro hm
    simp only [String.toList_append, List.mem_append] at hm
    rcases hm with (hm | hm) | hm
    · rw [h.named ns p hp c hm] at hc
      cases hc
    · exact hcolon (by simpa using hm)
    · exact hlocal hm

/-- A name without a colon is known by how it is written. -/
theorem Apart.textOf_injective (h : t.Apart) {name name' : QName} {text : String}
    (hcolon : ':' ∉ name.localName.toList) (hcolon' : ':' ∉ name'.localName.toList)
    (hname : t.textOf name = some text) (hname' : t.textOf name' = some text) : name = name' := by
  obtain ⟨nspace, l⟩ := name
  obtain ⟨nspace', l'⟩ := name'
  have hmem (p l : String) : ':' ∈ (p ++ ":" ++ l).toList := by simp
  cases nspace with
  | none =>
    cases Option.some.inj hname
    cases nspace' with
    | none => exact congrArg (QName.mk none) (Option.some.inj hname').symm
    | some ns' =>
      obtain ⟨p', -, rfl⟩ := Option.map_eq_some_iff.1 hname'
      exact absurd (hmem p' l') hcolon
  | some ns =>
    obtain ⟨p, hp, rfl⟩ := Option.map_eq_some_iff.1 hname
    cases nspace' with
    | none =>
      cases Option.some.inj hname'
      exact absurd (hmem p l) hcolon'
    | some ns' =>
      obtain ⟨p', hp', htext⟩ := Option.map_eq_some_iff.1 hname'
      have hlist : p'.toList ++ ':' :: l'.toList = p.toList ++ ':' :: l.toList := by
        simpa using congrArg String.toList htext
      obtain ⟨hfirst, hlocal⟩ := append_separator_inj hcolon' hcolon hlist
      rw [String.toList_injective hfirst] at hp'
      have hl : l' = l := String.toList_injective hlocal
      rw [h.distinct ns ns' p hp hp', hl]

end PrefixTable

end SchemaForms
