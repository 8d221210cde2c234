import SchemaForms.Proofs.Schema.Placing
import Mathlib.Data.List.Find
import Mathlib.Logic.Relation

/-!
The groups that are open around the building of a type.  A type is built where it is first asked
for, and that may be in the middle of reading the declaration of another one: the groups that are
being expanded there stay open while it is built.
-/

namespace SchemaForms.Loader

open SchemaForms.Xml
open SchemaForms.Source (parts part? groupNames)

/-! Reading on from one place of a document to the next.  A place is an element with the groups that
are open there, the innermost first. -/

/-- The name of the group that a reference leads to, and what the group contains. -/
def expansion? (c : Context) (e : Element) : Option (QName × Element) := do
  let reference ← e.attribute? "ref"
  let name ← nameOf? e reference
  let definition ← c.groups.get? name
  let model ← part? definition groupNames
  return (name, model)

/-- Reading goes on to a part of the element, into a group that is not open yet, or to the
attributes that a reference stands for.  The complex type that is written in an element is none of
its parts here: it is built by itself. -/
inductive ReadsOn (c : Context) : List QName × Element → List QName × Element → Prop
  | part {opens : List QName} {e d : Element} (hpart : d ∈ parts e)
    (hinner : e.localName = "element" → d.localName ≠ "complexType") :
    ReadsOn c (opens, e) (opens, d)
  | group {opens : List QName} {e model : Element} {name : QName} (hname : e.localName = "group")
    (hgroup : expansion? c e = some (name, model)) (hopen : name ∉ opens) :
    ReadsOn c (opens, e) (name :: opens, model)
  | attribute {opens : List QName} {e definition : Element} {reference : String} {name : QName}
    (hname : e.localName = "attribute") (href : e.attribute? "ref" = some reference)
    (hresolves : nameOf? e reference = some name)
    (hfound : c.attributes.get? name = some definition) : ReadsOn c (opens, e) (opens, definition)
  | attributeGroup {opens : List QName} {e definition : Element} {reference : String} {name : QName}
    (hname : e.localName = "attributeGroup") (href : e.attribute? "ref" = some reference)
    (hresolves : nameOf? e reference = some name)
    (hfound : c.attributeGroups.get? name = some definition) :
    ReadsOn c (opens, e) (opens, definition)

abbrev ReadsFrom (c : Context) : List QName × Element → List QName × Element → Prop :=
  Relation.ReflTransGen (ReadsOn c)

/-! Asking for a type. -/

/-- The references to types that the attributes of an element hold. -/
def typeReferences (e : Element) : List String :=
  ["type", "base", "itemType"].filterMap e.attribute? ++
    Text.wordsOf ((e.attribute? "memberTypes").getD "")

/-- The element names the type, or the type is the one that is written in it. -/
def AsksFor (p : Progress) (e : Element) (id : TypeId) : Prop :=
  (∃ reference ∈ typeReferences e, ∃ name, nameOf? e reference = some name ∧
    (p.schema.typeDef id).name? = some name) ∨
  ∃ inline, part? e ["complexType"] = some inline ∧ Table.find id p.anonymous = some inline

/-- Of the types under way, the one whose building began last. -/
def innermost? (notes : Notes) : Option TypeId :=
  (notes.find? fun n => n.2 = .building ∧ (n.1, .built) ∉ notes).map (·.1)

/-- The groups that are open around the building of a type: none, where no other type was under way
as it began; else those at a place where the declaration of the innermost of these asks for it. -/
inductive OpenAround (c : Context) (p : Progress) : TypeId → List QName → Prop
  | outermost {id : TypeId} {later earlier : Notes}
    (hbegun : p.notes = later ++ (id, .building) :: earlier)
    (hidle : innermost? earlier = none) : OpenAround c p id []
  | within {id outer : TypeId} {later earlier : Notes} {around opens : List QName}
    {declaration e : Element} (hbegun : p.notes = later ++ (id, .building) :: earlier)
    (hinnermost : innermost? earlier = some outer) (haround : OpenAround c p outer around)
    (hdeclares : Declares c p outer declaration)
    (hreads : ReadsFrom c (around, declaration) (opens, e)) (hasks : AsksFor p e id) :
    OpenAround c p id opens

/-- The building of `type` is the innermost one, and reading its declaration has come to `e`, with
these groups open. -/
structure Reading (c : Context) (type : TypeId) (opens : List QName) (e : Element) (p : Progress) :
    Prop where
  innermost : innermost? p.notes = some type
  reached : ∃ around declaration, OpenAround c p type around ∧ Declares c p type declaration ∧
    ReadsFrom c (around, declaration) (opens, e)

/-- Nothing is under way, and no group is open. -/
def Idle (opens : List QName) (p : Progress) : Prop := innermost? p.notes = none ∧ opens = []

/-- Reading the declaration of whatever is under way has come to `e`. -/
def Standing (c : Context) (opens : List QName) (e : Element) (p : Progress) : Prop :=
  (∃ type, Reading c type opens e p) ∨ Idle opens p

/-- The type is asked for where reading stands, if anything is read. -/
def Asked (c : Context) (opens : List QName) (id : TypeId) (p : Progress) : Prop :=
  (∃ type e, Reading c type opens e p ∧ AsksFor p e id) ∨ Idle opens p

/-! What lasts. -/

section Lasting

variable {c : Context} {p q : Progress}

theorem AsksFor.mono {e : Element} {id : TypeId} (h : AsksFor p e id) (hk : Keeps p q)
    (hg : p.schema.Grows q.schema) (hid : p.schema.HasType id) : AsksFor q e id := by
  rcases h with ⟨reference, hmem, name, href, hname⟩ | ⟨inline, hinline, h⟩
  · exact .inl ⟨reference, hmem, name, href, (hg.name id hid).trans hname⟩
  · exact .inr ⟨inline, hinline, hk.anonymous id inline h⟩

theorem OpenAround.mono {id : TypeId} {opens : List QName} (h : OpenAround c p id opens)
    (ho : InOrder c p) (hk : Keeps p q) (hg : p.schema.Grows q.schema) :
    OpenAround c q id opens := by
  obtain ⟨new, hnotes, -⟩ := hk.notes
  have hlonger {id : TypeId} {later earlier : Notes}
      (hbegun : p.notes = later ++ (id, .building) :: earlier) :
      q.notes = (new ++ later) ++ (id, .building) :: earlier := by
    rw [hnotes, hbegun, List.append_assoc]
  induction h with
  | outermost hbegun hidle => exact .outermost (hlonger hbegun) hidle
  | within hbegun hinnermost _ hdeclares hreads hasks ih =>
    have hid := ho.noted _ .building (hbegun ▸ List.mem_append_right _ (List.mem_cons_self ..))
    exact .within (hlonger hbegun) hinnermost ih (hk.declares hdeclares) hreads
      (hasks.mono hk hg hid)

/-- A whole step leaves the same type innermost. -/
theorem Later.innermost (h : Later p q) : innermost? q.notes = innermost? p.notes := by
  obtain ⟨new, hnotes, hnew⟩ := h.notes
  have hskip : ∀ n ∈ new, ¬ (n.2 = .building ∧ (n.1, .built) ∉ q.notes) := by
    rintro ⟨id, state⟩ hn ⟨rfl, hunbuilt⟩
    rcases h.ended id (hnotes ▸ List.mem_append_left _ hn) with hold | hbuilt
    · exact hnew id hn hold
    · exact hunbuilt hbuilt
  have hsame : ∀ n ∈ p.notes, decide (n.2 = .building ∧ (n.1, .built) ∉ q.notes) =
      decide (n.2 = .building ∧ (n.1, .built) ∉ p.notes) := by
    rintro ⟨id, state⟩ hn
    refine decide_eq_decide.2 (and_congr_right fun hstate => not_congr ?_)
    cases hstate
    exact ⟨h.untouched id hn, h.mem_notes⟩
  have hfind : (new ++ p.notes).find? (fun n => n.2 = .building ∧ (n.1, .built) ∉ q.notes) =
      p.notes.find? fun n => n.2 = .building ∧ (n.1, .built) ∉ p.notes := by
    rw [List.find?_append, List.find?_eq_none.2 (by simpa using hskip), Option.none_or]
    exact List.find?_congr hsame
  rw [← hnotes] at hfind
  rw [innermost?, innermost?, hfind]

theorem innermost?_begun {id : TypeId} (hnew : (id, .built) ∉ p.notes) :
    innermost? (p.begun id).notes = some id := by
  simp [innermost?, Progress.begun, hnew]

theorem Reading.mono {type : TypeId} {opens : List QName} {e : Element}
    (h : Reading c type opens e p) (ho : InOrder c p) (hk : Keeps p q)
    (hg : p.schema.Grows q.schema) (hsame : innermost? q.notes = innermost? p.notes) :
    Reading c type opens e q := by
  obtain ⟨around, declaration, haround, hdeclares, hreads⟩ := h.reached
  exact ⟨hsame.trans h.innermost, around, declaration, haround.mono ho hk hg,
    hk.declares hdeclares, hreads⟩

theorem Standing.mono {opens : List QName} {e : Element} (h : Standing c opens e p)
    (ho : InOrder c p) (hk : Keeps p q) (hg : p.schema.Grows q.schema)
    (hsame : innermost? q.notes = innermost? p.notes) : Standing c opens e q := by
  rcases h with ⟨type, hreading⟩ | ⟨hidle, hopens⟩
  · exact .inl ⟨type, hreading.mono ho hk hg hsame⟩
  · exact .inr ⟨hsame.trans hidle, hopens⟩

end Lasting

/-! Going on to another place, and beginning to build what is asked for. -/

section Places

variable {c : Context} {opens : List QName} {e d : Element} {p q : Progress} {type id : TypeId}

theorem mem_of_innermost? {notes : Notes} (h : innermost? notes = some id) :
    (id, .building) ∈ notes := by
  obtain ⟨⟨_, state⟩, hfind, rfl⟩ := Option.map_eq_some_iff.1 h
  obtain ⟨rfl, -⟩ : state = .building ∧ _ := by simpa using List.find?_some hfind
  exact List.mem_of_find?_eq_some hfind

theorem Reading.hasType (h : Reading c type opens e p) (ho : InOrder c p) : p.schema.HasType type :=
  ho.noted type _ (mem_of_innermost? h.innermost)

theorem Reading.standing (h : Reading c type opens e p) : Standing c opens e p := .inl ⟨type, h⟩

theorem readsOn_part? {names : List String} (h : part? e names = some d)
    (hnames : "complexType" ∉ names) : ReadsOn c (opens, e) (opens, d) := by
  have hmem : d.localName ∈ names := by simpa using List.find?_some h
  exact .part (List.mem_of_find?_eq_some h) fun _ hd => hnames (hd ▸ hmem)

theorem Reading.onward {others : List QName} (h : Reading c type opens e p)
    (hon : ReadsOn c (opens, e) (others, d)) : Reading c type others d p := by
  obtain ⟨around, declaration, haround, hdeclares, hreads⟩ := h.reached
  exact ⟨h.innermost, around, declaration, haround, hdeclares, hreads.tail hon⟩

theorem Standing.onward (h : Standing c opens e p) (hon : ReadsOn c (opens, e) (opens, d)) :
    Standing c opens d p :=
  h.imp_left fun ⟨type, hreading⟩ => ⟨type, hreading.onward hon⟩

/-- A reference to a type asks for it. -/
theorem Standing.asked {reference : String} {name : QName} (h : Standing c opens e p)
    (hmem : reference ∈ typeReferences e) (href : nameOf? e reference = some name)
    (hname : (p.schema.typeDef id).name? = some name) : Asked c opens id p :=
  h.imp_left fun ⟨type, hreading⟩ =>
    ⟨type, e, hreading, .inl ⟨reference, hmem, name, href, hname⟩⟩

/-- A type whose building begins where reading stands has the groups around it that are open
there. -/
theorem Reading.openAround (h : Reading c type opens e p) (ho : InOrder c p) (hk : Keeps p q)
    (hg : p.schema.Grows q.schema) (hn : q.notes = (id, .building) :: p.notes)
    (hasks : AsksFor q e id) : OpenAround c q id opens := by
  obtain ⟨around, declaration, haround, hdeclares, hreads⟩ := h.reached
  exact .within (show q.notes = [] ++ (id, .building) :: p.notes from hn) h.innermost
    (haround.mono ho hk hg) (hk.declares hdeclares) hreads hasks

theorem Idle.openAround (h : Idle opens p) (hn : q.notes = (id, .building) :: p.notes) :
    OpenAround c q id opens := by
  obtain ⟨hidle, rfl⟩ := h
  exact .outermost (show q.notes = [] ++ (id, .building) :: p.notes from hn) hidle

theorem Asked.openAround (h : Asked c opens id p) (ho : InOrder c p)
    (hnew : ∀ state, (id, state) ∉ p.notes) : OpenAround c (p.begun id) id opens := by
  rcases h with ⟨type, e, hreading, hasks⟩ | hidle
  · exact hreading.openAround ho (keeps_begun p hnew) (.refl _) rfl hasks
  · exact hidle.openAround rfl

theorem Standing.openAround (h : Standing c opens e p) (ho : InOrder c p) (hk : Keeps p q)
    (hg : p.schema.Grows q.schema) (hn : q.notes = (id, .building) :: p.notes)
    (hasks : AsksFor q e id) : OpenAround c q id opens := by
  rcases h with ⟨type, hreading⟩ | hidle
  · exact hreading.openAround ho hk hg hn hasks
  · exact hidle.openAround hn

/-- The building of a type begins with its declaration. -/
theorem OpenAround.reading (h : OpenAround c (p.begun id) id opens)
    (he : Declares c (p.begun id) id e) (hunbuilt : (id, .built) ∉ p.notes) :
    Reading c id opens e (p.begun id) :=
  ⟨innermost?_begun hunbuilt, opens, e, h, he, .refl⟩

end Places

end SchemaForms.Loader
