import SchemaForms.Proofs.Xml.RoundTrip

/-!
Scoping: the namespaces in a document that has been read.  Main statement: the namespace of every
element and attribute is found from the prefixes and the declarations in the tree alone, by going
outwards from the element to the first one that declares the prefix.
-/

namespace SchemaForms

namespace Scope

/-! What declarations mean, without a scope. -/

/-- What some declarations bind a prefix to; no prefix stands for the default namespace.  The last
declaration of the prefix counts. -/
def declared (nsPrefix : Option String) : List (Option String × String) → Option String
  | [] => none
  | d :: ds => (declared nsPrefix ds).or (if d.1 = nsPrefix then some d.2 else none)

/-- What a prefix is bound to inside some elements, of which the declarations are given, those of
the innermost first.  Outside of all elements `xml` is bound and nothing else. -/
def boundIn (nsPrefix : Option String) : List (List (Option String × String)) → Option String
  | [] => if nsPrefix = some "xml" then some xmlNamespace else none
  | ds :: around => (declared nsPrefix ds).or (boundIn nsPrefix around)

/-- The empty URI means no namespace. -/
def namespaceOf (uri : String) : Option String := if uri = "" then none else some uri

/-- The namespace that a prefix means, where it is bound.  Without a prefix it is the default
namespace, or none if there is no such. -/
def namespaceIn (around : List (List (Option String × String))) :
    Option String → Option (Option String)
  | none => some ((boundIn none around).bind namespaceOf)
  | some p => (boundIn (some p) around).map namespaceOf

/-- A scope binds what is bound inside some elements. -/
structure Reflects (scope : Scope) (around : List (List (Option String × String))) : Prop where
  lookup : ∀ p, scope.lookup p = boundIn (some p) around
  default : scope.defaultNamespace = (boundIn none around).bind namespaceOf

theorem reflects_initial : initial.Reflects [] where
  lookup p := by
    rw [lookup, initial, Table.find, Table.find, boundIn]
    simp only [Option.some.injEq, eq_comm]
  default := rfl

theorem lookup_foldl_declare (ds : List (Option String × String)) (scope : Scope) (p : String) :
    (ds.foldl declare scope).lookup p = (declared (some p) ds).or (scope.lookup p) := by
  induction ds generalizing scope with
  | nil => rfl
  | cons d ds ih =>
    obtain ⟨q, uri⟩ := d
    rw [List.foldl_cons, ih, declared, Option.or_assoc]
    congr 1
    cases q with
    | none => rfl
    | some q =>
      rw [declare, lookup_bind]
      by_cases hq : q = p <;> simp [hq]

theorem default_foldl_declare (ds : List (Option String × String)) (scope : Scope) :
    (ds.foldl declare scope).defaultNamespace =
      ((declared none ds).map namespaceOf).getD scope.defaultNamespace := by
  induction ds generalizing scope with
  | nil => rfl
  | cons d ds ih =>
    obtain ⟨q, uri⟩ := d
    rw [List.foldl_cons, ih, declared]
    cases declared none ds with
    | some later => rfl
    | none => cases q <;> rfl

namespace Reflects

variable {scope : Scope} {around : List (List (Option String × String))} (h : scope.Reflects around)
include h

/-- The scope inside an element comes from its declarations and from those around it. -/
theorem declare (ds : List (Option String × String)) :
    (ds.foldl Scope.declare scope).Reflects (ds :: around) where
  lookup p := by rw [lookup_foldl_declare, h.lookup, boundIn]
  default := by
    rw [default_foldl_declare, h.default, boundIn]
    cases declared none ds <;> rfl

/-- A written name is resolved to the namespace that its prefix means. -/
theorem namespaceIn_eq {written : String} {name : QName} (hname : scope.resolve written = .ok name) :
    namespaceIn around (splitName written).1 = some name.nspace := by
  unfold resolve at hname
  split at hname
  · next hsplit =>
    cases hname
    rw [hsplit, namespaceIn, h.default]
  · next p localName hsplit =>
    split at hname
    · next ns hns =>
      cases hname
      rw [hsplit, namespaceIn, ← h.lookup, hns]
      by_cases hempty : ns = "" <;> simp [namespaceOf, QName.of, hempty, Option.filter]
    · cases hname

end Reflects

end Scope

namespace Xml

open Scope (namespaceIn)

/-- An attribute has the namespace that its prefix means inside some elements, and none without a
prefix. -/
structure Attribute.NamedIn (around : List (List (Option String × String))) (a : Attribute) :
    Prop where
  unprefixed : a.nsPrefix = none → a.name.nspace = none
  prefixed : ∀ p, a.nsPrefix = some p → namespaceIn around (some p) = some a.name.nspace

theorem namedIn_of_resolveAttribute {scope : Scope} {around : List (List (Option String × String))}
    (h : scope.Reflects around) {key value : String} {a : Attribute}
    (ha : resolveAttribute scope key value = .ok a) : a.NamedIn around := by
  unfold resolveAttribute at ha
  split at ha
  · cases ha
    exact ⟨fun _ => rfl, fun _ hp => by cases hp⟩
  · next p localName hsplit =>
    split at ha
    · next name hname =>
      cases ha
      refine ⟨fun hnone => (Option.some_ne_none _ hnone).elim, fun q hq => ?_⟩
      cases hq
      have hmeans := h.namespaceIn_eq hname
      rwa [hsplit] at hmeans
    · cases ha

namespace Element

/-- The declarations of the element at the end of a path and of the elements around it, the
innermost first. -/
def declarationsTo (e : Element) : List Nat → List (List (Option String × String))
  | [] => [e.declarations]
  | i :: path => (e.children[i]?.elim [] (·.declarationsTo path)) ++ [e.declarations]

/-- The element and its attributes have the namespaces that their prefixes mean inside some
elements. -/
structure NamedIn (around : List (List (Option String × String))) (e : Element) : Prop where
  element : namespaceIn around e.nsPrefix = some e.name.nspace
  attributes : ∀ a ∈ e.attributes, a.NamedIn around

/-- What a tag begins is named as its own declarations and those around it say. -/
theorem namedIn_of_elementOf {outer : Scope} {around : List (List (Option String × String))}
    (h : outer.Reflects around) {name attributes : Utf8.Bytes} {e : Element}
    (he : elementOf outer name attributes = .ok e) :
    e.scope.Reflects (e.declarations :: around) ∧ e.NamedIn (e.declarations :: around) := by
  obtain ⟨written, pairs, -, -, hbegins⟩ := elementOf_eq_ok.1 he
  have hscope : e.scope.Reflects (e.declarations :: around) := hbegins.scope ▸ h.declare _
  obtain ⟨-, hattributes⟩ := resolveAttributes_eq_ok hbegins.attributes
  refine ⟨hscope, ?_, fun a ha => namedIn_of_resolveAttribute hscope (hattributes a ha)⟩
  rw [hbegins.nsPrefix]
  exact hscope.namespaceIn_eq hbegins.name

/-- What is read inside some elements is named as they and the elements in it say, however deep. -/
theorem Read.namedIn {outer : Scope} {e x : Element} {around : List (List (Option String × String))}
    (he : e.Read outer) (houter : outer.Reflects around) {path : List Nat}
    (hx : e.at? path = some x) : x.NamedIn (e.declarationsTo path ++ around) := by
  induction path generalizing e outer around with
  | nil =>
    cases hx
    cases he with
    | intro tag made text inner =>
      obtain ⟨helement, hattributes⟩ := (namedIn_of_elementOf houter made).2
      exact ⟨helement, hattributes⟩
  | cons i path ih =>
    obtain ⟨child, hchild, hx⟩ := Option.bind_eq_some_iff.1 hx
    cases he with
    | intro tag made text inner =>
      have hscope : e.scope.Reflects (e.declarations :: around) :=
        (namedIn_of_elementOf houter made).1
      have hinner := ih (inner child (List.mem_of_getElem? hchild)) hscope hx
      rw [declarationsTo, hchild, List.append_assoc]
      exact hinner

end Element

/-- In a document that has been read, every element, however deep, and each of its attributes with a
prefix has the namespace that the declarations of the element and of those around it give to the
prefix, the innermost first; an attribute without prefix has none.  No other declaration matters. -/
theorem namespaces_scoped {bs : Utf8.Bytes} {root : Element} (h : readBytes bs = .ok (some root))
    {path : List Nat} {e : Element} (he : root.at? path = some e) :
    e.NamedIn (root.declarationsTo path) := by
  have hnamed := (read_of_readBytes h).namedIn Scope.reflects_initial he
  rwa [List.append_nil] at hnamed

/-- An element that declares a prefix anew which the element around it has declared. -/
def shadowing : Element :=
  ⟨⟨some "urn:inner", "c"⟩, some "p", [⟨⟨some "urn:inner", "x"⟩, some "p", "1"⟩,
      ⟨.unqualified "y", none, "2"⟩], none, [], [(some "p", "urn:inner")],
    ⟨[("p", "urn:inner"), ("p", "urn:outer"), ("xml", Scope.xmlNamespace)], some "urn:d"⟩⟩

/-- The element around it, with another child that takes the default namespace away. -/
def shadowed : Element :=
  let scope : Scope := ⟨[("p", "urn:outer"), ("xml", Scope.xmlNamespace)], some "urn:d"⟩
  ⟨⟨some "urn:d", "r"⟩, none, [], none,
    [⟨.unqualified "b", none, [], none, [], [(none, "")], { scope with defaultNamespace := none }⟩,
      shadowing], [(none, "urn:d"), (some "p", "urn:outer")], scope⟩

theorem readBytes_shadowed : readBytes (Utf8.encode
    "<r xmlns='urn:d' xmlns:p='urn:outer'><b xmlns=''/><p:c xmlns:p='urn:inner' p:x='1' y='2'/></r>") =
      .ok (some shadowed) := by
  let bare : Element := { shadowed with children := [] }
  let sibling : Element := shadowed.children.headD default
  have htokens : tokens (Utf8.dropMark (Utf8.encode
      "<r xmlns='urn:d' xmlns:p='urn:outer'><b xmlns=''/><p:c xmlns:p='urn:inner' p:x='1' y='2'/></r>")) =
      [.opening (Utf8.encode "r") (Utf8.encode " xmlns='urn:d' xmlns:p='urn:outer'"),
        .empty (Utf8.encode "b") (Utf8.encode " xmlns=''"),
        .empty (Utf8.encode "p:c") (Utf8.encode " xmlns:p='urn:inner' p:x='1' y='2'"),
        .closing (Utf8.encode "r")] := by
    decide +kernel
  have hopening : Reading.initial.step (.opening (Utf8.encode "r")
      (Utf8.encode " xmlns='urn:d' xmlns:p='urn:outer'")) =
      .ok ⟨[(Utf8.encode "r", bare)], none⟩ := by
    have hroot : elementOf Scope.initial (Utf8.encode "r")
        (Utf8.encode " xmlns='urn:d' xmlns:p='urn:outer'") = .ok bare :=
      elementOf_eq_ok.2 ⟨"r", [("xmlns", "urn:d"), ("xmlns:p", "urn:outer")], by decide +kernel,
        by decide +kernel, rfl, rfl, rfl, rfl, rfl, rfl, rfl⟩
    simp only [Reading.step, Reading.initial, Reading.scope, hroot]
  have hsibling : Reading.step ⟨[(Utf8.encode "r", bare)], none⟩
      (.empty (Utf8.encode "b") (Utf8.encode " xmlns=''")) =
      .ok ⟨[(Utf8.encode "r", { shadowed with children := [sibling] })], none⟩ := by
    have hchild : elementOf bare.scope (Utf8.encode "b") (Utf8.encode " xmlns=''") = .ok sibling :=
      elementOf_eq_ok.2 ⟨"b", [("xmlns", "")], by decide +kernel, by decide +kernel, rfl, rfl, rfl,
        rfl, rfl, rfl, rfl⟩
    simp only [Reading.step, Reading.scope, hchild]
    rfl
  have hinner : Reading.step ⟨[(Utf8.encode "r", { shadowed with children := [sibling] })], none⟩
      (.empty (Utf8.encode "p:c") (Utf8.encode " xmlns:p='urn:inner' p:x='1' y='2'")) =
      .ok ⟨[(Utf8.encode "r", shadowed)], none⟩ := by
    have hchild : elementOf shadowed.scope (Utf8.encode "p:c")
        (Utf8.encode " xmlns:p='urn:inner' p:x='1' y='2'") = .ok shadowing :=
      elementOf_eq_ok.2 ⟨"p:c", [("xmlns:p", "urn:inner"), ("p:x", "1"), ("y", "2")],
        by decide +kernel, by decide +kernel, rfl, rfl, rfl, rfl, rfl, rfl, rfl⟩
    simp only [Reading.step, Reading.scope, hchild]
    rfl
  rw [readBytes, htokens, Reading.run_step hopening, Reading.run_step hsibling,
    Reading.run_step hinner]
  rfl

/-- The inner declaration counts for the element and its attribute, that of the sibling does not. -/
theorem namespaces_scoped_shadowing :
    readBytes (Utf8.encode
        "<r xmlns='urn:d' xmlns:p='urn:outer'><b xmlns=''/><p:c xmlns:p='urn:inner' p:x='1' y='2'/></r>") =
        .ok (some shadowed) ∧
      shadowed.at? [1] = some shadowing ∧
      shadowing.NamedIn [[(some "p", "urn:inner")], [(none, "urn:d"), (some "p", "urn:outer")]] :=
  ⟨readBytes_shadowed, rfl, namespaces_scoped readBytes_shadowed (show shadowed.at? [1] = some shadowing from rfl)⟩

end Xml

end SchemaForms
