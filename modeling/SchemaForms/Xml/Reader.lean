import SchemaForms.Text.Blank
import SchemaForms.Xml.Element
import SchemaForms.Xml.Escape
import SchemaForms.Xml.Lexer

/-!
Reading documents: tokens build elements on a stack of open ones, each in the scope of the one
around it.
-/

namespace SchemaForms.Xml

open SchemaForms.Utf8 (Bytes)
open Byte

/-- The text of escaped bytes. -/
def textOf (bytes : Bytes) : Option String :=
  (Utf8.decode bytes).bind fun s => (unescape s.toList).map String.ofList

/-- What follows the key of an attribute: its value between quotes, and the rest. -/
def splitValue (bs : Bytes) : Option (Bytes × Bytes) :=
  match dropBlank bs with
  | [] => none
  | e :: rest =>
    if e = equals then
      match dropBlank rest with
      | [] => none
      | q :: rest =>
        if q = quote ∨ q = apostrophe then
          match rest.dropWhile (· != q) with
          | [] => none
          | _ :: after => some (rest.takeWhile (· != q), after)
        else none
    else none

/-- The first attribute of a tag: its key, its value between the quotes, and what follows.  A key
has at least one byte, whatever it is, and goes on to an equals sign or white space. -/
def splitAttribute : Bytes → Option (Bytes × Bytes × Bytes)
  | [] => none
  | b :: bs =>
    let inKey (b : UInt8) : Bool := b != equals && !isBlank b
    (splitValue (bs.dropWhile inKey)).map fun (value, rest) =>
      (b :: bs.takeWhile inKey, value, rest)

theorem length_of_splitValue {bs value rest : Bytes} (h : splitValue bs = some (value, rest)) :
    rest.length < bs.length := by
  unfold splitValue at h
  split at h
  · simp at h
  · next e tail he =>
    have h₁ := length_dropBlank_le bs
    rw [he, List.length_cons] at h₁
    split at h
    · split at h
      · simp at h
      · next q tail' hq =>
        have h₂ := length_dropBlank_le tail
        rw [hq, List.length_cons] at h₂
        split at h
        · split at h
          · simp at h
          · next c after ha =>
            have h₃ := length_dropWhile_le (· != q) tail'
            rw [ha, List.length_cons] at h₃
            simp only [Option.some.injEq, Prod.mk.injEq] at h
            rw [← h.2]
            omega
        · simp at h
    · simp at h

theorem length_of_splitAttribute {bs key value rest : Bytes}
    (h : splitAttribute bs = some (key, value, rest)) : rest.length < bs.length := by
  cases bs with
  | nil => simp [splitAttribute] at h
  | cons b bs =>
    simp only [splitAttribute, Option.map_eq_some_iff, Prod.exists, Prod.mk.injEq] at h
    obtain ⟨v, r, hv, -, -, rfl⟩ := h
    have := length_of_splitValue hv
    have := length_dropWhile_le (fun b => b != equals && !isBlank b) bs
    simp only [List.length_cons]
    omega

/-- The attributes of a tag as written; no key may come twice. -/
def attributesOf (seen : List Bytes) (bs : Bytes) : Except XmlFault (List (String × String)) :=
  if dropBlank bs = [] then .ok []
  else
    match _h : splitAttribute (dropBlank bs) with
    | none => .error .badAttribute
    | some (key, value, rest) =>
      if seen.contains key then .error .badAttribute
      else
        match Utf8.decode key, textOf value with
        | none, _ => .error .badAttributeName
        | some _, none => .error .badAttributeValue
        | some key', some value' =>
          match attributesOf (key :: seen) rest with
          | .ok attributes => .ok ((key', value') :: attributes)
          | .error f => .error f
termination_by bs.length
decreasing_by
  exact Nat.lt_of_lt_of_le (length_of_splitAttribute _h) (length_dropBlank_le bs)

/-- The declaration that an attribute makes, if it makes one. -/
def declarationOf (key value : String) : Option (Option String × String) :=
  if key = "xmlns" then some (none, value)
  else
    match splitName key with
    | (some "xmlns", nsPrefix) => some (some nsPrefix, value)
    | _ => none

/-- Resolves an attribute; one without prefix is in no namespace. -/
def resolveAttribute (scope : Scope) (key value : String) : Except Fault Attribute :=
  match splitName key with
  | (none, localName) => .ok ⟨.unqualified localName, none, value⟩
  | (some p, _) =>
    match scope.resolve key with
    | .ok name => .ok ⟨name, some p, value⟩
    | .error f => .error f

def resolveAttributes (scope : Scope) : List (String × String) → Except Fault (List Attribute)
  | [] => .ok []
  | (key, value) :: rest => do
    let a ← resolveAttribute scope key value
    let as ← resolveAttributes scope rest
    return a :: as

/-- The element of a tag inside a scope. -/
def elementOf (outer : Scope) (name attributes : Bytes) : Except Fault Element := do
  let some name := Utf8.decode name | throw (.xml .badElementName)
  let pairs ← (attributesOf [] attributes).mapError Fault.xml
  let declarations := pairs.filterMap fun (key, value) => declarationOf key value
  let scope := declarations.foldl Scope.declare outer
  let qname ← scope.resolve name
  let others := pairs.filter fun (key, value) => (declarationOf key value).isNone
  let attributes ← resolveAttributes scope others
  return ⟨qname, (splitName name).1, attributes, none, [], declarations, scope⟩

/-- The open elements with their tags' names, innermost first, and the last root completed. -/
structure Reading where
  stack : List (Bytes × Element)
  root : Option Element

namespace Reading

def initial : Reading := ⟨[], none⟩

def scope (r : Reading) : Scope :=
  match r.stack with
  | [] => Scope.initial
  | (_, e) :: _ => e.scope

/-- Puts a finished element where it belongs. -/
def finish (r : Reading) (e : Element) : Reading :=
  match r.stack with
  | [] => { r with root := some e }
  | (name, parent) :: rest => { r with stack := (name, parent.addChild e) :: rest }

/-- Text counts when it holds more than white space. -/
def addText (r : Reading) (text : String) : Reading :=
  match r.stack with
  | [] => r
  | (name, e) :: rest =>
    if text.toList.all Text.isBlank then r
    else { r with stack := (name, e.addText text) :: rest }

def step (r : Reading) : Token → Except Fault Reading
  | .opening name attributes =>
    match elementOf r.scope name attributes with
    | .ok e => .ok { r with stack := (name, e) :: r.stack }
    | .error f => .error f
  | .empty name attributes =>
    match elementOf r.scope name attributes with
    | .ok e => .ok (r.finish e)
    | .error f => .error f
  | .closing name =>
    match r.stack with
    | [] => .error (.xml .malformed)
    | (expected, e) :: rest =>
      if name = expected then .ok ({ r with stack := rest }.finish e)
      else .error (.xml .malformed)
  | .text bytes =>
    if r.stack.isEmpty then .ok r
    else
      match textOf bytes with
      | some text => .ok (r.addText text)
      | none => .error (.xml .badText)
  | .cdata bytes => .ok (r.addText (Utf8.decodeLossy bytes))
  | .ignored => .ok r
  | .malformed => .error (.xml .malformed)

def run (r : Reading) : List Token → Except Fault Reading
  | [] => .ok r
  | t :: ts =>
    match r.step t with
    | .ok r => r.run ts
    | .error f => .error f

end Reading

/-- The root element of a document, if it has one. -/
def readBytes (bytes : Bytes) : Except Fault (Option Element) := do
  let r ← Reading.initial.run (tokens (Utf8.dropMark bytes))
  if r.stack.isEmpty then return r.root else throw (.xml .unexpectedEnd)

def readString (text : String) : Except Fault (Option Element) := readBytes (Utf8.encode text)

end SchemaForms.Xml
