import SchemaForms.Table

/-!
Prefix tables: each namespace met during a run gets one prefix, made from the last segment of its
URI, different from all others and from the reserved ones.
-/

namespace SchemaForms

/-- Namespaces with their prefixes, in the order of first use. -/
structure PrefixTable where
  entries : Table String String
  deriving DecidableEq, Repr, Inhabited

namespace PrefixTable

def empty : PrefixTable := ⟨.empty⟩

/-- Prefixes that a form declares itself. -/
def reserved : List String :=
  ["xforms", "ev", "xsi", "xs", "chiba", "xlink", "xml", "xmlns"]

/-- The part after the last separator once trailing slashes and hashes are gone. -/
def lastSegment (uri : List Char) : List Char :=
  let isTrailing (c : Char) : Bool := c == '/' || c == '#'
  let isSeparator (c : Char) : Bool := c == '/' || c == ':' || c == '#'
  ((uri.reverse.dropWhile isTrailing).takeWhile (!isSeparator ·)).reverse

def isNameStart (c : Char) : Bool := c.isAlpha || c == '_'

def isNameChar (c : Char) : Bool := c.isAlphanum || c == '_' || c == '-' || c == '.'

/-- Puts `ns` in front unless the text starts like a name. -/
def startAsName : List Char → List Char
  | [] => ['n', 's']
  | c :: cs => if isNameStart c then c :: cs else 'n' :: 's' :: c :: cs

/-- Whether a text starts with `xml` in any letter case. -/
def startsLikeXml (cs : List Char) : Bool := (cs.take 3).map Char.toLower == ['x', 'm', 'l']

/-- Names that start like `xml` are kept for XML itself. -/
def avoidXml (cs : List Char) : List Char :=
  if startsLikeXml cs then 'n' :: 's' :: cs else cs

/-- The prefix a namespace would like to have. -/
def basePrefix (nspace : String) : String :=
  String.ofList (avoidXml (startAsName ((lastSegment nspace.toList).filter isNameChar)))

/-- A base itself, then the base followed by 1, 2, and so on. -/
def candidate (base : String) : Nat → String
  | 0 => base
  | n + 1 => base ++ toString (n + 1)

/-- The first candidate from number `start` on that is not taken, among `tries` of them. -/
def firstFree (taken : List String) (base : String) : Nat → Nat → String
  | 0, start => candidate base start
  | tries + 1, start =>
    if taken.contains (candidate base start) then firstFree taken base tries (start + 1)
    else candidate base start

def taken (t : PrefixTable) : List String := reserved ++ t.entries.values

/-- One candidate more than there are prefixes taken: one of them is free. -/
def freshPrefix (t : PrefixTable) (nspace : String) : String :=
  firstFree t.taken (basePrefix nspace) t.taken.length 0

/-- The prefix of a namespace, taken up on first use. -/
def prefixFor (t : PrefixTable) (nspace : String) : String × PrefixTable :=
  match t.entries.get? nspace with
  | some p => (p, t)
  | none =>
    let p := t.freshPrefix nspace
    (p, ⟨t.entries.put nspace p⟩)

/-- A local name with the prefix of its namespace, if it has one. -/
def qualify (t : PrefixTable) (localName : String) (nspace : Option String) :
    String × PrefixTable :=
  match nspace with
  | none => (localName, t)
  | some ns =>
    if ns = "" then (localName, t)
    else
      let (p, t) := t.prefixFor ns
      (p ++ ":" ++ localName, t)

/-- Prefixes with their namespaces, in the order of first use. -/
def declarations (t : PrefixTable) : List (String × String) :=
  t.entries.entries.map fun (nspace, p) => (p, nspace)

end PrefixTable

end SchemaForms
