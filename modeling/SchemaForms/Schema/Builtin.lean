/-!
The built-in simple types of XML Schema and how they derive from one another.
-/

namespace SchemaForms

/-- The namespace of schema documents and of the built-in types. -/
def schemaNamespace : String := "http://www.w3.org/2001/XMLSchema"

inductive Builtin where
  | anySimpleType
  | string
  | normalizedString
  | token
  | language
  | name
  | ncName
  | id
  | idref
  | idrefs
  | entity
  | entities
  | nmtoken
  | nmtokens
  | boolean
  | decimal
  | integer
  | long
  | int
  | short
  | byte
  | nonNegativeInteger
  | positiveInteger
  | unsignedLong
  | unsignedInt
  | unsignedShort
  | unsignedByte
  | nonPositiveInteger
  | negativeInteger
  | float
  | double
  | duration
  | dateTime
  | time
  | date
  | gYearMonth
  | gYear
  | gMonthDay
  | gDay
  | gMonth
  | hexBinary
  | base64Binary
  | anyUri
  | qname
  | notationName
  deriving DecidableEq, Repr, Inhabited

/-- What kind of value a built-in type holds, which decides the control it gets. -/
inductive Family where
  | text
  | boolean
  | numeric
  | temporal
  | binary
  | other
  deriving DecidableEq, Repr

namespace Builtin

/-- Every built-in type, bases before the types derived from them. -/
def all : List Builtin :=
  [.anySimpleType, .string, .normalizedString, .token, .language, .name, .ncName, .id, .idref,
    .idrefs, .entity, .entities, .nmtoken, .nmtokens, .boolean, .decimal, .integer, .long, .int,
    .short, .byte, .nonNegativeInteger, .positiveInteger, .unsignedLong, .unsignedInt,
    .unsignedShort, .unsignedByte, .nonPositiveInteger, .negativeInteger, .float, .double,
    .duration, .dateTime, .time, .date, .gYearMonth, .gYear, .gMonthDay, .gDay, .gMonth,
    .hexBinary, .base64Binary, .anyUri, .qname, .notationName]

/-- The name in the schema namespace. -/
def localName : Builtin → String
  | .anySimpleType => "anySimpleType"
  | .string => "string"
  | .normalizedString => "normalizedString"
  | .token => "token"
  | .language => "language"
  | .name => "Name"
  | .ncName => "NCName"
  | .id => "ID"
  | .idref => "IDREF"
  | .idrefs => "IDREFS"
  | .entity => "ENTITY"
  | .entities => "ENTITIES"
  | .nmtoken => "NMTOKEN"
  | .nmtokens => "NMTOKENS"
  | .boolean => "boolean"
  | .decimal => "decimal"
  | .integer => "integer"
  | .long => "long"
  | .int => "int"
  | .short => "short"
  | .byte => "byte"
  | .nonNegativeInteger => "nonNegativeInteger"
  | .positiveInteger => "positiveInteger"
  | .unsignedLong => "unsignedLong"
  | .unsignedInt => "unsignedInt"
  | .unsignedShort => "unsignedShort"
  | .unsignedByte => "unsignedByte"
  | .nonPositiveInteger => "nonPositiveInteger"
  | .negativeInteger => "negativeInteger"
  | .float => "float"
  | .double => "double"
  | .duration => "duration"
  | .dateTime => "dateTime"
  | .time => "time"
  | .date => "date"
  | .gYearMonth => "gYearMonth"
  | .gYear => "gYear"
  | .gMonthDay => "gMonthDay"
  | .gDay => "gDay"
  | .gMonth => "gMonth"
  | .hexBinary => "hexBinary"
  | .base64Binary => "base64Binary"
  | .anyUri => "anyURI"
  | .qname => "QName"
  | .notationName => "NOTATION"

/-- The name with the usual prefix. -/
def prefixed (b : Builtin) : String := "xs:" ++ b.localName

def ofName? (localName : String) : Option Builtin := all.find? (·.localName == localName)

/-- The type that a built-in type is derived from. -/
def base? : Builtin → Option Builtin
  | .anySimpleType => none
  | .normalizedString => some .string
  | .token => some .normalizedString
  | .language | .name | .nmtoken => some .token
  | .ncName => some .name
  | .id | .idref | .entity => some .ncName
  | .integer => some .decimal
  | .long | .nonNegativeInteger | .nonPositiveInteger => some .integer
  | .int => some .long
  | .short => some .int
  | .byte => some .short
  | .positiveInteger | .unsignedLong => some .nonNegativeInteger
  | .unsignedInt => some .unsignedLong
  | .unsignedShort => some .unsignedInt
  | .unsignedByte => some .unsignedShort
  | .negativeInteger => some .nonPositiveInteger
  | _ => some .anySimpleType

/-- The type of the items of a built-in list type. -/
def item? : Builtin → Option Builtin
  | .idrefs => some .idref
  | .entities => some .entity
  | .nmtokens => some .nmtoken
  | _ => none

def family : Builtin → Family
  | .boolean => .boolean
  | .decimal | .integer | .long | .int | .short | .byte | .nonNegativeInteger | .positiveInteger
  | .unsignedLong | .unsignedInt | .unsignedShort | .unsignedByte | .nonPositiveInteger
  | .negativeInteger | .float | .double => .numeric
  | .duration | .dateTime | .time | .date | .gYearMonth | .gYear | .gMonthDay | .gDay
  | .gMonth => .temporal
  | .hexBinary | .base64Binary => .binary
  | .anySimpleType | .anyUri | .qname | .notationName => .other
  | _ => .text

theorem mem_all (b : Builtin) : b ∈ all := by cases b <;> decide

theorem ofName?_localName (b : Builtin) : ofName? b.localName = some b := by cases b <;> decide

end Builtin

end SchemaForms
