import Icl.Cxx.Double
import Icl.Cxx.OrdMap
import Mathlib.Data.Nat.Digits.Defs

namespace Icl.Json

open Icl.Cxx

/-!
# `JsonValue`

The model of `json/JsonValue.cpp`: the tree of values, `AddValue` and `ToString`.  A value is
held by its tag and the field that goes with the tag; an object is a `std::map`, its members in
the order of their names.  Levels of indentation are 32-bit integers that wrap around.
-/

/-- `JsonValue`, with its `Tag`. -/
inductive JsonValue where
  | invalid
  | array (elements : List JsonValue)
  | object (members : List (Bytes × JsonValue))
  | integer (value : Int)
  | double (value : Double)
  | boolean (value : Bool)
  | string (value : Bytes)
  | null
  deriving Repr, BEq

/-- `JsonValue::Tag`. -/
inductive Tag where
  | invalid | array | object | integer | double | boolean | string | null
  deriving DecidableEq, Repr

namespace JsonValue

/-- `GetTag`. -/
def getTag : JsonValue → Tag
  | .invalid => .invalid
  | .array _ => .array
  | .object _ => .object
  | .integer _ => .integer
  | .double _ => .double
  | .boolean _ => .boolean
  | .string _ => .string
  | .null => .null

/-- `GetString`. -/
def getString : JsonValue → Bytes
  | .string s => s
  | _ => []

/-- `GetArray().AddValue`. -/
def arrayAddValue : JsonValue → JsonValue → JsonValue
  | .array elements, value => .array (elements ++ [value])
  | v, _ => v

/-- `GetObj().AddValue`. -/
def objectAddValue : JsonValue → Bytes → JsonValue → JsonValue
  | .object members, name, value => .object (OrdMap.insertOrAssign name value members)
  | v, _, _ => v

end JsonValue

/-! ### Texts of scalars -/

/-- A 32-bit signed integer, wrapped around. -/
def int32 (z : Int) : Int := z.bmod (2 ^ 32)

/-- The decimal digits of a natural number. -/
def decimal (n : Nat) : Bytes :=
  if n = 0 then [0x30] else (Nat.digits 10 n).reverse.map fun d => UInt8.ofNat (0x30 + d)

/-- `std::to_string` of an integer. -/
def intToString (z : Int) : Bytes := (if z < 0 then [0x2D] else []) ++ decimal z.natAbs

/-- `std::to_string` of a `double`: six decimals, the last one rounded. -/
def doubleToString : Double → Bytes
  | .nan neg => (if neg then [0x2D] else []) ++ ascii "nan"
  | .infinite neg => (if neg then [0x2D] else []) ++ ascii "inf"
  | .finite neg units =>
    let millionths := Double.roundHalfEven (units * 10 ^ 6) Double.unitBits
    let decimals := decimal (millionths % 10 ^ 6)
    (if neg then [0x2D] else []) ++ decimal (millionths / 10 ^ 6) ++ [0x2E]
      ++ List.replicate (6 - decimals.length) 0x30 ++ decimals

/-- The escaping of `ToString`: each backslash is doubled, nothing else changes. -/
def escapeString (s : Bytes) : Bytes := s.flatMap fun c => if c = 0x5C then [c, c] else [c]

/-- `"true"` or `"false"`. -/
def boolToString (b : Bool) : Bytes := if b then ascii "true" else ascii "false"

/-! ### `ToString` -/

/-- `CreateIndent`. -/
def createIndent (level : Int) : Bytes := List.replicate (int32 (4 * level)).toNat 0x20

/-- The variables of the two container versions of `ToString`. -/
structure Layout where
  crlf : Bytes
  indent : Bytes
  nextLevel : Int
  deriving DecidableEq, Repr

/-- How a container is laid out at a level; a negative level means all on one line. -/
def layout (level : Int) : Layout :=
  if level ≥ 0 then
    { crlf := [0x0A], indent := createIndent (int32 (level + 1)), nextLevel := int32 (level + 1) }
  else { crlf := [], indent := [], nextLevel := -1 }

/-- The separator after an entry, `index` being the count of the entries so far in 32 bits. -/
def separatorAfter (l : Layout) (index size : Nat) : Bytes :=
  if index % 2 ^ 32 < size then 0x2C :: l.crlf else []

mutual

/-- `JsonValue::ToString`. -/
def JsonValue.toString : JsonValue → Int → Bytes
  | .string s, _ => [0x22] ++ escapeString s ++ [0x22]
  | .integer n, _ => intToString n
  | .boolean b, _ => boolToString b
  | .double d, _ => doubleToString d
  | .null, _ => ascii "null"
  | .object members, level =>
    [0x7B] ++ (layout level).crlf ++ membersToString (layout level) members.length members 0
      ++ (layout level).crlf ++ (layout level).indent ++ [0x7D]
  | .array elements, level =>
    [0x5B] ++ (layout level).crlf ++ elementsToString (layout level) elements.length elements 0
      ++ (layout level).crlf ++ (layout level).indent ++ [0x5D]
  | .invalid, level =>
    [0x5B] ++ (layout level).crlf ++ (layout level).crlf ++ (layout level).indent ++ [0x5D]

/-- The loop of `JsonArray::ToString`, `index` entries being done. -/
def elementsToString (l : Layout) (size : Nat) : List JsonValue → Nat → Bytes
  | [], _ => []
  | value :: elements, index =>
    l.indent ++ value.toString l.nextLevel ++ separatorAfter l (index + 1) size
      ++ elementsToString l size elements (index + 1)

/-- The loop of `JsonObject::ToString`, `index` entries being done. -/
def membersToString (l : Layout) (size : Nat) : List (Bytes × JsonValue) → Nat → Bytes
  | [], _ => []
  | (name, value) :: members, index =>
    l.indent ++ [0x22] ++ name ++ [0x22, 0x3A] ++ value.toString l.nextLevel
      ++ separatorAfter l (index + 1) size ++ membersToString l size members (index + 1)

end

/-- A document with two levels of indentation. -/
example : (JsonValue.object [(ascii "a", .array [.integer (-12), .boolean true])]).toString 0
    = ascii "\x7b\n    \"a\":[\n        -12,\n        true\n        ]\n    \x7d" := by
  decide +kernel

end Icl.Json
