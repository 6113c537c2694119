import Icl.Json.JsonValue
import Icl.Util.Util

namespace Icl.Json

open Icl.Cxx Icl.Util

/-!
# Paths of names

The model of the lookups of `json/JsonValue.cpp` by a path, the names of which are separated by
colons: `JsonObject::GetValue` and `JsonValue::FindValue`, and of `GetInteger`.

`FindValue` looks up one name at a time.  A name that `Split` has cut out has no colon in it, so
that `HasValue` and `GetValue` go no deeper there.
-/

namespace JsonValue

/-- `GetInteger`: the low 32 bits.  `mIntegerValue` is 0 in a value that is no integer. -/
def getInteger : JsonValue → Int
  | .integer value => int32 value
  | _ => 0

/-- The members of an element of an array, none if it is no object. -/
def members : JsonValue → List (Bytes × JsonValue)
  | .object members => members
  | _ => []

/-- The loop of `FindValue`. -/
def findLoop : List Bytes → JsonValue → Bool → JsonValue
  | [], temp, found => if found then temp else .invalid
  | name :: names, .object ms, found =>
    match OrdMap.find? name ms with
    | some value => findLoop names value true
    | none => findLoop names (.object ms) found
  | name :: names, .array elements, found =>
    match elements.findSome? fun element => OrdMap.find? name element.members with
    | some value => findLoop names value true
    | none => findLoop names (.array elements) found
  | _ :: _, temp, found => if found then temp else .invalid

/-- `JsonValue::FindValue`. -/
def findValue (value : JsonValue) (keyPath : Bytes) : Except Fault JsonValue := do
  let keys ← split keyPath (ascii ":")
  return findLoop keys value false

end JsonValue

/-- `JsonObject::GetValue`: an invalid value if there is none. -/
def objectGetValue (members : List (Bytes × JsonValue)) (keyPath : Bytes) :
    Except Fault JsonValue := do
  match ← split keyPath (ascii ":") with
  | [] => .error (.outOfBounds 0 0)
  | name :: keys =>
    match OrdMap.find? name members with
    | none => return .invalid
    | some value =>
      if keys.length = 0 then return value else value.findValue (join keys (ascii ":"))

/-- A name without a colon is looked up among the members. -/
theorem objectGetValue_name {name : Bytes} (h : 0x3A ∉ name) (members : List (Bytes × JsonValue)) :
    objectGetValue members name = .ok ((OrdMap.find? name members).getD .invalid) := by
  have hsplit : split name (ascii ":") = .ok [name] := by
    rw [show ascii ":" = [0x3A] from rfl, split_single, splitOn_of_not_mem h]
  rw [objectGetValue, hsplit, ok_bind]
  cases hfind : OrdMap.find? name members <;> simp [hfind]

/-- A path of two names, the second one in an array of objects. -/
example : objectGetValue [(ascii "a", .array [.null, .object [(ascii "b", .integer (2 ^ 32 + 7))]])]
    (ascii "a:b") = .ok (.integer (2 ^ 32 + 7)) := by rfl

end Icl.Json
