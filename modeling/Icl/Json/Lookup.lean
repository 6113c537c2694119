import Icl.Json.Replace

namespace Icl.Json

open Icl.Cxx Icl.Util

/-!
# Looking a value up

The model of `HasValue` and of the overloads of `GetValue` of `json/JsonValue.cpp`, and what they
find.  `FindValue` passes over a name that it does not find, and stops at a scalar; the lookups of
`JsonObject` give up at the first name that they do not find.

* `memberAt` — the strict lookup, name by name;
* `looksUpStrictly_iff` — when all of the lookups are strict;
* `getValue_wraps` — what an integer is read as.
-/

/-! ### `HasValue` -/

/-- `IsValid`. -/
def JsonValue.isValid (v : JsonValue) : Bool := decide (v.getTag ≠ .invalid)

/-- `JsonValue::HasValue`. -/
def JsonValue.hasValue (value : JsonValue) (keyPath : Bytes) : Except Fault Bool := do
  let val ← value.findValue keyPath
  return val.isValid

/-- `JsonObject::HasValue`. -/
def objectHasValue (members : List (Bytes × JsonValue)) (keyPath : Bytes) : Except Fault Bool := do
  match ← split keyPath (ascii ":") with
  | [] => .error (.outOfBounds 0 0)
  | name :: keys =>
    match OrdMap.find? name members with
    | none => return false
    | some value =>
      if keys.length = 0 then return true else value.hasValue (join keys (ascii ":"))

/-! ### The strict lookup -/

/-- The value that the names lead to, each of them naming a member. -/
def memberAt : List Bytes → JsonValue → Option JsonValue
  | [], v => some v
  | name :: names, .object ms =>
    match OrdMap.find? name ms with
    | some child => memberAt names child
    | none => none
  | _ :: _, _ => none

/-- A node that is set and is no array. -/
def IsPlainNode (v : JsonValue) : Prop := v.getTag ≠ .invalid ∧ v.getTag ≠ .array

section Strict

variable {names : List Bytes} {v u : JsonValue} {ms : List (Bytes × JsonValue)}

/-- What holds at every node holds at the root. -/
theorem all_root {p : JsonValue → Prop} (h : v.All p) : p v := by
  cases v with
  | array es => exact (all_array.mp h).1
  | object ms => exact (all_object.mp h).1
  | _ => exact h

theorem isValid_of_all (h : v.All IsPlainNode) : v.isValid = true := decide_eq_true (all_root h).1

/-- A member of a tree without arrays is one. -/
theorem all_of_find? {name : Bytes} {child : JsonValue} (h : (JsonValue.object ms).All IsPlainNode)
    (hfind : OrdMap.find? name ms = some child) : child.All IsPlainNode :=
  (all_object.mp h).2 _ (OrdMap.mem_of_find? hfind)

theorem all_of_memberAt (hv : v.All IsPlainNode) (h : memberAt names v = some u) :
    u.All IsPlainNode := by
  induction names generalizing v with
  | nil =>
    cases h
    exact hv
  | cons name names ih =>
    cases v with
    | object ms =>
      rw [memberAt] at h
      cases hfind : OrdMap.find? name ms with
      | none => simp [hfind] at h
      | some child =>
        rw [hfind] at h
        exact ih (all_of_find? hv hfind) h
    | _ => cases h

/-- Where all of the names lead, `FindValue` comes. -/
theorem findLoop_of_memberAt {found : Bool} (hfound : names = [] → found = true)
    (h : memberAt names v = some u) : JsonValue.findLoop names v found = u := by
  induction names generalizing v found with
  | nil =>
    obtain rfl : v = u := Option.some.inj h
    cases v <;> exact if_pos (hfound rfl)
  | cons name names ih =>
    cases v with
    | object ms =>
      rw [memberAt] at h
      rw [JsonValue.findLoop]
      cases hfind : OrdMap.find? name ms with
      | none => simp [hfind] at h
      | some child =>
        rw [hfind] at h
        exact ih (fun _ => rfl) h
    | _ => cases h

/-- Names that the root does not have are passed over, all of them. -/
theorem findLoop_none (h : ∀ name ∈ names, OrdMap.find? name ms = none) :
    JsonValue.findLoop names (.object ms) false = .invalid := by
  induction names with
  | nil => rfl
  | cons name names ih =>
    obtain ⟨hname, hnames⟩ := List.forall_mem_cons.mp h
    rw [JsonValue.findLoop, hname]
    exact ih hnames

/-- Once something has been found, something is returned. -/
theorem isValid_findLoop (hv : v.All IsPlainNode) :
    (JsonValue.findLoop names v true).isValid = true := by
  induction names generalizing v with
  | nil => cases v <;> exact isValid_of_all hv
  | cons name names ih =>
    cases v with
    | object ms =>
      rw [JsonValue.findLoop]
      cases hfind : OrdMap.find? name ms with
      | none => exact ih hv
      | some child => exact ih (all_of_find? hv hfind)
    | array es => exact absurd rfl (all_array.mp hv).1.2
    | _ => exact isValid_of_all hv

/-- One name that the root has is enough. -/
theorem isValid_findLoop_of_mem {name : Bytes} {child : JsonValue}
    (hv : (JsonValue.object ms).All IsPlainNode) (hname : name ∈ names)
    (hfind : OrdMap.find? name ms = some child) :
    (JsonValue.findLoop names (.object ms) false).isValid = true := by
  induction names with
  | nil => cases hname
  | cons first names ih =>
    rw [JsonValue.findLoop]
    cases hfirst : OrdMap.find? first ms with
    | some child' => exact isValid_findLoop (all_of_find? hv hfirst)
    | none =>
      rcases List.mem_cons.mp hname with rfl | hname
      · rw [hfind] at hfirst
        cases hfirst
      · exact ih hname

end Strict

/-! ### When the lookups are strict -/

/-- `FindValue` has a valid value exactly where the names lead to one, which it is then, and the
    other lookups agree with it. -/
structure LooksUpStrictly (ms : List (Bytes × JsonValue)) (keyPath : Bytes)
    (found : JsonValue) : Prop where
  find : (JsonValue.object ms).findValue keyPath = .ok found
  valid_iff : found.isValid = true ↔ (memberAt (keyPath.splitOn 0x3A) (.object ms)).isSome = true
  reached : ∀ u, memberAt (keyPath.splitOn 0x3A) (.object ms) = some u → found = u
  has : (JsonValue.object ms).hasValue keyPath = .ok found.isValid
  object_get : objectGetValue ms keyPath = .ok found
  object_has : objectHasValue ms keyPath = .ok found.isValid

section Paths

variable {ms : List (Bytes × JsonValue)} {keyPath name : Bytes} {keys : List Bytes}

/-- What follows the first name is put together and cut apart again. -/
theorem findValue_join (hsplit : keyPath.splitOn 0x3A = name :: keys) (hkeys : keys ≠ [])
    (value : JsonValue) :
    value.findValue (join keys (ascii ":")) = .ok (JsonValue.findLoop keys value false) := by
  have hcolon : ∀ key ∈ keys, 0x3A ∉ key := fun key hkey =>
    not_mem_of_mem_splitOn (hsplit ▸ List.mem_cons_of_mem name hkey)
  have hkeysSplit : split (join keys (ascii ":")) (ascii ":") = .ok keys :=
    split_join_single hkeys hcolon
  rw [JsonValue.findValue, hkeysSplit]
  rfl

theorem split_eq (hsplit : keyPath.splitOn 0x3A = name :: keys) :
    split keyPath (ascii ":") = .ok (name :: keys) := by
  rw [show ascii ":" = [0x3A] from rfl, split_single, hsplit]

/-- Without a member of the first name there is nothing. -/
theorem object_lookups_none (hsplit : keyPath.splitOn 0x3A = name :: keys)
    (hfind : OrdMap.find? name ms = none) :
    objectGetValue ms keyPath = .ok .invalid ∧ objectHasValue ms keyPath = .ok false := by
  rw [objectGetValue, objectHasValue, split_eq hsplit]
  simp only [ok_bind, hfind, pure_eq_ok, and_self]

/-- The member of the first name, or what is found in it by the other ones. -/
theorem object_lookups_some {child u : JsonValue} (hsplit : keyPath.splitOn 0x3A = name :: keys)
    (hfind : OrdMap.find? name ms = some child) (hat : memberAt keys child = some u)
    (hvalid : u.isValid = true) :
    objectGetValue ms keyPath = .ok u ∧ objectHasValue ms keyPath = .ok true := by
  rw [objectGetValue, objectHasValue, split_eq hsplit]
  simp only [ok_bind, hfind]
  by_cases hkeys : keys = []
  · subst hkeys
    obtain rfl : child = u := Option.some.inj hat
    exact ⟨rfl, rfl⟩
  · have hlength : keys.length ≠ 0 := mt List.length_eq_zero_iff.mp hkeys
    have hfound := findValue_join hsplit hkeys child
    rw [findLoop_of_memberAt (fun h => absurd h hkeys) hat] at hfound
    simp only [if_neg hlength, JsonValue.hasValue, hfound, ok_bind, hvalid, pure_eq_ok, and_self]

theorem hasValue_of_findValue {v found : JsonValue} (h : v.findValue keyPath = .ok found) :
    v.hasValue keyPath = .ok found.isValid := by
  rw [JsonValue.hasValue, h]
  rfl

/-- Where all names lead, all lookups come. -/
theorem looksUpStrictly_of_memberAt {u : JsonValue} (hplain : (JsonValue.object ms).All IsPlainNode)
    (hat : memberAt (keyPath.splitOn 0x3A) (.object ms) = some u) :
    LooksUpStrictly ms keyPath u := by
  have hvalid := isValid_of_all (all_of_memberAt hplain hat)
  have hfind := findValue_eq (.object ms) keyPath
  rw [findLoop_of_memberAt (fun h => absurd h (List.splitOn_ne_nil 0x3A keyPath)) hat] at hfind
  obtain ⟨name, keys, hsplit⟩ := List.exists_cons_of_ne_nil (List.splitOn_ne_nil 0x3A keyPath)
  have hobject : objectGetValue ms keyPath = .ok u ∧ objectHasValue ms keyPath = .ok true := by
    rw [hsplit, memberAt] at hat
    cases hfirst : OrdMap.find? name ms with
    | none => simp [hfirst] at hat
    | some child =>
      rw [hfirst] at hat
      exact object_lookups_some hsplit hfirst hat hvalid
  refine ⟨hfind, ?_, fun u' hat' => ?_, hasValue_of_findValue hfind, hobject.1, ?_⟩
  · rw [hat]
    exact ⟨fun _ => rfl, fun _ => hvalid⟩
  · exact Option.some.inj (hat.symm.trans hat')
  · rw [hobject.2, hvalid]

/-- Where no name is one of the root, all lookups find nothing. -/
theorem looksUpStrictly_of_forall_none
    (hnone : ∀ name ∈ keyPath.splitOn 0x3A, OrdMap.find? name ms = none) :
    LooksUpStrictly ms keyPath .invalid := by
  have hfind := findValue_eq (.object ms) keyPath
  rw [findLoop_none hnone] at hfind
  obtain ⟨name, keys, hsplit⟩ := List.exists_cons_of_ne_nil (List.splitOn_ne_nil 0x3A keyPath)
  rw [hsplit] at hnone
  have hfirst := hnone name List.mem_cons_self
  have hat : memberAt (keyPath.splitOn 0x3A) (.object ms) = none := by
    rw [hsplit, memberAt, hfirst]
  obtain ⟨hget, hhas⟩ := object_lookups_none hsplit hfirst
  refine ⟨hfind, ?_, fun u hu => ?_, hasValue_of_findValue hfind, hget, hhas⟩
  · rw [hat]
    decide
  · rw [hat] at hu
    cases hu

end Paths

/-- **When the lookups are strict**: either each name of the path names a member of the object
    that the names before it lead to, or no name of the path names a member of the root. -/
theorem looksUpStrictly_iff (ms : List (Bytes × JsonValue)) (keyPath : Bytes)
    (hplain : (JsonValue.object ms).All IsPlainNode) :
    (∃ found, LooksUpStrictly ms keyPath found) ↔
      (memberAt (keyPath.splitOn 0x3A) (.object ms)).isSome = true ∨
        ∀ name ∈ keyPath.splitOn 0x3A, OrdMap.find? name ms = none := by
  constructor
  · rintro ⟨found, h⟩
    obtain rfl := Except.ok.inj (h.find.symm.trans (findValue_eq (.object ms) keyPath))
    by_contra hnot
    obtain ⟨hnowhere, hsome⟩ := not_or.mp hnot
    push Not at hsome
    obtain ⟨name, hname, hmember⟩ := hsome
    obtain ⟨child, hchild⟩ := Option.ne_none_iff_exists'.mp hmember
    -- A name of the root is enough for `FindValue`, and the names do not lead anywhere.
    exact hnowhere (h.valid_iff.mp (isValid_findLoop_of_mem hplain hname hchild))
  · rintro (hsome | hnone)
    · obtain ⟨u, hat⟩ := Option.isSome_iff_exists.mp hsome
      exact ⟨u, looksUpStrictly_of_memberAt hplain hat⟩
    · exact ⟨.invalid, looksUpStrictly_of_forall_none hnone⟩

/-- Two names, the second one in the object of the first one. -/
theorem looksUpStrictly_nested : ∃ found,
    LooksUpStrictly [(ascii "a", .object [(ascii "b", .integer 7)])] (ascii "a:b") found :=
  (looksUpStrictly_iff _ _ (by simp [JsonValue.All, AllMembers, IsPlainNode, JsonValue.getTag])).mpr
    (.inl rfl)

/-- A name that there is not, in front of one that there is, and behind one: `FindValue` finds
    `a` with both of the paths. -/
theorem not_looksUpStrictly_missing :
    (¬ ∃ found, LooksUpStrictly [(ascii "a", .integer 1)] (ascii "x:a") found) ∧
    ¬ ∃ found, LooksUpStrictly [(ascii "a", .integer 1)] (ascii "a:x") found := by
  constructor
  · rintro ⟨found, h⟩
    obtain rfl := Except.ok.inj h.find
    exact absurd (h.valid_iff.mp rfl) (by decide)
  · rintro ⟨found, h⟩
    obtain rfl := Except.ok.inj h.find
    exact absurd (h.valid_iff.mp rfl) (by decide)

/-! ### `GetValue` -/

/-- `JsonValue::GetValue`: what is found is read into `value` if it has the tag. -/
def getValueOf {α : Type} (tag : Tag) (read : JsonValue → α) (json : JsonValue) (nodePath : Bytes)
    (value : α) : Except Fault (Bool × α) := do
  let found ← json.findValue nodePath
  return if found.getTag = tag then (true, read found) else (false, value)

namespace JsonValue

/-- `GetBool`. -/
def getBool : JsonValue → Bool
  | .boolean b => b
  | _ => false

/-- `GetDouble`. -/
def getDouble : JsonValue → Double
  | .double d => d
  | _ => .finite false 0

/-- `GetValue(const std::string &, std::string &)`. -/
def getValueString : JsonValue → Bytes → Bytes → Except Fault (Bool × Bytes) :=
  getValueOf .string getString

/-- `GetValue(const std::string &, std::uint32_t &)`. -/
def getValueUint32 : JsonValue → Bytes → UInt32 → Except Fault (Bool × UInt32) :=
  getValueOf .integer fun json => UInt32.ofInt json.getInteger

/-- `GetValue(const std::string &, std::uint16_t &)`. -/
def getValueUint16 : JsonValue → Bytes → UInt16 → Except Fault (Bool × UInt16) :=
  getValueOf .integer fun json => UInt16.ofInt json.getInteger

/-- `GetValue(const std::string &, std::int32_t &)`. -/
def getValueInt32 : JsonValue → Bytes → Int32 → Except Fault (Bool × Int32) :=
  getValueOf .integer fun json => Int32.ofInt json.getInteger

/-- `GetValue(const std::string &, bool &)`. -/
def getValueBool : JsonValue → Bytes → Bool → Except Fault (Bool × Bool) :=
  getValueOf .boolean getBool

/-- `GetValue(const std::string &, double &)`. -/
def getValueDouble : JsonValue → Bytes → Double → Except Fault (Bool × Double) :=
  getValueOf .double getDouble

end JsonValue

/-- `v` is the integer of `bits` bits, from `lo` on, that `n` is reduced to. -/
structure Wraps (lo : Int) (bits : Nat) (n v : Int) : Prop where
  le : lo ≤ v
  lt : v < lo + 2 ^ bits
  congr : (v - n) % 2 ^ bits = 0

/-- What is reduced stays as it is if and only if it fits. -/
theorem Wraps.eq_iff {lo n v : Int} {bits : Nat} (h : Wraps lo bits n v) :
    v = n ↔ lo ≤ n ∧ n < lo + 2 ^ bits := by
  obtain ⟨hle, hlt, hcongr⟩ := h
  constructor
  · rintro rfl
    exact ⟨hle, hlt⟩
  · rintro ⟨hle', hlt'⟩
    have habs : |v - n| < 2 ^ bits := abs_lt.mpr ⟨by omega, by omega⟩
    have hzero := Int.eq_zero_of_abs_lt_dvd (Int.dvd_of_emod_eq_zero hcongr) habs
    omega

theorem int32_wraps (n : Int) : Wraps (-2 ^ 31) 32 n (int32 n) := by
  have hle : -2 ^ 31 ≤ int32 n := Int.le_bmod (by decide)
  have hlt : int32 n < 2 ^ 31 := Int.bmod_lt (by decide)
  have hcongr : int32 n % 2 ^ 32 = n % 2 ^ 32 := Int.bmod_emod
  constructor <;> omega

/-- An integer is read modulo a power of two, whether it fits or not; anything else is not read. -/
structure ReadsWrapped {α : Type} (getValue : JsonValue → Bytes → α → Except Fault (Bool × α))
    (toInt : α → Int) (lo : Int) (bits : Nat) : Prop where
  integer : ∀ json nodePath value n, json.findValue nodePath = .ok (.integer n) →
    ∃ v, getValue json nodePath value = .ok (true, v) ∧ Wraps lo bits n (toInt v) ∧
      (toInt v = n ↔ lo ≤ n ∧ n < lo + 2 ^ bits)
  other : ∀ json nodePath value,
    (∀ n, json.findValue nodePath ≠ .ok (.integer n)) →
      getValue json nodePath value = .ok (false, value)

/-- The conversion of a 32-bit integer is all that the overloads differ in. -/
theorem readsWrapped_of_cast {α : Type} {cast : Int → α} {toInt : α → Int} {lo : Int} {bits : Nat}
    (hcast : ∀ n, Wraps lo bits n (toInt (cast (int32 n)))) :
    ReadsWrapped (getValueOf .integer fun json => cast json.getInteger) toInt lo bits where
  integer json nodePath value n hfound := by
    refine ⟨cast (int32 n), ?_, hcast n, (hcast n).eq_iff⟩
    rw [getValueOf, hfound]
    rfl
  other json nodePath value hnone := by
    rw [findValue_eq] at hnone
    rw [getValueOf, findValue_eq, ok_bind, if_neg]
    · rfl
    · intro htag
      cases hfound : JsonValue.findLoop (nodePath.splitOn 0x3A) json false with
      | integer n => exact hnone n (congrArg _ hfound)
      | _ =>
        rw [hfound] at htag
        cases htag

/-- **What an integer is read as.**  For each of the three types, `GetValue` reads the integer that
    the path leads to, reduced to the bits of the type: it is that integer if and only if it fits.
    Where the path leads to no integer, nothing is read. -/
theorem getValue_wraps :
    ReadsWrapped JsonValue.getValueUint32 (fun v => v.toNat) 0 32 ∧
    ReadsWrapped JsonValue.getValueUint16 (fun v => v.toNat) 0 16 ∧
    ReadsWrapped JsonValue.getValueInt32 Int32.toInt (-2 ^ 31) 32 := by
  -- The integer is first cut down to `int`; each width is a cast of that.
  refine ⟨readsWrapped_of_cast fun n => ?_, readsWrapped_of_cast fun n => ?_,
    readsWrapped_of_cast fun n => ?_⟩
  · have hvalue : ((UInt32.ofInt (int32 n)).toNat : Int) = int32 n % 2 ^ 32 := by
      rw [UInt32.ofInt, UInt32.toNat_ofNat']
      omega
    obtain ⟨-, -, hcongr⟩ := int32_wraps n
    rw [hvalue]
    constructor <;> omega
  · have hvalue : ((UInt16.ofInt (int32 n)).toNat : Int) = int32 n % 2 ^ 16 := by
      rw [UInt16.ofInt, UInt16.toNat_ofNat']
      omega
    obtain ⟨-, -, hcongr⟩ := int32_wraps n
    rw [hvalue]
    constructor <;> omega
  · have hvalue : (Int32.ofInt (int32 n)).toInt = int32 n := by
      rw [Int32.toInt_ofInt, int32]
      exact Int.bmod_bmod
    rw [hvalue]
    exact int32_wraps n

/-- 65543 is read as 7. -/
theorem getValueUint16_reduces : ¬ ∀ (json : JsonValue) nodePath value v n,
    json.findValue nodePath = .ok (.integer n) →
      json.getValueUint16 nodePath value = .ok (true, v) → (v.toNat : Int) = n := by
  intro h
  exact absurd (h (.object [(ascii "a", .integer 65543)]) (ascii "a") 0 7 65543 rfl rfl) (by decide)

end Icl.Json
