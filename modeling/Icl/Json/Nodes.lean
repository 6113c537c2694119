import Icl.Json.Scan

namespace Icl.Json

open Icl.Cxx Icl.Format

/-!
# Properties of the nodes of a tree

* `JsonValue.All` — a property holds at every node;
* `JsonValue.ind` — induction on a tree, by its nodes;
* `IsTree` — the trees of objects, arrays, strings, booleans, nulls and 64-bit integers;
* `Quiet` — the trees whose strings and names are written so that they can be read back;
* `SumsUp` — the integers that survive the sum of their digits;
* `Exact` — the trees whose integers do and whose names are not empty.
-/

/-! ### Every node -/

mutual

/-- The property holds at every node. -/
def JsonValue.All (p : JsonValue → Prop) : JsonValue → Prop
  | .array vs => p (.array vs) ∧ AllElements p vs
  | .object ms => p (.object ms) ∧ AllMembers p ms
  | v => p v

/-- The same for the elements of an array. -/
def AllElements (p : JsonValue → Prop) : List JsonValue → Prop
  | [] => True
  | v :: vs => v.All p ∧ AllElements p vs

/-- The same for the members of an object. -/
def AllMembers (p : JsonValue → Prop) : List (Bytes × JsonValue) → Prop
  | [] => True
  | (_, v) :: ms => v.All p ∧ AllMembers p ms

end

section All

variable {p q : JsonValue → Prop}

/-- The mutual recursion over the elements of an array says: all of them. -/
theorem allElements_iff {vs : List JsonValue} : AllElements p vs ↔ ∀ v ∈ vs, v.All p := by
  induction vs with
  | nil => simp [AllElements]
  | cons v vs ih => simp [AllElements, ih]

/-- And over the members of an object: all of their values. -/
theorem allMembers_iff {ms : List (Bytes × JsonValue)} :
    AllMembers p ms ↔ ∀ e ∈ ms, e.2.All p := by
  induction ms with
  | nil => simp [AllMembers]
  | cons e ms ih =>
    obtain ⟨name, v⟩ := e
    rw [AllMembers, ih, List.forall_mem_cons]

/-- `p` holds throughout an array when it holds of the array and throughout its elements. -/
theorem all_array {vs : List JsonValue} :
    (JsonValue.array vs).All p ↔ p (.array vs) ∧ ∀ v ∈ vs, v.All p := by
  rw [JsonValue.All, allElements_iff]

/-- `p` holds throughout an object when it holds of the object and throughout its members. -/
theorem all_object {ms : List (Bytes × JsonValue)} :
    (JsonValue.object ms).All p ↔ p (.object ms) ∧ ∀ e ∈ ms, e.2.All p := by
  rw [JsonValue.All, allMembers_iff]

end All

/-- A value without entries. -/
def JsonValue.IsLeaf : JsonValue → Prop
  | .array _ | .object _ => False
  | _ => True

/-- A value with entries. -/
def JsonValue.IsContainer (v : JsonValue) : Prop := ¬ v.IsLeaf

/-- A leaf has no other node than itself. -/
theorem all_leaf {p : JsonValue → Prop} {v : JsonValue} (h : v.IsLeaf) : v.All p ↔ p v := by
  cases v with
  | array _ => cases h
  | object _ => cases h
  | _ => rfl

mutual

/-- **Induction on a tree.** -/
theorem JsonValue.ind {P : JsonValue → Prop} (leaf : ∀ v : JsonValue, v.IsLeaf → P v)
    (array : ∀ vs, (∀ v ∈ vs, P v) → P (.array vs))
    (object : ∀ ms : List (Bytes × JsonValue), (∀ e ∈ ms, P e.2) → P (.object ms)) : ∀ v, P v
  | .array vs => array vs (elements_ind leaf array object vs)
  | .object ms => object ms (members_ind leaf array object ms)
  | .invalid => leaf _ trivial
  | .integer _ => leaf _ trivial
  | .double _ => leaf _ trivial
  | .boolean _ => leaf _ trivial
  | .string _ => leaf _ trivial
  | .null => leaf _ trivial

/-- **Induction over the elements of arrays**: a leaf, an object as it is, or an array all of whose
    elements are done. -/
theorem elements_ind {P : JsonValue → Prop} (leaf : ∀ v : JsonValue, v.IsLeaf → P v)
    (array : ∀ vs, (∀ v ∈ vs, P v) → P (.array vs))
    (object : ∀ ms : List (Bytes × JsonValue), (∀ e ∈ ms, P e.2) → P (.object ms)) :
    ∀ vs : List JsonValue, ∀ v ∈ vs, P v
  | [] => by simp
  | v :: vs => List.forall_mem_cons.mpr
      ⟨JsonValue.ind leaf array object v, elements_ind leaf array object vs⟩

/-- **Induction over the members of objects**, arrays as they are. -/
theorem members_ind {P : JsonValue → Prop} (leaf : ∀ v : JsonValue, v.IsLeaf → P v)
    (array : ∀ vs, (∀ v ∈ vs, P v) → P (.array vs))
    (object : ∀ ms : List (Bytes × JsonValue), (∀ e ∈ ms, P e.2) → P (.object ms)) :
    ∀ ms : List (Bytes × JsonValue), ∀ e ∈ ms, P e.2
  | [] => by simp
  | (_, v) :: ms => List.forall_mem_cons.mpr
      ⟨JsonValue.ind leaf array object v, members_ind leaf array object ms⟩

end

/-! ### Which trees -/

/-- A node of the trees in question; the members of an object are in the order of their names. -/
def IsTreeNode : JsonValue → Prop
  | .object members => OrdMap.Sorted members
  | .integer n => -(2 ^ 63) ≤ n ∧ n < 2 ^ 63
  | .invalid | .double _ => False
  | _ => True

/-- A tree of objects, arrays, strings, booleans, nulls and 64-bit integers. -/
def IsTree (v : JsonValue) : Prop := v.All IsTreeNode

/-- The digits of a natural number. -/
theorem digits_decimal (n : Nat) : Digits (decimal n) := by
  intro c hc
  unfold decimal at hc
  split_ifs at hc with hzero
  · obtain rfl : c = 0x30 := by simpa using hc
    rfl
  · simp only [List.mem_map, List.mem_reverse] at hc
    obtain ⟨d, hd, rfl⟩ := hc
    have hlt : d < 10 := Nat.digits_lt_base (by decide) hd
    have hall : ∀ d < 10, isdigit (UInt8.ofNat (0x30 + d)) = true := by decide
    exact hall d hlt

/-- Every number has at least one digit. -/
theorem decimal_ne_nil (n : Nat) : decimal n ≠ [] := by
  unfold decimal
  split_ifs with hzero
  · simp
  · simpa using Nat.digits_ne_nil_iff_ne_zero.mpr hzero

/-- A character that needs no escape but perhaps a doubled backslash. -/
def IsQuiet (c : UInt8) : Prop := c ≠ 0x22 ∧ iscntrl c = false

instance decidableIsQuiet : DecidablePred IsQuiet :=
  fun c => inferInstanceAs (Decidable (c ≠ 0x22 ∧ iscntrl c = false))

/-- The strings of the node are written so that they can be read back. -/
def QuietNode : JsonValue → Prop
  | .string s => ∀ c ∈ s, IsQuiet c
  | .object members => ∀ e ∈ members, ∀ c ∈ e.1, IsQuiet c ∧ c ≠ 0x5C
  | _ => True

/-- No string holds a quote or a control character, no name moreover a backslash. -/
def Quiet (v : JsonValue) : Prop := v.All QuietNode

/-- What an integer becomes when its decimal digits are added up in a `double`. -/
def rereadInt (n : Int) : Int :=
  let r := intValue (.ofNat 0) (decimal n.natAbs)
  (if n < 0 then r.neg else r).toInt64

/-- The digits of an integer, added up in a `double`, make up the integer again. -/
def SumsUp (n : Int) : Prop := rereadInt n = n

/-- The integers and the names of the node survive. -/
def ExactNode : JsonValue → Prop
  | .integer n => SumsUp n
  | .object members => ∀ e ∈ members, e.1 ≠ []
  | _ => True

/-- Every integer sums up, and no name is empty. -/
def Exact (v : JsonValue) : Prop := v.All ExactNode

end Icl.Json
