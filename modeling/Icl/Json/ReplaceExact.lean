import Icl.Json.Replace

namespace Icl.Json

open Icl.Cxx Icl.Util

/-!
# What a path denotes

`ReplaceValue` converts the key of an array with `operator >>`, which takes a sign, stops at the
first byte that is no digit, and leaves 0 where there is no number at all.

* `LeadsTo` — where keys lead, for a way of reading the keys of arrays;
* `Denotes` — the node that a path denotes, the keys of arrays being decimal indices;
* `replacePosition_eq_some_iff` — the node that `ReplaceValue` replaces;
* `replacesExactly_iff` — when it is the node that the path denotes.
-/

/-! ### Where keys lead -/

/-- The keys lead from a node to a position: each one names a member of the object that the keys
    before it lead to, or is read by `key` as the index of an element of the array. -/
inductive LeadsTo (key : Bytes → List JsonValue → Nat → Prop) :
    List Bytes → JsonValue → Position → Prop where
  | here (node : JsonValue) : LeadsTo key [] node []
  | member {name : Bytes} {names : List Bytes} {ms : List (Bytes × JsonValue)} {child : JsonValue}
      {position : Position} :
      OrdMap.find? name ms = some child → LeadsTo key names child position →
      LeadsTo key (name :: names) (.object ms) (.member name :: position)
  | index {name : Bytes} {names : List Bytes} {es : List JsonValue} {i : Nat} {child : JsonValue}
      {position : Position} :
      key name es i → es[i]? = some child → LeadsTo key names child position →
      LeadsTo key (name :: names) (.array es) (.index i :: position)

section LeadsTo

variable {key key' : Bytes → List JsonValue → Nat → Prop} {names : List Bytes} {node : JsonValue}
  {position : Position}

theorem LeadsTo.mono (h : LeadsTo key names node position)
    (hkey : ∀ name es i, key name es i → key' name es i) : LeadsTo key' names node position := by
  induction h with
  | here node => exact .here node
  | member hfind _ ih => exact .member hfind ih
  | index hindex hget _ ih => exact .index (hkey _ _ _ hindex) hget ih

/-- Two ways of reading that lead to one position. -/
theorem LeadsTo.and (h : LeadsTo key names node position)
    (h' : LeadsTo key' names node position) :
    LeadsTo (fun name es i => key name es i ∧ key' name es i) names node position := by
  induction h with
  | here node => exact .here node
  | member hfind _ ih =>
    cases h' with
    | member hfind' hchild =>
      obtain rfl := Option.some.inj (hfind.symm.trans hfind')
      exact .member hfind (ih hchild)
  | index hindex hget _ ih =>
    cases h' with
    | index hindex' hget' hchild =>
      obtain rfl := Option.some.inj (hget.symm.trans hget')
      exact .index ⟨hindex, hindex'⟩ hget (ih hchild)

/-- Two ways of reading that agree on the index where both of them have one. -/
theorem LeadsTo.unique {position' : Position} (h : LeadsTo key names node position)
    (h' : LeadsTo key' names node position')
    (hkey : ∀ name es i i', key name es i → key' name es i' → i = i') : position = position' := by
  induction h generalizing position' with
  | here node =>
    cases h'
    rfl
  | member hfind _ ih =>
    cases h' with
    | member hfind' hchild =>
      obtain rfl := Option.some.inj (hfind.symm.trans hfind')
      rw [ih hchild]
  | index hindex hget _ ih =>
    cases h' with
    | index hindex' hget' hchild =>
      obtain rfl := hkey _ _ _ _ hindex hindex'
      obtain rfl := Option.some.inj (hget.symm.trans hget')
      rw [ih hchild]

end LeadsTo

/-! ### Keys of arrays -/

/-- A decimal number. -/
def IsDecimal (name : Bytes) : Prop := name ≠ [] ∧ ∀ c ∈ name, isdigit c = true

/-- The key is the decimal index. -/
def decimalKey (name : Bytes) (_ : List JsonValue) (i : Nat) : Prop :=
  IsDecimal name ∧ digitsValue name = i

/-- `operator >>` makes the index of the key, and it is below `Size()`. -/
def extractedKey (name : Bytes) (es : List JsonValue) (i : Nat) : Prop :=
  fromStringUint32 0 name = i ∧ i < es.length % 2 ^ 32

/-- The index is below `Size()`, which has 32 bits. -/
def insideKey (_ : Bytes) (es : List JsonValue) (i : Nat) : Prop := i < es.length % 2 ^ 32

/-- Of a decimal number `operator >>` makes its value, unless that is too large for any array. -/
theorem extractedKey_iff {name : Bytes} (h : IsDecimal name) (es : List JsonValue) (i : Nat) :
    extractedKey name es i ↔ digitsValue name = i ∧ insideKey name es i := by
  have hlt : es.length % 2 ^ 32 < 2 ^ 32 := Nat.mod_lt _ (by decide)
  rw [extractedKey, insideKey, fromStringUint32_digits _ h.1 h.2]
  split_ifs with hlarge
  · constructor
    · rintro ⟨rfl, hinside⟩
      omega
    · rintro ⟨rfl, hinside⟩
      omega
  · rfl

theorem extractedKey_of_decimal {name : Bytes} {es : List JsonValue} {i : Nat}
    (h : decimalKey name es i ∧ insideKey name es i) : extractedKey name es i :=
  (extractedKey_iff h.1.1 es i).mpr ⟨h.1.2, h.2⟩

theorem decimalKey_of_extracted {name : Bytes} {es : List JsonValue} {i : Nat}
    (h : extractedKey name es i ∧ IsDecimal name) : decimalKey name es i :=
  ⟨h.2, ((extractedKey_iff h.2 es i).mp h.1).1⟩

/-- A decimal number is read as one index only. -/
theorem index_unique {name : Bytes} {es : List JsonValue} {i i' : Nat}
    (h : extractedKey name es i) (h' : decimalKey name es i') : i = i' :=
  ((extractedKey_iff h'.1 es i).mp h).1.symm.trans h'.2

/-- **The node that `ReplaceValue` replaces** is the one to which the keys lead as `operator >>`
    reads them. -/
theorem replacePosition_eq_some_iff {names : List Bytes} {node : JsonValue}
    {position : Position} :
    replacePosition names node = some position ↔ LeadsTo extractedKey names node position := by
  constructor
  · intro h
    -- Along the names of the path, as the recursion of the source goes.
    induction names generalizing node position with
    | nil =>
      cases h
      exact .here node
    | cons name names ih =>
      cases node with
      | object ms =>
        rw [replacePosition] at h
        cases hfind : OrdMap.find? name ms with
        | none => simp [hfind] at h
        | some child =>
          rw [hfind] at h
          obtain ⟨rest, hrest, rfl⟩ := Option.map_eq_some_iff.mp h
          exact .member hfind (ih hrest)
      | array es =>
        rw [replacePosition] at h
        split_ifs at h with hindex
        cases hget : es[fromStringUint32 0 name]? with
        | none => simp [hget] at h
        | some child =>
          rw [hget] at h
          obtain ⟨rest, hrest, rfl⟩ := Option.map_eq_some_iff.mp h
          exact .index ⟨rfl, hindex⟩ hget (ih hrest)
      | _ => cases h
  · intro h
    induction h with
    | here node => cases node <;> rfl
    | member hfind _ ih =>
      rw [replacePosition, hfind]
      exact Option.map_eq_some_iff.mpr ⟨_, ih, rfl⟩
    | index hindex hget _ ih =>
      obtain ⟨rfl, hinside⟩ := hindex
      rw [replacePosition, if_pos hinside, hget]
      exact Option.map_eq_some_iff.mpr ⟨_, ih, rfl⟩

/-! ### Exactness -/

/-- The path denotes the node at the position. -/
def Denotes (keyPath : Bytes) (node : JsonValue) (position : Position) : Prop :=
  LeadsTo decimalKey (keyPath.splitOn 0x3A) node position

/-- `ReplaceValue` replaces the node that the path denotes and nothing else, and leaves the tree as
    it is if there is none. -/
def ReplacesExactly (node : JsonValue) (keyPath : Bytes) : Prop :=
  ∀ v, ∃ ret node', node.replaceValue keyPath v = .ok (ret, node') ∧
    (ret = true ↔ ∃ position, Denotes keyPath node position) ∧
    (ret = true → ∀ position, Denotes keyPath node position → node' = setAt v position node) ∧
    (ret = false → node' = node)

section Exact

variable {node : JsonValue} {keyPath : Bytes}

/-- The node that is replaced is the one that the path denotes, if it denotes one. -/
theorem Denotes.eq_replaced {position position' : Position}
    (hdenotes : Denotes keyPath node position')
    (hleads : LeadsTo extractedKey (keyPath.splitOn 0x3A) node position) : position = position' :=
  hleads.unique hdenotes fun _ _ _ _ => index_unique

/-- A replacement is exact if the node that is replaced and the one that the path denotes are the
    same, or there is neither of them. -/
theorem replacesExactly_iff_denotes : ReplacesExactly node keyPath ↔
    ∀ position, LeadsTo extractedKey (keyPath.splitOn 0x3A) node position ↔
      Denotes keyPath node position := by
  constructor
  · intro hexact position
    -- One value is enough to see which position is replaced.
    obtain ⟨ret, node', hreplace, hret, -⟩ := hexact .null
    rw [replaceValue_eq, replaced] at hreplace
    constructor
    · intro hleads
      rw [replacePosition_eq_some_iff.mpr hleads] at hreplace
      obtain ⟨rfl, -⟩ : true = ret ∧ _ := by simpa using hreplace
      obtain ⟨position', hdenotes⟩ := hret.mp rfl
      obtain rfl := hdenotes.eq_replaced hleads
      exact hdenotes
    · intro hdenotes
      cases hplace : replacePosition (keyPath.splitOn 0x3A) node with
      | none =>
        rw [hplace] at hreplace
        obtain ⟨rfl, -⟩ : false = ret ∧ _ := by simpa using hreplace
        exact absurd (hret.mpr ⟨position, hdenotes⟩) (by decide)
      | some position' =>
        have hleads := replacePosition_eq_some_iff.mp hplace
        obtain rfl := hdenotes.eq_replaced hleads
        exact hleads
  · intro hsame v
    rw [replaceValue_eq, replaced]
    cases hplace : replacePosition (keyPath.splitOn 0x3A) node with
    | none =>
      have hnone : ¬ ∃ position, Denotes keyPath node position := by
        rintro ⟨position, hdenotes⟩
        rw [replacePosition_eq_some_iff.mpr ((hsame position).mpr hdenotes)] at hplace
        cases hplace
      exact ⟨false, node, rfl, by simp [hnone], by simp, fun _ => rfl⟩
    | some position =>
      have hleads := replacePosition_eq_some_iff.mp hplace
      have hdenotes := (hsame position).mp hleads
      refine ⟨true, setAt v position node, rfl, by simp [Exists.intro position hdenotes],
        fun _ position' hdenotes' => ?_, by simp⟩
      rw [hdenotes'.eq_replaced hleads]

end Exact

/-- **When a replacement is exact**: an array key that leads to a node as `operator >>` reads it is
    a decimal number, and `Size()` does not lose any array on the way to the node that the path
    denotes. -/
theorem replacesExactly_iff (node : JsonValue) (keyPath : Bytes) :
    ReplacesExactly node keyPath ↔
      (∀ position, LeadsTo extractedKey (keyPath.splitOn 0x3A) node position →
        LeadsTo (fun name _ _ => IsDecimal name) (keyPath.splitOn 0x3A) node position) ∧
      (∀ position, LeadsTo decimalKey (keyPath.splitOn 0x3A) node position →
        LeadsTo insideKey (keyPath.splitOn 0x3A) node position) := by
  rw [replacesExactly_iff_denotes]
  constructor
  · intro hsame
    constructor
    · intro position hleads
      exact ((hsame position).mp hleads).mono fun _ _ _ h => h.1
    · intro position hdenotes
      exact ((hsame position).mpr hdenotes).mono fun _ _ _ h => h.2
  · rintro ⟨hdecimal, hinside⟩ position
    constructor
    · intro hleads
      exact (hleads.and (hdecimal position hleads)).mono fun _ _ _ => decimalKey_of_extracted
    · intro hdenotes
      exact (hdenotes.and (hinside position hdenotes)).mono fun _ _ _ => extractedKey_of_decimal

/-- A key that is no number replaces the first element. -/
theorem not_replacesExactly_word : ¬ ReplacesExactly (.array [.null]) (ascii "abc") := by
  intro h
  obtain ⟨ret, node', hreplace, hret, -⟩ := h (.integer 7)
  obtain rfl : true = ret := congrArg Prod.fst (Except.ok.inj hreplace)
  obtain ⟨position, hdenotes⟩ := hret.mp rfl
  cases hdenotes with
  | index hkey _ _ => exact absurd (hkey.1.2 0x61 List.mem_cons_self) (by decide)

end Icl.Json
