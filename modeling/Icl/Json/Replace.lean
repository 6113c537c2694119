import Icl.Json.Position

namespace Icl.Json

open Icl.Cxx Icl.Util

/-!
# Replacing a value by its path

The model of `ReplaceValue` of `json/JsonValue.cpp`, and how far `FindValue` finds what it has
written.  The one takes a name of the path for an index when it comes to an array; the other one
looks for the first element that has a member of that name, and passes over a name that it does
not find.

* `replacePosition` — the position at which `ReplaceValue` writes;
* `findPosition` — the position to which `FindValue` comes with the last name of the path;
* `paths_agree_iff` — what is written is found exactly when the two are the same.
-/

/-! ### `ReplaceValue` -/

/-- `JsonObject::ReplaceValue`; `recur` is the call of `JsonValue::ReplaceValue` on a member. -/
def objectReplaceValue (recur : JsonValue → Bytes → Except Fault (Bool × JsonValue))
    (members : List (Bytes × JsonValue)) (keyPath : Bytes) (value : JsonValue) :
    Except Fault (Bool × List (Bytes × JsonValue)) := do
  match ← split keyPath (ascii ":") with
  | [] => .error (.outOfBounds 0 0)
  | name :: keys =>
    match OrdMap.find? name members with
    | none => return (false, members)
    | some child =>
      if keys.length = 0 then return (true, OrdMap.assign name value members)
      else
        let (ret, child) ← recur child (join keys (ascii ":"))
        return (ret, OrdMap.assign name child members)

/-- `JsonArray::ReplaceValue`; `recur` is the call of `JsonValue::ReplaceValue` on an element.
    `Size` has 32 bits, as the index has. -/
def arrayReplaceValue (recur : JsonValue → Bytes → Except Fault (Bool × JsonValue))
    (elements : List JsonValue) (keyPath : Bytes) (value : JsonValue) :
    Except Fault (Bool × List JsonValue) := do
  match ← split keyPath (ascii ":") with
  | [] => .error (.outOfBounds 0 0)
  | name :: keys =>
    let index := fromStringUint32 0 name
    if index < elements.length % 2 ^ 32 then
      if keys.length = 0 then return (true, elements.set index value)
      else
        match elements[index]? with
        | none => .error (.outOfBounds index elements.length)
        | some child =>
          let (ret, child) ← recur child (join keys (ascii ":"))
          return (ret, elements.set index child)
    else return (false, elements)

namespace JsonValue

/-- `JsonValue::ReplaceValue`, each call on an entry with a path that is one name shorter. -/
def replaceLoop (value : JsonValue) : Nat → JsonValue → Bytes → Except Fault (Bool × JsonValue)
  | 0, _, _ => .error .endlessLoop
  | fuel + 1, .object members, keyPath => do
    let (ret, members) ← objectReplaceValue (replaceLoop value fuel) members keyPath value
    return (ret, .object members)
  | fuel + 1, .array elements, keyPath => do
    let (ret, elements) ← arrayReplaceValue (replaceLoop value fuel) elements keyPath value
    return (ret, .array elements)
  | _ + 1, node, _ => return (false, node)

/-- `JsonValue::ReplaceValue`: the result, and the tree afterwards.  A path has at most one name
    more than it has bytes. -/
def replaceValue (node : JsonValue) (keyPath : Bytes) (value : JsonValue) :
    Except Fault (Bool × JsonValue) :=
  replaceLoop value (keyPath.length + 1) node keyPath

end JsonValue

/-- An element of an array is replaced, and a member of the element. -/
example : (JsonValue.array [.null, .object [(ascii "a", .null)]]).replaceValue (ascii "1:a")
      (.integer 7)
    = .ok (true, .array [.null, .object [(ascii "a", .integer 7)]]) := by rfl

/-! ### Where it writes -/

/-- The position at which `ReplaceValue` writes, if it does. -/
def replacePosition : List Bytes → JsonValue → Option Position
  | [], _ => some []
  | name :: names, .object ms =>
    match OrdMap.find? name ms with
    | none => none
    | some child => (replacePosition names child).map (.member name :: ·)
  | name :: names, .array es =>
    if fromStringUint32 0 name < es.length % 2 ^ 32 then
      match es[fromStringUint32 0 name]? with
      | none => none
      | some child => (replacePosition names child).map (.index (fromStringUint32 0 name) :: ·)
    else none
  | _ :: _, _ => none

/-- Where `ReplaceValue` writes there is a node. -/
theorem hasPosition_of_replacePosition {names : List Bytes} {node : JsonValue} {position : Position}
    (h : replacePosition names node = some position) : HasPosition position node := by
  -- Along the names, as the recursion of the source goes.
  induction names generalizing node position with
  | nil =>
    cases h
    exact .here node
  | cons name names ih =>
    cases node with
    | object ms =>
      rw [replacePosition] at h
      split at h
      · cases h
      · rename_i child hfind
        obtain ⟨position', hpos, rfl⟩ := Option.map_eq_some_iff.mp h
        exact .member hfind (ih hpos)
    | array es =>
      rw [replacePosition] at h
      split_ifs at h with hindex
      split at h
      · cases h
      · rename_i child hget
        obtain ⟨position', hpos, rfl⟩ := Option.map_eq_some_iff.mp h
        obtain ⟨hlt, rfl⟩ := List.getElem?_eq_some_iff.mp hget
        have hsplit := HasPosition.index (es.take (fromStringUint32 0 name))
          (es.drop (fromStringUint32 0 name + 1)) (ih hpos)
        rwa [List.length_take_of_le hlt.le, List.getElem_cons_drop, List.take_append_drop] at hsplit
    | _ => cases h

theorem replacePosition_ne_nil {names : List Bytes} {node : JsonValue} {position : Position}
    (hne : names ≠ []) (h : replacePosition names node = some position) : position ≠ [] := by
  obtain ⟨name, names, rfl⟩ := List.exists_cons_of_ne_nil hne
  rintro rfl
  cases node with
  | object ms =>
    rw [replacePosition] at h
    cases hfind : OrdMap.find? name ms <;> simp [hfind] at h
  | array es =>
    rw [replacePosition] at h
    cases hget : es[fromStringUint32 0 name]? <;> simp [hget] at h
  | _ => cases h

/-- What `ReplaceValue` returns and leaves. -/
def replaced (value : JsonValue) (names : List Bytes) (node : JsonValue) : Bool × JsonValue :=
  match replacePosition names node with
  | some position => (true, setAt value position node)
  | none => (false, node)

/-- **One call for each name.** -/
theorem replaceLoop_eq (value : JsonValue) {fuel : Nat} {names : List Bytes} (node : JsonValue)
    (hne : names ≠ []) (hcolon : ∀ name ∈ names, 0x3A ∉ name) (hfuel : names.length ≤ fuel) :
    JsonValue.replaceLoop value fuel node (join names (ascii ":"))
      = .ok (replaced value names node) := by
  induction names generalizing fuel node with
  | nil => exact absurd rfl hne
  | cons name names ih =>
    obtain ⟨fuel, rfl⟩ : ∃ n, fuel = n + 1 := ⟨fuel - 1, by simp at hfuel; omega⟩
    have hsplit : split (join (name :: names) (ascii ":")) (ascii ":") = .ok (name :: names) :=
      split_join_single hne hcolon
    have hrest : names ≠ [] → ∀ child, JsonValue.replaceLoop value fuel child
        (join names (ascii ":")) = .ok (replaced value names child) := fun hnames child =>
      ih child hnames (fun n hn => hcolon n (List.mem_cons_of_mem _ hn)) (by simpa using hfuel)
    cases node with
    | object ms =>
      rw [JsonValue.replaceLoop, objectReplaceValue, hsplit, ok_bind, replaced, replacePosition]
      cases hfind : OrdMap.find? name ms with
      | none => simp [hfind]
      | some child =>
        by_cases hnames : names = []
        · subst hnames
          simp [hfind, replacePosition, setAt_member value hfind]
        · have hlength : names.length ≠ 0 := by simpa using hnames
          simp only [hfind, if_neg hlength, hrest hnames child, ok_bind, replaced]
          -- Where nothing is written, what was there is assigned again.
          cases hpos : replacePosition names child with
          | none => simp [OrdMap.assign_of_find? hfind]
          | some position => simp [setAt_member value hfind]
    | array es =>
      rw [JsonValue.replaceLoop, arrayReplaceValue, hsplit, ok_bind, replaced, replacePosition]
      by_cases hindex : fromStringUint32 0 name < es.length % 2 ^ 32
      · have hlt : fromStringUint32 0 name < es.length := hindex.trans_le (Nat.mod_le _ _)
        have hget := List.getElem?_eq_getElem hlt
        simp only [if_pos hindex, hget]
        by_cases hnames : names = []
        · subst hnames
          simp [replacePosition, setAt, hget]
        · have hlength : names.length ≠ 0 := by simpa using hnames
          simp only [if_neg hlength, hrest hnames, ok_bind, replaced]
          cases hpos : replacePosition names es[fromStringUint32 0 name] with
          | none => simp
          | some position => simp [setAt, hget]
      · simp only [if_neg hindex]
        rfl
    | _ => rfl

/-- **What `ReplaceValue` does.** -/
theorem replaceValue_eq (node : JsonValue) (keyPath : Bytes) (value : JsonValue) :
    node.replaceValue keyPath value = .ok (replaced value (keyPath.splitOn 0x3A) node) := by
  have hjoin : join (keyPath.splitOn 0x3A) (ascii ":") = keyPath := List.intercalate_splitOn 0x3A
  have hloop := replaceLoop_eq value node (List.splitOn_ne_nil 0x3A keyPath)
    (fun _ => not_mem_of_mem_splitOn) (length_splitOn_le 0x3A keyPath)
  rwa [hjoin] at hloop

/-! ### Where `FindValue` looks -/

/-- The position to which `FindValue` comes with the last of the names; none if that name, `moved`
    telling of the one before, is not found.  A name that is not found is passed over. -/
def findPosition : List Bytes → JsonValue → Bool → Option Position
  | [], _, moved => if moved then some [] else none
  | name :: names, .object ms, _ =>
    match OrdMap.find? name ms with
    | some child => (findPosition names child true).map (.member name :: ·)
    | none => findPosition names (.object ms) false
  | name :: names, .array es, _ =>
    match firstWith name es with
    | some (i, child) => (findPosition names child true).map (.index i :: .member name :: ·)
    | none => findPosition names (.array es) false
  | _ :: _, _, _ => none

/-- From an object it goes on to a member. -/
theorem findPosition_object {names : List Bytes} {ms : List (Bytes × JsonValue)}
    {position : Position} (h : findPosition names (.object ms) false = some position) :
    ∃ name rest, position = .member name :: rest := by
  induction names with
  | nil => cases h
  | cons name names ih =>
    rw [findPosition] at h
    split at h
    · obtain ⟨rest, -, rfl⟩ := Option.map_eq_some_iff.mp h
      exact ⟨name, rest, rfl⟩
    · exact ih h

/-- From an array it goes on to a member of an element. -/
theorem findPosition_array {names : List Bytes} {es : List JsonValue} {position : Position}
    (h : findPosition names (.array es) false = some position) :
    ∃ i name rest, position = .index i :: .member name :: rest := by
  induction names with
  | nil => cases h
  | cons name names ih =>
    rw [findPosition] at h
    split at h
    · rename_i i child _
      obtain ⟨rest, -, rfl⟩ := Option.map_eq_some_iff.mp h
      exact ⟨i, name, rest, rfl⟩
    · exact ih h

/-- A name that the array has in some element. -/
theorem findLoop_array (name : Bytes) (names : List Bytes) (es : List JsonValue) (found : Bool) :
    JsonValue.findLoop (name :: names) (.array es) found
      = match firstWith name es with
        | some (_, child) => JsonValue.findLoop names child true
        | none => JsonValue.findLoop names (.array es) found := by
  rw [JsonValue.findLoop, findSome?_eq_firstWith]
  cases firstWith name es <;> rfl

/-- There is a node at the position. -/
theorem hasPosition_of_findPosition {names : List Bytes} {node : JsonValue} {moved : Bool}
    {position : Position} (h : findPosition names node moved = some position) :
    HasPosition position node := by
  -- Along the names; one that leads nowhere is skipped.
  induction names generalizing node moved position with
  | nil =>
    rw [findPosition] at h
    split_ifs at h
    cases h
    exact .here node
  | cons name names ih =>
    cases node with
    | object ms =>
      rw [findPosition] at h
      split at h
      · rename_i child hfind
        obtain ⟨rest, hrest, rfl⟩ := Option.map_eq_some_iff.mp h
        exact .member hfind (ih hrest)
      · exact ih h
    | array es =>
      rw [findPosition] at h
      split at h
      · rename_i i child hfirst
        obtain ⟨rest, hrest, rfl⟩ := Option.map_eq_some_iff.mp h
        obtain ⟨pre, ms, post, rfl, rfl, -, hfind⟩ := firstWith_eq_some hfirst
        exact .index pre post (.member hfind (ih hrest))
      · exact ih h
    | _ => cases h

/-- A name that the object does not have is passed over in the new tree too. -/
theorem findLoop_setAt_object (v : JsonValue) {name name' : Bytes} {ms : List (Bytes × JsonValue)}
    {child : JsonValue} (hnone : OrdMap.find? name ms = none)
    (hfind : OrdMap.find? name' ms = some child) (rest : Position) (names : List Bytes)
    (found : Bool) :
    JsonValue.findLoop (name :: names) (setAt v (.member name' :: rest) (.object ms)) found
      = JsonValue.findLoop names (setAt v (.member name' :: rest) (.object ms)) found := by
  have hne : name ≠ name' := by
    rintro rfl
    rw [hnone] at hfind
    cases hfind
  rw [setAt_member v hfind, JsonValue.findLoop, OrdMap.find?_assign, if_neg hne, hnone]

/-- So is one that no element of the array has. -/
theorem findLoop_setAt_array (v : JsonValue) {name name' : Bytes} {pre post : List JsonValue}
    {child : JsonValue} {rest : Position}
    (hnone : firstWith name (pre ++ child :: post) = none)
    (hchild : HasPosition (.member name' :: rest) child) (names : List Bytes) (found : Bool) :
    JsonValue.findLoop (name :: names)
        (setAt v (.index pre.length :: .member name' :: rest) (.array (pre ++ child :: post))) found
      = JsonValue.findLoop names
        (setAt v (.index pre.length :: .member name' :: rest) (.array (pre ++ child :: post)))
        found := by
  -- The element in which the position is has no such member either.
  have hmember : OrdMap.find? name child.members = none := by
    rw [firstWith_append, Option.or_eq_none_iff, firstWith] at hnone
    cases hc : OrdMap.find? name child.members with
    | none => rfl
    | some _ => simp [hc] at hnone
  have hne : ∀ rest', .member name' :: rest ≠ Step.member name :: rest' := by
    rintro rest' heq
    cases heq
    cases hchild with
    | member hfind _ =>
      rw [JsonValue.members, hfind] at hmember
      cases hmember
  have hsame : OrdMap.find? name (setAt v (.member name' :: rest) child).members
      = OrdMap.find? name child.members := find?_members_setAt v hchild (by simp) hne
  rw [setAt_index, findLoop_array, firstWith_congr hsame, hnone]

/-- **What stands at the position is found.** -/
theorem findLoop_setAt (v : JsonValue) {names : List Bytes} {node : JsonValue} {moved found : Bool}
    {position : Position} (h : findPosition names node moved = some position)
    (hfound : moved = true → found = true) :
    JsonValue.findLoop names (setAt v position node) found = v := by
  induction names generalizing node moved found position with
  | nil =>
    rw [findPosition] at h
    split_ifs at h with hmoved
    cases h
    rw [setAt_nil]
    cases v <;> simp [JsonValue.findLoop, hfound hmoved]
  | cons name names ih =>
    have hpos := hasPosition_of_findPosition h
    cases node with
    | object ms =>
      rw [findPosition] at h
      cases hfind : OrdMap.find? name ms with
      | some child =>
        rw [hfind] at h
        obtain ⟨rest, hrest, rfl⟩ := Option.map_eq_some_iff.mp h
        rw [setAt_member v hfind, JsonValue.findLoop, OrdMap.find?_assign, if_pos rfl, hfind]
        exact ih hrest fun _ => rfl
      | none =>
        rw [hfind] at h
        obtain ⟨name', rest, rfl⟩ := findPosition_object h
        cases hpos with
        | member hfind' _ =>
          rw [findLoop_setAt_object v hfind hfind']
          exact ih h (by simp)
    | array es =>
      rw [findPosition] at h
      cases hfirst : firstWith name es with
      | some entry =>
        obtain ⟨i, child⟩ := entry
        rw [hfirst] at h
        obtain ⟨rest, hrest, rfl⟩ := Option.map_eq_some_iff.mp h
        obtain ⟨pre, ms, post, rfl, rfl, hpre, hfind⟩ := firstWith_eq_some hfirst
        rw [setAt_index, setAt_member v hfind, findLoop_array, firstWith_middle hpre,
          JsonValue.members, OrdMap.find?_assign, if_pos rfl, hfind]
        exact ih hrest fun _ => rfl
      | none =>
        rw [hfirst] at h
        obtain ⟨i, name', rest, rfl⟩ := findPosition_array h
        obtain ⟨pre, child, post, rfl, rfl, hchild⟩ := hasPosition_index_iff.mp hpos
        rw [findLoop_setAt_array v hfirst hchild]
        exact ih h (by simp)
    | _ => cases h

/-! ### Telling positions apart -/

/-- An object that has `b` under each of the names. -/
def probe (names : List Bytes) (b : Bool) : JsonValue :=
  .object (OrdMap.insertAll (names.map fun name => (name, .boolean b)) [])

section Probe

variable {name : Bytes} {names : List Bytes}

theorem find?_probe (h : name ∈ names) (b : Bool) :
    OrdMap.find? name (probe names b).members = some (.boolean b) := by
  rw [probe, JsonValue.members, OrdMap.find?_insertAll _ _ OrdMap.sorted_nil, OrdMap.find?,
    Option.none_or]
  induction names with
  | nil => cases h
  | cons first names ih =>
    rw [List.map_cons, OrdMap.find?]
    split_ifs with hfirst
    · rfl
    · exact ih ((List.mem_cons.mp h).resolve_left hfirst)

theorem probe_ne (h : name ∈ names) : probe names true ≠ probe names false := by
  intro heq
  have htrue := find?_probe h true
  rw [heq, find?_probe h false] at htrue
  cases htrue

/-- In the object itself there is no way back to it. -/
theorem findLoop_probe (h : name ∈ names) (rest : List Bytes) (b found : Bool) :
    JsonValue.findLoop (name :: rest) (probe names b) found ≠ probe names b := by
  have hfind := find?_probe h b
  rw [probe] at hfind ⊢
  rw [JsonValue.findLoop]
  rw [JsonValue.members] at hfind
  rw [hfind]
  cases rest <;> simp [JsonValue.findLoop]

end Probe

/-! ### What is found tells the position -/

/-- Two objects that each of the names in `all` tells apart are both found where they are put. -/
def FoundAt (all names : List Bytes) (position : Position) (node : JsonValue) : Prop :=
  ∀ b, ∃ found, JsonValue.findLoop names (setAt (probe all b) position node) found = probe all b

namespace FoundAt

variable {all names : List Bytes} {name : Bytes} {position : Position} {child : JsonValue}

/-- What lies aside of the position does not depend on what is put there. -/
theorem not_aside (hname : name ∈ all) (u : JsonValue) :
    ¬ ∀ b, JsonValue.findLoop names u true = probe all b := fun h =>
  probe_ne hname ((h true).symm.trans (h false))

/-- When the names are used up, the objects stand for the node itself. -/
theorem eq_nil {node : JsonValue} (hpos : HasPosition position node)
    (h : FoundAt all [] position node) : position = [] := by
  obtain ⟨found, hfound⟩ := h true
  have heq : setAt (probe all true) position node = probe all true := by
    generalize setAt (probe all true) position node = tree at hfound
    cases found with
    | true => cases tree <;> exact hfound
    | false => cases tree <;> cases hfound
  by_contra hne
  exact setAt_ne _ hpos hne heq

/-- A name of theirs does not lead to where they are. -/
theorem ne_nil {node : JsonValue} (hname : name ∈ all)
    (h : FoundAt all (name :: names) position node) : position ≠ [] := by
  rintro rfl
  obtain ⟨found, hfound⟩ := h true
  rw [setAt_nil] at hfound
  exact findLoop_probe hname names true found hfound

section Object

variable {ms : List (Bytes × JsonValue)} {name' : Bytes}

/-- A name that the position goes on with is followed. -/
theorem object_step (hfind : OrdMap.find? name ms = some child)
    (h : FoundAt all (name :: names) (.member name :: position) (.object ms)) :
    FoundAt all names position child := by
  intro b
  obtain ⟨found, hfound⟩ := h b
  rw [setAt_member _ hfind, JsonValue.findLoop, OrdMap.find?_assign, if_pos rfl, hfind] at hfound
  exact ⟨true, hfound⟩

/-- Another name is one that the object does not have. -/
theorem object_skip (hname : name ∈ all) (hne : name ≠ name')
    (hfind' : OrdMap.find? name' ms = some child)
    (h : FoundAt all (name :: names) (.member name' :: position) (.object ms)) :
    OrdMap.find? name ms = none ∧ FoundAt all names (.member name' :: position) (.object ms) := by
  have hstep : ∀ b, ∃ found,
      (match OrdMap.find? name ms with
      | some value => JsonValue.findLoop names value true
      | none => JsonValue.findLoop names
          (setAt (probe all b) (.member name' :: position) (.object ms)) found) = probe all b := by
    intro b
    obtain ⟨found, hfound⟩ := h b
    refine ⟨found, ?_⟩
    rw [setAt_member _ hfind'] at hfound ⊢
    rwa [JsonValue.findLoop, OrdMap.find?_assign, if_neg hne] at hfound
  cases hfind : OrdMap.find? name ms with
  | some u =>
    simp only [hfind, exists_const] at hstep
    exact absurd hstep (not_aside hname u)
  | none =>
    simp only [hfind] at hstep
    exact ⟨rfl, hstep⟩

end Object

section Array

variable {pre post : List JsonValue}

/-- A name that is looked for in an array. -/
theorem array_look
    (h : FoundAt all (name :: names) (.index pre.length :: position)
      (.array (pre ++ child :: post))) (b : Bool) :
    ∃ found, (match firstWith name (pre ++ setAt (probe all b) position child :: post) with
      | some (_, value) => JsonValue.findLoop names value true
      | none => JsonValue.findLoop names
          (setAt (probe all b) (.index pre.length :: position) (.array (pre ++ child :: post)))
          found) = probe all b := by
  obtain ⟨found, hfound⟩ := h b
  refine ⟨found, ?_⟩
  rw [setAt_index] at hfound ⊢
  rwa [findLoop_array] at hfound

/-- No element before the one that changes has the member. -/
theorem array_pre (hname : name ∈ all)
    (h : FoundAt all (name :: names) (.index pre.length :: position)
      (.array (pre ++ child :: post))) : firstWith name pre = none := by
  have hlook := h.array_look
  cases hpre : firstWith name pre with
  | none => rfl
  | some entry =>
    simp only [firstWith_append, hpre, Option.some_or, exists_const] at hlook
    exact absurd hlook (not_aside hname entry.2)

/-- A name that the position goes on with is followed. -/
theorem array_step {ms : List (Bytes × JsonValue)} (hpre : firstWith name pre = none)
    (hfind : OrdMap.find? name ms = some child)
    (h : FoundAt all (name :: names) (.index pre.length :: .member name :: position)
      (.array (pre ++ .object ms :: post))) : FoundAt all names position child := by
  intro b
  obtain ⟨found, hfound⟩ := h.array_look b
  rw [setAt_member _ hfind, firstWith_middle hpre, JsonValue.members, OrdMap.find?_assign,
    if_pos rfl, hfind] at hfound
  exact ⟨true, hfound⟩

/-- The objects do not stand in the array itself: the member of theirs would be found. -/
theorem array_ne_nil (hname : name ∈ all) (hpre : firstWith name pre = none)
    (h : FoundAt all (name :: names) (.index pre.length :: position)
      (.array (pre ++ child :: post))) : position ≠ [] := by
  rintro rfl
  obtain ⟨found, hfound⟩ := h.array_look true
  rw [setAt_nil, firstWith_middle hpre, find?_probe hname] at hfound
  cases names <;> cases hfound

/-- Another name is one that no element has. -/
theorem array_skip (hname : name ∈ all) (hchild : HasPosition position child)
    (hnil : position ≠ []) (hne : ∀ rest, position ≠ .member name :: rest)
    (h : FoundAt all (name :: names) (.index pre.length :: position)
      (.array (pre ++ child :: post))) :
    firstWith name (pre ++ child :: post) = none ∧
      FoundAt all names (.index pre.length :: position) (.array (pre ++ child :: post)) := by
  have hsame : ∀ b, firstWith name (pre ++ setAt (probe all b) position child :: post)
      = firstWith name (pre ++ child :: post) := fun b =>
    firstWith_congr (find?_members_setAt _ hchild hnil hne) pre post
  have hlook := h.array_look
  simp only [hsame] at hlook
  cases hfirst : firstWith name (pre ++ child :: post) with
  | some entry =>
    simp only [hfirst, exists_const] at hlook
    exact absurd hlook (not_aside hname entry.2)
  | none =>
    simp only [hfirst] at hlook
    exact ⟨rfl, hlook⟩

end Array

end FoundAt

/-- **What is found tells the position.**  If two objects that are told apart by each of the names
    are both found where they have been put, it is there that the names lead. -/
theorem findPosition_of_found {all names : List Bytes} {node : JsonValue} {moved : Bool}
    {position : Position} (hpos : HasPosition position node) (hall : ∀ name ∈ names, name ∈ all)
    (hmoved : position = [] → moved = true) (h : FoundAt all names position node) :
    findPosition names node moved = some position := by
  induction names generalizing node moved position with
  | nil =>
    have hnil := h.eq_nil hpos
    rw [findPosition, if_pos (hmoved hnil), hnil]
  | cons name names ih =>
    have hname := hall name List.mem_cons_self
    have hrest := fun n hn => hall n (List.mem_cons_of_mem name hn)
    cases hpos with
    | here node => exact absurd rfl (h.ne_nil hname)
    | @member name' rest ms child hfind' hchild =>
      rw [findPosition]
      by_cases heq : name = name'
      · subst heq
        rw [hfind']
        have hnext : findPosition names child true = some rest :=
          ih hchild hrest (fun _ => rfl) (h.object_step hfind')
        exact Option.map_eq_some_iff.mpr ⟨rest, hnext, rfl⟩
      · obtain ⟨hfind, hskip⟩ := h.object_skip hname heq hfind'
        rw [hfind]
        exact ih (.member hfind' hchild) hrest (by simp) hskip
    | @index rest pre child post hchild =>
      rw [findPosition]
      have hpre := h.array_pre hname
      by_cases hgoes : ∃ rest', rest = .member name :: rest'
      · obtain ⟨rest', rfl⟩ := hgoes
        cases hchild with
        | @member _ _ ms child' hfind hchild' =>
          rw [firstWith_middle hpre, JsonValue.members, hfind]
          have hnext : findPosition names child' true = some rest' :=
            ih hchild' hrest (fun _ => rfl) (h.array_step hpre hfind)
          exact Option.map_eq_some_iff.mpr ⟨rest', hnext, rfl⟩
      · obtain ⟨hfirst, hskip⟩ := h.array_skip hname hchild (h.array_ne_nil hname hpre)
          fun rest' heq => hgoes ⟨rest', heq⟩
        rw [hfirst]
        exact ih (.index pre post hchild) hrest (by simp) hskip

/-! ### When the two agree -/

/-- The members of an object are in the order of their names, as a map has them. -/
def IsMapNode : JsonValue → Prop
  | .object members => OrdMap.Sorted members
  | _ => True

/-- A tree whose objects are maps. -/
def IsMapTree (v : JsonValue) : Prop := v.All IsMapNode

theorem isMapTree_probe (names : List Bytes) (b : Bool) : IsMapTree (probe names b) := by
  refine all_object.mpr ⟨OrdMap.sorted_insertAll _ OrdMap.sorted_nil, fun e he => ?_⟩
  have hmem := OrdMap.mem_insertAll he
  rw [List.append_nil] at hmem
  obtain ⟨name, -, rfl⟩ := List.mem_map.mp hmem
  trivial

/-- Whatever valid value is written by the path is found by it. -/
def PathsAgree (node : JsonValue) (keyPath : Bytes) : Prop :=
  ∀ v, v.getTag ≠ .invalid → IsMapTree v → ∀ node',
    node.replaceValue keyPath v = .ok (true, node') → node'.findValue keyPath = .ok v

theorem findValue_eq (node : JsonValue) (keyPath : Bytes) : node.findValue keyPath
    = .ok (JsonValue.findLoop (keyPath.splitOn 0x3A) node false) := by
  rw [JsonValue.findValue, show ascii ":" = [0x3A] from rfl, split_single]
  rfl

/-- **When what is written is found**: whenever `ReplaceValue` writes at a position, the names lead
    `FindValue` to the same one. -/
theorem paths_agree_iff (node : JsonValue) (keyPath : Bytes) :
    PathsAgree node keyPath ↔ ∀ position,
      replacePosition (keyPath.splitOn 0x3A) node = some position →
        findPosition (keyPath.splitOn 0x3A) node false = some position := by
  set names := keyPath.splitOn 0x3A with hnames
  have hreplace : ∀ {v position}, replacePosition names node = some position →
      node.replaceValue keyPath v = .ok (true, setAt v position node) := by
    intro v position hposition
    rw [replaceValue_eq, ← hnames, replaced, hposition]
  constructor
  · intro hagree position hposition
    have hpos := hasPosition_of_replacePosition hposition
    have hne := replacePosition_ne_nil (List.splitOn_ne_nil 0x3A keyPath) hposition
    -- A value that stands nowhere else in the tree tells where it has been found.
    refine findPosition_of_found hpos (fun _ => id) (absurd · hne) fun b => ⟨false, ?_⟩
    · have hfound := hagree (probe names b) (by simp [probe, JsonValue.getTag])
        (isMapTree_probe names b) _ (hreplace hposition)
      rw [findValue_eq] at hfound
      exact Except.ok.inj hfound
  · intro hposition v _ _ node' hwritten
    rw [replaceValue_eq, ← hnames, replaced] at hwritten
    cases hplace : replacePosition names node with
    | none => simp [hplace] at hwritten
    | some position =>
      obtain rfl : setAt v position node = node' := by simpa [hplace] using hwritten
      rw [findValue_eq, findLoop_setAt v (hposition position hplace) (by simp)]

/-- The address of the second object is replaced, that of the first one is found. -/
theorem replaced_not_found : ¬ ∀ node keyPath, PathsAgree node keyPath := by
  intro h
  have hfound := h (.object [(ascii "array_of_objects", .array
      [.object [(ascii "address", .string (ascii "a"))],
        .object [(ascii "address", .string (ascii "b"))]])])
    (ascii "array_of_objects:1:address") (.string (ascii "www.whatever.com")) (by decide)
    trivial _ rfl
  exact absurd (JsonValue.string.inj (Except.ok.inj hfound)) (by decide)

end Icl.Json
