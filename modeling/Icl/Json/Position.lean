import Icl.Json.KeyPath
import Icl.Json.Nodes

namespace Icl.Json

open Icl.Cxx

/-!
# Positions in a tree

* `Position` — the steps from the root of a tree to one of its nodes;
* `HasPosition` — the tree has such a node;
* `setAt` — the tree with another value there;
* `firstWith` — the first element of an array that has a member of a given name.
-/

/-- A step from a container to one of its entries. -/
inductive Step where
  | member (name : Bytes)
  | index (i : Nat)
  deriving DecidableEq, Repr

/-- The steps from the root of a tree. -/
abbrev Position := List Step

/-- There is a node at the position. -/
inductive HasPosition : Position → JsonValue → Prop where
  | here (node : JsonValue) : HasPosition [] node
  | member {name : Bytes} {position : Position} {ms : List (Bytes × JsonValue)}
      {child : JsonValue} :
      OrdMap.find? name ms = some child → HasPosition position child →
      HasPosition (.member name :: position) (.object ms)
  | index {position : Position} (pre : List JsonValue) {child : JsonValue} (post : List JsonValue) :
      HasPosition position child →
      HasPosition (.index pre.length :: position) (.array (pre ++ child :: post))

/-- An element that is singled out. -/
theorem hasPosition_index_iff {i : Nat} {position : Position} {es : List JsonValue} :
    HasPosition (.index i :: position) (.array es) ↔
      ∃ pre child post, es = pre ++ child :: post ∧ pre.length = i ∧
        HasPosition position child := by
  constructor
  · intro h
    cases h with
    | index pre post hchild => exact ⟨pre, _, post, rfl, rfl, hchild⟩
  · rintro ⟨pre, child, post, rfl, rfl, hchild⟩
    exact .index pre post hchild

/-- The tree with `v` at the position. -/
def setAt (v : JsonValue) : Position → JsonValue → JsonValue
  | [], _ => v
  | .member name :: position, .object ms =>
    match OrdMap.find? name ms with
    | some child => .object (OrdMap.assign name (setAt v position child) ms)
    | none => .object ms
  | .index i :: position, .array es =>
    match es[i]? with
    | some child => .array (es.set i (setAt v position child))
    | none => .array es
  | _, node => node

section SetAt

variable (v : JsonValue) {name : Bytes} {position : Position} {ms : List (Bytes × JsonValue)}
  {child : JsonValue}

@[simp] theorem setAt_nil (node : JsonValue) : setAt v [] node = v := by
  cases node <;> rfl

/-- Below a member the value is put in its place. -/
theorem setAt_member (h : OrdMap.find? name ms = some child) (position : Position) :
    setAt v (.member name :: position) (.object ms)
      = .object (OrdMap.assign name (setAt v position child) ms) := by
  rw [setAt, h]

/-- Below an element as well. -/
theorem setAt_index (pre : List JsonValue) (child : JsonValue) (post : List JsonValue)
    (position : Position) : setAt v (.index pre.length :: position) (.array (pre ++ child :: post))
      = .array (pre ++ setAt v position child :: post) := by
  rw [setAt]
  simp

/-- A member is smaller than its object. -/
theorem sizeOf_lt_object (h : OrdMap.find? name ms = some child) :
    sizeOf v < sizeOf (JsonValue.object (OrdMap.assign name v ms)) := by
  have hmem : (name, v) ∈ OrdMap.assign name v ms := by
    refine OrdMap.mem_of_find? ?_
    rw [OrdMap.find?_assign, if_pos rfl, h]
    rfl
  have hlt := List.sizeOf_lt_of_mem hmem
  simp only [Prod.mk.sizeOf_spec, JsonValue.object.sizeOf_spec] at hlt ⊢
  omega

/-- An element is smaller than its array. -/
theorem sizeOf_lt_array (pre post : List JsonValue) :
    sizeOf v < sizeOf (JsonValue.array (pre ++ v :: post)) := by
  have hlt := List.sizeOf_lt_of_mem (show v ∈ pre ++ v :: post by simp)
  simp only [JsonValue.array.sizeOf_spec]
  omega

/-- A value is no bigger than the tree it is put into. -/
theorem sizeOf_setAt_le {node : JsonValue} (h : HasPosition position node) :
    sizeOf v ≤ sizeOf (setAt v position node) := by
  induction h with
  | here node => rw [setAt_nil]
  | member hfind _ ih =>
    rw [setAt_member v hfind]
    exact ih.trans (sizeOf_lt_object _ hfind).le
  | index pre post _ ih =>
    rw [setAt_index]
    exact ih.trans (sizeOf_lt_array _ pre post).le

/-- A value is not the whole of a tree in which it stands below the root. -/
theorem setAt_ne {node : JsonValue} (h : HasPosition position node) (hpos : position ≠ []) :
    setAt v position node ≠ v := by
  have hlt : sizeOf v < sizeOf (setAt v position node) := by
    cases h with
    | here _ => exact absurd rfl hpos
    | member hfind hchild =>
      rw [setAt_member v hfind]
      exact (sizeOf_setAt_le v hchild).trans_lt (sizeOf_lt_object _ hfind)
    | index pre post hchild =>
      rw [setAt_index]
      exact (sizeOf_setAt_le v hchild).trans_lt (sizeOf_lt_array _ pre post)
  intro heq
  rw [heq] at hlt
  exact lt_irrefl _ hlt

/-- Below the root only the member that leads to the position changes. -/
theorem find?_members_setAt {node : JsonValue} (h : HasPosition position node)
    (hpos : position ≠ []) (hname : ∀ rest, position ≠ .member name :: rest) :
    OrdMap.find? name (setAt v position node).members = OrdMap.find? name node.members := by
  cases h with
  | here _ => exact absurd rfl hpos
  | member hfind _ =>
    rename_i name' position ms child _
    have hne : name ≠ name' := fun heq => hname position (heq ▸ rfl)
    rw [setAt_member v hfind, JsonValue.members, JsonValue.members, OrdMap.find?_assign,
      if_neg hne]
  | index pre post _ =>
    rw [setAt_index]
    rfl

end SetAt

/-! ### The first element with a member -/

/-- The first element that has a member with the name: its index, and the member. -/
def firstWith (name : Bytes) : List JsonValue → Option (Nat × JsonValue)
  | [] => none
  | element :: es =>
    match OrdMap.find? name element.members with
    | some child => some (0, child)
    | none => (firstWith name es).map fun found => (found.1 + 1, found.2)

section FirstWith

variable {name : Bytes}

/-- The loop over the elements finds the first one with the name. -/
theorem findSome?_eq_firstWith (es : List JsonValue) :
    es.findSome? (fun element => OrdMap.find? name element.members)
      = (firstWith name es).map Prod.snd := by
  induction es with
  | nil => rfl
  | cons element es ih =>
    rw [List.findSome?_cons, firstWith, ih]
    cases OrdMap.find? name element.members with
    | some child => rfl
    | none =>
      simp only [Option.map_map]
      rfl

/-- First the front is searched, then what follows. -/
theorem firstWith_append (pre es : List JsonValue) : firstWith name (pre ++ es)
    = (firstWith name pre).or
        ((firstWith name es).map fun found => (pre.length + found.1, found.2)) := by
  induction pre with
  | nil => simp [firstWith]
  | cons element pre ih =>
    rw [List.cons_append, firstWith, firstWith, ih]
    cases OrdMap.find? name element.members with
    | some child => rfl
    | none =>
      cases firstWith name pre with
      | some found => rfl
      | none =>
        simp only [Option.none_or, Option.map_none, Option.map_map, List.length_cons]
        congr 1
        funext found
        simp only [Function.comp, Prod.mk.injEq, and_true]
        omega

/-- Nothing before the element that is found has the member. -/
theorem firstWith_eq_some {es : List JsonValue} {i : Nat} {child : JsonValue}
    (h : firstWith name es = some (i, child)) :
    ∃ pre ms post, es = pre ++ .object ms :: post ∧ pre.length = i ∧ firstWith name pre = none ∧
      OrdMap.find? name ms = some child := by
  induction es generalizing i with
  | nil => cases h
  | cons element es ih =>
    rw [firstWith] at h
    cases hfind : OrdMap.find? name element.members with
    | some child' =>
      rw [hfind] at h
      cases h
      cases element with
      | object ms => exact ⟨[], ms, es, rfl, rfl, rfl, hfind⟩
      | _ => cases hfind
    | none =>
      rw [hfind] at h
      obtain ⟨⟨j, child'⟩, hrest, heq⟩ := Option.map_eq_some_iff.mp h
      cases heq
      obtain ⟨pre, ms, post, rfl, rfl, hpre, hms⟩ := ih hrest
      exact ⟨element :: pre, ms, post, rfl, rfl, by rw [firstWith, hfind, hpre]; rfl, hms⟩

/-- Elements that have the same member do as well. -/
theorem firstWith_congr {element element' : JsonValue}
    (h : OrdMap.find? name element.members = OrdMap.find? name element'.members)
    (pre post : List JsonValue) :
    firstWith name (pre ++ element :: post) = firstWith name (pre ++ element' :: post) := by
  rw [firstWith_append, firstWith_append, firstWith, firstWith, h]

/-- Among elements of which one is singled out. -/
theorem firstWith_middle {pre : List JsonValue} (hpre : firstWith name pre = none)
    (element : JsonValue) (post : List JsonValue) : firstWith name (pre ++ element :: post)
      = ((OrdMap.find? name element.members).map fun child => (pre.length, child)).or
          ((firstWith name post).map fun found => (pre.length + (found.1 + 1), found.2)) := by
  rw [firstWith_append, hpre, Option.none_or, firstWith]
  cases OrdMap.find? name element.members with
  | some child => rfl
  | none => simp [Function.comp_def]

end FirstWith

end Icl.Json
