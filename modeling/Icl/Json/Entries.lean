import Icl.Json.Position
import Icl.Json.Reading

namespace Icl.Json

open Icl.Cxx Icl.Format

/-!
# The parts of a document in its value

* `valueAt` — the node of a tree at a position;
* `StandsAt` — the part of a document that becomes that node, the last one of the members with one
  name;
* `valueAt_parseString` — what has been read of a part stands where the part does.
-/

/-- The node at the position. -/
def valueAt : Position → JsonValue → Option JsonValue
  | [], v => some v
  | .member name :: position, .object ms =>
    match OrdMap.find? name ms with
    | some child => valueAt position child
    | none => none
  | .index i :: position, .array es =>
    match es[i]? with
    | some child => valueAt position child
    | none => none
  | _ :: _, _ => none

/-- The part `e` of a document stands at the position; of several members of one name it is the last
    one that counts. -/
inductive StandsAt (e : Json) : Json → Position → Prop where
  | here : StandsAt e e []
  | element {pre post : List Json} {j : Json} {position : Position} :
      StandsAt e j position → StandsAt e (.array (pre ++ j :: post)) (.index pre.length :: position)
  | member {pre post : List (List StrItem × Json)} {name : List StrItem} {j : Json}
      {position : Position} :
      (∀ m ∈ post, stringBytes m.1 ≠ stringBytes name) → StandsAt e j position →
      StandsAt e (.object (pre ++ (name, j) :: post)) (.member (stringBytes name) :: position)

/-- The element after as many others. -/
theorem elementsReading_at {pre post : List Json} {j : Json} {vs : List JsonValue}
    (h : elementsReading (pre ++ j :: post) = some vs) :
    ∃ v, reading j = some v ∧ vs[pre.length]? = some v := by
  induction pre generalizing vs with
  | nil =>
    rw [List.nil_append, elementsReading] at h
    obtain ⟨v, hv, hrest⟩ := Option.bind_eq_some_iff.mp h
    obtain ⟨rest, -, rfl⟩ := Option.map_eq_some_iff.mp hrest
    exact ⟨v, hv, rfl⟩
  | cons first pre ih =>
    rw [List.cons_append, elementsReading] at h
    obtain ⟨v, -, hmap⟩ := Option.bind_eq_some_iff.mp h
    obtain ⟨rest, hrest, rfl⟩ := Option.map_eq_some_iff.mp hmap
    exact ih hrest

/-- Members of other names leave a member as it is. -/
theorem find?_membersReading {ms : List (List StrItem × Json)}
    {acc result : List (Bytes × JsonValue)} {name : Bytes}
    (h : membersReading ms acc = some result) (hms : ∀ m ∈ ms, stringBytes m.1 ≠ name) :
    OrdMap.find? name result = OrdMap.find? name acc := by
  induction ms generalizing acc with
  | nil =>
    cases h
    rfl
  | cons m ms ih =>
    obtain ⟨hm, hms⟩ := List.forall_mem_cons.mp hms
    rw [membersReading] at h
    split_ifs at h
    obtain ⟨v, -, hrest⟩ := Option.bind_eq_some_iff.mp h
    rw [ih hrest hms, OrdMap.find?_insertOrAssign, if_neg (Ne.symm hm)]

/-- The last member of a name. -/
theorem membersReading_at {pre post : List (List StrItem × Json)} {name : List StrItem} {j : Json}
    {acc result : List (Bytes × JsonValue)}
    (h : membersReading (pre ++ (name, j) :: post) acc = some result)
    (hpost : ∀ m ∈ post, stringBytes m.1 ≠ stringBytes name) :
    ∃ v, reading j = some v ∧ OrdMap.find? (stringBytes name) result = some v := by
  induction pre generalizing acc with
  | nil =>
    rw [List.nil_append, membersReading] at h
    split_ifs at h
    obtain ⟨v, hv, hrest⟩ := Option.bind_eq_some_iff.mp h
    refine ⟨v, hv, ?_⟩
    rw [find?_membersReading hrest hpost, OrdMap.find?_insertOrAssign, if_pos rfl]
  | cons m pre ih =>
    rw [List.cons_append, membersReading] at h
    split_ifs at h
    obtain ⟨v, -, hrest⟩ := Option.bind_eq_some_iff.mp h
    exact ih hrest

/-- **A part that has been read** stands where it stands in the document. -/
theorem valueAt_reading {e j : Json} {position : Position} (h : StandsAt e j position)
    {v : JsonValue} (hv : reading j = some v) :
    ∃ u, reading e = some u ∧ valueAt position v = some u := by
  induction h generalizing v with
  | here => exact ⟨v, hv, by cases v <;> rfl⟩
  | element _ ih =>
    rw [reading] at hv
    obtain ⟨vs, hvs, rfl⟩ := Option.map_eq_some_iff.mp hv
    obtain ⟨child, hchild, hget⟩ := elementsReading_at hvs
    rw [valueAt, hget]
    exact ih hchild
  | member hpost _ ih =>
    rw [reading] at hv
    obtain ⟨ms, hms, rfl⟩ := Option.map_eq_some_iff.mp hv
    obtain ⟨child, hchild, hfind⟩ := membersReading_at hms hpost
    rw [valueAt, hfind]
    exact ih hchild

/-- What has been read of a part of a JSON text. -/
theorem valueAt_parseString {e j : Json} {s : Bytes} {position : Position} {json v : JsonValue}
    (htext : JsonText j s) (hroot : j.IsContainer) (hparse : parseString json s = .ok (true, v))
    (hat : StandsAt e j position) : ∃ u, reading e = some u ∧ valueAt position v = some u :=
  valueAt_reading hat ((parseString_jsonText htext hroot json v).mp hparse)

end Icl.Json
