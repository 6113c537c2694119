import Icl.Protocol.HttpProtocol
import Mathlib.Data.List.Nodup

namespace Icl.Protocol

open Icl.Cxx Icl.Util

/-!
# URL parameters, written and read

`ParseUrlParameters` cuts what follows the first `?` at each `&`, and each term at its first `=`.

* `Param.term`, `queryOf` — the query of a path and some parameters;
* `parseUrlParameters_splitOn` — what becomes of any query: the terms are stored one after the
  other, each if both of its `getline` succeed;
* `keyValue_term` — they do for every term but those whose value is empty;
* `parseUrlParameters_iff` — the parameters come back, and nothing else does, when each of them is
  stored and the map held no other key.
-/

/-! ### Queries -/

/-- A key and its value. -/
abbrev Param := Bytes × Bytes

namespace Param

/-- `key=val`. -/
def term (p : Param) : Bytes := p.1 ++ 0x3D :: p.2

/-- A parameter whose text can be taken apart again: no `=` in the key, no `&` and, in the value, no
    line break. -/
structure Plain (p : Param) : Prop where
  keyEquals : 0x3D ∉ p.1
  keyAmp : 0x26 ∉ p.1
  valueAmp : 0x26 ∉ p.2
  valueLine : newline ∉ p.2

theorem Plain.amp_not_mem {p : Param} (h : p.Plain) : 0x26 ∉ p.term := by
  simp [term, h.keyAmp, h.valueAmp]

end Param

/-- `path?k1=v1&...&kn=vn`. -/
def queryOf (path : Bytes) (params : List Param) : Bytes :=
  path ++ 0x3F :: [0x26].intercalate (params.map Param.term)

/-! ### The terms -/

/-- What one turn of the loop does with its term. -/
def storeTerm (params : StringMap) (keyval : Bytes) : StringMap :=
  match keyValue keyval with
  | some (key, val) => OrdMap.insertOrAssign key val params
  | none => params

/-- **A term**: the value is what follows the first `=`, and a value that is empty is not read. -/
theorem keyValue_term {p : Param} (h : p.Plain) :
    keyValue p.term = if p.2 = [] then none else some p := by
  have hkey := getline_reading h.keyEquals p.2 0 []
  have hval := getline_last h.valueLine (0 + p.1.length + 1) []
  have hopen : IStringStream.ofString p.term = .reading (p.1 ++ 0x3D :: p.2) 0 := rfl
  rw [keyValue, hopen, hkey]
  dsimp only
  rw [hval]
  cases hp : p.2 with
  | nil => simp
  | cons c cs => simp [← hp]

/-- **The loop** stores the terms one after the other. -/
theorem paramLoop_splitOn {fuel : Nat} {rest : Bytes} (pos : Nat) (params : StringMap)
    (hfuel : rest.length < fuel) :
    paramLoop fuel (.reading rest pos) params = (rest.splitOn 0x26).foldl storeTerm params := by
  induction fuel generalizing rest pos params with
  | zero => omega
  | succ fuel ih =>
    rw [paramLoop]
    by_cases hamp : 0x26 ∈ rest
    · -- The term up to the next `&`, and then what follows it.
      obtain ⟨term, after, rfl, hterm⟩ := List.eq_append_cons_of_mem hamp
      rw [List.length_append, List.length_cons] at hfuel
      rw [getline_reading hterm, splitOn_cons hterm, List.foldl_cons]
      exact ih _ _ (by omega)
    · rw [getline_last hamp, splitOn_of_not_mem hamp]
      cases hrest : rest with
      | nil => rfl
      | cons c cs =>
        -- The last term ends with the stream, so that the next turn finds nothing.
        show paramLoop fuel _ (storeTerm params (c :: cs)) = storeTerm params (c :: cs)
        cases fuel <;> rfl

/-- **Any query with a `?`**: what follows the first one is cut at each `&`, and the terms are
    stored in order. -/
theorem parseUrlParameters_splitOn {path : Bytes} (hpath : 0x3F ∉ path) (rest : Bytes)
    (request : HttpRequest) (hquery : request.query = path ++ 0x3F :: rest) :
    (parseUrlParameters request).params = (rest.splitOn 0x26).foldl storeTerm request.params := by
  have hurl := getline_reading hpath rest 0 []
  have hopen : IStringStream.ofString request.query = .reading (path ++ 0x3F :: rest) 0 := by
    rw [hquery]
    rfl
  have hfuel : rest.length < request.query.length + 1 := by
    rw [hquery, List.length_append, List.length_cons]
    omega
  rw [parseUrlParameters, hopen, hurl]
  exact paramLoop_splitOn _ _ hfuel

/-! ### The parameters -/

/-- The parameters that are stored. -/
def stored (params : List Param) : List Param := params.filter (·.2 ≠ [])

/-- Terms that can be taken apart are stored, unless their value is empty. -/
theorem foldl_storeTerm {params : List Param} (h : ∀ p ∈ params, p.Plain) (m : StringMap) :
    (params.map Param.term).foldl storeTerm m
      = (stored params).foldl (fun m e => OrdMap.insertOrAssign e.1 e.2 m) m := by
  induction params generalizing m with
  | nil => rfl
  | cons p params ih =>
    obtain ⟨hp, hparams⟩ := List.forall_mem_cons.mp h
    rw [List.map_cons, List.foldl_cons, ih hparams, storeTerm, keyValue_term hp, stored, stored]
    by_cases hval : p.2 = []
    · simp [hval]
    · simp [hval]

/-- **The query of some parameters**: those with a value are assigned, one after the other. -/
theorem parseUrlParameters_queryOf {path : Bytes} (hpath : 0x3F ∉ path) {params : List Param}
    (h : ∀ p ∈ params, p.Plain) (request : HttpRequest) :
    (parseUrlParameters { request with query := queryOf path params }).params
      = (stored params).foldl (fun m e => OrdMap.insertOrAssign e.1 e.2 m) request.params := by
  refine (parseUrlParameters_splitOn hpath _ _ rfl).trans ?_
  rw [← foldl_storeTerm h]
  cases params with
  | nil => rfl
  | cons p ps =>
    have hterms : ∀ t ∈ (p :: ps).map Param.term, 0x26 ∉ t := by
      intro t ht
      obtain ⟨q, hq, rfl⟩ := List.mem_map.mp ht
      exact (h q hq).amp_not_mem
    rw [List.splitOn_intercalate _ hterms (by simp)]

/-- What is stored, and what stays of the old entries. -/
theorem mem_assigned {entries m : List Param} (hentries : (entries.map Prod.fst).Nodup)
    (hm : OrdMap.Sorted m) (e : Param) :
    e ∈ entries.foldl (fun m e => OrdMap.insertOrAssign e.1 e.2 m) m
      ↔ e ∈ entries ∨ e.1 ∉ entries.map Prod.fst ∧ e ∈ m := by
  have hassigned := (OrdMap.sorted_foldl_insertOrAssign entries hm).nodup
  have hreverse : (entries.reverse.map Prod.fst).Nodup := by
    rwa [List.map_reverse, List.nodup_reverse]
  rw [← OrdMap.find?_eq_some_iff hassigned, OrdMap.find?_foldl_insertOrAssign,
    Option.or_eq_some_iff, OrdMap.find?_eq_some_iff hreverse, OrdMap.find?_eq_some_iff hm.nodup,
    List.mem_reverse]
  refine or_congr_right (and_congr_left fun _ => ?_)
  -- Nothing is found at a key exactly if it is none of the keys.
  constructor
  · intro hnone hmem
    obtain ⟨e', he', heq⟩ := List.mem_map.mp hmem
    have hfound := (OrdMap.find?_eq_some_iff hreverse).mpr (List.mem_reverse.mpr he')
    rw [heq, hnone] at hfound
    cases hfound
  · intro hnot
    refine OrdMap.find?_of_ne fun e' he' heq => hnot ?_
    exact heq ▸ List.mem_map_of_mem (List.mem_reverse.mp he')

/-- **The round trip of URL parameters.**  Reading the query of a path without `?` and of parameters
    with distinct keys leaves exactly these parameters in the map if and only if each of them has a
    value or was there already, and the map held no other key. -/
theorem parseUrlParameters_iff (path : Bytes) (params : List Param) (request : HttpRequest)
    (hpath : 0x3F ∉ path) (hplain : ∀ p ∈ params, p.Plain) (hkeys : (params.map Prod.fst).Nodup)
    (hmap : OrdMap.Sorted request.params) :
    (parseUrlParameters { request with query := queryOf path params }).params.Perm params
      ↔ (∀ p ∈ params, p.2 = [] → p ∈ request.params)
        ∧ ∀ e ∈ request.params, e.1 ∈ params.map Prod.fst := by
  have hstored : ((stored params).map Prod.fst).Nodup := hkeys.sublist (List.filter_sublist.map _)
  have hmem : ∀ p, p ∈ stored params ↔ p ∈ params ∧ p.2 ≠ [] := fun p => by simp [stored]
  have hsub : ∀ k, k ∈ (stored params).map Prod.fst → k ∈ params.map Prod.fst :=
    fun k hk => (List.filter_sublist.map _).subset hk
  have hnodup := (OrdMap.sorted_foldl_insertOrAssign (stored params) hmap).nodup
  rw [parseUrlParameters_queryOf hpath hplain,
    List.perm_ext_iff_of_nodup hnodup.of_map hkeys.of_map]
  simp only [mem_assigned hstored hmap]
  constructor
  · intro h
    constructor
    · intro p hp hval
      rcases (h p).mpr hp with hin | ⟨-, hin⟩
      · exact absurd hval ((hmem p).mp hin).2
      · exact hin
    · intro e he
      by_cases hkey : e.1 ∈ (stored params).map Prod.fst
      · exact hsub _ hkey
      · exact List.mem_map_of_mem ((h e).mp (.inr ⟨hkey, he⟩))
  · rintro ⟨hempty, hold⟩ e
    constructor
    · rintro (hin | ⟨hnot, hin⟩)
      · exact ((hmem e).mp hin).1
      · -- An old entry that stays is a parameter without a value.
        obtain ⟨p, hp, hkey⟩ := List.mem_map.mp (hold e hin)
        have hval : p.2 = [] := by
          by_contra hval
          exact hnot (hkey ▸ List.mem_map_of_mem ((hmem p).mpr ⟨hp, hval⟩))
        have hsame : p = e := List.inj_on_of_nodup_map hmap.nodup (hempty p hp hval) hin hkey
        exact hsame ▸ hp
    · intro hp
      by_cases hval : e.2 = []
      · refine .inr ⟨fun hkey => ?_, hempty e hp hval⟩
        obtain ⟨p, hin, heq⟩ := List.mem_map.mp hkey
        obtain ⟨hp', hval'⟩ := (hmem p).mp hin
        exact hval' (List.inj_on_of_nodup_map hkeys hp' hp heq ▸ hval)
      · exact .inl ((hmem e).mpr ⟨hp, hval⟩)

/-- A value with the delimiters of the path and of the key in it. -/
theorem parseUrlParameters_iff_two :
    (parseUrlParameters { HttpRequest.new with
        query := queryOf (ascii "/index.asp") [(ascii "q", ascii "a=b?"), (ascii "n", ascii "2")]
      }).params.Perm [(ascii "q", ascii "a=b?"), (ascii "n", ascii "2")] := by
  refine (parseUrlParameters_iff _ _ .new (by decide) ?_ (by decide) .nil).mpr (by decide)
  intro p hp
  rcases List.mem_cons.mp hp with rfl | hp
  · exact ⟨by decide, by decide, by decide, by decide⟩
  · rw [List.mem_singleton.mp hp]
    exact ⟨by decide, by decide, by decide, by decide⟩

/-- An empty value: the parameter is lost. -/
theorem empty_value_lost :
    Param.Plain (ascii "a", []) ∧
    ¬ (parseUrlParameters { HttpRequest.new with
        query := queryOf (ascii "/") [(ascii "a", [])] }).params.Perm [(ascii "a", [])] := by
  refine ⟨⟨by decide, by decide, by decide, by decide⟩, fun h => ?_⟩
  have hnone : (parseUrlParameters { HttpRequest.new with
      query := queryOf (ascii "/") [(ascii "a", [])] }).params = [] := by decide
  rw [hnone] at h
  exact absurd h.length_eq (by decide)

end Icl.Protocol
