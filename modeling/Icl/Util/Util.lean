import Icl.Cxx.Occurrences
import Mathlib.Data.List.TakeWhile

namespace Icl.Util

open Icl.Cxx

/-!
# `Util`

The model of the functions of `util/Util.cpp` and `util/Util.h` that the parsers use:
`Split`, `Join` and `FromString<std::uint32_t>`.
-/

/-! ### `Split` -/

/-- The loop of `Split`.  With an empty delimiter `start` never moves; the fuel is then
    used up and the loop is endless.  `start` cannot wrap around: `end` is `npos` only on the
    last turn. -/
def splitLoop (theString delimiter : Bytes) : Nat → Nat → Except Fault (List Bytes)
  | 0, _ => .error .endlessLoop
  | fuel + 1, start =>
    match find theString delimiter start with
    | none => do
      let part ← substr theString start theString.length
      return [part]
    | some stop => do
      let part ← substr theString start (stop - start)
      let parts ← splitLoop theString delimiter fuel (stop + delimiter.length)
      return part :: parts

/-- `Util::Split`. -/
def split (theString delimiter : Bytes) : Except Fault (List Bytes) :=
  splitLoop theString delimiter (theString.length + 1) 0

/-- The loop ends, every `substr` starts inside the string, and the parts are those between the
    occurrences of the delimiter. -/
theorem splitLoop_eq (theString : Bytes) {delimiter : Bytes} (hd : delimiter ≠ [])
    {fuel start : Nat} (hstart : start ≤ theString.length)
    (hfuel : theString.length < fuel + start) :
    splitLoop theString delimiter fuel start = .ok (cut delimiter (theString.drop start)) := by
  have hpos := List.length_pos_iff.mpr hd
  induction fuel generalizing start with
  | zero => omega
  | succ fuel ih =>
    rw [splitLoop]
    by_cases h : delimiter <:+: theString.drop start
    · -- The part up to the next delimiter, and then what follows it.
      obtain ⟨part, rest, hdrop, hfirst⟩ := exists_first h
      obtain ⟨hle, hafter⟩ := drop_first hstart hdrop
      have hrest := ih hle (by omega)
      rw [hafter] at hrest
      rw [find_first hstart hd hdrop hfirst, hdrop, cut_first hd hfirst]
      simp [substr_of_le hstart, hdrop, hrest]
    · rw [find_of_not_isInfix hstart h, cut_of_not_isInfix h]
      simp [substr_of_le hstart, List.take_of_length_le]

/-- **`Split` cuts at each occurrence** of the delimiter. -/
theorem split_eq (theString : Bytes) {delimiter : Bytes} (hd : delimiter ≠ []) :
    split theString delimiter = .ok (cut delimiter theString) :=
  splitLoop_eq theString hd (Nat.zero_le _) (by omega)

/-- A delimiter of one byte is found where it first stands. -/
theorem findSub_single {c : UInt8} {xs ys : Bytes} (h : c ∉ xs) :
    findSub [c] (xs ++ c :: ys) = some xs.length := by
  have hfind := findSub_first (List.cons_ne_nil c []) (first_single (b := ys) h)
  rwa [List.append_assoc] at hfind

theorem findSub_single_none {c : UInt8} {s : Bytes} (h : c ∉ s) : findSub [c] s = none :=
  findSub_of_not_isInfix (mt (List.singleton_infix_iff c s).mp h)

/-- What stands before the first separator is one part. -/
theorem splitOn_cons {c : UInt8} {part : Bytes} (h : c ∉ part) (rest : Bytes) :
    (part ++ c :: rest).splitOn c = part :: rest.splitOn c :=
  List.splitOnP_append_cons_of_forall_mem
    (fun x hx => by simpa using fun heq : x = c => h (heq ▸ hx)) c (by simp) rest

/-- A string without a separator is a single part. -/
theorem splitOn_of_not_mem {c : UInt8} {s : Bytes} (h : c ∉ s) : s.splitOn c = [s] := by
  rw [List.splitOn_eq_splitOnP, List.splitOnP_eq_singleton]
  exact fun x hx => by simpa using fun heq : x = c => h (heq ▸ hx)

/-- No part has the separator in it. -/
theorem not_mem_of_mem_splitOn {c : UInt8} {s part : Bytes} (h : part ∈ s.splitOn c) :
    c ∉ part := by
  induction s generalizing part with
  | nil =>
    obtain rfl : part = [] := by simpa using h
    simp
  | cons x s ih =>
    rw [List.splitOn_cons_eq_if_modifyHead] at h
    obtain ⟨first, rest, hsplit⟩ := List.exists_cons_of_ne_nil (List.splitOn_ne_nil c s)
    rw [hsplit] at h ih
    -- A delimiter begins a new part, any other byte goes into the first one.
    by_cases hx : x = c
    · rw [if_pos (by simpa using hx)] at h
      rcases List.mem_cons.mp h with rfl | h
      · simp
      · exact ih h
    · rw [if_neg (by simpa using hx), List.modifyHead_cons] at h
      rcases List.mem_cons.mp h with rfl | h
      · have hfirst := ih (List.mem_cons_self (a := first))
        simp [hfirst, Ne.symm hx]
      · exact ih (List.mem_cons_of_mem _ h)

/-- There is at most one part more than there are bytes. -/
theorem length_splitOn_le (c : UInt8) (s : Bytes) : (s.splitOn c).length ≤ s.length + 1 := by
  induction s with
  | nil => simp
  | cons x s ih =>
    rw [List.splitOn_cons_eq_if_modifyHead]
    split_ifs
    · simpa using ih
    · rw [List.length_modifyHead, List.length_cons]
      omega

theorem cut_single (c : UInt8) (s : Bytes) : cut [c] s = s.splitOn c := by
  have hc := List.cons_ne_nil c []
  induction s using cut_induction hc with
  | none s h =>
    have hmem : c ∉ s := fun hmem => h ((List.singleton_infix_iff _ _).mpr hmem)
    rw [cut_of_not_isInfix h, splitOn_of_not_mem hmem]
  | first a b h ih =>
    have hmem : c ∉ a := fun hmem => h.not_isInfix hc ((List.singleton_infix_iff _ _).mpr hmem)
    rw [cut_first hc h, ih, List.append_assoc]
    exact (splitOn_cons hmem b).symm

/-- With a delimiter of one byte, `Split` cuts at each occurrence of it. -/
theorem split_single (s : Bytes) (c : UInt8) : split s [c] = .ok (s.splitOn c) := by
  rw [split_eq s (List.cons_ne_nil c []), cut_single]

/-- `Util::Join`. -/
def join (tokens : List Bytes) (delimiter : Bytes) : Bytes := delimiter.intercalate tokens

/-- Parts that are joined with a byte that is in none of them are cut again. -/
theorem split_join_single {c : UInt8} {parts : List Bytes} (hne : parts ≠ [])
    (hparts : ∀ part ∈ parts, c ∉ part) : split (join parts [c]) [c] = .ok parts := by
  rw [split_single, join, List.splitOn_intercalate c hparts hne]

/-! ### `FromString` -/

/-- The value of a string of digits. -/
def digitsValue (ds : Bytes) : Nat := ds.foldl (fun n d => n * 10 + (d.toNat - 0x30)) 0

/-- `FromString<std::uint32_t>`: `operator >>` skips spaces, takes an optional sign and the
    digits that follow.  Too large a number is cut to the maximum, and without any digit the
    result is 0; when there is nothing to read at all, `ret` keeps its indeterminate value,
    `garbage`. -/
def fromStringUint32 (garbage : Nat) (str : Bytes) : Nat :=
  match str.dropWhile isspace with
  | [] => garbage
  | c :: cs =>
    let signed := c == 0x2B || c == 0x2D                    -- '+', '-'
    let value := digitsValue ((if signed then cs else c :: cs).takeWhile isdigit)
    if value ≥ 2 ^ 32 then 2 ^ 32 - 1
    else if c == 0x2D then (2 ^ 32 - value) % 2 ^ 32
    else value

/-- No digit is a blank or a sign. -/
theorem digit_ne_sign {c : UInt8} (h : isdigit c = true) :
    isspace c = false ∧ c ≠ 0x2B ∧ c ≠ 0x2D := by
  have := forall_byte (p := fun c => !isdigit c || !(isspace c || c == 0x2B || c == 0x2D))
    (by decide +kernel) c
  simpa [h, and_assoc] using this

/-- A text of digits is their value, cut to the maximum. -/
theorem fromStringUint32_digits (garbage : Nat) {ds : Bytes} (hne : ds ≠ [])
    (hdigits : ∀ c ∈ ds, isdigit c = true) : fromStringUint32 garbage ds
      = if digitsValue ds ≥ 2 ^ 32 then 2 ^ 32 - 1 else digitsValue ds := by
  obtain ⟨c, cs, rfl⟩ := List.exists_cons_of_ne_nil hne
  obtain ⟨hspace, hplus, hminus⟩ := digit_ne_sign (hdigits c List.mem_cons_self)
  have hall : (c :: cs).takeWhile isdigit = c :: cs := List.takeWhile_eq_self_iff.mpr hdigits
  rw [fromStringUint32, List.dropWhile_cons_of_neg (by simp [hspace])]
  simp only [beq_eq_false_iff_ne.mpr hplus, beq_eq_false_iff_ne.mpr hminus, Bool.or_self,
    Bool.false_eq_true, if_false, hall]

end Icl.Util
