import Icl.Format.Json
import Icl.Json.JsonReader
import Mathlib.Data.List.TakeWhile

namespace Icl.Json

open Icl.Cxx Icl.Format

/-!
# What the scanning functions of `JsonReader` read

On a NUL-terminated string each scanning function stays at or before the terminator.  This file
says for each of them what it reads, as a decomposition of the string, and what it makes of it.

* `skipSpace_eq`, `scanInt_eq`, `scanFraction_eq`, `scanExponent_eq` — the simple loops;
* `stringToNumber_split`, `stringToNumber_text` — a number, from the string to its parts and from
  the parts to the string;
* `scanString_split`, `scanString_items` — the same for a string;
* `scanLiteral_split`, `scanLiteral_append` — the same for a literal.
-/

/-! ### Terminated strings -/

/-- A C string: its only NUL is its last byte. -/
def Terminated (s : Bytes) : Prop := ∃ w, s = w ++ [0] ∧ 0 ∉ w

/-- A text is terminated by its first character or by what follows it. -/
theorem terminated_cons {c : UInt8} {s : Bytes} :
    Terminated (c :: s) ↔ c = 0 ∧ s = [] ∨ c ≠ 0 ∧ Terminated s := by
  constructor
  · rintro ⟨_ | ⟨d, w⟩, hs, hw⟩
    · left
      simpa using hs
    · right
      obtain ⟨rfl, rfl⟩ : c = d ∧ s = w ++ [0] := by simpa using hs
      obtain ⟨hc, hw⟩ : 0 ≠ c ∧ 0 ∉ w := by simpa using hw
      exact ⟨hc.symm, w, rfl, hw⟩
  · rintro (⟨rfl, rfl⟩ | ⟨hc, w, rfl, hw⟩)
    · exact ⟨[], rfl, by simp⟩
    · exact ⟨c :: w, rfl, by simp [hc.symm, hw]⟩

/-- Behind the terminating zero there is no text any more. -/
theorem not_terminated_nil : ¬ Terminated [] := by
  rintro ⟨w, hs, -⟩
  simp at hs

/-- The terminating zero alone is a text. -/
theorem terminated_zero : Terminated [0] := ⟨[], rfl, by simp⟩

/-- `c_str` terminates every string. -/
theorem terminated_cStr (data : Bytes) : Terminated (cStr data) :=
  ⟨data.takeWhile (· ≠ 0), rfl, fun h => by simpa using List.mem_takeWhile_imp h⟩

/-- The first character of a C string. -/
theorem Terminated.cases {s : Bytes} (h : Terminated s) :
    s = [0] ∨ ∃ c s', s = c :: s' ∧ c ≠ 0 ∧ Terminated s' := by
  rcases s with _ | ⟨c, s⟩
  · exact absurd h not_terminated_nil
  · rcases terminated_cons.mp h with ⟨rfl, rfl⟩ | ⟨hc, hs⟩
    · exact .inl rfl
    · exact .inr ⟨c, s, rfl, hc, hs⟩

/-- What follows a part without a NUL. -/
theorem terminated_append {w s : Bytes} (hw : 0 ∉ w) : Terminated (w ++ s) ↔ Terminated s := by
  induction w with
  | nil => rfl
  | cons c w ih =>
    obtain ⟨hc, hw⟩ : 0 ≠ c ∧ 0 ∉ w := by simpa using hw
    rw [List.cons_append, terminated_cons, ih hw]
    simp [hc.symm]

/-- A loop over a character class that does not hold the NUL stops on the C string. -/
theorem Terminated.dropWhile {s : Bytes} (h : Terminated s) {p : UInt8 → Bool} (hp : p 0 = false) :
    Terminated (s.dropWhile p) := by
  induction s with
  | nil => exact absurd h not_terminated_nil
  | cons c s ih =>
    rw [List.dropWhile_cons]
    split_ifs with hc
    · rcases terminated_cons.mp h with ⟨rfl, -⟩ | ⟨-, hs⟩
      · simp [hp] at hc
      · exact ih hs
    · exact h

/-! ### White space and digits -/

/-- The first character, if there is one, is not in the class. -/
def HeadNot (p : UInt8 → Bool) (s : Bytes) : Prop := ∀ c ∈ s.head?, p c = false

/-- Characters of one kind are taken up to the first of another kind. -/
theorem takeWhile_append_of_headNot {p : UInt8 → Bool} {w s : Bytes} (hw : ∀ c ∈ w, p c = true)
    (hs : HeadNot p s) : (w ++ s).takeWhile p = w := by
  rw [List.takeWhile_append_of_pos hw]
  rcases s with _ | ⟨c, s⟩
  · simp
  · simp [hs c rfl]

/-- And dropped up to there. -/
theorem dropWhile_append_of_headNot {p : UInt8 → Bool} {w s : Bytes} (hw : ∀ c ∈ w, p c = true)
    (hs : HeadNot p s) : (w ++ s).dropWhile p = s := by
  rw [List.dropWhile_append_of_pos hw]
  rcases s with _ | ⟨c, s⟩
  · simp
  · simp [hs c rfl]

/-- What is left does not begin with one of the kind. -/
theorem headNot_dropWhile (p : UInt8 → Bool) (s : Bytes) : HeadNot p (s.dropWhile p) := by
  intro c hc
  have := List.head?_dropWhile_not p s
  rw [Option.mem_def] at hc
  simpa [hc] using this

/-- **The blanks are skipped**, the terminating zero being none. -/
theorem skipSpace_eq {s : Bytes} (h : Terminated s) : skipSpace s = .ok (s.dropWhile isspace) := by
  induction s with
  | nil => exact absurd h not_terminated_nil
  | cons c s ih =>
    rw [skipSpace, List.dropWhile_cons]
    rcases terminated_cons.mp h with ⟨rfl, -⟩ | ⟨hc, hs⟩
    · rfl
    · by_cases hspace : isspace c = true
      · simp [hc, hspace, ih hs]
      · simp [hspace]

/-- The value of the digits before the point. -/
def intValue (result : Double) (ds : Bytes) : Double :=
  ds.foldl (fun r c => (r.mul (.ofNat 10)).add (digitToDouble c)) result

/-- `fraction` and `result` after the digits after the point. -/
def fractionValue (fraction result : Double) (ds : Bytes) : Double :=
  (ds.foldl (fun (f, r) c => (f.mul .tenth, r.add ((digitToDouble c).mul (f.mul .tenth))))
    (fraction, result)).2

/-- The value of the digits of the exponent. -/
def exponentValue (exponent : Int) (ds : Bytes) : Int :=
  ds.foldl (fun e c => int32 (e * 10 + (c.toNat - 0x30))) exponent

/-- **The digits of the integer part** are taken into the result one by one. -/
theorem scanInt_eq {s : Bytes} (h : Terminated s) (result : Double) :
    scanInt s result = .ok (intValue result (s.takeWhile isdigit), s.dropWhile isdigit) := by
  induction s generalizing result with
  | nil => exact absurd h not_terminated_nil
  | cons c s ih =>
    rw [scanInt, List.takeWhile_cons, List.dropWhile_cons]
    rcases terminated_cons.mp h with ⟨rfl, -⟩ | ⟨-, hs⟩
    · rfl
    · by_cases hdigit : isdigit c = true
      · simp [hdigit, ih hs, intValue]
      · simp [hdigit, intValue]

/-- Those of the fraction as well, each with a tenth of the factor before. -/
theorem scanFraction_eq {s : Bytes} (h : Terminated s) (fraction result : Double) :
    scanFraction s fraction result
      = .ok (fractionValue fraction result (s.takeWhile isdigit), s.dropWhile isdigit) := by
  induction s generalizing fraction result with
  | nil => exact absurd h not_terminated_nil
  | cons c s ih =>
    rw [scanFraction, List.takeWhile_cons, List.dropWhile_cons]
    rcases terminated_cons.mp h with ⟨rfl, -⟩ | ⟨-, hs⟩
    · rfl
    · by_cases hdigit : isdigit c = true
      · simp [hdigit, ih hs, fractionValue]
      · simp [hdigit, fractionValue]

/-- And those of the exponent, in `int`. -/
theorem scanExponent_eq {s : Bytes} (h : Terminated s) (exponent : Int) :
    scanExponent s exponent
      = .ok (exponentValue exponent (s.takeWhile isdigit), s.dropWhile isdigit) := by
  induction s generalizing exponent with
  | nil => exact absurd h not_terminated_nil
  | cons c s ih =>
    rw [scanExponent, List.takeWhile_cons, List.dropWhile_cons]
    rcases terminated_cons.mp h with ⟨rfl, -⟩ | ⟨-, hs⟩
    · rfl
    · by_cases hdigit : isdigit c = true
      · simp [hdigit, ih hs, exponentValue]
      · simp [hdigit, exponentValue]

/-! ### Numbers -/

/-- `base`, by the sign of the exponent. -/
def expBase (e : ExpText) : Double := if e.sign = some 0x2D then .tenth else .ofNat 10

/-- What `StringToNumber` makes of the parts of a number. -/
def numberValue (n : NumText) : Except Fault JsonValue := do
  let result := intValue (.ofNat 0) n.int
  let result := n.frac.elim result (fractionValue (.ofNat 1) result)
  let result ← n.exp.elim (.ok result) fun e => do
    let power ← powerOf (exponentValue 0 e.digits) (expBase e)
    return result.mul power
  let result := if n.neg then result.neg else result
  return if n.frac.isSome || n.exp.isSome then .double result else .integer result.toInt64

/-- What has been taken as digits is digits. -/
theorem digits_takeWhile (s : Bytes) : Digits (s.takeWhile isdigit) :=
  fun _ hc => List.mem_takeWhile_imp hc

/-- After the integer part comes a point with digits, or no point. -/
theorem scanPoint_split {s : Bytes} (h : Terminated s) (result : Double) :
    ∃ frac rest, s = frac.elim [] (0x2E :: ·) ++ rest ∧ (∀ ds ∈ frac, Digits ds) ∧
      Terminated rest ∧ (frac = none → HeadNot (· == 0x2E) s) ∧
      scanPoint s result
        = .ok (frac.isSome, frac.elim result (fractionValue (.ofNat 1) result), rest) := by
  rcases s with _ | ⟨c, s⟩
  · exact absurd h not_terminated_nil
  · by_cases hc : c = 0x2E
    · subst hc
      have hs : Terminated s := by simpa [terminated_cons] using h
      refine ⟨some (s.takeWhile isdigit), s.dropWhile isdigit, ?_, ?_, hs.dropWhile rfl, ?_, ?_⟩
      · simp
      · simpa using digits_takeWhile s
      · simp
      · simp [scanPoint, deref, scanFraction_eq hs]
    · refine ⟨none, c :: s, rfl, by simp, h, ?_, ?_⟩
      · intro _
        simpa [HeadNot] using hc
      · simp [scanPoint, deref, hc]

/-- After the E comes a sign, or none. -/
theorem scanExponentSign_split {s : Bytes} (h : Terminated s) :
    ∃ sign : Option UInt8, ∃ rest, s = sign.toList ++ rest ∧
      (sign = none ∨ sign = some 0x2B ∨ sign = some 0x2D) ∧ Terminated rest ∧
      scanExponentSign s = .ok (if sign = some 0x2D then .tenth else .ofNat 10, rest) := by
  rcases s with _ | ⟨c, s⟩
  · exact absurd h not_terminated_nil
  · by_cases hplus : c = 0x2B
    · subst hplus
      refine ⟨some 0x2B, s, rfl, by simp, by simpa [terminated_cons] using h, ?_⟩
      simp [scanExponentSign, deref]
    · by_cases hminus : c = 0x2D
      · subst hminus
        refine ⟨some 0x2D, s, rfl, by simp, by simpa [terminated_cons] using h, ?_⟩
        simp [scanExponentSign, deref]
      · refine ⟨none, c :: s, rfl, by simp, h, ?_⟩
        simp [scanExponentSign, deref, hplus, hminus]

/-- After the fraction comes an exponent, or none. -/
theorem scanExp_split {s : Bytes} (h : Terminated s) (result : Double) :
    ∃ exp : Option ExpText, ∃ rest, s = exp.elim [] ExpText.text ++ rest ∧
      (∀ e ∈ exp, e.Shape ∧ HeadNot isdigit rest) ∧ Terminated rest ∧
      scanExp s result = exp.elim (.ok (false, result, rest)) fun e => do
        let power ← powerOf (exponentValue 0 e.digits) (expBase e)
        return (true, result.mul power, rest) := by
  rcases s with _ | ⟨c, s⟩
  · exact absurd h not_terminated_nil
  · by_cases hc : c = 0x65 ∨ c = 0x45
    · have hs : Terminated s := by
        rcases hc with rfl | rfl <;> simpa [terminated_cons] using h
      obtain ⟨sign, rest, rfl, hsign, hrest, hscan⟩ := scanExponentSign_split hs
      -- The exponent may have no digits at all.
      refine ⟨some ⟨c, sign, rest.takeWhile isdigit⟩, rest.dropWhile isdigit, ?_, ?_,
        hrest.dropWhile rfl, ?_⟩
      · simp [ExpText.text]
      · intro e he
        obtain rfl : _ = e := by simpa using he
        exact ⟨⟨hc, hsign, digits_takeWhile rest⟩, headNot_dropWhile isdigit rest⟩
      · simp [scanExp, deref, hc, hscan, scanExponent_eq hrest, expBase]
    · refine ⟨none, c :: s, rfl, by simp, h, ?_⟩
      simp [scanExp, deref, hc]

/-- What a number can begin with: a digit, or a minus before a digit or a point. -/
structure Begins (n : NumText) : Prop where
  pos : n.neg = false → n.int ≠ []
  neg : n.neg = true → n.int ≠ [] ∨ n.frac.isSome

/-- **A number, from the string to its parts.** -/
theorem stringToNumber_split {c : UInt8} {s : Bytes} (h : Terminated (c :: s))
    (hc : isdigit c ∨ c = 0x2D ∧ ∃ d ∈ s.head?, isdigit d ∨ d = 0x2E) :
    ∃ n rest, c :: s = n.text ++ rest ∧ n.Shape ∧ Begins n ∧ Terminated rest ∧
      (∀ e ∈ n.exp, HeadNot isdigit rest) ∧
      stringToNumber (c :: s) = numberValue n >>= fun v => .ok (v, rest) := by
  -- The sign, then the rest of the number in one go.
  obtain ⟨neg, t, hsign, hneg, hbegin, ht⟩ : ∃ neg t,
      c :: s = (if neg = true then [0x2D] else []) ++ t ∧
      ((if c = 0x2B ∨ c = 0x2D then s else c :: s) = t ∧ (c = 0x2D ↔ neg = true)) ∧
      (∃ d ∈ t.head?, isdigit d ∨ neg = true ∧ d = 0x2E) ∧ Terminated t := by
    rcases hc with hc | ⟨rfl, d, hd, hstart⟩
    · have hplus : c ≠ 0x2B := by rintro rfl; simp [isdigit] at hc
      have hminus : c ≠ 0x2D := by rintro rfl; simp [isdigit] at hc
      exact ⟨false, c :: s, rfl, by simp [hplus, hminus], ⟨c, rfl, .inl hc⟩, h⟩
    · refine ⟨true, s, rfl, by simp, ⟨d, hd, ?_⟩, by simpa [terminated_cons] using h⟩
      simpa using hstart
  have hdigits : t = t.takeWhile isdigit ++ t.dropWhile isdigit :=
    List.takeWhile_append_dropWhile.symm
  obtain ⟨frac, rest₁, hfrac, hfracDigits, hrest₁, hnone, hpoint⟩ :=
    scanPoint_split (ht.dropWhile (p := isdigit) rfl) (intValue (.ofNat 0) (t.takeWhile isdigit))
  obtain ⟨exp, rest, hexp, hexpShape, hrest, hscan⟩ := scanExp_split hrest₁
    (frac.elim (intValue (.ofNat 0) (t.takeWhile isdigit))
      (fractionValue (.ofNat 1) (intValue (.ofNat 0) (t.takeWhile isdigit))))
  refine ⟨⟨neg, t.takeWhile isdigit, frac, exp⟩, rest, ?_, ⟨digits_takeWhile t, hfracDigits,
    fun e he => (hexpShape e he).1⟩, ?_, hrest, fun e he => (hexpShape e he).2, ?_⟩
  · rw [hsign, NumText.text, NumText.fracText, NumText.expText]
    conv_lhs => rw [hdigits, hfrac, hexp]
    simp
  · -- The first character after the sign decides.
    obtain ⟨d, hd, hstart⟩ := hbegin
    obtain ⟨t', rfl⟩ : ∃ t', t = d :: t' := by
      rcases t with _ | ⟨d', t'⟩
      · simp at hd
      · exact ⟨t', by simpa using hd⟩
    rcases hstart with hdigit | ⟨htrue, rfl⟩
    · have hne : (d :: t').takeWhile isdigit ≠ [] := by simp [hdigit]
      exact ⟨fun _ => hne, fun _ => .inl hne⟩
    · refine ⟨fun hfalse => absurd (htrue.symm.trans hfalse) (by simp), fun _ => .inr ?_⟩
      by_contra hfracNone
      have := hnone (by simpa using hfracNone)
      simp [HeadNot, isdigit] at this
  · have hminus : (if c = 0x2D then true else false) = neg := by
      by_cases hm : c = 0x2D
      · rw [if_pos hm, hneg.2.mp hm]
      · rw [if_neg hm]
        cases neg with
        | true => exact absurd (hneg.2.mpr rfl) hm
        | false => rfl
    simp only [stringToNumber, deref, ok_bind, List.tail_cons, hneg.1, scanInt_eq ht, hpoint, hscan,
      numberValue, ← hminus]
    cases exp with
    | none => by_cases hm : c = 0x2D <;> simp [hm]
    | some e =>
      simp only [Option.elim_some]
      cases powerOf (exponentValue 0 e.digits) (expBase e) with
      | error err => rfl
      | ok power => by_cases hm : c = 0x2D <;> simp [hm]

/-- The characters that may go on a number. -/
def isNumberChar (c : UInt8) : Bool :=
  isdigit c || c == 0x2E || c == 0x65 || c == 0x45 || c == 0x2B || c == 0x2D

/-- What does not begin with one of many characters does not begin with one of fewer. -/
theorem HeadNot.mono {p q : UInt8 → Bool} {s : Bytes} (h : HeadNot q s)
    (hpq : ∀ c, p c = true → q c = true) : HeadNot p s := by
  intro c hc
  by_contra hp
  have := h c hc
  simp [hpq c (by simpa using hp)] at this

/-- No digit terminates a text. -/
theorem terminated_digits {ds : Bytes} (hds : Digits ds) {s : Bytes} :
    Terminated (ds ++ s) ↔ Terminated s :=
  terminated_append fun h => by simpa [isdigit] using hds 0 h

/-- The fraction of a number text is read back as it is written. -/
theorem scanPoint_text {frac : Option Bytes} (hfrac : ∀ ds ∈ frac, Digits ds) {rest : Bytes}
    (hrest : Terminated rest) (hdigit : HeadNot isdigit rest) (hpoint : HeadNot (· == 0x2E) rest)
    (result : Double) : scanPoint (frac.elim [] (0x2E :: ·) ++ rest) result
      = .ok (frac.isSome, frac.elim result (fractionValue (.ofNat 1) result), rest) := by
  cases frac with
  | none =>
    rcases rest with _ | ⟨c, s⟩
    · exact absurd hrest not_terminated_nil
    · have hc : c ≠ 0x2E := by simpa using hpoint c rfl
      simp [scanPoint, deref, hc]
  | some ds =>
    have hds : Digits ds := hfrac ds rfl
    simp [scanPoint, deref, scanFraction_eq ((terminated_digits hds).mpr hrest),
      takeWhile_append_of_headNot hds hdigit, dropWhile_append_of_headNot hds hdigit]

/-- The number with this exponent ends before `rest`: no digit goes on with it, and no other
    character of a number either unless there are digits of an exponent. -/
structure Ends (exp : Option ExpText) (rest : Bytes) : Prop where
  digit : HeadNot isdigit rest
  number : (∀ e ∈ exp, e.digits = []) → HeadNot isNumberChar rest

/-- A text that goes on with no character of a number ends the exponent. -/
theorem Ends.of_headNot {exp : Option ExpText} {rest : Bytes} (h : HeadNot isNumberChar rest) :
    Ends exp rest :=
  ⟨h.mono fun c hc => by simp [isNumberChar, hc], fun _ => h⟩

/-- The exponent of a number text is read back as it is written. -/
theorem scanExp_text {exp : Option ExpText} (hexp : ∀ e ∈ exp, e.Shape) {rest : Bytes}
    (hrest : Terminated rest) (hends : Ends exp rest) (result : Double) :
    scanExp (exp.elim [] ExpText.text ++ rest) result
      = exp.elim (.ok (false, result, rest)) fun e => do
        let power ← powerOf (exponentValue 0 e.digits) (expBase e)
        return (true, result.mul power, rest) := by
  cases exp with
  | none =>
    rcases rest with _ | ⟨c, s⟩
    · exact absurd hrest not_terminated_nil
    · -- An E would be a character of the number.
      have hc : ¬ (c = 0x65 ∨ c = 0x45) := by
        have := hends.number (by simp) c rfl
        rintro (rfl | rfl) <;> simp [isNumberChar] at this
      simp [scanExp, deref, hc]
  | some e =>
    obtain ⟨letter, sign, ds⟩ := e
    obtain ⟨hletter, hsign, hds⟩ := hexp _ rfl
    have hdigit := hends.digit
    have hscan : scanExponentSign (sign.toList ++ (ds ++ rest))
        = .ok (if sign = some 0x2D then .tenth else .ofNat 10, ds ++ rest) := by
      rcases hsign with rfl | rfl | rfl
      · -- No sign: the next character is a digit, or ends the number.
        rcases hds' : ds ++ rest with _ | ⟨c, s⟩
        · exact absurd ((terminated_digits hds).mpr hrest) (hds' ▸ not_terminated_nil)
        · have hc : isdigit c = true ∨ isNumberChar c = false := by
            rcases ds with _ | ⟨d, ds⟩
            · obtain rfl : rest = c :: s := by simpa using hds'
              exact .inr (hends.number (by simp) c rfl)
            · obtain ⟨rfl, -⟩ : d = c ∧ ds ++ rest = s := by simpa using hds'
              exact .inl (hds d (by simp))
          have hplus : c ≠ 0x2B := by rintro rfl; simp [isdigit, isNumberChar] at hc
          have hminus : c ≠ 0x2D := by rintro rfl; simp [isdigit, isNumberChar] at hc
          simp [scanExponentSign, deref, hplus, hminus]
      · simp [scanExponentSign, deref]
      · simp [scanExponentSign, deref]
    simp [scanExp, deref, ExpText.text, hletter, hscan, expBase,
      scanExponent_eq ((terminated_digits hds).mpr hrest), takeWhile_append_of_headNot hds hdigit,
      dropWhile_append_of_headNot hds hdigit]

/-- Only the loop over the bits of the exponent can go wrong. -/
theorem numberValue_error {n : NumText} {e : Fault} (h : numberValue n = .error e) :
    e = .endlessLoop ∧ ∃ x ∈ n.exp, exponentValue 0 x.digits < 0 := by
  obtain ⟨neg, int, frac, exp⟩ := n
  cases exp with
  | none => simp [numberValue] at h
  | some x =>
    by_cases hneg : exponentValue 0 x.digits < 0
    · refine ⟨?_, x, rfl, hneg⟩
      simpa [numberValue, powerOf, hneg] using h.symm
    · simp [numberValue, powerOf, hneg] at h

/-- **A number, from its parts to the string.** -/
theorem stringToNumber_text {n : NumText} (hshape : n.Shape) (hbegins : Begins n) {rest : Bytes}
    (hrest : Terminated rest) (hends : Ends n.exp rest) :
    stringToNumber (n.text ++ rest) = numberValue n >>= fun v => .ok (v, rest) := by
  obtain ⟨neg, int, frac, exp⟩ := n
  obtain ⟨hint, hfrac, hexp⟩ := hshape
  -- From the back to the front: what stands behind each part is terminated, and does not begin with
  -- a character that the loop over the part would take.
  have hletters : ∀ e ∈ exp, e.letter ≠ 0 ∧ isdigit e.letter = false ∧ e.letter ≠ 0x2E := by
    intro e he
    rcases (hexp e he).letter with h | h <;> rw [h] <;> decide
  have hexpTerminated : Terminated (exp.elim [] ExpText.text ++ rest) := by
    cases exp with
    | none => simpa using hrest
    | some e =>
      obtain ⟨hletter, hsign, hds⟩ := hexp e rfl
      refine (terminated_append ?_).mpr hrest
      have hzero : 0 ∉ e.digits := fun h => by simpa [isdigit] using hds 0 h
      rcases hletter with h | h <;> rcases hsign with h' | h' | h' <;>
        simp [ExpText.text, h, h', hzero]
  have hexpHead : ∀ p : UInt8 → Bool, (∀ c, p c = true → isNumberChar c = true) →
      (∀ e ∈ exp, p e.letter = false) → HeadNot p (exp.elim [] ExpText.text ++ rest) := by
    intro p hp hletter
    cases exp with
    | none => simpa using (hends.number (by simp)).mono hp
    | some e => simpa [HeadNot, ExpText.text] using hletter e rfl
  have hdigitExp : HeadNot isdigit (exp.elim [] ExpText.text ++ rest) :=
    hexpHead isdigit (fun c hc => by simp [isNumberChar, hc]) fun e he => (hletters e he).2.1
  have hpointExp : HeadNot (· == 0x2E) (exp.elim [] ExpText.text ++ rest) :=
    hexpHead _ (fun c hc => by simp_all [isNumberChar]) fun e he => by
      simpa using (hletters e he).2.2
  have hfracTerminated :
      Terminated (frac.elim [] (0x2E :: ·) ++ (exp.elim [] ExpText.text ++ rest)) := by
    cases frac with
    | none => simpa using hexpTerminated
    | some ds =>
      have hds := (terminated_digits (hfrac ds rfl)).mpr hexpTerminated
      simpa [terminated_cons] using hds
  have hfracDigit :
      HeadNot isdigit (frac.elim [] (0x2E :: ·) ++ (exp.elim [] ExpText.text ++ rest)) := by
    cases frac with
    | none => simpa using hdigitExp
    | some ds => simp [HeadNot, isdigit]
  have htext : NumText.text ⟨neg, int, frac, exp⟩ ++ rest = (if neg = true then [0x2D] else [])
      ++ (int ++ (frac.elim [] (0x2E :: ·) ++ (exp.elim [] ExpText.text ++ rest))) := by
    simp [NumText.text, NumText.fracText, NumText.expText]
  -- Each loop takes its own part.
  have hbody := (terminated_digits hint).mpr hfracTerminated
  have hscanInt := scanInt_eq hbody (.ofNat 0)
  rw [takeWhile_append_of_headNot hint hfracDigit, dropWhile_append_of_headNot hint hfracDigit]
    at hscanInt
  have hscanPoint := scanPoint_text hfrac hexpTerminated hdigitExp hpointExp
    (intValue (.ofNat 0) int)
  have hscanExp := scanExp_text hexp hrest hends
    (frac.elim (intValue (.ofNat 0) int) (fractionValue (.ofNat 1) (intValue (.ofNat 0) int)))
  rw [htext]
  -- It is left to see that `stringToNumber` finds the sign, or none.
  generalize hb : int ++ (frac.elim [] (0x2E :: ·) ++ (exp.elim [] ExpText.text ++ rest)) = body
    at hscanInt
  cases neg with
  | true =>
    simp only [if_true, List.cons_append, List.nil_append, stringToNumber, deref, ok_bind, or_true,
      List.tail_cons, hscanInt, hscanPoint, hscanExp, numberValue]
    cases exp with
    | none => simp
    | some e =>
      simp only [Option.elim_some]
      cases powerOf (exponentValue 0 e.digits) (expBase e) <;> simp
  | false =>
    rcases int with _ | ⟨d, ds⟩
    · exact absurd rfl (hbegins.pos rfl)
    · -- A digit is no sign.
      have hd : isdigit d = true := hint d (by simp)
      have hplus : d ≠ 0x2B := by rintro rfl; simp [isdigit] at hd
      have hminus : d ≠ 0x2D := by rintro rfl; simp [isdigit] at hd
      rw [List.cons_append] at hb
      subst hb
      simp only [Bool.false_eq_true, if_false, List.nil_append, stringToNumber, deref, ok_bind,
        hplus, hminus, or_self, hscanInt, hscanPoint, hscanExp, numberValue]
      cases exp with
      | none => simp
      | some e =>
        simp only [Option.elim_some]
        cases powerOf (exponentValue 0 e.digits) (expBase e) <;> simp

/-! ### Strings -/

/-- What the string loop makes of an item. -/
def itemBytes : StrItem → Bytes
  | .raw b => [b]
  | .escape c => (escapeChar c).toList
  | .unicode h₁ h₂ h₃ h₄ => unicodeBytes
      (((charToInt h₁ * 16 + charToInt h₂) * 16 + charToInt h₃) * 16 + charToInt h₄)

/-- What the string loop makes of a string. -/
def stringBytes (items : List StrItem) : Bytes := items.flatMap itemBytes

/-- The items that the string loop takes: those of the grammar but a raw DEL. -/
def Readable (i : StrItem) : Prop := i.Valid ∧ i ≠ .raw 0x7F

/-- The code and the grammar know the same escapes. -/
theorem escapeChar_eq (c : UInt8) : escapeChar c = unescape c := by
  unfold escapeChar unescape
  split_ifs <;> simp_all

/-- A raw byte of the grammar is no control character but perhaps DEL. -/
theorem iscntrl_raw {b : UInt8} (h : StrItem.Valid (.raw b)) : iscntrl b = true ↔ b = 0x7F := by
  have hle : ¬ b < 0x20 := by
    have := h.1
    rw [UInt8.le_iff_toNat_le] at this
    rw [UInt8.lt_iff_toNat_lt]
    omega
  simp [iscntrl, hle]

/-- An item is read and pushed. -/
theorem scanString_item {i : StrItem} (h : Readable i) (temp rest : Bytes) :
    scanString .plain temp (i.text ++ rest) = scanString .plain (temp ++ itemBytes i) rest := by
  obtain ⟨hvalid, hdel⟩ := h
  -- A character that is neither quotation mark nor backslash, an escape, or a code unit in
  -- hexadecimal.
  cases i with
  | raw b =>
    have hcntrl : iscntrl b = false := by
      rw [Bool.eq_false_iff, ne_eq, iscntrl_raw hvalid]
      simpa using hdel
    have hzero : b ≠ 0 := by rintro rfl; simp [iscntrl] at hcntrl
    simp [StrItem.text, scanString, itemBytes, hcntrl, hzero, hvalid.2.1, hvalid.2.2]
  | escape c =>
    obtain ⟨b, hb⟩ := Option.isSome_iff_exists.mp hvalid
    have hu : c ≠ 0x75 := by rintro rfl; simp [unescape] at hb
    rw [← escapeChar_eq] at hb
    simp [StrItem.text, scanString, itemBytes, hu, hb]
  | unicode h₁ h₂ h₃ h₄ =>
    obtain ⟨hx₁, hx₂, hx₃, hx₄⟩ := hvalid
    simp [StrItem.text, scanString, itemBytes, hx₁, hx₂, hx₃, hx₄]

/-- **The items of a string are read one by one.** -/
theorem scanString_items {items : List StrItem} (h : ∀ i ∈ items, Readable i)
    (temp rest : Bytes) : scanString .plain temp (items.flatMap StrItem.text ++ rest)
      = scanString .plain (temp ++ stringBytes items) rest := by
  induction items generalizing temp with
  | nil => simp [stringBytes]
  | cons i items ih =>
    obtain ⟨hi, hitems⟩ := List.forall_mem_cons.mp h
    rw [List.flatMap_cons, List.append_assoc, scanString_item hi, ih hitems]
    simp [stringBytes]

/-- The quotation mark ends the string. -/
@[simp] theorem scanString_quote (temp rest : Bytes) :
    scanString .plain temp (0x22 :: rest) = .ok (some (temp, rest)) := rfl

/-- The character DEL ends it as an error. -/
@[simp] theorem scanString_del (temp rest : Bytes) :
    scanString .plain temp (0x7F :: rest) = .ok none := rfl

/-- **A string of the grammar**: it is read, unless there is a raw DEL in it. -/
theorem scanString_text {items : List StrItem} (h : ∀ i ∈ items, i.Valid) (rest : Bytes) :
    scanString .plain [] (items.flatMap StrItem.text ++ 0x22 :: rest)
      = .ok (if .raw 0x7F ∈ items then none else some (stringBytes items, rest)) := by
  by_cases hdel : .raw 0x7F ∈ items
  · rw [if_pos hdel]
    obtain ⟨pre, post, rfl, hpre⟩ := List.eq_append_cons_of_mem hdel
    have hread : ∀ i ∈ pre, Readable i := fun i hi =>
      ⟨h i (by simp [hi]), fun heq => hpre (heq ▸ hi)⟩
    rw [List.flatMap_append, List.append_assoc, scanString_items hread, List.flatMap_cons]
    rfl
  · rw [if_neg hdel, scanString_items fun i hi => ⟨h i hi, fun heq => hdel (heq ▸ hi)⟩]
    simp

/-- One turn of the string loop: it fails, ends, or takes one item. -/
theorem scanString_turn {s : Bytes} (h : Terminated s) (temp : Bytes) :
    scanString .plain temp s = .ok none ∨
    s = [0] ∧ scanString .plain temp s = .ok (some (temp, [0])) ∨
    (∃ rest, s = 0x22 :: rest ∧ Terminated rest) ∨
    ∃ i rest, Readable i ∧ s = i.text ++ rest ∧ Terminated rest := by
  rcases h.cases with rfl | ⟨c, s, rfl, hc, hs⟩
  · exact .inr (.inl ⟨rfl, rfl⟩)
  by_cases hback : c = 0x5C
  · subst hback
    rcases hs.cases with rfl | ⟨e, s₀, rfl, he, hs₀⟩
    · exact .inl rfl
    by_cases hu : e = 0x75
    · subst hu
      -- The four digits, one after the other.
      have hdigit : ∀ {n u : Nat} {s : Bytes}, Terminated s →
          scanString (.unicode n u) temp s = .ok none ∨
          ∃ x s', s = x :: s' ∧ isxdigit x = true ∧ Terminated s' := by
        intro n u s hs
        rcases hs.cases with rfl | ⟨x, s, rfl, -, hs⟩
        · exact .inl rfl
        · by_cases hx : isxdigit x = true
          · exact .inr ⟨x, s, rfl, hx, hs⟩
          · exact .inl (by simp [scanString, hx])
      have hfirst : ∀ s, scanString .plain temp (0x5C :: 0x75 :: s)
          = scanString (.unicode 0 0) temp s := fun _ => rfl
      rcases hdigit (n := 0) (u := 0) hs₀ with hbad | ⟨x₁, s₁, rfl, hx₁, hs₁⟩
      · exact .inl ((hfirst _).trans hbad)
      rcases hdigit (n := 1) (u := charToInt x₁) hs₁ with hbad | ⟨x₂, s₂, rfl, hx₂, hs₂⟩
      · exact .inl (by simpa [hfirst, scanString, hx₁] using hbad)
      rcases hdigit (n := 2) (u := charToInt x₁ * 16 + charToInt x₂) hs₂ with
        hbad | ⟨x₃, s₃, rfl, hx₃, hs₃⟩
      · exact .inl (by simpa [hfirst, scanString, hx₁, hx₂] using hbad)
      rcases hdigit (n := 3) (u := (charToInt x₁ * 16 + charToInt x₂) * 16 + charToInt x₃) hs₃ with
        hbad | ⟨x₄, s₄, rfl, hx₄, hs₄⟩
      · exact .inl (by simpa [hfirst, scanString, hx₁, hx₂, hx₃] using hbad)
      exact .inr (.inr (.inr ⟨.unicode x₁ x₂ x₃ x₄, s₄, ⟨⟨hx₁, hx₂, hx₃, hx₄⟩, by simp⟩, rfl, hs₄⟩))
    · cases hesc : escapeChar e with
      | none => exact .inl (by simp [scanString, hu, hesc])
      | some b =>
        have hvalid : StrItem.Valid (.escape e) := by
          simp [StrItem.Valid, ← escapeChar_eq, hesc]
        exact .inr (.inr (.inr ⟨.escape e, s₀, ⟨hvalid, by simp⟩, rfl, hs₀⟩))
  · by_cases hquote : c = 0x22
    · subst hquote
      exact .inr (.inr (.inl ⟨s, rfl, hs⟩))
    by_cases hcntrl : iscntrl c = true
    · exact .inl (by simp [scanString, hc, hback, hcntrl])
    · have hle : 0x20 ≤ c := by
        by_contra hlt
        simp [iscntrl, not_le.mp hlt] at hcntrl
      have hdel : c ≠ 0x7F := by rintro rfl; simp [iscntrl] at hcntrl
      exact .inr (.inr (.inr ⟨.raw c, s, ⟨⟨hle, hquote, hback⟩, by simpa using hdel⟩, rfl, hs⟩))

/-- **A string, from the bytes to its items**: it fails, it is read up to its closing quote, or it
    runs into the end of the text. -/
theorem scanString_split {s : Bytes} (h : Terminated s) (temp : Bytes) :
    scanString .plain temp s = .ok none ∨
    ∃ items rest, (∀ i ∈ items, Readable i) ∧
      scanString .plain temp s = .ok (some (temp ++ stringBytes items, rest)) ∧
      (s = items.flatMap StrItem.text ++ 0x22 :: rest ∧ Terminated rest ∨
        s = items.flatMap StrItem.text ++ [0] ∧ rest = [0]) := by
  -- On the length: the loop takes an item at a time, of one, two or six bytes.
  induction hn : s.length using Nat.strong_induction_on generalizing s temp with
  | h n ih =>
    rcases scanString_turn h temp with
      hbad | ⟨rfl, hend⟩ | ⟨rest, rfl, hrest⟩ | ⟨i, rest, hi, rfl, hrest⟩
    · exact .inl hbad
    · exact .inr ⟨[], [0], by simp, by simpa [stringBytes] using hend, .inr ⟨rfl, rfl⟩⟩
    · exact .inr ⟨[], rest, by simp, by simp [stringBytes], .inl ⟨rfl, hrest⟩⟩
    · have hpos := List.length_pos_iff.mpr i.text_ne_nil
      rw [scanString_item hi]
      rw [List.length_append] at hn
      rcases ih rest.length (by omega) hrest (temp ++ itemBytes i) rfl with
        hbad | ⟨items, rest', hitems, hscan, hsplit⟩
      · exact .inl hbad
      · refine .inr ⟨i :: items, rest', List.forall_mem_cons.mpr ⟨hi, hitems⟩, ?_, ?_⟩
        · rw [hscan]
          simp [stringBytes]
        · rcases hsplit with ⟨rfl, hrest'⟩ | ⟨rfl, rfl⟩
          · exact .inl ⟨by simp, hrest'⟩
          · exact .inr ⟨by simp, rfl⟩

/-! ### Literals -/

/-- A literal is read where it stands. -/
theorem scanLiteral_append (ls rest : Bytes) : scanLiteral ls (ls ++ rest) = .ok (some rest) := by
  induction ls with
  | nil => cases rest <;> rfl
  | cons l ls ih => simpa [scanLiteral] using ih

/-- A literal, from the bytes on: it fails, or it is there. -/
theorem scanLiteral_split {ls s : Bytes} (hls : 0 ∉ ls) (h : Terminated s) :
    scanLiteral ls s = .ok none ∨ ∃ rest, s = ls ++ rest ∧ Terminated rest ∧
      scanLiteral ls s = .ok (some rest) := by
  induction ls generalizing s with
  | nil => exact .inr ⟨s, rfl, h, by cases s <;> rfl⟩
  | cons l ls ih =>
    obtain ⟨hl, hls⟩ : 0 ≠ l ∧ 0 ∉ ls := by simpa using hls
    rcases h.cases with rfl | ⟨c, s, rfl, -, hs⟩
    · exact .inl (by simp [scanLiteral, hl.symm])
    · by_cases hc : l = c
      · subst hc
        rcases ih hls hs with hbad | ⟨rest, rfl, hrest, hscan⟩
        · exact .inl (by simpa [scanLiteral] using hbad)
        · exact .inr ⟨rest, rfl, hrest, by simpa [scanLiteral] using hscan⟩
      · exact .inl (by simp [scanLiteral, hc])

end Icl.Json
