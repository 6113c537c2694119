import Icl.Json.Entries
import Icl.Json.WriteRead

namespace Icl.Json

open Icl.Cxx Icl.Format

/-!
# Integers in a document

* `jsonText_integer`, `parseString_integer` — an array with an integer in it;
* `integers_read` — what an integer of a document is read as, and when it is read as itself.
-/

open Double (IsDouble)

/-! ### Documents -/

theorem isUtf8_ascii {s : Bytes} (h : ∀ b ∈ s, b < 0x80) : IsUtf8 s := by
  refine ⟨s.map fun b => Char.ofNat b.toNat, ?_⟩
  have hbyte : ∀ b ∈ s, String.utf8EncodeChar (Char.ofNat b.toNat) = [b] := by
    intro b hb
    have := forall_byte (p := fun b => !decide (b < 0x80) ||
      decide (String.utf8EncodeChar (Char.ofNat b.toNat) = [b])) (by decide +kernel) b
    simpa [h b hb] using this
  rw [List.flatMap_map, List.flatMap_congr hbyte, List.flatMap_singleton']

/-- There is no zero in front of the digits of a number. -/
theorem decimal_head {m : Nat} (h : (decimal m).head? = some 0x30) : decimal m = [0x30] := by
  induction m using Nat.strong_induction_on with
  | _ m ih =>
    rcases Nat.lt_or_ge m 10 with hlt | hge
    · rw [decimal_of_lt hlt] at h ⊢
      rw [List.head?_cons] at h
      rw [Option.some.inj h]
    · rw [decimal_append hge, List.head?_append_of_ne_nil _ (decimal_ne_nil _)] at h
      have hzero := decimalValue_decimal (m / 10)
      rw [ih (m / 10) (by omega) h] at hzero
      exact absurd hzero (by rw [show decimalValue [0x30] = 0 from rfl]; omega)

theorem valid_intText (n : Int) : (intText n).Valid where
  int := digits_decimal _
  frac := by simp [intText]
  exp := by simp [intText]
  int_ne_nil := decimal_ne_nil _
  no_leading_zero := decimal_head
  frac_ne_nil := by simp [intText]
  exp_ne_nil := by simp [intText]

/-- An array with an integer in it. -/
theorem jsonText_integer (n : Int) :
    JsonText (.array [.number (intText n)]) (0x5B :: ((intText n).text ++ [0x5D])) := by
  have hws : IsWs [] := by simp [IsWs]
  have hascii : ∀ b ∈ (intText n).text, b < 0x80 :=
    NumText.forall_mem_text (fun c hc => by
      have := forall_byte (p := fun c => !isdigit c || decide (c < 0x80)) (by decide +kernel) c
      simpa [hc] using this) (by decide) (by decide) (by decide) (by decide) (by decide)
      (valid_intText n).toShape
  have hderives := Derives.array (.lastElement hws (.number (valid_intText n)) hws)
  refine ⟨isUtf8_ascii ?_, [], _, [], ?_, hws, hderives, hws⟩
  · intro b hb
    rcases List.mem_cons.mp hb with rfl | hb
    · decide
    · rcases List.mem_append.mp hb with hb | hb
      · exact hascii b hb
      · obtain rfl := List.mem_singleton.mp hb
        decide
  · simp

/-- What becomes of that array. -/
theorem parseString_integer (n : Int) (json : JsonValue) :
    parseString json (0x5B :: ((intText n).text ++ [0x5D]))
      = .ok (true, .array [.integer (rereadInt n)]) := by
  refine (parseString_jsonText (jsonText_integer n) trivial json _).mpr ?_
  rw [reading, elementsReading, reading, numberValue_intText]
  rfl

theorem standsAt_integer (n : Int) :
    StandsAt (.number (intText n)) (.array [.number (intText n)]) [.index 0] :=
  @StandsAt.element _ [] _ _ _ .here

/-- **What an integer of a document is read as.**  It is itself exactly when it sums up: if none of
    the products and sums of its digits is rounded, and only if it has at most 53 significant bits
    itself; up to `2 ^ 54` these are the same. -/
theorem integers_read {n : Int} (hle : -2 ^ 63 ≤ n) (hlt : n < 2 ^ 63) {j : Json} {text : Bytes}
    {json v : JsonValue} {position : Position} (htext : JsonText j text) (hroot : j.IsContainer)
    (hparse : parseString json text = .ok (true, v))
    (hat : StandsAt (.number (intText n)) j position) :
    ∃ m, valueAt position v = some (.integer m) ∧ (m = n ↔ SumsUp n) ∧
      (ReadExactly n.natAbs → m = n) ∧ (m = n → IsDouble n.natAbs) ∧
      (n.natAbs ≤ 2 ^ 54 → (m = n ↔ IsDouble n.natAbs)) := by
  obtain ⟨u, hu, hvalue⟩ := valueAt_parseString htext hroot hparse hat
  rw [reading, numberValue_intText] at hu
  obtain rfl := Option.some.inj hu
  exact ⟨rereadInt n, hvalue, Iff.rfl, sumsUp_of_readExactly hle hlt, SumsUp.isDouble, sumsUp_iff⟩

/-- `2 ^ 53`, in an array. -/
theorem integers_read_power : ∃ v, parseString .null (ascii "[9007199254740992]") = .ok (true, v) ∧
    valueAt [.index 0] v = some (.integer (2 ^ 53)) := by
  have htext : (0x5B :: ((intText (2 ^ 53)).text ++ [0x5D]) : Bytes)
      = ascii "[9007199254740992]" := by decide +kernel
  have hparse := parseString_integer (2 ^ 53) .null
  obtain ⟨m, hvalue, -, hexact, -⟩ := integers_read (n := 2 ^ 53) (by decide) (by decide)
    (jsonText_integer _) trivial hparse (standsAt_integer _)
  rw [hexact (readExactly_of_le (by decide))] at hvalue
  rw [htext] at hparse
  exact ⟨_, hparse, hvalue⟩

/-- `2 ^ 53 + 1` is read as `2 ^ 53`. -/
theorem not_integers_read : ¬ ∀ n : Int, -2 ^ 63 ≤ n → n < 2 ^ 63 →
    ∀ j text json v position, JsonText j text → j.IsContainer →
      parseString json text = .ok (true, v) → StandsAt (.number (intText n)) j position →
        valueAt position v = some (.integer n) := by
  intro h
  have hvalue := h (2 ^ 53 + 1) (by decide) (by decide) _ _ .null _ _ (jsonText_integer _) trivial
    (parseString_integer _ _) (standsAt_integer _)
  have hread := JsonValue.integer.inj (Option.some.inj hvalue)
  exact absurd hread (by decide +kernel)

end Icl.Json
