import Icl.Json.Entries
import Icl.Json.Meaning

namespace Icl.Json

open Icl.Cxx Icl.Format

/-!
# Unicode escapes

A character above U+FFFF is written as two escapes, a surrogate pair, and the string loop makes
three bytes of each of them.

* `Spells` — the escapes that characters are written with;
* `length_stringBytes` — the string that is read is longer than its UTF-8 encoding, by two bytes
  for each pair;
* `unicode_escapes_iff` — when it is the UTF-8 encoding.
-/

/-- The UTF-8 encoding of characters. -/
def utf8 (cs : List Char) : Bytes := cs.flatMap String.utf8EncodeChar

/-- The characters are written as escapes, the digits in either case: one escape for a character up
    to U+FFFF, and a pair of surrogates above. -/
inductive Spells : List Char → List StrItem → Prop where
  | nil : Spells [] []
  | basic {c : Char} {h₁ h₂ h₃ h₄ : UInt8} {cs : List Char} {items : List StrItem} :
      (StrItem.unicode h₁ h₂ h₃ h₄).Valid → codeUnit h₁ h₂ h₃ h₄ = c.toNat →
      Spells cs items → Spells (c :: cs) (.unicode h₁ h₂ h₃ h₄ :: items)
  | pair {c : Char} {h₁ h₂ h₃ h₄ l₁ l₂ l₃ l₄ : UInt8} {cs : List Char} {items : List StrItem} :
      (StrItem.unicode h₁ h₂ h₃ h₄).Valid → (StrItem.unicode l₁ l₂ l₃ l₄).Valid →
      0x10000 ≤ c.toNat →
      codeUnit h₁ h₂ h₃ h₄ = 0xD800 + (c.toNat - 0x10000) / 0x400 →
      codeUnit l₁ l₂ l₃ l₄ = 0xDC00 + (c.toNat - 0x10000) % 0x400 →
      Spells cs items → Spells (c :: cs) (.unicode h₁ h₂ h₃ h₄ :: .unicode l₁ l₂ l₃ l₄ :: items)

/-! ### One escape -/

section Escape

variable {h₁ h₂ h₃ h₄ : UInt8}

theorem codeUnit_lt (h : (StrItem.unicode h₁ h₂ h₃ h₄).Valid) : codeUnit h₁ h₂ h₃ h₄ < 0x10000 := by
  obtain ⟨hx₁, hx₂, hx₃, hx₄⟩ := h
  have := hexDigit_lt hx₁
  have := hexDigit_lt hx₂
  have := hexDigit_lt hx₃
  have := hexDigit_lt hx₄
  unfold codeUnit
  omega

/-- A scalar value is no surrogate. -/
theorem not_isSurrogate_toNat (c : Char) : ¬ IsSurrogate c.toNat := by
  have hvalid : c.toNat < 0xD800 ∨ 0xDFFF < c.toNat ∧ c.toNat < 0x110000 := c.valid
  unfold IsSurrogate
  omega

/-- An escape of a character of its own. -/
theorem itemBytes_basic {c : Char} (hvalid : (StrItem.unicode h₁ h₂ h₃ h₄).Valid)
    (hc : codeUnit h₁ h₂ h₃ h₄ = c.toNat) :
    itemBytes (.unicode h₁ h₂ h₃ h₄) = String.utf8EncodeChar c := by
  have hsurrogate : ∀ k₁ k₂ k₃ k₄, StrItem.unicode h₁ h₂ h₃ h₄ = .unicode k₁ k₂ k₃ k₄ →
      ¬ IsSurrogate (codeUnit k₁ k₂ k₃ k₄) := by
    rintro k₁ k₂ k₃ k₄ ⟨rfl⟩
    rw [hc]
    exact not_isSurrogate_toNat c
  rw [itemBytes_eq_decode hvalid hsurrogate, StrItem.decode, hc, Char.ofNat_toNat]

/-- An escape of a surrogate takes three bytes. -/
theorem length_itemBytes_surrogate (hvalid : (StrItem.unicode h₁ h₂ h₃ h₄).Valid)
    (h : 0xD800 ≤ codeUnit h₁ h₂ h₃ h₄) : (itemBytes (.unicode h₁ h₂ h₃ h₄)).length = 3 := by
  obtain ⟨hx₁, hx₂, hx₃, hx₄⟩ := hvalid
  rw [codeUnit] at h
  rw [itemBytes, charToInt_eq hx₁, charToInt_eq hx₂, charToInt_eq hx₃, charToInt_eq hx₄,
    unicodeBytes, if_neg (by omega), if_neg (by omega)]
  rfl

end Escape

/-- A character above U+FFFF takes four bytes. -/
theorem length_utf8EncodeChar_of_le {c : Char} (h : 0x10000 ≤ c.toNat) :
    (String.utf8EncodeChar c).length = 4 := by
  have hval : c.val.toNat = c.toNat := rfl
  rw [String.length_utf8EncodeChar, Char.utf8Size]
  simp only [UInt32.le_iff_toNat_le, hval, UInt32.toNat_ofNatLT]
  rw [if_neg (by omega), if_neg (by omega), if_neg (by omega)]

/-! ### Strings of escapes -/

section Strings

variable {cs : List Char} {items : List StrItem}

theorem Spells.valid (h : Spells cs items) : ∀ i ∈ items, i.Valid := by
  induction h with
  | nil => exact fun i hi => absurd hi List.not_mem_nil
  | basic hvalid _ _ ih => exact List.forall_mem_cons.mpr ⟨hvalid, ih⟩
  | pair hhigh hlow _ _ _ _ ih =>
    exact List.forall_mem_cons.mpr ⟨hhigh, List.forall_mem_cons.mpr ⟨hlow, ih⟩⟩

theorem Spells.raw_not_mem (h : Spells cs items) (b : UInt8) : .raw b ∉ items := by
  induction h with
  | nil => simp
  | basic _ _ _ ih => simpa using ih
  | pair _ _ _ _ _ _ ih => simpa using ih

/-- **What is read is longer than the encoding**, by two bytes for each character above U+FFFF. -/
theorem length_stringBytes (h : Spells cs items) : (stringBytes items).length
    = (utf8 cs).length + 2 * cs.countP fun c => 0x10000 ≤ c.toNat := by
  induction h with
  | nil => rfl
  | @basic c h₁ h₂ h₃ h₄ cs items hvalid hc _ ih =>
    have hlt : ¬ 0x10000 ≤ c.toNat := by
      have := codeUnit_lt hvalid
      omega
    simp only [stringBytes, utf8] at ih ⊢
    rw [List.flatMap_cons, List.flatMap_cons, List.length_append, List.length_append, ih,
      itemBytes_basic hvalid hc, List.countP_cons_of_neg (by simpa using hlt)]
    omega
  | @pair c h₁ h₂ h₃ h₄ l₁ l₂ l₃ l₄ cs items hhigh hlow hc hcodeHigh hcodeLow _ ih =>
    simp only [stringBytes, utf8] at ih ⊢
    rw [List.flatMap_cons, List.flatMap_cons, List.flatMap_cons, List.length_append,
      List.length_append, List.length_append, ih, length_itemBytes_surrogate hhigh (by omega),
      length_itemBytes_surrogate hlow (by omega), length_utf8EncodeChar_of_le hc,
      List.countP_cons_of_pos (by simpa using hc)]
    omega

/-- Characters up to U+FFFF are read as their encoding. -/
theorem stringBytes_basic (h : Spells cs items) (hbasic : ∀ c ∈ cs, c.toNat < 0x10000) :
    stringBytes items = utf8 cs := by
  induction h with
  | nil => rfl
  | basic hvalid hc _ ih =>
    rw [stringBytes, utf8, List.flatMap_cons, List.flatMap_cons, itemBytes_basic hvalid hc]
    exact congrArg _ (ih (List.forall_mem_cons.mp hbasic).2)
  | pair _ _ hc _ _ _ _ =>
    exact absurd hc (not_le.mpr (List.forall_mem_cons.mp hbasic).1)

theorem stringBytes_eq_utf8_iff (h : Spells cs items) :
    stringBytes items = utf8 cs ↔ ∀ c ∈ cs, c.toNat < 0x10000 := by
  refine ⟨fun heq => ?_, stringBytes_basic h⟩
  have hlength := length_stringBytes h
  rw [heq] at hlength
  have hnone : cs.countP (fun c => 0x10000 ≤ c.toNat) = 0 := by omega
  intro c hc
  simpa using List.countP_eq_zero.mp hnone c hc

end Strings

/-- **When escapes are decoded to UTF-8**: a literal that spells characters as escapes, a name or a
    value, is read as a string, and a value with that string stands in the tree; the string is the
    UTF-8 encoding of the characters exactly if none of them is above U+FFFF. -/
theorem unicode_escapes_iff {cs : List Char} {items : List StrItem} (h : Spells cs items) :
    (∀ w rest, Blank w → Terminated rest → Delimited rest →
      ∃ s, nextToken (w ++ (quoted items ++ rest)) = .ok (.scalar (.string s), rest) ∧
        (s = utf8 cs ↔ ∀ c ∈ cs, c.toNat < 0x10000)) ∧
    ∀ j text json v position, JsonText j text → j.IsContainer →
      parseString json text = .ok (true, v) → StandsAt (.string items) j position →
      ∃ s, valueAt position v = some (.string s) ∧
        (s = utf8 cs ↔ ∀ c ∈ cs, c.toNat < 0x10000) := by
  have hdel : .raw 0x7F ∉ items := h.raw_not_mem 0x7F
  constructor
  · intro w rest hw hrest hdelim
    refine ⟨stringBytes items, ?_, stringBytes_eq_utf8_iff h⟩
    exact (nextToken_scalar hw (ScalarText.string h.valid) hrest hdelim).1 _ (if_neg hdel)
  · intro j text json v position htext hroot hparse hat
    obtain ⟨u, hu, hvalue⟩ := valueAt_parseString htext hroot hparse hat
    rw [reading, if_neg hdel] at hu
    obtain rfl := Option.some.inj hu
    exact ⟨stringBytes items, hvalue, stringBytes_eq_utf8_iff h⟩

/-- U+00E9, with small letters, at the end of an array. -/
theorem unicode_escapes_small : ∃ s,
    nextToken (ascii "\"\\u00e9\"]" ++ [0]) = .ok (.scalar (.string s), ascii "]" ++ [0]) ∧
      s = utf8 [Char.ofNat 0xE9] := by
  have hspells : Spells [Char.ofNat 0xE9] [.unicode 0x30 0x30 0x65 0x39] :=
    .basic (by simp [StrItem.Valid, isxdigit, isdigit]) (by decide) .nil
  obtain ⟨s, htoken, hs⟩ := (unicode_escapes_iff hspells).1 [] (ascii "]" ++ [0]) .nil
    ⟨ascii "]", rfl, by decide +kernel⟩ ⟨0x5D, rfl, by decide⟩
  exact ⟨s, htoken, hs.mpr (List.forall_mem_singleton.mpr (by decide))⟩

/-- U+1F600 is read as six bytes, and its encoding has four. -/
theorem not_unicode_escapes_pair : ¬ ∀ cs items, Spells cs items → ∀ w rest, Blank w →
    Terminated rest → Delimited rest →
      nextToken (w ++ (quoted items ++ rest)) = .ok (.scalar (.string (utf8 cs)), rest) := by
  intro h
  have hspells : Spells [Char.ofNat 0x1F600]
      [.unicode 0x64 0x38 0x33 0x64, .unicode 0x64 0x65 0x30 0x30] :=
    .pair (by simp [StrItem.Valid, isxdigit, isdigit]) (by simp [StrItem.Valid, isxdigit, isdigit])
      (by decide) (by decide) (by decide) .nil
  have htoken := h _ _ hspells [] (ascii "]" ++ [0]) .nil ⟨ascii "]", rfl, by decide +kernel⟩
    ⟨0x5D, rfl, by decide⟩
  have hread : nextToken (ascii "\"\\ud83d\\ude00\"]" ++ [0])
      = .ok (.scalar (.string [0xED, 0xA0, 0xBD, 0xED, 0xB8, 0x80]), ascii "]" ++ [0]) := rfl
  have heq := Except.ok.inj (hread.symm.trans htoken)
  have hstring := JsonValue.string.inj (Token.scalar.inj (Prod.mk.inj heq).1)
  exact absurd hstring (by decide)

end Icl.Json
