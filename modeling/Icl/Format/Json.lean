import Icl.Cxx.Bytes

namespace Icl.Format

open Icl.Cxx

/-!
# JSON texts

The grammar of RFC 8259, on bytes.

* `StrItem`, `NumText`, `Json` — a document as it is written, less its white space;
* `Derives` — the grammar: which bytes a value, the elements of an array or the members of an
  object may be written as;
* `JsonText` — a whole text, which moreover is UTF-8.
-/

/-! ### Strings -/

/-- One character of a string as it is written: itself, a two-character escape, or an escape
    with four hexadecimal digits. -/
inductive StrItem where
  | raw (b : UInt8)
  | escape (c : UInt8)
  | unicode (h₁ h₂ h₃ h₄ : UInt8)
  deriving DecidableEq, Repr

/-- What the character after a backslash stands for. -/
def unescape (c : UInt8) : Option UInt8 :=
  if c = 0x22 ∨ c = 0x5C ∨ c = 0x2F then some c        -- '"', '\\', '/'
  else if c = 0x62 then some 0x08                      -- 'b'
  else if c = 0x66 then some 0x0C                      -- 'f'
  else if c = 0x6E then some 0x0A                      -- 'n'
  else if c = 0x72 then some 0x0D                      -- 'r'
  else if c = 0x74 then some 0x09                      -- 't'
  else none

/-- The value of a hexadecimal digit. -/
def hexDigit (c : UInt8) : Nat :=
  if isdigit c then c.toNat - 0x30
  else if 0x61 ≤ c then c.toNat - 0x61 + 10
  else c.toNat - 0x41 + 10

/-- The value of four hexadecimal digits. -/
def codeUnit (h₁ h₂ h₃ h₄ : UInt8) : Nat :=
  ((hexDigit h₁ * 16 + hexDigit h₂) * 16 + hexDigit h₃) * 16 + hexDigit h₄

/-- A code unit that is not a character of its own. -/
def IsSurrogate (n : Nat) : Prop := 0xD800 ≤ n ∧ n < 0xE000

namespace StrItem

/-- The bytes of an item. -/
def text : StrItem → Bytes
  | .raw b => [b]
  | .escape c => [0x5C, c]
  | .unicode h₁ h₂ h₃ h₄ => [0x5C, 0x75, h₁, h₂, h₃, h₄]

/-- An item takes at least one byte. -/
theorem text_ne_nil (i : StrItem) : i.text ≠ [] := by cases i <;> simp [text]

/-- What may stand between the quotes: a raw byte is no control character below the space, no
    quote and no backslash. -/
def Valid : StrItem → Prop
  | .raw b => 0x20 ≤ b ∧ b ≠ 0x22 ∧ b ≠ 0x5C
  | .escape c => (unescape c).isSome
  | .unicode h₁ h₂ h₃ h₄ => isxdigit h₁ ∧ isxdigit h₂ ∧ isxdigit h₃ ∧ isxdigit h₄

/-- The bytes an item stands for; a surrogate stands for none by itself. -/
def decode : StrItem → Bytes
  | .raw b => [b]
  | .escape c => (unescape c).toList
  | .unicode h₁ h₂ h₃ h₄ => String.utf8EncodeChar (Char.ofNat (codeUnit h₁ h₂ h₃ h₄))

end StrItem

/-- A string between its quotes. -/
def quoted (items : List StrItem) : Bytes := 0x22 :: (items.flatMap StrItem.text ++ [0x22])

/-- There is no NUL in a string of the grammar. -/
theorem zero_not_mem_quoted {items : List StrItem} (h : ∀ i ∈ items, i.Valid) :
    0 ∉ quoted items := by
  have hitem : ∀ i ∈ items, 0 ∉ i.text := by
    intro i hi
    have hvalid := h i hi
    cases i with
    | raw b =>
      have hb : b ≠ 0 := by rintro rfl; exact absurd hvalid.1 (by decide)
      simpa [StrItem.text] using hb.symm
    | escape c =>
      have hc : c ≠ 0 := by rintro rfl; simp [StrItem.Valid, unescape] at hvalid
      simpa [StrItem.text] using hc.symm
    | unicode h₁ h₂ h₃ h₄ =>
      have hx : ∀ x, isxdigit x = true → 0 ≠ x := by rintro x hx rfl; simp [isxdigit, isdigit] at hx
      obtain ⟨hx₁, hx₂, hx₃, hx₄⟩ := hvalid
      simp [StrItem.text, hx _ hx₁, hx _ hx₂, hx _ hx₃, hx _ hx₄]
  simpa [quoted] using hitem

/-! ### Numbers -/

/-- An exponent as it is written. -/
structure ExpText where
  letter : UInt8
  sign : Option UInt8
  digits : Bytes
  deriving DecidableEq, Repr

/-- A number as it is written. -/
structure NumText where
  neg : Bool
  int : Bytes
  frac : Option Bytes
  exp : Option ExpText
  deriving DecidableEq, Repr

/-- A string of digits. -/
def Digits (ds : Bytes) : Prop := ∀ d ∈ ds, isdigit d = true

/-- The bytes of an exponent. -/
def ExpText.text (e : ExpText) : Bytes := e.letter :: (e.sign.toList ++ e.digits)

/-- The letter and the sign are what they have to be, and digits follow. -/
structure ExpText.Shape (e : ExpText) : Prop where
  letter : e.letter = 0x65 ∨ e.letter = 0x45
  sign : e.sign = none ∨ e.sign = some 0x2B ∨ e.sign = some 0x2D
  digits : Digits e.digits

/-- The number that decimal digits stand for. -/
def decimalValue (ds : Bytes) : Nat := ds.foldl (fun n d => n * 10 + (d.toNat - 0x30)) 0

/-- The number only grows with its digits. -/
theorem le_foldl_decimal (ds : Bytes) (n : Nat) :
    n ≤ ds.foldl (fun n d => n * 10 + (d.toNat - 0x30)) n := by
  induction ds generalizing n with
  | nil => exact le_rfl
  | cons d ds ih =>
    have := ih (n * 10 + (d.toNat - 0x30))
    rw [List.foldl_cons]
    omega

namespace NumText

/-- The value of an integer. -/
def toInt (n : NumText) : Int := if n.neg then -decimalValue n.int else decimalValue n.int

/-- The bytes of a fraction. -/
def fracText (n : NumText) : Bytes := n.frac.elim [] (0x2E :: ·)

/-- The bytes of the exponent, if there is one. -/
def expText (n : NumText) : Bytes := n.exp.elim [] ExpText.text

/-- The bytes of a number. -/
def text (n : NumText) : Bytes :=
  (if n.neg then [0x2D] else []) ++ n.int ++ n.fracText ++ n.expText

/-- Digits are where digits have to be, perhaps none. -/
structure Shape (n : NumText) : Prop where
  int : Digits n.int
  frac : ∀ ds ∈ n.frac, Digits ds
  exp : ∀ e ∈ n.exp, e.Shape

/-- A number of the grammar: each part has a digit, and the first one is no superfluous zero. -/
structure Valid (n : NumText) : Prop extends n.Shape where
  int_ne_nil : n.int ≠ []
  no_leading_zero : n.int.head? = some 0x30 → n.int = [0x30]
  frac_ne_nil : ∀ ds ∈ n.frac, ds ≠ []
  exp_ne_nil : ∀ e ∈ n.exp, e.digits ≠ []

/-- What holds of the digits and of the five other characters holds all along a number. -/
theorem forall_mem_text {p : UInt8 → Prop} (hdigit : ∀ c, isdigit c = true → p c) (hminus : p 0x2D)
    (hplus : p 0x2B) (hpoint : p 0x2E) (he : p 0x65) (hE : p 0x45) {n : NumText} (h : n.Shape) :
    ∀ c ∈ n.text, p c := by
  have hdigits : ∀ ds, Digits ds → ∀ c ∈ ds, p c := fun ds hds c hc => hdigit c (hds c hc)
  have hint := hdigits _ h.int
  -- Sign, integer part, fraction and exponent, one after the other.
  have hneg : ∀ c ∈ (if n.neg then [0x2D] else [] : Bytes), p c := by
    cases n.neg <;> simp [hminus]
  have hfrac : ∀ c ∈ n.fracText, p c := by
    cases hf : n.frac with
    | none => simp [fracText, hf]
    | some ds => simpa [fracText, hf, hpoint] using hdigits ds (h.frac ds hf)
  have hexp : ∀ c ∈ n.expText, p c := by
    cases hx : n.exp with
    | none => simp [expText, hx]
    | some e =>
      obtain ⟨hletter, hsign, hds⟩ := h.exp e hx
      have := hdigits _ hds
      rcases hletter with h | h <;> rcases hsign with h' | h' | h' <;>
        simpa [expText, hx, ExpText.text, h, h', he, hE, hplus, hminus] using this
  intro c hc
  rw [text, List.mem_append, List.mem_append, List.mem_append] at hc
  rcases hc with ((hc | hc) | hc) | hc
  · exact hneg c hc
  · exact hint c hc
  · exact hfrac c hc
  · exact hexp c hc

/-- There is no NUL in a number. -/
theorem zero_not_mem {n : NumText} (h : n.Shape) : 0 ∉ n.text := by
  have hne : ∀ c ∈ n.text, c ≠ 0 :=
    forall_mem_text (by rintro c hc rfl; cases hc) (by decide) (by decide) (by decide) (by decide)
      (by decide) h
  exact fun h0 => hne 0 h0 rfl

end NumText

/-! ### Documents -/

/-- A document as it is written, less its white space. -/
inductive Json where
  | null
  | bool (b : Bool)
  | number (n : NumText)
  | string (items : List StrItem)
  | array (elements : List Json)
  | object (members : List (List StrItem × Json))

/-- White space. -/
def IsWs (w : Bytes) : Prop := ∀ b ∈ w, b = 0x20 ∨ b = 0x09 ∨ b = 0x0A ∨ b = 0x0D

/-- What a part of a text can be. -/
inductive JsonSym where
  | value (j : Json)
  | elements (js : List Json)
  | members (ms : List (List StrItem × Json))

/-- **The grammar.** -/
inductive Derives : JsonSym → Bytes → Prop where
  | null : Derives (.value .null) (ascii "null")
  | true : Derives (.value (.bool Bool.true)) (ascii "true")
  | false : Derives (.value (.bool Bool.false)) (ascii "false")
  | number {n : NumText} : n.Valid → Derives (.value (.number n)) n.text
  | string {items : List StrItem} : (∀ i ∈ items, i.Valid) →
      Derives (.value (.string items)) (quoted items)
  | emptyArray {w : Bytes} : IsWs w → Derives (.value (.array [])) (0x5B :: (w ++ [0x5D]))
  | array {js : List Json} {b : Bytes} : Derives (.elements js) b →
      Derives (.value (.array js)) (0x5B :: (b ++ [0x5D]))
  | lastElement {j : Json} {w w' b : Bytes} : IsWs w → Derives (.value j) b → IsWs w' →
      Derives (.elements [j]) (w ++ b ++ w')
  | nextElement {j : Json} {js : List Json} {w w' b bs : Bytes} : IsWs w → Derives (.value j) b →
      IsWs w' → Derives (.elements js) bs →
      Derives (.elements (j :: js)) (w ++ b ++ w' ++ 0x2C :: bs)
  | emptyObject {w : Bytes} : IsWs w → Derives (.value (.object [])) (0x7B :: (w ++ [0x7D]))
  | object {ms : List (List StrItem × Json)} {b : Bytes} : Derives (.members ms) b →
      Derives (.value (.object ms)) (0x7B :: (b ++ [0x7D]))
  | lastMember {name : List StrItem} {j : Json} {w₁ w₂ w₃ w₄ b : Bytes} : IsWs w₁ →
      (∀ i ∈ name, i.Valid) → IsWs w₂ → IsWs w₃ → Derives (.value j) b → IsWs w₄ →
      Derives (.members [(name, j)]) (w₁ ++ quoted name ++ w₂ ++ 0x3A :: (w₃ ++ b ++ w₄))
  | nextMember {name : List StrItem} {j : Json} {ms : List (List StrItem × Json)}
      {w₁ w₂ w₃ w₄ b bs : Bytes} : IsWs w₁ → (∀ i ∈ name, i.Valid) → IsWs w₂ → IsWs w₃ →
      Derives (.value j) b → IsWs w₄ → Derives (.members ms) bs →
      Derives (.members ((name, j) :: ms))
        (w₁ ++ quoted name ++ w₂ ++ 0x3A :: (w₃ ++ b ++ w₄ ++ 0x2C :: bs))

/-- The bytes are the UTF-8 form of a sequence of Unicode characters. -/
def IsUtf8 (s : Bytes) : Prop := ∃ cs : List Char, s = cs.flatMap String.utf8EncodeChar

/-- A whole text: one value, white space around it, in UTF-8. -/
structure JsonText (j : Json) (s : Bytes) : Prop where
  utf8 : IsUtf8 s
  derives : ∃ w b w', s = w ++ b ++ w' ∧ IsWs w ∧ Derives (.value j) b ∧ IsWs w'

/-- The root is an object or an array. -/
def Json.IsContainer : Json → Prop
  | .array _ | .object _ => True
  | _ => False

end Icl.Format
