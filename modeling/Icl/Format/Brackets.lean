import Icl.Format.Json

namespace Icl.Format

open Icl.Cxx

/-!
# Brackets outside strings

* `brackets` — the brackets of a text that stand outside its string literals;
* `Nested` — properly nested sequences of brackets;
* `Enclosed` — those whose last bracket closes the first one;
* `Yields` — parts of a text that leave no string open, with the brackets they hold.
-/

/-- Where a text is cut: outside strings, in a string, or in a string after a backslash. -/
inductive LexMode where
  | plain | quoted | escaped
  deriving DecidableEq, Repr

/-- `[`, `]`, `{` and `}`. -/
def isBracket (c : UInt8) : Bool := c == 0x5B || c == 0x5D || c == 0x7B || c == 0x7D

/-- The brackets outside string literals, in order. -/
def brackets : LexMode → Bytes → Bytes
  | _, [] => []
  | .plain, c :: s =>
    if c = 0x22 then brackets .quoted s
    else if isBracket c then c :: brackets .plain s
    else brackets .plain s
  | .quoted, c :: s =>
    if c = 0x5C then brackets .escaped s
    else if c = 0x22 then brackets .plain s
    else brackets .quoted s
  | .escaped, _ :: s => brackets .quoted s

example : brackets .plain (ascii "[1, \"]\\\"[\", {}]") = ascii "[\x7b\x7d]" := by decide

/-- An opening bracket and the one that closes it. -/
inductive Matching : UInt8 → UInt8 → Prop where
  | square : Matching 0x5B 0x5D
  | curly : Matching 0x7B 0x7D

/-- **Properly nested.** -/
inductive Nested : Bytes → Prop where
  | nil : Nested []
  | append {s t : Bytes} : Nested s → Nested t → Nested (s ++ t)
  | enclose {o c : UInt8} {s : Bytes} : Matching o c → Nested s → Nested (o :: (s ++ [c]))

/-- Properly nested, and the last bracket closes the first one. -/
def Enclosed (s : Bytes) : Prop :=
  ∃ o inner c, s = o :: (inner ++ [c]) ∧ Matching o c ∧ Nested inner

/-! ### Parts of a text -/

/-- The part leaves no string open, and these are its brackets. -/
def Yields (b bs : Bytes) : Prop := ∀ rest, brackets .plain (b ++ rest) = bs ++ brackets .plain rest

theorem Yields.nil : Yields [] [] := fun _ => rfl

theorem Yields.append {b b' bs bs' : Bytes} (h : Yields b bs) (h' : Yields b' bs') :
    Yields (b ++ b') (bs ++ bs') := by
  intro rest
  rw [List.append_assoc, h, h', List.append_assoc]

/-- A part without brackets is added. -/
theorem Yields.append_nil {b b' bs : Bytes} (h : Yields b bs) (h' : Yields b' []) :
    Yields (b ++ b') bs := by simpa using h.append h'

/-- The part by itself. -/
theorem Yields.eq {b bs : Bytes} (h : Yields b bs) : brackets .plain b = bs := by
  simpa [brackets] using h []

theorem yields_nil_of_forall {b : Bytes} (h : ∀ c ∈ b, c ≠ 0x22 ∧ isBracket c = false) :
    Yields b [] := by
  intro rest
  induction b with
  | nil => rfl
  | cons c b ih =>
    obtain ⟨⟨hquote, hbracket⟩, hb⟩ := List.forall_mem_cons.mp h
    rw [List.cons_append, brackets, if_neg hquote, if_neg (by simp [hbracket]), ih hb]

/-- A bracket. -/
theorem yields_bracket {c : UInt8} (h : isBracket c = true) : Yields [c] [c] := by
  intro rest
  have hquote : c ≠ 0x22 := by
    rintro rfl
    cases h
  rw [List.singleton_append, brackets, if_neg hquote, if_pos h, List.singleton_append]

/-- An item of a string does not end it. -/
theorem brackets_item {i : StrItem} (h : i.Valid) (rest : Bytes) :
    brackets .quoted (i.text ++ rest) = brackets .quoted rest := by
  -- A hexadecimal digit is neither a backslash nor a quotation mark.
  have hhex : ∀ {c : UInt8} (rest : Bytes), isxdigit c = true →
      brackets .quoted (c :: rest) = brackets .quoted rest := by
    intro c rest hc
    have hslash : c ≠ 0x5C := by
      rintro rfl
      cases hc
    have hquote : c ≠ 0x22 := by
      rintro rfl
      cases hc
    rw [brackets, if_neg hslash, if_neg hquote]
  cases i with
  | raw b =>
    obtain ⟨-, hquote, hslash⟩ := h
    show brackets .quoted (b :: rest) = _
    rw [brackets, if_neg hslash, if_neg hquote]
  | escape c => rfl
  | unicode h₁ h₂ h₃ h₄ =>
    obtain ⟨hx₁, hx₂, hx₃, hx₄⟩ := h
    show brackets .quoted (h₁ :: h₂ :: h₃ :: h₄ :: rest) = _
    rw [hhex _ hx₁, hhex _ hx₂, hhex _ hx₃, hhex _ hx₄]

/-- **A string literal** hides its brackets. -/
theorem yields_quoted {items : List StrItem} (h : ∀ i ∈ items, i.Valid) :
    Yields (quoted items) [] := by
  intro rest
  have hitems : brackets .quoted (items.flatMap StrItem.text ++ 0x22 :: rest)
      = brackets .plain rest := by
    induction items with
    | nil => rfl
    | cons i items ih =>
      obtain ⟨hi, hrest⟩ := List.forall_mem_cons.mp h
      rw [List.flatMap_cons, List.append_assoc, brackets_item hi, ih hrest]
  rw [quoted, List.cons_append, List.append_assoc, List.singleton_append]
  exact hitems

theorem yields_number {n : NumText} (h : n.Shape) : Yields n.text [] := by
  refine yields_nil_of_forall (NumText.forall_mem_text ?_ (by decide) (by decide) (by decide)
    (by decide) (by decide) h)
  intro c hc
  have hbyte := forall_byte (p := fun c => !isdigit c || (c != 0x22 && !isBracket c))
    (by decide +kernel) c
  simpa [hc] using hbyte

end Icl.Format
