import Icl.Json.Reading

namespace Icl.Json

open Icl.Cxx Icl.Format Icl.Transition

/-!
# The reader and the meaning of a document

* `meaning` — the value that a document stands for, its numbers being integers;
* `Plain` — integers of at most 15 digits, names that are not empty, strings without DEL and
  without surrogates;
* `intValue_ofNat` — up to `2^53` the sum of the digits in a `double` is exact;
* `itemBytes_eq_decode` — outside the surrogates the reader decodes as the grammar says;
* `parse_jsonText` — **`Parse` gives the meaning of every plain document**.
-/

/-! ### Meanings -/

/-- The bytes that a string stands for. -/
def stringMeaning (items : List StrItem) : Bytes := items.flatMap StrItem.decode

mutual

/-- The value of a document whose numbers are integers. -/
def meaning : Json → JsonValue
  | .null => .null
  | .bool b => .boolean b
  | .number n => .integer n.toInt
  | .string items => .string (stringMeaning items)
  | .array js => .array (elementMeanings js)
  | .object ms =>
    .object ((memberMeanings ms).foldl (fun m e => OrdMap.insertOrAssign e.1 e.2 m) [])

/-- The values of the elements of an array. -/
def elementMeanings : List Json → List JsonValue
  | [] => []
  | j :: js => meaning j :: elementMeanings js

/-- The names and the values of the members of an object, as they are written. -/
def memberMeanings : List (List StrItem × Json) → List (Bytes × JsonValue)
  | [] => []
  | (name, j) :: ms => (stringMeaning name, meaning j) :: memberMeanings ms

end

/-- A string without a raw DEL and without a surrogate escape. -/
def PlainString (items : List StrItem) : Prop :=
  .raw 0x7F ∉ items ∧
    ∀ h₁ h₂ h₃ h₄, .unicode h₁ h₂ h₃ h₄ ∈ items → ¬ IsSurrogate (codeUnit h₁ h₂ h₃ h₄)

mutual

/-- The documents in question. -/
def Plain : Json → Prop
  | .null | .bool _ => True
  | .number n => n.frac = none ∧ n.exp = none ∧ n.int.length ≤ 15
  | .string items => PlainString items
  | .array js => PlainElements js
  | .object ms => PlainMembers ms

/-- The elements of an array. -/
def PlainElements : List Json → Prop
  | [] => True
  | j :: js => Plain j ∧ PlainElements js

/-- The members of an object. -/
def PlainMembers : List (List StrItem × Json) → Prop
  | [] => True
  | (name, j) :: ms => name ≠ [] ∧ PlainString name ∧ Plain j ∧ PlainMembers ms

end

/-! ### Integers -/

/-- Each digit makes the number at most ten times larger. -/
theorem decimalValue_lt {ds : Bytes} (h : Digits ds) : decimalValue ds < 10 ^ ds.length := by
  have key : ∀ n, ds.foldl (fun n d => n * 10 + (d.toNat - 0x30)) n < (n + 1) * 10 ^ ds.length := by
    induction ds with
    | nil => simp
    | cons d ds ih =>
      intro n
      obtain ⟨hd, hds⟩ := List.forall_mem_cons.mp h
      have hdigit : d.toNat - 0x30 < 10 := by
        have := forall_byte (p := fun c => !isdigit c || c.toNat - 0x30 < 10) (by decide +kernel) d
        simpa [hd] using this
      calc (d :: ds).foldl (fun n d => n * 10 + (d.toNat - 0x30)) n
          < (n * 10 + (d.toNat - 0x30) + 1) * 10 ^ ds.length := ih hds _
        _ ≤ (n + 1) * 10 * 10 ^ ds.length := Nat.mul_le_mul_right _ (by omega)
        _ = (n + 1) * 10 ^ (d :: ds).length := by rw [List.length_cons, Nat.pow_succ]; ring
  simpa [decimalValue] using key 0

/-- **The digits of an integer add up exactly** as long as the sum stays below `2^53`. -/
theorem intValue_ofNat {ds : Bytes} (h : decimalValue ds < 2 ^ 53) :
    intValue (.ofNat 0) ds = .ofNat (decimalValue ds) := by
  have key : ∀ n, ds.foldl (fun n d => n * 10 + (d.toNat - 0x30)) n < 2 ^ 53 →
      intValue (.ofNat n) ds
        = .ofNat (ds.foldl (fun n d => n * 10 + (d.toNat - 0x30)) n) := by
    clear h
    induction ds with
    | nil => exact fun _ _ => rfl
    | cons d ds ih =>
      intro n hn
      have hle := le_foldl_decimal ds (n * 10 + (d.toNat - 0x30))
      rw [List.foldl_cons] at hn
      have hstep : ((Double.ofNat n).mul (.ofNat 10)).add (digitToDouble d)
          = .ofNat (n * 10 + (d.toNat - 0x30)) := by
        rw [digitToDouble, Double.ofNat_mul (Double.isDouble_of_le (by omega)),
          Double.ofNat_add (Double.isDouble_of_le (by omega))]
      have hvalue := ih (n * 10 + (d.toNat - 0x30)) hn
      rw [intValue] at hvalue
      rw [intValue, List.foldl_cons, hstep, hvalue, List.foldl_cons]
  exact key 0 h

/-- An integer below `2^53` is read as itself. -/
theorem numberValue_int {n : NumText} (hfrac : n.frac = none) (hexp : n.exp = none)
    (hlt : decimalValue n.int < 2 ^ 53) : numberValue n = .ok (.integer n.toInt) := by
  obtain ⟨neg, int, frac, exp⟩ := n
  obtain ⟨rfl, rfl⟩ : frac = none ∧ exp = none := ⟨hfrac, hexp⟩
  have hlt' : decimalValue int < 2 ^ 63 := by
    dsimp only at hlt
    omega
  cases neg with
  | false =>
    simp [numberValue, intValue_ofNat hlt, NumText.toInt, Double.toInt64_ofNat hlt']
  | true =>
    simp [numberValue, intValue_ofNat hlt, NumText.toInt, Double.toInt64_neg_ofNat hlt'.le]

/-! ### Strings -/

theorem charToInt_eq {c : UInt8} (h : isxdigit c = true) : charToInt c = hexDigit c := by
  have := forall_byte (p := fun c => !isxdigit c || charToInt c == hexDigit c) (by decide +kernel) c
  simpa [h] using this

theorem hexDigit_lt {c : UInt8} (h : isxdigit c = true) : hexDigit c < 16 := by
  have := forall_byte (p := fun c => !isxdigit c || hexDigit c < 16) (by decide +kernel) c
  simpa [h] using this

/-- Setting the bits above is adding. -/
private theorem or_eq_add {b k : Nat} (h : b < 2 ^ k) (a : Nat) :
    2 ^ k * a ||| b = b + 2 ^ k * a := by
  rw [← Nat.two_pow_add_eq_or_of_lt h, Nat.add_comm]

/-- **The bytes pushed for a `\u` escape** are the UTF-8 form of its character. -/
theorem unicodeBytes_eq {n : Nat} (hn : n < 0x10000) (hsurrogate : ¬ IsSurrogate n) :
    unicodeBytes n = String.utf8EncodeChar (Char.ofNat n) := by
  have hvalid : n.isValidChar := by
    unfold IsSurrogate at hsurrogate
    unfold Nat.isValidChar
    omega
  have hval : (Char.ofNat n).val.toNat = n := by
    rw [Char.ofNat, dif_pos hvalid]
    rfl
  have hlow : ∀ m, 0x80 ||| (m &&& 0x3F) = m % 64 + 0x80 := by
    intro m
    have hmod : m &&& 0x3F = m % 64 := Nat.and_two_pow_sub_one_eq_mod m 6
    rw [hmod]
    exact or_eq_add (k := 6) (Nat.mod_lt _ (by decide)) 2
  -- One, two or three bytes; four are for the characters past the first plane.
  unfold unicodeBytes String.utf8EncodeChar
  simp only [hval, hlow, Nat.shiftRight_eq_div_pow]
  by_cases h₁ : n < 0x80
  · rw [if_pos h₁, if_pos (by omega)]
  by_cases h₂ : n < 0x800
  · have hhigh : 0xC0 ||| n / 2 ^ 6 = n / 64 % 32 + 0xC0 := by
      rw [Nat.mod_eq_of_lt (by omega)]
      exact or_eq_add (k := 5) (by omega) 6
    rw [if_neg h₁, if_pos h₂, if_neg (by omega), if_pos (by omega), hhigh]
  · have hhigh : 0xE0 ||| n / 2 ^ 12 = n / 4096 % 16 + 0xE0 := by
      rw [Nat.mod_eq_of_lt (by omega)]
      exact or_eq_add (k := 4) (by omega) 14
    rw [if_neg h₁, if_neg h₂, if_neg (by omega), if_neg (by omega), if_pos (by omega), hhigh]

/-- An item is read as the grammar says. -/
theorem itemBytes_eq_decode {i : StrItem} (hvalid : i.Valid)
    (hsurrogate : ∀ h₁ h₂ h₃ h₄, i = .unicode h₁ h₂ h₃ h₄ →
      ¬ IsSurrogate (codeUnit h₁ h₂ h₃ h₄)) : itemBytes i = i.decode := by
  cases i with
  | raw b => rfl
  | escape c => rw [itemBytes, escapeChar_eq, StrItem.decode]
  | unicode h₁ h₂ h₃ h₄ =>
    obtain ⟨hx₁, hx₂, hx₃, hx₄⟩ := hvalid
    have hlt : codeUnit h₁ h₂ h₃ h₄ < 0x10000 := by
      have := hexDigit_lt hx₁
      have := hexDigit_lt hx₂
      have := hexDigit_lt hx₃
      have := hexDigit_lt hx₄
      unfold codeUnit
      omega
    rw [itemBytes, StrItem.decode, ← unicodeBytes_eq hlt (hsurrogate _ _ _ _ rfl)]
    simp only [codeUnit, charToInt_eq hx₁, charToInt_eq hx₂, charToInt_eq hx₃, charToInt_eq hx₄]

theorem stringBytes_eq {items : List StrItem} (hvalid : ∀ i ∈ items, i.Valid)
    (hplain : PlainString items) : stringBytes items = stringMeaning items := by
  have hitem : ∀ i ∈ items, itemBytes i = i.decode := by
    intro i hi
    refine itemBytes_eq_decode (hvalid i hi) ?_
    rintro h₁ h₂ h₃ h₄ rfl
    exact hplain.2 _ _ _ _ hi
  rw [stringBytes, stringMeaning]
  exact List.flatMap_congr hitem

/-! ### Documents -/

/-- What the induction over the grammar says of a part of a document. -/
def ReadsAs : JsonSym → Prop
  | .value j => Plain j → reading j = some (meaning j)
  | .elements js => PlainElements js → elementsReading js = some (elementMeanings js)
  | .members ms => PlainMembers ms → ∀ acc, membersReading ms acc
      = some ((memberMeanings ms).foldl (fun m e => OrdMap.insertOrAssign e.1 e.2 m) acc)

/-- One more member. -/
theorem readsAs_member {name : List StrItem} {j : Json} {ms : List (List StrItem × Json)}
    (hname : ∀ i ∈ name, i.Valid) (hj : ReadsAs (.value j)) (hms : ReadsAs (.members ms)) :
    ReadsAs (.members ((name, j) :: ms)) := by
  rintro ⟨hne, hstring, hplain, hrest⟩ acc
  have hgood : ¬ (.raw 0x7F ∈ name ∨ name = []) := by
    have := hstring.1
    tauto
  rw [membersReading, if_neg hgood, hj hplain, Option.bind_some, hms hrest, memberMeanings,
    List.foldl_cons, stringBytes_eq hname hstring]

/-- One more element. -/
theorem readsAs_element {j : Json} {js : List Json} (hj : ReadsAs (.value j))
    (hjs : ReadsAs (.elements js)) : ReadsAs (.elements (j :: js)) := by
  rintro ⟨hplain, hrest⟩
  rw [elementsReading, hj hplain, Option.bind_some, hjs hrest, elementMeanings]
  rfl

/-- **The reading of a plain document is its meaning.** -/
theorem derives_readsAs {sym : JsonSym} {b : Bytes} (h : Derives sym b) : ReadsAs sym := by
  induction h with
  | null => exact fun _ => rfl
  | true => exact fun _ => rfl
  | false => exact fun _ => rfl
  | @number n hn =>
    rintro ⟨hfrac, hexp, hlength⟩
    -- At most fifteen digits: the integer is below 2^53 and read exactly.
    have hlt : decimalValue n.int < 2 ^ 53 := by
      calc decimalValue n.int < 10 ^ n.int.length := decimalValue_lt hn.int
        _ ≤ 10 ^ 15 := Nat.pow_le_pow_right (by decide) hlength
        _ < 2 ^ 53 := by decide
    rw [reading, numberValue_int hfrac hexp hlt, meaning]
    rfl
  | string hitems =>
    intro hplain
    rw [reading, if_neg hplain.1, meaning, stringBytes_eq hitems hplain]
  | emptyArray _ => exact fun _ => rfl
  | array _ ih =>
    intro hplain
    rw [reading, ih hplain, meaning]
    rfl
  | lastElement _ _ _ ih => exact readsAs_element ih fun _ => rfl
  | nextElement _ _ _ _ ih ih' => exact readsAs_element ih ih'
  | emptyObject _ => exact fun _ => rfl
  | object _ ih =>
    intro hplain
    rw [reading, ih hplain, meaning]
    rfl
  | lastMember _ hname _ _ _ _ ih => exact readsAs_member hname ih fun _ _ => rfl
  | nextMember _ hname _ _ _ _ _ ih ih' => exact readsAs_member hname ih ih'

/-- `ParseString` gives the meaning of a plain text. -/
theorem parseString_plain {j : Json} {s : Bytes} (h : JsonText j s) (hroot : j.IsContainer)
    (hplain : Plain j) (json : JsonValue) : parseString json s = .ok (true, meaning j) := by
  obtain ⟨w, b, w', -, -, hb, -⟩ := h.derives
  have hreading : reading j = some (meaning j) := derives_readsAs hb hplain
  exact (parseString_jsonText h hroot json _).mpr hreading

/-- **`Parse` gives the meaning** of every plain JSON text whose root is an object or an
    array. -/
theorem parse_jsonText {j : Json} {s : Bytes} (h : JsonText j s) (hroot : j.IsContainer)
    (hplain : Plain j) (json : JsonValue) : parse (cStr s) json = .ok (.ok, meaning j) := by
  have hhalts := parseString_eq_ok_true.mp (parseString_plain h hroot hplain json)
  rw [parse_of_machine (terminated_cStr s) hhalts]
  rfl

/-- A member whose value is an array with a negative number. -/
theorem parse_jsonText_nested : parse (cStr (ascii "\x7b\"k\":[-1]\x7d")) .null
    = .ok (.ok, .object [(ascii "k", .array [.integer (-1)])]) := by
  have hnumber : NumText.Valid ⟨true, [0x31], none, none⟩ :=
    { int := by simp [Digits, isdigit]
      frac := by simp
      exp := by simp
      int_ne_nil := by simp
      no_leading_zero := by simp
      frac_ne_nil := by simp
      exp_ne_nil := by simp }
  have hws : IsWs [] := by simp [IsWs]
  have hname : ∀ i ∈ [StrItem.raw 0x6B], i.Valid := by simp [StrItem.Valid]
  have harray := Derives.array (.lastElement hws (.number hnumber) hws)
  -- The derivation follows the text from the inside out.
  have hderives := Derives.object (.lastMember hws hname hws hws harray hws)
  have htext : JsonText (.object [([.raw 0x6B], .array [.number ⟨true, [0x31], none, none⟩])])
      (ascii "\x7b\"k\":[-1]\x7d") :=
    ⟨⟨['{', '"', 'k', '"', ':', '[', '-', '1', ']', '}'], by decide⟩, [], _, [], rfl, hws,
      hderives, hws⟩
  exact parse_jsonText htext trivial
    (by simp [Plain, PlainMembers, PlainElements, PlainString]) .null

end Icl.Json
