import Icl.Cxx.Bytes
import Mathlib.Data.List.GetD

namespace Icl.Format

open Icl.Cxx

/-!
# AES, of FIPS 197

* `xtime`, `mul` — the finite field;
* `sbox` — the substitution of bytes;
* `keyExpansion` — the words of the key schedule, by their recurrence;
* `cipher` — the rounds;
* `encrypt` — a block of sixteen bytes under a key of 16, 24 or 32 bytes.
-/

namespace Fips197

/-! ### Bytes -/

/-- `XTIMES`: the multiplication by `x`. -/
def xtime (b : UInt8) : UInt8 := if b &&& 0x80 ≠ 0 then b <<< 1 ^^^ 0x1b else b <<< 1

/-- One step of the product: the sum so far, and the multiple of the first factor. -/
def mulStep (b : UInt8) (st : UInt8 × UInt8) (i : Nat) : UInt8 × UInt8 :=
  (if b.toNat.testBit i then st.1 ^^^ st.2 else st.1, xtime st.2)

/-- The product of two bytes. -/
def mul (a b : UInt8) : UInt8 := ((List.range 8).foldl (mulStep b) (0, a)).1

/-- The table of `SBOX`, of sixteen rows. -/
def sboxTable : List UInt8 :=
  [
    0x63, 0x7c, 0x77, 0x7b, 0xf2, 0x6b, 0x6f, 0xc5, 0x30, 0x01, 0x67, 0x2b, 0xfe, 0xd7, 0xab, 0x76,
    0xca, 0x82, 0xc9, 0x7d, 0xfa, 0x59, 0x47, 0xf0, 0xad, 0xd4, 0xa2, 0xaf, 0x9c, 0xa4, 0x72, 0xc0,
    0xb7, 0xfd, 0x93, 0x26, 0x36, 0x3f, 0xf7, 0xcc, 0x34, 0xa5, 0xe5, 0xf1, 0x71, 0xd8, 0x31, 0x15,
    0x04, 0xc7, 0x23, 0xc3, 0x18, 0x96, 0x05, 0x9a, 0x07, 0x12, 0x80, 0xe2, 0xeb, 0x27, 0xb2, 0x75,
    0x09, 0x83, 0x2c, 0x1a, 0x1b, 0x6e, 0x5a, 0xa0, 0x52, 0x3b, 0xd6, 0xb3, 0x29, 0xe3, 0x2f, 0x84,
    0x53, 0xd1, 0x00, 0xed, 0x20, 0xfc, 0xb1, 0x5b, 0x6a, 0xcb, 0xbe, 0x39, 0x4a, 0x4c, 0x58, 0xcf,
    0xd0, 0xef, 0xaa, 0xfb, 0x43, 0x4d, 0x33, 0x85, 0x45, 0xf9, 0x02, 0x7f, 0x50, 0x3c, 0x9f, 0xa8,
    0x51, 0xa3, 0x40, 0x8f, 0x92, 0x9d, 0x38, 0xf5, 0xbc, 0xb6, 0xda, 0x21, 0x10, 0xff, 0xf3, 0xd2,
    0xcd, 0x0c, 0x13, 0xec, 0x5f, 0x97, 0x44, 0x17, 0xc4, 0xa7, 0x7e, 0x3d, 0x64, 0x5d, 0x19, 0x73,
    0x60, 0x81, 0x4f, 0xdc, 0x22, 0x2a, 0x90, 0x88, 0x46, 0xee, 0xb8, 0x14, 0xde, 0x5e, 0x0b, 0xdb,
    0xe0, 0x32, 0x3a, 0x0a, 0x49, 0x06, 0x24, 0x5c, 0xc2, 0xd3, 0xac, 0x62, 0x91, 0x95, 0xe4, 0x79,
    0xe7, 0xc8, 0x37, 0x6d, 0x8d, 0xd5, 0x4e, 0xa9, 0x6c, 0x56, 0xf4, 0xea, 0x65, 0x7a, 0xae, 0x08,
    0xba, 0x78, 0x25, 0x2e, 0x1c, 0xa6, 0xb4, 0xc6, 0xe8, 0xdd, 0x74, 0x1f, 0x4b, 0xbd, 0x8b, 0x8a,
    0x70, 0x3e, 0xb5, 0x66, 0x48, 0x03, 0xf6, 0x0e, 0x61, 0x35, 0x57, 0xb9, 0x86, 0xc1, 0x1d, 0x9e,
    0xe1, 0xf8, 0x98, 0x11, 0x69, 0xd9, 0x8e, 0x94, 0x9b, 0x1e, 0x87, 0xe9, 0xce, 0x55, 0x28, 0xdf,
    0x8c, 0xa1, 0x89, 0x0d, 0xbf, 0xe6, 0x42, 0x68, 0x41, 0x99, 0x2d, 0x0f, 0xb0, 0x54, 0xbb, 0x16
  ]

/-- `SBOX`. -/
def sbox (b : UInt8) : UInt8 := sboxTable.getD b.toNat 0

/-! ### Words and states -/

/-- A word, which is also a column of the state. -/
structure Word where
  b₀ : UInt8
  b₁ : UInt8
  b₂ : UInt8
  b₃ : UInt8
  deriving DecidableEq, Repr

instance : Inhabited Word := ⟨⟨0, 0, 0, 0⟩⟩

instance : XorOp Word := ⟨fun v w => ⟨v.b₀ ^^^ w.b₀, v.b₁ ^^^ w.b₁, v.b₂ ^^^ w.b₂, v.b₃ ^^^ w.b₃⟩⟩

theorem Word.xor_eq (v w : Word) : v ^^^ w
    = ⟨v.b₀ ^^^ w.b₀, v.b₁ ^^^ w.b₁, v.b₂ ^^^ w.b₂, v.b₃ ^^^ w.b₃⟩ := rfl

theorem Word.xor_comm (v w : Word) : v ^^^ w = w ^^^ v := by
  rw [Word.xor_eq, Word.xor_eq, UInt8.xor_comm v.b₀, UInt8.xor_comm v.b₁, UInt8.xor_comm v.b₂,
    UInt8.xor_comm v.b₃]

theorem Word.xor_assoc (u v w : Word) : u ^^^ v ^^^ w = u ^^^ (v ^^^ w) := by
  simp only [Word.xor_eq, UInt8.xor_assoc]

def Word.bytes (w : Word) : Bytes := [w.b₀, w.b₁, w.b₂, w.b₃]

/-- The words of a text. -/
def words : Bytes → List Word
  | b₀ :: b₁ :: b₂ :: b₃ :: rest => ⟨b₀, b₁, b₂, b₃⟩ :: words rest
  | _ => []

/-- `SUBWORD`. -/
def subWord (w : Word) : Word := ⟨sbox w.b₀, sbox w.b₁, sbox w.b₂, sbox w.b₃⟩

/-- `ROTWORD`. -/
def rotWord (w : Word) : Word := ⟨w.b₁, w.b₂, w.b₃, w.b₀⟩

/-- The state, by its columns. -/
structure State where
  c₀ : Word
  c₁ : Word
  c₂ : Word
  c₃ : Word
  deriving DecidableEq, Repr

/-- `SUBBYTES`. -/
def subBytes (s : State) : State := ⟨subWord s.c₀, subWord s.c₁, subWord s.c₂, subWord s.c₃⟩

/-- `SHIFTROWS`. -/
def shiftRows (s : State) : State where
  c₀ := ⟨s.c₀.b₀, s.c₁.b₁, s.c₂.b₂, s.c₃.b₃⟩
  c₁ := ⟨s.c₁.b₀, s.c₂.b₁, s.c₃.b₂, s.c₀.b₃⟩
  c₂ := ⟨s.c₂.b₀, s.c₃.b₁, s.c₀.b₂, s.c₁.b₃⟩
  c₃ := ⟨s.c₃.b₀, s.c₀.b₁, s.c₁.b₂, s.c₂.b₃⟩

def mixColumn (w : Word) : Word where
  b₀ := mul 2 w.b₀ ^^^ mul 3 w.b₁ ^^^ w.b₂ ^^^ w.b₃
  b₁ := w.b₀ ^^^ mul 2 w.b₁ ^^^ mul 3 w.b₂ ^^^ w.b₃
  b₂ := w.b₀ ^^^ w.b₁ ^^^ mul 2 w.b₂ ^^^ mul 3 w.b₃
  b₃ := mul 3 w.b₀ ^^^ w.b₁ ^^^ w.b₂ ^^^ mul 2 w.b₃

/-- `MIXCOLUMNS`. -/
def mixColumns (s : State) : State :=
  ⟨mixColumn s.c₀, mixColumn s.c₁, mixColumn s.c₂, mixColumn s.c₃⟩

/-- `ADDROUNDKEY`, with the four words of a round. -/
def addRoundKey (w : Nat → Word) (round : Nat) (s : State) : State where
  c₀ := s.c₀ ^^^ w (4 * round)
  c₁ := s.c₁ ^^^ w (4 * round + 1)
  c₂ := s.c₂ ^^^ w (4 * round + 2)
  c₃ := s.c₃ ^^^ w (4 * round + 3)

/-! ### The cipher -/

/-- A round that is not the last one. -/
def fullRound (w : Nat → Word) (s : State) (round : Nat) : State :=
  addRoundKey w round (mixColumns (shiftRows (subBytes s)))

/-- `CIPHER`: `n` full rounds, and the last one. -/
def cipher (n : Nat) (w : Nat → Word) (s : State) : State :=
  addRoundKey w (n + 1) (shiftRows (subBytes
    ((List.range' 1 n).foldl (fullRound w) (addRoundKey w 0 s))))

/-- `Rcon`. -/
def rcon (j : Nat) : Word := ⟨xtime^[j - 1] 1, 0, 0, 0⟩

/-- Word `i` of the key schedule, from the words before it. -/
def nextWord (nk : Nat) (w : Nat → Word) (i : Nat) : Word :=
  w (i - nk) ^^^
    (if i % nk = 0 then subWord (rotWord (w (i - 1))) ^^^ rcon (i / nk)
    else if 6 < nk ∧ i % nk = 4 then subWord (w (i - 1))
    else w (i - 1))

/-- `KEYEXPANSION`: the words of the key, and `n` more of them. -/
def keyExpansion (nk : Nat) (key : List Word) : Nat → List Word
  | 0 => key
  | n + 1 =>
    let ws := keyExpansion nk key n
    ws ++ [nextWord nk (fun i => ws.getD i default) ws.length]

/-- Word `i` of the key schedule of a key of `nk` words. -/
def keyWord (nk : Nat) (key : Bytes) (i : Nat) : Word :=
  (keyExpansion nk (words key) (4 * (nk + 7) - nk)).getD i default

/-- The state of a block. -/
def stateOf (block : Bytes) : State :=
  ⟨(words block).getD 0 default, (words block).getD 1 default, (words block).getD 2 default,
    (words block).getD 3 default⟩

def State.bytes (s : State) : Bytes := s.c₀.bytes ++ s.c₁.bytes ++ s.c₂.bytes ++ s.c₃.bytes

/-- A block under a key: of four words with ten rounds, of six with twelve and of eight with
    fourteen. -/
def encrypt (key block : Bytes) : Bytes :=
  let nk := key.length / 4
  (cipher (nk + 5) (keyWord nk key) (stateOf block)).bytes

/-- The block of the appendix, under the key of 128 bits. -/
example : encrypt ((List.range 16).map UInt8.ofNat) ((List.range 16).map fun k => .ofNat (17 * k))
    = [0x69, 0xc4, 0xe0, 0xd8, 0x6a, 0x7b, 0x04, 0x30,
      0xd8, 0xcd, 0xb7, 0x80, 0x70, 0xb4, 0xc5, 0x5a] := by
  decide +kernel

/-! ### What depends on what -/

theorem addRoundKey_congr {w w' : Nat → Word} {round : Nat}
    (h : ∀ i < 4 * (round + 1), w i = w' i) (s : State) :
    addRoundKey w round s = addRoundKey w' round s := by
  rw [addRoundKey, h _ (by omega), h _ (by omega), h _ (by omega), h _ (by omega), addRoundKey]

/-- The words of the rounds are all that counts. -/
theorem cipher_congr {n : Nat} {w w' : Nat → Word} (h : ∀ i < 4 * (n + 2), w i = w' i) (s : State) :
    cipher n w s = cipher n w' s := by
  have hrounds : ∀ m ≤ n, ∀ s, (List.range' 1 m).foldl (fullRound w) s
      = (List.range' 1 m).foldl (fullRound w') s := by
    intro m
    induction m with
    | zero => exact fun _ _ => rfl
    | succ m ih =>
      intro hm s
      rw [List.range'_1_concat, List.foldl_append, List.foldl_append, ih (by omega)]
      exact addRoundKey_congr (fun i hi => h i (by omega)) _
  rw [cipher, cipher, addRoundKey_congr (fun i hi => h i (by omega)),
    addRoundKey_congr (fun i hi => h i (by omega)), hrounds n (Nat.le_refl n)]

theorem keyExpansion_add (nk : Nat) (key : List Word) (n m : Nat) :
    keyExpansion nk key (n + m) = keyExpansion nk (keyExpansion nk key n) m := by
  induction m with
  | zero => rfl
  | succ m ih => rw [← Nat.add_assoc, keyExpansion, ih, keyExpansion]

@[simp] theorem length_keyExpansion (nk : Nat) (key : List Word) (n : Nat) :
    (keyExpansion nk key n).length = key.length + n := by
  induction n with
  | zero => rfl
  | succ n ih => rw [keyExpansion, List.length_append, ih, List.length_singleton, Nat.add_assoc]

/-- More words stand behind those that are there. -/
theorem keyExpansion_prefix (nk : Nat) (key : List Word) (n : Nat) :
    ∃ rest, keyExpansion nk key n = key ++ rest := by
  induction n with
  | zero => exact ⟨[], (List.append_nil key).symm⟩
  | succ n ih =>
    obtain ⟨rest, hrest⟩ := ih
    exact ⟨_, by rw [keyExpansion, hrest, List.append_assoc]⟩

/-- **`nk` words at once**, behind `i + 1` times as many. -/
theorem keyExpansion_block {nk i : Nat} (hnk : 0 < nk) {ws cs : List Word}
    (hws : ws.length = nk * (i + 1)) (hcs : cs.length = nk)
    (h : ∀ j < nk, cs.getD j default = ws.getD (nk * i + j) default ^^^
      (if j = 0 then subWord (rotWord (ws.getD (nk * i + (nk - 1)) default)) ^^^ rcon (i + 1)
      else if 6 < nk ∧ j = 4 then subWord (cs.getD (j - 1) default)
      else cs.getD (j - 1) default)) : keyExpansion nk ws nk = ws ++ cs := by
  have hsteps : ∀ j ≤ nk, keyExpansion nk ws j = ws ++ cs.take j := by
    intro j
    induction j with
    | zero => simp [keyExpansion]
    | succ j ih =>
      intro hj
      have htake : cs.take (j + 1) = cs.take j ++ [cs.getD j default] := by
        rw [List.take_add_one, List.getElem?_eq_getElem (by omega),
          List.getD_eq_getElem _ _ (by omega)]
        rfl
      rw [keyExpansion, ih (by omega), htake, ← List.append_assoc]
      have hlength : (ws ++ cs.take j).length = nk * (i + 1) + j := by
        rw [List.length_append, hws, List.length_take, Nat.min_eq_left (by omega)]
      have hmul : nk * (i + 1) = nk * i + nk := Nat.mul_succ nk i
      have hmod : (nk * (i + 1) + j) % nk = j := by
        rw [Nat.mul_add_mod, Nat.mod_eq_of_lt (by omega)]
      have hdiv : (nk * (i + 1) + j) / nk = i + 1 := by
        rw [Nat.mul_add_div hnk, Nat.div_eq_of_lt (by omega), Nat.add_zero]
      have hback : (ws ++ cs.take j).getD (nk * (i + 1) + j - nk) default
          = ws.getD (nk * i + j) default := by
        rw [List.getD_append _ _ _ _ (by omega)]
        congr 1
        omega
      -- The word in front is the last one of `ws`, or one of the new ones.
      have hfront : (ws ++ cs.take j).getD (nk * (i + 1) + j - 1) default
          = if j = 0 then ws.getD (nk * i + (nk - 1)) default else cs.getD (j - 1) default := by
        by_cases hj₀ : j = 0
        · rw [if_pos hj₀, List.getD_append _ _ _ _ (by omega)]
          congr 1
          omega
        · have hindex : nk * (i + 1) + j - 1 - ws.length = j - 1 := by omega
          rw [if_neg hj₀, List.getD_append_right _ _ _ _ (by omega), hindex,
            List.getD_eq_getElem?_getD, List.getD_eq_getElem?_getD,
            List.getElem?_take_of_lt (by omega)]
      rw [hlength, nextWord, hmod, hdiv, hback, hfront, h j (by omega)]
      by_cases hj₀ : j = 0
      · simp [hj₀]
      · simp [hj₀]
  rw [hsteps nk (Nat.le_refl nk), List.take_of_length_le (by omega)]

/-- Word `i` is there as soon as there are enough words. -/
theorem keyWord_eq {nk : Nat} (key : Bytes) {n i : Nat} (hkey : (words key).length = nk)
    (hi : i < 4 * (nk + 7)) (hn : 4 * (nk + 7) ≤ nk + n) :
    keyWord nk key i = (keyExpansion nk (words key) n).getD i default := by
  obtain ⟨rest, hrest⟩ := keyExpansion_prefix nk
    (keyExpansion nk (words key) (4 * (nk + 7) - nk)) (nk + n - 4 * (nk + 7))
  have hsum : 4 * (nk + 7) - nk + (nk + n - 4 * (nk + 7)) = n := by omega
  rw [← keyExpansion_add, hsum] at hrest
  rw [hrest, keyWord, List.getD_append _ _ _ _ (by rw [length_keyExpansion, hkey]; omega)]

/-- The words of a text, one by one. -/
theorem words_eq {text : Bytes} {n : Nat} (htext : text.length = 4 * n) :
    words text = (List.range n).map fun i => ⟨text.getD (4 * i) 0, text.getD (4 * i + 1) 0,
      text.getD (4 * i + 2) 0, text.getD (4 * i + 3) 0⟩ := by
  induction n generalizing text with
  | zero =>
    obtain rfl := List.length_eq_zero_iff.mp htext
    rfl
  | succ n ih =>
    match text, htext with
    | b₀ :: b₁ :: b₂ :: b₃ :: rest, htext =>
      have hrest : rest.length = 4 * n := by
        simp only [List.length_cons] at htext
        omega
      rw [words, ih hrest, List.range_succ_eq_map, List.map_cons, List.map_map]
      rfl

end Fips197

end Icl.Format
