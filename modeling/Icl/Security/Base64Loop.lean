import Icl.Cxx.Buffer
import Icl.Cxx.Overlay
import Icl.Security.Base64Util
import Icl.Transition.Loop
import Mathlib.Data.List.TakeWhile

namespace Icl.Security

open Icl.Cxx Icl.Transition

/-!
# `Base64`, loop by loop

The loops of `Encode` and `Decode` with their counters, which are of type `int`, and their arrays of
three and four characters, which begin with whatever they hold.

* `encodeLoop_eq`, `decodeLoop_eq` — from the head of the loop on, with no character pending;
* `encodeString_eq`, `decodeString_eq` — the loops are the functions `encode` and `decode`.
-/

namespace Base64

/-! ### `Encode` -/

/-- The variables of `Encode` at the head of its loop. -/
structure Encoder where
  ret : Bytes
  inLen : Int32
  index : Int32
  i : Nat
  charArray3 : Bytes
  deriving DecidableEq, Repr

/-- An `int` as an index, that is, as a `size_t`. -/
def atInt (s : Bytes) (k : Int32) : Except Fault UInt8 := index s k.toInt64.toUInt64.toNat

/-- `char_array_4`, of the characters of `char_array_3`. -/
def fourOfThree (charArray3 : Bytes) : Except Fault Bytes := do
  let c0 ← index charArray3 0
  let c1 ← index charArray3 1
  let c2 ← index charArray3 2
  return [(c0 &&& 0xfc) >>> 2,
    ((c0 &&& 0x03) <<< 4) + ((c1 &&& 0xf0) >>> 4),
    ((c1 &&& 0x0f) <<< 2) + ((c2 &&& 0xc0) >>> 6),
    c2 &&& 0x3f]

/-- `ret += base64_chars[char_array_4[j]]`, for each `j` below `n`. -/
def appendChars (ret charArray4 : Bytes) (n : Nat) : Except Fault Bytes :=
  (List.range n).foldlM (fun ret j => do
    let k ← index charArray4 j
    let c ← index base64Chars k.toNat
    return ret ++ [c]) ret

/-- One turn of the loop of `Encode`. -/
def encodeTurn (bytes : Bytes) (st : Encoder) : Except Fault (Turn Encoder Encoder) :=
  if st.inLen ≠ 0 then do
    let c ← atInt bytes st.index
    let charArray3 ← store st.charArray3 st.i c
    let next := { st with inLen := st.inLen - 1, index := st.index + 1, i := st.i + 1, charArray3 }
    if next.i = 3 then
      let charArray4 ← fourOfThree charArray3
      let ret ← appendChars st.ret charArray4 4
      return .next { next with ret, i := 0 }
    else return .next next
  else return .stop { st with inLen := st.inLen - 1 }

/-- What follows the loop of `Encode`: the characters that are pending, filled up with zeros. -/
def encodeRest (st : Encoder) : Except Fault Bytes :=
  if st.i ≠ 0 then do
    let charArray3 ← (List.range' st.i (3 - st.i)).foldlM (fun a j => store a j 0) st.charArray3
    let charArray4 ← fourOfThree charArray3
    let ret ← appendChars st.ret charArray4 (st.i + 1)
    return ret ++ List.replicate (3 - st.i) 0x3D
  else return st.ret

/-- `Base64::Encode`.  The loop makes a turn for each of the bytes; `garbage` is what `char_array_3`
    begins with. -/
def encodeString (garbage : Buffer 3) (bytes : Bytes) : Except Fault Bytes := do
  let st ← loop (encodeTurn bytes) (bytes.length + 1)
    { ret := [], inLen := .ofNat bytes.length, index := 0, i := 0, charArray3 := garbage.bytes }
  encodeRest st

/-! ### `Decode` -/

/-- The variables of `Decode` at the head of its loop. -/
structure Decoder where
  ret : Bytes
  inLen : Int32
  i : Nat
  in_ : Int32
  charArray4 : Bytes
  deriving DecidableEq, Repr

/-- `char_array_3`, of the characters of `char_array_4` after each has been looked up. -/
def threeOfFour (charArray4 : Bytes) : Except Fault Bytes := do
  let c0 ← index charArray4 0
  let c1 ← index charArray4 1
  let c2 ← index charArray4 2
  let c3 ← index charArray4 3
  return decodeGroup c0 c1 c2 c3

/-- `ret += char_array_3[j]`, for each `j` below `n`. -/
def appendBytes (ret charArray3 : Bytes) (n : Nat) : Except Fault Bytes :=
  (List.range n).foldlM (fun ret j => do
    let c ← index charArray3 j
    return ret ++ [c]) ret

/-- One turn of the loop of `Decode`. -/
def decodeTurn (encoded : Bytes) (st : Decoder) : Except Fault (Turn Decoder Decoder) :=
  if st.inLen ≠ 0 then do
    let c ← atInt encoded st.in_
    if c ≠ 0x3D ∧ isBase64 c = true then
      let charArray4 ← store st.charArray4 st.i c
      let next := { st with inLen := st.inLen - 1, i := st.i + 1, in_ := st.in_ + 1, charArray4 }
      if next.i = 4 then
        let charArray3 ← threeOfFour charArray4
        let ret ← appendBytes st.ret charArray3 3
        -- The indices are left in the array.
        return .next { next with ret, i := 0, charArray4 := charArray4.map charIndex }
      else return .next next
    else return .stop { st with inLen := st.inLen - 1 }
  else return .stop { st with inLen := st.inLen - 1 }

/-- What follows the loop of `Decode`: the characters that are pending, filled up with zeros, which
    are looked up, too. -/
def decodeRest (st : Decoder) : Except Fault Bytes :=
  if st.i ≠ 0 then do
    let charArray4 ← (List.range' st.i (4 - st.i)).foldlM (fun a j => store a j 0) st.charArray4
    let charArray3 ← threeOfFour charArray4
    appendBytes st.ret charArray3 (st.i - 1)
  else return st.ret

/-- `Base64::Decode`.  The loop makes at most a turn for each of the characters; `garbage` is what
    `char_array_4` begins with. -/
def decodeString (garbage : Buffer 4) (encoded : Bytes) : Except Fault Bytes := do
  let st ← loop (decodeTurn encoded) (encoded.length + 1)
    { ret := [], inLen := .ofNat encoded.length, i := 0, in_ := 0, charArray4 := garbage.bytes }
  decodeRest st

/-! ### Counters -/

/-- A counter below 2^31 is an index. -/
theorem atInt_ofNat (s : Bytes) {k : Nat} (hk : k < 2 ^ 31) : atInt s (.ofNat k) = index s k := by
  have hmax : (k : Int) ≤ Int32.maxValue.toInt := by
    rw [Int32.toInt_maxValue]
    omega
  rw [atInt, Int32.toInt64_ofNat' hmax, Int64.toUInt64_ofNat', UInt64.toNat_ofNat',
    Nat.mod_eq_of_lt (by omega)]

theorem ofNat_succ_ne_zero {n : Nat} (hn : n + 1 < 2 ^ 31) : Int32.ofNat (n + 1) ≠ 0 := by
  intro h
  have hint := congrArg Int32.toInt h
  rw [Int32.toInt_ofNat_of_lt hn] at hint
  exact absurd hint (by rw [Int32.toInt_zero]; omega)

theorem ofNat_succ_sub_one (n : Nat) : Int32.ofNat (n + 1) - 1 = Int32.ofNat n :=
  (Int32.ofNat_sub (n + 1) 1 (Nat.le_add_left 1 n)).symm

theorem ofNat_add_one (n : Nat) : Int32.ofNat n + 1 = Int32.ofNat (n + 1) :=
  (Int32.ofNat_add n 1).symm

/-- What stands behind a part of a string. -/
theorem atInt_append {s pre rest : Bytes} {c : UInt8} (hs : s = pre ++ c :: rest)
    (hlen : s.length < 2 ^ 31) : atInt s (.ofNat pre.length) = .ok c := by
  subst hs
  rw [List.length_append, List.length_cons] at hlen
  have hlt : pre.length < (pre ++ c :: rest).length := by
    rw [List.length_append, List.length_cons]
    omega
  rw [atInt_ofNat _ (by omega), index_of_lt hlt, List.getElem_append_right (le_refl _)]
  simp only [Nat.sub_self, List.getElem_cons_zero]

/-! ### The loop of `Encode` -/

/-- A character of the alphabet. -/
def charOf (k : UInt8) : UInt8 := base64Chars.getD k.toNat 0

theorem appendChars_eq {charArray4 : Bytes} (hfour : ∀ k ∈ charArray4, k.toNat < 64) {n : Nat}
    (hn : n ≤ charArray4.length) (ret : Bytes) :
    appendChars ret charArray4 n = .ok (ret ++ (charArray4.take n).map charOf) := by
  unfold appendChars
  induction n with
  | zero => rw [List.take_zero, List.map_nil, List.append_nil]; rfl
  | succ n ih =>
    have hlt : n < charArray4.length := hn
    have hchar : index base64Chars charArray4[n].toNat = .ok (charOf charArray4[n]) := by
      have hindex : charArray4[n].toNat < base64Chars.length := hfour _ (List.getElem_mem hlt)
      rw [index_of_lt hindex, charOf, List.getD_eq_getElem?_getD,
        List.getElem?_eq_getElem hindex, Option.getD_some]
    rw [List.range_succ, List.foldlM_append, ih (by omega), ok_bind, List.foldlM_cons,
      index_of_lt hlt, ok_bind, hchar, ok_bind, pure_eq_ok, ok_bind, List.foldlM_nil, pure_eq_ok,
      ← List.take_append_getElem hlt, List.map_append, List.append_assoc]
    rfl

/-- The four indices of three characters. -/
theorem fourOfThree_eq (c0 c1 c2 : UInt8) : ∃ charArray4,
    fourOfThree [c0, c1, c2] = .ok charArray4 ∧ charArray4.length = 4 ∧
      (∀ k ∈ charArray4, k.toNat < 64) ∧ charArray4.map charOf = encodeGroup c0 c1 c2 := by
  obtain ⟨h₀, h₀', -, -, -, -⟩ := byte_parts c0
  obtain ⟨-, -, h₁, h₁', -, -⟩ := byte_parts c1
  obtain ⟨-, -, -, -, h₂, h₂'⟩ := byte_parts c2
  have hc₀ := c0.toNat_lt
  have hc₁ := c1.toNat_lt
  have hc₂ := c2.toNat_lt
  have hlt : ∀ k ∈ [(c0 &&& 0xfc) >>> 2, ((c0 &&& 0x03) <<< 4) + ((c1 &&& 0xf0) >>> 4),
      ((c1 &&& 0x0f) <<< 2) + ((c2 &&& 0xc0) >>> 6), c2 &&& 0x3f], k.toNat < 64 := by
    simp only [List.forall_mem_cons, List.not_mem_nil, false_implies, implies_true, and_true,
      UInt8.toNat_add, h₀, h₀', h₁, h₁', h₂, h₂']
    omega
  exact ⟨_, rfl, rfl, hlt, rfl⟩

/-- The variables, with `left` bytes to go from `pos` on. -/
def encoderAt (ret : Bytes) (left pos i : Nat) (charArray3 : Bytes) : Encoder :=
  { ret, inLen := .ofNat left, index := .ofNat pos, i, charArray3 }

section Encode

variable {bytes pre rest : Bytes} {c : UInt8}

/-- A character that is not the third one. -/
theorem encodeTurn_pending (hbytes : bytes = pre ++ c :: rest) (hlen : bytes.length < 2 ^ 31)
    {i : Nat} (hi : i < 2) (ret : Bytes) {a : Bytes} (ha : a.length = 3) :
    encodeTurn bytes (encoderAt ret (c :: rest).length pre.length i a)
      = .ok (.next (encoderAt ret rest.length (pre ++ [c]).length (i + 1) (a.set i c))) := by
  have hchar := atInt_append hbytes hlen
  rw [hbytes, List.length_append, List.length_cons] at hlen
  rw [List.length_cons, List.length_append, List.length_singleton]
  unfold encodeTurn encoderAt
  dsimp only
  rw [if_pos (ofNat_succ_ne_zero (by omega)), hchar, ok_bind, store_of_lt (by omega), ok_bind,
    if_neg (by omega), ofNat_succ_sub_one, ofNat_add_one]
  rfl

/-- The third character. -/
theorem encodeTurn_third (hbytes : bytes = pre ++ c :: rest) (hlen : bytes.length < 2 ^ 31)
    (ret : Bytes) (c0 c1 c2 : UInt8) :
    encodeTurn bytes (encoderAt ret (c :: rest).length pre.length 2 [c0, c1, c2])
      = .ok (.next (encoderAt (ret ++ encodeGroup c0 c1 c) rest.length (pre ++ [c]).length 0
          [c0, c1, c])) := by
  have hchar := atInt_append hbytes hlen
  rw [hbytes, List.length_append, List.length_cons] at hlen
  obtain ⟨charArray4, hfour, hlength, hlt, hgroup⟩ := fourOfThree_eq c0 c1 c
  rw [List.length_cons, List.length_append, List.length_singleton]
  unfold encodeTurn encoderAt
  dsimp only
  rw [if_pos (ofNat_succ_ne_zero (by omega)), hchar, ok_bind,
    show store [c0, c1, c2] 2 c = .ok [c0, c1, c] from rfl, ok_bind, if_pos rfl, hfour, ok_bind,
    appendChars_eq hlt hlength.ge, ok_bind, List.take_of_length_le hlength.le, hgroup,
    ofNat_succ_sub_one, ofNat_add_one]
  rfl

/-- The end of the string. -/
theorem encodeTurn_done (bytes ret : Bytes) (pos i : Nat) (a : Bytes) :
    encodeTurn bytes (encoderAt ret 0 pos i a)
      = .ok (.stop { encoderAt ret 0 pos i a with inLen := -1 }) := by
  have hzero : ¬ (encoderAt ret 0 pos i a).inLen ≠ 0 := not_not_intro rfl
  unfold encodeTurn
  rw [if_neg hzero]
  rfl

/-- The characters that are pending, one or two of them, at the end. -/
theorem encodeRest_eq (st : Encoder) {i : Nat} (hi : i = 1 ∨ i = 2) {c0 c1 c2 : UInt8}
    (hst : st.i = i)
    (hfill : (List.range' i (3 - i)).foldlM (fun a j => store a j 0) st.charArray3
      = .ok [c0, c1, c2]) :
    encodeRest st
      = .ok (st.ret ++ ((encodeGroup c0 c1 c2).take (i + 1) ++ List.replicate (3 - i) 0x3D)) := by
  obtain ⟨charArray4, hfour, hlength, hlt, hgroup⟩ := fourOfThree_eq c0 c1 c2
  unfold encodeRest
  rw [hst, if_pos (by omega), hfill, ok_bind, hfour, ok_bind, appendChars_eq hlt (by omega),
    ok_bind, List.map_take, hgroup, List.append_assoc]
  rfl

/-- Characters that do not fill the array up. -/
theorem encodeLoop_pending (hlen : bytes.length < 2 ^ 31) {cs tail : Bytes}
    (hbytes : bytes = pre ++ (cs ++ tail)) {i : Nat} (hi : i + cs.length ≤ 2) (ret : Bytes)
    {a : Bytes} (ha : a.length = 3) (fuel : Nat) :
    loop (encodeTurn bytes) (fuel + cs.length)
        (encoderAt ret (cs ++ tail).length pre.length i a)
      = loop (encodeTurn bytes) fuel
        (encoderAt ret tail.length (pre ++ cs).length (i + cs.length) (overlay a i cs)) := by
  induction cs generalizing pre i a with
  | nil => rw [overlay_nil, List.append_nil]; rfl
  | cons c cs ih =>
    simp only [List.length_cons] at hi
    -- The characters are written one behind the other.
    have hset : overlay (a.set i c) (i + 1) cs = overlay a i (c :: cs) := by
      rw [← overlay_singleton_of_lt (by omega)]
      exact overlay_append (by omega) cs
    have hnext := ih (show bytes = (pre ++ [c]) ++ (cs ++ tail) by
      rw [hbytes, List.append_assoc]; rfl) (show i + 1 + cs.length ≤ 2 by omega)
      (show (a.set i c).length = 3 by rw [List.length_set, ha])
    rw [hset, List.append_assoc, Nat.add_assoc, Nat.add_comm 1] at hnext
    exact (loop_next (encodeTurn_pending hbytes hlen (by omega) ret ha) _).trans hnext

/-- The last characters, one or two of them. -/
theorem encodeLoop_last (hlen : bytes.length < 2 ^ 31) {cs : Bytes} (hbytes : bytes = pre ++ cs)
    (hcs : cs.length = 1 ∨ cs.length = 2) (ret : Bytes) {a : Bytes} (ha : a.length = 3)
    {c0 c1 c2 : UInt8}
    (hfill : (List.range' cs.length (3 - cs.length)).foldlM (fun a j => store a j 0)
      (overlay a 0 cs) = .ok [c0, c1, c2]) {fuel : Nat} (hfuel : cs.length < fuel) :
    (do
      let st ← loop (encodeTurn bytes) fuel (encoderAt ret cs.length pre.length 0 a)
      encodeRest st)
      = .ok (ret ++ ((encodeGroup c0 c1 c2).take (cs.length + 1)
          ++ List.replicate (3 - cs.length) 0x3D)) := by
  obtain ⟨fuel, rfl⟩ : ∃ f, fuel = f + 1 + cs.length := ⟨fuel - 1 - cs.length, by omega⟩
  have hpending := encodeLoop_pending hlen (show bytes = pre ++ (cs ++ []) by rwa [List.append_nil])
    (show 0 + cs.length ≤ 2 by omega) ret ha (fuel + 1)
  have hdone := encodeTurn_done bytes ret (pre ++ cs).length (0 + cs.length) (overlay a 0 cs)
  rw [List.append_nil] at hpending
  rw [hpending, List.length_nil, loop_stop hdone, ok_bind,
    encodeRest_eq _ hcs (Nat.zero_add _) hfill]
  rfl

/-- **From the head of the loop on**, with no character pending. -/
theorem encodeLoop_eq (hlen : bytes.length < 2 ^ 31) (hbytes : bytes = pre ++ rest) (ret : Bytes)
    {a : Bytes} (ha : a.length = 3) {fuel : Nat} (hfuel : rest.length < fuel) :
    (do
      let st ← loop (encodeTurn bytes) fuel (encoderAt ret rest.length pre.length 0 a)
      encodeRest st) = .ok (ret ++ encode rest) := by
  obtain ⟨x, y, z, rfl⟩ : ∃ x y z, a = [x, y, z] := List.length_eq_three.mp ha
  induction rest using encode.induct generalizing pre ret x y z fuel with
  | case1 c0 c1 c2 rest ih =>
    simp only [List.length_cons] at hfuel
    obtain ⟨fuel, rfl⟩ : ∃ f, fuel = f + 1 + 2 := ⟨fuel - 3, by omega⟩
    have hpre : bytes = (pre ++ [c0, c1]) ++ c2 :: rest := by rw [hbytes, List.append_assoc]; rfl
    have htwo := encodeLoop_pending hlen
      (show bytes = pre ++ ([c0, c1] ++ c2 :: rest) from hbytes) (show 0 + 2 ≤ 2 by omega) ret ha
      (fuel + 1)
    -- The third character makes a group, and leaves the array with no character pending.
    have hthird := loop_next (encodeTurn_third hpre hlen ret c0 c1 z) fuel
    have hrest := ih (show bytes = (pre ++ [c0, c1] ++ [c2]) ++ rest by
      rw [hpre, List.append_assoc (pre ++ [c0, c1])]; rfl) (ret ++ encodeGroup c0 c1 c2)
      (show rest.length < fuel by omega) c0 c1 c2 rfl
    rw [encode, ← List.append_assoc]
    exact (congrArg (· >>= encodeRest) (htwo.trans hthird)).trans hrest
  | case2 c0 c1 => exact encodeLoop_last hlen hbytes (.inr rfl) ret ha rfl hfuel
  | case3 c0 => exact encodeLoop_last hlen hbytes (.inl rfl) ret ha rfl hfuel
  | case4 =>
    obtain ⟨fuel, rfl⟩ : ∃ f, fuel = f + 1 := ⟨fuel - 1, by simp at hfuel; omega⟩
    rw [List.length_nil, loop_stop (encodeTurn_done bytes ret _ _ _), ok_bind,
      encode, List.append_nil]
    rfl

/-- **`Encode`.** -/
theorem encodeString_eq (garbage : Buffer 3) (hlen : bytes.length < 2 ^ 31) :
    encodeString garbage bytes = .ok (encode bytes) := by
  have h := encodeLoop_eq hlen (List.nil_append bytes).symm [] garbage.size
    (Nat.lt_succ_self bytes.length)
  rwa [List.nil_append] at h

end Encode

/-! ### The loop of `Decode` -/

theorem appendBytes_eq {charArray3 : Bytes} {n : Nat} (hn : n ≤ charArray3.length) (ret : Bytes) :
    appendBytes ret charArray3 n = .ok (ret ++ charArray3.take n) := by
  unfold appendBytes
  induction n with
  | zero => rw [List.take_zero, List.append_nil]; rfl
  | succ n ih =>
    rw [List.range_succ, List.foldlM_append, ih (by omega), ok_bind, List.foldlM_cons,
      index_of_lt hn, ok_bind, pure_eq_ok, ok_bind, List.foldlM_nil, pure_eq_ok,
      ← List.take_append_getElem hn, List.append_assoc]

/-- The variables, with `left` characters to go from `pos` on. -/
def decoderAt (ret : Bytes) (left pos i : Nat) (charArray4 : Bytes) : Decoder :=
  { ret, inLen := .ofNat left, i, in_ := .ofNat pos, charArray4 }

section Decode

variable {encoded pre chars tail : Bytes} {c : UInt8}

theorem ne_pad_of_isBase64 (h : isBase64 c = true) : c ≠ 0x3D := by
  rintro rfl
  exact absurd h (by decide)

/-- A character that is not the fourth one. -/
theorem decodeTurn_pending (hencoded : encoded = pre ++ c :: tail) (hlen : encoded.length < 2 ^ 31)
    (hc : isBase64 c = true) {i : Nat} (hi : i < 3) (ret : Bytes) {a : Bytes} (ha : a.length = 4) :
    decodeTurn encoded (decoderAt ret (c :: tail).length pre.length i a)
      = .ok (.next (decoderAt ret tail.length (pre ++ [c]).length (i + 1) (a.set i c))) := by
  have hchar := atInt_append hencoded hlen
  rw [hencoded, List.length_append, List.length_cons] at hlen
  rw [List.length_cons, List.length_append, List.length_singleton]
  unfold decodeTurn decoderAt
  dsimp only
  rw [if_pos (ofNat_succ_ne_zero (by omega)), hchar, ok_bind, if_pos ⟨ne_pad_of_isBase64 hc, hc⟩,
    store_of_lt (by omega), ok_bind, if_neg (by omega), ofNat_succ_sub_one, ofNat_add_one]
  rfl

/-- The fourth character. -/
theorem decodeTurn_fourth (hencoded : encoded = pre ++ c :: tail) (hlen : encoded.length < 2 ^ 31)
    (hc : isBase64 c = true) (ret : Bytes) (c0 c1 c2 c3 : UInt8) :
    decodeTurn encoded (decoderAt ret (c :: tail).length pre.length 3 [c0, c1, c2, c3])
      = .ok (.next (decoderAt (ret ++ decodeGroup c0 c1 c2 c) tail.length (pre ++ [c]).length 0
          ([c0, c1, c2, c].map charIndex))) := by
  have hchar := atInt_append hencoded hlen
  rw [hencoded, List.length_append, List.length_cons] at hlen
  rw [List.length_cons, List.length_append, List.length_singleton]
  unfold decodeTurn decoderAt
  dsimp only
  rw [if_pos (ofNat_succ_ne_zero (by omega)), hchar, ok_bind, if_pos ⟨ne_pad_of_isBase64 hc, hc⟩,
    show store [c0, c1, c2, c3] 3 c = .ok [c0, c1, c2, c] from rfl, ok_bind, if_pos rfl,
    show threeOfFour [c0, c1, c2, c] = .ok (decodeGroup c0 c1 c2 c) from rfl, ok_bind,
    appendBytes_eq (show 3 ≤ (decodeGroup c0 c1 c2 c).length from le_rfl), ok_bind,
    ofNat_succ_sub_one, ofNat_add_one]
  rfl

/-- What ends the loop: the end of the string, or a character that is none of the alphabet. -/
def Ends (tail : Bytes) : Prop := ∀ c ∈ tail.head?, isBase64 c = false

theorem decodeTurn_done (hencoded : encoded = pre ++ tail) (hlen : encoded.length < 2 ^ 31)
    (htail : Ends tail) (ret : Bytes) (i : Nat) (a : Bytes) :
    decodeTurn encoded (decoderAt ret tail.length pre.length i a)
      = .ok (.stop { decoderAt ret tail.length pre.length i a with
          inLen := .ofNat tail.length - 1 }) := by
  unfold decodeTurn
  -- Nothing is left, or what is left begins with a character that is no digit.
  cases tail with
  | nil =>
    have hzero : ¬ (decoderAt ret ([] : Bytes).length pre.length i a).inLen ≠ 0 :=
      not_not_intro rfl
    rw [if_neg hzero]
    rfl
  | cons c tail =>
    have hchar := atInt_append hencoded hlen
    rw [hencoded, List.length_append, List.length_cons] at hlen
    have hc : isBase64 c = false := htail c rfl
    have hstop : ¬ (c ≠ 0x3D ∧ isBase64 c = true) := by
      rw [hc]
      exact fun h => absurd h.2 (by decide)
    have hmore : (decoderAt ret (c :: tail).length pre.length i a).inLen ≠ 0 :=
      ofNat_succ_ne_zero (by omega)
    have hin : (decoderAt ret (c :: tail).length pre.length i a).in_ = .ofNat pre.length := rfl
    rw [if_pos hmore, hin, hchar, ok_bind, if_neg hstop]
    rfl

/-- The characters that are pending, one to three of them, at the end. -/
theorem decodeRest_eq (st : Decoder) {i : Nat} (hi : 1 ≤ i ∧ i ≤ 3) {c0 c1 c2 c3 : UInt8}
    (hst : st.i = i)
    (hfill : (List.range' i (4 - i)).foldlM (fun a j => store a j 0) st.charArray4
      = .ok [c0, c1, c2, c3]) :
    decodeRest st = .ok (st.ret ++ (decodeGroup c0 c1 c2 c3).take (i - 1)) := by
  have hthree : 3 = (decodeGroup c0 c1 c2 c3).length := rfl
  unfold decodeRest
  rw [hst, if_pos (by omega), hfill, ok_bind,
    show threeOfFour [c0, c1, c2, c3] = .ok (decodeGroup c0 c1 c2 c3) from rfl, ok_bind,
    appendBytes_eq (by omega)]

/-- Characters that do not fill the array up. -/
theorem decodeLoop_pending (hlen : encoded.length < 2 ^ 31) {cs : Bytes}
    (hencoded : encoded = pre ++ (cs ++ tail)) (hcs : ∀ c ∈ cs, isBase64 c = true) {i : Nat}
    (hi : i + cs.length ≤ 3) (ret : Bytes) {a : Bytes} (ha : a.length = 4) (fuel : Nat) :
    loop (decodeTurn encoded) (fuel + cs.length)
        (decoderAt ret (cs ++ tail).length pre.length i a)
      = loop (decodeTurn encoded) fuel
        (decoderAt ret tail.length (pre ++ cs).length (i + cs.length) (overlay a i cs)) := by
  induction cs generalizing pre i a with
  | nil => rw [overlay_nil, List.append_nil]; rfl
  | cons c cs ih =>
    simp only [List.length_cons] at hi
    obtain ⟨hc, hcs⟩ := List.forall_mem_cons.mp hcs
    have hset : overlay (a.set i c) (i + 1) cs = overlay a i (c :: cs) := by
      rw [← overlay_singleton_of_lt (by omega)]
      exact overlay_append (by omega) cs
    have hnext := ih (show encoded = (pre ++ [c]) ++ (cs ++ tail) by
      rw [hencoded, List.append_assoc]; rfl) hcs (show i + 1 + cs.length ≤ 3 by omega)
      (show (a.set i c).length = 4 by rw [List.length_set, ha])
    rw [hset, List.append_assoc, Nat.add_assoc, Nat.add_comm 1] at hnext
    exact (loop_next (decodeTurn_pending hencoded hlen hc (by omega) ret ha) _).trans hnext

/-- The last characters, one to three of them. -/
theorem decodeLoop_last (hlen : encoded.length < 2 ^ 31) {cs : Bytes}
    (hencoded : encoded = pre ++ (cs ++ tail)) (hcs : ∀ c ∈ cs, isBase64 c = true)
    (htail : Ends tail) (hlength : 1 ≤ cs.length ∧ cs.length ≤ 3) (ret : Bytes) {a : Bytes}
    (ha : a.length = 4) {c0 c1 c2 c3 : UInt8}
    (hfill : (List.range' cs.length (4 - cs.length)).foldlM (fun a j => store a j 0)
      (overlay a 0 cs) = .ok [c0, c1, c2, c3]) {fuel : Nat}
    (hfuel : (cs ++ tail).length < fuel) :
    (do
      let st ← loop (decodeTurn encoded) fuel (decoderAt ret (cs ++ tail).length pre.length 0 a)
      decodeRest st) = .ok (ret ++ (decodeGroup c0 c1 c2 c3).take (cs.length - 1)) := by
  rw [List.length_append] at hfuel
  obtain ⟨fuel, rfl⟩ : ∃ f, fuel = f + 1 + cs.length := ⟨fuel - 1 - cs.length, by omega⟩
  have hpending := decodeLoop_pending hlen hencoded hcs (show 0 + cs.length ≤ 3 by omega) ret ha
    (fuel + 1)
  have hpre : encoded = (pre ++ cs) ++ tail := by rw [hencoded, List.append_assoc]
  have hdone := decodeTurn_done hpre hlen htail ret (0 + cs.length) (overlay a 0 cs)
  rw [hpending, loop_stop hdone, ok_bind, decodeRest_eq _ hlength (Nat.zero_add _) hfill]
  rfl

/-- **From the head of the loop on**, with no character pending. -/
theorem decodeLoop_eq (hlen : encoded.length < 2 ^ 31) (hencoded : encoded = pre ++ (chars ++ tail))
    (hchars : ∀ c ∈ chars, isBase64 c = true) (htail : Ends tail) (ret : Bytes) {a : Bytes}
    (ha : a.length = 4) {fuel : Nat} (hfuel : (chars ++ tail).length < fuel) :
    (do
      let st ← loop (decodeTurn encoded) fuel
        (decoderAt ret (chars ++ tail).length pre.length 0 a)
      decodeRest st) = .ok (ret ++ decodeGroups chars) := by
  obtain ⟨w, x, y, z, rfl⟩ : ∃ w x y z, a = [w, x, y, z] := by
    match a, ha with
    | [w, x, y, z], _ => exact ⟨w, x, y, z, rfl⟩
  induction chars using decodeGroups.induct generalizing pre ret w x y z fuel with
  | case1 c0 c1 c2 c3 rest ih =>
    obtain ⟨hthree, hfour⟩ := List.forall_mem_append.mp
      (show ∀ c ∈ [c0, c1, c2] ++ c3 :: rest, isBase64 c = true from hchars)
    obtain ⟨hc3, hrest⟩ := List.forall_mem_cons.mp hfour
    simp only [List.cons_append, List.length_cons] at hfuel
    obtain ⟨fuel, rfl⟩ : ∃ f, fuel = f + 1 + 3 := ⟨fuel - 4, by omega⟩
    have hpre : encoded = (pre ++ [c0, c1, c2]) ++ c3 :: (rest ++ tail) := by
      rw [hencoded, List.append_assoc]; rfl
    have hpending := decodeLoop_pending hlen
      (show encoded = pre ++ ([c0, c1, c2] ++ c3 :: (rest ++ tail)) from hencoded) hthree
      (show 0 + 3 ≤ 3 by omega) ret ha (fuel + 1)
    -- The fourth character makes a group; the array then holds the indices, which are written over.
    have hfourth := loop_next (decodeTurn_fourth hpre hlen hc3 ret c0 c1 c2 z) fuel
    have hgroups := ih (show encoded = (pre ++ [c0, c1, c2] ++ [c3]) ++ (rest ++ tail) by
      rw [hpre, List.append_assoc (pre ++ [c0, c1, c2])]; rfl) hrest
      (ret ++ decodeGroup c0 c1 c2 c3) (show (rest ++ tail).length < fuel by omega) (charIndex c0)
      (charIndex c1) (charIndex c2) (charIndex c3) rfl
    rw [decodeGroups, ← List.append_assoc ret]
    exact (congrArg (· >>= decodeRest) (hpending.trans hfourth)).trans hgroups
  | case2 c0 c1 c2 =>
    exact decodeLoop_last hlen hencoded hchars htail (show 1 ≤ 3 ∧ 3 ≤ 3 by omega) ret ha rfl hfuel
  | case3 c0 c1 =>
    exact decodeLoop_last hlen hencoded hchars htail (show 1 ≤ 2 ∧ 2 ≤ 3 by omega) ret ha rfl hfuel
  | case4 c0 =>
    exact decodeLoop_last hlen hencoded hchars htail (show 1 ≤ 1 ∧ 1 ≤ 3 by omega) ret ha rfl hfuel
  | case5 =>
    obtain ⟨fuel, rfl⟩ : ∃ f, fuel = f + 1 := ⟨fuel - 1, by omega⟩
    rw [List.nil_append] at hencoded ⊢
    rw [loop_stop (decodeTurn_done hencoded hlen htail ret _ _), ok_bind, decodeGroups,
      List.append_nil]
    rfl

/-- **`Decode`.** -/
theorem decodeString_eq (garbage : Buffer 4) (hlen : encoded.length < 2 ^ 31) :
    decodeString garbage encoded = decode encoded := by
  have hsplit : encoded.takeWhile isBase64 ++ encoded.dropWhile isBase64 = encoded :=
    List.takeWhile_append_dropWhile
  have hends : Ends (encoded.dropWhile isBase64) := by
    intro c hc
    have hhead := List.head?_dropWhile_not isBase64 encoded
    rw [Option.mem_def.mp hc] at hhead
    simpa using hhead
  have hprefix := (List.takeWhile_prefix isBase64 (l := encoded)).length_le
  have hencoded : encoded
      = [] ++ (encoded.takeWhile isBase64 ++ encoded.dropWhile isBase64) := by
    rw [hsplit, List.nil_append]
  have h := decodeLoop_eq hlen hencoded (fun c hc => List.mem_takeWhile_imp hc) hends []
    garbage.size (show _ < encoded.length + 1 by rw [hsplit]; omega)
  rw [hsplit, List.nil_append] at h
  -- `in_len` is not cut off: it counts down from the whole length.
  have hall : (encoded.takeWhile isBase64).take (encoded.length % 2 ^ 32)
      = encoded.takeWhile isBase64 := by
    rw [Nat.mod_eq_of_lt (by omega), List.take_of_length_le hprefix]
  rw [decode, hall, if_pos (by omega)]
  exact h

end Decode

end Base64

end Icl.Security
