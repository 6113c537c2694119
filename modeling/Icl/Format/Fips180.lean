import Icl.Format.Blocks
import Icl.Format.LittleEndian
import Mathlib.Data.List.GetD

namespace Icl.Format

open Icl.Cxx

/-!
# SHA-1 and SHA-256, of FIPS 180-4

A message is padded to whole blocks of 64 bytes, which are compressed into the digest one after the
other.

* `words`, `pad` — the words of a block, and the padding;
* `schedule` — the message schedule, by its recurrence;
* `sha1`, `sha256` — the two digests;
* `words_append` — words in two parts;
* `word160_next` — the recurrence of the schedule.
-/

namespace Fips180

/-! ### Words -/

/-- `ROTL`. -/
def rotl (n x : UInt32) : UInt32 := x <<< n ||| x >>> (32 - n)

/-- `ROTR`. -/
def rotr (n x : UInt32) : UInt32 := x >>> n ||| x <<< (32 - n)

def ch (x y z : UInt32) : UInt32 := (x &&& y) ^^^ (~~~x &&& z)

def parity (x y z : UInt32) : UInt32 := x ^^^ y ^^^ z

def maj (x y z : UInt32) : UInt32 := (x &&& y) ^^^ (x &&& z) ^^^ (y &&& z)

/-- The words of a text, each with its highest byte first. -/
def words : Bytes → List UInt32
  | c₀ :: c₁ :: c₂ :: c₃ :: rest => .ofNat (valueLe [c₃, c₂, c₁, c₀]) :: words rest
  | _ => []

/-- The bytes of some words. -/
def bytesOf (ws : List UInt32) : Bytes := ws.flatMap fun w => bytesBe 4 w.toNat

/-! ### Padding -/

/-- The number of zero bytes behind the bit that ends a message of `n` bytes: the eight bytes of its
    length are then the last ones of a block. -/
def zeros (n : Nat) : Nat := (119 - n % 64) % 64

/-- The message, a one bit, zero bits, and the number of bits of the message. -/
def pad (message : Bytes) : Bytes :=
  message ++ 0x80 :: (List.replicate (zeros message.length) 0 ++ bytesBe 8 (8 * message.length))

/-! ### Schedules -/

/-- The words of the schedule: those of the block, and `n` more of them. -/
def schedule (next : (Nat → UInt32) → Nat → UInt32) (block : List UInt32) : Nat → List UInt32
  | 0 => block
  | n + 1 =>
    let ws := schedule next block n
    ws ++ [next (fun t => ws.getD t 0) ws.length]

/-! ### SHA-1 -/

/-- The five words of a hash value, which are also the working variables. -/
structure Hash160 where
  a : UInt32
  b : UInt32
  c : UInt32
  d : UInt32
  e : UInt32
  deriving DecidableEq, Repr

def Hash160.bytes (h : Hash160) : Bytes := bytesOf [h.a, h.b, h.c, h.d, h.e]

def initial160 : Hash160 := ⟨0x67452301, 0xefcdab89, 0x98badcfe, 0x10325476, 0xc3d2e1f0⟩

/-- `W t`, from the words before it. -/
def next160 (w : Nat → UInt32) (t : Nat) : UInt32 :=
  rotl 1 (w (t - 3) ^^^ w (t - 8) ^^^ w (t - 14) ^^^ w (t - 16))

/-- `f t`. -/
def function160 (t : Nat) : UInt32 → UInt32 → UInt32 → UInt32 :=
  if t < 20 then ch else if t < 40 then parity else if t < 60 then maj else parity

/-- `K t`. -/
def constant160 (t : Nat) : UInt32 :=
  if t < 20 then 0x5a827999 else if t < 40 then 0x6ed9eba1 else if t < 60 then 0x8f1bbcdc
  else 0xca62c1d6

def round160 (w : Nat → UInt32) (h : Hash160) (t : Nat) : Hash160 :=
  let temp := rotl 5 h.a + function160 t h.b h.c h.d + h.e + constant160 t + w t
  ⟨temp, h.a, rotl 30 h.b, h.c, h.d⟩

/-- The words of the schedule of a block. -/
def word160 (block : List UInt32) (t : Nat) : UInt32 := (schedule next160 block 64).getD t 0

def compress160 (h : Hash160) (block : List UInt32) : Hash160 :=
  let r := (List.range 80).foldl (round160 (word160 block)) h
  ⟨r.a + h.a, r.b + h.b, r.c + h.c, r.d + h.d, r.e + h.e⟩

/-- The digest of a message.  The standard gives it to messages of less than 2^64 bits. -/
def sha1 (message : Bytes) : Bytes :=
  (foldBlocks 64 (fun h block => compress160 h (words block)) initial160 (pad message)).bytes

/-- SHA-1 gives 20 bytes. -/
theorem length_sha1 (message : Bytes) : (sha1 message).length = 20 := by
  simp [sha1, Hash160.bytes, bytesOf]

example : sha1 (ascii "abc") = bytesOf
    [0xa9993e36, 0x4706816a, 0xba3e2571, 0x7850c26c, 0x9cd0d89d] := by decide +kernel

/-! ### SHA-256 -/

/-- The eight words of a hash value, which are also the working variables. -/
structure Hash256 where
  a : UInt32
  b : UInt32
  c : UInt32
  d : UInt32
  e : UInt32
  f : UInt32
  g : UInt32
  h : UInt32
  deriving DecidableEq, Repr

def Hash256.bytes (v : Hash256) : Bytes := bytesOf [v.a, v.b, v.c, v.d, v.e, v.f, v.g, v.h]

def initial256 : Hash256 :=
  ⟨0x6a09e667, 0xbb67ae85, 0x3c6ef372, 0xa54ff53a, 0x510e527f, 0x9b05688c, 0x1f83d9ab, 0x5be0cd19⟩

/-- `K t`. -/
def constants256 : List UInt32 := [
  0x428a2f98, 0x71374491, 0xb5c0fbcf, 0xe9b5dba5, 0x3956c25b, 0x59f111f1, 0x923f82a4, 0xab1c5ed5,
  0xd807aa98, 0x12835b01, 0x243185be, 0x550c7dc3, 0x72be5d74, 0x80deb1fe, 0x9bdc06a7, 0xc19bf174,
  0xe49b69c1, 0xefbe4786, 0x0fc19dc6, 0x240ca1cc, 0x2de92c6f, 0x4a7484aa, 0x5cb0a9dc, 0x76f988da,
  0x983e5152, 0xa831c66d, 0xb00327c8, 0xbf597fc7, 0xc6e00bf3, 0xd5a79147, 0x06ca6351, 0x14292967,
  0x27b70a85, 0x2e1b2138, 0x4d2c6dfc, 0x53380d13, 0x650a7354, 0x766a0abb, 0x81c2c92e, 0x92722c85,
  0xa2bfe8a1, 0xa81a664b, 0xc24b8b70, 0xc76c51a3, 0xd192e819, 0xd6990624, 0xf40e3585, 0x106aa070,
  0x19a4c116, 0x1e376c08, 0x2748774c, 0x34b0bcb5, 0x391c0cb3, 0x4ed8aa4a, 0x5b9cca4f, 0x682e6ff3,
  0x748f82ee, 0x78a5636f, 0x84c87814, 0x8cc70208, 0x90befffa, 0xa4506ceb, 0xbef9a3f7, 0xc67178f2]

def next256 (w : Nat → UInt32) (t : Nat) : UInt32 :=
  let σ₀ := fun x => rotr 7 x ^^^ rotr 18 x ^^^ x >>> 3
  let σ₁ := fun x => rotr 17 x ^^^ rotr 19 x ^^^ x >>> 10
  σ₁ (w (t - 2)) + w (t - 7) + σ₀ (w (t - 15)) + w (t - 16)

def round256 (w : Nat → UInt32) (v : Hash256) (t : Nat) : Hash256 :=
  let sum₀ := rotr 2 v.a ^^^ rotr 13 v.a ^^^ rotr 22 v.a
  let sum₁ := rotr 6 v.e ^^^ rotr 11 v.e ^^^ rotr 25 v.e
  let temp₁ := v.h + sum₁ + ch v.e v.f v.g + constants256.getD t 0 + w t
  let temp₂ := sum₀ + maj v.a v.b v.c
  ⟨temp₁ + temp₂, v.a, v.b, v.c, v.d + temp₁, v.e, v.f, v.g⟩

def compress256 (v : Hash256) (block : List UInt32) : Hash256 :=
  let ws := schedule next256 block 48
  let r := (List.range 64).foldl (round256 fun t => ws.getD t 0) v
  ⟨r.a + v.a, r.b + v.b, r.c + v.c, r.d + v.d, r.e + v.e, r.f + v.f, r.g + v.g, r.h + v.h⟩

def sha256 (message : Bytes) : Bytes :=
  (foldBlocks 64 (fun v block => compress256 v (words block)) initial256 (pad message)).bytes

/-- SHA-256 gives 32. -/
theorem length_sha256 (message : Bytes) : (sha256 message).length = 32 := by
  simp [sha256, Hash256.bytes, bytesOf]

example : sha256 (ascii "abc") = bytesOf
    [0xba7816bf, 0x8f01cfea, 0x414140de, 0x5dae2223, 0xb00361a3, 0x96177a9c, 0xb410ff61,
      0xf20015ad] := by decide +kernel

/-! ### Words in two parts -/

/-- Four bytes make a word. -/
theorem length_words {text : Bytes} {n : Nat} (h : text.length = 4 * n) :
    (words text).length = n := by
  induction n generalizing text with
  | zero =>
    obtain rfl := List.length_eq_zero_iff.mp h
    rfl
  | succ n ih =>
    match text, h with
    | c₀ :: c₁ :: c₂ :: c₃ :: rest, h =>
      simp only [List.length_cons] at h
      rw [words, List.length_cons, ih (by omega)]

/-- Whole words are read piece by piece. -/
theorem words_append {first : Bytes} {n : Nat} (h : first.length = 4 * n) (second : Bytes) :
    words (first ++ second) = words first ++ words second := by
  induction n generalizing first with
  | zero =>
    obtain rfl := List.length_eq_zero_iff.mp h
    rfl
  | succ n ih =>
    match first, h with
    | c₀ :: c₁ :: c₂ :: c₃ :: rest, h =>
      simp only [List.length_cons] at h
      simp only [List.cons_append, words, ih (show rest.length = 4 * n by omega)]

/-- Zero bytes make zero words. -/
theorem words_replicate_zero (n : Nat) :
    words (List.replicate (4 * n) 0) = List.replicate n 0 := by
  induction n with
  | zero => rfl
  | succ n ih =>
    rw [Nat.mul_succ, Nat.add_comm, List.replicate_add, words_append (n := 1) rfl, ih,
      List.replicate_succ]
    rfl

/-! ### The words of the schedule -/

section Schedule

variable (next : (Nat → UInt32) → Nat → UInt32) (block : List UInt32)

/-- The schedule adds one word each time. -/
theorem length_schedule (n : Nat) : (schedule next block n).length = block.length + n := by
  induction n with
  | zero => rfl
  | succ n ih => rw [schedule, List.length_append, List.length_singleton, ih, Nat.add_assoc]

/-- A word stays as it is once it is there. -/
theorem schedule_of_le {k n t : Nat} (hkn : k ≤ n) (ht : t < block.length + k) :
    (schedule next block n).getD t 0 = (schedule next block k).getD t 0 := by
  induction n, hkn using Nat.le_induction with
  | base => rfl
  | succ n hkn ih =>
    rw [schedule, List.getD_append _ _ _ _ (by rw [length_schedule]; omega), ih]

/-- The word that comes next. -/
theorem schedule_next (n : Nat) :
    (schedule next block (n + 1)).getD (block.length + n) 0
      = next (fun t => (schedule next block n).getD t 0) (block.length + n) := by
  have hlength := length_schedule next block n
  rw [schedule, List.getD_append_right _ _ _ _ hlength.le, hlength, Nat.sub_self]
  rfl

end Schedule

/-- The words of the block come first. -/
theorem word160_of_lt {block : List UInt32} {t : Nat} (ht : t < block.length) :
    word160 block t = block.getD t 0 :=
  schedule_of_le next160 block (Nat.zero_le 64) ht

/-- A word of the schedule only depends on the words before it. -/
theorem next160_congr {w w' : Nat → UInt32} {t : Nat} (ht : 16 ≤ t) (h : ∀ k < t, w k = w' k) :
    next160 w t = next160 w' t := by
  rw [next160, h _ (by omega), h _ (by omega), h _ (by omega), h _ (by omega), next160]

/-- **The recurrence of the schedule.** -/
theorem word160_next {block : List UInt32} (hlen : block.length = 16) {t : Nat} (h₁₆ : 16 ≤ t)
    (h₈₀ : t < 80) : word160 block t = next160 (word160 block) t := by
  obtain ⟨n, rfl⟩ : ∃ n, t = block.length + n := ⟨t - 16, by omega⟩
  have hearlier : ∀ k < block.length + n,
      (schedule next160 block n).getD k 0 = word160 block k := fun k hk =>
    (schedule_of_le next160 block (by omega) hk).symm
  -- The word is there after `n + 1` steps, and was made of words that are there after `n`.
  rw [word160, schedule_of_le next160 block (show n + 1 ≤ 64 by omega) (by omega), schedule_next]
  exact next160_congr h₁₆ hearlier

end Fips180

end Icl.Format
