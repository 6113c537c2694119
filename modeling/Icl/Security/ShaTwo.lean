import Icl.Cxx.Buffer
import Icl.Format.Fips180
import Icl.Format.Rfc2104

namespace Icl.Security

open Icl.Cxx Icl.Format

/-!
# `hmac_compute`

The model of `security/ShaTwo.cpp`.  What it calls of `mbedtls/library/sha256.c` is a parameter: a
context, and the functions on it.

* `xorLoop_eq` — the two pads after the loop over the key;
* `hmac_compute_eq` — the result is the HMAC of RFC 2104, if the library computes a hash function.
-/

/-- `mbedtls_sha256_context`, with the functions that return what they leave in the context and
    their result, which is 0 for success. -/
structure Sha256Library (Ctx : Type) where
  init : Ctx
  startsRet : Ctx → Ctx × Int
  updateRet : Ctx → Bytes → Ctx × Int
  finishRet : Ctx → Buffer 32 × Int

namespace ShaTwo

variable {Ctx : Type} (lib : Sha256Library Ctx)

/-! ### `Sha256` -/

/-- `Sha256::Sha256`. -/
def start : Ctx := (lib.startsRet lib.init).1

/-- `Sha256::Update`. -/
def update (mCtx : Ctx) (s : Bytes) : Ctx × Bool :=
  let (mCtx, ret) := lib.updateRet mCtx s
  (mCtx, ret = 0)

/-- `Sha256::Final`: the string, and whether it succeeded. -/
def final (mCtx : Ctx) : Bytes × Bool :=
  let (sha256sum, ret) := lib.finishRet mCtx
  (sha256sum.bytes, ret = 0)

/-! ### `hmac_compute` -/

/-- `static_cast<unsigned char>(pad ^ c)`: both are widened to `int` first, and `c` is a signed
    `char`. -/
def xorChar (pad c : UInt8) : UInt8 :=
  (pad.toUInt32.toInt32 ^^^ c.toInt8.toInt32).toInt8.toUInt8

/-- `pad[i] = static_cast<unsigned char>(pad[i] ^ copy_key[i])`. -/
def xorAt (copyKey : Bytes) (i : Nat) (pad : Bytes) : Except Fault Bytes := do
  store pad i (xorChar (← index pad i) (← index copyKey i))

/-- One turn of the loop over the key. -/
def xorTurn (copyKey : Bytes) (pads : Bytes × Bytes) (i : Nat) : Except Fault (Bytes × Bytes) := do
  let (ipad, opad) := pads
  return (← xorAt copyKey i ipad, ← xorAt copyKey i opad)

/-- `hmac_compute`.  What `Update` and `Final` return is not looked at. -/
def hmacCompute (key message : Bytes) : Except Fault Bytes := do
  let blockSize := 64
  let ipad := List.replicate blockSize 0x36
  let opad := List.replicate blockSize 0x5C
  let copyKey :=
    if key.length > blockSize then (final lib (update lib (start lib) key).1).1 else key
  let (ipad, opad) ← (List.range copyKey.length).foldlM (xorTurn copyKey) (ipad, opad)
  let sha := (update lib (start lib) ipad).1
  let sha := (update lib sha message).1
  let firstDigest := (final lib sha).1
  let sha := (update lib (start lib) opad).1
  let sha := (update lib sha firstDigest).1
  return (final lib sha).1

/-! ### What is assumed of the library -/

/-- A context after some calls of `Update`. -/
def after (parts : List Bytes) : Ctx :=
  parts.foldl (fun mCtx s => (update lib mCtx s).1) (start lib)

/-- The library computes a hash function of what it has been given, whatever the parts. -/
def Computes (hash : Bytes → Bytes) : Prop :=
  ∀ parts, (final lib (after lib parts)).1 = hash parts.flatten

variable {lib}

theorem Computes.length_eq {hash : Bytes → Bytes} (h : Computes lib hash) (message : Bytes) :
    (hash message).length = 32 := by
  have hdigest := h [message]
  rw [List.flatten_singleton] at hdigest
  rw [← hdigest]
  exact (lib.finishRet _).1.size

/-! ### The loop over the key -/

/-- The bits that the widening adds are cut off again. -/
theorem xorChar_eq (pad c : UInt8) : xorChar pad c = pad ^^^ c := by
  have hpad : pad.toUInt32.toInt32.toInt8 = pad.toInt8 := by
    apply Int8.toBitVec_inj.mp
    show BitVec.signExtend 8 (BitVec.setWidth 32 pad.toBitVec) = pad.toBitVec
    rw [BitVec.signExtend_eq_setWidth_of_le _ (by decide),
      BitVec.setWidth_setWidth_of_le _ (by decide), BitVec.setWidth_eq]
  rw [xorChar, Int32.toInt8_xor, hpad, Int8.toInt8_toInt32, ← UInt8.toInt8_xor]
  rfl

/-- A pad after the first `n` turns. -/
def padAfter (pad : UInt8) (copyKey : Bytes) (n : Nat) : Bytes :=
  Rfc2104.under pad (copyKey.take n) ++ List.replicate (64 - n) pad

theorem length_padAfter (pad : UInt8) {copyKey : Bytes} {n : Nat} (hlen : copyKey.length ≤ 64)
    (hn : n ≤ copyKey.length) : (padAfter pad copyKey n).length = 64 := by
  rw [padAfter, Rfc2104.under, List.length_append, List.length_map, List.length_take_of_le hn,
    List.length_replicate]
  omega

/-- One turn, for one of the pads. -/
theorem xorAt_padAfter (pad : UInt8) {copyKey : Bytes} {n : Nat} (hlen : copyKey.length ≤ 64)
    (hn : n < copyKey.length) :
    xorAt copyKey n (padAfter pad copyKey n) = .ok (padAfter pad copyKey (n + 1)) := by
  have hlength := length_padAfter pad hlen hn.le
  have hunder : (Rfc2104.under pad (copyKey.take n)).length = n := by
    rw [Rfc2104.under, List.length_map, List.length_take_of_le hn.le]
  have hsplit : padAfter pad copyKey n
      = Rfc2104.under pad (copyKey.take n) ++ pad :: List.replicate (64 - (n + 1)) pad := by
    rw [padAfter, show 64 - n = 64 - (n + 1) + 1 by omega, List.replicate_succ]
  -- The byte has not been combined with another one before.
  have hold : (padAfter pad copyKey n)[n] = pad := by
    rw [List.getElem_of_eq hsplit, List.getElem_append_right hunder.le]
    simp only [hunder, Nat.sub_self, List.getElem_cons_zero]
  rw [xorAt, index_of_lt (by omega), ok_bind, index_of_lt hn, ok_bind, store_of_lt (by omega), hold,
    xorChar_eq, hsplit, List.set_append_right _ _ hunder.le, hunder, Nat.sub_self,
    List.set_cons_zero, padAfter, ← List.take_append_getElem hn, Rfc2104.under, Rfc2104.under,
    List.map_append, List.append_assoc, UInt8.xor_comm]
  rfl

/-- **The pads after the loop.** -/
theorem xorLoop_eq {copyKey : Bytes} (hlen : copyKey.length ≤ 64) {n : Nat}
    (hn : n ≤ copyKey.length) :
    (List.range n).foldlM (xorTurn copyKey) (List.replicate 64 0x36, List.replicate 64 0x5C)
      = .ok (padAfter 0x36 copyKey n, padAfter 0x5C copyKey n) := by
  induction n with
  | zero => rfl
  | succ n ih =>
    have hturn : xorTurn copyKey (padAfter 0x36 copyKey n, padAfter 0x5C copyKey n) n
        = .ok (padAfter 0x36 copyKey (n + 1), padAfter 0x5C copyKey (n + 1)) := by
      unfold xorTurn
      dsimp only
      rw [xorAt_padAfter 0x36 hlen hn, ok_bind, xorAt_padAfter 0x5C hlen hn, ok_bind, pure_eq_ok]
    rw [List.range_succ, List.foldlM_append, ih (by omega), ok_bind, List.foldlM_cons, hturn,
      ok_bind]
    rfl

/-- The key of the loop, which is the key of the standard. -/
theorem padAfter_length (pad : UInt8) (copyKey : Bytes) :
    padAfter pad copyKey copyKey.length
      = Rfc2104.under pad (copyKey ++ List.replicate (64 - copyKey.length) 0) := by
  rw [Rfc2104.under_filled, padAfter, List.take_length]

/-- **`hmac_compute` is HMAC**, and writes to no place outside its pads. -/
theorem hmac_compute_eq {hash : Bytes → Bytes} (h : Computes lib hash) (key message : Bytes) :
    hmacCompute lib key message = .ok (Rfc2104.hmac hash 64 key message) := by
  have htwo : ∀ first second,
      (final lib (update lib (update lib (start lib) first).1 second).1).1
        = hash (first ++ second) := by
    intro first second
    have hdigest := h [first, second]
    rwa [List.flatten_cons, List.flatten_singleton] at hdigest
  have hone : (final lib (update lib (start lib) key).1).1 = hash key := by
    have hdigest := h [key]
    rwa [List.flatten_singleton] at hdigest
  unfold hmacCompute
  dsimp only
  rw [hone]
  obtain ⟨copyKey, hcopy⟩ : ∃ k, k = if key.length > 64 then hash key else key := ⟨_, rfl⟩
  -- A digest has 32 bytes, so the loop stays inside the pads on both sides of the block size.
  have hlen : copyKey.length ≤ 64 := by
    rw [hcopy]
    by_cases hlong : key.length > 64
    · rw [if_pos hlong, h.length_eq]
      omega
    · rw [if_neg hlong]
      omega
  rw [← hcopy, xorLoop_eq hlen le_rfl, ok_bind, pure_eq_ok]
  dsimp only
  rw [htwo, htwo, padAfter_length, padAfter_length, Rfc2104.hmac, Rfc2104.blockKey, ← hcopy]

/-! ### The library with SHA-256 -/

/-- Contexts that keep what they have been given. -/
def keeping : Sha256Library Bytes where
  init := []
  startsRet _ := ([], 0)
  updateRet mCtx s := (mCtx ++ s, 0)
  finishRet mCtx := (⟨Fips180.sha256 mCtx, Fips180.length_sha256 mCtx⟩, 0)

theorem computes_keeping : Computes keeping Fips180.sha256 := by
  have hafter : ∀ (parts : List Bytes) (given : Bytes),
      parts.foldl (fun mCtx s => (update keeping mCtx s).1) given = given ++ parts.flatten := by
    intro parts
    induction parts with
    | nil => exact fun given => (List.append_nil given).symm
    | cons s parts ih =>
      intro given
      rw [List.foldl_cons, ih, List.flatten_cons, ← List.append_assoc]
      rfl
  intro parts
  show Fips180.sha256 (after keeping parts) = _
  rw [after, hafter]
  rfl

/-- A short key. -/
theorem hmac_compute_key :
    Computes keeping Fips180.sha256 ∧
      hmacCompute keeping (ascii "key") (ascii "The quick brown fox jumps over the lazy dog")
        = .ok (Rfc2104.hmac Fips180.sha256 64 (ascii "key")
            (ascii "The quick brown fox jumps over the lazy dog")) ∧
      Rfc2104.hmac Fips180.sha256 64 (ascii "key")
          (ascii "The quick brown fox jumps over the lazy dog")
        = Fips180.bytesOf [0xf7bc83f4, 0x30538424, 0xb13298e6, 0xaa6fb143, 0xef4d59a1, 0x49461759,
            0x97479dbc, 0x2d1a3cd8] :=
  ⟨computes_keeping, hmac_compute_eq computes_keeping _ _, by decide +kernel⟩

end ShaTwo

end Icl.Security
