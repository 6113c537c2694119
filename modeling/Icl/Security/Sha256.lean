import Icl.Cxx.Buffer
import Icl.Security.Sha1Digest

namespace Icl.Security

open Icl.Cxx Icl.Format Icl.Transition

/-!
# `sha256.c`

The model of `mbedtls/library/sha256.c`, without the options `MBEDTLS_SHA256_SMALLER` and
`MBEDTLS_CHECK_PARAMS`, which are off.  A size is a number of 64 bits, of which the counter of bytes
takes the lower half only.

* `Context`, `startsRet`, `updateRet`, `finishRet` — the functions;
* `calls_eq` — the calls of the macro `P`, one for each round;
* `process_hash` — a block is compressed as FIPS 180-4 says.
-/

namespace Sha256

/-- `mbedtls_sha256_context`. -/
structure Context where
  total₀ : UInt32
  total₁ : UInt32
  state : Vector UInt32 8
  buffer : Buffer 64
  is224 : Bool
  deriving DecidableEq, Repr

/-- `mbedtls_sha256_init`. -/
def init : Context where
  total₀ := 0
  total₁ := 0
  state := Vector.replicate 8 0
  buffer := ⟨List.replicate 64 0, rfl⟩
  is224 := false

/-- `mbedtls_sha256_starts_ret`, which returns 0. -/
def startsRet (ctx : Context) (is224 : Bool) : Context :=
  let state : Vector UInt32 8 := if is224 then
      #v[0xC1059ED8, 0x367CD507, 0x3070DD17, 0xF70E5939, 0xFFC00B31, 0x68581511, 0x64F98FA7,
        0xBEFA4FA4]
    else
      #v[0x6A09E667, 0xBB67AE85, 0x3C6EF372, 0xA54FF53A, 0x510E527F, 0x9B05688C, 0x1F83D9AB,
        0x5BE0CD19]
  { ctx with total₀ := 0, total₁ := 0, state, is224 }

/-! ### The macros -/

def K : List UInt32 := [
  0x428A2F98, 0x71374491, 0xB5C0FBCF, 0xE9B5DBA5, 0x3956C25B, 0x59F111F1, 0x923F82A4, 0xAB1C5ED5,
  0xD807AA98, 0x12835B01, 0x243185BE, 0x550C7DC3, 0x72BE5D74, 0x80DEB1FE, 0x9BDC06A7, 0xC19BF174,
  0xE49B69C1, 0xEFBE4786, 0x0FC19DC6, 0x240CA1CC, 0x2DE92C6F, 0x4A7484AA, 0x5CB0A9DC, 0x76F988DA,
  0x983E5152, 0xA831C66D, 0xB00327C8, 0xBF597FC7, 0xC6E00BF3, 0xD5A79147, 0x06CA6351, 0x14292967,
  0x27B70A85, 0x2E1B2138, 0x4D2C6DFC, 0x53380D13, 0x650A7354, 0x766A0ABB, 0x81C2C92E, 0x92722C85,
  0xA2BFE8A1, 0xA81A664B, 0xC24B8B70, 0xC76C51A3, 0xD192E819, 0xD6990624, 0xF40E3585, 0x106AA070,
  0x19A4C116, 0x1E376C08, 0x2748774C, 0x34B0BCB5, 0x391C0CB3, 0x4ED8AA4A, 0x5B9CCA4F, 0x682E6FF3,
  0x748F82EE, 0x78A5636F, 0x84C87814, 0x8CC70208, 0x90BEFFFA, 0xA4506CEB, 0xBEF9A3F7, 0xC67178F2]

def SHR (x n : UInt32) : UInt32 := (x &&& 0xFFFFFFFF) >>> n

def ROTR (x n : UInt32) : UInt32 := SHR x n ||| x <<< (32 - n)

def S0 (x : UInt32) : UInt32 := ROTR x 7 ^^^ ROTR x 18 ^^^ SHR x 3

def S1 (x : UInt32) : UInt32 := ROTR x 17 ^^^ ROTR x 19 ^^^ SHR x 10

def S2 (x : UInt32) : UInt32 := ROTR x 2 ^^^ ROTR x 13 ^^^ ROTR x 22

def S3 (x : UInt32) : UInt32 := ROTR x 6 ^^^ ROTR x 11 ^^^ ROTR x 25

def F0 (x y z : UInt32) : UInt32 := (x &&& y) ||| (z &&& (x ||| y))

def F1 (x y z : UInt32) : UInt32 := z ^^^ (x &&& (y ^^^ z))

/-- The array `A`, and what has been assigned of the array `W`. -/
abbrev Working := Vector UInt32 8 × List UInt32

/-- The macro `R`, which assigns the next word. -/
def R (W : List UInt32) (t : Nat) : List UInt32 :=
  W ++ [S1 (W.getD (t - 2) 0) + W.getD (t - 7) 0 + S0 (W.getD (t - 15) 0) + W.getD (t - 16) 0]

/-- The macro `P` on the elements of `A` with the given indices, in round `t`.  `word` is `R` where
    the argument `x` is a call of it, which comes to be evaluated once. -/
def P (a b c d e f g h : Fin 8) (word : List UInt32 → Nat → List UInt32) (t : Nat) (s : Working) :
    Working :=
  let (A, W) := s
  let W := word W t
  let temp₁ := A[h] + S3 A[e] + F1 A[e] A[f] A[g] + K.getD t 0 + W.getD t 0
  let temp₂ := S2 A[a] + F0 A[a] A[b] A[c]
  ((A.set d (A[d] + temp₁)).set h (temp₁ + temp₂), W)

/-- The eight calls in each of the two loops. -/
def eightCalls (word : List UInt32 → Nat → List UInt32) (s : Working) (i : Nat) : Working :=
  let s := P 0 1 2 3 4 5 6 7 word (i + 0) s
  let s := P 7 0 1 2 3 4 5 6 word (i + 1) s
  let s := P 6 7 0 1 2 3 4 5 word (i + 2) s
  let s := P 5 6 7 0 1 2 3 4 word (i + 3) s
  let s := P 4 5 6 7 0 1 2 3 word (i + 4) s
  let s := P 3 4 5 6 7 0 1 2 word (i + 5) s
  let s := P 2 3 4 5 6 7 0 1 word (i + 6) s
  P 1 2 3 4 5 6 7 0 word (i + 7) s

/-- The macro `GET_UINT32_BE`. -/
def getUint32Be (b : Buffer 64) (i : Nat) : UInt32 :=
  let byte k := (b.bytes.getD k 0).toUInt32
  byte i <<< 24 ||| byte (i + 1) <<< 16 ||| byte (i + 2) <<< 8 ||| byte (i + 3)

/-- The macro `PUT_UINT32_BE`: the bytes that it writes. -/
def putUint32Be (n : UInt32) : Bytes :=
  [(n >>> 24).toUInt8, (n >>> 16).toUInt8, (n >>> 8).toUInt8, n.toUInt8]

/-! ### The functions -/

/-- `mbedtls_internal_sha256_process`, which returns 0. -/
def process (ctx : Context) (data : Buffer 64) : Context :=
  let W := (List.range 16).map fun i => getUint32Be data (4 * i)
  let s := [0, 8].foldl (eightCalls fun W _ => W) (ctx.state, W)
  let s := [16, 24, 32, 40, 48, 56].foldl (eightCalls R) s
  { ctx with state := ctx.state.zipWith (· + ·) s.1 }

/-- The array of 64 bytes that begins where a text does. -/
def readBlock (input : Bytes) : Except Fault (Buffer 64) :=
  if h : 64 ≤ input.length then .ok ⟨input.take 64, List.length_take_of_le h⟩
  else .error (.outOfBounds 64 input.length)

/-- One turn of the loop of `mbedtls_sha256_update_ret`. -/
def updateTurn (st : Context × Bytes) :
    Except Fault (Turn (Context × Bytes) (Context × Bytes)) := do
  let (ctx, input) := st
  if 64 ≤ input.length then
    let data ← readBlock input
    return .next (process ctx data, input.drop 64)
  else return .stop (ctx, input)

/-- `mbedtls_sha256_update_ret`, which returns 0. -/
def updateRet (ctx : Context) (input : Bytes) : Except Fault Context := do
  if input.length = 0 then return ctx
  let left := (ctx.total₀ &&& 0x3F).toNat
  let fill := 64 - left
  let total₀ := ctx.total₀ + UInt32.ofNat input.length
  let total₁ := if total₀ < UInt32.ofNat input.length then ctx.total₁ + 1 else ctx.total₁
  let ctx := { ctx with total₀, total₁ }
  let (ctx, input, left) ← if left ≠ 0 ∧ fill ≤ input.length then do
      let buffer ← ctx.buffer.write left (input.take fill)
      pure (process { ctx with buffer } buffer, input.drop fill, 0)
    else pure (ctx, input, left)
  let (ctx, input) ← loop updateTurn (input.length + 1) (ctx, input)
  if input.length > 0 then
    let buffer ← ctx.buffer.write left input
    return { ctx with buffer }
  else return ctx

/-- `mbedtls_sha256_finish_ret`, up to the length of the message. -/
def addPadding (ctx : Context) : Except Fault Context := do
  let used := (ctx.total₀ &&& 0x3F).toNat
  let buffer ← ctx.buffer.write used [0x80]
  let used := used + 1
  if used ≤ 56 then
    let buffer ← buffer.write used (List.replicate (56 - used) 0)
    return { ctx with buffer }
  else
    let buffer ← buffer.write used (List.replicate (64 - used) 0)
    let ctx := process { ctx with buffer } buffer
    let buffer ← ctx.buffer.write 0 (List.replicate 56 0)
    return { ctx with buffer }

/-- `mbedtls_sha256_finish_ret`, which returns 0: the context, and the array `output` after it. -/
def finishRet (ctx : Context) (output : Buffer 32) : Except Fault (Context × Buffer 32) := do
  let ctx ← addPadding ctx
  let high := ctx.total₀ >>> 29 ||| ctx.total₁ <<< 3
  let low := ctx.total₀ <<< 3
  let buffer ← ctx.buffer.write 56 (putUint32Be high)
  let buffer ← buffer.write 60 (putUint32Be low)
  let ctx := process { ctx with buffer } buffer
  let output ← [0, 1, 2, 3, 4, 5, 6].foldlM
    (fun (output : Buffer 32) (k : Fin 8) => output.write (4 * k) (putUint32Be ctx.state[k])) output
  if ctx.is224 then return (ctx, output)
  else
    let output ← output.write 28 (putUint32Be ctx.state[7])
    return (ctx, output)

/-! ### The macros and the functions of the standard -/

/-- **The table `K` is the one of the standard.** -/
theorem K_eq : K = Fips180.constants256 := rfl

/-- The mask of `SHR` changes nothing on 32 bits. -/
theorem SHR_eq (x n : UInt32) : SHR x n = x >>> n := by
  rw [SHR, show (0xFFFFFFFF : UInt32) = -1 from rfl, UInt32.and_neg_one]

/-- `ROTR` is the rotation of the standard. -/
theorem ROTR_eq (x n : UInt32) : ROTR x n = Fips180.rotr n x := by
  rw [ROTR, SHR_eq, Fips180.rotr]

/-- `F1` is Ch. -/
theorem F1_eq (x y z : UInt32) : F1 x y z = Fips180.ch x y z := by
  apply UInt32.toBitVec_inj.mp
  apply BitVec.eq_of_getLsbD_eq
  intro i hi
  simp only [F1, Fips180.ch, UInt32.toBitVec_xor, UInt32.toBitVec_and, UInt32.toBitVec_not,
    BitVec.getLsbD_xor, BitVec.getLsbD_and, BitVec.getLsbD_not, hi, decide_true, Bool.true_and]
  cases x.toBitVec.getLsbD i <;> cases y.toBitVec.getLsbD i <;> cases z.toBitVec.getLsbD i <;> rfl

/-- `F0` is Maj. -/
theorem F0_eq (x y z : UInt32) : F0 x y z = Fips180.maj x y z := by
  apply UInt32.toBitVec_inj.mp
  apply BitVec.eq_of_getLsbD_eq
  intro i hi
  simp only [F0, Fips180.maj, UInt32.toBitVec_xor, UInt32.toBitVec_and, UInt32.toBitVec_or,
    BitVec.getLsbD_xor, BitVec.getLsbD_and, BitVec.getLsbD_or]
  cases x.toBitVec.getLsbD i <;> cases y.toBitVec.getLsbD i <;> cases z.toBitVec.getLsbD i <;> rfl

/-! ### The calls of `P` are the rounds -/

/-- The working variables, for the arguments of call `i`. -/
def vars (i : Fin 8) (A : Vector UInt32 8) : Fips180.Hash256 :=
  ⟨A[0 - i], A[1 - i], A[2 - i], A[3 - i], A[4 - i], A[5 - i], A[6 - i], A[7 - i]⟩

/-- Call `i` of the eight. -/
def call (word : List UInt32 → Nat → List UInt32) (i : Fin 8) (t : Nat) (s : Working) : Working :=
  P (0 - i) (1 - i) (2 - i) (3 - i) (4 - i) (5 - i) (6 - i) (7 - i) word t s

/-- Eight calls of the macro are one call for each letter in turn. -/
theorem eightCalls_eq (word : List UInt32 → Nat → List UInt32) (s : Working) (i : Nat) :
    eightCalls word s i = [0, 1, 2, 3, 4, 5, 6, 7].foldl (fun s k => call word k (i + k) s) s := by
  have h0 : ∀ t, call word 0 t = P 0 1 2 3 4 5 6 7 word t := fun _ => rfl
  have h1 : ∀ t, call word 1 t = P 7 0 1 2 3 4 5 6 word t := fun _ => rfl
  have h2 : ∀ t, call word 2 t = P 6 7 0 1 2 3 4 5 word t := fun _ => rfl
  have h3 : ∀ t, call word 3 t = P 5 6 7 0 1 2 3 4 word t := fun _ => rfl
  have h4 : ∀ t, call word 4 t = P 4 5 6 7 0 1 2 3 word t := fun _ => rfl
  have h5 : ∀ t, call word 5 t = P 3 4 5 6 7 0 1 2 word t := fun _ => rfl
  have h6 : ∀ t, call word 6 t = P 2 3 4 5 6 7 0 1 word t := fun _ => rfl
  have h7 : ∀ t, call word 7 t = P 1 2 3 4 5 6 7 0 word t := fun _ => rfl
  simp only [List.foldl_cons, List.foldl_nil, h0, h1, h2, h3, h4, h5, h6, h7]
  rfl

/-- Assigning to one of the letters leaves the others. -/
theorem get_set (A : Vector UInt32 8) (x y : Fin 8) (value : UInt32) :
    (A.set x value)[y] = if x = y then value else A[y] := by
  show (A.set x value)[y.val] = if x = y then value else A[y.val]
  rw [Vector.getElem_set]
  simp only [Fin.ext_iff]

/-- **One call.**  The variables of the next call are those of the next round. -/
theorem vars_call (word : List UInt32 → Nat → List UInt32) (i : Fin 8) (t : Nat) (s : Working) :
    vars (i + 1) (call word i t s).1
      = Fips180.round256 (fun t => (word s.2 t).getD t 0) (vars i s.1) t := by
  have hfirst : ∀ i : Fin 8, 0 - (i + 1) = 7 - i := by decide
  have hnext : ∀ i : Fin 8, 1 - (i + 1) = 0 - i ∧ 2 - (i + 1) = 1 - i ∧ 3 - (i + 1) = 2 - i ∧
      4 - (i + 1) = 3 - i ∧ 5 - (i + 1) = 4 - i ∧ 6 - (i + 1) = 5 - i ∧ 7 - (i + 1) = 6 - i := by
    decide
  -- The arguments of a call are different elements of the array.
  have hinj : ∀ k m i : Fin 8, k - i = m - i ↔ k = m := by decide
  obtain ⟨h₁, h₂, h₃, h₄, h₅, h₆, h₇⟩ := hnext i
  unfold vars call P
  simp only [hfirst, h₁, h₂, h₃, h₄, h₅, h₆, h₇, get_set, hinj, Fin.reduceEq, if_true, if_false]
  unfold Fips180.round256
  simp only [S2, S3, ROTR_eq, F0_eq, F1_eq, K_eq]

/-! ### The rounds of a block -/

/-- `GET_UINT32_BE` reads the sixteen words of the block. -/
theorem getWords_eq (data : Buffer 64) :
    ((List.range 16).map fun i => getUint32Be data (4 * i)) = Fips180.words data.bytes := by
  have hreverse : ∀ a b c d : UInt32, a ||| b ||| c ||| d = d ||| c ||| b ||| a := by
    intro a b c d
    ac_rfl
  rw [← Sha1.bufferToBlock_eq data.size]
  exact List.map_congr_left fun i _ => hreverse _ _ _ _

/-- The words of the schedule of a block. -/
def word256 (block : List UInt32) (t : Nat) : UInt32 :=
  (Fips180.schedule Fips180.next256 block 48).getD t 0

/-- **`R` makes the next word of the message schedule.** -/
theorem R_schedule {block : List UInt32} (hlen : block.length = 16) (n : Nat) :
    R (Fips180.schedule Fips180.next256 block n) (16 + n)
      = Fips180.schedule Fips180.next256 block (n + 1) := by
  have hnext : ∀ (w : Nat → UInt32) (t : Nat),
      S1 (w (t - 2)) + w (t - 7) + S0 (w (t - 15)) + w (t - 16) = Fips180.next256 w t := by
    intro w t
    unfold Fips180.next256 S0 S1
    simp only [ROTR_eq, SHR_eq]
  have hlength := Fips180.length_schedule Fips180.next256 block n
  rw [hlen] at hlength
  rw [Fips180.schedule, hlength, ← hnext]
  rfl

/-- The round looks at its own word only. -/
theorem round256_congr {w w' : Nat → UInt32} {t : Nat} (h : w t = w' t) (v : Fips180.Hash256) :
    Fips180.round256 w v t = Fips180.round256 w' v t := by
  unfold Fips180.round256
  rw [h]

/-- The array `A` and the words before round `t` of a block. -/
structure Before (block : List UInt32) (v : Fips180.Hash256) (t : Nat) (s : Working) : Prop where
  vars_eq : ∀ i : Fin 8, i.val = t % 8 →
    vars i s.1 = (List.range t).foldl (Fips180.round256 (word256 block)) v
  words_eq : s.2 = Fips180.schedule Fips180.next256 block (t - 16)

/-- The argument `x` of a call brings the words up to those that the round needs. -/
def Supplies (word : List UInt32 → Nat → List UInt32) (block : List UInt32) (t : Nat) : Prop :=
  word (Fips180.schedule Fips180.next256 block (t - 16)) t
    = Fips180.schedule Fips180.next256 block (t + 1 - 16)

section Rounds

variable {block : List UInt32} (hlen : block.length = 16) {v : Fips180.Hash256}
  {word : List UInt32 → Nat → List UInt32}

include hlen

/-- **One round.** -/
theorem Before.call {t : Nat} {s : Working} (h : Before block v t s) (ht : t < 64)
    (hword : Supplies word block t) {i : Fin 8} (hi : i.val = t % 8) :
    Before block v (t + 1) (call word i t s) := by
  have hwords : (Sha256.call word i t s).2 = word s.2 t := rfl
  have hsupplied : word s.2 t = Fips180.schedule Fips180.next256 block (t + 1 - 16) := by
    rw [h.words_eq]
    exact hword
  have hown : (word s.2 t).getD t 0 = word256 block t := by
    rw [hsupplied, word256,
      Fips180.schedule_of_le _ block (show t + 1 - 16 ≤ 48 by omega) (by omega)]
  refine ⟨fun k hk => ?_, hwords.trans hsupplied⟩
  obtain rfl : k = i + 1 := by
    apply Fin.ext
    rw [hk, Fin.val_add, hi]
    omega
  rw [vars_call, h.vars_eq i hi, List.range_succ, List.foldl_append]
  exact round256_congr hown _

/-- Calls one after the other. -/
theorem Before.calls {i : Nat} (hi : i % 8 = 0) {ks : List (Fin 8)} {n : Nat} {s : Working}
    (hks : ks.map Fin.val = List.range' n ks.length) (h : Before block v (i + n) s)
    (hend : i + n + ks.length ≤ 64)
    (hword : ∀ t, i + n ≤ t → t < i + n + ks.length → Supplies word block t) :
    Before block v (i + n + ks.length)
      (ks.foldl (fun s k => Sha256.call word k (i + k) s) s) := by
  induction ks generalizing n s with
  | nil => exact h
  | cons k ks ih =>
    rw [List.map_cons, List.length_cons, List.range'_succ, List.cons.injEq] at hks
    obtain ⟨hk, hks⟩ := hks
    have hmod := k.isLt
    rw [List.length_cons] at hend hword ⊢
    have hstep : Before block v (i + (n + 1)) (Sha256.call word k (i + k) s) := by
      rw [hk]
      exact h.call hlen (by omega) (hword _ le_rfl (by omega)) (by omega)
    have hrest := ih hks hstep (by omega) fun t hle hlt => hword t (by omega) (by omega)
    rwa [show i + (n + 1) + ks.length = i + n + (ks.length + 1) by omega] at hrest

/-- **Eight rounds** bring the letters back to their places. -/
theorem Before.eight {i : Nat} (hi : i % 8 = 0) {s : Working} (h : Before block v i s)
    (hend : i + 8 ≤ 64) (hword : ∀ t, i ≤ t → t < i + 8 → Supplies word block t) :
    Before block v (i + 8) (eightCalls word s i) := by
  rw [eightCalls_eq]
  have hks : ([0, 1, 2, 3, 4, 5, 6, 7] : List (Fin 8)).map Fin.val = List.range' 0 8 := by decide
  exact Before.calls hlen hi hks h hend hword

/-- **The rounds of a block.** -/
theorem before_end (A : Vector UInt32 8) :
    Before block (vars 0 A) 64
      ([16, 24, 32, 40, 48, 56].foldl (eightCalls R)
        ([0, 8].foldl (eightCalls fun W _ => W) (A, block))) := by
  have hread : ∀ t < 16, Supplies (fun W _ => W) block t := by
    intro t ht
    rw [Supplies, Nat.sub_eq_zero_of_le (by omega), Nat.sub_eq_zero_of_le (by omega)]
  have hassign : ∀ t, 16 ≤ t → Supplies R block t := by
    intro t ht
    obtain ⟨n, rfl⟩ : ∃ n, t = 16 + n := ⟨t - 16, by omega⟩
    rw [Supplies, Nat.add_sub_cancel_left, R_schedule hlen, Nat.add_assoc, Nat.add_sub_cancel_left]
  have hstart : Before block (vars 0 A) 0 (A, block) := by
    refine ⟨fun i hi => ?_, rfl⟩
    obtain rfl : i = 0 := Fin.ext hi
    rfl
  -- Two groups of eight rounds read the words of the block, six make theirs with `R`.
  simp only [List.foldl_cons, List.foldl_nil]
  have h₈ := hstart.eight hlen rfl (by decide) fun t _ ht => hread t (by omega)
  have h₁₆ := h₈.eight hlen rfl (by decide) fun t _ ht => hread t (by omega)
  have h₂₄ := h₁₆.eight hlen rfl (by decide) fun t ht _ => hassign t (by omega)
  have h₃₂ := h₂₄.eight hlen rfl (by decide) fun t ht _ => hassign t (by omega)
  have h₄₀ := h₃₂.eight hlen rfl (by decide) fun t ht _ => hassign t (by omega)
  have h₄₈ := h₄₀.eight hlen rfl (by decide) fun t ht _ => hassign t (by omega)
  have h₅₆ := h₄₈.eight hlen rfl (by decide) fun t ht _ => hassign t (by omega)
  exact h₅₆.eight hlen rfl (by decide) fun t ht _ => hassign t (by omega)

end Rounds

/-- The hash value that an array of eight words holds. -/
def hash (A : Vector UInt32 8) : Fips180.Hash256 := ⟨A[0], A[1], A[2], A[3], A[4], A[5], A[6], A[7]⟩

/-- At the end the letters are added to the state. -/
theorem hash_zipWith (A B : Vector UInt32 8) :
    hash (A.zipWith (· + ·) B)
      = ⟨(hash B).a + (hash A).a, (hash B).b + (hash A).b, (hash B).c + (hash A).c,
          (hash B).d + (hash A).d, (hash B).e + (hash A).e, (hash B).f + (hash A).f,
          (hash B).g + (hash A).g, (hash B).h + (hash A).h⟩ := by
  unfold hash
  simp only [Vector.getElem_zipWith, UInt32.add_comm]

/-- **A block is compressed as the standard says.** -/
theorem process_hash (ctx : Context) (data : Buffer 64) :
    hash (process ctx data).state
      = Fips180.compress256 (hash ctx.state) (Fips180.words data.bytes) := by
  have hlen : (Fips180.words data.bytes).length = 16 := Fips180.length_words data.size
  have hrounds := (before_end hlen ctx.state).vars_eq 0 rfl
  unfold process
  dsimp only
  rw [getWords_eq, hash_zipWith]
  -- The arguments of the first call are the variables in their order.
  change hash _ = _ at hrounds
  rw [hrounds]
  rfl

end Sha256

end Icl.Security
