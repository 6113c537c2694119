import Icl.Cxx.Bytes
import Icl.Security.Gcm

namespace Icl.Security

open Icl.Cxx

/-!
# `aes.c`

The model of what GCM uses of `mbedtls/library/aes.c`: the tables, which are computed when the first
key is set, `mbedtls_aes_setkey_enc` and `mbedtls_internal_aes_encrypt`.  The processor's own
instructions are left out, and so are the tables of decryption.

`int` and pointers are natural numbers, and the buffer of the round keys holds what has been
written.
-/

namespace Aes

/-! ### The tables -/

/-- `ROTL8`. -/
def rotl8 (x : UInt32) : UInt32 := ((x <<< 8) &&& (0xFFFFFFFF : UInt32)) ||| (x >>> 24)

/-- `XTIME`. -/
def xtime (x : Nat) : Nat := (x <<< 1) ^^^ (if x &&& 0x80 ≠ 0 then 0x1B else 0x00)

/-- The forward tables. -/
structure Tables where
  fsb : List UInt8
  ft0 : List UInt32
  ft1 : List UInt32
  ft2 : List UInt32
  ft3 : List UInt32
  rcon : List UInt32

/-- The logarithms: `pow`, `log` and `x`. -/
def genPow : List Nat × List Nat × Nat :=
  (List.range 256).foldl (fun (pow, log, x) i =>
    (pow.set i x, log.set x i, (x ^^^ xtime x) &&& 0xFF))
    (List.replicate 256 0, List.replicate 256 0, 1)

/-- The round constants. -/
def genRcon : List UInt32 :=
  ((List.range 10).foldl (fun (rcon, x) i => (rcon.set i (UInt32.ofNat x), xtime x &&& 0xFF))
    (List.replicate 10 0, 1)).1

/-- `y = ( ( y << 1 ) | ( y >> 7 ) ) & 0xFF`. -/
def rotateByte (y : Nat) : Nat := ((y <<< 1) ||| (y >>> 7)) &&& 0xFF

/-- The entry of the S-box that is computed from `x`. -/
def sboxEntry (x : Nat) : Nat :=
  let y := rotateByte x
  let x := x ^^^ y
  let y := rotateByte y
  let x := x ^^^ y
  let y := rotateByte y
  let x := x ^^^ y
  let y := rotateByte y
  x ^^^ (y ^^^ 0x63)

/-- The S-box. -/
def genSbox : List UInt8 :=
  let (pow, log, _) := genPow
  (List.range 256).tail.foldl (fun fsb i =>
    fsb.set i (UInt8.ofNat (sboxEntry (pow.getD (255 - log.getD i 0) 0))))
    ((List.replicate 256 0).set 0 0x63)

/-- One entry of `FT0`. -/
def forwardEntry (c : UInt8) : UInt32 :=
  let x := c.toNat
  let y := xtime x &&& 0xFF
  let z := (y ^^^ x) &&& 0xFF
  UInt32.ofNat y ^^^ UInt32.ofNat x <<< 8 ^^^ UInt32.ofNat x <<< 16 ^^^ UInt32.ofNat z <<< 24

/-- `aes_gen_tables`. -/
def genTables : Tables :=
  let fsb := genSbox
  let ft0 := fsb.map forwardEntry
  let ft1 := ft0.map rotl8
  let ft2 := ft1.map rotl8
  { fsb, ft0, ft1, ft2, ft3 := ft2.map rotl8, rcon := genRcon }

/-! ### Keys -/

/-- `GET_UINT32_LE`. -/
def getUint32Le (b : Bytes) (i : Nat) : UInt32 :=
  (b.getD i 0).toUInt32 ||| (b.getD (i + 1) 0).toUInt32 <<< 8 |||
    (b.getD (i + 2) 0).toUInt32 <<< 16 ||| (b.getD (i + 3) 0).toUInt32 <<< 24

/-- `PUT_UINT32_LE`. -/
def putUint32Le (n : UInt32) : Bytes :=
  [(n &&& 0xFF).toUInt8, ((n >>> 8) &&& 0xFF).toUInt8, ((n >>> 16) &&& 0xFF).toUInt8,
    ((n >>> 24) &&& 0xFF).toUInt8]

/-- `mbedtls_aes_context`. -/
structure Context where
  nr : Nat
  rk : List UInt32

variable (t : Tables)

/-- `(uint32_t) FSb[x & 0xFF]`. -/
def fsbWord (x : UInt32) : UInt32 := (t.fsb.getD (x &&& 0xFF).toNat 0).toUInt32

/-- A word of the key schedule that has been rotated and substituted. -/
def rotatedSbox (x : UInt32) : UInt32 :=
  fsbWord t (x >>> 8) ^^^ fsbWord t (x >>> 16) <<< 8 ^^^ fsbWord t (x >>> 24) <<< 16 ^^^
    fsbWord t x <<< 24

/-- One turn of the loop for keys of 128 bits: the four words behind `RK`. -/
def expand128 (rk : List UInt32) (i : Nat) : List UInt32 :=
  let RK := fun j => rk.getD (4 * i + j) 0
  let k4 := RK 0 ^^^ t.rcon.getD i 0 ^^^ rotatedSbox t (RK 3)
  let k5 := RK 1 ^^^ k4
  let k6 := RK 2 ^^^ k5
  let k7 := RK 3 ^^^ k6
  rk ++ [k4, k5, k6, k7]

/-- One turn of the loop for keys of 192 bits. -/
def expand192 (rk : List UInt32) (i : Nat) : List UInt32 :=
  let RK := fun j => rk.getD (6 * i + j) 0
  let k6 := RK 0 ^^^ t.rcon.getD i 0 ^^^ rotatedSbox t (RK 5)
  let k7 := RK 1 ^^^ k6
  let k8 := RK 2 ^^^ k7
  let k9 := RK 3 ^^^ k8
  let k10 := RK 4 ^^^ k9
  let k11 := RK 5 ^^^ k10
  rk ++ [k6, k7, k8, k9, k10, k11]

/-- One turn of the loop for keys of 256 bits. -/
def expand256 (rk : List UInt32) (i : Nat) : List UInt32 :=
  let RK := fun j => rk.getD (8 * i + j) 0
  let k8 := RK 0 ^^^ t.rcon.getD i 0 ^^^ rotatedSbox t (RK 7)
  let k9 := RK 1 ^^^ k8
  let k10 := RK 2 ^^^ k9
  let k11 := RK 3 ^^^ k10
  let k12 := RK 4 ^^^ (fsbWord t k11 ^^^ fsbWord t (k11 >>> 8) <<< 8 ^^^
    fsbWord t (k11 >>> 16) <<< 16 ^^^ fsbWord t (k11 >>> 24) <<< 24)
  let k13 := RK 5 ^^^ k12
  let k14 := RK 6 ^^^ k13
  let k15 := RK 7 ^^^ k14
  rk ++ [k8, k9, k10, k11, k12, k13, k14, k15]

/-- `mbedtls_aes_setkey_enc`; `none` is `MBEDTLS_ERR_AES_INVALID_KEY_LENGTH`. -/
def setkeyEnc (key : Bytes) (keybits : Nat) : Option Context :=
  let first := (List.range (keybits >>> 5)).map fun i => getUint32Le key (i <<< 2)
  if keybits = 128 then some ⟨10, (List.range 10).foldl (expand128 t) first⟩
  else if keybits = 192 then some ⟨12, (List.range 8).foldl (expand192 t) first⟩
  else if keybits = 256 then some ⟨14, (List.range 7).foldl (expand256 t) first⟩
  else none

/-! ### Blocks -/

/-- The four words of a state. -/
structure Vars where
  x0 : UInt32
  x1 : UInt32
  x2 : UInt32
  x3 : UInt32

/-- An entry of one of the tables, for the lowest byte of `x`. -/
def lookup (table : List UInt32) (x : UInt32) : UInt32 := table.getD (x &&& 0xFF).toNat 0

/-- One word of `AES_FROUND`. -/
def froundWord (k y0 y1 y2 y3 : UInt32) : UInt32 :=
  k ^^^ lookup t.ft0 y0 ^^^ lookup t.ft1 (y1 >>> 8) ^^^ lookup t.ft2 (y2 >>> 16) ^^^
    lookup t.ft3 (y3 >>> 24)

/-- `AES_FROUND`, with the words of `rk` from `RK` on. -/
def fround (rk : List UInt32) (RK : Nat) (y : Vars) : Vars where
  x0 := froundWord t (rk.getD RK 0) y.x0 y.x1 y.x2 y.x3
  x1 := froundWord t (rk.getD (RK + 1) 0) y.x1 y.x2 y.x3 y.x0
  x2 := froundWord t (rk.getD (RK + 2) 0) y.x2 y.x3 y.x0 y.x1
  x3 := froundWord t (rk.getD (RK + 3) 0) y.x3 y.x0 y.x1 y.x2

/-- One word of the last round. -/
def lastWord (k y0 y1 y2 y3 : UInt32) : UInt32 :=
  k ^^^ fsbWord t y0 ^^^ fsbWord t (y1 >>> 8) <<< 8 ^^^ fsbWord t (y2 >>> 16) <<< 16 ^^^
    fsbWord t (y3 >>> 24) <<< 24

/-- The loop of `mbedtls_internal_aes_encrypt`, which does two rounds in a turn. -/
def roundLoop (rk : List UInt32) : Nat → Nat → Vars → Nat × Vars
  | 0, RK, x => (RK, x)
  | i + 1, RK, x => roundLoop rk i (RK + 8) (fround t rk (RK + 4) (fround t rk RK x))

/-- `mbedtls_internal_aes_encrypt`. -/
def encrypt (ctx : Context) (input : Bytes) : Bytes :=
  let x : Vars := {
    x0 := getUint32Le input 0 ^^^ ctx.rk.getD 0 0
    x1 := getUint32Le input 4 ^^^ ctx.rk.getD 1 0
    x2 := getUint32Le input 8 ^^^ ctx.rk.getD 2 0
    x3 := getUint32Le input 12 ^^^ ctx.rk.getD 3 0 }
  let (RK, x) := roundLoop t ctx.rk ((ctx.nr >>> 1) - 1) 4 x
  let y := fround t ctx.rk RK x
  let RK := RK + 4
  putUint32Le (lastWord t (ctx.rk.getD RK 0) y.x0 y.x1 y.x2 y.x3) ++
    putUint32Le (lastWord t (ctx.rk.getD (RK + 1) 0) y.x1 y.x2 y.x3 y.x0) ++
    putUint32Le (lastWord t (ctx.rk.getD (RK + 2) 0) y.x2 y.x3 y.x0 y.x1) ++
    putUint32Le (lastWord t (ctx.rk.getD (RK + 3) 0) y.x3 y.x0 y.x1 y.x2)

/-- AES with a key of 128 bits, as GCM uses it: a key is set, and one block is encrypted. -/
def aes128 (key block : Block) : Block :=
  match setkeyEnc genTables key.toList 128 with
  | some ctx =>
    let output := encrypt genTables ctx block.toList
    Vector.ofFn fun i => output.getD i.val 0
  | none => block

end Aes

end Icl.Security
