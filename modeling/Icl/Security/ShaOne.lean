import Icl.Cxx.Stream
import Icl.Format.Hex
import Icl.Transition.Loop

namespace Icl.Security

open Icl.Cxx Icl.Format Icl.Transition

/-!
# `Sha1`

The model of `security/ShaOne.cpp`: the digest, the buffer of bytes that do not fill a block
yet and the number of blocks hashed, with `Transform`, `Update` and `Final`.  `FromFile` is left
out.

The eighty macro calls of `Transform` are written out, each with the variables that it has in the
source.
-/

/-- The five words of `digest`, which are also the working variables of `Transform`. -/
structure Digest where
  a : UInt32
  b : UInt32
  c : UInt32
  d : UInt32
  e : UInt32
  deriving DecidableEq, Repr

/-- `Sha1`. -/
structure Sha1 where
  digest : Digest
  buffer : Bytes
  transforms : Nat
  deriving DecidableEq, Repr

namespace Sha1

/-- `BLOCK_INTS`. -/
def blockInts : Nat := 16

/-- `BLOCK_BYTES`. -/
def blockBytes : Nat := blockInts * 4

/-- `Sha1::Reset`, which is also the constructor. -/
def reset : Sha1 :=
  { digest := ⟨0x67452301, 0xefcdab89, 0x98badcfe, 0x10325476, 0xc3d2e1f0⟩
    buffer := [], transforms := 0 }

/-! ### `Transform` -/

/-- The working variables. -/
inductive Var where
  | a | b | c | d | e
  deriving DecidableEq, Repr

end Sha1

namespace Digest

open Sha1

/-- The value of a variable. -/
def get (r : Digest) : Var → UInt32
  | .a => r.a
  | .b => r.b
  | .c => r.c
  | .d => r.d
  | .e => r.e

/-- An assignment. -/
def set (r : Digest) (x : Var) (value : UInt32) : Digest :=
  match x with
  | .a => { r with a := value }
  | .b => { r with b := value }
  | .c => { r with c := value }
  | .d => { r with d := value }
  | .e => { r with e := value }

@[simp] theorem get_set_self (r : Digest) (x : Var) (value : UInt32) :
    (r.set x value).get x = value := by
  cases x <;> rfl

theorem get_set_of_ne (r : Digest) {x y : Var} (h : y ≠ x) (value : UInt32) :
    (r.set x value).get y = r.get y := by
  cases x <;> cases y <;> first | rfl | exact absurd rfl h

end Digest

namespace Sha1

/-- The macro `rol`. -/
def rol (value bits : UInt32) : UInt32 := value <<< bits ||| value >>> (32 - bits)

/-- `block[i & 15]`. -/
def word (block : List UInt32) (i : Nat) : UInt32 := block.getD (i % 16) 0

/-- The macro `blk`: the block after the assignment. -/
def blk (block : List UInt32) (i : Nat) : List UInt32 :=
  block.set (i % 16)
    (rol (word block (i + 13) ^^^ word block (i + 8) ^^^ word block (i + 2) ^^^ word block i) 1)

/-- The working variables and the block. -/
abbrev Working := Digest × List UInt32

/-- The form of the macros: `z += term + constant + rol(v, 5); w = rol(w, 30);` where `term` is the
    function of the macro and the word. -/
def assign (v w z : Var) (term : UInt32) (constant : UInt32) (s : Digest) : Digest :=
  let s := s.set z (s.get z + (term + constant + rol (s.get v) 5))
  s.set w (rol (s.get w) 30)

def R0 (v w x y z : Var) (i : Nat) (s : Working) : Working :=
  let (r, block) := s
  (assign v w z (((r.get w &&& (r.get x ^^^ r.get y)) ^^^ r.get y) + block.getD i 0) 0x5a827999 r,
    block)

def R1 (v w x y z : Var) (i : Nat) (s : Working) : Working :=
  let (r, block) := s
  let block := blk block i
  (assign v w z (((r.get w &&& (r.get x ^^^ r.get y)) ^^^ r.get y) + word block i) 0x5a827999 r,
    block)

def R2 (v w x y z : Var) (i : Nat) (s : Working) : Working :=
  let (r, block) := s
  let block := blk block i
  (assign v w z ((r.get w ^^^ r.get x ^^^ r.get y) + word block i) 0x6ed9eba1 r, block)

def R3 (v w x y z : Var) (i : Nat) (s : Working) : Working :=
  let (r, block) := s
  let block := blk block i
  (assign v w z ((((r.get w ||| r.get x) &&& r.get y) ||| (r.get w &&& r.get x)) + word block i)
    0x8f1bbcdc r, block)

def R4 (v w x y z : Var) (i : Nat) (s : Working) : Working :=
  let (r, block) := s
  let block := blk block i
  (assign v w z ((r.get w ^^^ r.get x ^^^ r.get y) + word block i) 0xca62c1d6 r, block)

open Var in
/-- The calls of `Transform`. -/
def calls : List (Working → Working) := [
  R0 a b c d e 0, R0 e a b c d 1, R0 d e a b c 2, R0 c d e a b 3, R0 b c d e a 4,
  R0 a b c d e 5, R0 e a b c d 6, R0 d e a b c 7, R0 c d e a b 8, R0 b c d e a 9,
  R0 a b c d e 10, R0 e a b c d 11, R0 d e a b c 12, R0 c d e a b 13, R0 b c d e a 14,
  R0 a b c d e 15, R1 e a b c d 16, R1 d e a b c 17, R1 c d e a b 18, R1 b c d e a 19,
  R2 a b c d e 20, R2 e a b c d 21, R2 d e a b c 22, R2 c d e a b 23, R2 b c d e a 24,
  R2 a b c d e 25, R2 e a b c d 26, R2 d e a b c 27, R2 c d e a b 28, R2 b c d e a 29,
  R2 a b c d e 30, R2 e a b c d 31, R2 d e a b c 32, R2 c d e a b 33, R2 b c d e a 34,
  R2 a b c d e 35, R2 e a b c d 36, R2 d e a b c 37, R2 c d e a b 38, R2 b c d e a 39,
  R3 a b c d e 40, R3 e a b c d 41, R3 d e a b c 42, R3 c d e a b 43, R3 b c d e a 44,
  R3 a b c d e 45, R3 e a b c d 46, R3 d e a b c 47, R3 c d e a b 48, R3 b c d e a 49,
  R3 a b c d e 50, R3 e a b c d 51, R3 d e a b c 52, R3 c d e a b 53, R3 b c d e a 54,
  R3 a b c d e 55, R3 e a b c d 56, R3 d e a b c 57, R3 c d e a b 58, R3 b c d e a 59,
  R4 a b c d e 60, R4 e a b c d 61, R4 d e a b c 62, R4 c d e a b 63, R4 b c d e a 64,
  R4 a b c d e 65, R4 e a b c d 66, R4 d e a b c 67, R4 c d e a b 68, R4 b c d e a 69,
  R4 a b c d e 70, R4 e a b c d 71, R4 d e a b c 72, R4 c d e a b 73, R4 b c d e a 74,
  R4 a b c d e 75, R4 e a b c d 76, R4 d e a b c 77, R4 c d e a b 78, R4 b c d e a 79]

/-- The calls, one after the other. -/
def runCalls (s : Working) : Working := calls.foldl (fun s call => call s) s

/-- `Sha1::Transform`: the object, and the block as it is left. -/
def transform (s : Sha1) (block : List UInt32) : Sha1 × List UInt32 :=
  let (r, block) := runCalls (s.digest, block)
  let d := s.digest
  ({ s with
    digest := ⟨d.a + r.a, d.b + r.b, d.c + r.c, d.d + r.d, d.e + r.e⟩
    transforms := s.transforms + 1 }, block)

/-- `Sha1::BufferToBlock`. -/
def bufferToBlock (buffer : Bytes) : List UInt32 :=
  (List.range blockInts).map fun i =>
    let byte k := (buffer.getD k 0).toUInt32
    byte (4 * i + 3) ||| byte (4 * i + 2) <<< 8 ||| byte (4 * i + 1) <<< 16
      ||| byte (4 * i) <<< 24

/-! ### `Update` -/

/-- One turn of the loop of `Update`. -/
def updateTurn (st : Sha1 × IStringStream) :
    Except Fault (Turn (Sha1 × IStringStream) Sha1) :=
  let (s, is) := st
  if is.fail then .ok (.stop s)
  else
    let (s, _) := s.transform (bufferToBlock s.buffer)
    let (buffer, is) := is.read blockBytes
    .ok (.next ({ s with buffer }, is))

/-- `Sha1::Update`.  Every turn of the loop but the last one takes a block out of the stream. -/
def update (s : Sha1) (text : Bytes) : Except Fault Sha1 :=
  let (rest, is) := (IStringStream.ofString text).read (blockBytes - s.buffer.length)
  loop updateTurn (text.length + 2) ({ s with buffer := s.buffer ++ rest }, is)

/-! ### `Final` -/

/-- `block[i] = 0`, for each `i` below `n`. -/
def clearWords (block : List UInt32) (n : Nat) : List UInt32 :=
  (List.range n).foldl (fun block i => block.set i 0) block

/-- `Final`, up to the digest. -/
def finalDigest (s : Sha1) : Digest :=
  let totalBits := (s.transforms * blockBytes + s.buffer.length) * 8 % 2 ^ 64
  let buffer := s.buffer ++ [0x80]
  let origSize := buffer.length
  let buffer := buffer ++ List.replicate (blockBytes - buffer.length) 0
  let block := bufferToBlock buffer
  let (s, block) := if origSize > blockBytes - 8 then
      let (s, block) := s.transform block
      (s, clearWords block (blockInts - 2))
    else (s, block)
  let block := block.set (blockInts - 1) (UInt32.ofNat totalBits)
  let block := block.set (blockInts - 2) (UInt32.ofNat (totalBits / 2 ^ 32))
  (s.transform block).1.digest

/-- A word as `std::hex`, `std::setfill('0')` and `std::setw(8)` print it. -/
def hexWord (data : UInt32) : Bytes := printHex 8 data.toNat

/-- The loop over the bytes of a word. -/
def maskedBytes (data : UInt32) : Bytes :=
  ((List.range 4).foldl (fun (st : Bytes × UInt32 × UInt32) _ =>
    let (output, mask, pos) := st
    (output ++ [((data &&& mask) >>> pos).toUInt8], mask >>> 8, pos - 8))
    ([], 0xFF000000, 24)).1

/-- `Sha1::Final`: what it returns, and the object after it. -/
def final (s : Sha1) (asciiForm : Bool) : Bytes × Sha1 :=
  let d := s.finalDigest
  let words := [d.a, d.b, d.c, d.d, d.e]
  (if asciiForm then words.flatMap hexWord else words.flatMap maskedBytes, reset)

end Sha1

end Icl.Security
