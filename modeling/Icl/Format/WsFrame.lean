import Icl.Cxx.Bytes
import Mathlib.Tactic.Ring

namespace Icl.Format

open Icl.Cxx

/-!
# WebSocket frames

The frame format of RFC 6455, section 5.2, from the sender's side: one FIN bit, the
opcode, the payload length in its shortest form (7, 16 or 64 bits, big-endian), an
optional 4-byte masking key and the payload, masked with the key when there is one.

* `WsFrame.encode` — the bytes of a frame;
* `MaskKey.apply_apply` — masking twice with one key gives the data back;
* `beValue_bigEndian` — the big-endian bytes of a number are read back as the number.
-/

/-! ### Big-endian numbers -/

/-- The `k` low bytes of `n`, most significant first. -/
def bigEndian : Nat → Nat → Bytes
  | 0, _ => []
  | k + 1, n => UInt8.ofNat (n / 256 ^ k) :: bigEndian k n

/-- The number whose big-endian bytes are given. -/
def beValue (bs : Bytes) : Nat := bs.foldl (fun n b => n * 256 + b.toNat) 0

/-- `k` bytes are written for a number. -/
@[simp] theorem length_bigEndian (k n : Nat) : (bigEndian k n).length = k := by
  induction k with
  | zero => rfl
  | succ k ih => simp [bigEndian, ih]

/-- Reading `k` bytes most significant first appends their number, reduced to `k` bytes. -/
private theorem foldl_bigEndian (k n acc : Nat) :
    (bigEndian k n).foldl (fun n b => n * 256 + b.toNat) acc = acc * 256 ^ k + n % 256 ^ k := by
  induction k generalizing acc with
  | zero => simp [bigEndian, Nat.mod_one]
  | succ k ih =>
    simp only [bigEndian, List.foldl_cons, ih, UInt8.toNat_ofNat', Nat.reducePow]
    have hmod : n % 256 ^ (k + 1) = n % 256 ^ k + 256 ^ k * (n / 256 ^ k % 256) := by
      rw [pow_succ, Nat.mod_mul]
    rw [hmod, pow_succ]
    ring

/-- Reading back a number from as many big-endian bytes as it needs. -/
theorem beValue_bigEndian {k n : Nat} (h : n < 256 ^ k) : beValue (bigEndian k n) = n := by
  simp [beValue, foldl_bigEndian, Nat.mod_eq_of_lt h]

/-! ### Masking -/

/-- A masking key. -/
structure MaskKey where
  k0 : UInt8
  k1 : UInt8
  k2 : UInt8
  k3 : UInt8
  deriving DecidableEq, Repr

namespace MaskKey

/-- The key as it stands in the header. -/
def bytes (key : MaskKey) : Bytes := [key.k0, key.k1, key.k2, key.k3]

@[simp] theorem length_bytes (key : MaskKey) : key.bytes.length = 4 := rfl

/-- The key byte for position `i` of the payload. -/
def byte (key : MaskKey) (i : Nat) : UInt8 :=
  key.bytes.get ⟨i % 4, by simp only [length_bytes]; omega⟩

/-- The data, masked from position `i` of the payload on. -/
def apply (key : MaskKey) : Nat → Bytes → Bytes
  | _, [] => []
  | i, b :: bs => (b ^^^ key.byte i) :: apply key (i + 1) bs

/-- Masking keeps the length. -/
@[simp] theorem length_apply (key : MaskKey) (i : Nat) (data : Bytes) :
    (key.apply i data).length = data.length := by
  induction data generalizing i with
  | nil => rfl
  | cons b bs ih => simp [apply, ih]

/-- Masking is its own inverse. -/
theorem apply_apply (key : MaskKey) (i : Nat) (data : Bytes) :
    key.apply i (key.apply i data) = data := by
  induction data generalizing i with
  | nil => rfl
  | cons b bs ih => rw [apply, apply, ih, UInt8.xor_assoc, UInt8.xor_self, UInt8.xor_zero]

end MaskKey

/-! ### Frames -/

/-- The opcodes that have a meaning. -/
inductive WsOpcode where
  | continuation | text | binary | close | ping | pong
  deriving DecidableEq, Repr

/-- The four bits of the header. -/
def WsOpcode.code : WsOpcode → UInt8
  | .continuation => 0x0
  | .text => 0x1
  | .binary => 0x2
  | .close => 0x8
  | .ping => 0x9
  | .pong => 0xA

/-- A frame before it is encoded. -/
structure WsFrame where
  fin : Bool
  opcode : WsOpcode
  mask : Option MaskKey
  data : Bytes
  deriving DecidableEq, Repr

namespace WsFrame

/-- The seven length bits of the second header byte. -/
def length7 (n : Nat) : Nat := if n < 126 then n else if n < 0x10000 then 126 else 127

/-- The extended length, in the shortest form that holds it. -/
def extendedLength (n : Nat) : Bytes :=
  if n < 126 then [] else if n < 0x10000 then bigEndian 2 n else bigEndian 8 n

/-- The bytes of the key, if there is one. -/
def keyBytes (f : WsFrame) : Bytes := f.mask.elim [] MaskKey.bytes

/-- The payload as it is sent. -/
def maskedData (f : WsFrame) : Bytes := f.mask.elim f.data (fun key => key.apply 0 f.data)

/-- Everything before the payload. -/
def header (f : WsFrame) : Bytes :=
  [(if f.fin then 0x80 else 0) + f.opcode.code,
    (if f.mask.isSome then 0x80 else 0) + UInt8.ofNat (length7 f.data.length)]
    ++ extendedLength f.data.length ++ f.keyBytes

/-- The bytes of the frame. -/
def encode (f : WsFrame) : Bytes := f.header ++ f.maskedData

/-- Whether the frame is masked or not, its data has its length. -/
@[simp] theorem length_maskedData (f : WsFrame) : f.maskedData.length = f.data.length := by
  rcases f with ⟨_, _, _ | key, _⟩ <;> simp [maskedData]

/-- A frame is its header and its data, nothing else. -/
theorem length_encode (f : WsFrame) : f.encode.length = f.header.length + f.data.length := by
  simp [encode]

end WsFrame

end Icl.Format
