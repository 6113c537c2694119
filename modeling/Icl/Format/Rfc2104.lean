import Icl.Cxx.Bytes

namespace Icl.Format

open Icl.Cxx

/-!
# HMAC, of RFC 2104

`hash` is a hash function that takes in blocks of `size` bytes.

* `blockKey` — the key as one block;
* `hmac` — the keyed hash;
* `under_blockKey` — a short key under a pad: its bytes, and then the pad alone.
-/

namespace Rfc2104

/-- The key, hashed if it is longer than a block, and filled up with zeros. -/
def blockKey (hash : Bytes → Bytes) (size : Nat) (key : Bytes) : Bytes :=
  let short := if key.length > size then hash key else key
  short ++ List.replicate (size - short.length) 0

/-- A block, each of its bytes combined with `pad`. -/
def under (pad : UInt8) (block : Bytes) : Bytes := block.map (· ^^^ pad)

def hmac (hash : Bytes → Bytes) (size : Nat) (key message : Bytes) : Bytes :=
  let block := blockKey hash size key
  hash (under 0x5C block ++ hash (under 0x36 block ++ message))

/-- A key under a pad, with the pad alone behind it. -/
theorem under_filled (pad : UInt8) (key : Bytes) (n : Nat) :
    under pad (key ++ List.replicate n 0) = under pad key ++ List.replicate n pad := by
  rw [under, List.map_append, List.map_replicate, UInt8.zero_xor, under]

end Rfc2104

end Icl.Format
