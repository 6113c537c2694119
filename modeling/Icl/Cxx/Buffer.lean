import Icl.Cxx.Bytes

namespace Icl.Cxx

/-!
# Arrays of bytes

* `Buffer` — an array of a fixed size;
* `Buffer.write`, `readBytes` — `memcpy` into an array, and out of one, checked.
-/

/-- `uint8_t [n]`. -/
structure Buffer (n : Nat) where
  bytes : Bytes
  size : bytes.length = n
  deriving DecidableEq, Repr

/-- The `count` bytes from `pos` on, checked. -/
def readBytes (s : Bytes) (pos count : Nat) : Except Fault Bytes :=
  if pos + count ≤ s.length then .ok ((s.drop pos).take count)
  else .error (.outOfBounds (pos + count) s.length)

theorem readBytes_of_le {s : Bytes} {pos count : Nat} (h : pos + count ≤ s.length) :
    readBytes s pos count = .ok ((s.drop pos).take count) :=
  if_pos h

/-- What has been read was there. -/
theorem length_of_readBytes {s piece : Bytes} {pos count : Nat}
    (h : readBytes s pos count = .ok piece) : pos + count ≤ s.length ∧ piece.length = count := by
  by_cases hfit : pos + count ≤ s.length
  · rw [readBytes_of_le hfit] at h
    obtain rfl := Except.ok.inj h
    exact ⟨hfit, List.length_take_of_le (by rw [List.length_drop]; omega)⟩
  · rw [readBytes, if_neg hfit] at h
    cases h

/-- What stands behind a prefix is read. -/
theorem readBytes_append (pre text rest : Bytes) :
    readBytes (pre ++ (text ++ rest)) pre.length text.length = .ok text := by
  rw [readBytes_of_le (by simp only [List.length_append]; omega), List.drop_left, List.take_left]

namespace Buffer

variable {n : Nat}

/-- The array, with the bytes from `pos` on replaced. -/
def put (b : Buffer n) (pos : Nat) (src : Bytes) (h : pos + src.length ≤ n) : Buffer n where
  bytes := b.bytes.take pos ++ (src ++ b.bytes.drop (pos + src.length))
  size := by
    have hsize := b.size
    rw [List.length_append, List.length_append, List.length_take, List.length_drop]
    omega

/-- `memcpy(&b[pos], src, size)`, checked. -/
def write (b : Buffer n) (pos : Nat) (src : Bytes) : Except Fault (Buffer n) :=
  if h : pos + src.length ≤ n then .ok (b.put pos src h)
  else .error (.outOfBounds (pos + src.length) n)

theorem write_of_le (b : Buffer n) {pos : Nat} {src : Bytes} (h : pos + src.length ≤ n) :
    b.write pos src = .ok (b.put pos src h) :=
  dif_pos h

/-- What has been written is inside the array. -/
theorem le_of_write {b b' : Buffer n} {pos : Nat} {src : Bytes} (h : b.write pos src = .ok b') :
    pos + src.length ≤ n := by
  by_contra hfit
  rw [write, dif_neg hfit] at h
  cases h

/-- What is written stands behind what was there before. -/
theorem take_put (b : Buffer n) {pos : Nat} {src : Bytes} (h : pos + src.length ≤ n) :
    (b.put pos src h).bytes.take (pos + src.length) = b.bytes.take pos ++ src := by
  have hpos : (b.bytes.take pos).length = pos := by
    rw [List.length_take, b.size]
    omega
  show (b.bytes.take pos ++ (src ++ b.bytes.drop (pos + src.length))).take _ = _
  rw [← List.append_assoc]
  exact List.take_left' (by rw [List.length_append, hpos])

end Buffer

end Icl.Cxx
