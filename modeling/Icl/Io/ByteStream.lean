import Icl.Format.LittleEndian

namespace Icl.Io

open Icl.Cxx Icl.Format

/-!
# `ByteArray`, `ByteStreamWriter` and `ByteStreamReader`

The model of the parts of `io/ByteArray.cpp` that the two streams use, and of the streams.  The
writer and the reader hold a reference to their array, which is a field of the state here.  A size
is a 32-bit number, and so is an index.

`garbage` is the indeterminate value that the local variable `byte` of the source begins with; a
read past the end of the array leaves it as it is.

* `Reads` — a reader takes exactly a given text for a value, wherever the text stands;
* `readAll_writeAll` — what has been written is read back.
-/

/-! ### The array -/

/-- `ByteArray`. -/
structure ByteArray where
  mData : Bytes
  deriving DecidableEq, Repr

namespace ByteArray

/-- `ByteArray()`. -/
def new : ByteArray := ⟨[]⟩

/-- `ByteArray::Size`. -/
def size (array : ByteArray) : UInt32 := .ofNat array.mData.length

/-- `ByteArray::PushBack`. -/
def pushBack (array : ByteArray) (byte : UInt8) : ByteArray := ⟨array.mData ++ [byte]⟩

/-- `ByteArray::Put`. -/
def put (array : ByteArray) (index : UInt32) (value : UInt8) : ByteArray :=
  if index.toNat < array.mData.length then ⟨array.mData.set index.toNat value⟩ else array

/-- `ByteArray::Get`. -/
def get (array : ByteArray) (index : UInt32) : UInt8 := array.mData.getD index.toNat 0

/-- Below 2^32 bytes the size is the length. -/
theorem size_toNat {array : ByteArray} (h : array.mData.length < 2 ^ 32) :
    array.size.toNat = array.mData.length := by
  rw [size, UInt32.toNat_ofNat', Nat.mod_eq_of_lt h]

end ByteArray

/-! ### The writer -/

/-- `ByteStreamWriter`. -/
structure ByteStreamWriter where
  mArray : ByteArray
  mIndex : UInt32
  deriving DecidableEq, Repr

namespace ByteStreamWriter

/-- `ByteStreamWriter(array)`. -/
def new (array : ByteArray) : ByteStreamWriter := { mArray := array, mIndex := array.size }

/-- `operator << (uint8_t)`: append at the end, else overwrite. -/
def writeUint8 (w : ByteStreamWriter) (d : UInt8) : ByteStreamWriter :=
  { mArray := if w.mIndex ≥ w.mArray.size then w.mArray.pushBack d else w.mArray.put w.mIndex d
    mIndex := w.mIndex + 1 }

/-- The loop over the bytes of a word, `n` of them left. -/
def writeWord : Nat → Nat → ByteStreamWriter → ByteStreamWriter
  | 0, _, w => w
  | n + 1, data, w => writeWord n (data >>> 8) (w.writeUint8 (.ofNat (data &&& 0xFF)))

/-- `operator << (uint16_t)`. -/
def writeUint16 (w : ByteStreamWriter) (d : UInt16) : ByteStreamWriter := writeWord 2 d.toNat w

/-- `operator << (uint32_t)`. -/
def writeUint32 (w : ByteStreamWriter) (d : UInt32) : ByteStreamWriter := writeWord 4 d.toNat w

/-- `operator << (int32_t)`. -/
def writeInt32 (w : ByteStreamWriter) (d : Int32) : ByteStreamWriter := w.writeUint32 d.toUInt32

/-- `operator << (bool)`. -/
def writeBool (w : ByteStreamWriter) (d : Bool) : ByteStreamWriter :=
  w.writeUint8 (if d then 1 else 0)

/-- `operator << (std::string)`: the size in 32 bits, then as many bytes. -/
def writeString (w : ByteStreamWriter) (s : Bytes) : ByteStreamWriter :=
  let size := UInt32.ofNat s.length
  (s.take size.toNat).foldl writeUint8 (w.writeUint32 size)

end ByteStreamWriter

/-! ### The reader -/

/-- `ByteStreamReader`. -/
structure ByteStreamReader where
  mArray : ByteArray
  mIndex : UInt32
  deriving DecidableEq, Repr

namespace ByteStreamReader

/-- `ByteStreamReader(array)`. -/
def new (array : ByteArray) : ByteStreamReader := { mArray := array, mIndex := 0 }

/-- `operator >> (uint8_t)`, into a variable with the value `d`. -/
def readUint8 (d : UInt8) : StateM ByteStreamReader UInt8 := fun r =>
  if r.mIndex < r.mArray.size then (r.mArray.get r.mIndex, { r with mIndex := r.mIndex + 1 })
  else (d, r)

/-- The loop over the bytes of a word, `n` of them left: `byte` is the variable, `d` the sum. -/
def readWord : Nat → Nat → UInt8 → Nat → StateM ByteStreamReader Nat
  | 0, _, _, d => pure d
  | n + 1, i, byte, d => do
    let byte ← readUint8 byte
    readWord n (i + 1) byte (d + byte.toNat <<< (i * 8))

/-- A word of `n` bytes: 0 in an array that is too small for any. -/
def readSized (garbage : UInt8) (n : UInt32) : StateM ByteStreamReader Nat := fun r =>
  if r.mArray.size ≥ n then readWord n.toNat 0 garbage 0 r else (0, r)

/-- `operator >> (uint16_t)`. -/
def readUint16 (garbage : UInt8) : StateM ByteStreamReader UInt16 := do
  return .ofNat (← readSized garbage 2)

/-- `operator >> (uint32_t)`. -/
def readUint32 (garbage : UInt8) : StateM ByteStreamReader UInt32 := do
  return .ofNat (← readSized garbage 4)

/-- `operator >> (int32_t)`. -/
def readInt32 (garbage : UInt8) : StateM ByteStreamReader Int32 := do
  return (← readUint32 garbage).toInt32

/-- `operator >> (bool)`. -/
def readBool (garbage : UInt8) : StateM ByteStreamReader Bool := do
  return (← readUint8 garbage) != 0

/-- The loop over the bytes of a string, `n` of them left. -/
def readChars : Nat → UInt8 → Bytes → StateM ByteStreamReader Bytes
  | 0, _, s => pure s
  | n + 1, byte, s => do
    let byte ← readUint8 byte
    readChars n byte (s ++ [byte])

/-- `operator >> (std::string)`, into a string with the value `s`. -/
def readString (garbage : UInt8) (s : Bytes) : StateM ByteStreamReader Bytes := do
  let size ← readUint32 garbage
  let r ← get
  if size ≤ r.mArray.size - r.mIndex then readChars size.toNat garbage s else return s

end ByteStreamReader

/-! ### Sequences of values -/

/-- The types that a stream takes. -/
inductive ValueType where
  | uint8 | uint16 | uint32 | int32 | bool | string
  deriving DecidableEq, Repr

/-- A value of one of them. -/
inductive Value where
  | uint8 (d : UInt8)
  | uint16 (d : UInt16)
  | uint32 (d : UInt32)
  | int32 (d : Int32)
  | bool (d : Bool)
  | string (s : Bytes)
  deriving DecidableEq

namespace Value

def type : Value → ValueType
  | .uint8 _ => .uint8
  | .uint16 _ => .uint16
  | .uint32 _ => .uint32
  | .int32 _ => .int32
  | .bool _ => .bool
  | .string _ => .string

/-- The number of bytes that the value takes. -/
def size : Value → Nat
  | .uint8 _ | .bool _ => 1
  | .uint16 _ => 2
  | .uint32 _ | .int32 _ => 4
  | .string s => 4 + s.length

/-- What stands for the value in the array. -/
def encode : Value → Bytes
  | .uint8 d => [d]
  | .uint16 d => bytesLe 2 d.toNat
  | .uint32 d => bytesLe 4 d.toNat
  | .int32 d => bytesLe 4 d.toUInt32.toNat
  | .bool d => [if d then 1 else 0]
  | .string s => bytesLe 4 s.length ++ s

/-- `stream << value`. -/
def write (w : ByteStreamWriter) : Value → ByteStreamWriter
  | .uint8 d => w.writeUint8 d
  | .uint16 d => w.writeUint16 d
  | .uint32 d => w.writeUint32 d
  | .int32 d => w.writeInt32 d
  | .bool d => w.writeBool d
  | .string s => w.writeString s

end Value

/-- `stream >> value`, a string being empty at first. -/
def ValueType.read (garbage : UInt8) : ValueType → StateM ByteStreamReader Value
  | .uint8 => return .uint8 (← ByteStreamReader.readUint8 garbage)
  | .uint16 => return .uint16 (← ByteStreamReader.readUint16 garbage)
  | .uint32 => return .uint32 (← ByteStreamReader.readUint32 garbage)
  | .int32 => return .int32 (← ByteStreamReader.readInt32 garbage)
  | .bool => return .bool (← ByteStreamReader.readBool garbage)
  | .string => return .string (← ByteStreamReader.readString garbage [])

/-- The values, written one after the other into an empty array. -/
def writeAll (values : List Value) : ByteStreamWriter :=
  values.foldl Value.write (.new .new)

/-- Values of the given types, read one after the other. -/
def readAll (garbage : UInt8) : List ValueType → StateM ByteStreamReader (List Value)
  | [] => return []
  | type :: types => do
    let value ← type.read garbage
    return value :: (← readAll garbage types)

/-! ### What is written -/

namespace ByteStreamWriter

/-- At the end of its array, the writer appends. -/
theorem writeUint8_new (text : Bytes) (d : UInt8) :
    (new ⟨text⟩).writeUint8 d = new ⟨text ++ [d]⟩ := by
  have hend : (new ⟨text⟩).mIndex ≥ (new ⟨text⟩).mArray.size := UInt32.le_refl _
  rw [writeUint8, if_pos hend]
  simp [new, ByteArray.pushBack, ByteArray.size, UInt32.ofNat_add]

/-- The mask leaves the byte that is kept. -/
theorem ofNat_and_low (data : Nat) : UInt8.ofNat (data &&& 0xFF) = UInt8.ofNat data := by
  rw [show (0xFF : Nat) = 2 ^ 8 - 1 from rfl, Nat.and_two_pow_sub_one_eq_mod]
  exact UInt8.toNat_inj.mp (by simp)

/-- A word is written behind what is there, least significant byte first. -/
theorem writeWord_new (n data : Nat) (text : Bytes) :
    writeWord n data (new ⟨text⟩) = new ⟨text ++ bytesLe n data⟩ := by
  induction n generalizing data text with
  | zero => rw [writeWord, bytesLe, List.append_nil]
  | succ n ih =>
    rw [writeWord, writeUint8_new, ih, ofNat_and_low, Nat.shiftRight_eq_div_pow, bytesLe,
      List.append_assoc]
    rfl

/-- Bytes are written one behind the other. -/
theorem foldl_writeUint8_new (s text : Bytes) :
    s.foldl writeUint8 (new ⟨text⟩) = new ⟨text ++ s⟩ := by
  induction s generalizing text with
  | nil => rw [List.foldl_nil, List.append_nil]
  | cons c s ih =>
    rw [List.foldl_cons, writeUint8_new, ih, List.append_assoc, List.singleton_append]

end ByteStreamWriter

/-- A value takes as many bytes as its size says. -/
@[simp] theorem Value.length_encode (value : Value) : value.encode.length = value.size := by
  cases value <;> simp [encode, size]

/-- **One value.** -/
theorem Value.write_new {value : Value} (h : value.size < 2 ^ 32) (text : Bytes) :
    value.write (.new ⟨text⟩) = .new ⟨text ++ value.encode⟩ := by
  cases value with
  | uint8 d => exact ByteStreamWriter.writeUint8_new text d
  | uint16 d => exact ByteStreamWriter.writeWord_new 2 d.toNat text
  | uint32 d => exact ByteStreamWriter.writeWord_new 4 d.toNat text
  | int32 d => exact ByteStreamWriter.writeWord_new 4 d.toUInt32.toNat text
  | bool d => exact ByteStreamWriter.writeUint8_new text _
  | string s =>
    have hsize : (UInt32.ofNat s.length).toNat = s.length := by
      have : 4 + s.length < 2 ^ 32 := h
      rw [UInt32.toNat_ofNat', Nat.mod_eq_of_lt (by omega)]
    rw [write, ByteStreamWriter.writeString]
    simp only [ByteStreamWriter.writeUint32]
    rw [ByteStreamWriter.writeWord_new, hsize, List.take_length,
      ByteStreamWriter.foldl_writeUint8_new, List.append_assoc, encode]

/-- The number of bytes that the values take. -/
def encodedSize (values : List Value) : Nat := (values.map Value.size).sum

/-- Values take the sum of their sizes. -/
theorem length_flatMap_encode (values : List Value) :
    (values.flatMap Value.encode).length = encodedSize values := by
  rw [List.length_flatMap, encodedSize]
  simp

/-- **All the values.** -/
theorem writeAll_eq {values : List Value} (h : encodedSize values < 2 ^ 32) :
    writeAll values = .new ⟨values.flatMap Value.encode⟩ := by
  have key : ∀ text, values.foldl Value.write (.new ⟨text⟩)
      = .new ⟨text ++ values.flatMap Value.encode⟩ := by
    induction values with
    | nil => simp
    | cons value values ih =>
      intro text
      rw [encodedSize, List.map_cons, List.sum_cons] at h
      rw [List.foldl_cons, Value.write_new (by omega), ih (by rw [encodedSize]; omega),
        List.flatMap_cons, List.append_assoc]
  exact key []

/-! ### What is read -/

section Reads

variable {α β : Type}

/-- The reader takes exactly the text for the value, whatever stands before and behind it. -/
def Reads (read : StateM ByteStreamReader α) (text : Bytes) (value : α) : Prop :=
  ∀ pre post : Bytes, (pre ++ (text ++ post)).length < 2 ^ 32 →
    read ⟨⟨pre ++ (text ++ post)⟩, .ofNat pre.length⟩
      = (value, ⟨⟨pre ++ (text ++ post)⟩, .ofNat (pre ++ text).length⟩)

/-- A value that is there takes no bytes. -/
theorem Reads.done (value : α) : Reads (pure value) [] value := by
  intro pre post _
  rw [List.append_nil]
  rfl

/-- One reader after the other. -/
theorem Reads.bind {read : StateM ByteStreamReader α} {next : α → StateM ByteStreamReader β}
    {text text' : Bytes} {value : α} {value' : β} (h : Reads read text value)
    (h' : Reads (next value) text' value') : Reads (read >>= next) (text ++ text') value' := by
  intro pre post hlength
  have hread := h pre (text' ++ post) (by rwa [← List.append_assoc text])
  have hnext := h' (pre ++ text) post (by simpa using hlength)
  rw [List.append_assoc pre] at hnext
  show (next (read ⟨⟨pre ++ (text ++ text' ++ post)⟩, _⟩).1)
    (read ⟨⟨pre ++ (text ++ text' ++ post)⟩, _⟩).2 = _
  rw [List.append_assoc text, hread]
  dsimp only
  rw [hnext, List.append_assoc]

/-- A reader, and a function of what it returns. -/
theorem Reads.map {read : StateM ByteStreamReader α} {text : Bytes} {value : α}
    (h : Reads read text value) (f : α → β) :
    Reads (do return f (← read)) text (f value) := by
  have hbind : Reads (read >>= fun v => pure (f v)) (text ++ []) (f value) :=
    h.bind (Reads.done (f value))
  rwa [List.append_nil] at hbind

end Reads

open ByteStreamReader

/-- A byte is read as it was written. -/
theorem reads_uint8 (d byte : UInt8) : Reads (readUint8 d) [byte] byte := by
  intro pre post hlength
  have hpos : pre.length < 2 ^ 32 := by
    rw [List.length_append] at hlength
    omega
  have hindex : (UInt32.ofNat pre.length).toNat = pre.length := by
    rw [UInt32.toNat_ofNat', Nat.mod_eq_of_lt hpos]
  have hlt : UInt32.ofNat pre.length < ByteArray.size ⟨pre ++ ([byte] ++ post)⟩ := by
    rw [UInt32.lt_iff_toNat_lt, ByteArray.size_toNat hlength, hindex]
    simp
  have hget : ByteArray.get ⟨pre ++ ([byte] ++ post)⟩ (.ofNat pre.length) = byte := by
    rw [ByteArray.get, hindex]
    simp [List.getD]
  rw [readUint8, if_pos hlt, hget, List.length_append, List.length_singleton, UInt32.ofNat_add]
  rfl

/-- One more byte of a word, at its place. -/
theorem add_word (d i : Nat) (byte : UInt8) (bytes : Bytes) :
    d + byte.toNat <<< (i * 8) + 256 ^ (i + 1) * valueLe bytes
      = d + 256 ^ i * valueLe (byte :: bytes) := by
  rw [valueLe_cons, Nat.shiftLeft_eq, Nat.mul_comm i, pow_mul, pow_succ]
  ring

/-- The bytes of a word are added up, each at its place. -/
theorem reads_word (bytes : Bytes) (i : Nat) (byte : UInt8) (d : Nat) :
    Reads (readWord bytes.length i byte d) bytes (d + 256 ^ i * valueLe bytes) := by
  induction bytes generalizing i byte d with
  | nil => exact Reads.done d
  | cons b bytes ih =>
    have hnext := ih (i + 1) b (d + b.toNat <<< (i * 8))
    rw [add_word] at hnext
    exact (reads_uint8 byte b).bind hnext

/-- A word of a given size.  The guard looks at the whole array. -/
theorem reads_sized (garbage : UInt8) {n : UInt32} {value : Nat} (h : value < 256 ^ n.toNat) :
    Reads (readSized garbage n) (bytesLe n.toNat value) value := by
  intro pre post hlength
  have hsize : ByteArray.size ⟨pre ++ (bytesLe n.toNat value ++ post)⟩ ≥ n := by
    rw [ge_iff_le, UInt32.le_iff_toNat_le, ByteArray.size_toNat hlength]
    simp only [List.length_append, length_bytesLe]
    omega
  have hword := reads_word (bytesLe n.toNat value) 0 garbage 0 pre post hlength
  rw [length_bytesLe, valueLe_bytesLe h, pow_zero, one_mul, Nat.zero_add] at hword
  rw [readSized, if_pos hsize, hword]

/-- So is a 16-bit number. -/
theorem reads_uint16 (garbage : UInt8) (d : UInt16) :
    Reads (readUint16 garbage) (bytesLe 2 d.toNat) d := by
  have h := (reads_sized garbage (n := 2) (show d.toNat < 256 ^ 2 from d.toNat_lt)).map UInt16.ofNat
  rwa [UInt16.ofNat_toNat] at h

/-- So is a 32-bit number. -/
theorem reads_uint32 (garbage : UInt8) (d : UInt32) :
    Reads (readUint32 garbage) (bytesLe 4 d.toNat) d := by
  have h := (reads_sized garbage (n := 4) (show d.toNat < 256 ^ 4 from d.toNat_lt)).map UInt32.ofNat
  rwa [UInt32.ofNat_toNat] at h

/-- So are the characters of a string. -/
theorem reads_chars (s : Bytes) (byte : UInt8) (acc : Bytes) :
    Reads (readChars s.length byte acc) s (acc ++ s) := by
  induction s generalizing byte acc with
  | nil =>
    rw [List.append_nil]
    exact Reads.done acc
  | cons c s ih =>
    have hnext := ih c (acc ++ [c])
    rw [List.append_assoc] at hnext
    exact (reads_uint8 byte c).bind hnext

/-- A string.  What remains after its size holds all of it. -/
theorem reads_string (garbage : UInt8) (s : Bytes) :
    Reads (readString garbage []) (bytesLe 4 s.length ++ s) s := by
  intro pre post hlength
  have hlong : s.length < 2 ^ 32 := by
    simp only [List.length_append] at hlength
    omega
  have hsize : (UInt32.ofNat s.length).toNat = s.length := by
    rw [UInt32.toNat_ofNat', Nat.mod_eq_of_lt hlong]
  have hread := reads_uint32 garbage (.ofNat s.length)
  rw [hsize] at hread
  refine hread.bind ?_ pre post hlength
  -- The test on the bytes that remain succeeds.
  intro pre post hlength
  have hchars := reads_chars s garbage [] pre post hlength
  have hpos : (UInt32.ofNat pre.length).toNat = pre.length := by
    rw [UInt32.toNat_ofNat', Nat.mod_eq_of_lt]
    rw [List.length_append] at hlength
    omega
  have hremaining : UInt32.ofNat s.length
      ≤ ByteArray.size ⟨pre ++ (s ++ post)⟩ - UInt32.ofNat pre.length := by
    have hsub : UInt32.ofNat pre.length ≤ ByteArray.size ⟨pre ++ (s ++ post)⟩ := by
      rw [UInt32.le_iff_toNat_le, hpos, ByteArray.size_toNat hlength]
      simp
    rw [UInt32.le_iff_toNat_le, UInt32.toNat_sub_of_le _ _ hsub, hsize, hpos,
      ByteArray.size_toNat hlength]
    simp only [List.length_append]
    omega
  show (if _ then _ else _ : StateM ByteStreamReader Bytes) _ = _
  rw [if_pos hremaining, hsize]
  exact hchars

/-- **One value.** -/
theorem Value.reads (garbage : UInt8) (value : Value) :
    Reads (value.type.read garbage) value.encode value := by
  cases value with
  | uint8 d => exact (reads_uint8 garbage d).map Value.uint8
  | uint16 d => exact (reads_uint16 garbage d).map Value.uint16
  | uint32 d => exact (reads_uint32 garbage d).map Value.uint32
  | int32 d => exact ((reads_uint32 garbage d.toUInt32).map UInt32.toInt32).map Value.int32
  | bool d =>
    have hbyte := ((reads_uint8 garbage (if d then 1 else 0)).map (· != 0)).map Value.bool
    have hd : ((if d then 1 else 0 : UInt8) != 0) = d := by cases d <;> rfl
    rwa [hd] at hbyte
  | string s => exact (reads_string garbage s).map Value.string

/-- **All the values.** -/
theorem reads_all (garbage : UInt8) (values : List Value) :
    Reads (readAll garbage (values.map Value.type)) (values.flatMap Value.encode) values := by
  induction values with
  | nil => exact Reads.done []
  | cons value values ih => exact (value.reads garbage).bind (ih.map (value :: ·))

/-- **Values written are read back**, and the reader is then at the end of the array. -/
theorem readAll_writeAll (garbage : UInt8) (values : List Value)
    (hsize : encodedSize values < 2 ^ 32) :
    let array := (writeAll values).mArray
    readAll garbage (values.map Value.type) (.new array)
      = (values, { mArray := array, mIndex := array.size }) := by
  have hlength := length_flatMap_encode values
  have hread := reads_all garbage values [] [] (by simpa [hlength] using hsize)
  rw [List.append_nil, List.nil_append] at hread
  rw [writeAll_eq hsize]
  exact hread

/-- All the types, and a string with a NUL in it. -/
theorem readAll_writeAll_six :
    let values : List Value := [.bool true, .uint16 0xABCD, .string [0x68, 0, 0x69], .int32 (-2),
      .uint8 0x42, .uint32 0xAABBCCDD]
    let array := (writeAll values).mArray
    array.size = 19 ∧ readAll 0 (values.map Value.type) (.new array)
      = (values, { mArray := array, mIndex := 19 }) :=
  ⟨rfl, readAll_writeAll 0 _ (by decide)⟩

end Icl.Io
