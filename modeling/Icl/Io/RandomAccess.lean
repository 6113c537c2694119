import Icl.Io.ByteStream
import Mathlib.Data.List.GetD

namespace Icl.Io

open Icl.Cxx Icl.Format

/-!
# Extracting and random access

`ByteStreamReader` looks at the size of the whole array before it extracts a word, and its byte
keeps its value past the end; `ByteArray` looks at the bytes that remain.

* `ByteStreamReader.kept_run` — the positions of a reader;
* `extract_iff` — where the two give the same number.
-/

/-! ### The functions -/

/-- The loop over the bytes of a word, `n` of them left.  The index is added in 32 bits. -/
def ByteArray.getWord (array : ByteArray) (index : UInt32) : Nat → Nat → Nat → Except Fault Nat
  | 0, _, data => return data
  | n + 1, i, data => do
    let byte ← Cxx.index array.mData (index + .ofNat i).toNat
    getWord array index n (i + 1) (data + byte.toNat <<< (i * 8))

/-- A word of `n` bytes: 0 where fewer remain. -/
def ByteArray.getSized (array : ByteArray) (n : Nat) (index : UInt32) : Except Fault Nat :=
  if array.mData.length ≥ n then
    if index.toNat ≤ array.mData.length - n then array.getWord index n 0 0 else return 0
  else return 0

/-- `ByteArray::GetUint16`. -/
def ByteArray.getUint16 (array : ByteArray) (index : UInt32) : Except Fault UInt16 := do
  return .ofNat (← array.getSized 2 index)

/-- `ByteArray::GetUint32`. -/
def ByteArray.getUint32 (array : ByteArray) (index : UInt32) : Except Fault UInt32 := do
  return .ofNat (← array.getSized 4 index)

/-- `ByteStreamReader::Seek`. -/
def ByteStreamReader.seek (r : ByteStreamReader) (pos : UInt32) : ByteStreamReader :=
  { r with mIndex := if pos < r.mArray.size then pos else r.mArray.size }

/-- A call on a reader. -/
inductive ReaderCall where
  | seek (pos : UInt32)
  | extract (type : ValueType) (garbage : UInt8)
  deriving DecidableEq, Repr

def ReaderCall.step (r : ByteStreamReader) : ReaderCall → ByteStreamReader
  | .seek pos => r.seek pos
  | .extract type garbage => (type.read garbage r).2

/-! ### The positions of a reader -/

namespace ByteStreamReader

section Keeps

variable {α β : Type}

/-- The reader is on its array, and not behind its end. -/
def Kept (array : ByteArray) (r : ByteStreamReader) : Prop :=
  r.mArray = array ∧ r.mIndex ≤ array.size

/-- Reading leaves the reader on its array. -/
def Keeps (read : StateM ByteStreamReader α) : Prop :=
  ∀ array r, Kept array r → Kept array (read r).2

/-- Nothing is done, so nothing is left. -/
theorem Keeps.done (value : α) : Keeps (pure value) := fun _ _ h => h

/-- Two reads that stay inside stay inside one after the other. -/
theorem Keeps.bind {read : StateM ByteStreamReader α} {next : α → StateM ByteStreamReader β}
    (h : Keeps read) (h' : ∀ value, Keeps (next value)) : Keeps (read >>= next) :=
  fun array r hr => h' (read r).1 array (read r).2 (h array r hr)

/-- What is made of the value does not move the reader. -/
theorem Keeps.map {read : StateM ByteStreamReader α} (h : Keeps read) (f : α → β) :
    Keeps (do return f (← read)) :=
  h.bind fun value => Keeps.done (f value)

end Keeps

/-- A byte is only read where there is one. -/
theorem keeps_uint8 (d : UInt8) : Keeps (readUint8 d) := by
  rintro array r ⟨rfl, hle⟩
  unfold readUint8
  by_cases hlt : r.mIndex < r.mArray.size
  · rw [if_pos hlt]
    refine ⟨rfl, ?_⟩
    -- The index is below a size of 32 bits, so one more does not wrap.
    show r.mIndex + 1 ≤ r.mArray.size
    rw [UInt32.lt_iff_toNat_lt] at hlt
    have hbound := r.mArray.size.toNat_lt
    rw [UInt32.le_iff_toNat_le, UInt32.toNat_add, UInt32.toNat_one, Nat.mod_eq_of_lt (by omega)]
    exact hlt
  · rw [if_neg hlt]
    exact ⟨rfl, hle⟩

/-- So is each byte of a word. -/
theorem keeps_word (n i : Nat) (byte : UInt8) (d : Nat) : Keeps (readWord n i byte d) := by
  induction n generalizing i byte d with
  | zero => exact Keeps.done d
  | succ n ih => exact (keeps_uint8 byte).bind fun _ => ih _ _ _

/-- So is a number of several bytes. -/
theorem keeps_sized (garbage : UInt8) (n : UInt32) : Keeps (readSized garbage n) := by
  intro array r hr
  unfold readSized
  split_ifs
  · exact keeps_word _ _ _ _ array r hr
  · exact hr

/-- So are characters. -/
theorem keeps_chars (n : Nat) (byte : UInt8) (s : Bytes) : Keeps (readChars n byte s) := by
  induction n generalizing byte s with
  | zero => exact Keeps.done s
  | succ n ih => exact (keeps_uint8 byte).bind fun _ => ih _ _

/-- So is a 32-bit number. -/
theorem keeps_uint32 (garbage : UInt8) : Keeps (readUint32 garbage) :=
  (keeps_sized garbage 4).map _

/-- So is a string, whatever length it claims. -/
theorem keeps_string (garbage : UInt8) (s : Bytes) : Keeps (readString garbage s) := by
  refine (keeps_uint32 garbage).bind fun size => ?_
  intro array r hr
  show Kept array ((if size ≤ r.mArray.size - r.mIndex then
    readChars size.toNat garbage s else pure s : StateM ByteStreamReader Bytes) r).2
  split_ifs
  · exact keeps_chars _ _ _ array r hr
  · exact hr

/-- **The step lemma.** -/
theorem kept_step {array : ByteArray} {r : ByteStreamReader} (h : Kept array r)
    (call : ReaderCall) : Kept array (call.step r) := by
  cases call with
  | seek pos =>
    obtain ⟨rfl, -⟩ := h
    refine ⟨rfl, ?_⟩
    show (if pos < r.mArray.size then pos else r.mArray.size) ≤ r.mArray.size
    split_ifs with hlt
    · exact UInt32.le_of_lt hlt
    · exact UInt32.le_refl _
  | extract type garbage =>
    have hread : Keeps (type.read garbage) := by
      -- Every type is read by bytes.
      cases type with
      | uint8 => exact (keeps_uint8 garbage).map _
      | uint16 => exact ((keeps_sized garbage 2).map _).map _
      | uint32 => exact (keeps_uint32 garbage).map _
      | int32 => exact ((keeps_uint32 garbage).map _).map _
      | bool => exact ((keeps_uint8 garbage).map _).map _
      | string => exact (keeps_string garbage []).map _
    exact hread array r h

/-- **Every position** that a reader comes to is one of the array, or its end. -/
theorem kept_run (array : ByteArray) (calls : List ReaderCall) :
    Kept array (calls.foldl ReaderCall.step (new array)) := by
  have key : ∀ r, Kept array r → Kept array (calls.foldl ReaderCall.step r) := by
    induction calls with
    | nil => exact fun r h => h
    | cons call calls ih => exact fun r h => ih _ (kept_step h call)
  exact key (new array) ⟨rfl, Nat.zero_le _⟩

end ByteStreamReader

/-! ### The bytes of a word -/

/-- What the reader takes for `n` bytes: those that remain, and then its last byte again. -/
def supply (n : Nat) (byte : UInt8) (rest : Bytes) : Bytes :=
  (List.range n).map fun k => rest.getD k (rest.getLastD byte)

/-- At the end the last byte is supplied again. -/
theorem supply_succ_nil (n : Nat) (byte : UInt8) :
    supply (n + 1) byte [] = byte :: supply n byte [] := by
  unfold supply
  rw [List.range_succ_eq_map, List.map_cons, List.map_map]
  rfl

/-- Before it the next one is. -/
theorem supply_succ_cons (n : Nat) (byte c : UInt8) (rest : Bytes) :
    supply (n + 1) byte (c :: rest) = c :: supply n c rest := by
  unfold supply
  rw [List.range_succ_eq_map, List.map_cons, List.map_map, List.getLastD_cons]
  rfl

namespace ByteArray

/-- What random access takes, the index being added in 32 bits. -/
def fetch (array : ByteArray) (index : UInt32) (n : Nat) : Bytes :=
  (List.range n).map fun k => array.mData.getD ((index.toNat + k) % 2 ^ 32) 0

/-- What remains from a position on, up to `Size`. -/
def remaining (array : ByteArray) (i : Nat) : Bytes := (array.mData.take array.size.toNat).drop i

end ByteArray

/-- A word is read byte by byte. -/
theorem readWord_succ (n k : Nat) (byte : UInt8) (d : Nat) (r : ByteStreamReader) :
    ByteStreamReader.readWord (n + 1) k byte d r
      = ByteStreamReader.readWord n (k + 1) (ByteStreamReader.readUint8 byte r).1
          (d + (ByteStreamReader.readUint8 byte r).1.toNat <<< (k * 8))
          (ByteStreamReader.readUint8 byte r).2 :=
  rfl

/-- **The loop of the reader.** -/
theorem readWord_eq {array : ByteArray} (n k : Nat) (byte : UInt8) (d : Nat) {i : UInt32}
    (hi : i ≤ array.size) (hle : array.size.toNat ≤ array.mData.length) :
    (ByteStreamReader.readWord n k byte d ⟨array, i⟩).1
      = d + 256 ^ k * valueLe (supply n byte (array.remaining i.toNat)) := by
  induction n generalizing k byte d i with
  | zero => rfl
  | succ n ih =>
    by_cases hlt : i < array.size
    · have hbound := UInt32.lt_iff_toNat_lt.mp hlt
      have hsucc : (i + 1).toNat = i.toNat + 1 := by
        have := array.size.toNat_lt
        rw [UInt32.toNat_add, UInt32.toNat_one, Nat.mod_eq_of_lt (by omega)]
      have hbyte : ByteStreamReader.readUint8 byte ⟨array, i⟩ = (array.get i, ⟨array, i + 1⟩) :=
        if_pos hlt
      have hrest : array.remaining i.toNat = array.get i :: array.remaining (i + 1).toNat := by
        unfold ByteArray.remaining ByteArray.get
        rw [List.drop_eq_getElem_cons (by rw [List.length_take]; omega), hsucc, List.getElem_take,
          List.getD_eq_getElem _ _ (by omega)]
      have hnext : i + 1 ≤ array.size := by
        rw [UInt32.le_iff_toNat_le, hsucc]
        exact hbound
      rw [readWord_succ, hbyte, ih (k + 1) (array.get i) _ hnext, hrest, supply_succ_cons, add_word]
    · -- At the end the reader stays where it is, and the byte is the one read before.
      have hbyte : ByteStreamReader.readUint8 byte ⟨array, i⟩ = (byte, ⟨array, i⟩) := if_neg hlt
      have hrest : array.remaining i.toNat = [] := by
        rw [UInt32.lt_iff_toNat_lt] at hlt
        unfold ByteArray.remaining
        rw [List.drop_of_length_le (by rw [List.length_take]; omega)]
      rw [readWord_succ, hbyte, ih (k + 1) byte _ hi, hrest, supply_succ_nil, add_word]

/-- **The loop of random access.** -/
theorem getWord_eq {array : ByteArray} {index : UInt32} (n i data : Nat)
    (h : ∀ k, i ≤ k → k < i + n → (index.toNat + k) % 2 ^ 32 < array.mData.length) :
    array.getWord index n i data
      = .ok (data + 256 ^ i * valueLe ((List.range' i n).map fun k =>
          array.mData.getD ((index.toNat + k) % 2 ^ 32) 0)) := by
  induction n generalizing i data with
  | zero => simp [ByteArray.getWord]
  | succ n ih =>
    have hi : (index + .ofNat i).toNat = (index.toNat + i) % 2 ^ 32 := by
      rw [UInt32.toNat_add, UInt32.toNat_ofNat', Nat.add_mod_mod]
    have hlt := h i (le_refl i) (by omega)
    unfold ByteArray.getWord
    rw [hi, index_of_lt hlt, ok_bind, ih (i + 1) _ (fun k hk hk' => h k (by omega) (by omega)),
      List.range'_succ, List.map_cons, List.getD_eq_getElem _ _ hlt, add_word]

namespace ByteArray

variable {array : ByteArray}

/-- The 32-bit size is at most the length. -/
theorem size_le_length (array : ByteArray) : array.size.toNat ≤ array.mData.length := by
  unfold size
  rw [UInt32.toNat_ofNat']
  exact Nat.mod_le _ _

/-- **Random access.** -/
theorem getSized_eq (array : ByteArray) (n : Nat) (index : UInt32) :
    array.getSized n index = .ok
      (if index.toNat + n ≤ array.mData.length then valueLe (array.fetch index n) else 0) := by
  unfold getSized
  by_cases hfit : index.toNat + n ≤ array.mData.length
  · have hmod : ∀ k, (index.toNat + k) % 2 ^ 32 ≤ index.toNat + k := fun k => Nat.mod_le _ _
    rw [if_pos (by omega), if_pos (by omega), if_pos hfit,
      getWord_eq n 0 0 (fun k _ hk => by have := hmod k; omega), Nat.zero_add, pow_zero, one_mul,
      fetch, List.range_eq_range']
  · rw [if_neg hfit]
    split_ifs
    · omega
    · rfl
    · rfl

end ByteArray

/-- **Extracting.** -/
theorem readSized_eq {array : ByteArray} (garbage : UInt8) (n : UInt32) {i : UInt32}
    (hi : i ≤ array.size) :
    (ByteStreamReader.readSized garbage n ⟨array, i⟩).1
      = if n.toNat ≤ array.size.toNat then
          valueLe (supply n.toNat garbage (array.remaining i.toNat)) else 0 := by
  unfold ByteStreamReader.readSized
  by_cases hn : n ≤ array.size
  · rw [if_pos (UInt32.le_iff_toNat_le.mp hn)]
    have hword := readWord_eq n.toNat 0 garbage 0 hi array.size_le_length
    rw [Nat.zero_add, pow_zero, one_mul] at hword
    rw [← hword]
    exact congrArg Prod.fst (if_pos hn)
  · rw [if_neg (UInt32.le_iff_toNat_le.not.mp hn)]
    exact congrArg Prod.fst (if_neg hn)

/-! ### Where the two agree -/

namespace ByteArray

/-- The two agree on the word of `n` bytes at a position, whatever the byte begins with. -/
def SizedAgrees (array : ByteArray) (n i : UInt32) : Prop :=
  ∀ garbage,
    array.getSized n.toNat i = .ok (ByteStreamReader.readSized garbage n ⟨array, i⟩).1

/-- **Where they agree**, for an array of `size` bytes, or of more than its `Size` can tell: the
    word is in the array, the array is too small for any word, or the bytes past the end come out
    alike. -/
def AgreeAt (array : ByteArray) (n i : Nat) : Prop :=
  let size := array.mData.length
  let last := array.size.toNat
  let byte := fun k => array.mData.getD k 0
  i + n ≤ last ∨
  (size < 2 ^ 32 ∧ size < n) ∨
  (size < 2 ^ 32 ∧ i < size ∧ ∀ k, i ≤ k → k < size → byte k = 0) ∨
  (2 ^ 32 ≤ size ∧ last < n ∧ ∀ k < n, byte (i + k) = 0) ∨
  (2 ^ 32 ≤ size ∧ n ≤ last ∧ i < last ∧
    ∀ k < n, last ≤ i + k → byte ((i + k) % 2 ^ 32) = byte (last - 1))

variable {array : ByteArray}

/-- At the end of the array, the byte is still what it began with. -/
theorem supply_end (n : Nat) (garbage : UInt8) :
    supply n garbage (array.remaining array.size.toNat)
      = (List.range n).map fun _ => garbage := by
  have hrest : array.remaining array.size.toNat = [] :=
    List.drop_of_length_le (by rw [List.length_take]; omega)
  rw [hrest]
  rfl

/-- In front of the end, the last byte is taken again. -/
theorem supply_of_lt (n : Nat) (garbage : UInt8) {i : Nat} (hi : i < array.size.toNat) :
    supply n garbage (array.remaining i)
      = (List.range n).map fun k => array.mData.getD (min (i + k) (array.size.toNat - 1)) 0 := by
  have hle := array.size_le_length
  have hlength : (array.remaining i).length = array.size.toNat - i := by
    rw [remaining, List.length_drop, List.length_take_of_le hle]
  have hget : ∀ k, i + k < array.size.toNat →
      (array.remaining i)[k]? = some (array.mData.getD (i + k) 0) := by
    intro k hk
    unfold remaining
    rw [List.getElem?_drop, List.getElem?_take_of_lt hk, List.getD_eq_getElem _ _ (by omega)]
    exact List.getElem?_eq_getElem _
  refine List.map_congr_left fun k _ => ?_
  by_cases hk : i + k < array.size.toNat
  · rw [List.getD_eq_getElem?_getD, hget k hk, Option.getD_some, Nat.min_eq_left (by omega)]
  · rw [List.getD_eq_default _ _ (by omega), List.getLastD_eq_getLast?,
      List.getLast?_eq_getElem?, hlength, hget _ (by omega), Option.getD_some,
      Nat.min_eq_right (by omega)]
    congr 1
    omega

/-- The byte being left as it was, no number comes out for every value of it. -/
theorem not_constant {n : Nat} (hn : 0 < n) (value : Nat) :
    ¬ ∀ garbage, value = valueLe ((List.range n).map fun _ => garbage) := by
  intro h
  -- The bytes 0 and 1 would give the same number.
  have hbytes := valueLe_map_range.mp ((h 0).symm.trans (h 1)) 0 hn
  exact absurd hbytes (by decide)

/-- An array that `Size` tells the size of: random access gives 0 where the reader meets the end. -/
theorem zero_iff {n i : Nat} (hn : 0 < n) (hi : i ≤ array.size.toNat)
    (hsize : array.size.toNat = array.mData.length) (hend : array.size.toNat < i + n) :
    (∀ garbage, 0 = if n ≤ array.size.toNat then
        valueLe (supply n garbage (array.remaining i)) else 0) ↔
      array.mData.length < n ∨
        i < array.mData.length ∧
          ∀ k, i ≤ k → k < array.mData.length → array.mData.getD k 0 = 0 := by
  by_cases hfew : array.mData.length < n
  · exact iff_of_true (fun _ => (if_neg (by omega)).symm) (.inl hfew)
  · simp only [if_pos (show n ≤ array.size.toNat by omega), hfew, false_or]
    by_cases hlt : i < array.size.toNat
    · rw [← hsize, and_iff_right hlt]
      simp only [supply_of_lt _ _ hlt, forall_const]
      rw [← valueLe_map_zero n, valueLe_map_range]
      constructor
      · intro h k hk hk'
        have hbyte := h (k - i) (by omega)
        rw [Nat.min_eq_left (by omega), show i + (k - i) = k by omega] at hbyte
        exact hbyte.symm
      · exact fun h k _ => (h _ (by omega) (by omega)).symm
    · obtain rfl : i = array.size.toNat := by omega
      simp only [supply_end]
      exact iff_of_false (not_constant hn 0) (by omega)

/-- An array of more: random access goes on behind what `Size` tells. -/
theorem fetch_iff {n : Nat} {i : UInt32} (hn : 0 < n) (hn' : n ≤ 4)
    (hi : i.toNat ≤ array.size.toNat) :
    (∀ garbage, valueLe (array.fetch i n) = if n ≤ array.size.toNat then
        valueLe (supply n garbage (array.remaining i.toNat)) else 0) ↔
      (array.size.toNat < n ∧ ∀ k < n, array.mData.getD (i.toNat + k) 0 = 0) ∨
        (n ≤ array.size.toNat ∧ i.toNat < array.size.toNat ∧
          ∀ k < n, array.size.toNat ≤ i.toNat + k →
            array.mData.getD ((i.toNat + k) % 2 ^ 32) 0
              = array.mData.getD (array.size.toNat - 1) 0) := by
  have hbound := array.size.toNat_lt
  by_cases hfew : array.size.toNat < n
  · have hge : ¬ n ≤ array.size.toNat := by omega
    simp only [hfew, hge, if_false, true_and, false_and, or_false, forall_const]
    rw [← valueLe_map_zero n, fetch, valueLe_map_range]
    refine forall₂_congr fun k hk => ?_
    rw [Nat.mod_eq_of_lt (by omega)]
  · have hge : n ≤ array.size.toNat := by omega
    simp only [hfew, hge, if_true, true_and, false_and, false_or]
    by_cases hlt : i.toNat < array.size.toNat
    · simp only [supply_of_lt _ _ hlt, forall_const, hlt, true_and]
      rw [fetch, valueLe_map_range]
      refine forall₂_congr fun k hk => ?_
      -- Beyond the end the reader repeats the last byte, while the access goes on in the array.
      by_cases hk' : array.size.toNat ≤ i.toNat + k
      · rw [Nat.min_eq_right (by omega)]
        exact ⟨fun h _ => h, fun h => h hk'⟩
      · rw [Nat.min_eq_left (by omega), Nat.mod_eq_of_lt (by omega)]
        exact iff_of_true rfl fun h => absurd h hk'
    · have heq : i.toNat = array.size.toNat := by omega
      simp only [heq, supply_end, lt_irrefl, false_and, iff_false]
      exact not_constant hn _

/-- **One size of word.** -/
theorem sized_iff {n i : UInt32} (hn : 0 < n.toNat) (hn' : n.toNat ≤ 4) (hi : i ≤ array.size) :
    array.SizedAgrees n i ↔ array.AgreeAt n.toNat i.toNat := by
  have hle := array.size_le_length
  have hi' := UInt32.le_iff_toNat_le.mp hi
  have hsize : array.size.toNat = array.mData.length % 2 ^ 32 := UInt32.toNat_ofNat'
  have hagrees : array.SizedAgrees n i ↔ ∀ garbage,
      (if i.toNat + n.toNat ≤ array.mData.length then valueLe (array.fetch i n.toNat) else 0)
        = if n.toNat ≤ array.size.toNat then
            valueLe (supply n.toNat garbage (array.remaining i.toNat)) else 0 := by
    refine forall_congr' fun garbage => ?_
    rw [getSized_eq, readSized_eq garbage n hi, Except.ok.injEq]
  rw [hagrees]
  unfold AgreeAt
  dsimp only
  by_cases hfront : i.toNat + n.toNat ≤ array.size.toNat
  · -- All of the bytes remain, and both take them.
    refine iff_of_true (fun garbage => ?_) (.inl hfront)
    rw [if_pos (by omega), if_pos (by omega), supply_of_lt _ _ (by omega)]
    refine valueLe_map_range.mpr fun k hk => ?_
    have hbound := array.size.toNat_lt
    rw [Nat.min_eq_left (by omega), Nat.mod_eq_of_lt (by omega)]
  -- The guard compares with the length, the loop with the 32-bit size: they part at 2^32 bytes.
  · by_cases hsmall : array.mData.length < 2 ^ 32
    · have hlarge : ¬ 2 ^ 32 ≤ array.mData.length := by omega
      rw [Nat.mod_eq_of_lt hsmall] at hsize
      rw [if_neg (by omega), zero_iff hn hi' hsize (by omega)]
      simp only [hfront, hsmall, hlarge, false_or, true_and, false_and, or_false]
    · have hlarge : 2 ^ 32 ≤ array.mData.length := by omega
      have hbound := array.size.toNat_lt
      rw [if_pos (by omega), fetch_iff hn hn' hi']
      simp only [hfront, hsmall, hlarge, false_or, true_and, false_and]

/-- A word of the size fits in `n` bytes. -/
theorem sized_lt (garbage : UInt8) {n i : UInt32} (hi : i ≤ array.size) :
    ∃ value < 256 ^ n.toNat, array.getSized n.toNat i = .ok value ∧
      (ByteStreamReader.readSized garbage n ⟨array, i⟩).1 < 256 ^ n.toNat := by
  have hpos : 0 < 256 ^ n.toNat := Nat.pow_pos (by decide)
  have hlt : ∀ f : Nat → UInt8, valueLe ((List.range n.toNat).map f) < 256 ^ n.toNat := by
    intro f
    have h := valueLe_lt ((List.range n.toNat).map f)
    rwa [List.length_map, List.length_range] at h
  refine ⟨_, ?_, getSized_eq array n.toNat i, ?_⟩
  · split_ifs
    · exact hlt _
    · exact hpos
  · rw [readSized_eq garbage n hi]
    split_ifs
    · exact hlt _
    · exact hpos

end ByteArray

namespace ByteStreamReader

/-- Extracting a `uint16_t` gives what `GetUint16` gives at the position of the reader. -/
def Uint16Agrees (r : ByteStreamReader) : Prop :=
  ∀ garbage, r.mArray.getUint16 r.mIndex = .ok (readUint16 garbage r).1

/-- Extracting a `uint32_t` gives what `GetUint32` gives at the position of the reader. -/
def Uint32Agrees (r : ByteStreamReader) : Prop :=
  ∀ garbage, r.mArray.getUint32 r.mIndex = .ok (readUint32 garbage r).1

variable {r : ByteStreamReader}

/-- A type that holds the numbers of `n` bytes. -/
theorem agrees_iff {τ : Type} {f : Nat → τ} {n : UInt32}
    (hf : ∀ a < 256 ^ n.toNat, ∀ b < 256 ^ n.toNat, f a = f b → a = b)
    (hr : r.mIndex ≤ r.mArray.size) :
    (∀ garbage, (do return f (← r.mArray.getSized n.toNat r.mIndex))
        = Except.ok (ε := Fault) (f (readSized garbage n r).1)) ↔
      r.mArray.SizedAgrees n r.mIndex := by
  refine forall_congr' fun garbage => ?_
  obtain ⟨value, hlt, hget, hread⟩ := ByteArray.sized_lt garbage (n := n) hr
  rw [hget]
  constructor
  · exact fun h => congrArg Except.ok (hf _ hlt _ hread (Except.ok.inj h))
  · exact fun h => congrArg Except.ok (congrArg f (Except.ok.inj h))

/-- The 16-bit accesses are those of two bytes. -/
theorem uint16_iff (hr : r.mIndex ≤ r.mArray.size) :
    r.Uint16Agrees ↔ r.mArray.SizedAgrees 2 r.mIndex := by
  refine agrees_iff (f := UInt16.ofNat) (n := 2) (fun a ha b hb h => ?_) hr
  have hmod := congrArg UInt16.toNat h
  rwa [UInt16.toNat_ofNat', UInt16.toNat_ofNat', Nat.mod_eq_of_lt (show a < 2 ^ 16 from ha),
    Nat.mod_eq_of_lt (show b < 2 ^ 16 from hb)] at hmod

/-- The 32-bit accesses are those of four. -/
theorem uint32_iff (hr : r.mIndex ≤ r.mArray.size) :
    r.Uint32Agrees ↔ r.mArray.SizedAgrees 4 r.mIndex := by
  refine agrees_iff (f := UInt32.ofNat) (n := 4) (fun a ha b hb h => ?_) hr
  have hmod := congrArg UInt32.toNat h
  rwa [UInt32.toNat_ofNat', UInt32.toNat_ofNat', Nat.mod_eq_of_lt (show a < 2 ^ 32 from ha),
    Nat.mod_eq_of_lt (show b < 2 ^ 32 from hb)] at hmod

/-- **Extracting and random access**, at every position that a reader comes to. -/
theorem extract_iff (array : ByteArray) (calls : List ReaderCall) :
    let r := calls.foldl ReaderCall.step (new array)
    (r.Uint16Agrees ↔ array.AgreeAt 2 r.mIndex.toNat) ∧
      (r.Uint32Agrees ↔ array.AgreeAt 4 r.mIndex.toNat) := by
  intro r
  obtain ⟨harray, hle⟩ : Kept array r := kept_run array calls
  have hr : r.mIndex ≤ r.mArray.size := by rwa [harray]
  rw [uint16_iff hr, uint32_iff hr, harray]
  exact ⟨ByteArray.sized_iff (by decide) (by decide) hle,
    ByteArray.sized_iff (by decide) (by decide) hle⟩

/-- The last byte of two: extracting takes it twice, and random access gives 0. -/
theorem not_extract :
    ¬ ∀ (array : ByteArray) (calls : List ReaderCall),
      (calls.foldl ReaderCall.step (new array)).Uint16Agrees := by
  intro h
  exact absurd (h ⟨[0, 1]⟩ [.seek 1] 0) (by decide)

end ByteStreamReader

end Icl.Io
