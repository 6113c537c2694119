import Icl.Cxx.Overlay
import Icl.Io.ByteStream
import Mathlib.Algebra.Order.BigOperators.Group.List

namespace Icl.Io

open Icl.Cxx Icl.Format

/-!
# Writing anywhere in a `ByteArray`

After `Seek`, each byte either overwrites or appends, as the index is then.

* `Writes` — a writer lays exactly a given text over the array, wherever the index stands;
* `overwrites` — a sequence of values, laid out one after the other from the position of `Seek`.
-/

/-- `ByteStreamWriter::Seek`. -/
def ByteStreamWriter.seek (w : ByteStreamWriter) (pos : UInt32) : ByteStreamWriter :=
  { w with mIndex := if pos < w.mArray.size then pos else w.mArray.size }

/-! ### What a writer lays over the array -/

/-- The writer lays exactly the text over the array, as long as the index stays a 32-bit number. -/
def Writes (write : ByteStreamWriter → ByteStreamWriter) (e : Bytes) : Prop :=
  ∀ (text : Bytes) (q : Nat), text.length < 2 ^ 32 → q ≤ text.length → q + e.length < 2 ^ 32 →
    write ⟨⟨text⟩, .ofNat q⟩ = ⟨⟨overlay text q e⟩, .ofNat (q + e.length)⟩

theorem Writes.nil : Writes id [] := by
  intro text q _ _ _
  rw [overlay_nil]
  rfl

/-- One writer after the other. -/
theorem Writes.append {write write' : ByteStreamWriter → ByteStreamWriter} {e e' : Bytes}
    (h : Writes write e) (h' : Writes write' e') :
    Writes (fun w => write' (write w)) (e ++ e') := by
  intro text q htext hq hend
  rw [List.length_append, ← Nat.add_assoc] at hend
  have hlength := length_overlay (e := e) hq
  show write' (write ⟨⟨text⟩, .ofNat q⟩) = _
  rw [h text q htext hq (by omega),
    h' (overlay text q e) (q + e.length) (by omega) (by omega) hend, overlay_append hq,
    List.length_append, Nat.add_assoc]

theorem Writes.foldl {α : Type} {write : ByteStreamWriter → α → ByteStreamWriter}
    {encode : α → Bytes} {items : List α}
    (h : ∀ item ∈ items, Writes (fun w => write w item) (encode item)) :
    Writes (fun w => items.foldl write w) (items.flatMap encode) := by
  induction items with
  | nil => exact Writes.nil
  | cons item items ih =>
    exact (h item List.mem_cons_self).append (ih fun i hi => h i (List.mem_cons_of_mem _ hi))

/-! ### The types -/

/-- A byte overwrites below the end and appends at the end. -/
theorem writes_uint8 (d : UInt8) : Writes (fun w => w.writeUint8 d) [d] := by
  intro text q htext hq hend
  have hsize : (ByteArray.mk text).size.toNat = text.length := ByteArray.size_toNat htext
  have hindex : (UInt32.ofNat q).toNat = q := by
    rw [UInt32.toNat_ofNat', Nat.mod_eq_of_lt (by omega)]
  unfold ByteStreamWriter.writeUint8
  simp only [ge_iff_le, UInt32.le_iff_toNat_le, hsize, hindex, UInt32.ofNat_add,
    List.length_singleton]
  by_cases hlt : q < text.length
  · rw [if_neg (by omega), overlay_singleton_of_lt hlt]
    unfold ByteArray.put
    rw [hindex, if_pos hlt]
    rfl
  · obtain rfl : q = text.length := by omega
    rw [if_pos le_rfl, overlay_length]
    rfl

theorem writes_word (n data : Nat) :
    Writes (ByteStreamWriter.writeWord n data) (bytesLe n data) := by
  induction n generalizing data with
  | zero => exact Writes.nil
  | succ n ih =>
    show Writes (fun w => ByteStreamWriter.writeWord n (data >>> 8)
      (w.writeUint8 (.ofNat (data &&& 0xFF)))) _
    rw [ByteStreamWriter.ofNat_and_low, Nat.shiftRight_eq_div_pow]
    exact (writes_uint8 (.ofNat data)).append (ih (data / 2 ^ 8))

theorem writes_chars (s : Bytes) : Writes (fun w => s.foldl ByteStreamWriter.writeUint8 w) s := by
  have h : Writes (fun w => s.foldl ByteStreamWriter.writeUint8 w) (s.flatMap fun c => [c]) :=
    Writes.foldl fun c _ => writes_uint8 c
  rwa [List.flatMap_singleton'] at h

/-- **One value.** -/
theorem Value.writes {value : Value} (h : value.size < 2 ^ 32) :
    Writes (fun w => value.write w) value.encode := by
  cases value with
  | uint8 d => exact writes_uint8 d
  | uint16 d => exact writes_word 2 d.toNat
  | uint32 d => exact writes_word 4 d.toNat
  | int32 d => exact writes_word 4 d.toUInt32.toNat
  | bool d => exact writes_uint8 _
  | string s =>
    have hsize : (UInt32.ofNat s.length).toNat = s.length := by
      have : 4 + s.length < 2 ^ 32 := h
      rw [UInt32.toNat_ofNat', Nat.mod_eq_of_lt (by omega)]
    have hall := (writes_word 4 s.length).append (writes_chars s)
    unfold write ByteStreamWriter.writeString ByteStreamWriter.writeUint32
    simp only [hsize, List.take_length]
    exact hall

/-- **All the values.** -/
theorem writes_values {values : List Value} (h : encodedSize values < 2 ^ 32) :
    Writes (fun w => values.foldl Value.write w) (values.flatMap Value.encode) := by
  refine Writes.foldl fun value hvalue => Value.writes ?_
  have hle : value.size ≤ encodedSize values :=
    List.le_sum_of_mem (List.mem_map_of_mem hvalue)
  omega

/-! ### After `Seek` -/

/-- Where `Seek` puts the index. -/
theorem toNat_seek {w : ByteStreamWriter} (h : w.mArray.mData.length < 2 ^ 32) (pos : UInt32) :
    (w.seek pos).mIndex.toNat = min pos.toNat w.mArray.mData.length := by
  have hsize := ByteArray.size_toNat h
  unfold ByteStreamWriter.seek
  by_cases hlt : pos < w.mArray.size
  · rw [if_pos hlt]
    rw [UInt32.lt_iff_toNat_lt, hsize] at hlt
    show pos.toNat = _
    omega
  · rw [if_neg hlt]
    rw [UInt32.lt_iff_toNat_lt, hsize] at hlt
    show w.mArray.size.toNat = _
    omega

/-- What is expected of `Seek(pos)` and the values written then: the encodings are laid over the
    array from `q` on, nothing else changes, and the index is behind them. -/
structure Overwrites (w : ByteStreamWriter) (pos : UInt32) (values : List Value) : Prop where
  array :
    (values.foldl Value.write (w.seek pos)).mArray.mData
      = overlay w.mArray.mData (min pos.toNat w.mArray.mData.length) (values.flatMap Value.encode)
  index :
    (values.foldl Value.write (w.seek pos)).mIndex.toNat
      = min pos.toNat w.mArray.mData.length + encodedSize values
  outside :
    ∀ k, k < min pos.toNat w.mArray.mData.length ∨
        min pos.toNat w.mArray.mData.length + encodedSize values ≤ k →
      (values.foldl Value.write (w.seek pos)).mArray.mData[k]? = w.mArray.mData[k]?
  grown :
    (values.foldl Value.write (w.seek pos)).mArray.mData.length
      = max w.mArray.mData.length (min pos.toNat w.mArray.mData.length + encodedSize values)

/-- **Overwriting**, wherever the values end as long as the index can hold it. -/
theorem overwrites (w : ByteStreamWriter) (pos : UInt32) (values : List Value)
    (hsize : w.mArray.mData.length < 2 ^ 32)
    (hend : min pos.toNat w.mArray.mData.length + encodedSize values < 2 ^ 32) :
    Overwrites w pos values := by
  have hq := Nat.min_le_right pos.toNat w.mArray.mData.length
  have hlength := length_flatMap_encode values
  have hseek : w.seek pos
      = ⟨⟨w.mArray.mData⟩, .ofNat (min pos.toNat w.mArray.mData.length)⟩ := by
    have hindex := toNat_seek hsize pos
    rw [← hindex, UInt32.ofNat_toNat]
    rfl
  have hfit : encodedSize values < 2 ^ 32 := by omega
  have hwrites := writes_values hfit w.mArray.mData _ hsize hq (by omega)
  rw [hlength, ← hseek] at hwrites
  -- What is left in front of the index by earlier writes is part of the array.
  change values.foldl Value.write (w.seek pos) = _ at hwrites
  have harray : (values.foldl Value.write (w.seek pos)).mArray.mData
      = overlay w.mArray.mData (min pos.toNat w.mArray.mData.length)
          (values.flatMap Value.encode) := by rw [hwrites]
  constructor
  case array => exact harray
  case index => rw [hwrites, UInt32.toNat_ofNat', Nat.mod_eq_of_lt hend]
  case outside =>
    intro k hk
    rw [← hlength] at hk
    rw [harray, getElem?_overlay_of_outside hq hk]
  case grown => rw [harray, length_overlay hq, hlength]

/-- A string that begins in the array and ends behind it. -/
theorem overwrites_string :
    Overwrites (.new ⟨[1, 2, 3, 4, 5]⟩) 2 [.string [0x61, 0x62], .uint16 0x0102] :=
  overwrites _ _ _ (by decide) (by decide)

/-- The index wraps behind the last array that has a size of 32 bits. -/
theorem not_overwrites :
    ¬ ∀ (w : ByteStreamWriter) (pos : UInt32) (value : Value), Overwrites w pos [value] := by
  intro h
  obtain ⟨text, htext⟩ : ∃ text : Bytes, text.length = 2 ^ 32 - 1 :=
    ⟨List.replicate (2 ^ 32 - 1) 0, List.length_replicate⟩
  -- The text stays a variable: a list of 2^32 - 1 bytes is never computed.
  have hseek := toNat_seek (w := .new ⟨text⟩) (by show text.length < 2 ^ 32; omega) 0xFFFFFFFF
  have hindex := (h (.new ⟨text⟩) 0xFFFFFFFF (.uint8 0)).index
  rw [← hseek] at hindex
  change (_ + 1 : UInt32).toNat = _ + 1 at hindex
  rw [UInt32.toNat_add, hseek] at hindex
  change (min 4294967295 text.length + 1) % 2 ^ 32 = min 4294967295 text.length + 1 at hindex
  omega

end Icl.Io
