import Icl.Cxx.Buffer
import Icl.Io.ByteStream
import Icl.Transition.Count

namespace Icl.Io

open Icl.Cxx Icl.Transition

/-!
# `ByteArray`: ranges and comparison

The rest of `io/ByteArray.cpp` that deals with a range of the array or with a whole string.  The
size of the vector is a 64-bit number, indexes and counters are 32-bit ones, and a `char` is signed.

* `ranges_right_iff` — when `SubArray` and `Erase` keep to the array;
* `equality_iff` — when `operator ==` is equality with `ToSring`.
-/

namespace ByteArray

/-! ### The functions -/

/-- `vector::erase` from `pos` on, checked. -/
def eraseBytes (s : Bytes) (pos count : Nat) : Except Fault Bytes :=
  if pos + count ≤ s.length then .ok (s.take pos ++ s.drop (pos + count))
  else .error (.outOfBounds (pos + count) s.length)

/-- The guard of `SubArray` and `Erase`: it adds in 32 bits, while the iterators add in 64. -/
def onRange (array : ByteArray) (index len : UInt32) (touch : Except Fault Bytes)
    (otherwise : ByteArray) : Except Fault ByteArray :=
  if (index + len).toNat ≤ array.mData.length then do
    let mData ← touch
    return ⟨mData⟩
  else return otherwise

/-- `ByteArray::SubArray`. -/
def subArray (array : ByteArray) (index len : UInt32) : Except Fault ByteArray :=
  array.onRange index len (readBytes array.mData index.toNat len.toNat) new

/-- `ByteArray::Erase`. -/
def erase (array : ByteArray) (index len : UInt32) : Except Fault ByteArray :=
  array.onRange index len (eraseBytes array.mData index.toNat len.toNat) array

/-- `ByteArray(const std::string &)`. -/
def ofString (data : Bytes) : Except Fault ByteArray :=
  countTo data.length (fun i array => do return array.pushBack (← index data i)) new

/-- `ByteArray::ToSring`. -/
def toSring (array : ByteArray) : Except Fault Bytes :=
  countTo array.mData.length (fun i buf => do return buf ++ [← index array.mData i]) []

/-- `rhs[i] != mData[i]`: a `char` and a `uint8_t`, both as an `int`. -/
def differ (c byte : UInt8) : Bool := c.toInt8.toInt != (byte.toNat : Int)

/-- `ByteArray::operator ==`. -/
def equals (array : ByteArray) (rhs : Bytes) : Except Fault Bool :=
  if array.mData.length ≥ rhs.length then
    countTo rhs.length (fun i ret => do
      let c ← index rhs i
      let byte ← index array.mData i
      return if differ c byte then false else ret) true
  else return false

/-! ### Ranges -/

section Ranges

variable {array : ByteArray} {index len : UInt32}

/-- The range, of mathematical integers, lies in the array. -/
def Within (array : ByteArray) (index len : UInt32) : Prop :=
  index.toNat + len.toNat ≤ array.mData.length

instance (array : ByteArray) (index len : UInt32) : Decidable (array.Within index len) :=
  inferInstanceAs (Decidable (_ ≤ _))

/-- `SubArray` returns the elements of the range, or nothing. -/
def SubArrayRight (array : ByteArray) (index len : UInt32) : Prop :=
  array.subArray index len = .ok
    (if array.Within index len then ⟨(array.mData.drop index.toNat).take len.toNat⟩ else new)

/-- `Erase` removes the elements of the range, or nothing. -/
def EraseRight (array : ByteArray) (index len : UInt32) : Prop :=
  array.erase index len = .ok
    (if array.Within index len then
      ⟨array.mData.take index.toNat ++ array.mData.drop (index.toNat + len.toNat)⟩ else array)

/-- The range passes the end, and the sum in 32 bits does not. -/
def Slips (array : ByteArray) (index len : UInt32) : Prop :=
  ¬ array.Within index len ∧ (index.toNat + len.toNat) % 2 ^ 32 ≤ array.mData.length

/-- The guard is the bound, the sum being taken in 32 bits. -/
theorem guard_iff :
    (index + len).toNat ≤ array.mData.length ↔
      array.Within index len ∨ array.Slips index len := by
  unfold Slips Within
  rw [UInt32.toNat_add]
  have hle := Nat.mod_le (index.toNat + len.toNat) (2 ^ 32)
  omega

/-- What both do: right, unless the range slips through the guard. -/
theorem onRange_iff {touch : Except Fault Bytes} {text : Bytes} {e : Fault} {otherwise : ByteArray}
    (hin : array.Within index len → touch = .ok text)
    (hout : ¬ array.Within index len → touch = .error e) :
    array.onRange index len touch otherwise
        = .ok (if array.Within index len then ⟨text⟩ else otherwise) ↔
      ¬ array.Slips index len := by
  unfold onRange
  by_cases hwithin : array.Within index len
  · rw [if_pos (guard_iff.mpr (.inl hwithin)), if_pos hwithin, hin hwithin]
    exact iff_of_true rfl fun hslips => hslips.1 hwithin
  · rw [if_neg hwithin]
    by_cases hslips : array.Slips index len
    · -- The guard lets the range pass, and the elements behind the end are touched.
      rw [if_pos (guard_iff.mpr (.inr hslips)), hout hwithin]
      exact iff_of_false nofun (not_not_intro hslips)
    · rw [if_neg (guard_iff.not.mpr (not_or.mpr ⟨hwithin, hslips⟩))]
      exact iff_of_true rfl hslips

/-- `SubArray` is right exactly when the sum of its arguments does not wrap past its guard. -/
theorem subArray_right_iff : array.SubArrayRight index len ↔ ¬ array.Slips index len :=
  onRange_iff (fun h => if_pos h) (fun h => if_neg h)

/-- So is `Erase`. -/
theorem erase_right_iff : array.EraseRight index len ↔ ¬ array.Slips index len :=
  onRange_iff (fun h => if_pos h) (fun h => if_neg h)

/-- **Ranges.**  `SubArray` and `Erase` keep to the array unless the sum in 32 bits wraps to a
    number that the array reaches. -/
theorem ranges_right_iff (array : ByteArray) (index len : UInt32) :
    (array.SubArrayRight index len ∧ array.EraseRight index len) ↔
      (index.toNat + len.toNat ≤ array.mData.length ∨
        array.mData.length < (index.toNat + len.toNat) % 2 ^ 32) := by
  rw [subArray_right_iff, erase_right_iff, and_self]
  unfold Slips Within
  omega

/-- One byte, from the last index on: the sum is 0, and the element read is out of bounds. -/
theorem not_ranges_right :
    ¬ ∀ (array : ByteArray) (index len : UInt32),
      array.SubArrayRight index len ∧ array.EraseRight index len := by
  intro h
  have hright := (h ⟨[0x61, 0x62, 0x63]⟩ 0xFFFFFFFF 1).1
  unfold SubArrayRight at hright
  exact absurd hright (by decide)

end Ranges

/-! ### Comparison -/

variable {array : ByteArray}

/-- The two are alike exactly when they are the same byte, below 0x80. -/
theorem differ_eq_false {c byte : UInt8} : differ c byte = false ↔ c = byte ∧ c < 0x80 := by
  have hint : c.toInt8.toInt = if c.toNat < 128 then (c.toNat : Int) else c.toNat - 256 := by
    show c.toBitVec.toInt = _
    rw [BitVec.toInt_eq_toNat_cond, UInt8.toNat_toBitVec]
    split_ifs <;> omega
  have hc := c.toNat_lt
  unfold differ
  rw [bne_eq_false_iff_eq, hint, ← UInt8.toNat_inj, UInt8.lt_iff_toNat_lt]
  show _ ↔ c.toNat = byte.toNat ∧ c.toNat < 128
  split_ifs <;> omega

section Copy

variable {σ : Type} {s : Bytes} {push : σ → UInt8 → σ} {st : σ}

/-- A loop that takes the bytes of a string one by one. -/
theorem countTo_bytes (h : s.length < 2 ^ 32) :
    countTo s.length (fun i st => do return push st (← index s i)) st = .ok (s.foldl push st) := by
  -- The first `i` bytes have been taken.
  have hbody : ∀ i < s.length, ∀ st', st' = (s.take i).foldl push st →
      ∃ next, (do return push st' (← index s i)) = Except.ok (ε := Fault) next ∧
        next = (s.take (i + 1)).foldl push st := by
    intro i hi st' hst'
    refine ⟨push st' s[i], ?_, ?_⟩
    · rw [index_of_lt hi]
      rfl
    · rw [hst', ← List.take_append_getElem hi, List.foldl_append]
      rfl
  have hstart : st = (s.take 0).foldl push st := rfl
  obtain ⟨last, hlast, hcopy⟩ := countTo_invariant h hbody hstart
  rw [hlast, hcopy, List.take_length]

/-- A 32-bit counter never comes to 2^32. -/
theorem countTo_bytes_endless (h : 2 ^ 32 ≤ s.length) :
    countTo s.length (fun i st => do return push st (← index s i)) st = .error .endlessLoop := by
  have hbody : ∀ i < s.length, ∀ st, True →
      ∃ next, (do return push st (← index s i)) = Except.ok (ε := Fault) next ∧ True := by
    intro i hi st _
    exact ⟨push st s[i], by rw [index_of_lt hi]; rfl, trivial⟩
  exact countTo_endless h hbody trivial

end Copy

/-- Bytes are put at the end one by one. -/
theorem foldl_pushBack (s text : Bytes) : s.foldl pushBack ⟨text⟩ = ⟨text ++ s⟩ := by
  induction s generalizing text with
  | nil => rw [List.foldl_nil, List.append_nil]
  | cons c s ih =>
    rw [List.foldl_cons, pushBack, ih, List.append_assoc, List.singleton_append]

/-- Below 2^32 bytes `ToSring` gives the bytes. -/
theorem toSring_eq (h : array.mData.length < 2 ^ 32) : array.toSring = .ok array.mData := by
  rw [toSring, countTo_bytes h, List.foldl_append_eq_append, ← List.flatMap_def,
    List.flatMap_singleton', List.nil_append]

/-- From there on it never ends. -/
theorem toSring_endless (h : 2 ^ 32 ≤ array.mData.length) :
    array.toSring = .error .endlessLoop :=
  countTo_bytes_endless h

/-- A string that is not longer than the array. -/
theorem equals_of_le {rhs : Bytes} (hle : rhs.length ≤ array.mData.length)
    (h : rhs.length < 2 ^ 32) :
    array.equals rhs = .ok ((rhs.zip array.mData).all fun pair => !differ pair.1 pair.2) := by
  -- So far, no byte differs.
  have hbody : ∀ i < rhs.length, ∀ ret,
      ret = ((rhs.zip array.mData).take i).all (fun pair => !differ pair.1 pair.2) →
      ∃ next, (do
          let c ← index rhs i
          let byte ← index array.mData i
          return if differ c byte then false else ret) = Except.ok (ε := Fault) next ∧
        next = ((rhs.zip array.mData).take (i + 1)).all fun pair => !differ pair.1 pair.2 := by
    intro i hi ret hret
    have hi' : i < array.mData.length := by omega
    have hzip : i < (rhs.zip array.mData).length := by rw [List.length_zip]; omega
    refine ⟨if differ rhs[i] array.mData[i] then false else ret, ?_, ?_⟩
    · rw [index_of_lt hi, index_of_lt hi']
      rfl
    · rw [← List.take_append_getElem hzip, List.all_append, ← hret, List.getElem_zip]
      simp only [List.all_cons, List.all_nil, Bool.and_true]
      cases differ rhs[i] array.mData[i] with
      | true => exact (Bool.and_false ret).symm
      | false => exact (Bool.and_true ret).symm
  have hstart : true = ((rhs.zip array.mData).take 0).all (fun pair => !differ pair.1 pair.2) :=
    rfl
  obtain ⟨ret, hcount, hret⟩ := countTo_invariant h hbody hstart
  unfold equals
  rw [if_pos hle, hcount, hret, List.take_of_length_le (by rw [List.length_zip]; omega)]

/-- The loop over the string finds no difference when it is a beginning of the array and plain
    ASCII. -/
theorem all_zip_iff {rhs text : Bytes} (hle : rhs.length ≤ text.length) :
    ((rhs.zip text).all fun pair => !differ pair.1 pair.2) = true ↔
      rhs <+: text ∧ ∀ c ∈ rhs, c < 0x80 := by
  induction rhs generalizing text with
  | nil => simp
  | cons c rhs ih =>
    cases text with
    | nil => simp at hle
    | cons byte text =>
      have hrest := ih (Nat.le_of_succ_le_succ hle)
      rw [List.zip_cons_cons, List.all_cons, Bool.and_eq_true, hrest, List.cons_prefix_cons,
        List.forall_mem_cons, Bool.not_eq_true', differ_eq_false]
      tauto

/-- **What `==` tells**: the string is a prefix of the array, with bytes below 0x80 only. -/
theorem equals_eq (h : array.mData.length < 2 ^ 32) (rhs : Bytes) :
    ∃ ret, array.equals rhs = .ok ret ∧
      (ret = true ↔ rhs <+: array.mData ∧ ∀ c ∈ rhs, c < 0x80) := by
  by_cases hle : rhs.length ≤ array.mData.length
  · exact ⟨_, equals_of_le hle (by omega), all_zip_iff hle⟩
  · refine ⟨false, if_neg hle, ?_⟩
    exact iff_of_false nofun fun hprefix => hle hprefix.1.length_le

/-- `a == s` holds if and only if `a.ToSring()` equals `s`. -/
def EqualityRight (array : ByteArray) (s : Bytes) : Prop :=
  ∃ ret text, array.equals s = .ok ret ∧ array.toSring = .ok text ∧ (ret = true ↔ text = s)

/-- **`==` with a string is right** exactly in these cases. -/
theorem equalityRight_iff (s : Bytes) :
    array.EqualityRight s ↔
      array.mData.length < 2 ^ 32 ∧ (s = array.mData → ∀ c ∈ s, c < 0x80) ∧
        (s <+: array.mData → s ≠ array.mData → ∃ c ∈ s, 0x80 ≤ c) := by
  by_cases h : array.mData.length < 2 ^ 32
  · obtain ⟨ret, hret, htells⟩ := equals_eq h s
    have hright : array.EqualityRight s ↔ (ret = true ↔ array.mData = s) := by
      constructor
      · rintro ⟨ret', text, hret', htext, hiff⟩
        cases hret.symm.trans hret'
        cases (toSring_eq h).symm.trans htext
        exact hiff
      · exact fun hiff => ⟨ret, array.mData, hret, toSring_eq h, hiff⟩
    rw [hright, htells, and_iff_right h]
    -- Equal texts compare unequal where a `char` is negative; different ones compare equal where
    -- the string is a beginning.
    by_cases heq : s = array.mData
    · subst heq
      simp
    · have hne : array.mData ≠ s := fun h' => heq h'.symm
      simp [heq, hne]
  · -- The counter of `ToSring` never comes to the size.
    refine iff_of_false ?_ fun hwhen => h hwhen.1
    rintro ⟨ret, text, -, htext, -⟩
    rw [toSring_endless (by omega)] at htext
    cases htext

/-- An array equals the string that it is made from. -/
theorem ofString_equals_iff (s : Bytes) :
    (∃ made, ofString s = .ok made ∧ made.equals s = .ok true) ↔
      s.length < 2 ^ 32 ∧ ∀ c ∈ s, c < 0x80 := by
  by_cases h : s.length < 2 ^ 32
  · have hmade : ofString s = .ok ⟨s⟩ := by
      rw [ofString, countTo_bytes h]
      exact congrArg Except.ok (foldl_pushBack s [])
    obtain ⟨ret, hret, htells⟩ : ∃ ret, equals ⟨s⟩ s = .ok ret ∧ _ := equals_eq h s
    rw [hmade]
    simp only [Except.ok.injEq, exists_eq_left', hret, htells, h, List.prefix_rfl, true_and]
  · refine iff_of_false ?_ fun hwhen => h hwhen.1
    rintro ⟨made, hmade, -⟩
    rw [ofString, countTo_bytes_endless (not_lt.mp h)] at hmade
    cases hmade

/-- **Equality.**  It is content equality for an array that the counter can pass, unless the string
    is the contents and has a byte of 0x80 or more, or is a proper prefix of it and has none. -/
theorem equality_iff (array : ByteArray) (s : Bytes) :
    (array.EqualityRight s ↔
      array.mData.length < 2 ^ 32 ∧ (s = array.mData → ∀ c ∈ s, c < 0x80) ∧
        (s <+: array.mData → s ≠ array.mData → ∃ c ∈ s, 0x80 ≤ c)) ∧
      ((∃ made, ofString s = .ok made ∧ made.equals s = .ok true) ↔
        s.length < 2 ^ 32 ∧ ∀ c ∈ s, c < 0x80) :=
  ⟨equalityRight_iff s, ofString_equals_iff s⟩

/-- A proper prefix. -/
theorem not_equality_right : ¬ ∀ (array : ByteArray) (s : Bytes), array.EqualityRight s := by
  intro h
  have hright := (equalityRight_iff [0x61, 0x62]).mp (h ⟨[0x61, 0x62, 0x63]⟩ [0x61, 0x62])
  exact absurd (hright.2.2 (by decide) (by decide)) (by decide)

end ByteArray

end Icl.Io
