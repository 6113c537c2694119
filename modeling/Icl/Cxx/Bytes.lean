import Mathlib.Data.List.Basic
import Mathlib.Data.List.Lex
import Mathlib.Order.Lattice
import Mathlib.Tactic.Ring

namespace Icl.Cxx

/-!
# C++ strings as lists of bytes

* `Bytes` — the contents of a `std::string`: any bytes, any length, NUL included;
* the order on byte strings is the one of `std::string::compare`, lexicographic on
  unsigned bytes;
* `isspace`, `isdigit`, `isxdigit`, `iscntrl`, `tolower` — the `<cctype>` classes of
  the "C" locale, where no byte from `0x80` on belongs to any class;
* `Fault` — the ways in which an execution can leave the defined behaviour of the
  source; the checked operations on strings return it.
-/

/-- The contents of a `std::string`. -/
abbrev Bytes := List UInt8

/-- `std::string` is ordered as a list of unsigned bytes. -/
instance byteLinearOrder : LinearOrder UInt8 where
  le_refl := UInt8.le_refl
  le_trans _ _ _ := UInt8.le_trans
  le_antisymm _ _ := UInt8.le_antisymm
  le_total := UInt8.le_total
  lt_iff_le_not_ge a b := by
    rw [UInt8.lt_iff_toNat_lt, UInt8.le_iff_toNat_le, UInt8.le_iff_toNat_le]; omega
  toDecidableLE := inferInstance

/-- The bytes of an ASCII literal of the source. -/
def ascii (s : String) : Bytes := s.toList.map Char.toUInt8

/-! ### Character classes -/

/-- `isspace`: space, `\t`, `\n`, `\v`, `\f` and `\r`. -/
def isspace (c : UInt8) : Bool := c == 0x20 || (0x09 ≤ c && c ≤ 0x0D)

/-- `isdigit`: `0` to `9`. -/
def isdigit (c : UInt8) : Bool := 0x30 ≤ c && c ≤ 0x39

/-- `isxdigit`: `0` to `9`, `A` to `F` and `a` to `f`. -/
def isxdigit (c : UInt8) : Bool :=
  isdigit c || (0x41 ≤ c && c ≤ 0x46) || (0x61 ≤ c && c ≤ 0x66)

/-- `iscntrl`: the bytes below the space, and DEL. -/
def iscntrl (c : UInt8) : Bool := c < 0x20 || c == 0x7F

/-- `tolower`: only `A` to `Z` change. -/
def tolower (c : UInt8) : UInt8 := if 0x41 ≤ c && c ≤ 0x5A then c + 0x20 else c

/-- What holds of the 256 bytes, one by one, holds of every byte. -/
theorem forall_byte {p : UInt8 → Bool} (h : ∀ n < 256, p (UInt8.ofNat n) = true) (c : UInt8) :
    p c = true := by
  simpa using h c.toNat c.toNat_lt

/-- What is checked along a string holds of each of its bytes. -/
theorem forall_mem_of_all {p : UInt8 → Prop} [DecidablePred p] {s : Bytes}
    (h : s.all (fun c => p c) = true) : ∀ c ∈ s, p c := by
  simpa using h

/-! ### Faults and checked access -/

/-- What takes an execution out of the defined behaviour of the source. -/
inductive Fault where
  /-- An element read or written at an index that is not below the size. -/
  | outOfBounds (index size : Nat)
  /-- `substr` from a position past the size: `std::out_of_range`. -/
  | outOfRange (pos size : Nat)
  /-- `pop_back` on an empty string. -/
  | popBackEmpty
  /-- A read past the NUL that ends a C string. -/
  | pastTerminator
  /-- A loop whose condition can never become false. -/
  | endlessLoop
  deriving DecidableEq, Repr

/-- `s[k]`, checked. -/
def index (s : Bytes) (k : Nat) : Except Fault UInt8 :=
  if h : k < s.length then .ok s[k] else .error (.outOfBounds k s.length)

/-- `s[k] = c`, checked. -/
def store (s : Bytes) (k : Nat) (c : UInt8) : Except Fault Bytes :=
  if k < s.length then .ok (s.set k c) else .error (.outOfBounds k s.length)

/-- `s.substr(pos, count)`: `count` is cut at the end of the string, `pos` is not. -/
def substr (s : Bytes) (pos count : Nat) : Except Fault Bytes :=
  if pos ≤ s.length then .ok ((s.drop pos).take count) else .error (.outOfRange pos s.length)

/-- `s.pop_back()`. -/
def popBack (s : Bytes) : Except Fault Bytes :=
  if s = [] then .error .popBackEmpty else .ok s.dropLast

/-- The offset of the first occurrence of `d`. -/
def findSub (d : Bytes) : Bytes → Option Nat
  | [] => if d = [] then some 0 else none
  | c :: s => if d.isPrefixOf (c :: s) then some 0 else (findSub d s).map (· + 1)

/-- `s.find(d, start)`; `none` is `npos`. -/
def find (s d : Bytes) (start : Nat) : Option Nat :=
  if start ≤ s.length then (findSub d (s.drop start)).map (start + ·) else none

/-- An occurrence lies inside the string. -/
theorem findSub_le {d s : Bytes} {k : Nat} (h : findSub d s = some k) :
    k + d.length ≤ s.length := by
  induction s generalizing k with
  | nil =>
    rw [findSub] at h
    split_ifs at h with hd
    cases h
    simp [hd]
  | cons c s ih =>
    rw [findSub] at h
    split_ifs at h with hd
    · cases h
      simpa using (List.isPrefixOf_iff_prefix.mp hd).length_le
    -- The occurrence is further on, so it ends one place further than in the rest.
    · obtain ⟨k', hk', rfl⟩ := Option.map_eq_some_iff.mp h
      have := ih hk'
      simp only [List.length_cons]
      omega

/-- What `find` returns is an occurrence at or after `start`, inside the string. -/
theorem find_le {s d : Bytes} {start k : Nat} (h : find s d start = some k) :
    start ≤ k ∧ k + d.length ≤ s.length := by
  rw [find] at h
  split_ifs at h with hstart
  obtain ⟨k', hk', rfl⟩ := Option.map_eq_some_iff.mp h
  have := findSub_le hk'
  rw [List.length_drop] at this
  omega

/-- Inside the string `operator[]` gives the character. -/
theorem index_of_lt {s : Bytes} {k : Nat} (h : k < s.length) : index s k = .ok s[k] :=
  dif_pos h

/-- Beyond its end the access is reported as out of bounds. -/
theorem index_of_le {s : Bytes} {k : Nat} (h : s.length ≤ k) :
    index s k = .error (.outOfBounds k s.length) :=
  dif_neg (by omega)

/-- Inside the string the character is replaced. -/
theorem store_of_lt {s : Bytes} {k : Nat} (h : k < s.length) (c : UInt8) :
    store s k c = .ok (s.set k c) :=
  if_pos h

/-- From a position inside the string on, `substr` gives what is there, `count` characters at
    most. -/
theorem substr_of_le {s : Bytes} {pos : Nat} (h : pos ≤ s.length) (count : Nat) :
    substr s pos count = .ok ((s.drop pos).take count) :=
  if_pos h

/-- `pop_back` takes the last character off. -/
theorem popBack_of_ne_nil {s : Bytes} (h : s ≠ []) : popBack s = .ok s.dropLast :=
  if_neg h

@[simp] theorem popBack_nil : popBack [] = .error .popBackEmpty := rfl

/-! ### Sequencing checked operations -/

section Sequencing

variable {α β : Type}

@[simp] theorem ok_bind (a : α) (f : α → Except Fault β) : (Except.ok a >>= f) = f a := rfl

@[simp] theorem error_bind (e : Fault) (f : α → Except Fault β) :
    (Except.error e >>= f) = .error e := rfl

@[simp] theorem pure_eq_ok (a : α) : (pure a : Except Fault α) = .ok a := rfl

/-- A sequence succeeds when its first part does and the rest does on its result. -/
theorem bind_eq_ok {x : Except Fault α} {f : α → Except Fault β} {b : β} :
    (x >>= f) = .ok b ↔ ∃ a, x = .ok a ∧ f a = .ok b := by
  cases x with
  | ok a => simp
  | error e => simp

/-- The execution stays inside the defined behaviour. -/
def Defined (x : Except Fault α) : Prop := ∃ a, x = .ok a

@[simp] theorem defined_ok (a : α) : Defined (.ok a) := ⟨a, rfl⟩

/-- A fault is no result. -/
@[simp] theorem not_defined_error (e : Fault) : ¬ Defined (.error e : Except Fault α) := by
  rintro ⟨a, h⟩; cases h

/-- `substr` throws exactly when the position lies behind the end. -/
theorem defined_substr (s : Bytes) (pos count : Nat) :
    Defined (substr s pos count) ↔ pos ≤ s.length := by
  rw [substr]
  split_ifs with h <;> simp [h]

/-- A sequence of two steps is defined when the first one is and the second one is on its result. -/
theorem defined_bind {x : Except Fault α} {f : α → Except Fault β} :
    Defined (x >>= f) ↔ ∃ a, x = .ok a ∧ Defined (f a) := by
  cases x with
  | ok a => simp
  | error e => simp

/-- Only the first part can leave the defined behaviour when the rest is a pure step. -/
@[simp] theorem defined_bind_ok (x : Except Fault α) (f : α → β) :
    Defined (x >>= fun a => .ok (f a)) ↔ Defined x := by
  cases x with
  | ok a => simp
  | error e => simp

end Sequencing

end Icl.Cxx
