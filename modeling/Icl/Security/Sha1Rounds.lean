import Icl.Format.Fips180
import Icl.Security.ShaOne

namespace Icl.Security

open Icl.Cxx Icl.Format

/-!
# The rounds of `Sha1::Transform`

The eighty macro calls as they are written, with the variables of each, and the block of sixteen
words that they write over.

* `round` — one call, after which the variables have moved on by one place;
* `runCalls_eq` — the calls are the rounds, since the variables are back in their places after five
  calls;
* `Recent`, `recent_round` — the block holds the last sixteen words of the schedule;
* `rounds_eq` — the rounds are those of the standard.
-/

namespace Sha1

/-! ### The rounds -/

/-- The function and the constant of round `i`, as in the macros `R0` to `R4`. -/
def mix (i : Nat) (w x y : UInt32) : UInt32 :=
  if i < 20 then ((w &&& (x ^^^ y)) ^^^ y) + 0x5a827999
  else if i < 40 then (w ^^^ x ^^^ y) + 0x6ed9eba1
  else if i < 60 then (((w ||| x) &&& y) ||| (w &&& x)) + 0x8f1bbcdc
  else (w ^^^ x ^^^ y) + 0xca62c1d6

/-- One call of `R0` to `R4` and the rotation of the arguments up to the next one. -/
def round (s : Digest × List UInt32) (i : Nat) : Digest × List UInt32 :=
  let (⟨v, w, x, y, z⟩, block) := s
  let block := if i < 16 then block else blk block i
  (⟨z + mix i w x y + word block i + rol v 5, v, rol w 30, x, y⟩, block)

/-! ### The variables of a call -/

/-- The variable that a call has in the place of one of the call before it. -/
def Var.prev : Var → Var
  | .a => .e
  | .b => .a
  | .c => .b
  | .d => .c
  | .e => .d

/-- The variable that call `i` has in the place of one of the first call. -/
def turned : Nat → Var → Var
  | 0, x => x
  | i + 1, x => turned i x.prev

/-- No two letters have the same one before them. -/
theorem prev_injective : Function.Injective Var.prev := by
  intro x y h
  cases x <;> cases y <;> first | rfl | exact absurd h (by decide)

/-- However often the letters are turned, no two fall together. -/
theorem turned_injective (i : Nat) : Function.Injective (turned i) := by
  induction i with
  | zero => exact fun _ _ h => h
  | succ i ih => exact ih.comp prev_injective

/-- The macro of call `i`. -/
def roundOf (i : Nat) : Var → Var → Var → Var → Var → Nat → Working → Working :=
  if i < 16 then R0 else if i < 20 then R1 else if i < 40 then R2 else if i < 60 then R3 else R4

/-- Call `i`. -/
def call (i : Nat) : Working → Working :=
  roundOf i (turned i .a) (turned i .b) (turned i .c) (turned i .d) (turned i .e) i

set_option maxRecDepth 4000 in
/-- The calls as they are written. -/
theorem calls_eq_map : calls = (List.range 80).map call := rfl

/-! ### The calls are the rounds -/

section Assign

variable {v w z : Var} (term constant : UInt32) (r : Digest)

/-- A round leaves the letters alone it does not assign to. -/
theorem get_assign_of_ne {x : Var} (hz : x ≠ z) (hw : x ≠ w) :
    (assign v w z term constant r).get x = r.get x := by
  rw [assign, Digest.get_set_of_ne _ hw, Digest.get_set_of_ne _ hz]

/-- It turns the letter `w` by 30. -/
theorem get_assign_w : w ≠ z → (assign v w z term constant r).get w = rol (r.get w) 30 := by
  intro hwz
  rw [assign, Digest.get_set_self, Digest.get_set_of_ne _ hwz]

/-- And it adds to the letter `z`. -/
theorem get_assign_z : w ≠ z → (assign v w z term constant r).get z
    = r.get z + (term + constant + rol (r.get v) 5) := by
  intro hwz
  rw [assign, Digest.get_set_of_ne _ hwz.symm, Digest.get_set_self]

end Assign

/-- The block, with the word of round `i`. -/
def blockFor (i : Nat) (block : List UInt32) : List UInt32 :=
  if i < 16 then block else blk block i

/-- **One round of the standard**, its letters written out. -/
theorem round_eq (r : Digest) (block : List UInt32) (i : Nat) :
    round (r, block) i
      = (⟨r.e + mix i r.b r.c r.d + word (blockFor i block) i + rol r.a 5, r.a, rol r.b 30, r.c,
          r.d⟩, blockFor i block) := rfl

/-- Two summands change places. -/
theorem add_swap (x y z : UInt32) : x + y + z = x + z + y := by
  rw [UInt32.add_assoc, UInt32.add_comm y, ← UInt32.add_assoc]

/-- A call, whichever macro it is of. -/
theorem call_eq (i : Nat) (r : Digest) (block : List UInt32) :
    ∃ term constant,
      call i (r, block)
        = (assign (turned i .a) (turned i .b) (turned i .e) term constant r, blockFor i block) ∧
      term + constant
        = mix i (r.get (turned i .b)) (r.get (turned i .c)) (r.get (turned i .d))
          + word (blockFor i block) i := by
  unfold call roundOf blockFor mix
  by_cases h₁₆ : i < 16
  · refine ⟨_, _, by rw [if_pos h₁₆, if_pos h₁₆]; rfl, ?_⟩
    rw [if_pos (by omega), if_pos h₁₆, word, Nat.mod_eq_of_lt h₁₆, add_swap]
  by_cases h₂₀ : i < 20
  · refine ⟨_, _, by rw [if_neg h₁₆, if_neg h₁₆, if_pos h₂₀]; rfl, ?_⟩
    rw [if_pos h₂₀, if_neg h₁₆, add_swap]
  by_cases h₄₀ : i < 40
  · refine ⟨_, _, by rw [if_neg h₁₆, if_neg h₁₆, if_neg h₂₀, if_pos h₄₀]; rfl, ?_⟩
    rw [if_neg h₂₀, if_pos h₄₀, if_neg h₁₆, add_swap]
  by_cases h₆₀ : i < 60
  · refine ⟨_, _, by rw [if_neg h₁₆, if_neg h₁₆, if_neg h₂₀, if_neg h₄₀, if_pos h₆₀]; rfl, ?_⟩
    rw [if_neg h₂₀, if_neg h₄₀, if_pos h₆₀, if_neg h₁₆, add_swap]
  · refine ⟨_, _, by rw [if_neg h₁₆, if_neg h₁₆, if_neg h₂₀, if_neg h₄₀, if_neg h₆₀]; rfl, ?_⟩
    rw [if_neg h₂₀, if_neg h₄₀, if_neg h₆₀, if_neg h₁₆, add_swap]

/-- The variables, in the places that they have in call `i`, are those of round `i`. -/
structure Holds (i : Nat) (s t : Working) : Prop where
  get_eq : ∀ x, s.1.get (turned i x) = t.1.get x
  block_eq : s.2 = t.2

/-- One call. -/
theorem Holds.call {i : Nat} {s t : Working} (h : Holds i s t) :
    Holds (i + 1) (call i s) (round t i) := by
  obtain ⟨r, block⟩ := s
  obtain ⟨r', block'⟩ := t
  obtain ⟨hget, rfl⟩ := h
  obtain ⟨term, constant, hcall, hterm⟩ := call_eq i r block
  -- The five variables of a call are five.
  have hne : ∀ {x y : Var}, x ≠ y → turned i x ≠ turned i y := fun hxy h =>
    hxy (turned_injective i h)
  rw [hget, hget, hget] at hterm
  rw [hcall, round_eq]
  refine ⟨fun x => ?_, rfl⟩
  show (assign _ _ _ term constant r).get (turned i x.prev) = _
  -- The next call has its five variables one place further.
  cases x with
  | a =>
    show (assign _ _ _ term constant r).get (turned i .e) = _
    rw [get_assign_z _ _ _ (hne (by decide)), hterm, hget, hget]
    show r'.e + (mix i r'.b r'.c r'.d + word (blockFor i block) i + rol r'.a 5) = _
    rw [← UInt32.add_assoc, ← UInt32.add_assoc]
    rfl
  | b => exact (get_assign_of_ne _ _ _ (hne (by decide)) (hne (by decide))).trans (hget .a)
  | c =>
    show (assign _ _ _ term constant r).get (turned i .b) = _
    rw [get_assign_w _ _ _ (hne (by decide)), hget]
    rfl
  | d => exact (get_assign_of_ne _ _ _ (hne (by decide)) (hne (by decide))).trans (hget .c)
  | e => exact (get_assign_of_ne _ _ _ (hne (by decide)) (hne (by decide))).trans (hget .d)

/-- **After any number of calls** the letters hold what the rounds of the standard give, turned. -/
theorem holds_calls (s : Working) (n : Nat) :
    Holds n ((List.range n).foldl (fun s i => Sha1.call i s) s) ((List.range n).foldl round s) := by
  induction n with
  | zero => exact ⟨fun _ => rfl, rfl⟩
  | succ n ih =>
    rw [List.range_succ, List.foldl_append, List.foldl_append]
    exact ih.call

/-- **The calls are the rounds.** -/
theorem runCalls_eq (s : Working) : runCalls s = (List.range 80).foldl round s := by
  have h := holds_calls s 80
  have hcalls : runCalls s = (List.range 80).foldl (fun s i => Sha1.call i s) s := by
    rw [runCalls, calls_eq_map, List.foldl_map]
  rw [hcalls]
  obtain ⟨hget, hblock⟩ := h
  -- Eighty calls are sixteen times five: each variable is in its place again.
  have hturned : ∀ x, turned 80 x = x := by
    intro x
    cases x <;> rfl
  simp only [hturned] at hget
  have hdigest : ∀ r r' : Digest, (∀ x, r.get x = r'.get x) → r = r' := by
    intro r r' h
    obtain ⟨a, b, c, d, e⟩ := r
    obtain ⟨a', b', c', d', e'⟩ := r'
    obtain rfl : a = a' := h .a
    obtain rfl : b = b' := h .b
    obtain rfl : c = c' := h .c
    obtain rfl : d = d' := h .d
    obtain rfl : e = e' := h .e
    rfl
  exact Prod.ext (hdigest _ _ hget) hblock

/-! ### The block holds the last words of the schedule -/

/-- The block at the head of round `n`: the word of every round from `n - 16` on, and those of the
    first sixteen rounds from the start. -/
structure Recent (ws : Nat → UInt32) (n : Nat) (block : List UInt32) : Prop where
  length_eq : block.length = 16
  word_eq : ∀ t, t < max n 16 → max n 16 ≤ t + 16 → word block t = ws t

/-- Only the index modulo 16 counts. -/
theorem word_congr (block : List UInt32) {i j : Nat} (h : i % 16 = j % 16) :
    word block i = word block j := by
  rw [word, word, h]

/-- `blk` writes the word of its round. -/
theorem word_blk_self {block : List UInt32} (hlen : block.length = 16) (i : Nat) :
    word (blk block i) i
      = rol (word block (i + 13) ^^^ word block (i + 8) ^^^ word block (i + 2) ^^^ word block i)
          1 := by
  have hlt : i % 16 < block.length := by omega
  rw [word, blk, List.getD_eq_getElem?_getD, List.getElem?_set_self hlt, Option.getD_some]

/-- And no other one. -/
theorem word_blk_of_ne (block : List UInt32) {i j : Nat} (h : i % 16 ≠ j % 16) :
    word (blk block i) j = word block j := by
  rw [word, blk, List.getD_eq_getElem?_getD, List.getElem?_set_ne h,
    ← List.getD_eq_getElem?_getD]
  rfl

/-- One round. -/
theorem Recent.round {words : List UInt32} {n : Nat} {block : List UInt32}
    (hwords : words.length = 16) (h : Recent (Fips180.word160 words) n block) (hn : n < 80) :
    Recent (Fips180.word160 words) (n + 1) (blockFor n block) ∧
      word (blockFor n block) n = Fips180.word160 words n := by
  unfold blockFor
  by_cases h₁₆ : n < 16
  · rw [if_pos h₁₆]
    exact ⟨⟨h.length_eq, fun t ht₁ ht₂ => h.word_eq t (by omega) (by omega)⟩,
      h.word_eq n (by omega) (by omega)⟩
  · -- `blk` reads the words of rounds n - 3, n - 8, n - 14 and n - 16, at their indices modulo 16.
    have hnew : word (blk block n) n = Fips180.word160 words n := by
      rw [word_blk_self h.length_eq, Fips180.word160_next hwords (by omega) hn,
        word_congr block (show (n + 13) % 16 = (n - 3) % 16 by omega),
        word_congr block (show (n + 8) % 16 = (n - 8) % 16 by omega),
        word_congr block (show (n + 2) % 16 = (n - 14) % 16 by omega),
        word_congr block (show n % 16 = (n - 16) % 16 by omega),
        h.word_eq (n - 3) (by omega) (by omega), h.word_eq (n - 8) (by omega) (by omega),
        h.word_eq (n - 14) (by omega) (by omega), h.word_eq (n - 16) (by omega) (by omega)]
      rfl
    rw [if_neg h₁₆]
    refine ⟨⟨by rw [blk, List.length_set, h.length_eq], fun t ht₁ ht₂ => ?_⟩, hnew⟩
    by_cases hlast : t = n
    · rw [hlast, hnew]
    · -- Among the last sixteen words, only that of round `n` stands at its index.
      rw [word_blk_of_ne block (by omega)]
      exact h.word_eq t (by omega) (by omega)

/-! ### The rounds of the standard -/

/-- Words are equal when their bits are. -/
theorem eq_of_bits {x y : UInt32}
    (h : ∀ i < 32, x.toBitVec.getLsbD i = y.toBitVec.getLsbD i) : x = y :=
  UInt32.toBitVec_inj.mp (BitVec.eq_of_getLsbD_eq h)

/-- The way `R0` and `R1` write the choice of two words. -/
theorem choice_eq (w x y : UInt32) : (w &&& (x ^^^ y)) ^^^ y = Fips180.ch w x y := by
  apply eq_of_bits
  intro i hi
  simp only [Fips180.ch, UInt32.toBitVec_xor, UInt32.toBitVec_and, UInt32.toBitVec_not,
    BitVec.getLsbD_xor, BitVec.getLsbD_and, BitVec.getLsbD_not, hi, decide_true, Bool.true_and]
  cases w.toBitVec.getLsbD i <;> cases x.toBitVec.getLsbD i <;> cases y.toBitVec.getLsbD i <;> rfl

/-- The way `R3` writes the majority of three. -/
theorem majority_eq (w x y : UInt32) : ((w ||| x) &&& y) ||| (w &&& x) = Fips180.maj w x y := by
  apply eq_of_bits
  intro i hi
  simp only [Fips180.maj, UInt32.toBitVec_xor, UInt32.toBitVec_and, UInt32.toBitVec_or,
    BitVec.getLsbD_xor, BitVec.getLsbD_and, BitVec.getLsbD_or]
  cases w.toBitVec.getLsbD i <;> cases x.toBitVec.getLsbD i <;> cases y.toBitVec.getLsbD i <;> rfl

/-- The function and the constant of a round. -/
theorem mix_eq (i : Nat) (w x y : UInt32) :
    mix i w x y = Fips180.function160 i w x y + Fips180.constant160 i := by
  unfold mix Fips180.function160 Fips180.constant160
  by_cases h₂₀ : i < 20
  · rw [if_pos h₂₀, if_pos h₂₀, if_pos h₂₀, choice_eq]
  by_cases h₄₀ : i < 40
  · rw [if_neg h₂₀, if_neg h₂₀, if_neg h₂₀, if_pos h₄₀, if_pos h₄₀, if_pos h₄₀]
    rfl
  by_cases h₆₀ : i < 60
  · rw [if_neg h₂₀, if_neg h₂₀, if_neg h₂₀, if_neg h₄₀, if_neg h₄₀, if_neg h₄₀, if_pos h₆₀,
      if_pos h₆₀, if_pos h₆₀, majority_eq]
  · rw [if_neg h₂₀, if_neg h₂₀, if_neg h₂₀, if_neg h₄₀, if_neg h₄₀, if_neg h₄₀, if_neg h₆₀,
      if_neg h₆₀, if_neg h₆₀]
    rfl

end Sha1

/-- The hash value of the standard. -/
def Digest.hash (r : Digest) : Fips180.Hash160 := ⟨r.a, r.b, r.c, r.d, r.e⟩

namespace Sha1

/-- One round. -/
theorem hash_round (words : Nat → UInt32) (r : Digest) {block : List UInt32} {i : Nat}
    (hword : word (blockFor i block) i = words i) :
    (round (r, block) i).1.hash = Fips180.round160 words r.hash i := by
  rw [round_eq, hword, mix_eq]
  unfold Digest.hash Fips180.round160
  dsimp only
  have hsum : r.e + (Fips180.function160 i r.b r.c r.d + Fips180.constant160 i) + words i
        + rol r.a 5
      = Fips180.rotl 5 r.a + Fips180.function160 i r.b r.c r.d + r.e + Fips180.constant160 i
        + words i := by
    show _ = rol r.a 5 + _ + _ + _ + _
    ac_rfl
  rw [hsum]
  rfl

/-- **The rounds are those of the standard.** -/
theorem hash_rounds {block : List UInt32} (hlen : block.length = 16) (r : Digest) :
    ((List.range 80).foldl round (r, block)).1.hash
      = (List.range 80).foldl (Fips180.round160 (Fips180.word160 block)) r.hash := by
  have hrounds : ∀ n ≤ 80,
      ((List.range n).foldl round (r, block)).1.hash
        = (List.range n).foldl (Fips180.round160 (Fips180.word160 block)) r.hash ∧
      Recent (Fips180.word160 block) n ((List.range n).foldl round (r, block)).2 := by
    intro n
    induction n with
    | zero =>
      intro _
      -- The first sixteen words of the schedule are those of the block.
      refine ⟨rfl, hlen, fun t ht _ => ?_⟩
      rw [Fips180.word160_of_lt (by omega), word, Nat.mod_eq_of_lt (by omega)]
      rfl
    | succ n ih =>
      intro hn
      obtain ⟨hhash, hrecent⟩ := ih (by omega)
      obtain ⟨hnext, hword⟩ := hrecent.round hlen (by omega)
      rw [List.range_succ, List.foldl_append, List.foldl_append]
      exact ⟨(hash_round _ _ hword).trans (by rw [hhash]; rfl), hnext⟩
  exact (hrounds 80 le_rfl).1

end Sha1

end Icl.Security
