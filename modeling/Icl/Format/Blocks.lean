import Mathlib.Data.List.Basic
import Mathlib.Tactic.Ring

namespace Icl.Format

/-!
# A text in blocks

A text is taken in block by block, each of them of `n` elements, by `f : σ → List α → σ`.

* `foldBlocks` — the state after the whole blocks of a text;
* `pending` — what the text holds behind its whole blocks;
* `foldBlocks_append`, `pending_append` — a text in two parts: what is pending from the first one
  stands in front of the second one.
-/

variable {α σ : Type} {n : Nat} {f : σ → List α → σ}

/-- The state after the whole blocks of a text. -/
def foldBlocks (n : Nat) (f : σ → List α → σ) (st : σ) (text : List α) : σ :=
  (List.range (text.length / n)).foldl (fun st k => f st ((text.drop (n * k)).take n)) st

/-- What the text holds behind its whole blocks. -/
def pending (n : Nat) (text : List α) : List α := text.drop (n * (text.length / n))

theorem length_pending (n : Nat) (text : List α) : (pending n text).length = text.length % n := by
  have hdiv := Nat.div_add_mod text.length n
  rw [pending, List.length_drop]
  omega

/-- Less than a block. -/
theorem foldBlocks_of_lt {text : List α} (h : text.length < n) (st : σ) :
    foldBlocks n f st text = st := by
  rw [foldBlocks, Nat.div_eq_of_lt h]
  rfl

theorem pending_of_lt {text : List α} (h : text.length < n) : pending n text = text := by
  rw [pending, Nat.div_eq_of_lt h, Nat.mul_zero, List.drop_zero]

section Block

variable {block : List α} (hn : 0 < n) (hblock : block.length = n)

include hn hblock

theorem length_block_append (text : List α) :
    (block ++ text).length / n = text.length / n + 1 := by
  rw [List.length_append, hblock, Nat.add_div_left _ hn]

/-- A block in front. -/
theorem foldBlocks_block (st : σ) (text : List α) :
    foldBlocks n f st (block ++ text) = foldBlocks n f (f st block) text := by
  unfold foldBlocks
  -- Block `k + 1` of the whole is block `k` of the text.
  have htail : ∀ k, (block ++ text).drop (n * (k + 1)) = text.drop (n * k) := by
    intro k
    rw [show n * (k + 1) = block.length + n * k by rw [hblock]; ring, List.drop_length_add_append]
  rw [length_block_append hn hblock, List.range_succ_eq_map, List.foldl_cons, List.foldl_map,
    Nat.mul_zero, List.drop_zero, List.take_left' hblock]
  simp only [Nat.succ_eq_add_one, htail]

theorem pending_block (text : List α) : pending n (block ++ text) = pending n text := by
  unfold pending
  rw [length_block_append hn hblock,
    show n * (text.length / n + 1) = block.length + n * (text.length / n) by rw [hblock]; ring,
    List.drop_length_add_append]

end Block

/-- The text from block to block: every text is less than a block, or has one in front. -/
theorem blocks_induction (hn : 0 < n) {motive : List α → Prop}
    (short : ∀ text, text.length < n → motive text)
    (block : ∀ block text, block.length = n → motive text → motive (block ++ text))
    (text : List α) : motive text := by
  induction hlen : text.length using Nat.strong_induction_on generalizing text with
  | _ len ih =>
    by_cases hshort : text.length < n
    · exact short text hshort
    · have htake : (text.take n).length = n := List.length_take_of_le (by omega)
      have hdrop : (text.drop n).length < len := by
        rw [List.length_drop]
        omega
      rw [← List.take_append_drop n text]
      exact block _ _ htake (ih _ hdrop _ rfl)

/-- **A text in two parts.** -/
theorem foldBlocks_append (hn : 0 < n) (st : σ) (first second : List α) :
    foldBlocks n f st (first ++ second)
      = foldBlocks n f (foldBlocks n f st first) (pending n first ++ second) := by
  induction first using blocks_induction hn generalizing st with
  | short first h => rw [foldBlocks_of_lt h, pending_of_lt h]
  | block block first hblock ih =>
    rw [List.append_assoc, foldBlocks_block hn hblock, foldBlocks_block hn hblock,
      pending_block hn hblock, ih]

theorem pending_append (hn : 0 < n) (first second : List α) :
    pending n (first ++ second) = pending n (pending n first ++ second) := by
  induction first using blocks_induction hn with
  | short first h => rw [pending_of_lt h]
  | block block first hblock ih =>
    rw [List.append_assoc, pending_block hn hblock, pending_block hn hblock, ih]

/-- How many blocks there are. -/
theorem blocks_append (hn : 0 < n) (first second : List α) :
    (first ++ second).length / n
      = first.length / n + (pending n first ++ second).length / n := by
  have hdiv := Nat.div_add_mod first.length n
  have hlength : (first ++ second).length
      = n * (first.length / n) + (pending n first ++ second).length := by
    rw [List.length_append, List.length_append, length_pending]
    omega
  rw [hlength, Nat.mul_add_div hn]

end Icl.Format
