import Icl.Transition.Loop

namespace Icl.Transition

open Icl.Cxx

/-!
# Loops with a 32-bit counter

`for (uint32_t i = 0; i < n; i++)` over a state of any kind, where `n` may be a number of 64 bits.

* `countTo_invariant` — the rule for a bound that the counter reaches;
* `countTo_endless` — with any other bound the counter wraps, and the loop never ends.
-/

section Count

variable {σ : Type} {n : Nat} {body : Nat → σ → Except Fault σ}

/-- One turn: the counter and the state. -/
def countTurn (n : Nat) (body : Nat → σ → Except Fault σ) (st : UInt32 × σ) :
    Except Fault (Turn (UInt32 × σ) σ) :=
  if st.1.toNat < n then do
    let next ← body st.1.toNat st.2
    return .next (st.1 + 1, next)
  else return .stop st.2

/-- The loop.  One that ends does so in 2^32 turns. -/
def countTo (n : Nat) (body : Nat → σ → Except Fault σ) (st : σ) : Except Fault σ :=
  loop (countTurn n body) (2 ^ 32) (0, st)

/-- A turn below the bound. -/
theorem countTurn_of_lt {i : UInt32} {st next : σ} (hi : i.toNat < n)
    (hbody : body i.toNat st = .ok next) :
    countTurn n body (i, st) = .ok (.next (i + 1, next)) := by
  unfold countTurn
  rw [if_pos hi, hbody]
  rfl

/-- What remains of the loop, from the counter `i` on. -/
theorem loop_count {Inv : Nat → σ → Prop} (hn : n < 2 ^ 32)
    (hbody : ∀ i < n, ∀ st, Inv i st → ∃ next, body i st = .ok next ∧ Inv (i + 1) next)
    {i : UInt32} {fuel : Nat} {st : σ} (hi : i.toNat ≤ n) (hfuel : n - i.toNat < fuel)
    (hst : Inv i.toNat st) :
    ∃ last, loop (countTurn n body) fuel (i, st) = .ok last ∧ Inv n last := by
  induction hk : n - i.toNat generalizing i fuel st with
  | zero =>
    obtain ⟨fuel, rfl⟩ := Nat.exists_eq_succ_of_ne_zero (by omega : fuel ≠ 0)
    have hturn : countTurn n body (i, st) = .ok (.stop st) := if_neg (by show ¬ i.toNat < n; omega)
    refine ⟨st, ?_, ?_⟩
    · simp [loop, hturn]
    · rwa [show n = i.toNat by omega]
  | succ k ih =>
    obtain ⟨fuel, rfl⟩ := Nat.exists_eq_succ_of_ne_zero (by omega : fuel ≠ 0)
    obtain ⟨next, hnext, hinv⟩ := hbody i.toNat (by omega) st hst
    have hturn := countTurn_of_lt (n := n) (by omega) hnext
    have hsucc : (i + 1).toNat = i.toNat + 1 := by
      rw [UInt32.toNat_add, UInt32.toNat_one, Nat.mod_eq_of_lt (by omega)]
    rw [← hsucc] at hinv
    simp only [loop, hturn, ok_bind]
    exact ih (by omega) (by omega) hinv (by omega)

/-- **The rule.**  What the body carries from each count to the next holds at the end. -/
theorem countTo_invariant {Inv : Nat → σ → Prop} (hn : n < 2 ^ 32)
    (hbody : ∀ i < n, ∀ st, Inv i st → ∃ next, body i st = .ok next ∧ Inv (i + 1) next)
    {st : σ} (hst : Inv 0 st) : ∃ last, countTo n body st = .ok last ∧ Inv n last :=
  loop_count hn hbody (Nat.zero_le _) hn hst

/-- With a bound that the counter never reaches. -/
theorem countTo_endless {Inv : σ → Prop} (hn : 2 ^ 32 ≤ n)
    (hbody : ∀ i < n, ∀ st, Inv st → ∃ next, body i st = .ok next ∧ Inv next)
    {st : σ} (hst : Inv st) : countTo n body st = .error .endlessLoop := by
  have key : ∀ (fuel : Nat) (i : UInt32) (st : σ), Inv st →
      loop (countTurn n body) fuel (i, st) = .error .endlessLoop := by
    intro fuel
    induction fuel with
    | zero => exact fun _ _ _ => rfl
    | succ fuel ih =>
      intro i st hst
      have hi : i.toNat < n := lt_of_lt_of_le i.toNat_lt hn
      obtain ⟨next, hnext, hinv⟩ := hbody i.toNat hi st hst
      simp only [loop, countTurn_of_lt hi hnext, ok_bind]
      exact ih (i + 1) next hinv
  exact key _ 0 st hst

end Count

end Icl.Transition
