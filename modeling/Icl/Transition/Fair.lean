import Mathlib.Order.Nat

namespace Icl.Transition

/-!
# Endless schedules

A machine whose steps are all defined, `step : σ → α → σ`, and a schedule of its actions that never
ends; an action may belong to a process.

* `stateAt` — the state after some actions;
* `invariant_at` — what each step preserves holds at all times;
* `Fair` — every process acts again and again;
* `eventually_of_helpful` — the rule for what happens at last.
-/

variable {σ α ι : Type} {step : σ → α → σ} {schedule : ℕ → α}

/-- The state after the first `n` actions. -/
def stateAt (step : σ → α → σ) (s : σ) (schedule : ℕ → α) : ℕ → σ
  | 0 => s
  | n + 1 => step (stateAt step s schedule n) (schedule n)

/-- **The invariant rule**, from a time on at which all steps meet a condition. -/
theorem invariant_at {Inv : σ → Prop} {C : σ → α → Prop}
    (hstep : ∀ s a, C s a → Inv s → Inv (step s a)) {s : σ} {start : ℕ}
    (hC : ∀ n ≥ start, C (stateAt step s schedule n) (schedule n))
    (hs : Inv (stateAt step s schedule start)) :
    ∀ n ≥ start, Inv (stateAt step s schedule n) := by
  intro n hn
  induction n, hn using Nat.le_induction with
  | base => exact hs
  | succ n hn ih => exact hstep _ _ (hC n hn) ih

/-- Every process acts again and again. -/
def Fair (process : α → Option ι) (schedule : ℕ → α) : Prop :=
  ∀ i n, ∃ m ≥ n, process (schedule m) = some i

section Helpful

variable {process : α → Option ι} {Inv Goal : σ → Prop} {Helps : ι → σ → Prop} {μ : σ → ℕ}
  {C : σ → α → Prop} {s : σ}
  (hstep : ∀ s a, C s a → Inv s → Inv (step s a))
  (hkeep : ∀ s a i, C s a → Inv s → Helps i s →
    μ (step s a) < μ s ∨ process a ≠ some i ∧ μ (step s a) ≤ μ s ∧ Helps i (step s a))
include hstep hkeep

/-- The helpful process stays so until the measure is smaller. -/
theorem helps_until {start : ℕ} {i : ι}
    (hC : ∀ n ≥ start, C (stateAt step s schedule n) (schedule n))
    (hs : Inv (stateAt step s schedule start)) (hhelps : Helps i (stateAt step s schedule start)) :
    ∀ n ≥ start, (∃ m ≥ start,
        μ (stateAt step s schedule m) < μ (stateAt step s schedule start)) ∨
      μ (stateAt step s schedule n) ≤ μ (stateAt step s schedule start) ∧
        Helps i (stateAt step s schedule n) := by
  intro n hn
  induction n, hn using Nat.le_induction with
  | base => exact .inr ⟨le_rfl, hhelps⟩
  | succ n hn ih =>
    obtain hless | ⟨hle, hn'⟩ := ih
    · exact .inl hless
    · have hinv := invariant_at hstep hC hs n hn
      obtain hlt | ⟨-, hle', hnext⟩ := hkeep _ (schedule n) i (hC n hn) hinv hn'
      · exact .inl ⟨n + 1, by omega, lt_of_lt_of_le hlt hle⟩
      · exact .inr ⟨le_trans hle' hle, hnext⟩

/-- **The rule for what happens at last.**  Where the goal is not reached there is a helpful
    process.  It stays so, and its next action makes the measure smaller, unless another action
    does so before.  Then a fair schedule reaches the goal. -/
theorem eventually_of_helpful (hhelps : ∀ s, Inv s → ¬ Goal s → ∃ i, Helps i s)
    (hfair : Fair process schedule) {start : ℕ}
    (hC : ∀ n ≥ start, C (stateAt step s schedule n) (schedule n))
    (hs : Inv (stateAt step s schedule start)) :
    ∃ n ≥ start, Goal (stateAt step s schedule n) := by
  induction hμ : μ (stateAt step s schedule start) using Nat.strong_induction_on
    generalizing start with
  | h k ih =>
    subst hμ
    by_cases hgoal : Goal (stateAt step s schedule start)
    · exact ⟨start, le_rfl, hgoal⟩
    obtain ⟨i, hi⟩ := hhelps _ hs hgoal
    obtain ⟨m, hm, hprocess⟩ := hfair i start
    -- The measure is smaller before the process acts, or after it has.
    have hless : ∃ n ≥ start, μ (stateAt step s schedule n)
        < μ (stateAt step s schedule start) := by
      obtain hless | ⟨hle, hhelps'⟩ := helps_until hstep hkeep hC hs hi m hm
      · exact hless
      · have hinv := invariant_at hstep hC hs m hm
        obtain hlt | ⟨hother, -⟩ := hkeep _ (schedule m) i (hC m hm) hinv hhelps'
        · exact ⟨m + 1, by omega, lt_of_lt_of_le hlt hle⟩
        · exact absurd hprocess hother
    obtain ⟨n, hn, hlt⟩ := hless
    have hC' : ∀ n' ≥ n, C (stateAt step s schedule n') (schedule n') :=
      fun n' hn' => hC n' (le_trans hn hn')
    obtain ⟨n', hn', hgoal'⟩ := ih _ hlt hC' (invariant_at hstep hC hs n hn) rfl
    exact ⟨n', le_trans hn hn', hgoal'⟩

end Helpful

end Icl.Transition
