import Icl.Cxx.Bytes

namespace Icl.Transition

open Icl.Cxx

/-!
# Runs of a machine whose steps may be undefined

A machine is a function `step : σ → α → Except Fault σ` on states `σ` and actions `α`.

* `run` — the actions one after the other, up to the first fault;
* `Along` — a condition that every step of a run meets, on the state before the step;
* `Somewhere` — a condition that some step of a run meets;
* `invariant_along` — what each step that meets the condition preserves, a run whose steps
  all meet it preserves;
* `invariant_run`, `throughout_run`, `along_run` — the same without a condition;
* `invariant_promised` — the same under a promise on the whole run;
* `along_congr`, `along_iff_along` — conditions that agree where an invariant holds;
* `run_append`, `along_append` — a run in two parts;
* `run_rel` — what relates the states before and after each step relates those before and after
  a run;
* `throughout_along` — runs that stay defined as long as every step meets a condition;
* `throughout_iff_along` — a condition on the steps that a property of the states comes down to.
-/

variable {σ α : Type} {step : σ → α → Except Fault σ}

/-- The actions, one after the other. -/
def run (step : σ → α → Except Fault σ) : σ → List α → Except Fault σ
  | s, [] => .ok s
  | s, a :: as => do
    let s ← step s a
    run step s as

/-- Every step of the run meets `P`. -/
def Along (step : σ → α → Except Fault σ) (P : σ → α → Prop) : σ → List α → Prop
  | _, [] => True
  | s, a :: as => P s a ∧ ∀ s', step s a = .ok s' → Along step P s' as

/-- Some step of the run meets `P`. -/
def Somewhere (step : σ → α → Except Fault σ) (P : σ → α → Prop) : σ → List α → Prop
  | _, [] => False
  | s, a :: as => P s a ∨ ∃ s', step s a = .ok s' ∧ Somewhere step P s' as

/-- Every state of the run, the first and the last among them, meets `P`. -/
def Throughout (step : σ → α → Except Fault σ) (P : σ → Prop) : σ → List α → Prop
  | s, [] => P s
  | s, a :: as => P s ∧ ∀ s', step s a = .ok s' → Throughout step P s' as

instance Along.decidable {P : σ → α → Prop} [∀ s a, Decidable (P s a)] :
    (s : σ) → (as : List α) → Decidable (Along step P s as)
  | _, [] => isTrue trivial
  | s, a :: as =>
    match h : step s a with
    | .error _ => decidable_of_iff (P s a) (by simp [Along, h])
    | .ok s' =>
      have : Decidable (Along step P s' as) := Along.decidable s' as
      decidable_of_iff (P s a ∧ Along step P s' as) (by simp [Along, h])

@[simp] theorem run_nil (s : σ) : run step s [] = .ok s := rfl

theorem run_cons (s : σ) (a : α) (as : List α) :
    run step s (a :: as) = step s a >>= fun s => run step s as := rfl

/-- One part of a run after the other. -/
theorem run_append (s : σ) (as bs : List α) :
    run step s (as ++ bs) = run step s as >>= fun s => run step s bs := by
  induction as generalizing s with
  | nil => rfl
  | cons a as ih =>
    rw [List.cons_append, run_cons, run_cons]
    rcases step s a with e | s₁
    · rfl
    · exact ih s₁

theorem along_append {P : σ → α → Prop} {s : σ} {as bs : List α} :
    Along step P s (as ++ bs)
      ↔ Along step P s as ∧ ∀ s', run step s as = .ok s' → Along step P s' bs := by
  induction as generalizing s with
  | nil => exact ⟨fun h => ⟨trivial, fun s' hs' => Except.ok.inj hs' ▸ h⟩, fun h => h.2 s rfl⟩
  | cons a as ih =>
    rw [List.cons_append, Along, Along, and_assoc]
    refine and_congr_right fun _ => ?_
    constructor
    · intro h
      refine ⟨fun s₁ hs₁ => (ih.mp (h s₁ hs₁)).1, fun s' hs' => ?_⟩
      obtain ⟨s₁, hs₁, hrest⟩ := bind_eq_ok.mp hs'
      exact (ih.mp (h s₁ hs₁)).2 s' hrest
    · rintro ⟨hfirst, hsecond⟩ s₁ hs₁
      refine ih.mpr ⟨hfirst s₁ hs₁, fun s' hs' => hsecond s' ?_⟩
      rw [run_cons, hs₁]
      exact hs'

/-- **The invariant rule.** -/
theorem invariant_along {P : σ → α → Prop} {Inv : σ → Prop}
    (hstep : ∀ s a s', P s a → step s a = .ok s' → Inv s → Inv s') {s s' : σ} {as : List α}
    (halong : Along step P s as) (hrun : run step s as = .ok s') (hs : Inv s) : Inv s' := by
  induction as generalizing s with
  | nil =>
    cases hrun
    exact hs
  | cons a as ih =>
    obtain ⟨s₁, h₁, hrest⟩ := bind_eq_ok.mp hrun
    exact ih (halong.2 s₁ h₁) hrest (hstep s a s₁ halong.1 h₁ hs)

/-- **The rule for relations.**  A preorder that contains every step contains every run. -/
theorem run_rel {R : σ → σ → Prop} (hrefl : ∀ s, R s s)
    (htrans : ∀ s s₁ s₂, R s s₁ → R s₁ s₂ → R s s₂)
    (hstep : ∀ s a s', step s a = .ok s' → R s s') {s s' : σ} {as : List α}
    (hrun : run step s as = .ok s') : R s s' := by
  induction as generalizing s with
  | nil =>
    cases hrun
    exact hrefl _
  | cons a as ih =>
    obtain ⟨s₁, h₁, hrest⟩ := bind_eq_ok.mp hrun
    exact htrans s s₁ s' (hstep s a s₁ h₁) (ih hrest)

/-- **The invariant rule**, where every step preserves the invariant. -/
theorem invariant_run {Inv : σ → Prop} (hstep : ∀ s a s', step s a = .ok s' → Inv s → Inv s')
    {s s' : σ} {as : List α} (hrun : run step s as = .ok s') (hs : Inv s) : Inv s' :=
  run_rel (R := fun s s' => Inv s → Inv s') (fun _ => id) (fun _ _ _ h₁ h₂ hs => h₂ (h₁ hs)) hstep
    hrun hs

/-- **The invariant rule under a promise.**  A promise that is kept at the end of a run only if it
    was kept before may be used in each step. -/
theorem invariant_promised {Promise Inv : σ → Prop}
    (hback : ∀ s a s', step s a = .ok s' → Promise s' → Promise s)
    (hstep : ∀ s a s', step s a = .ok s' → Promise s' → Inv s → Inv s') {s s' : σ} {as : List α}
    (hrun : run step s as = .ok s') (hkept : Promise s') (hs : Inv s) : Inv s' := by
  have hrel : Promise s' → Promise s ∧ (Inv s → Inv s') := by
    refine run_rel (R := fun s s' => Promise s' → Promise s ∧ (Inv s → Inv s'))
      (fun _ h => ⟨h, id⟩) ?_ ?_ hrun
    · intro s s₁ s₂ h h' hkept
      obtain ⟨hkept₁, hinv'⟩ := h' hkept
      obtain ⟨hkept₀, hinv⟩ := h hkept₁
      exact ⟨hkept₀, hinv' ∘ hinv⟩
    · exact fun s a s' hs' hkept => ⟨hback s a s' hs' hkept, hstep s a s' hs' hkept⟩
  exact (hrel hkept).2 hs

/-- An invariant holds throughout a run. -/
theorem throughout_run {Inv : σ → Prop} (hstep : ∀ s a s', step s a = .ok s' → Inv s → Inv s')
    {s : σ} (hs : Inv s) (as : List α) : Throughout step Inv s as := by
  induction as generalizing s with
  | nil => exact hs
  | cons a as ih => exact ⟨hs, fun s' hs' => ih (hstep s a s' hs' hs)⟩

/-- What an invariant gives for every step holds along a run. -/
theorem along_run {P : σ → α → Prop} {Inv : σ → Prop}
    (hstep : ∀ s a s', step s a = .ok s' → Inv s → Inv s') (hP : ∀ s a, Inv s → P s a) {s : σ}
    (hs : Inv s) (as : List α) : Along step P s as := by
  induction as generalizing s with
  | nil => trivial
  | cons a as ih => exact ⟨hP s a hs, fun s' hs' => ih (hstep s a s' hs' hs)⟩

/-- Conditions that agree where an invariant holds agree along a run. -/
theorem along_congr {P Q : σ → α → Prop} {Inv : σ → Prop}
    (hstep : ∀ s a s', step s a = .ok s' → Inv s → Inv s')
    (hPQ : ∀ s a, Inv s → (P s a ↔ Q s a)) {s : σ} (hs : Inv s) (as : List α) :
    Along step P s as ↔ Along step Q s as := by
  induction as generalizing s with
  | nil => rfl
  | cons a as ih =>
    exact and_congr (hPQ s a hs) (forall_congr' fun s' => forall_congr' fun hs' =>
      ih (hstep s a s' hs' hs))

/-- **The rule for two conditions.**  Conditions that agree where an invariant holds, and that keep
    it, agree along a run. -/
theorem along_iff_along {P Q : σ → α → Prop} {Inv : σ → Prop}
    (hPQ : ∀ s a, Inv s → (P s a ↔ Q s a))
    (hkeep : ∀ s a s', Inv s → Q s a → step s a = .ok s' → Inv s') {s : σ} (hs : Inv s)
    (as : List α) : Along step P s as ↔ Along step Q s as := by
  induction as generalizing s with
  | nil => rfl
  | cons a as ih =>
    rw [Along, Along, hPQ s a hs]
    exact and_congr_right fun hQ => forall₂_congr fun s' hs' => ih (hkeep s a s' hs hQ hs')

theorem Throughout.head {P : σ → Prop} {s : σ} {as : List α} (h : Throughout step P s as) :
    P s := by
  cases as with
  | nil => exact h
  | cons a as => exact h.1

theorem Throughout.mono {P Q : σ → Prop} (h : ∀ s, P s → Q s) {s : σ} {as : List α}
    (hP : Throughout step P s as) : Throughout step Q s as := by
  induction as generalizing s with
  | nil => exact h s hP
  | cons a as ih => exact ⟨h s hP.1, fun s' hs' => ih (hP.2 s' hs')⟩

/-- The last state of a run is one of its states. -/
theorem Throughout.last {P : σ → Prop} {s s' : σ} {as : List α} (h : Throughout step P s as)
    (hrun : run step s as = .ok s') : P s' := by
  induction as generalizing s with
  | nil =>
    cases hrun
    exact h
  | cons a as ih =>
    obtain ⟨s₁, h₁, hrest⟩ := bind_eq_ok.mp hrun
    exact ih (h.2 s₁ h₁) hrest

/-- **The rule for runs without a fault.**  If a step that meets the condition is defined and
    preserves the invariant, so does a run whose steps all meet it. -/
theorem throughout_along {Inv : σ → Prop} {C : σ → α → Prop}
    (hstep : ∀ s a, C s a → Inv s → ∃ s', step s a = .ok s' ∧ Inv s') {s : σ} {as : List α}
    (halong : Along step C s as) (hs : Inv s) :
    Defined (run step s as) ∧ Throughout step Inv s as := by
  induction as generalizing s with
  | nil => exact ⟨defined_ok s, hs⟩
  | cons a as ih =>
    obtain ⟨s₁, h₁, hinv⟩ := hstep s a halong.1 hs
    obtain ⟨hrun, hrest⟩ := ih (halong.2 s₁ h₁) hinv
    rw [run_cons, h₁]
    refine ⟨hrun, hs, fun s' hs' => ?_⟩
    -- The step has one outcome.
    obtain rfl : s₁ = s' := by
      rw [h₁] at hs'
      exact Except.ok.inj hs'
    exact hrest

/-- **The exact rule.**  If the invariant gives the property, a step that meets the condition keeps
    the invariant, and one that does not meet it breaks the property, then the property holds
    throughout the runs whose steps all meet the condition, and no others. -/
theorem throughout_iff_along {Inv P : σ → Prop} {C : σ → α → Prop} (hP : ∀ s, Inv s → P s)
    (hkeep : ∀ s a s', Inv s → C s a → step s a = .ok s' → Inv s')
    (hbreak : ∀ s a, Inv s → ¬ C s a → ∃ s', step s a = .ok s' ∧ ¬ P s')
    {s : σ} (hs : Inv s) (as : List α) : Throughout step P s as ↔ Along step C s as := by
  induction as generalizing s with
  | nil => exact ⟨fun _ => trivial, fun _ => hP s hs⟩
  | cons a as ih =>
    constructor
    · rintro ⟨-, hrest⟩
      have hC : C s a := by
        by_contra hC
        obtain ⟨s', hs', hnot⟩ := hbreak s a hs hC
        exact hnot (hrest s' hs').head
      exact ⟨hC, fun s' hs' => (ih (hkeep s a s' hs hC hs')).mp (hrest s' hs')⟩
    · rintro ⟨hC, hrest⟩
      exact ⟨hP s hs, fun s' hs' => (ih (hkeep s a s' hs hC hs')).mpr (hrest s' hs')⟩

end Icl.Transition
