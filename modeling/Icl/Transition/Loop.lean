import Icl.Cxx.Bytes

namespace Icl.Transition

open Icl.Cxx

/-!
# Loops with an early return

A loop is a function `turn : σ → Except Fault (Turn σ ρ)`: from a state at the head of the
loop, one turn leads to the next state, to the result, or to a fault.

* `loop` — the loop with fuel;
* `Halts` — how the loop ends from a state, without fuel;
* `loop_iterate` — a loop that counts;
* `loop_ensures` — an invariant, and what holds of the result;
* `Returns` — a result that comes with enough fuel, and `returns_loop` for a loop;
* `loop_of_halts`, `halts_total` — the two agree when each turn makes a measure smaller;
* `Leads` — a turn that the loop comes to from a state;
* `Halts.simulation` — a loop ends as one that it simulates.
-/

/-- What a turn leads to. -/
inductive Turn (σ ρ : Type) where
  | next (st : σ)
  | stop (result : ρ)
  deriving Repr

/-- The next state, seen as a state of another kind. -/
def Turn.map {σ τ ρ : Type} (f : σ → τ) : Turn σ ρ → Turn τ ρ
  | .next st => .next (f st)
  | .stop result => .stop result

theorem Turn.map_eq_next {σ τ ρ : Type} {f : σ → τ} {turn : Turn σ ρ} {st : τ} :
    turn.map f = .next st ↔ ∃ st', turn = .next st' ∧ f st' = st := by
  cases turn <;> simp [Turn.map]

theorem Turn.map_eq_stop {σ τ ρ : Type} {f : σ → τ} {turn : Turn σ ρ} {result : ρ} :
    turn.map f = .stop result ↔ turn = .stop result := by
  cases turn <;> simp [Turn.map]

section Loop

variable {σ ρ : Type} {turn : σ → Except Fault (Turn σ ρ)}

/-- At most `fuel` turns; a loop that has not ended by then is taken for an endless one. -/
def loop (turn : σ → Except Fault (Turn σ ρ)) : Nat → σ → Except Fault ρ
  | 0, _ => .error .endlessLoop
  | fuel + 1, st => do
    match ← turn st with
    | .next st => loop turn fuel st
    | .stop result => return result

/-- A turn that goes on. -/
theorem loop_next {st st' : σ} (h : turn st = .ok (.next st')) (fuel : Nat) :
    loop turn (fuel + 1) st = loop turn fuel st' := by
  simp only [loop, h, ok_bind]

/-- A turn that stops. -/
theorem loop_stop {st : σ} {result : ρ} (h : turn st = .ok (.stop result)) (fuel : Nat) :
    loop turn (fuel + 1) st = .ok result := by
  simp only [loop, h, ok_bind, pure_eq_ok]

/-- How the loop ends. -/
inductive Halts (turn : σ → Except Fault (Turn σ ρ)) : σ → Except Fault ρ → Prop where
  | fault {st : σ} {e : Fault} : turn st = .error e → Halts turn st (.error e)
  | stop {st : σ} {result : ρ} : turn st = .ok (.stop result) → Halts turn st (.ok result)
  | next {st st' : σ} {r : Except Fault ρ} : turn st = .ok (.next st') → Halts turn st' r →
      Halts turn st r

/-- The states at the head of the loop. -/
inductive Reaches (turn : σ → Except Fault (Turn σ ρ)) : σ → σ → Prop where
  | refl (st : σ) : Reaches turn st st
  | next {st st' st'' : σ} : turn st = .ok (.next st') → Reaches turn st' st'' →
      Reaches turn st st''

/-- What ends from a state reached ends so from the start. -/
theorem Reaches.halts {st st' : σ} {r : Except Fault ρ} (h : Reaches turn st st')
    (hr : Halts turn st' r) : Halts turn st r := by
  induction h with
  | refl _ => exact hr
  | next hturn _ ih => exact .next hturn (ih hr)

theorem Reaches.trans {st st' st'' : σ} (h : Reaches turn st st') (h' : Reaches turn st' st'') :
    Reaches turn st st'' := by
  induction h with
  | refl _ => exact h'
  | next hturn _ ih => exact .next hturn (ih h')

/-- **The invariant rule.** -/
theorem Reaches.invariant {Inv : σ → Prop}
    (hturn : ∀ st st', turn st = .ok (.next st') → Inv st → Inv st') {st st' : σ}
    (h : Reaches turn st st') (hst : Inv st) : Inv st' := by
  induction h with
  | refl _ => exact hst
  | next hnext _ ih => exact ih (hturn _ _ hnext hst)

/-- What ends from the start ends so from a state reached. -/
theorem Reaches.halts_from {st st' : σ} {r : Except Fault ρ} (h : Reaches turn st st')
    (hr : Halts turn st r) : Halts turn st' r := by
  induction h with
  | refl _ => exact hr
  | next hturn _ ih =>
    cases hr with
    | fault hturn' => simp [hturn] at hturn'
    | stop hturn' => simp [hturn] at hturn'
    | next hturn' hrest =>
      obtain rfl : _ = _ := by simpa [hturn] using hturn'
      exact ih hrest

/-- A loop ends in one way. -/
theorem Halts.unique {st : σ} {r r' : Except Fault ρ} (h : Halts turn st r)
    (h' : Halts turn st r') : r = r' := by
  induction h with
  | fault hturn => cases h' <;> simp_all
  | stop hturn => cases h' <;> simp_all
  | next hturn _ ih =>
    cases h' with
    | fault hturn' => simp [hturn] at hturn'
    | stop hturn' => simp [hturn] at hturn'
    | next hturn' hrest =>
      obtain rfl : _ = _ := by simpa [hturn] using hturn'
      exact ih hrest

/-- A loop that ends does so without a fault when no state at its head faults. -/
theorem Halts.defined {st : σ} {r : Except Fault ρ} (h : Halts turn st r)
    (hturn : ∀ st', Reaches turn st st' → ∀ e, turn st' ≠ .error e) : Defined r := by
  induction h with
  | fault hfault => exact absurd hfault (hturn _ (.refl _) _)
  | stop _ => exact defined_ok _
  | next hnext _ ih => exact ih fun st' hst' => hturn st' (.next hnext hst')

/-- Turns that go on one after the other, up to one that stops. -/
theorem loop_iterate {f : σ → σ} {st : σ} {result : ρ} {n fuel : Nat}
    (hnext : ∀ k < n, turn (f^[k] st) = .ok (.next (f^[k + 1] st)))
    (hstop : turn (f^[n] st) = .ok (.stop result)) (hfuel : n < fuel) :
    loop turn fuel st = .ok result := by
  induction n generalizing st fuel with
  | zero =>
    obtain ⟨fuel, rfl⟩ := Nat.exists_eq_succ_of_ne_zero (by omega : fuel ≠ 0)
    have hturn : turn st = .ok (.stop result) := hstop
    simp [loop, hturn]
  | succ n ih =>
    obtain ⟨fuel, rfl⟩ := Nat.exists_eq_succ_of_ne_zero (by omega : fuel ≠ 0)
    have hturn : turn st = .ok (.next (f st)) := hnext 0 (by omega)
    simp only [loop, hturn, ok_bind]
    -- The other turns are those from the second state.
    exact ih (fun k hk => hnext (k + 1) (by omega)) hstop (by omega)

/-- A loop with a result comes to a turn that stops with it. -/
theorem stops_of_loop {fuel : Nat} {st : σ} {result : ρ} (h : loop turn fuel st = .ok result) :
    ∃ st', turn st' = .ok (.stop result) := by
  induction fuel generalizing st with
  | zero => cases h
  | succ fuel ih =>
    obtain ⟨t, ht, h⟩ := bind_eq_ok.mp h
    cases t with
    | next st' => exact ih h
    | stop result' =>
      cases h
      exact ⟨st, ht⟩

/-- **The invariant rule.**  What each turn keeps, and what the last one makes of it. -/
theorem loop_ensures {Inv : σ → Prop} {Post : ρ → Prop}
    (hnext : ∀ st st', turn st = .ok (.next st') → Inv st → Inv st')
    (hstop : ∀ st result, turn st = .ok (.stop result) → Inv st → Post result) {fuel : Nat} {st : σ}
    {result : ρ} (h : loop turn fuel st = .ok result) (hst : Inv st) : Post result := by
  induction fuel generalizing st with
  | zero => cases h
  | succ fuel ih =>
    obtain ⟨t, ht, h⟩ := bind_eq_ok.mp h
    cases t with
    | next st' => exact ih h (hnext st st' ht hst)
    | stop result' =>
      cases h
      exact hstop st result ht hst

/-- With enough fuel, the result is `result`. -/
def Returns (exec : ℕ → Except Fault ρ) (result : ρ) : Prop :=
  ∃ n, ∀ fuel ≥ n, exec fuel = .ok result

/-- There is one result. -/
theorem Returns.unique {exec : ℕ → Except Fault ρ} {result result' : ρ} (h : Returns exec result)
    (h' : Returns exec result') : result = result' := by
  obtain ⟨n, hn⟩ := h
  obtain ⟨n', hn'⟩ := h'
  have heq := (hn (n + n') (Nat.le_add_right n n')).symm.trans (hn' _ (Nat.le_add_left n' n))
  exact Except.ok.inj heq

/-- One part after the other. -/
theorem Returns.bind {τ : Type} {exec : ℕ → Except Fault ρ} {rest : ℕ → ρ → Except Fault τ}
    {result : ρ} {result' : τ} (h : Returns exec result)
    (h' : Returns (fun fuel => rest fuel result) result') :
    Returns (fun fuel => exec fuel >>= rest fuel) result' := by
  obtain ⟨n, hn⟩ := h
  obtain ⟨n', hn'⟩ := h'
  refine ⟨n + n', fun fuel hfuel => ?_⟩
  show exec fuel >>= rest fuel = _
  rw [hn fuel (by omega), ok_bind]
  exact hn' fuel (by omega)

/-- A loop that ends well does so with enough fuel, and conversely. -/
theorem returns_loop {st : σ} {result : ρ} :
    Returns (fun fuel => loop turn fuel st) result ↔ Halts turn st (.ok result) := by
  constructor
  · rintro ⟨n, hn⟩
    have hloop : loop turn n st = .ok result := hn n le_rfl
    clear hn
    -- On the fuel, which each turn uses up by one.
    induction n generalizing st with
    | zero => cases hloop
    | succ n ih =>
      obtain ⟨t, hturn, hrest⟩ := bind_eq_ok.mp hloop
      cases t with
      | next st' => exact .next hturn (ih hrest)
      | stop result' =>
        cases hrest
        exact .stop hturn
  · intro h
    generalize hr : Except.ok result = r at h
    -- On the run, each turn of which needs one more.
    induction h with
    | fault hturn => cases hr
    | stop hturn =>
      cases hr
      refine ⟨1, fun fuel hfuel => ?_⟩
      obtain ⟨fuel, rfl⟩ := Nat.exists_eq_add_of_le' hfuel
      exact loop_stop hturn fuel
    | next hturn _ ih =>
      obtain ⟨n, hn⟩ := ih hr
      refine ⟨n + 1, fun fuel hfuel => ?_⟩
      obtain ⟨fuel, rfl⟩ := Nat.exists_eq_add_of_le' (Nat.le_trans (Nat.le_add_left 1 n) hfuel)
      exact (loop_next hturn fuel).trans (hn fuel (by omega))

section Measure

variable {Inv : σ → Prop} {μ : σ → Nat}
  (hμ : ∀ st st', Inv st → turn st = .ok (.next st') → Inv st' ∧ μ st' < μ st)
include hμ

/-- With enough fuel the loop ends as it does without. -/
theorem loop_of_halts {st : σ} {r : Except Fault ρ} (hst : Inv st) (h : Halts turn st r)
    {fuel : Nat} (hfuel : μ st < fuel) : loop turn fuel st = r := by
  induction h generalizing fuel with
  | fault hturn =>
    obtain ⟨fuel, rfl⟩ := Nat.exists_eq_succ_of_ne_zero (by omega : fuel ≠ 0)
    simp [loop, hturn]
  | stop hturn =>
    obtain ⟨fuel, rfl⟩ := Nat.exists_eq_succ_of_ne_zero (by omega : fuel ≠ 0)
    simp [loop, hturn]
  | next hturn _ ih =>
    obtain ⟨fuel, rfl⟩ := Nat.exists_eq_succ_of_ne_zero (by omega : fuel ≠ 0)
    obtain ⟨hst', hlt⟩ := hμ _ _ hst hturn
    simp only [loop, hturn, ok_bind]
    exact ih hst' (by omega)

/-- A loop whose turns make a measure smaller ends. -/
theorem halts_total {st : σ} (hst : Inv st) : ∃ r, Halts turn st r := by
  induction hn : μ st using Nat.strong_induction_on generalizing st with
  | h n ih =>
    cases hturn : turn st with
    | error e => exact ⟨_, .fault hturn⟩
    | ok t =>
      cases t with
      | stop result => exact ⟨_, .stop hturn⟩
      | next st' =>
        obtain ⟨hst', hlt⟩ := hμ st st' hst hturn
        obtain ⟨r, hr⟩ := ih (μ st') (hn ▸ hlt) hst' rfl
        exact ⟨r, .next hturn hr⟩

end Measure

/-- The loop comes to a turn that leads to `t`. -/
def Leads (turn : σ → Except Fault (Turn σ ρ)) (st : σ) (t : Turn σ ρ) : Prop :=
  ∃ st', Reaches turn st st' ∧ turn st' = .ok t

theorem Leads.of_turn {st : σ} {t : Turn σ ρ} (h : turn st = .ok t) : Leads turn st t :=
  ⟨st, .refl st, h⟩

theorem Leads.reaches {st st' : σ} (h : Leads turn st (.next st')) : Reaches turn st st' := by
  obtain ⟨st₁, hreach, hturn⟩ := h
  exact hreach.trans (.next hturn (.refl st'))

theorem Leads.halts {st : σ} {result : ρ} (h : Leads turn st (.stop result)) :
    Halts turn st (.ok result) := by
  obtain ⟨st₁, hreach, hturn⟩ := h
  exact hreach.halts (.stop hturn)

/-- A loop that ends well comes to a turn that stops. -/
theorem Halts.leads {st : σ} {result : ρ} (h : Halts turn st (.ok result)) :
    Leads turn st (.stop result) := by
  generalize hr : Except.ok result = r at h
  induction h with
  | fault _ => cases hr
  | @stop st' result' hturn =>
    cases hr
    exact .of_turn hturn
  | next hturn _ ih =>
    obtain ⟨st₁, hreach, hstop⟩ := ih hr
    exact ⟨st₁, .next hturn hreach, hstop⟩

/-- From a state reached. -/
theorem Reaches.leads {st st' : σ} {t : Turn σ ρ} (h : Reaches turn st st')
    (ht : Leads turn st' t) : Leads turn st t := by
  obtain ⟨st₁, hreach, hturn⟩ := ht
  exact ⟨st₁, h.trans hreach, hturn⟩

end Loop

/-! ### Simulation -/

section Simulation

variable {σ τ ρ : Type} {turn : σ → Except Fault (Turn σ ρ)} {turn' : τ → Except Fault (Turn τ ρ)}

/-- Two turns that fault alike, stop with one result, or lead to related states. -/
inductive TurnRel (R : σ → τ → Prop) :
    Except Fault (Turn σ ρ) → Except Fault (Turn τ ρ) → Prop where
  | fault (e : Fault) : TurnRel R (.error e) (.error e)
  | stop (result : ρ) : TurnRel R (.ok (.stop result)) (.ok (.stop result))
  | next {st : σ} {st' : τ} : R st st' → TurnRel R (.ok (.next st)) (.ok (.next st'))

/-- **Simulation.**  When turns from related states are related, the loops end alike. -/
theorem Halts.simulation {R : σ → τ → Prop}
    (hsim : ∀ st st', R st st' → TurnRel R (turn st) (turn' st')) {st' : τ} {r : Except Fault ρ}
    (h : Halts turn' st' r) : ∀ {st : σ}, R st st' → Halts turn st r := by
  -- On the run of the second loop; the turn of the first one ends in the same way.
  induction h with
  | @fault st' e hturn =>
    intro st hR
    have hrel := hsim st st' hR
    rw [hturn] at hrel
    generalize ht : turn st = t at hrel
    cases hrel
    exact .fault ht
  | @stop st' result hturn =>
    intro st hR
    have hrel := hsim st st' hR
    rw [hturn] at hrel
    generalize ht : turn st = t at hrel
    cases hrel
    exact .stop ht
  | @next st' st'' r hturn _ ih =>
    intro st hR
    have hrel := hsim st st' hR
    rw [hturn] at hrel
    generalize ht : turn st = t at hrel
    cases hrel with
    | next hR' => exact .next ht (ih hR')

end Simulation

end Icl.Transition
