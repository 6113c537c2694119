import Mathlib.Algebra.BigOperators.Group.Finset.Piecewise
import Mathlib.Algebra.Order.BigOperators.Group.Finset

namespace Icl.Transition

/-!
# Threads with a mutex

Threads `T` are at points `P` of their programs, and some points lie inside a critical section.

* `Exclusive` — a thread is inside just when it owns the mutex;
* `Exclusive.move`, `Exclusive.acquire`, `Exclusive.release` — what a step of one thread does to it;
* `total` — what all the threads hold together, and `total_update` for a step of one thread.
-/

variable {T P : Type}

/-! ### Mutual exclusion -/

/-- The threads that are inside own the mutex. -/
def Exclusive (inside : P → Prop) (mutex : Option T) (threads : T → P) : Prop :=
  ∀ t, inside (threads t) ↔ mutex = some t

section Exclusive

variable {inside : P → Prop} {mutex : Option T} {threads : T → P} {t : T} {p : P}

/-- **Mutual exclusion.** -/
theorem Exclusive.eq (h : Exclusive inside mutex threads) {t' : T} (ht : inside (threads t))
    (ht' : inside (threads t')) : t = t' :=
  Option.some.inj (((h t).mp ht).symm.trans ((h t').mp ht'))

variable [DecidableEq T]

/-- A thread stays inside, or outside. -/
theorem Exclusive.move (h : Exclusive inside mutex threads)
    (hp : inside p ↔ inside (threads t)) :
    Exclusive inside mutex (Function.update threads t p) := by
  intro t'
  by_cases ht : t' = t
  · subst ht
    rw [Function.update_self, hp, h]
  · rw [Function.update_of_ne ht, h]

/-- A thread takes the mutex. -/
theorem Exclusive.acquire (h : Exclusive inside none threads) (hp : inside p) :
    Exclusive inside (some t) (Function.update threads t p) := by
  intro t'
  by_cases ht : t' = t
  · subst ht
    rw [Function.update_self]
    exact iff_of_true hp rfl
  · rw [Function.update_of_ne ht, h]
    exact iff_of_false nofun fun hsome => ht (Option.some.inj hsome).symm

/-- A thread gives the mutex back. -/
theorem Exclusive.release (h : Exclusive inside mutex threads) (ht : inside (threads t))
    (hp : ¬ inside p) : Exclusive inside none (Function.update threads t p) := by
  intro t'
  by_cases ht' : t' = t
  · subst ht'
    rw [Function.update_self]
    exact iff_of_false hp nofun
  · rw [Function.update_of_ne ht']
    exact iff_of_false (fun hinside => ht' (h.eq hinside ht)) nofun

end Exclusive

/-! ### What the threads hold -/

variable [Fintype T]

/-- What the threads hold together, at points that are worth `f`. -/
def total (f : P → ℕ) (threads : T → P) : ℕ := ∑ t, f (threads t)

/-- Nothing is held at points that are worth nothing. -/
theorem total_eq_zero {f : P → ℕ} {threads : T → P} (h : ∀ t, f (threads t) = 0) :
    total f threads = 0 :=
  Finset.sum_eq_zero fun t _ => h t

/-- One thread goes on. -/
theorem total_update [DecidableEq T] (f : P → ℕ) (threads : T → P) (t : T) (p : P) :
    total f (Function.update threads t p) + f (threads t) = total f threads + f p := by
  have hrest : ∑ t' ∈ Finset.univ.erase t, f (Function.update threads t p t')
      = ∑ t' ∈ Finset.univ.erase t, f (threads t') :=
    Finset.sum_congr rfl fun t' ht' => by rw [Function.update_of_ne (Finset.ne_of_mem_erase ht')]
  rw [total, total, ← Finset.add_sum_erase _ _ (Finset.mem_univ t),
    ← Finset.add_sum_erase _ (fun t' => f (threads t')) (Finset.mem_univ t), hrest,
    Function.update_self]
  omega

end Icl.Transition
