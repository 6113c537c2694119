import Icl.Cxx.Bytes

namespace Icl.Transition

open Icl.Cxx

/-!
# Machines that are fed piece by piece

A machine gets a stream in pieces, and may be done before the end of it.

* `feed` — the pieces in turn, until the machine is done;
* `feedItems` — the items of the stream one by one;
* `feedItems_defined` — a stream that no item of it stops;
* `FeedsAs` — a machine that does on each piece what another one does on its items;
* `feed_cut` — such a machine does not depend on how the stream is cut.
-/

/-! ### Pieces and items -/

section Feed

variable {σ β : Type}

/-- The pieces in turn, until the machine is done: the state, and the number of items used. -/
def feed (done : σ → Bool) (pump : σ → List β → Except Fault (σ × ℕ)) :
    σ → List (List β) → Except Fault (σ × ℕ)
  | s, [] => .ok (s, 0)
  | s, piece :: pieces =>
    if done s then .ok (s, 0)
    else do
      let (s, used) ← pump s piece
      let (s, more) ← feed done pump s pieces
      return (s, used + more)

/-- The items one by one, until the machine is done or leaves one: the state, and what is left. -/
def feedItems (done : σ → Bool) (item : σ → β → Except Fault (σ × Bool)) :
    σ → List β → Except Fault (σ × List β)
  | s, [] => .ok (s, [])
  | s, x :: xs =>
    if done s then .ok (s, x :: xs)
    else do
      let (s, taken) ← item s x
      if taken then feedItems done item s xs else return (s, x :: xs)

variable {done : σ → Bool} {item : σ → β → Except Fault (σ × Bool)}

theorem feed_done {pump : σ → List β → Except Fault (σ × ℕ)} {s : σ} (h : done s = true)
    (pieces : List (List β)) : feed done pump s pieces = .ok (s, 0) := by
  cases pieces with
  | nil => rfl
  | cons piece pieces => exact if_pos h

theorem feedItems_done {s : σ} (h : done s = true) (xs : List β) :
    feedItems done item s xs = .ok (s, xs) := by
  cases xs with
  | nil => rfl
  | cons x xs => exact if_pos h

theorem feedItems_cons {s : σ} (h : done s = false) (x : β) (xs : List β) :
    feedItems done item s (x :: xs) = item s x >>= fun r =>
      if r.2 then feedItems done item r.1 xs else .ok (r.1, x :: xs) := by
  rw [feedItems, if_neg (by simp [h])]
  rfl

/-- One part of a stream after the other. -/
theorem feedItems_append (s : σ) (xs ys : List β) :
    feedItems done item s (xs ++ ys) = feedItems done item s xs >>= fun r =>
      if r.2 = [] then feedItems done item r.1 ys else .ok (r.1, r.2 ++ ys) := by
  induction xs generalizing s with
  | nil => rfl
  | cons x xs ih =>
    cases hdone : done s with
    | true =>
      rw [feedItems_done hdone, feedItems_done hdone]
      rfl
    | false =>
      rw [List.cons_append, feedItems_cons hdone, feedItems_cons hdone]
      rcases item s x with e | ⟨s', _ | _⟩
      · rfl
      · rfl
      · exact ih s'

/-- What is left is an end of the stream. -/
theorem feedItems_suffix {s s' : σ} {xs rest : List β}
    (h : feedItems done item s xs = .ok (s', rest)) : rest <:+ xs := by
  induction xs generalizing s with
  | nil =>
    cases h
    exact List.suffix_rfl
  | cons x xs ih =>
    cases hdone : done s with
    | true =>
      rw [feedItems_done hdone] at h
      cases h
      exact List.suffix_rfl
    | false =>
      rw [feedItems_cons hdone] at h
      obtain ⟨⟨s₁, taken⟩, -, h⟩ := bind_eq_ok.mp h
      cases taken with
      | false =>
        cases h
        exact List.suffix_rfl
      | true => exact (ih h).trans (List.suffix_cons x xs)

theorem feedItems_length {s s' : σ} {xs rest : List β}
    (h : feedItems done item s xs = .ok (s', rest)) : rest.length ≤ xs.length :=
  (feedItems_suffix h).length_le

/-- A machine gets through a stream when no item stops it where the items before have led to. -/
theorem feedItems_defined {s : σ} {xs : List β}
    (h : ∀ before x after s', before ++ x :: after = xs →
      feedItems done item s before = .ok (s', []) → done s' = false → Defined (item s' x)) :
    Defined (feedItems done item s xs) := by
  induction xs generalizing s with
  | nil => exact defined_ok _
  | cons x xs ih =>
    cases hdone : done s with
    | true =>
      rw [feedItems_done hdone]
      exact defined_ok _
    | false =>
      obtain ⟨⟨s₁, taken⟩, hitem⟩ := h [] x xs s rfl rfl hdone
      rw [feedItems_cons hdone, hitem, ok_bind]
      cases taken with
      | false => exact defined_ok _
      | true =>
        refine ih fun before y after s' hxs hbefore hdone' => ?_
        refine h (x :: before) y after s' (by rw [List.cons_append, hxs]) ?_ hdone'
        rw [feedItems_cons hdone, hitem]
        exact hbefore

section Invariant

variable {Inv : σ → Prop} (hinv : ∀ s x s' taken, Inv s → done s = false →
  item s x = .ok (s', taken) → Inv s')
include hinv

/-- **The invariant rule.** -/
theorem feedItems_inv {s s' : σ} {xs rest : List β} (hs : Inv s)
    (h : feedItems done item s xs = .ok (s', rest)) : Inv s' := by
  induction xs generalizing s with
  | nil =>
    cases h
    exact hs
  | cons x xs ih =>
    -- A machine that is done takes nothing more; otherwise the first item is a step.
    cases hdone : done s with
    | true =>
      rw [feedItems_done hdone] at h
      cases h
      exact hs
    | false =>
      rw [feedItems_cons hdone] at h
      obtain ⟨⟨s₁, taken⟩, hitem, h⟩ := bind_eq_ok.mp h
      have hs₁ := hinv s x s₁ taken hs hdone hitem
      cases taken with
      | false =>
        cases h
        exact hs₁
      | true => exact ih hs₁ h

/-- A machine that leaves an item only when it is done is done when something is left. -/
theorem done_of_feedItems
    (hleave : ∀ s x s', Inv s → done s = false → item s x = .ok (s', false) → done s' = true)
    {s s' : σ} {xs rest : List β} (hs : Inv s) (h : feedItems done item s xs = .ok (s', rest))
    (hrest : rest ≠ []) : done s' = true := by
  induction xs generalizing s with
  | nil =>
    cases h
    exact absurd rfl hrest
  | cons x xs ih =>
    cases hdone : done s with
    | true =>
      rw [feedItems_done hdone] at h
      cases h
      exact hdone
    | false =>
      rw [feedItems_cons hdone] at h
      obtain ⟨⟨s₁, taken⟩, hitem, h⟩ := bind_eq_ok.mp h
      cases taken with
      | false =>
        cases h
        exact hleave _ _ _ hs hdone hitem
      | true => exact ih (hinv s x s₁ true hs hdone hitem) h

end Invariant

end Feed

/-! ### Refinement -/

section Refinement

variable {σ τ β : Type}

/-- A machine for pieces that does on each piece what a machine for items does on its items, seen
    through `view`, in the states that meet an invariant. -/
structure FeedsAs (done : σ → Bool) (pump : σ → List β → Except Fault (σ × ℕ)) (done' : τ → Bool)
    (item : τ → β → Except Fault (τ × Bool)) (view : σ → τ) (Inv : τ → Prop) : Prop where
  done_eq : ∀ s, done' (view s) = done s
  inv : ∀ t x t' taken, Inv t → done' t = false → item t x = .ok (t', taken) → Inv t'
  leave : ∀ t x t', Inv t → done' t = false → item t x = .ok (t', false) → done' t' = true
  pump_eq : ∀ s piece, Inv (view s) → piece ≠ [] →
    (pump s piece).map (fun r => (view r.1, r.2))
      = (feedItems done' item (view s) piece).map fun r => (r.1, piece.length - r.2.length)

variable {done : σ → Bool} {pump : σ → List β → Except Fault (σ × ℕ)} {done' : τ → Bool}
  {item : τ → β → Except Fault (τ × Bool)} {view : σ → τ} {Inv : τ → Prop}

/-- **The pieces in turn are the whole stream.** -/
theorem FeedsAs.feed_eq (h : FeedsAs done pump done' item view Inv) {s : σ}
    (hs : Inv (view s)) {pieces : List (List β)} (hpieces : ∀ piece ∈ pieces, piece ≠ []) :
    (feed done pump s pieces).map (fun r => (view r.1, r.2))
      = (feedItems done' item (view s) pieces.flatten).map
        fun r => (r.1, pieces.flatten.length - r.2.length) := by
  induction pieces generalizing s with
  | nil => rfl
  | cons piece pieces ih =>
    obtain ⟨hpiece, hpieces⟩ := List.forall_mem_cons.mp hpieces
    rw [List.flatten_cons]
    cases hdone : done s with
    | true =>
      rw [feed_done hdone, feedItems_done (by rw [h.done_eq, hdone])]
      simp [Except.map]
    | false =>
      rw [feed, if_neg (by simp [hdone]), feedItems_append]
      have hpump := h.pump_eq s piece hs hpiece
      cases hrun : pump s piece with
      | error e =>
        rw [hrun] at hpump
        rcases hitems : feedItems done' item (view s) piece with e' | r
        · rw [hitems] at hpump
          cases hpump
          rfl
        · rw [hitems] at hpump
          cases hpump
      | ok r =>
        obtain ⟨s', n⟩ := r
        rw [hrun] at hpump
        rcases hitems : feedItems done' item (view s) piece with e' | ⟨t, rest⟩
        · rw [hitems] at hpump
          cases hpump
        rw [hitems] at hpump
        obtain ⟨rfl, rfl⟩ : view s' = t ∧ n = piece.length - rest.length := by
          simpa [Except.map] using hpump
        have hlength := feedItems_length hitems
        simp only [ok_bind]
        by_cases hrest : rest = []
        · -- The whole piece has been used.
          rw [if_pos hrest, hrest]
          have hnext := ih (feedItems_inv h.inv hs hitems) hpieces
          rcases hmore : feed done pump s' pieces with e | ⟨s'', more⟩ <;>
            rcases hitems' : feedItems done' item (view s') pieces.flatten with e' | ⟨t, rest'⟩ <;>
            rw [hmore, hitems'] at hnext
          · exact hnext
          · cases hnext
          · cases hnext
          · have hlength' := feedItems_length hitems'
            obtain ⟨rfl, rfl⟩ : view s'' = t ∧ more = pieces.flatten.length - rest'.length := by
              simpa [Except.map] using hnext
            simp only [Except.map, ok_bind, pure_eq_ok, List.length_append, List.length_nil,
              Except.ok.injEq, Prod.mk.injEq, true_and]
            omega
        · -- Something is left, so that the machine is done.
          have hdone' : done s' = true :=
            (h.done_eq s').symm.trans (done_of_feedItems h.inv h.leave hs hitems hrest)
          rw [if_neg hrest, feed_done hdone']
          simp [Except.map]
          omega

/-- The pieces get through when the stream does. -/
theorem FeedsAs.feed_defined (h : FeedsAs done pump done' item view Inv) {s : σ}
    (hs : Inv (view s)) {pieces : List (List β)} (hpieces : ∀ piece ∈ pieces, piece ≠ [])
    (hitems : Defined (feedItems done' item (view s) pieces.flatten)) :
    Defined (feed done pump s pieces) := by
  obtain ⟨r, hr⟩ := hitems
  have hfeed := h.feed_eq hs hpieces
  rw [hr] at hfeed
  rcases hrun : feed done pump s pieces with e | r'
  · rw [hrun] at hfeed
    cases hfeed
  · exact defined_ok r'

/-- **A machine does not depend on how the stream is cut.** -/
theorem FeedsAs.feed_cut (h : FeedsAs done pump done' item view Inv) {s : σ}
    (hs : Inv (view s)) {pieces pieces' : List (List β)} (hpieces : ∀ piece ∈ pieces, piece ≠ [])
    (hpieces' : ∀ piece ∈ pieces', piece ≠ []) (hcut : pieces.flatten = pieces'.flatten) :
    (feed done pump s pieces).map (fun r => (view r.1, r.2))
      = (feed done pump s pieces').map fun r => (view r.1, r.2) := by
  rw [h.feed_eq hs hpieces, h.feed_eq hs hpieces', hcut]

end Refinement

end Icl.Transition
