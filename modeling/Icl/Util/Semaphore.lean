import Icl.Transition.Mutex
import Icl.Transition.Run

namespace Icl.Util

open Icl.Cxx Icl.Transition

/-!
# `Semaphore`

The model of `util/Semaphore.h`, for any number of threads that call `Notify` and `Wait`.  A thread
waits for the mutex, reads `mCount` and writes it in steps of its own.  A thread that is blocked in
`wait_for` may wake up at any moment, with or without a time-out; so what `notify_one` does to the
blocked threads makes no difference.

* `Semaphore.step` — one step of one thread;
* `Conserves` — no token is lost or made;
* `Keeps` — the steps after which a token is neither lost nor made;
* `conserves_iff` — tokens are conserved in the runs of such steps, and in no others.
-/

/-! ### The threads -/

/-- `std::cv_status`. -/
inductive CvStatus where
  | noTimeout
  | timeout
  deriving DecidableEq, Repr

/-- Where a thread is. -/
inductive Point where
  /-- Outside of both functions. -/
  | idle
  | notifyLock
  | notifyLoad
  /-- It has read `mCount`. -/
  | notifyStore (count : UInt32)
  | notifyUnlock
  | notifyOne
  | waitLock (ms : Int)
  /-- The test of the loop. -/
  | waitTest (ms : Int) (normal : Bool)
  /-- Blocked in `wait_for`, which has released the mutex. -/
  | waitFor (ms : Int)
  /-- Awake, and waiting for the mutex. -/
  | waitRelock (ms : Int) (status : CvStatus)
  /-- The test after the loop. -/
  | takeLoad (normal : Bool)
  | takeStore (normal : Bool) (count : UInt32)
  /-- Before the return.  `taken` is not in the source: it tells whether `mCount` has been
      decremented. -/
  | waitReturn (normal taken : Bool)
  deriving DecidableEq, Repr

namespace Point

/-- The thread owns the mutex. -/
def inside : Point → Bool
  | .notifyLoad | .notifyStore _ | .notifyUnlock | .waitTest _ _ | .takeLoad _ | .takeStore _ _
  | .waitReturn _ _ => true
  | .idle | .notifyLock | .notifyOne | .waitLock _ | .waitFor _ | .waitRelock _ _ => false

/-- The call to `Notify` has incremented `mCount`, and has not returned. -/
def given : Point → ℕ
  | .notifyUnlock | .notifyOne => 1
  | _ => 0

/-- The call to `Wait` is about to return true. -/
def passing : Point → ℕ
  | .waitReturn normal _ => normal.toNat
  | _ => 0

/-- The call to `Wait` decrements `mCount`, and returns false. -/
def wastes : Point → Bool
  | .takeStore normal _ => !normal
  | .waitReturn normal taken => !normal && taken
  | _ => false

end Point

/-- `Semaphore`, with its threads.  The last three are not in the source: they count the calls to
    `Notify` that have returned, and those to `Wait` that have returned true and false. -/
structure Semaphore (T : Type) where
  mCount : UInt32
  mMutex : Option T
  threads : T → Point
  notified : ℕ
  passed : ℕ
  failed : ℕ

/-- What can happen. -/
inductive SemaphoreAct (T : Type) where
  /-- The thread calls `Notify`. -/
  | notify (t : T)
  /-- The thread calls `Wait`. -/
  | wait (t : T) (ms : Int)
  /-- A blocked thread wakes up. -/
  | wake (t : T) (status : CvStatus)
  /-- The thread takes its next step. -/
  | run (t : T)

namespace Semaphore

variable {T : Type}

/-- The constructor. -/
def new (count : UInt32) : Semaphore T :=
  { mCount := count, mMutex := none, threads := fun _ => .idle, notified := 0, passed := 0
    failed := 0 }

section Step

variable [DecidableEq T]

/-- The thread goes on to a point. -/
def goOn (t : T) (p : Point) (s : Semaphore T) : Semaphore T :=
  { s with threads := Function.update s.threads t p }

/-- `lock`, which waits while another thread has the mutex. -/
def lock (t : T) (p : Point) (s : Semaphore T) : Semaphore T :=
  match s.mMutex with
  | none => { s with mMutex := some t }.goOn t p
  | some _ => s

/-- `unlock`. -/
def unlock (s : Semaphore T) : Semaphore T := { s with mMutex := none }

/-- The next step of a thread. -/
def runThread (t : T) (s : Semaphore T) : Semaphore T :=
  match s.threads t with
  | .idle | .waitFor _ => s
  | .notifyLock => s.lock t .notifyLoad
  | .notifyLoad => s.goOn t (.notifyStore s.mCount)
  | .notifyStore count => { s with mCount := count + 1 }.goOn t .notifyUnlock
  | .notifyUnlock => s.unlock.goOn t .notifyOne
  | .notifyOne => { s with notified := s.notified + 1 }.goOn t .idle
  | .waitLock ms => s.lock t (.waitTest ms true)
  | .waitTest ms normal =>
    if s.mCount = 0 then s.unlock.goOn t (.waitFor ms) else s.goOn t (.takeLoad normal)
  | .waitRelock ms .noTimeout => s.lock t (.waitTest ms true)
  | .waitRelock _ .timeout => s.lock t (.takeLoad false)
  | .takeLoad normal =>
    if 0 < s.mCount then s.goOn t (.takeStore normal s.mCount)
    else s.goOn t (.waitReturn normal false)
  | .takeStore normal count => { s with mCount := count - 1 }.goOn t (.waitReturn normal true)
  | .waitReturn true _ => { s.unlock with passed := s.passed + 1 }.goOn t .idle
  | .waitReturn false _ => { s.unlock with failed := s.failed + 1 }.goOn t .idle

/-- One step. -/
def act (s : Semaphore T) : SemaphoreAct T → Semaphore T
  | .notify t => if s.threads t = .idle then s.goOn t .notifyLock else s
  | .wait t ms => if s.threads t = .idle then s.goOn t (.waitLock (max ms 100)) else s
  | .wake t status =>
    match s.threads t with
    | .waitFor ms => s.goOn t (.waitRelock ms status)
    | _ => s
  | .run t => s.runThread t

/-- One step, which is never undefined. -/
def step (s : Semaphore T) (a : SemaphoreAct T) : Except Fault (Semaphore T) := .ok (s.act a)

end Step

/-! ### Tokens -/

section Tokens

variable [Fintype T]

/-- **Tokens are conserved**: the tokens at the start and those of the calls to `Notify` that have
    returned, or are about to, are those left and those of the calls to `Wait` that have returned
    true, or are about to; and no call that returns false takes one. -/
structure Conserves (initial : UInt32) (s : Semaphore T) : Prop where
  tokens : initial.toNat + s.notified + total Point.given s.threads
    = s.mCount.toNat + s.passed + total Point.passing s.threads
  unwasted : ∀ t, (s.threads t).wastes = false

/-- Between the calls, the tokens are those of the calls that have returned. -/
theorem Conserves.settled {initial : UInt32} {s : Semaphore T} (h : s.Conserves initial)
    (hgiven : ∀ t, (s.threads t).given = 0) (hpassing : ∀ t, (s.threads t).passing = 0) :
    initial.toNat + s.notified = s.mCount.toNat + s.passed := by
  have htokens := h.tokens
  rwa [total_eq_zero hgiven, total_eq_zero hpassing] at htokens

/-- `Notify` does not wrap around, and a `Wait` that has timed out finds `mCount` zero. -/
def Keeps (s : Semaphore T) : SemaphoreAct T → Prop
  | .run t =>
    match s.threads t with
    | .notifyStore _ => s.mCount.toNat + 1 < 2 ^ 32
    | .takeLoad false => s.mCount = 0
    | _ => True
  | .notify _ | .wait _ _ | .wake _ _ => True

end Tokens

end Semaphore

/-! ### The invariant -/

/-- What a thread knows about `mCount`, while it owns the mutex. -/
def Point.Valid (mCount : UInt32) : Point → Prop
  | .notifyStore count => count = mCount
  | .waitTest _ normal => normal = true
  | .takeLoad normal => normal = true → 0 < mCount
  | .takeStore normal count => count = mCount ∧ 0 < mCount ∧ normal = true
  | .waitReturn normal taken => normal = taken
  | _ => True

/-- A thread without the mutex knows nothing. -/
theorem Point.valid_of_outside {p : Point} (h : ¬ p.inside) (mCount : UInt32) : p.Valid mCount := by
  cases p with
  | idle | notifyLock | notifyOne | waitLock | waitFor | waitRelock => trivial
  | notifyLoad | notifyStore | notifyUnlock | waitTest | takeLoad | takeStore | waitReturn =>
    exact absurd rfl h

theorem Point.Valid.not_wastes {p : Point} {mCount : UInt32} (h : p.Valid mCount) :
    p.wastes = false := by
  cases p with
  | takeStore normal count =>
    obtain ⟨-, -, rfl⟩ := h
    rfl
  | waitReturn normal taken =>
    obtain rfl : normal = taken := h
    cases normal <;> rfl
  | _ => rfl

namespace Semaphore

variable {T : Type} [Fintype T]

/-- **The invariant.** -/
structure Inv (initial : UInt32) (s : Semaphore T) : Prop where
  tokens : initial.toNat + s.notified + total Point.given s.threads
    = s.mCount.toNat + s.passed + total Point.passing s.threads
  exclusive : Exclusive (fun p => p.inside) s.mMutex s.threads
  valid : ∀ t, (s.threads t).Valid s.mCount

theorem Inv.conserves {initial : UInt32} {s : Semaphore T} (h : s.Inv initial) :
    s.Conserves initial :=
  ⟨h.tokens, fun t => (h.valid t).not_wastes⟩

theorem inv_new (initial : UInt32) : (new initial : Semaphore T).Inv initial := by
  refine ⟨?_, fun t => by simp [new, Point.inside], fun t => trivial⟩
  have hgiven : total Point.given (fun _ : T => .idle) = 0 := total_eq_zero fun _ => rfl
  have hpassing : total Point.passing (fun _ : T => .idle) = 0 := total_eq_zero fun _ => rfl
  rw [new, hgiven, hpassing]

section Thread

variable [DecidableEq T] {initial : UInt32} {s s' : Semaphore T} {t : T} {p : Point}

/-- One thread goes on: it may change `mCount` only while it owns the mutex, and its new point and
    the counters have to balance. -/
theorem Inv.thread (h : s.Inv initial) (hthreads : s'.threads = Function.update s.threads t p)
    (hexclusive : Exclusive (fun p => p.inside) s'.mMutex s'.threads)
    (hcount : s'.mCount = s.mCount ∨ (s.threads t).inside) (hvalid : p.Valid s'.mCount)
    (hbalance : s'.notified + p.given + s.mCount.toNat + s.passed + (s.threads t).passing
      = s.notified + (s.threads t).given + s'.mCount.toNat + s'.passed + p.passing) :
    s'.Inv initial := by
  refine ⟨?_, hexclusive, fun t' => ?_⟩
  · have htokens := h.tokens
    have hgiven := total_update Point.given s.threads t p
    have hpassing := total_update Point.passing s.threads t p
    rw [hthreads]
    omega
  · rw [hthreads]
    by_cases ht : t' = t
    · rwa [ht, Function.update_self]
    · rw [Function.update_of_ne ht]
      rcases hcount with hcount | hinside
      · rw [hcount]
        exact h.valid t'
      -- The other threads do not own the mutex, and know nothing about `mCount`.
      · exact Point.valid_of_outside (fun hinside' => ht (h.exclusive.eq hinside' hinside)) _

/-- A thread goes on without touching anything. -/
theorem Inv.goOn (h : s.Inv initial) (hinside : p.inside = (s.threads t).inside)
    (hvalid : p.Valid s.mCount) (hgiven : p.given = (s.threads t).given)
    (hpassing : p.passing = (s.threads t).passing) : (s.goOn t p).Inv initial := by
  refine h.thread (t := t) (p := p) rfl (h.exclusive.move (by rw [hinside])) (.inl rfl) hvalid ?_
  rw [hgiven, hpassing]
  rfl

/-- A thread takes the mutex, or waits for it. -/
theorem Inv.lock (h : s.Inv initial) (hinside : p.inside) (hvalid : p.Valid s.mCount)
    (hgiven : p.given = (s.threads t).given) (hpassing : p.passing = (s.threads t).passing) :
    (s.lock t p).Inv initial := by
  rw [Semaphore.lock]
  split
  case h_1 hfree =>
    have hexclusive := h.exclusive
    rw [hfree] at hexclusive
    refine h.thread (t := t) (p := p) rfl (hexclusive.acquire hinside) (.inl rfl) hvalid ?_
    rw [hgiven, hpassing]
    rfl
  case h_2 => exact h

/-- A thread gives the mutex back, to block or to return. -/
theorem Inv.unlock {notified passed failed : ℕ} (h : s.Inv initial)
    (hinside : (s.threads t).inside) (hp : ¬ p.inside)
    (hbalance : notified + p.given + s.passed + (s.threads t).passing
      = s.notified + (s.threads t).given + passed + p.passing) :
    ({ s.unlock with notified, passed, failed }.goOn t p).Inv initial := by
  refine h.thread (t := t) (p := p) rfl (h.exclusive.release hinside hp) (.inl rfl)
    (Point.valid_of_outside hp _) ?_
  show notified + p.given + s.mCount.toNat + s.passed + (s.threads t).passing
    = s.notified + (s.threads t).given + s.mCount.toNat + passed + p.passing
  omega

/-- **The step lemma.** -/
theorem Inv.runThread (h : s.Inv initial) (hkeeps : s.Keeps (.run t)) :
    (s.runThread t).Inv initial := by
  have hvalid := h.valid t
  rw [Keeps] at hkeeps
  rw [Semaphore.runThread]
  cases hp : s.threads t with
  | idle | waitFor => exact h
  | notifyLock | waitLock => exact h.lock rfl (by trivial) (hp ▸ rfl) (hp ▸ rfl)
  | notifyLoad => exact h.goOn (hp ▸ rfl) rfl (hp ▸ rfl) (hp ▸ rfl)
  | notifyStore count =>
    rw [hp] at hkeeps hvalid
    obtain rfl : count = s.mCount := hvalid
    have hcount : (s.mCount + 1).toNat = s.mCount.toNat + 1 := by
      rw [UInt32.toNat_add]
      exact Nat.mod_eq_of_lt hkeeps
    refine h.thread (t := t) (p := .notifyUnlock) rfl (h.exclusive.move (by rw [hp]; rfl))
      (.inr (hp ▸ rfl)) trivial ?_
    simp only [Semaphore.goOn, hp, Point.given, Point.passing, hcount]
    omega
  | notifyUnlock =>
    exact h.unlock (hp ▸ rfl) (by decide) (by simp only [hp, Point.given, Point.passing])
  | notifyOne =>
    refine h.thread (t := t) (p := .idle) rfl (h.exclusive.move (by rw [hp]; rfl)) (.inl rfl)
      trivial ?_
    simp only [Semaphore.goOn, hp, Point.given, Point.passing]
  | waitTest ms normal =>
    dsimp only
    split
    case isTrue =>
      exact h.unlock (hp ▸ rfl) (by simp [Point.inside])
        (by simp only [hp, Point.given, Point.passing])
    case isFalse hcount =>
      exact h.goOn (hp ▸ rfl) (fun _ => UInt32.pos_iff_ne_zero.mpr hcount) (hp ▸ rfl) (hp ▸ rfl)
  | waitRelock ms status =>
    cases status with
    | noTimeout => exact h.lock rfl rfl (hp ▸ rfl) (hp ▸ rfl)
    | timeout => exact h.lock rfl nofun (hp ▸ rfl) (hp ▸ rfl)
  | takeLoad normal =>
    rw [hp] at hkeeps hvalid
    dsimp only
    split
    case isTrue hcount =>
      cases normal with
      | true => exact h.goOn (hp ▸ rfl) ⟨rfl, hcount, rfl⟩ (hp ▸ rfl) (hp ▸ rfl)
      | false =>
        -- A wait that has timed out finds nothing.
        rw [show s.mCount = 0 from hkeeps] at hcount
        exact absurd hcount (by decide)
    case isFalse hcount =>
      cases normal with
      | true => exact absurd (hvalid rfl) hcount
      | false => exact h.goOn (hp ▸ rfl) rfl (hp ▸ rfl) (hp ▸ rfl)
  | takeStore normal count =>
    rw [hp] at hvalid
    obtain ⟨rfl, hpos, rfl⟩ := hvalid
    have hcount : (s.mCount - 1).toNat + 1 = s.mCount.toNat := by
      have hone : 1 ≤ s.mCount.toNat := hpos
      rw [UInt32.toNat_sub_of_le _ _ hone, UInt32.toNat_one]
      omega
    refine h.thread (t := t) (p := .waitReturn true true) rfl
      (h.exclusive.move (by rw [hp]; rfl)) (.inr (hp ▸ rfl)) rfl ?_
    simp only [Semaphore.goOn, hp, Point.given, Point.passing, Bool.toNat_true]
    omega
  | waitReturn normal taken =>
    cases normal with
    | true =>
      exact h.unlock (hp ▸ rfl) (by decide)
        (by simp only [Semaphore.unlock, hp, Point.given, Point.passing, Bool.toNat_true]; omega)
    | false =>
      exact h.unlock (hp ▸ rfl) (by decide)
        (by simp only [Semaphore.unlock, hp, Point.given, Point.passing, Bool.toNat_false])

/-- Calls and wake-ups touch nothing. -/
theorem Inv.act {a : SemaphoreAct T} (h : s.Inv initial) (hkeeps : s.Keeps a) :
    (s.act a).Inv initial := by
  cases a with
  | notify t =>
    rw [Semaphore.act]
    split_ifs with hp
    · exact h.goOn (hp ▸ rfl) trivial (hp ▸ rfl) (hp ▸ rfl)
    · exact h
  | wait t ms =>
    rw [Semaphore.act]
    split_ifs with hp
    · exact h.goOn (hp ▸ rfl) trivial (hp ▸ rfl) (hp ▸ rfl)
    · exact h
  | wake t status =>
    rw [Semaphore.act]
    split
    case h_1 ms hp => exact h.goOn (hp ▸ rfl) trivial (hp ▸ rfl) (hp ▸ rfl)
    case h_2 => exact h
  | run t => exact h.runThread hkeeps

/-- A `Notify` that wraps around loses all tokens, and a `Wait` that has timed out and finds one
    takes it. -/
theorem Inv.not_conserves {a : SemaphoreAct T} (h : s.Inv initial) (hkeeps : ¬ s.Keeps a) :
    ¬ (s.act a).Conserves initial := by
  intro hconserves
  cases a with
  | notify t | wait t ms | wake t status => exact hkeeps trivial
  | run t =>
    rw [Keeps] at hkeeps
    rw [Semaphore.act, Semaphore.runThread] at hconserves
    have hvalid := h.valid t
    cases hp : s.threads t with
    | notifyStore count =>
      rw [hp] at hkeeps hconserves hvalid
      obtain rfl : count = s.mCount := hvalid
      have hcount : (s.mCount + 1).toNat = 0 := by
        have hlt := s.mCount.toNat_lt
        have htop : ¬ s.mCount.toNat + 1 < 2 ^ 32 := hkeeps
        rw [UInt32.toNat_add, UInt32.toNat_one, show s.mCount.toNat + 1 = 2 ^ 32 by omega,
          Nat.mod_self]
      -- All tokens are gone, and there was one of this thread at least.
      have hbefore := h.tokens
      have hafter := hconserves.tokens
      have hgiven := total_update Point.given s.threads t .notifyUnlock
      have hpassing := total_update Point.passing s.threads t .notifyUnlock
      simp only [Semaphore.goOn, hcount] at hafter
      rw [hp] at hgiven hpassing
      simp only [Point.given, Point.passing] at hgiven hpassing
      omega
    | takeLoad normal =>
      rw [hp] at hkeeps hconserves
      cases normal with
      | true => exact hkeeps trivial
      | false =>
        dsimp only at hconserves
        rw [if_pos (UInt32.pos_iff_ne_zero.mpr hkeeps)] at hconserves
        have hwastes := hconserves.unwasted t
        simp [Semaphore.goOn, Point.wastes] at hwastes
    | idle | notifyLock | notifyLoad | notifyUnlock | notifyOne | waitLock | waitTest | waitFor
    | waitRelock | takeStore | waitReturn =>
      rw [hp] at hkeeps
      exact hkeeps trivial

end Thread

/-! ### Runs -/

variable [DecidableEq T]

/-- **The semaphore conserves tokens** in the runs in which no `Notify` wraps around and no `Wait`
    that has timed out finds a token, and in no others. -/
theorem conserves_iff (initial : UInt32) (acts : List (SemaphoreAct T)) :
    Throughout step (Conserves initial) (new initial) acts
      ↔ Along step Keeps (new initial) acts := by
  have hkeep : ∀ (s : Semaphore T) a s', s.Inv initial → s.Keeps a → s.step a = .ok s' →
      s'.Inv initial := by
    intro s a s' h hkeeps hs'
    cases hs'
    exact h.act hkeeps
  have hbreak : ∀ (s : Semaphore T) a, s.Inv initial → ¬ s.Keeps a →
      ∃ s', s.step a = .ok s' ∧ ¬ s'.Conserves initial :=
    fun s a h hkeeps => ⟨s.act a, rfl, h.not_conserves hkeeps⟩
  exact throughout_iff_along (fun _ => Inv.conserves) hkeep hbreak (inv_new initial) acts

/-- A `Wait` of one thread times out, and another thread calls `Notify` before the first one has the
    mutex again. -/
def lateNotify : List (SemaphoreAct Bool) :=
  [.wait false 100, .run false, .run false, .wake false .timeout, .notify true, .run true,
    .run true, .run true, .run true, .run true, .run false, .run false, .run false, .run false]

/-- The token is gone, and `Wait` has returned false. -/
theorem not_conserves_lateNotify :
    ¬ Throughout step (Conserves 0) (new 0 : Semaphore Bool) lateNotify := by
  intro h
  obtain ⟨s, hs⟩ : ∃ s, run step (new 0 : Semaphore Bool) lateNotify = .ok s := ⟨_, rfl⟩
  have htokens := (h.last hs).settled
  cases hs
  exact absurd (htokens (by decide) (by decide)) (by decide)

end Semaphore

end Icl.Util
