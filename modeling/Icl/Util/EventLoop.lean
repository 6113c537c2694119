import Icl.Cxx.Bytes
import Icl.Transition.Fair
import Icl.Transition.Mutex

namespace Icl.Util

open Icl.Cxx Icl.Transition

/-!
# `EventLoop`

The model of `util/EventLoop.cpp`, for a caller that runs `Start` and then `Stop` and the thread
that `Start` makes.  Their steps come in any order, and every access to `mStopRequested` is a step
of its own.  How long the loop sleeps makes no difference: the thread wakes up when it takes its
next step.  The callbacks do not use the event loop, whose mutex the thread owns when it calls them.

* `EventLoop.step` — one step of the caller or of the loop thread;
* `StopHeeded` — the request of `Stop` is not lost, and `Stop` returns;
* `Timely` — the steps after which it is not lost;
* `stopHeeded_iff` — requests are heeded in the runs of such steps, and in no others;
* `stuck_of_not_timely` — in the others `Stop` waits forever.
-/

/-! ### Timers -/

/-- `Timer`: its period in milliseconds, and its next time in nanoseconds of the steady clock. -/
structure Timer (C : Type) where
  period : ℤ
  callBack : C
  next : ℤ

/-- Milliseconds in nanoseconds. -/
def nanoseconds (ms : ℤ) : ℤ := ms * 1000000

/-- `Next`, which reads the clock at `tp`: a `time_point` is a number of nanoseconds in 64 bits.  An
    overflow, which is undefined, wraps around. -/
def nextTime (tp delay : ℤ) : ℤ := (tp + nanoseconds delay).bmod (2 ^ 64)

section Timers

variable {C : Type}

/-- The loop of `UpdateTimers`, which has read the clock at `tp`: the timers, and the callbacks that
    it calls.  `Next` reads the clock again, at `now n` for the timer `n`. -/
def updateTimers (tp : ℤ) (now : Bytes → ℤ) :
    List (Bytes × Timer C) → List (Bytes × Timer C) × List C
  | [] => ([], [])
  | (n, t) :: mTimers =>
    let (rest, called) := updateTimers tp now mTimers
    if tp ≥ t.next then
      ((n, { t with next := nextTime (now n) t.period }) :: rest, t.callBack :: called)
    else ((n, t) :: rest, called)

/-- **The callbacks of the timers that are due are called**, in the order of the map. -/
theorem called_updateTimers (tp : ℤ) (now : Bytes → ℤ) (mTimers : List (Bytes × Timer C)) :
    (updateTimers tp now mTimers).2
      = (mTimers.filter fun e => tp ≥ e.2.next).map fun e => e.2.callBack := by
  induction mTimers with
  | nil => rfl
  | cons e mTimers ih =>
    obtain ⟨n, t⟩ := e
    rw [updateTimers, List.filter_cons]
    by_cases hdue : tp ≥ t.next
    · simp [hdue, ih]
    · simp [hdue, ih]

end Timers

/-! ### The threads -/

/-- Where the caller is. -/
inductive CallerPoint where
  /-- `Start` makes the thread. -/
  | start
  /-- `Start` assigns it to `mThread`. -/
  | assign
  | stopLock
  | stopStore
  | stopUnlock
  | stopJoinable
  | stopJoin
  /-- `Stop` has returned. -/
  | returned
  deriving DecidableEq, Repr

namespace CallerPoint

/-- The caller owns the mutex. -/
def inside : CallerPoint → Bool
  | .stopStore | .stopUnlock => true
  | _ => false

/-- `mThread` is the loop thread. -/
def holds : CallerPoint → Bool
  | .start | .assign | .returned => false
  | _ => true

/-- `Stop` has set `mStopRequested`. -/
def requested : CallerPoint → Bool
  | .stopUnlock | .stopJoinable | .stopJoin | .returned => true
  | _ => false

end CallerPoint

/-- Where the loop thread is. -/
inductive LoopPoint where
  /-- There is no such thread yet. -/
  | none
  /-- The assignment at the start of `Loop`. -/
  | init
  /-- The test of the loop. -/
  | test (stop : Bool)
  | sleep
  | lock
  | updateTimers
  /-- The assignment to `stop`. -/
  | load
  | unlock (stop : Bool)
  | ended
  deriving DecidableEq, Repr

namespace LoopPoint

/-- The loop thread owns the mutex. -/
def inside : LoopPoint → Bool
  | .updateTimers | .load | .unlock _ => true
  | _ => false

/-- The loop thread does not run the loop again. -/
def leaves : LoopPoint → Bool
  | .unlock stop | .test stop => stop
  | .ended => true
  | _ => false

end LoopPoint

/-- The two threads. -/
inductive Party where
  | caller
  | loop
  deriving DecidableEq, Repr

/-- `EventLoop`, with its threads.  `mThread` tells whether the thread is joinable.  The last two
    are not in the source: they are the callbacks that have been called, and whether the loop thread
    has read `mStopRequested` since `Stop` has set it. -/
structure EventLoop (C : Type) where
  mStopRequested : Bool
  mThread : Bool
  mAccessGuard : Option Party
  mTimers : List (Bytes × Timer C)
  caller : CallerPoint
  loop : LoopPoint
  called : List C
  checked : Bool

/-- What can happen. -/
inductive EventLoopAct where
  /-- The caller takes its next step. -/
  | caller
  /-- The loop thread takes its next step, with what it reads from the clock. -/
  | loop (tp : ℤ) (now : Bytes → ℤ)

/-- The thread that takes the step. -/
def EventLoopAct.party : EventLoopAct → Option Party
  | .caller => some .caller
  | .loop _ _ => some .loop

namespace EventLoop

variable {C : Type}

/-- Before `Start`.  `mStopRequested` is true if the loop has been stopped before. -/
def idle (mStopRequested : Bool) (mTimers : List (Bytes × Timer C)) : EventLoop C :=
  { mStopRequested, mThread := false, mAccessGuard := none, mTimers, caller := .start, loop := .none
    called := [], checked := false }

/-- The next step of the caller. -/
def runCaller (s : EventLoop C) : EventLoop C :=
  match s.caller with
  | .start => { s with loop := .init, caller := .assign }
  | .assign => { s with mThread := true, caller := .stopLock }
  | .stopLock =>
    match s.mAccessGuard with
    | none => { s with mAccessGuard := some .caller, caller := .stopStore }
    | some _ => s
  | .stopStore => { s with mStopRequested := true, caller := .stopUnlock }
  | .stopUnlock => { s with mAccessGuard := none, caller := .stopJoinable }
  | .stopJoinable => { s with caller := if s.mThread then .stopJoin else .returned }
  | .stopJoin => if s.loop = .ended then { s with mThread := false, caller := .returned } else s
  | .returned => s

/-- The next step of the loop thread. -/
def runLoop (tp : ℤ) (now : Bytes → ℤ) (s : EventLoop C) : EventLoop C :=
  match s.loop with
  | .none | .ended => s
  | .init => { s with mStopRequested := false, loop := .test false }
  | .test stop => { s with loop := if stop then .ended else .sleep }
  | .sleep => { s with loop := .lock }
  | .lock =>
    match s.mAccessGuard with
    | none => { s with mAccessGuard := some .loop, loop := .updateTimers }
    | some _ => s
  | .updateTimers =>
    let (mTimers, called) := updateTimers tp now s.mTimers
    { s with mTimers, called := s.called ++ called, loop := .load }
  | .load => { s with checked := s.caller.requested, loop := .unlock s.mStopRequested }
  | .unlock stop => { s with mAccessGuard := none, loop := .test stop }

/-- One step. -/
def step (s : EventLoop C) : EventLoopAct → EventLoop C
  | .caller => s.runCaller
  | .loop tp now => s.runLoop tp now

/-! ### Requests -/

/-- **The request is heeded**: once `Stop` has set `mStopRequested` it stays so, and once the loop
    thread has read it again, it leaves the loop. -/
structure Heeds (s : EventLoop C) : Prop where
  kept : s.caller.requested → s.mStopRequested = true
  heeded : s.checked → s.loop.leaves

/-- `Stop` has not set `mStopRequested` when the loop thread makes its first assignment. -/
def Timely (s : EventLoop C) : EventLoopAct → Prop
  | .caller => True
  | .loop _ _ => s.loop = .init → ¬ s.caller.requested

/-- **No request is lost**: it is heeded at all times, and when both threads go on again and again,
    `Stop` returns. -/
structure StopHeeded (s : EventLoop C) (schedule : ℕ → EventLoopAct) : Prop where
  heeds : ∀ n, (stateAt step s schedule n).Heeds
  returns : Fair EventLoopAct.party schedule →
    (∃ n, (stateAt step s schedule n).caller.requested) →
      ∃ n, (stateAt step s schedule n).caller = .returned

/-! ### The invariant -/

/-- Who is inside the critical section. -/
def inside (s : EventLoop C) : Party → Bool
  | .caller => s.caller.inside
  | .loop => s.loop.inside

/-- **The invariant.** -/
structure Inv (s : EventLoop C) : Prop where
  started : s.loop = .none ↔ s.caller = .start
  exclusive : Exclusive (fun b => b = true) s.mAccessGuard s.inside
  holds : s.mThread = s.caller.holds
  joined : s.caller = .returned → s.loop = .ended
  unchecked : s.loop = .none ∨ s.loop = .init → s.checked = false

/-- Before the start the invariant holds. -/
theorem inv_idle (mStopRequested : Bool) (mTimers : List (Bytes × Timer C)) :
    (idle mStopRequested mTimers).Inv := by
  refine ⟨by simp [idle], fun p => ?_, rfl, nofun, fun _ => rfl⟩
  cases p <;> simp [idle, inside, CallerPoint.inside, LoopPoint.inside]

section Step

variable {s s' : EventLoop C}

/-- A step of the caller changes where the caller is. -/
theorem inside_caller (hloop : s'.loop = s.loop) :
    s'.inside = Function.update s.inside .caller s'.caller.inside := by
  funext p
  cases p with
  | caller => rw [Function.update_self]; rfl
  | loop => rw [Function.update_of_ne (by decide), inside, inside, hloop]

/-- A step of the loop changes where the loop is. -/
theorem inside_loop (hcaller : s'.caller = s.caller) :
    s'.inside = Function.update s.inside .loop s'.loop.inside := by
  funext p
  cases p with
  | caller => rw [Function.update_of_ne (by decide), inside, inside, hcaller]
  | loop => rw [Function.update_self]; rfl

/-- The caller goes on, when `Start` has made the thread. -/
theorem Inv.caller (h : s.Inv) (hloop : s'.loop = s.loop) (hchecked : s'.checked = s.checked)
    (hstart : s.caller ≠ .start) (hstart' : s'.caller ≠ .start)
    (hexclusive : Exclusive (fun b => b = true) s'.mAccessGuard
      (Function.update s.inside .caller s'.caller.inside))
    (hholds : s'.mThread = s'.caller.holds) (hjoined : s'.caller = .returned → s.loop = .ended) :
    s'.Inv := by
  refine ⟨?_, inside_caller hloop ▸ hexclusive, hholds, hloop ▸ hjoined, ?_⟩
  · rw [hloop]
    exact iff_of_false (mt h.started.mp hstart) hstart'
  · rw [hloop, hchecked]
    exact h.unchecked

/-- The loop thread goes on. -/
theorem Inv.loop (h : s.Inv) (hcaller : s'.caller = s.caller) (hthread : s'.mThread = s.mThread)
    (hloop : s.loop ≠ .none ∧ s.loop ≠ .ended) (hloop' : s'.loop ≠ .none ∧ s'.loop ≠ .init)
    (hexclusive : Exclusive (fun b => b = true) s'.mAccessGuard
      (Function.update s.inside .loop s'.loop.inside)) : s'.Inv := by
  refine ⟨?_, inside_loop hcaller ▸ hexclusive, ?_, ?_, ?_⟩
  · rw [hcaller]
    exact iff_of_false hloop'.1 (mt h.started.mpr hloop.1)
  · rw [hthread, hcaller]
    exact h.holds
  · rw [hcaller]
    exact fun hreturned => absurd (h.joined hreturned) hloop.2
  · rintro (hnone | hinit)
    · exact absurd hnone hloop'.1
    · exact absurd hinit hloop'.2

/-- **Each step of the caller keeps the invariant.** -/
theorem Inv.runCaller (h : s.Inv) : s.runCaller.Inv := by
  have hholds := h.holds
  have hinside : s.inside .caller = s.caller.inside := rfl
  unfold EventLoop.runCaller
  cases hp : s.caller with
  | start =>
    have hloop := h.started.mpr hp
    refine ⟨by simp, ?_, ?_, nofun, fun _ => h.unchecked (.inl hloop)⟩
    -- Both threads are outside before and after.
    · have hsame : ({ s with loop := .init, caller := .assign } : EventLoop C).inside
          = s.inside := by
        funext p
        cases p with
        | caller => rw [hinside, hp]; rfl
        | loop => rw [inside, inside, hloop]; rfl
      rw [hsame]
      exact h.exclusive
    · show s.mThread = false
      rw [hholds, hp]
      rfl
  | assign =>
    exact h.caller rfl rfl (by simp [hp]) (by simp)
      (h.exclusive.move (by rw [hinside, hp]; rfl)) rfl nofun
  | stopLock =>
    dsimp only
    split
    case h_1 hfree =>
      have hexclusive := h.exclusive
      rw [hfree] at hexclusive
      exact h.caller rfl rfl (by simp [hp]) (by simp) (hexclusive.acquire rfl)
        (by rw [hholds, hp]; rfl) nofun
    case h_2 => exact h
  | stopStore =>
    exact h.caller rfl rfl (by simp [hp]) (by simp)
      (h.exclusive.move (by rw [hinside, hp]; rfl)) (by rw [hholds, hp]; rfl) nofun
  | stopUnlock =>
    exact h.caller rfl rfl (by simp [hp]) (by simp)
      (h.exclusive.release (by rw [hinside, hp]; rfl) (by simp [CallerPoint.inside]))
      (by rw [hholds, hp]; rfl) nofun
  | stopJoinable =>
    have hthread : s.mThread = true := by rw [hholds, hp]; rfl
    simp only [hthread, if_true]
    exact h.caller rfl rfl (by simp [hp]) (by simp)
      (h.exclusive.move (by rw [hinside, hp]; rfl)) rfl nofun
  | stopJoin =>
    dsimp only
    split_ifs with hended
    · exact h.caller rfl rfl (by simp [hp]) (by simp)
        (h.exclusive.move (by rw [hinside, hp]; rfl)) rfl fun _ => hended
    · exact h
  | returned => exact h

/-- **Each step of the loop keeps the invariant.** -/
theorem Inv.runLoop (h : s.Inv) (tp : ℤ) (now : Bytes → ℤ) : (s.runLoop tp now).Inv := by
  have hinside : s.inside .loop = s.loop.inside := rfl
  unfold EventLoop.runLoop
  -- One case for each point the loop can be at.
  cases hp : s.loop with
  | none | ended => exact h
  | init | sleep | load | updateTimers =>
    exact h.loop rfl rfl (by simp [hp]) (by simp) (h.exclusive.move (by rw [hinside, hp]; rfl))
  | test stop =>
    refine h.loop rfl rfl (by simp [hp]) ?_ (h.exclusive.move ?_)
    · cases stop <;> simp
    · rw [hinside, hp]
      cases stop <;> rfl
  | lock =>
    dsimp only
    split
    case h_1 hfree =>
      have hexclusive := h.exclusive
      rw [hfree] at hexclusive
      exact h.loop rfl rfl (by simp [hp]) (by simp) (hexclusive.acquire rfl)
    case h_2 => exact h
  | unlock stop =>
    exact h.loop rfl rfl (by simp [hp]) (by simp)
      (h.exclusive.release (by rw [hinside, hp]; rfl) (by simp [LoopPoint.inside]))

/-- **The step lemma.** -/
theorem Inv.step (h : s.Inv) (a : EventLoopAct) : (s.step a).Inv := by
  cases a with
  | caller => exact h.runCaller
  | loop tp now => exact h.runLoop tp now

/-! ### What a step does to a request -/

/-- **A stop that is asked for is kept** by the steps of the caller. -/
theorem Heeds.runCaller (hinv : s.Inv) (h : s.Heeds) : s.runCaller.Heeds := by
  unfold EventLoop.runCaller
  -- One case for each point the caller can be at; only the store changes the flag.
  cases hp : s.caller with
  | start =>
    have hunchecked := hinv.unchecked (.inl (hinv.started.mpr hp))
    exact ⟨nofun, fun hchecked => by simp [hunchecked] at hchecked⟩
  | assign => exact ⟨nofun, h.heeded⟩
  | stopLock =>
    dsimp only
    split
    case h_1 => exact ⟨nofun, h.heeded⟩
    case h_2 => exact h
  | stopStore => exact ⟨fun _ => rfl, h.heeded⟩
  | stopUnlock | stopJoinable => exact ⟨fun _ => h.kept (hp ▸ rfl), h.heeded⟩
  | stopJoin =>
    dsimp only
    split_ifs
    · exact ⟨fun _ => h.kept (hp ▸ rfl), h.heeded⟩
    · exact h
  | returned => exact h

/-- So it is by those of the loop that come in time. -/
theorem Heeds.runLoop (hinv : s.Inv) (h : s.Heeds) {tp : ℤ} {now : Bytes → ℤ}
    (htimely : s.Timely (.loop tp now)) : (s.runLoop tp now).Heeds := by
  have hleaves := h.heeded
  unfold EventLoop.runLoop
  cases hp : s.loop with
  | none | ended => exact h
  | init =>
    have hunchecked := hinv.unchecked (.inr hp)
    exact ⟨fun hrequested => absurd hrequested (htimely hp),
      fun hchecked => by simp [hunchecked] at hchecked⟩
  | sleep | updateTimers =>
    rw [hp] at hleaves
    exact ⟨h.kept, fun hchecked => nomatch hleaves hchecked⟩
  | lock =>
    rw [hp] at hleaves
    dsimp only
    split
    case h_1 => exact ⟨h.kept, fun hchecked => nomatch hleaves hchecked⟩
    case h_2 => exact h
  -- The flag is read after the request, or there is none yet.
  | load => exact ⟨h.kept, fun hrequested => h.kept hrequested⟩
  | unlock stop =>
    rw [hp] at hleaves
    exact ⟨h.kept, hleaves⟩
  | test stop =>
    rw [hp] at hleaves
    refine ⟨h.kept, fun hchecked => ?_⟩
    have hstop : stop = true := hleaves hchecked
    rw [hstop]
    rfl

/-- **A timely step leaves the request heeded.** -/
theorem Heeds.step (hinv : s.Inv) (h : s.Heeds) {a : EventLoopAct} (htimely : s.Timely a) :
    (s.step a).Heeds := by
  cases a with
  | caller => exact h.runCaller hinv
  | loop tp now => exact h.runLoop hinv htimely

/-- After the request the caller changes neither the flag nor the loop thread. -/
theorem runCaller_requested (h : s.caller.requested) :
    s.runCaller.caller.requested ∧ s.runCaller.mStopRequested = s.mStopRequested ∧
      s.runCaller.loop = s.loop := by
  unfold EventLoop.runCaller
  cases hp : s.caller with
  | start | assign | stopLock | stopStore =>
    rw [hp] at h
    exact nomatch h
  | stopUnlock => exact ⟨rfl, rfl, rfl⟩
  | stopJoinable =>
    refine ⟨?_, rfl, rfl⟩
    dsimp only
    split_ifs <;> rfl
  | stopJoin =>
    dsimp only
    split_ifs
    · exact ⟨rfl, rfl, rfl⟩
    · exact ⟨h, rfl, rfl⟩
  | returned => exact ⟨h, rfl, rfl⟩

/-- The loop does not move the caller. -/
theorem runLoop_caller (s : EventLoop C) (tp : ℤ) (now : Bytes → ℤ) :
    (s.runLoop tp now).caller = s.caller := by
  unfold EventLoop.runLoop
  cases s.loop with
  | lock =>
    dsimp only
    split <;> rfl
  | _ => rfl

/-- What has been asked for stays asked for. -/
theorem requested_step (h : s.caller.requested) (a : EventLoopAct) :
    (s.step a).caller.requested := by
  cases a with
  | caller => exact (runCaller_requested h).1
  | loop tp now =>
    rw [EventLoop.step, runLoop_caller]
    exact h

/-- The request has been lost, and the loop goes on. -/
structure Lost (s : EventLoop C) : Prop where
  requested : s.caller.requested
  flag : s.mStopRequested = false
  goesOn : s.loop.leaves = false

/-- **A step that is not timely loses the request.** -/
theorem lost_of_not_timely {a : EventLoopAct} (htimely : ¬ s.Timely a) : (s.step a).Lost := by
  cases a with
  | caller => exact absurd trivial htimely
  | loop tp now =>
    obtain ⟨hp, hrequested⟩ := Classical.not_imp.mp htimely
    rw [EventLoop.step, EventLoop.runLoop, hp]
    exact ⟨not_not.mp hrequested, rfl, rfl⟩

/-- A request that has been lost stays so. -/
theorem Lost.step (h : s.Lost) (a : EventLoopAct) : (s.step a).Lost := by
  have hrequested := requested_step h.requested a
  cases a with
  | caller =>
    obtain ⟨-, hflag, hloop⟩ := runCaller_requested h.requested
    exact ⟨hrequested, hflag.trans h.flag, by rw [EventLoop.step, hloop, h.goesOn]⟩
  | loop tp now =>
    have hgoesOn := h.goesOn
    rw [EventLoop.step, EventLoop.runLoop]
    -- The loop has no point from which it would look for more than the flag it has put back.
    cases hp : s.loop with
    | none | ended => exact h
    | init => exact ⟨h.requested, rfl, rfl⟩
    | sleep | updateTimers => exact ⟨h.requested, h.flag, rfl⟩
    | lock =>
      dsimp only
      split
      case h_1 => exact ⟨h.requested, h.flag, rfl⟩
      case h_2 => exact h
    | load => exact ⟨h.requested, h.flag, h.flag⟩
    | unlock stop =>
      rw [hp] at hgoesOn
      exact ⟨h.requested, h.flag, hgoesOn⟩
    | test stop =>
      rw [hp] at hgoesOn
      obtain rfl : stop = false := hgoesOn
      exact ⟨h.requested, h.flag, rfl⟩

/-- While it is lost, `Stop` does not return. -/
theorem Lost.not_returned (h : s.Lost) (hinv : s.Inv) : s.caller ≠ .returned := by
  intro hreturned
  have hgoesOn := h.goesOn
  rw [hinv.joined hreturned] at hgoesOn
  exact nomatch hgoesOn

/-! ### The end of the loop -/

end Step

end EventLoop

/-- The steps that the caller still has to take. -/
def CallerPoint.left : CallerPoint → ℕ
  | .start => 7
  | .assign => 6
  | .stopLock => 5
  | .stopStore => 4
  | .stopUnlock => 3
  | .stopJoinable => 2
  | .stopJoin => 1
  | .returned => 0

/-- The steps that the loop thread still has to take, when `mStopRequested` is true. -/
def LoopPoint.left : LoopPoint → ℕ
  | .none => 10
  | .init => 9
  | .unlock false => 8
  | .test false => 7
  | .sleep => 6
  | .lock => 5
  | .updateTimers => 4
  | .load => 3
  | .unlock true => 2
  | .test true => 1
  | .ended => 0

namespace EventLoop

variable {C : Type} {s : EventLoop C}

/-- The steps that are left. -/
def left (s : EventLoop C) : ℕ := s.caller.left + s.loop.left

/-- The thread waits for the other one, or has come to its end. -/
def Blocked (s : EventLoop C) : Party → Prop
  | .caller => s.caller = .returned ∨ s.caller = .stopJoin ∧ s.loop ≠ .ended
  | .loop => s.loop = .ended ∨ s.loop = .lock ∧ s.mAccessGuard ≠ none

/-- A party that is blocked does nothing. -/
theorem step_of_blocked {a : EventLoopAct} {p : Party} (hparty : a.party = some p)
    (h : s.Blocked p) : s.step a = s := by
  cases a with
  | caller =>
    cases hparty
    rw [step, runCaller]
    obtain hp | ⟨hp, hended⟩ := h
    · rw [hp]
    · rw [hp]
      exact if_neg hended
  | loop tp now =>
    cases hparty
    rw [step, runLoop]
    -- The loop is blocked at its end, or where the caller holds the lock.
    obtain hp | ⟨hp, hguard⟩ := h
    · rw [hp]
    · rw [hp]
      dsimp only
      split
      case h_1 hfree => exact absurd hfree hguard
      case h_2 => rfl

/-- `Stop` has set `mStopRequested`, and the request is heeded. -/
structure Asked (s : EventLoop C) : Prop where
  inv : s.Inv
  heeds : s.Heeds
  requested : s.caller.requested

/-- **A stop that is asked for stays so**, whatever comes next. -/
theorem Asked.step (h : s.Asked) {a : EventLoopAct} (htimely : s.Timely a) : (s.step a).Asked :=
  ⟨h.inv.step a, h.heeds.step h.inv htimely, requested_step h.requested a⟩

/-- Each step of the caller brings the end nearer. -/
theorem Asked.left_runCaller (h : s.Asked) (hblocked : ¬ s.Blocked .caller) :
    s.runCaller.left < s.left := by
  have hrequested := h.requested
  unfold runCaller
  cases hp : s.caller with
  | start | assign | stopLock | stopStore =>
    rw [hp] at hrequested
    exact nomatch hrequested
  | stopUnlock => simp [left, hp, CallerPoint.left]
  | stopJoinable => cases s.mThread <;> simp [left, hp, CallerPoint.left]
  | stopJoin =>
    have hended : s.loop = .ended := by
      by_contra hended
      exact hblocked (.inr ⟨hp, hended⟩)
    simp [left, hp, hended, CallerPoint.left]
  | returned => exact absurd (.inl hp) hblocked

/-- So does each step of the loop. -/
theorem Asked.left_runLoop (h : s.Asked) {tp : ℤ} {now : Bytes → ℤ}
    (htimely : s.Timely (.loop tp now)) (hblocked : ¬ s.Blocked .loop) :
    (s.runLoop tp now).left < s.left := by
  have hrequested := h.requested
  unfold runLoop
  cases hp : s.loop with
  | none =>
    rw [h.inv.started.mp hp] at hrequested
    exact nomatch hrequested
  | init => exact absurd hrequested (htimely hp)
  | sleep | updateTimers => simp [left, hp, LoopPoint.left]
  | lock =>
    dsimp only
    split
    case h_1 => simp [left, hp, LoopPoint.left]
    case h_2 party hguard => exact absurd (.inr ⟨hp, by simp [hguard]⟩) hblocked
  -- The flag that is read is true.
  | load => simp [left, hp, LoopPoint.left, h.heeds.kept hrequested]
  | unlock stop => cases stop <;> simp [left, hp, LoopPoint.left]
  | test stop => cases stop <;> simp [left, hp, LoopPoint.left]
  | ended => exact absurd (.inl hp) hblocked

/-- Every other step brings the end nearer. -/
theorem Asked.left_step (h : s.Asked) {a : EventLoopAct} {p : Party} (htimely : s.Timely a)
    (hparty : a.party = some p) (hblocked : ¬ s.Blocked p) : (s.step a).left < s.left := by
  cases a with
  | caller =>
    obtain rfl := Option.some.inj hparty
    exact h.left_runCaller hblocked
  | loop tp now =>
    obtain rfl := Option.some.inj hparty
    exact h.left_runLoop htimely hblocked

/-- Until `Stop` returns, one thread is not blocked. -/
theorem Asked.exists_not_blocked (h : s.Asked) (hreturned : s.caller ≠ .returned) :
    ∃ p, ¬ s.Blocked p := by
  by_cases hcaller : s.Blocked .caller
  · obtain ⟨hp, hended⟩ := hcaller.resolve_left hreturned
    refine ⟨.loop, ?_⟩
    rintro (hended' | ⟨hlock, hguard⟩)
    · exact hended hended'
    -- The mutex is free: neither thread is inside.
    · obtain ⟨p, hguard⟩ := Option.ne_none_iff_exists'.mp hguard
      have hinside := (h.inv.exclusive p).mpr hguard
      cases p with
      | caller => simp [inside, hp, CallerPoint.inside] at hinside
      | loop => simp [inside, hlock, LoopPoint.inside] at hinside
  · exact ⟨.caller, hcaller⟩

/-! ### Runs -/

section Runs

variable {schedule : ℕ → EventLoopAct}

/-- The invariant holds at every time of a schedule. -/
theorem inv_at (hs : s.Inv) (n : ℕ) : (stateAt step s schedule n).Inv := by
  have hstep : ∀ (s : EventLoop C) a, True → s.Inv → (s.step a).Inv := fun s a _ h => h.step a
  have hstart : (stateAt step s schedule 0).Inv := hs
  exact invariant_at hstep (fun _ _ => trivial) hstart n (Nat.zero_le n)

/-- In a run of timely steps the request is heeded at all times. -/
theorem heeds_at (hs : s.Inv) (hheeds : s.Heeds)
    (htimely : ∀ n, (stateAt step s schedule n).Timely (schedule n)) (n : ℕ) :
    (stateAt step s schedule n).Heeds := by
  induction n with
  | zero => exact hheeds
  | succ n ih => exact ih.step (inv_at hs n) (htimely n)

/-- **`Stop` returns at last**, in a run of timely steps in which both threads go on again and
    again. -/
theorem eventually_returned (htimely : ∀ n, (stateAt step s schedule n).Timely (schedule n))
    (hfair : Fair EventLoopAct.party schedule) {start : ℕ}
    (hasked : (stateAt step s schedule start).Asked) :
    ∃ n, (stateAt step s schedule n).caller = .returned := by
  have hstep : ∀ (s : EventLoop C) a, s.Timely a → s.Asked → (s.step a).Asked :=
    fun s a htimely h => h.step htimely
  have hkeep : ∀ (s : EventLoop C) a p, s.Timely a → s.Asked → ¬ s.Blocked p →
      (s.step a).left < s.left ∨
        a.party ≠ some p ∧ (s.step a).left ≤ s.left ∧ ¬ (s.step a).Blocked p := by
    intro s a p htimely h hp
    obtain ⟨q, hq⟩ : ∃ q, a.party = some q := by
      cases a with
      | caller => exact ⟨.caller, rfl⟩
      | loop tp now => exact ⟨.loop, rfl⟩
    by_cases hblocked : s.Blocked q
    -- The step of a thread that is blocked changes nothing.
    · rw [step_of_blocked hq hblocked]
      refine .inr ⟨?_, le_rfl, hp⟩
      intro hparty
      obtain rfl : q = p := Option.some.inj (hq.symm.trans hparty)
      exact hp hblocked
    · exact .inl (h.left_step htimely hq hblocked)
  have hhelps : ∀ s : EventLoop C, s.Asked → s.caller ≠ .returned → ∃ p, ¬ s.Blocked p :=
    fun s h => h.exists_not_blocked
  obtain ⟨n, -, hn⟩ := eventually_of_helpful hstep hkeep hhelps hfair (fun n _ => htimely n) hasked
  exact ⟨n, hn⟩

/-- **A request that is lost is lost for good**: from the step on, `Stop` waits. -/
theorem stuck_of_not_timely (hs : s.Inv) {n : ℕ}
    (htimely : ¬ (stateAt step s schedule n).Timely (schedule n)) :
    ∀ m ≥ n + 1, (stateAt step s schedule m).Lost ∧
      (stateAt step s schedule m).caller ≠ .returned := by
  have hstep : ∀ (s : EventLoop C) a, True → s.Lost → (s.step a).Lost := fun s a _ h => h.step a
  have hlost : (stateAt step s schedule (n + 1)).Lost := lost_of_not_timely htimely
  intro m hm
  have hm' := invariant_at hstep (fun _ _ => trivial) hlost m hm
  exact ⟨hm', hm'.not_returned (inv_at hs m)⟩

end Runs

/-- **A request to stop is heeded** in the runs in which `Stop` has not set `mStopRequested` before
    the loop thread makes its first assignment, and in no others. -/
theorem stopHeeded_iff (mStopRequested : Bool) (mTimers : List (Bytes × Timer C))
    (schedule : ℕ → EventLoopAct) :
    StopHeeded (idle mStopRequested mTimers) schedule ↔
      ∀ n, (stateAt step (idle mStopRequested mTimers) schedule n).Timely (schedule n) := by
  have hinv := inv_idle mStopRequested mTimers
  constructor
  · intro h n
    by_contra htimely
    obtain ⟨hlost, -⟩ := stuck_of_not_timely hinv htimely (n + 1) le_rfl
    have hkept := (h.heeds (n + 1)).kept hlost.requested
    rw [hlost.flag] at hkept
    exact nomatch hkept
  · intro htimely
    have hheeds := heeds_at hinv ⟨nofun, nofun⟩ htimely
    refine ⟨hheeds, fun hfair ⟨n, hrequested⟩ => ?_⟩
    exact eventually_returned htimely hfair ⟨inv_at hinv n, hheeds n, hrequested⟩

/-- `Stop` is called before the loop thread runs for the first time. -/
def stopFirst (n : ℕ) : EventLoopAct :=
  if n < 4 ∨ n % 2 = 0 then .caller else .loop 0 fun _ => 0

/-- The request is lost. -/
theorem not_stopHeeded_stopFirst : ¬ StopHeeded (idle false [] : EventLoop Unit) stopFirst := by
  intro h
  have hkept := (h.heeds 6).kept (by decide)
  exact absurd hkept (by decide)

end EventLoop

end Icl.Util
