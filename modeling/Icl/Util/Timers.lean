import Icl.Cxx.OrdMap
import Icl.Transition.Run
import Icl.Util.EventLoop

namespace Icl.Util

open Icl.Cxx Icl.Transition

/-!
# The timers of an event loop

`AddTimer`, `ModifyTimer` and `UpdateTimers` of `util/EventLoop.cpp`, called by any number of
threads.  What a call does with the mutex held is a step, but for `UpdateTimers`, each timer of
which is a step of its own.  `AddTimer` reads the clock first and then waits for the mutex, so that
its reading may fall between any two others.  The clock counts nanoseconds, a period milliseconds.

* `TimerTable.step` — the calls, with what they read from the clock, and `Outcome` for what they do;
* `run_pass` — the steps of one `UpdateTimers`, together;
* `NeverEarly` — each firing is a period or more behind what has happened to its timer before;
* `TimerTable.InTime` — the step computes no next time that is past the end of the clock;
* `TimerTable.Inv` — the invariant: the next time of a timer is a period or more behind all that has
  happened to it;
* `neverEarly_of_inTime` — in a run of such steps, with a clock that does not go back, no timer
  fires early;
* `fires_early` — a timer with the longest period there is fires in the next pass.
-/

/-! ### Events -/

/-- What can happen to a timer. -/
inductive TimerEventKind where
  | added | modified | fired
  deriving DecidableEq, Repr

/-- An event of a timer, with the clock reading from which its next time is counted, and its period
    then. -/
structure TimerEvent where
  kind : TimerEventKind
  name : Bytes
  date : ℤ
  period : ℤ
  deriving DecidableEq, Repr

/-- **What should hold**: a timer fires a period or more after it was added, after it was modified
    and after it fired before. -/
def NeverEarly (log : List TimerEvent) : Prop :=
  log.Pairwise fun e e' => e'.kind = .fired → e.name = e'.name →
    e.date + nanoseconds e'.period ≤ e'.date

/-- The clock does not go back. -/
def MonotoneClock (readings : List ℤ) : Prop := readings.Pairwise (· ≤ ·)

/-! ### The calls -/

/-- A call of `AddTimer` that has read the clock, at `date`, and waits for the mutex. -/
structure AddCall (C : Type) where
  name : Bytes
  tm : Timer C
  date : ℤ

/-- The timers of an `EventLoop`, with the calls of `AddTimer` that wait and the `UpdateTimers` that
    runs, if any: its `tp`, and how many timers it is past.  The last three are not in the source:
    the callbacks called, the readings of the clock and the events, in order. -/
structure TimerTable (C : Type) where
  mTimers : List (Bytes × Timer C)
  adding : List (AddCall C)
  updating : Option (ℤ × ℕ)
  called : List C
  readings : List ℤ
  log : List TimerEvent

/-- What can happen. -/
inductive TimerAct (C : Type) where
  /-- `AddTimer` is called, and reads the clock. -/
  | addTimer (name : Bytes) (period : ℤ) (callBack : C) (now : ℤ)
  /-- The call at index `k` of those that wait goes on. -/
  | insert (k : ℕ)
  | modifyTimer (name : Bytes) (newPeriod now : ℤ)
  /-- `UpdateTimers` is called, and reads the clock. -/
  | updateTimers (tp : ℤ)
  /-- The next round of its loop, or its end.  The clock is read if the timer is due. -/
  | round (now : ℤ)

/-- The clock lasts until then. -/
def Lasts (tp delay : ℤ) : Prop := tp + nanoseconds delay < 2 ^ 63

instance (tp delay : ℤ) : Decidable (Lasts tp delay) :=
  inferInstanceAs (Decidable (tp + nanoseconds delay < 2 ^ 63))

/-- **The next time is not too early** if the clock lasts until then: one that is too far back for
    64 bits wraps around to the end. -/
theorem le_nextTime {tp delay : ℤ} (h : Lasts tp delay) :
    tp + nanoseconds delay ≤ nextTime tp delay := by
  unfold Lasts at h
  rw [nextTime]
  by_cases hback : -2 ^ 63 ≤ tp + nanoseconds delay
  · exact le_of_eq (Int.bmod_eq_of_le (by omega) (by omega)).symm
  · have hle : -2 ^ 63 ≤ (tp + nanoseconds delay).bmod (2 ^ 64) := Int.le_bmod (by decide)
    omega

namespace TimerTable

variable {C : Type}

/-- The constructor of `EventLoop`. -/
def new : TimerTable C :=
  { mTimers := [], adding := [], updating := none, called := [], readings := [], log := [] }

/-- `AddTimer`, up to the mutex. -/
def addTimer (name : Bytes) (period : ℤ) (callBack : C) (now : ℤ) (s : TimerTable C) :
    TimerTable C :=
  let tm : Timer C := { period, callBack, next := nextTime now period }
  { s with adding := s.adding ++ [⟨name, tm, now⟩], readings := s.readings ++ [now] }

/-- The rest of `AddTimer`. -/
def insert (k : ℕ) (s : TimerTable C) : TimerTable C :=
  match s.adding[k]? with
  | none => s
  | some call =>
    { s with
      adding := s.adding.eraseIdx k
      mTimers := OrdMap.insertNew call.name call.tm s.mTimers
      log := s.log ++ match OrdMap.find? call.name s.mTimers with
        | some _ => []
        | none => [⟨.added, call.name, call.date, call.tm.period⟩] }

/-- The timer `t` gets a period and, from the clock, its next time. -/
def reload (kind : TimerEventKind) (name : Bytes) (t : Timer C) (period now : ℤ)
    (s : TimerTable C) : TimerTable C :=
  { s with
    mTimers := OrdMap.assign name { t with period, next := nextTime now period } s.mTimers
    readings := s.readings ++ [now]
    log := s.log ++ [⟨kind, name, now, period⟩] }

/-- `ModifyTimer`.  No timer is ever removed, so that it makes no difference that the first look at
    the map comes before the mutex. -/
def modifyTimer (name : Bytes) (newPeriod now : ℤ) (s : TimerTable C) : TimerTable C :=
  match OrdMap.find? name s.mTimers with
  | none => s
  | some t => s.reload .modified name t newPeriod now

/-- A round of the loop of `UpdateTimers`. -/
def round (now : ℤ) (s : TimerTable C) : TimerTable C :=
  match s.updating with
  | none => s
  | some (tp, i) =>
    match s.mTimers[i]? with
    | none => { s with updating := none }
    | some (n, t) =>
      if tp ≥ t.next then
        { s.reload .fired n t t.period now with
          updating := some (tp, i + 1)
          called := s.called ++ [t.callBack] }
      else { s with updating := some (tp, i + 1) }

/-- One step.  A call that waits for the mutex changes nothing. -/
def step (s : TimerTable C) : TimerAct C → Except Fault (TimerTable C)
  | .addTimer name period callBack now => .ok (s.addTimer name period callBack now)
  | .insert k => .ok (if s.updating.isSome then s else s.insert k)
  | .modifyTimer name newPeriod now =>
    .ok (if s.updating.isSome then s else s.modifyTimer name newPeriod now)
  | .updateTimers tp =>
    .ok (if s.updating.isSome then s
      else { s with updating := some (tp, 0), readings := s.readings ++ [tp] })
  | .round now => .ok (s.round now)

/-- The timer whose round it is, when it is due. -/
def due (s : TimerTable C) : Option (Timer C) :=
  match s.updating with
  | none => none
  | some (tp, i) => (s.mTimers[i]?.map Prod.snd).filter fun t => t.next ≤ tp

/-- **The step computes no next time past the end of the clock.** -/
def InTime (s : TimerTable C) : TimerAct C → Prop
  | .addTimer _ period _ now => Lasts now period
  | .modifyTimer _ newPeriod now => Lasts now newPeriod
  | .round now => ∀ t ∈ s.due, Lasts now t.period
  | .insert _ | .updateTimers _ => True

instance (s : TimerTable C) : (a : TimerAct C) → Decidable (s.InTime a)
  | .addTimer _ period _ now => inferInstanceAs (Decidable (Lasts now period))
  | .modifyTimer _ newPeriod now => inferInstanceAs (Decidable (Lasts now newPeriod))
  | .round now => inferInstanceAs (Decidable (∀ t ∈ s.due, Lasts now t.period))
  | .insert _ | .updateTimers _ => isTrue trivial

/-- What a step can do. -/
inductive Outcome (s : TimerTable C) : TimerAct C → TimerTable C → Prop where
  | same (a : TimerAct C) : Outcome s a s
  | addTimer (name : Bytes) (period : ℤ) (callBack : C) (now : ℤ) :
    Outcome s (.addTimer name period callBack now) (s.addTimer name period callBack now)
  | insert (k : ℕ) : Outcome s (.insert k) (s.insert k)
  | modified {name : Bytes} {t : Timer C} (newPeriod now : ℤ) (ht : (name, t) ∈ s.mTimers) :
    Outcome s (.modifyTimer name newPeriod now) (s.reload .modified name t newPeriod now)
  | began (tp : ℤ) :
    Outcome s (.updateTimers tp)
      { s with updating := some (tp, 0), readings := s.readings ++ [tp] }
  /-- A timer that is not due. -/
  | passed {tp : ℤ} {i : ℕ} (now : ℤ) (hupdating : s.updating = some (tp, i)) :
    Outcome s (.round now) { s with updating := some (tp, i + 1) }
  | ended (now : ℤ) : Outcome s (.round now) { s with updating := none }
  | fired {tp : ℤ} {i : ℕ} {n : Bytes} {t : Timer C} (now : ℤ)
      (hupdating : s.updating = some (tp, i)) (ht : (n, t) ∈ s.mTimers) (hdue : t.next ≤ tp)
      (hround : t ∈ s.due) :
    Outcome s (.round now) { s.reload .fired n t t.period now with
      updating := some (tp, i + 1)
      called := s.called ++ [t.callBack] }

/-- **The inversion lemma.** -/
theorem outcome_step {s s' : TimerTable C} {a : TimerAct C} (hs' : s.step a = .ok s') :
    Outcome s a s' := by
  cases a with
  | addTimer name period callBack now =>
    obtain rfl := Except.ok.inj hs'
    exact .addTimer name period callBack now
  | insert k =>
    obtain rfl := Except.ok.inj hs'
    split_ifs
    · exact .same _
    · exact .insert k
  | modifyTimer name newPeriod now =>
    obtain rfl := Except.ok.inj hs'
    unfold modifyTimer
    split_ifs
    · exact .same _
    -- A timer that is not there is not modified.
    · cases hfind : OrdMap.find? name s.mTimers with
      | none => exact .same _
      | some t => exact .modified newPeriod now (OrdMap.mem_of_find? hfind)
  | updateTimers tp =>
    obtain rfl := Except.ok.inj hs'
    split_ifs
    · exact .same _
    · exact .began tp
  -- The round of `UpdateTimers` looks at one timer: it is due, or it is passed.
  | round now =>
    obtain rfl := Except.ok.inj hs'
    unfold round
    cases hupdating : s.updating with
    | none => exact .same _
    | some u =>
      obtain ⟨tp, i⟩ := u
      dsimp only
      cases hget : s.mTimers[i]? with
      | none => exact .ended now
      | some p =>
        obtain ⟨n, t⟩ := p
        dsimp only
        split_ifs with hdue
        · have hround : t ∈ s.due := by simp [due, hupdating, hget, hdue]
          exact .fired now hupdating (List.mem_of_getElem? hget) hdue hround
        · exact .passed now hupdating

/-! ### The invariant -/

/-- **The invariant.**  The next time of a timer is a period or more behind all that has happened to
    it. -/
structure Inv (s : TimerTable C) : Prop where
  sorted : OrdMap.Sorted s.mTimers
  read : ∀ e ∈ s.log, e.date ∈ s.readings
  adding : ∀ call ∈ s.adding,
    call.date ∈ s.readings ∧ call.date + nanoseconds call.tm.period ≤ call.tm.next
  updating : ∀ u ∈ s.updating, u.1 ∈ s.readings
  known : ∀ e ∈ s.log, e.name ∈ s.mTimers.map Prod.fst
  behind : ∀ p ∈ s.mTimers, ∀ e ∈ s.log, e.name = p.1 →
    e.date + nanoseconds p.2.period ≤ p.2.next
  neverEarly : NeverEarly s.log

theorem inv_new : (new : TimerTable C).Inv where
  sorted := OrdMap.sorted_nil
  read := nofun
  adding := nofun
  updating := nofun
  known := nofun
  behind := nofun
  neverEarly := List.Pairwise.nil

end TimerTable

/-- A clock that does not go back is now at the end of its readings. -/
theorem MonotoneClock.le {readings : List ℤ} {now : ℤ}
    (h : MonotoneClock (readings ++ [now])) : ∀ r ∈ readings, r ≤ now :=
  fun r hr => (List.pairwise_append.mp h).2.2 r hr now List.mem_cons_self

/-- An event that is not a firing is never early. -/
theorem NeverEarly.concat {log : List TimerEvent} (h : NeverEarly log) {e' : TimerEvent}
    (he' : ∀ e ∈ log, e'.kind = .fired → e.name = e'.name →
      e.date + nanoseconds e'.period ≤ e'.date) :
    NeverEarly (log ++ [e']) := by
  refine List.pairwise_append.mpr ⟨h, List.pairwise_singleton _ _, fun e he e'' he'' => ?_⟩
  obtain rfl := List.mem_singleton.mp he''
  exact he' e he

namespace TimerTable

variable {C : Type} {s : TimerTable C}

/-- A call of `AddTimer` is added to those that wait. -/
theorem Inv.addTimer (h : s.Inv) (name : Bytes) {period now : ℤ} (hlasts : Lasts now period)
    (callBack : C) : (s.addTimer name period callBack now).Inv where
  sorted := h.sorted
  read e he := List.mem_append_left _ (h.read e he)
  adding := by
    intro call hcall
    rcases List.mem_append.mp hcall with hcall | hcall
    · obtain ⟨hdate, hnext⟩ := h.adding call hcall
      exact ⟨List.mem_append_left _ hdate, hnext⟩
    · obtain rfl := List.mem_singleton.mp hcall
      exact ⟨List.mem_append_right _ List.mem_cons_self, le_nextTime hlasts⟩
  updating u hu := List.mem_append_left _ (h.updating u hu)
  known := h.known
  behind := h.behind
  neverEarly := h.neverEarly

/-- Nothing changes for a timer that is there. -/
theorem insert_of_mem (hsorted : OrdMap.Sorted s.mTimers) {k : ℕ} {call : AddCall C}
    (hcall : s.adding[k]? = some call) (hmem : call.name ∈ s.mTimers.map Prod.fst) :
    s.insert k = { s with adding := s.adding.eraseIdx k } := by
  obtain ⟨t, hfind⟩ := OrdMap.exists_find? hmem
  unfold insert
  rw [hcall]
  dsimp only
  rw [hfind, OrdMap.insertNew_of_mem call.tm hsorted hmem]
  simp only [List.append_nil]

/-- A call of `AddTimer` comes to its end. -/
theorem Inv.insert (h : s.Inv) (k : ℕ) : (s.insert k).Inv := by
  unfold TimerTable.insert
  cases hcall : s.adding[k]? with
  | none => exact h
  | some call =>
    obtain ⟨hdate, hnext⟩ := h.adding call (List.mem_of_getElem? hcall)
    have hadding : ∀ call' ∈ s.adding.eraseIdx k, call' ∈ s.adding :=
      fun call' => List.mem_of_mem_eraseIdx
    by_cases hmem : call.name ∈ s.mTimers.map Prod.fst
    · have hinsert := insert_of_mem h.sorted hcall hmem
      rw [TimerTable.insert, hcall] at hinsert
      rw [hinsert]
      exact { h with adding := fun call' hcall' => h.adding call' (hadding call' hcall') }
    · have hfind : OrdMap.find? call.name s.mTimers = none :=
        OrdMap.find?_of_ne fun e he heq => hmem (heq ▸ List.mem_map_of_mem he)
      dsimp only
      rw [hfind]
      refine ⟨OrdMap.sorted_insertNew _ _ h.sorted, ?_,
        fun call' hcall' => h.adding call' (hadding call' hcall'), h.updating, ?_, ?_, ?_⟩
      · intro e he
        rcases List.mem_append.mp he with he | he
        · exact h.read e he
        · obtain rfl := List.mem_singleton.mp he
          exact hdate
      · intro e he
        rw [OrdMap.map_fst_insertNew]
        rcases List.mem_append.mp he with he | he
        · exact .inr (h.known e he)
        · obtain rfl := List.mem_singleton.mp he
          exact .inl rfl
      · intro p hp e he hname
        rcases OrdMap.mem_insertNew hp with rfl | hp
        · rcases List.mem_append.mp he with he | he
          -- Nothing has happened under a name that is new.
          · exact absurd ((show e.name = call.name from hname) ▸ h.known e he) hmem
          · obtain rfl := List.mem_singleton.mp he
            exact hnext
        · rcases List.mem_append.mp he with he | he
          · exact h.behind p hp e he hname
          · obtain rfl := List.mem_singleton.mp he
            exact absurd ((show call.name = p.1 from hname) ▸ List.mem_map_of_mem hp) hmem
      · exact h.neverEarly.concat nofun

/-- A timer that is modified, or fires when it is due. -/
theorem Inv.reload (h : s.Inv) {kind : TimerEventKind} {name : Bytes} {t : Timer C} {period now : ℤ}
    (ht : (name, t) ∈ s.mTimers) (hlasts : Lasts now period) (hnow : ∀ r ∈ s.readings, r ≤ now)
    (hfired : kind = .fired → period = t.period ∧ t.next ≤ now) :
    (s.reload kind name t period now).Inv := by
  unfold TimerTable.reload
  refine ⟨?_, ?_, ?_, fun u hu => List.mem_append_left _ (h.updating u hu), ?_, ?_, ?_⟩
  · unfold OrdMap.Sorted
    rw [← List.pairwise_map (f := Prod.fst), OrdMap.map_fst_assign, List.pairwise_map]
    exact h.sorted
  · intro e he
    rcases List.mem_append.mp he with he | he
    · exact List.mem_append_left _ (h.read e he)
    · obtain rfl := List.mem_singleton.mp he
      exact List.mem_append_right _ List.mem_cons_self
  · intro call hcall
    obtain ⟨hdate, hnext⟩ := h.adding call hcall
    exact ⟨List.mem_append_left _ hdate, hnext⟩
  · intro e he
    rw [OrdMap.map_fst_assign]
    rcases List.mem_append.mp he with he | he
    · exact h.known e he
    · obtain rfl := List.mem_singleton.mp he
      exact List.mem_map_of_mem ht
  · intro p hp e he hname
    rcases OrdMap.mem_assign h.sorted.nodup hp with rfl | ⟨hne, hp⟩
    · rcases List.mem_append.mp he with he | he
      -- The clock is past all that has happened before.
      · exact le_trans (add_le_add_left (hnow _ (h.read e he)) _) (le_nextTime hlasts)
      · obtain rfl := List.mem_singleton.mp he
        exact le_nextTime hlasts
    · rcases List.mem_append.mp he with he | he
      · exact h.behind p hp e he hname
      · obtain rfl := List.mem_singleton.mp he
        exact absurd hname.symm hne
  · refine h.neverEarly.concat fun e he hkind hname => ?_
    obtain ⟨rfl, hdue⟩ := hfired hkind
    exact le_trans (h.behind (name, t) ht e he hname) hdue

/-- **The step lemma.** -/
theorem Inv.step (h : s.Inv) {a : TimerAct C} {s' : TimerTable C} (htime : s.InTime a)
    (hs' : s.step a = .ok s') (hclock : MonotoneClock s'.readings) : s'.Inv := by
  cases outcome_step hs' with
  | same => exact h
  | addTimer name period callBack now => exact h.addTimer name htime callBack
  | insert k => exact h.insert k
  | modified newPeriod now ht => exact h.reload ht htime hclock.le nofun
  | began tp =>
    refine { h with
      read := fun e he => List.mem_append_left _ (h.read e he)
      adding := fun call hcall => ?_
      updating := fun u hu => ?_ }
    · obtain ⟨hdate, hnext⟩ := h.adding call hcall
      exact ⟨List.mem_append_left _ hdate, hnext⟩
    · obtain rfl := Option.some.inj hu
      exact List.mem_append_right _ List.mem_cons_self
  | @passed tp i now hupdating =>
    refine { h with updating := fun u hu => ?_ }
    obtain rfl := Option.some.inj hu
    exact h.updating (tp, i) hupdating
  | ended => exact { h with updating := nofun }
  | @fired tp i n t now hupdating ht hdue hround =>
    -- The timer is due at `tp`, and the clock has gone on since.
    have htp : tp ∈ s.readings := h.updating (tp, i) hupdating
    have hnow : ∀ r ∈ s.readings, r ≤ now := MonotoneClock.le hclock
    have hreload : (s.reload .fired n t t.period now).Inv :=
      h.reload ht (htime t hround) hnow fun _ => ⟨rfl, le_trans hdue (hnow tp htp)⟩
    refine { hreload with updating := fun u hu => ?_ }
    obtain rfl := Option.some.inj hu
    exact List.mem_append_left _ htp

/-! ### Runs -/

/-- The clock is only read. -/
theorem readings_step {a : TimerAct C} {s' : TimerTable C} (hs' : s.step a = .ok s') :
    s.readings <+: s'.readings := by
  cases outcome_step hs' with
  | same | passed | ended => exact List.prefix_rfl
  | addTimer | modified | began | fired => exact List.prefix_append _ _
  | insert k =>
    unfold insert
    split <;> exact List.prefix_rfl

/-- **The run lemma**, for a clock that does not go back and lasts. -/
theorem inv_of_run {acts : List (TimerAct C)} (hrun : run step new acts = .ok s)
    (htime : Along step InTime new acts) (hclock : MonotoneClock s.readings) : s.Inv := by
  -- A clock that has not gone back has not gone back before.
  have hstep : ∀ (s : TimerTable C) a s', s.InTime a → s.step a = .ok s' →
      (MonotoneClock s.readings → s.Inv) → MonotoneClock s'.readings → s'.Inv := by
    intro s a s' htime hs' hinv hclock
    have hback : MonotoneClock s.readings :=
      List.Pairwise.sublist (readings_step hs').sublist hclock
    exact (hinv hback).step htime hs' hclock
  exact invariant_along hstep htime hrun (fun _ => inv_new) hclock

/-! ### A pass -/

/-- The rounds for the timers that are left. -/
theorem run_rounds (tp : ℤ) (now : Bytes → ℤ) (s : TimerTable C)
    (before rest : List (Bytes × Timer C)) (hmTimers : s.mTimers = before ++ rest)
    (hnodup : ((before ++ rest).map Prod.fst).Nodup)
    (hupdating : s.updating = some (tp, before.length)) :
    ∃ s', run step s (rest.map fun e => .round (now e.1)) = .ok s' ∧
      s'.mTimers = before ++ (updateTimers tp now rest).1 ∧
      s'.called = s.called ++ (updateTimers tp now rest).2 ∧
      s'.updating = some (tp, s'.mTimers.length) := by
  induction rest generalizing s before with
  | nil =>
    refine ⟨s, rfl, hmTimers, (List.append_nil _).symm, ?_⟩
    rw [hupdating, hmTimers, List.append_nil]
  | cons e rest ih =>
    obtain ⟨n, t⟩ := e
    have hget : s.mTimers[before.length]? = some (n, t) := by simp [hmTimers]
    have hnew : n ∉ before.map Prod.fst := by
      rw [List.map_append, List.nodup_append] at hnodup
      exact fun hmem => hnodup.2.2 n hmem n (by simp) rfl
    rw [List.map_cons, run_cons, step, round, hupdating, updateTimers]
    dsimp only
    rw [hget]
    -- The first timer takes its round; its place in the map stays the same.
    by_cases hdue : tp ≥ t.next
    · dsimp only
      rw [if_pos hdue, if_pos hdue]
      let t' : Timer C := { t with next := nextTime (now n) t.period }
      have hassign : OrdMap.assign n t' s.mTimers = (before ++ [(n, t')]) ++ rest := by
        rw [hmTimers, OrdMap.assign_append hnew, List.append_assoc, List.singleton_append]
      obtain ⟨s', hrun, hmTimers', hcalled, hupdating'⟩ :=
        ih
          { s.reload .fired n t t.period (now n) with
            updating := some (tp, before.length + 1)
            called := s.called ++ [t.callBack] }
          (before ++ [(n, t')]) hassign (by simpa using hnodup) (by simp)
      refine ⟨s', hrun, ?_, ?_, hupdating'⟩
      · rw [hmTimers', List.append_assoc]
        rfl
      · rw [hcalled, List.append_assoc]
        rfl
    · dsimp only
      rw [if_neg hdue, if_neg hdue]
      obtain ⟨s', hrun, hmTimers', hcalled, hupdating'⟩ :=
        ih { s with updating := some (tp, before.length + 1) } (before ++ [(n, t)])
          (by simp [hmTimers]) (by simpa using hnodup) (by simp)
      refine ⟨s', hrun, ?_, hcalled, hupdating'⟩
      rw [hmTimers', List.append_assoc]
      rfl

/-- **A pass.**  The steps of one `UpdateTimers`, one after the other, are `updateTimers`. -/
theorem run_pass (hsorted : OrdMap.Sorted s.mTimers) (hidle : s.updating = none) (tp : ℤ)
    (now : Bytes → ℤ) :
    ∃ s', run step s (.updateTimers tp ::
          ((s.mTimers.map fun e => .round (now e.1)) ++ [.round tp])) = .ok s' ∧
      (s'.mTimers, s'.called) = (updateTimers tp now s.mTimers).map id (s.called ++ ·) ∧
      s'.updating = none := by
  obtain ⟨s', hrun, hmTimers, hcalled, hupdating⟩ :=
    run_rounds tp now { s with updating := some (tp, 0), readings := s.readings ++ [tp] }
      [] s.mTimers rfl hsorted.nodup rfl
  have hlast : s'.mTimers[s'.mTimers.length]? = none := List.getElem?_eq_none le_rfl
  refine ⟨{ s' with updating := none }, ?_, ?_, rfl⟩
  · rw [run_cons, step, hidle]
    refine (run_append _ _ _).trans ?_
    refine (congrArg (· >>= _) hrun).trans ?_
    show run step s' [.round tp] = _
    rw [run_cons, step, round, hupdating]
    dsimp only
    rw [hlast]
    rfl
  · exact Prod.ext hmTimers hcalled

end TimerTable

/-! ### Firings -/

/-- **No timer fires early**, whatever the calls, when the clock does not go back and every next
    time that is computed is before its end; and a timer that is added under a name that is there is
    not added. -/
theorem neverEarly_of_inTime {C : Type} {acts : List (TimerAct C)} {s : TimerTable C}
    (hrun : run TimerTable.step .new acts = .ok s)
    (htime : Along TimerTable.step TimerTable.InTime .new acts)
    (hclock : MonotoneClock s.readings) :
    NeverEarly s.log ∧
      ∀ k call, s.adding[k]? = some call → call.name ∈ s.mTimers.map Prod.fst →
        s.insert k = { s with adding := s.adding.eraseIdx k } := by
  have hinv := TimerTable.inv_of_run hrun htime hclock
  exact ⟨hinv.neverEarly, fun k call hcall => TimerTable.insert_of_mem hinv.sorted hcall⟩

/-- The timer `a` is added, fires, is modified and fires again; meanwhile `AddTimer` is called a
    second time with its name. -/
def addModifyFire : List (TimerAct Unit) :=
  [.addTimer [97] 10 () 0, .insert 0, .updateTimers 12000000, .addTimer [97] 3 () 12000000,
    .round 13000000, .round 13000000, .modifyTimer [97] 20 15000000, .updateTimers 36000000,
    .round 37000000]

/-- What it comes to. -/
def firedTwice : TimerTable Unit where
  mTimers := [([97], { period := 20, callBack := (), next := 57000000 })]
  adding := [⟨[97], { period := 3, callBack := (), next := 15000000 }, 12000000⟩]
  updating := some (36000000, 1)
  called := [(), ()]
  readings := [0, 12000000, 12000000, 13000000, 15000000, 36000000, 37000000]
  log := [⟨.added, [97], 0, 10⟩, ⟨.fired, [97], 13000000, 10⟩, ⟨.modified, [97], 15000000, 20⟩,
    ⟨.fired, [97], 37000000, 20⟩]

theorem neverEarly_of_inTime_addModifyFire :
    run TimerTable.step .new addModifyFire = .ok firedTwice ∧ NeverEarly firedTwice.log ∧
      firedTwice.insert 0 = { firedTwice with adding := [] } := by
  have hrun : run TimerTable.step .new addModifyFire = .ok firedTwice := rfl
  have htime : Along TimerTable.step TimerTable.InTime .new addModifyFire := by
    decide
  have hclock : MonotoneClock firedTwice.readings := by
    unfold MonotoneClock
    decide
  obtain ⟨hlog, hinsert⟩ := neverEarly_of_inTime hrun htime hclock
  exact ⟨hrun, hlog, hinsert 0 _ rfl (by decide)⟩

/-- The timer `t` is added with the longest period, `milliseconds::max()`, and fires at once. -/
def addLongest : List (TimerAct Unit) :=
  [.addTimer [116] (2 ^ 63 - 1) () 0, .insert 0, .updateTimers 0, .round 0]

/-- Its next time has wrapped around, to a millisecond before. -/
def firedEarly : TimerTable Unit where
  mTimers := [([116], { period := 2 ^ 63 - 1, callBack := (), next := -1000000 })]
  adding := []
  updating := some (0, 1)
  called := [()]
  readings := [0, 0, 0]
  log := [⟨.added, [116], 0, 2 ^ 63 - 1⟩, ⟨.fired, [116], 0, 2 ^ 63 - 1⟩]

/-- **A timer fires early**: at the clock reading at which it was added. -/
theorem fires_early :
    run TimerTable.step .new addLongest = .ok firedEarly ∧ MonotoneClock firedEarly.readings ∧
      ¬ NeverEarly firedEarly.log := by
  refine ⟨rfl, ?_, ?_⟩
  · unfold MonotoneClock
    decide
  · unfold NeverEarly
    decide

end Icl.Util
