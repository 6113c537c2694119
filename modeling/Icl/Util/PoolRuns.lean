import Mathlib.Algebra.BigOperators.Fin
import Icl.Transition.Fair
import Icl.Util.Pool

namespace Icl.Util

open Icl.Transition

/-!
# Every job of a `thread_pool` runs once

* `step_jobs` — no step loses a job or runs one twice, in any order of the steps;
* `Orderly` — behind a `nullptr` there are no jobs;
* `CondPool` — the pool with the condition variable of its queue: a worker may be asleep, and a
  push wakes one;
* `Watched` — the invariant that no wake-up is lost;
* `thread_pool_jobs` — the whole life of a pool.
-/

variable {α : Type} {k : ℕ}

/-- The worker has met the `nullptr`. -/
def Worker.Leaving : Worker α → Prop
  | .popped none | .stopped => True
  | _ => False

/-- The steps the worker has before it, a job in its hands counting for two. -/
def Worker.rank : Worker α → ℕ
  | .stopped => 0
  | .popped none => 1
  | .waiting => 2
  | .running _ => 3
  | .popped (some _) => 4

namespace ThreadPool

/-! ### The jobs -/

/-- The workers other than one. -/
theorem filterMap_update (threads : Fin k → Worker α) (w : Fin k) (worker : Worker α) :
    ((List.finRange k).filterMap fun v => (Function.update threads w worker v).next).Perm
      (worker.next.toList ++ ((List.finRange k).erase w).filterMap fun v => (threads v).next) := by
  have hperm := (List.perm_cons_erase (List.mem_finRange w)).filterMap
    fun v => (Function.update threads w worker v).next
  refine hperm.trans ?_
  -- The other workers are as they were.
  have hrest : ((List.finRange k).erase w).filterMap
        (fun v => (Function.update threads w worker v).next)
      = ((List.finRange k).erase w).filterMap fun v => (threads v).next := by
    refine List.filterMap_congr fun v hv => ?_
    rw [Function.update_of_ne ((List.nodup_finRange k).mem_erase_iff.mp hv).1]
  rw [List.filterMap_cons, Function.update_self, hrest]
  cases worker.next <;> rfl

/-- A worker changes, and what it no longer has to call has been called or queued. -/
theorem jobs_update {p : ThreadPool α k} {w : Fin k} {worker : Worker α}
    {workQueue : ThreadQueue (Option α)} {begun : List α}
    (h : (begun ++ (worker.next.toList ++ workQueue.reduceOption)).Perm
      (p.begun ++ ((p.threads w).next.toList ++ p.workQueue.reduceOption))) :
    (begun ++ notBegun ⟨Function.update p.threads w worker, workQueue, begun⟩).Perm
      (p.begun ++ p.notBegun) := by
  set others := ((List.finRange k).erase w).filterMap fun v => (p.threads v).next with hothers
  have hnew := filterMap_update p.threads w worker
  have hold := filterMap_update p.threads w (p.threads w)
  rw [Function.update_eq_self] at hold
  have hmove : ∀ l m r : List α, (l ++ (m ++ others ++ r)).Perm (others ++ (l ++ (m ++ r))) := by
    intro l m r
    simp only [← List.append_assoc]
    refine List.Perm.append_right r ?_
    rw [List.append_assoc others]
    exact List.perm_append_comm
  rw [notBegun, notBegun]
  refine (((hnew.append_right _).append_left _).trans (hmove _ _ _)).trans ?_
  exact (h.append_left others).trans
    (((hold.append_right _).append_left _).trans (hmove _ _ _)).symm

/-- **No job is lost or called twice**: after a step the jobs that have been called and those that
    have not are those before it, and the ones it enqueues. -/
theorem step_jobs (p : ThreadPool α k) (a : PoolAct α k) :
    ((p.step a).begun ++ (p.step a).notBegun).Perm (p.begun ++ p.notBegun ++ a.enqueues) := by
  have hdoes := p.step_does a
  generalize p.step a = p' at hdoes ⊢
  have hworker : ∀ {jobs : List α}, jobs.Perm (p.begun ++ p.notBegun) →
      jobs.Perm (p.begun ++ p.notBegun ++ []) := fun hjobs => by rwa [List.append_nil]
  -- Jobs are added by `enqueueWork` alone, and lost by no action.
  cases hdoes with
  | enqueueWork job =>
    rw [notBegun_push, List.append_assoc]
    exact List.Perm.refl _
  | destroy =>
    rw [notBegun_push, List.append_assoc]
    exact List.Perm.refl _
  | @pop w workItem workQueue hw hqueue =>
    refine hworker (jobs_update ?_)
    rw [hqueue, hw]
    cases workItem <;> exact List.Perm.refl _
  | call hw =>
    refine hworker (jobs_update ?_)
    rw [hw, List.append_assoc]
    exact List.Perm.refl _
  | leave hw =>
    refine hworker (jobs_update ?_)
    rw [hw, reduceOption_push, Option.toList_none, List.append_nil]
    exact List.Perm.refl _
  | finish hw =>
    refine hworker (jobs_update ?_)
    rw [hw]
    exact List.Perm.refl _
  | idle henqueues _ =>
    rw [henqueues, List.append_nil]

/-! ### The order of the queue -/

/-- No `nullptr` has been pushed. -/
structure Open (p : ThreadPool α k) : Prop where
  queue : none ∉ p.workQueue
  threads : ∀ w, ¬ (p.threads w).Leaving

/-- Behind a `nullptr` there are no jobs, in the queue and after one has been popped. -/
structure Orderly (p : ThreadPool α k) : Prop where
  queue : p.workQueue.Pairwise fun item item' => item = none → item' = none
  threads : ∀ w, (p.threads w).Leaving → ∀ item ∈ p.workQueue, item = none

/-- There is a `nullptr` for the workers that have not met it. -/
def Marked (p : ThreadPool α k) : Prop :=
  none ∈ p.workQueue ∨ ∃ w, p.threads w = .popped none

/-- At the start no worker leaves and no marker is queued. -/
theorem open_start : (start : ThreadPool α k).Open :=
  ⟨by simp [start], fun _ => by simp [start, Worker.Leaving]⟩

/-- A pool that is open is in order. -/
theorem Open.orderly {p : ThreadPool α k} (h : p.Open) : p.Orderly := by
  refine ⟨List.pairwise_of_forall_mem_list fun item hitem item' _ hnone => ?_, ?_⟩
  · exact absurd (hnone ▸ hitem) h.queue
  · exact fun w hw => absurd hw (h.threads w)

/-- A worker changes in an orderly pool: it may only leave when nothing but `nullptr` is queued. -/
theorem Orderly.update {p : ThreadPool α k} (h : p.Orderly) {w : Fin k} {worker : Worker α}
    {workQueue : ThreadQueue (Option α)} (begun : List α)
    (hqueue : workQueue.Pairwise fun item item' => item = none → item' = none)
    (hmem : ∀ item ∈ workQueue, item ∈ p.workQueue ∨ item = none)
    (hleaving : worker.Leaving → ∀ item ∈ workQueue, item = none) :
    Orderly ⟨Function.update p.threads w worker, workQueue, begun⟩ := by
  refine ⟨hqueue, fun v hv item hitem => ?_⟩
  dsimp only at hv
  by_cases hvw : v = w
  · rw [hvw, Function.update_self] at hv
    exact hleaving hv item hitem
  · rw [Function.update_of_ne hvw] at hv
    exact (hmem item hitem).elim (h.threads v hv item) id

/-- One `nullptr` more at the end. -/
theorem pairwise_push_none {queue : ThreadQueue (Option α)}
    (h : queue.Pairwise fun item item' => item = none → item' = none) :
    (queue.push none).Pairwise fun item item' => item = none → item' = none :=
  List.pairwise_append.mpr ⟨h, List.pairwise_singleton _ _, fun _ _ _ hitem' _ =>
    List.mem_singleton.mp hitem'⟩

/-- **The queue stays orderly**, as long as nothing is enqueued after a `nullptr`. -/
theorem Orderly.step {p : ThreadPool α k} (h : p.Orderly) (a : PoolAct α k)
    (ha : a.enqueues ≠ [] → p.Open) : (p.step a).Orderly := by
  have hdoes := p.step_does a
  generalize p.step a = p' at hdoes ⊢
  have hmem : ∀ item ∈ p.workQueue.push none, item ∈ p.workQueue ∨ item = none :=
    fun item hitem => (List.mem_append.mp hitem).imp_right List.mem_singleton.mp
  -- Only a worker that pops a marker begins to leave, and only `enqueueWork` could put a job behind
  -- one.
  cases hdoes with
  | enqueueWork job =>
    obtain ⟨hqueue, hthreads⟩ := ha (List.cons_ne_nil _ _)
    refine ⟨List.pairwise_append.mpr ⟨h.queue, List.pairwise_singleton _ _, ?_⟩, ?_⟩
    · rintro item hitem item' - rfl
      exact absurd hitem hqueue
    · exact fun w hw => absurd hw (hthreads w)
  | destroy =>
    exact ⟨pairwise_push_none h.queue, fun w hw item hitem =>
      (hmem item hitem).elim (h.threads w hw item) id⟩
  | @pop w workItem workQueue hw hqueue =>
    have hpairwise := h.queue
    rw [hqueue, List.pairwise_cons] at hpairwise
    refine h.update p.begun hpairwise.2 (fun item hitem => .inl ?_) fun hleaving => ?_
    · rw [hqueue]
      exact List.mem_cons_of_mem _ hitem
    · -- The worker that pops a `nullptr` has nothing but `nullptr` behind it.
      cases workItem with
      | none => exact fun item hitem => hpairwise.1 item hitem rfl
      | some job => exact hleaving.elim
  | call _ => exact h.update _ h.queue (fun _ => .inl) fun hleaving => hleaving.elim
  | @leave w hw =>
    have hnone := h.threads w (by rw [hw]; trivial)
    exact h.update _ (pairwise_push_none h.queue) hmem fun _ item hitem =>
      (hmem item hitem).elim (hnone item) id
  | finish _ => exact h.update _ h.queue (fun _ => .inl) fun hleaving => hleaving.elim
  | idle _ _ => exact h

/-- A worker changes in an open pool. -/
theorem Open.update {p : ThreadPool α k} (h : p.Open) {w : Fin k} {worker : Worker α}
    {workQueue : ThreadQueue (Option α)} (begun : List α) (hqueue : none ∉ workQueue)
    (hworker : ¬ worker.Leaving) : Open ⟨Function.update p.threads w worker, workQueue, begun⟩ := by
  refine ⟨hqueue, fun v => ?_⟩
  dsimp only
  by_cases hvw : v = w
  · rw [hvw, Function.update_self]
    exact hworker
  · rw [Function.update_of_ne hvw]
    exact h.threads v

/-- The pool stays open until it is destroyed. -/
theorem Open.step {p : ThreadPool α k} (h : p.Open) {a : PoolAct α k} (ha : a ≠ .destroy) :
    (p.step a).Open := by
  have hdoes := p.step_does a
  generalize p.step a = p' at hdoes ⊢
  -- Only `destroy` queues a marker, and only a marker makes a worker leave.
  cases hdoes with
  | enqueueWork job =>
    refine ⟨fun hmem => ?_, h.threads⟩
    rcases List.mem_append.mp hmem with hmem | hmem
    · exact h.queue hmem
    · cases List.mem_singleton.mp hmem
  | destroy => exact absurd rfl ha
  | @pop w workItem workQueue hw hqueue =>
    have hnone := h.queue
    rw [hqueue, List.mem_cons, not_or] at hnone
    refine h.update _ hnone.2 ?_
    cases workItem with
    | none => exact absurd rfl hnone.1
    | some job => exact id
  | call _ => exact h.update _ h.queue id
  | @leave w hw => exact absurd (by rw [hw]; trivial) (h.threads w)
  | finish _ => exact h.update _ h.queue id
  | idle _ _ => exact h

/-- A worker that does not hold the `nullptr` changes. -/
theorem Marked.update {p : ThreadPool α k} (h : p.Marked) {w : Fin k} {worker : Worker α}
    {workQueue : ThreadQueue (Option α)} (begun : List α) (hw : p.threads w ≠ .popped none)
    (hqueue : none ∈ p.workQueue → none ∈ workQueue ∨ worker = .popped none) :
    Marked ⟨Function.update p.threads w worker, workQueue, begun⟩ := by
  rcases h with h | ⟨v, hv⟩
  · exact (hqueue h).imp_right fun hworker =>
      ⟨w, (Function.update_self w worker p.threads).trans hworker⟩
  · have hvw : v ≠ w := by
      rintro rfl
      exact hw hv
    exact .inr ⟨v, (Function.update_of_ne hvw worker p.threads).trans hv⟩

/-- **The `nullptr` is not lost.** -/
theorem Marked.step {p : ThreadPool α k} (h : p.Marked) (a : PoolAct α k) : (p.step a).Marked := by
  have hdoes := p.step_does a
  generalize p.step a = p' at hdoes ⊢
  cases hdoes with
  | enqueueWork job => exact h.imp_left (List.mem_append_left _)
  | destroy => exact h.imp_left (List.mem_append_left _)
  | pop hw hqueue =>
    refine h.update _ (by simp [hw]) fun hmem => ?_
    rw [hqueue, List.mem_cons] at hmem
    exact hmem.symm.imp_right fun hnone => by rw [← hnone]
  | call hw => exact h.update _ (by simp [hw]) .inl
  | leave _ => exact .inl (List.mem_append_right _ (List.mem_singleton_self none))
  | finish hw => exact h.update _ (by simp [hw]) .inl
  | idle _ _ => exact h

/-- Destroying the pool puts a marker into the queue. -/
theorem marked_destroy (p : ThreadPool α k) : (p.step .destroy).Marked :=
  .inl (List.mem_append_right _ (List.mem_singleton_self none))

/-- Every worker has left its loop. -/
def AllStopped (p : ThreadPool α k) : Prop := ∀ w, p.threads w = .stopped

/-- In an orderly pool a worker that has stopped leaves no job in the queue. -/
theorem Orderly.not_mem {p : ThreadPool α k} (h : p.Orderly) {w : Fin k}
    (hw : p.threads w = .stopped) (job : α) : some job ∉ p.workQueue := by
  intro hmem
  cases h.threads w (by rw [hw]; trivial) _ hmem

/-- When all workers have stopped, all jobs have been called. -/
theorem Orderly.notBegun_eq_nil {p : ThreadPool α k} (h : p.Orderly) (hk : 0 < k)
    (hstopped : p.AllStopped) : p.notBegun = [] := by
  have hheld : (List.finRange k).filterMap (fun w => (p.threads w).next) = [] := by
    refine List.filterMap_eq_nil_iff.mpr fun w _ => ?_
    rw [hstopped w]
    rfl
  have hqueue : p.workQueue.reduceOption = [] := by
    refine List.eq_nil_iff_forall_not_mem.mpr fun job hjob => ?_
    exact h.not_mem (hstopped ⟨0, hk⟩) job (List.reduceOption_mem_iff.mp hjob)
  rw [notBegun, hheld, hqueue, List.append_nil]

/-! ### What is left to do -/

/-- The steps that are left when nothing more is enqueued. -/
def rank (p : ThreadPool α k) : ℕ :=
  3 * p.workQueue.reduceOption.length + ∑ w, (p.threads w).rank

/-- A worker changes. -/
theorem sum_rank_update (threads : Fin k → Worker α) (w : Fin k) (worker : Worker α) :
    (∑ v, (Function.update threads w worker v).rank) + (threads w).rank
      = (∑ v, (threads v).rank) + worker.rank := by
  have hcomp : (fun v => (Function.update threads w worker v).rank)
      = Function.update (fun v => (threads v).rank) w worker.rank :=
    Function.comp_update Worker.rank threads w worker
  have hsame := Finset.sum_update_of_mem (Finset.mem_univ w) (fun v => (threads v).rank)
    (threads w).rank
  rw [Function.update_eq_self] at hsame
  rw [hcomp, Finset.sum_update_of_mem (Finset.mem_univ w)]
  omega

/-- A pop brings the end nearer. -/
theorem rank_pop_lt {p : ThreadPool α k} {w : Fin k} (hw : p.threads w = .waiting)
    (hqueue : p.workQueue ≠ []) : (p.pop w).rank < p.rank := by
  obtain ⟨item, queue, hqueue⟩ := List.exists_cons_of_ne_nil hqueue
  have hsum := sum_rank_update p.threads w (.popped item)
  rw [pop, hw, hqueue, ThreadQueue.waitAndPop, rank, rank, hqueue]
  rw [hw] at hsum
  cases item <;> simp only [Worker.rank, List.reduceOption_cons_of_none,
    List.reduceOption_cons_of_some, List.length_cons] at hsum ⊢ <;> omega

/-- So does a call. -/
theorem rank_call_lt {p : ThreadPool α k} {w : Fin k} {item : Option α}
    (hw : p.threads w = .popped item) : (p.call w).rank < p.rank := by
  cases item with
  | none =>
    have hsum := sum_rank_update p.threads w .stopped
    rw [call, hw, rank, rank, reduceOption_push, Option.toList_none, List.append_nil]
    rw [hw] at hsum
    simp only [Worker.rank] at hsum ⊢
    omega
  | some job =>
    have hsum := sum_rank_update p.threads w (.running job)
    rw [call, hw, rank, rank]
    rw [hw] at hsum
    simp only [Worker.rank] at hsum ⊢
    omega

/-- So does the end of a job. -/
theorem rank_finish_lt {p : ThreadPool α k} {w : Fin k} {job : α}
    (hw : p.threads w = .running job) : (p.finish w).rank < p.rank := by
  have hsum := sum_rank_update p.threads w .waiting
  rw [finish, hw, rank, rank]
  rw [hw] at hsum
  simp only [Worker.rank] at hsum ⊢
  omega

/-- A `nullptr` is not a job. -/
theorem rank_destroy (p : ThreadPool α k) : p.destroy.rank = p.rank := by
  rw [destroy, rank, rank, reduceOption_push, Option.toList_none, List.append_nil]

end ThreadPool

/-! ### The condition variable -/

/-- The pool, and which workers are in the `wait` of `WaitAndPop`. -/
structure CondPool (α : Type) (k : ℕ) where
  pool : ThreadPool α k
  asleep : Fin k → Bool

/-- What can happen to the pool, in any order.  A push wakes one of the workers that are asleep:
    `woken` if it is one of them. -/
inductive PoolEvent (α : Type) (k : ℕ) where
  | enqueueWork (job : α) (woken : Fin k)
  | destroy (woken : Fin k)
  /-- A worker goes on, to the next point at which another thread can see what it has done. -/
  | turn (w woken : Fin k)
  /-- A `wait` may return without a reason. -/
  | wakeUp (w : Fin k)
  deriving Repr

/-- `notify_one`. -/
def notifyOne (woken : Fin k) (asleep : Fin k → Bool) : Fin k → Bool :=
  if asleep woken then Function.update asleep woken false
  else match (List.finRange k).find? asleep with
    | some w => Function.update asleep w false
    | none => asleep

namespace PoolEvent

/-- The jobs that the event enqueues. -/
def enqueues : PoolEvent α k → List α
  | .enqueueWork job _ => [job]
  | _ => []

/-- The destructor starts. -/
def IsDestroy : PoolEvent α k → Prop
  | .destroy _ => True
  | _ => False

/-- The worker that goes on. -/
def worker : PoolEvent α k → Option (Fin k)
  | .turn w _ => some w
  | _ => none

end PoolEvent

namespace CondPool

/-- The pool when its threads have been created. -/
def start : CondPool α k := { pool := .start, asleep := fun _ => false }

/-- A worker goes on.  In `WaitAndPop` it falls asleep if the queue is empty. -/
def turn (w woken : Fin k) (p : CondPool α k) : CondPool α k :=
  if p.asleep w then p
  else match p.pool.threads w with
    | .waiting =>
      if p.pool.workQueue.isEmpty then { p with asleep := Function.update p.asleep w true }
      else { p with pool := p.pool.pop w }
    | .popped none => { pool := p.pool.call w, asleep := notifyOne woken p.asleep }
    | .popped (some _) => { p with pool := p.pool.call w }
    | .running _ => { p with pool := p.pool.finish w }
    | .stopped => p

/-- One event. -/
def step (p : CondPool α k) : PoolEvent α k → CondPool α k
  | .enqueueWork job woken =>
    { pool := p.pool.enqueueWork job, asleep := notifyOne woken p.asleep }
  | .destroy woken => { pool := p.pool.destroy, asleep := notifyOne woken p.asleep }
  | .turn w woken => p.turn w woken
  | .wakeUp w => { p with asleep := Function.update p.asleep w false }

/-- **Everything a turn can do.** -/
inductive TurnDoes (p : CondPool α k) (w woken : Fin k) : CondPool α k → Prop where
  | asleep (hasleep : p.asleep w = true) : TurnDoes p w woken p
  | sleep (hawake : p.asleep w = false) (hw : p.pool.threads w = .waiting)
      (hqueue : p.pool.workQueue = []) :
      TurnDoes p w woken { p with asleep := Function.update p.asleep w true }
  | pop (hawake : p.asleep w = false) (hw : p.pool.threads w = .waiting)
      (hqueue : p.pool.workQueue ≠ []) : TurnDoes p w woken { p with pool := p.pool.step (.pop w) }
  | call {job : α} (hawake : p.asleep w = false) (hw : p.pool.threads w = .popped (some job)) :
      TurnDoes p w woken { p with pool := p.pool.step (.call w) }
  | leave (hawake : p.asleep w = false) (hw : p.pool.threads w = .popped none) :
      TurnDoes p w woken { pool := p.pool.step (.call w), asleep := notifyOne woken p.asleep }
  | finish {job : α} (hawake : p.asleep w = false) (hw : p.pool.threads w = .running job) :
      TurnDoes p w woken { p with pool := p.pool.step (.finish w) }
  | stopped (hawake : p.asleep w = false) (hw : p.pool.threads w = .stopped) : TurnDoes p w woken p

/-- **The inversion lemma.** -/
theorem turn_does (p : CondPool α k) (w woken : Fin k) : p.TurnDoes w woken (p.turn w woken) := by
  rw [turn]
  by_cases hasleep : p.asleep w = true
  · rw [if_pos hasleep]
    exact .asleep hasleep
  have hawake : p.asleep w = false := Bool.eq_false_of_not_eq_true hasleep
  rw [if_neg hasleep]
  split
  next hw =>
    split_ifs with hempty
    · exact .sleep hawake hw (List.isEmpty_iff.mp hempty)
    · exact .pop hawake hw fun hnil => hempty (List.isEmpty_iff.mpr hnil)
  next hw => exact .leave hawake hw
  next hw => exact .call hawake hw
  next hw => exact .finish hawake hw
  next hw => exact .stopped hawake hw

/-- **Refinement**: an event is one step of the pool, or none. -/
theorem step_pool (p : CondPool α k) (e : PoolEvent α k) :
    ((p.step e).pool = p.pool ∧ e.enqueues = [] ∧ ¬ e.IsDestroy) ∨
      ∃ a, (p.step e).pool = p.pool.step a ∧ a.enqueues = e.enqueues ∧
        (a = .destroy ↔ e.IsDestroy) := by
  cases e with
  | enqueueWork job woken => exact .inr ⟨.enqueueWork job, rfl, rfl, by simp [PoolEvent.IsDestroy]⟩
  | destroy woken => exact .inr ⟨.destroy, rfl, rfl, by simp [PoolEvent.IsDestroy]⟩
  | wakeUp w => exact .inl ⟨rfl, rfl, id⟩
  | turn w woken =>
    have hdoes := p.turn_does w woken
    rw [step]
    generalize p.turn w woken = p' at hdoes ⊢
    cases hdoes with
    | asleep _ | sleep _ _ _ | stopped _ _ => exact .inl ⟨rfl, rfl, id⟩
    | pop _ _ _ => exact .inr ⟨.pop w, rfl, rfl, by simp [PoolEvent.IsDestroy]⟩
    | call _ _ | leave _ _ => exact .inr ⟨.call w, rfl, rfl, by simp [PoolEvent.IsDestroy]⟩
    | finish _ _ => exact .inr ⟨.finish w, rfl, rfl, by simp [PoolEvent.IsDestroy]⟩

/-! ### No wake-up is lost -/

/-- Only a waiting worker is asleep, and as long as there is something in the queue some worker is
    there to take it, unless all have stopped. -/
structure Watched (p : CondPool α k) : Prop where
  waiting : ∀ w, p.asleep w = true → p.pool.threads w = .waiting
  awake : p.pool.workQueue ≠ [] →
    (∃ w, p.asleep w = false ∧ p.pool.threads w ≠ .stopped) ∨ p.pool.AllStopped

/-- Nobody falls asleep on a notification. -/
theorem notifyOne_le {woken w : Fin k} {asleep : Fin k → Bool}
    (h : notifyOne woken asleep w = true) : asleep w = true := by
  have hupdate : ∀ v, Function.update asleep v false w = true → asleep w = true := by
    intro v hv
    by_cases hw : w = v
    · rw [hw, Function.update_self] at hv
      cases hv
    · rwa [Function.update_of_ne hw] at hv
  rw [notifyOne] at h
  split_ifs at h
  · exact hupdate _ h
  · cases hfind : (List.finRange k).find? asleep with
    | some v => exact hupdate v (by simpa only [hfind] using h)
    | none => simpa only [hfind] using h

/-- **A notification reaches somebody**: afterwards a worker is awake, unless all have stopped. -/
theorem notifyOne_awake {threads : Fin k → Worker α} {asleep : Fin k → Bool} (woken : Fin k)
    (hwaiting : ∀ w, asleep w = true → threads w = .waiting) :
    (∃ w, notifyOne woken asleep w = false ∧ threads w ≠ .stopped) ∨
      ∀ w, threads w = .stopped := by
  have hwoken : ∀ v, asleep v = true →
      Function.update asleep v false v = false ∧ threads v ≠ .stopped :=
    fun v hv => ⟨Function.update_self .., by simp [hwaiting v hv]⟩
  by_cases hall : ∀ w, threads w = .stopped
  · exact .inr hall
  · left
    rw [notifyOne]
    split_ifs with hasleep
    · exact ⟨woken, hwoken woken hasleep⟩
    · cases hfind : (List.finRange k).find? asleep with
      | some v => exact ⟨v, hwoken v (List.find?_some hfind)⟩
      | none =>
        -- Nobody is asleep.
        obtain ⟨w, hw⟩ := not_forall.mp hall
        exact ⟨w, by simpa using List.find?_eq_none.mp hfind w (List.mem_finRange w), hw⟩

/-- Nobody sleeps at the start. -/
theorem watched_start : (start : CondPool α k).Watched :=
  ⟨fun w hw => by simp [start] at hw, fun hqueue => absurd rfl hqueue⟩

/-- After a push. -/
theorem Watched.push {p : CondPool α k} (h : p.Watched) (item : Option α) (woken : Fin k) :
    Watched ⟨{ p.pool with workQueue := p.pool.workQueue.push item },
      notifyOne woken p.asleep⟩ :=
  ⟨fun w hw => h.waiting w (notifyOne_le hw), fun _ => notifyOne_awake woken h.waiting⟩

/-- A worker that is awake takes a step and does not stop. -/
theorem Watched.update {p : CondPool α k} (h : p.Watched) {w : Fin k} {worker : Worker α}
    (hw : p.asleep w = false) (hworker : worker ≠ .stopped)
    (workQueue : ThreadQueue (Option α)) (begun : List α) :
    Watched ⟨⟨Function.update p.pool.threads w worker, workQueue, begun⟩, p.asleep⟩ := by
  refine ⟨fun v hv => ?_, fun _ => .inl ⟨w, hw, ?_⟩⟩
  · have hvw : v ≠ w := by
      rintro rfl
      exact absurd hv (by simp [hw])
    exact (Function.update_of_ne hvw worker p.pool.threads).trans (h.waiting v hv)
  · dsimp only
    rwa [Function.update_self]

/-- **No wake-up is lost.** -/
theorem Watched.step {p : CondPool α k} (h : p.Watched) (e : PoolEvent α k) :
    (p.step e).Watched := by
  cases e with
  | enqueueWork job woken => exact h.push (some job) woken
  | destroy woken => exact h.push none woken
  | wakeUp w =>
    have hle : ∀ v, Function.update p.asleep w false v = true → p.asleep v = true := by
      intro v hv
      by_cases hvw : v = w
      · rw [hvw, Function.update_self] at hv
        cases hv
      · rwa [Function.update_of_ne hvw] at hv
    refine ⟨fun v hv => h.waiting v (hle v hv), fun hqueue => ?_⟩
    refine (h.awake hqueue).imp_left fun ⟨v, hv, hstopped⟩ => ⟨v, ?_, hstopped⟩
    exact Bool.eq_false_of_not_eq_true fun hv' => by simp [hle v hv'] at hv
  | turn w woken =>
    have hdoes := p.turn_does w woken
    rw [CondPool.step]
    generalize p.turn w woken = p' at hdoes ⊢
    cases hdoes with
    | asleep _ | stopped _ _ => exact h
    | sleep _ hw hqueue =>
      -- It falls asleep over an empty queue.
      refine ⟨fun v hv => ?_, fun hne => absurd hqueue hne⟩
      by_cases hvw : v = w
      · exact hvw ▸ hw
      · dsimp only at hv
        rw [Function.update_of_ne hvw] at hv
        exact h.waiting v hv
    | pop hawake hw hqueue =>
      obtain ⟨item, queue, hqueue⟩ := List.exists_cons_of_ne_nil hqueue
      rw [ThreadPool.step, ThreadPool.pop, hw, hqueue]
      exact h.update hawake (by simp) queue p.pool.begun
    | call hawake hw =>
      rw [ThreadPool.step, ThreadPool.call, hw]
      exact h.update hawake (by simp) _ _
    | leave hawake hw =>
      rw [ThreadPool.step, ThreadPool.call, hw]
      have hwaiting : ∀ v, p.asleep v = true →
          Function.update p.pool.threads w .stopped v = .waiting := by
        intro v hv
        have hvw : v ≠ w := by
          rintro rfl
          simp [hawake] at hv
        rw [Function.update_of_ne hvw, h.waiting v hv]
      exact ⟨fun v hv => hwaiting v (notifyOne_le hv), fun _ => notifyOne_awake woken hwaiting⟩
    | finish hawake hw =>
      rw [ThreadPool.step, ThreadPool.finish, hw]
      exact h.update hawake (by simp) _ _

/-! ### Every worker stops at last -/

/-- The steps that are left. -/
def rank (p : CondPool α k) : ℕ := p.pool.rank

/-- The worker can take a step. -/
structure Ready (p : CondPool α k) (w : Fin k) : Prop where
  awake : p.asleep w = false
  not_stopped : p.pool.threads w ≠ .stopped
  queue : p.pool.threads w = .waiting → p.pool.workQueue ≠ []

/-- Somebody can take a step, once there is a `nullptr` and as long as not all have stopped. -/
theorem exists_ready {p : CondPool α k} (h : p.Watched) (hmarked : p.pool.Marked)
    (hstopped : ¬ p.pool.AllStopped) : ∃ w, p.Ready w := by
  rcases hmarked with hqueue | ⟨w, hw⟩
  · have hne : p.pool.workQueue ≠ [] := List.ne_nil_of_mem hqueue
    obtain ⟨w, hw, hnot⟩ := (h.awake hne).resolve_right hstopped
    exact ⟨w, hw, hnot, fun _ => hne⟩
  · refine ⟨w, Bool.eq_false_of_not_eq_true fun hasleep => ?_, by simp [hw], by simp [hw]⟩
    have := h.waiting w hasleep
    simp [hw] at this

/-- **What a turn does**: something that was left to do, or nothing but that the worker falls
    asleep, which it does not where it can take a step. -/
theorem turn_cases (p : CondPool α k) (w woken : Fin k) :
    (p.turn w woken).rank < p.rank ∨
      ¬ p.Ready w ∧ (p.turn w woken).pool = p.pool ∧
        ∀ v ≠ w, (p.turn w woken).asleep v = p.asleep v := by
  have hdoes := p.turn_does w woken
  generalize p.turn w woken = p' at hdoes ⊢
  cases hdoes with
  | asleep hasleep =>
    exact .inr ⟨fun hready => by simp [hready.awake] at hasleep, rfl, fun _ _ => rfl⟩
  | sleep _ hw hqueue =>
    exact .inr ⟨fun hready => hready.queue hw hqueue, rfl,
      fun v hv => Function.update_of_ne hv true p.asleep⟩
  | pop _ hw hqueue => exact .inl (ThreadPool.rank_pop_lt hw hqueue)
  | call _ hw | leave _ hw => exact .inl (ThreadPool.rank_call_lt hw)
  | finish _ hw => exact .inl (ThreadPool.rank_finish_lt hw)
  | stopped _ hw => exact .inr ⟨fun hready => hready.not_stopped hw, rfl, fun _ _ => rfl⟩

/-- A worker that can take a step stays so, unless something that was left has been done. -/
theorem ready_keep {p : CondPool α k} {w : Fin k} (e : PoolEvent α k) (he : e.enqueues = [])
    (hw : p.Ready w) : (p.step e).rank < p.rank ∨
      e.worker ≠ some w ∧ (p.step e).rank ≤ p.rank ∧ (p.step e).Ready w := by
  -- Either this worker takes its turn, or another event leaves it as ready as it was.
  cases e with
  | enqueueWork job woken => cases he
  | destroy woken =>
    refine .inr ⟨by simp [PoolEvent.worker], (p.pool.rank_destroy).le, ?_, hw.not_stopped, ?_⟩
    · exact Bool.eq_false_of_not_eq_true fun hasleep => by
        simpa [hw.awake] using notifyOne_le hasleep
    · exact fun _ => List.append_ne_nil_of_right_ne_nil _ (List.cons_ne_nil _ _)
  | wakeUp v =>
    refine .inr ⟨by simp [PoolEvent.worker], le_rfl, ?_, hw.not_stopped, hw.queue⟩
    by_cases hwv : w = v
    · exact hwv ▸ Function.update_self ..
    · exact (Function.update_of_ne hwv false p.asleep).trans hw.awake
  | turn v woken =>
    obtain hlt | ⟨hnot, hpool, hasleep⟩ := p.turn_cases v woken
    · exact .inl hlt
    · have hwv : w ≠ v := by
        rintro rfl
        exact hnot hw
      refine .inr ⟨by simpa [PoolEvent.worker] using Ne.symm hwv, by rw [step, rank, hpool, rank],
        ?_, ?_, ?_⟩
      · rw [step, hasleep w hwv]
        exact hw.awake
      · rw [step, hpool]
        exact hw.not_stopped
      · rw [step, hpool]
        exact hw.queue

/-! ### The life of a pool -/

/-- The jobs that have been enqueued before a time. -/
def enqueued (schedule : ℕ → PoolEvent α k) (n : ℕ) : List α :=
  (List.range n).flatMap fun m => (schedule m).enqueues

/-- A schedule enqueues action by action. -/
theorem enqueued_succ (schedule : ℕ → PoolEvent α k) (n : ℕ) :
    enqueued schedule (n + 1) = enqueued schedule n ++ (schedule n).enqueues := by
  simp [enqueued, List.range_succ]

section Life

variable {schedule : ℕ → PoolEvent α k}

/-- The pool at a time. -/
def poolAt (schedule : ℕ → PoolEvent α k) (n : ℕ) : ThreadPool α k :=
  (stateAt step start schedule n).pool

/-- The jobs that have been called and those that have not are the ones that were enqueued. -/
theorem jobs_at (n : ℕ) :
    ((poolAt schedule n).begun ++ (poolAt schedule n).notBegun).Perm (enqueued schedule n) := by
  induction n with
  | zero =>
    have hnone : (ThreadPool.start : ThreadPool α k).notBegun = [] := by
      simp [ThreadPool.notBegun, ThreadPool.start, Worker.next, List.reduceOption]
    show ((ThreadPool.start : ThreadPool α k).begun ++ ThreadPool.start.notBegun).Perm _
    rw [hnone]
    exact List.Perm.refl _
  | succ n ih =>
    rw [enqueued_succ]
    obtain ⟨hpool, hnil, -⟩ | ⟨a, hpool, henqueues, -⟩ :=
      (stateAt step start schedule n).step_pool (schedule n)
    · rw [hnil, List.append_nil, poolAt, stateAt, hpool]
      exact ih
    · rw [poolAt, stateAt, hpool, ← henqueues]
      exact (ThreadPool.step_jobs _ a).trans (ih.append_right _)

/-- The pool is open until the destructor starts. -/
theorem open_at {n : ℕ} (h : ∀ m < n, ¬ (schedule m).IsDestroy) : (poolAt schedule n).Open := by
  induction n with
  | zero => exact ThreadPool.open_start
  | succ n ih =>
    have hopen := ih fun m hm => h m (by omega)
    obtain ⟨hpool, -⟩ | ⟨a, hpool, -, hdestroy⟩ :=
      (stateAt step start schedule n).step_pool (schedule n)
    · rw [poolAt, stateAt, hpool]
      exact hopen
    · rw [poolAt, stateAt, hpool]
      exact hopen.step (mt hdestroy.mp (h n (by omega)))

/-- The pool is orderly when all jobs are enqueued before the destructor starts. -/
theorem orderly_at (horder : ∀ n m, (schedule n).enqueues ≠ [] → (schedule m).IsDestroy → n < m)
    (n : ℕ) : (poolAt schedule n).Orderly := by
  induction n with
  | zero => exact ThreadPool.open_start.orderly
  | succ n ih =>
    obtain ⟨hpool, -⟩ | ⟨a, hpool, henqueues, -⟩ :=
      (stateAt step start schedule n).step_pool (schedule n)
    · rw [poolAt, stateAt, hpool]
      exact ih
    · rw [poolAt, stateAt, hpool]
      refine ih.step a fun hne => open_at fun m hm hdestroy => ?_
      have := horder n m (henqueues ▸ hne) hdestroy
      omega

/-- Workers that have stopped stay so. -/
theorem allStopped_step {p : CondPool α k} (h : p.pool.AllStopped) (e : PoolEvent α k) :
    (p.step e).pool.AllStopped := by
  obtain ⟨hpool, -⟩ | ⟨a, hpool, -⟩ := p.step_pool e
  · rwa [hpool]
  · rw [hpool]
    have hdoes := p.pool.step_does a
    generalize p.pool.step a = p' at hdoes ⊢
    cases hdoes with
    | enqueueWork _ | destroy | idle _ _ => exact h
    | pop hw _ | call hw | leave hw | finish hw => simp [h _] at hw

/-- The destructor leaves a `nullptr`, which stays. -/
theorem marked_step {p : CondPool α k} (e : PoolEvent α k)
    (h : p.pool.Marked ∨ e.IsDestroy) : (p.step e).pool.Marked := by
  obtain ⟨hpool, -, hnot⟩ | ⟨a, hpool, -, hdestroy⟩ := p.step_pool e
  · rw [hpool]
    exact h.resolve_right hnot
  · rw [hpool]
    rcases h with h | h
    · exact h.step a
    · rw [hdestroy.mpr h]
      exact p.pool.marked_destroy

/-- What is known of a pool that winds up: no wake-up is lost, and there is a `nullptr`. -/
structure Winding (p : CondPool α k) : Prop where
  watched : p.Watched
  marked : p.pool.Marked

/-- A pool that winds up goes on doing so. -/
theorem Winding.step {p : CondPool α k} (h : p.Winding) (e : PoolEvent α k) :
    (p.step e).Winding := ⟨h.watched.step e, marked_step e (.inl h.marked)⟩

/-- No wake-up is lost, at any time. -/
theorem watched_at (n : ℕ) : (stateAt step start schedule n).Watched := by
  have hstep : ∀ (p : CondPool α k) (e : PoolEvent α k), True → p.Watched → (p.step e).Watched :=
    fun p e _ h => h.step e
  have hstart : (stateAt step start schedule 0).Watched := watched_start
  exact invariant_at hstep (fun _ _ => trivial) hstart n (Nat.zero_le n)

/-- **All workers stop at last**, when the destructor has started and every worker goes on again and
    again. -/
theorem eventually_allStopped
    (horder : ∀ n m, (schedule n).enqueues ≠ [] → (schedule m).IsDestroy → n < m)
    (hfair : Fair PoolEvent.worker schedule) {t : ℕ} (ht : (schedule t).IsDestroy) :
    ∃ n, ∀ m ≥ n, (poolAt schedule m).AllStopped := by
  -- From the destructor on, nothing is enqueued.
  have hnone : ∀ n ≥ t + 1, (schedule n).enqueues = [] := by
    intro n hn
    by_contra hne
    have := horder n t hne ht
    omega
  have hwinding : ∀ (p : CondPool α k) (e : PoolEvent α k), e.enqueues = [] →
      p.Winding → (p.step e).Winding := fun p e _ h => h.step e
  have hkeep : ∀ (p : CondPool α k) (e : PoolEvent α k) (w : Fin k), e.enqueues = [] →
      p.Winding → p.Ready w → (p.step e).rank < p.rank ∨
        e.worker ≠ some w ∧ (p.step e).rank ≤ p.rank ∧ (p.step e).Ready w :=
    fun p e w he _ hw => ready_keep e he hw
  have hready : ∀ p : CondPool α k, p.Winding → ¬ p.pool.AllStopped → ∃ w, p.Ready w :=
    fun p h hnot => exists_ready h.watched h.marked hnot
  obtain ⟨n, -, hstopped⟩ := eventually_of_helpful hwinding hkeep hready hfair hnone
    ⟨watched_at (t + 1), marked_step _ (.inr ht)⟩
  have hstep : ∀ (p : CondPool α k) (e : PoolEvent α k), True → p.pool.AllStopped →
      (p.step e).pool.AllStopped := fun p e _ h => allStopped_step h e
  exact ⟨n, invariant_at hstep (fun _ _ => trivial) hstopped⟩

/-- **No job is lost or run twice.**  Jobs are enqueued before the destructor starts.  Then at any
    time the jobs that have been called, and those that have not, are the ones that were enqueued;
    when a worker has stopped there is no job in the queue; and when all have, there is nothing but
    `nullptr` in it and all jobs have been called.  If every worker goes on again and again, all of
    them stop after the destructor has started. -/
theorem thread_pool_jobs (hk : 0 < k)
    (horder : ∀ n m, (schedule n).enqueues ≠ [] → (schedule m).IsDestroy → n < m) :
    (∀ n, ((poolAt schedule n).begun ++ (poolAt schedule n).notBegun).Perm (enqueued schedule n) ∧
      ((∃ w, (poolAt schedule n).threads w = .stopped) →
        ∀ job, some job ∉ (poolAt schedule n).workQueue) ∧
      ((poolAt schedule n).AllStopped →
        (∀ item ∈ (poolAt schedule n).workQueue, item = none) ∧
          (poolAt schedule n).begun.Perm (enqueued schedule n))) ∧
      (Fair PoolEvent.worker schedule → (∃ m, (schedule m).IsDestroy) →
        ∃ n, ∀ m ≥ n, (poolAt schedule m).AllStopped) := by
  refine ⟨fun n => ⟨jobs_at n, ?_, fun hstopped => ⟨fun item hitem => ?_, ?_⟩⟩, ?_⟩
  · rintro ⟨w, hw⟩
    exact (orderly_at horder n).not_mem hw
  · cases item with
    | none => rfl
    | some job => exact absurd hitem ((orderly_at horder n).not_mem (hstopped ⟨0, hk⟩) job)
  · have hjobs : ((poolAt schedule n).begun ++ (poolAt schedule n).notBegun).Perm
        (enqueued schedule n) := jobs_at n
    rwa [(orderly_at horder n).notBegun_eq_nil hk hstopped, List.append_nil] at hjobs
  · rintro hfair ⟨t, ht⟩
    exact eventually_allStopped horder hfair ht

end Life

/-- Two workers, two jobs and the destructor; then the workers take turns. -/
def twoJobs (n : ℕ) : PoolEvent ℕ 2 :=
  if n = 0 then .enqueueWork 7 0
  else if n = 1 then .enqueueWork 8 1
  else if n = 2 then .destroy 0
  else .turn (Fin.ofNat 2 n) (Fin.ofNat 2 (n + 1))

/-- Both jobs are called, and the worker that meets the `nullptr` hands it on to the other. -/
theorem thread_pool_jobs_two :
    ∃ n, ∀ m ≥ n, (poolAt twoJobs m).AllStopped ∧
      (poolAt twoJobs m).begun.Perm (enqueued twoJobs m) := by
  have horder : ∀ n m, (twoJobs n).enqueues ≠ [] → (twoJobs m).IsDestroy → n < m := by
    intro n m hn hm
    rw [twoJobs] at hn hm
    split_ifs at hn hm <;> simp_all [PoolEvent.enqueues, PoolEvent.IsDestroy]
  have hfair : Fair PoolEvent.worker twoJobs := by
    intro w n
    refine ⟨2 * n + 4 + w, by omega, ?_⟩
    have hturn : Fin.ofNat 2 (2 * n + 4 + w) = w := by
      apply Fin.ext
      rw [Fin.val_ofNat]
      omega
    rw [twoJobs, if_neg (by omega), if_neg (by omega), if_neg (by omega), hturn]
    rfl
  obtain ⟨hsafe, hlive⟩ := thread_pool_jobs Nat.two_pos horder
  obtain ⟨n, hn⟩ := hlive hfair ⟨2, trivial⟩
  exact ⟨n, fun m hm => ⟨hn m hm, ((hsafe m).2.2 (hn m hm)).2⟩⟩

end CondPool

end Icl.Util
