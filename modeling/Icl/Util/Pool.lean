import Mathlib.Data.List.FinRange
import Mathlib.Data.List.ReduceOption

namespace Icl.Util

/-!
# `thread_pool`

The model of `util/Pool.h` and `util/ThreadQueue.h`, for jobs of any type.  Every operation of the
queue holds its mutex, so that a run of the pool is a sequence of pushes and of steps of single
workers: to pop an item is one step, to call it is another one.

* `ThreadPool.step` — one step of a worker, or a push; a step that has to wait changes nothing;
* `step_does` — everything a step can do;
* `step_outstanding` — a job that is queued, held or running has been enqueued;
* `step_inOrder` — a single worker begins the jobs in the order of the queue.
-/

variable {α : Type}

/-! ### The queue -/

/-- `ThreadQueue`: the data, from the front. -/
abbrev ThreadQueue (α : Type) := List α

namespace ThreadQueue

/-- `ThreadQueue::Push`. -/
def push (data : α) (queue : ThreadQueue α) : ThreadQueue α := queue ++ [data]

/-- `ThreadQueue::WaitAndPop`, which waits while the queue is empty. -/
def waitAndPop : ThreadQueue α → Option (α × ThreadQueue α)
  | [] => none
  | poppedValue :: queue => some (poppedValue, queue)

theorem waitAndPop_eq_some {queue queue' : ThreadQueue α} {poppedValue : α} :
    queue.waitAndPop = some (poppedValue, queue') ↔ queue = poppedValue :: queue' := by
  cases queue <;> simp [waitAndPop]

end ThreadQueue

/-! ### The pool -/

/-- Where a thread of the pool is in its loop.  An item is `none` for the `nullptr` that stops the
    threads. -/
inductive Worker (α : Type) where
  | waiting
  /-- `WaitAndPop` has returned, and the item has not been called yet. -/
  | popped (workItem : Option α)
  | running (job : α)
  | stopped
  deriving DecidableEq, Repr

/-- The job that the worker holds, called or not. -/
def Worker.job : Worker α → Option α
  | .popped workItem => workItem
  | .running job => some job
  | .waiting | .stopped => none

/-- The job that the worker has popped and not yet called. -/
def Worker.next : Worker α → Option α
  | .popped workItem => workItem
  | .running _ | .waiting | .stopped => none

/-- `thread_pool` with `k` threads.  `begun` is not in the source: it lists the jobs that have been
    called, in order. -/
structure ThreadPool (α : Type) (k : Nat) where
  threads : Fin k → Worker α
  workQueue : ThreadQueue (Option α)
  begun : List α

/-- What can happen to the pool. -/
inductive PoolAct (α : Type) (k : Nat) where
  | enqueueWork (job : α)
  /-- `~thread_pool` pushes `nullptr`. -/
  | destroy
  | pop (w : Fin k)
  | call (w : Fin k)
  | finish (w : Fin k)
  deriving Repr

/-- The jobs that the action enqueues. -/
def PoolAct.enqueues {k : Nat} : PoolAct α k → List α
  | .enqueueWork job => [job]
  | _ => []

namespace ThreadPool

variable {k : Nat}

/-- The pool when its threads have been created. -/
def start : ThreadPool α k := { threads := fun _ => .waiting, workQueue := [], begun := [] }

/-- `thread_pool::enqueue_work`. -/
def enqueueWork (job : α) (p : ThreadPool α k) : ThreadPool α k :=
  { p with workQueue := p.workQueue.push (some job) }

/-- `thread_pool::~thread_pool`, up to the joins. -/
def destroy (p : ThreadPool α k) : ThreadPool α k :=
  { p with workQueue := p.workQueue.push none }

/-- The worker waits for an item, and gets one if there is one. -/
def pop (w : Fin k) (p : ThreadPool α k) : ThreadPool α k :=
  match p.threads w, p.workQueue.waitAndPop with
  | .waiting, some (workItem, workQueue) =>
    { p with threads := Function.update p.threads w (.popped workItem), workQueue }
  | _, _ => p

/-- The worker calls its item, or passes the `nullptr` on and leaves its loop. -/
def call (w : Fin k) (p : ThreadPool α k) : ThreadPool α k :=
  match p.threads w with
  | .popped (some job) =>
    { p with threads := Function.update p.threads w (.running job), begun := p.begun ++ [job] }
  | .popped none =>
    { p with
      threads := Function.update p.threads w .stopped
      workQueue := p.workQueue.push none }
  | _ => p

/-- The call returns. -/
def finish (w : Fin k) (p : ThreadPool α k) : ThreadPool α k :=
  match p.threads w with
  | .running _ => { p with threads := Function.update p.threads w .waiting }
  | _ => p

/-- One step of the pool. -/
def step (p : ThreadPool α k) : PoolAct α k → ThreadPool α k
  | .enqueueWork job => p.enqueueWork job
  | .destroy => p.destroy
  | .pop w => p.pop w
  | .call w => p.call w
  | .finish w => p.finish w

/-- **Everything a step can do.**  Where a worker cannot take its step, nothing happens. -/
inductive Does (p : ThreadPool α k) : PoolAct α k → ThreadPool α k → Prop where
  | enqueueWork (job : α) :
      Does p (.enqueueWork job) { p with workQueue := p.workQueue.push (some job) }
  | destroy : Does p .destroy { p with workQueue := p.workQueue.push none }
  | pop {w : Fin k} {workItem : Option α} {workQueue : ThreadQueue (Option α)}
      (hw : p.threads w = .waiting) (hqueue : p.workQueue = workItem :: workQueue) :
      Does p (.pop w) ⟨Function.update p.threads w (.popped workItem), workQueue, p.begun⟩
  | call {w : Fin k} {job : α} (hw : p.threads w = .popped (some job)) :
      Does p (.call w) ⟨Function.update p.threads w (.running job), p.workQueue, p.begun ++ [job]⟩
  | leave {w : Fin k} (hw : p.threads w = .popped none) :
      Does p (.call w) ⟨Function.update p.threads w .stopped, p.workQueue.push none, p.begun⟩
  | finish {w : Fin k} {job : α} (hw : p.threads w = .running job) :
      Does p (.finish w) ⟨Function.update p.threads w .waiting, p.workQueue, p.begun⟩
  | idle {a : PoolAct α k} (henqueues : a.enqueues = []) (hdestroy : a ≠ .destroy) : Does p a p

/-- **The inversion lemma.** -/
theorem step_does (p : ThreadPool α k) (a : PoolAct α k) : p.Does a (p.step a) := by
  cases a with
  | enqueueWork job => exact .enqueueWork job
  | destroy => exact .destroy
  -- A worker pops only while it waits and something is queued.
  | pop w =>
    rw [step, pop]
    split
    next workItem workQueue hw hpop => exact .pop hw (ThreadQueue.waitAndPop_eq_some.mp hpop)
    next => exact .idle rfl (by simp)
  | call w =>
    rw [step, call]
    split
    next job hw => exact .call hw
    -- A `nullptr` makes the worker leave.
    next hw => exact .leave hw
    next => exact .idle rfl (by simp)
  | finish w =>
    rw [step, finish]
    split
    next job hw => exact .finish hw
    next => exact .idle rfl (by simp)

/-! ### Jobs that are outstanding -/

/-- The job is queued, held or running. -/
def Outstanding (p : ThreadPool α k) (job : α) : Prop :=
  some job ∈ p.workQueue ∨ ∃ w, (p.threads w).job = some job

theorem not_outstanding_start (job : α) : ¬ (start : ThreadPool α k).Outstanding job := by
  simp [Outstanding, start, Worker.job]

/-- A worker that takes a job from elsewhere in the pool leaves the outstanding jobs as they are. -/
theorem Outstanding.of_update {p : ThreadPool α k} {w : Fin k} {worker : Worker α}
    {workQueue : ThreadQueue (Option α)} {begun : List α} {job : α}
    (h : Outstanding ⟨Function.update p.threads w worker, workQueue, begun⟩ job)
    (hqueue : some job ∈ workQueue → p.Outstanding job)
    (hworker : worker.job = some job → p.Outstanding job) : p.Outstanding job := by
  rcases h with h | ⟨w', h⟩
  · exact hqueue h
  · dsimp only at h
    by_cases hw : w' = w
    · rw [hw, Function.update_self] at h
      exact hworker h
    · rw [Function.update_of_ne hw] at h
      exact .inr ⟨w', h⟩

/-- Nothing but `nullptr` has been pushed. -/
theorem mem_push_none {job : α} {queue : ThreadQueue (Option α)}
    (h : some job ∈ queue.push none) : some job ∈ queue := by
  simpa [ThreadQueue.push] using h

/-- **Jobs come from outside.**  After a step a job is outstanding only if it was, or if the step
    has enqueued it. -/
theorem step_outstanding {p : ThreadPool α k} {a : PoolAct α k} {job : α}
    (h : (p.step a).Outstanding job) : p.Outstanding job ∨ job ∈ a.enqueues := by
  have hdoes := p.step_does a
  generalize p.step a = p' at h hdoes
  cases hdoes with
  | enqueueWork job' =>
    rcases h with h | h
    · rcases List.mem_append.mp h with h | h
      · exact .inl (.inl h)
      · cases List.mem_singleton.mp h
        exact .inr (List.mem_singleton_self job)
    · exact .inl (.inr h)
  | destroy => exact .inl (h.imp_left mem_push_none)
  | @pop w workItem workQueue hw hqueue =>
    -- The worker now holds what was the front of the queue.
    refine .inl (h.of_update (fun hmem => .inl ?_) fun hjob => .inl ?_)
    · rw [hqueue]
      exact List.mem_cons_of_mem _ hmem
    · rw [hqueue, ← (hjob : workItem = some job)]
      exact List.mem_cons_self
  | @call w job' hw =>
    refine .inl (h.of_update .inl fun hjob => .inr ⟨w, ?_⟩)
    rw [hw]
    exact hjob
  | leave hw =>
    exact .inl (h.of_update (fun hmem => .inl (mem_push_none hmem)) (by simp [Worker.job]))
  | finish hw => exact .inl (h.of_update .inl (by simp [Worker.job]))
  | idle _ _ => exact .inl h

/-! ### A single worker -/

/-- The jobs that have not been called yet: those the workers hold, then those in the queue. -/
def notBegun (p : ThreadPool α k) : List α :=
  (List.finRange k).filterMap (fun w => (p.threads w).next) ++ p.workQueue.reduceOption

theorem notBegun_one (p : ThreadPool α 1) :
    p.notBegun = (p.threads 0).next.toList ++ p.workQueue.reduceOption := by
  rw [notBegun]
  have : List.finRange 1 = [0] := rfl
  rw [this]
  cases h : (p.threads 0).next <;> simp [h]

theorem reduceOption_push (workItem : Option α) (queue : ThreadQueue (Option α)) :
    (queue.push workItem).reduceOption = queue.reduceOption ++ workItem.toList := by
  rw [ThreadQueue.push, List.reduceOption_append]
  cases workItem <;> rfl

/-- A push goes to the end of what has not been called. -/
theorem notBegun_push (p : ThreadPool α k) (workItem : Option α) :
    notBegun { p with workQueue := p.workQueue.push workItem } = p.notBegun ++ workItem.toList := by
  rw [notBegun, notBegun, List.append_assoc, reduceOption_push]

/-- What a step of the only worker leaves in the order of the jobs. -/
theorem step_worker_inOrder (p : ThreadPool α 1) :
    (p.pop 0).begun ++ (p.pop 0).notBegun = p.begun ++ p.notBegun ∧
    (p.call 0).begun ++ (p.call 0).notBegun = p.begun ++ p.notBegun ∧
    (p.finish 0).begun ++ (p.finish 0).notBegun = p.begun ++ p.notBegun := by
  obtain ⟨threads, workQueue, begun⟩ := p
  simp only [notBegun_one, pop, call, finish]
  cases hworker : threads 0 with
  | waiting => cases workQueue with
    | nil => simp [ThreadQueue.waitAndPop, hworker]
    | cons item queue =>
      cases item <;>
        simp [ThreadQueue.waitAndPop, Worker.next, hworker, List.reduceOption_cons_of_some,
          List.reduceOption_cons_of_none]
  | popped workItem => cases workItem <;> simp [Worker.next, reduceOption_push, hworker]
  | running job => simp [Worker.next, hworker]
  | stopped => simp [Worker.next, hworker]

/-- **A single worker keeps the order**: the jobs that have been called, followed by those that
    have not, are the jobs in the order in which they were enqueued. -/
theorem step_inOrder (hk : k ≤ 1) (p : ThreadPool α k) (a : PoolAct α k) :
    (p.step a).begun ++ (p.step a).notBegun = p.begun ++ p.notBegun ++ a.enqueues := by
  -- With two workers a later job could be called while an earlier one has only been popped.
  have hworker : ∀ w : Fin k, (p.pop w).begun ++ (p.pop w).notBegun = p.begun ++ p.notBegun ∧
      (p.call w).begun ++ (p.call w).notBegun = p.begun ++ p.notBegun ∧
      (p.finish w).begun ++ (p.finish w).notBegun = p.begun ++ p.notBegun := by
    intro w
    obtain rfl : k = 1 := by have := w.isLt; omega
    rw [Subsingleton.elim w 0]
    exact step_worker_inOrder p
  cases a with
  | enqueueWork job =>
    rw [step, enqueueWork, notBegun_push, List.append_assoc]
    rfl
  | destroy =>
    rw [step, destroy, notBegun_push, List.append_assoc]
    rfl
  | pop w => exact (hworker w).1.trans (List.append_nil _).symm
  | call w => exact (hworker w).2.1.trans (List.append_nil _).symm
  | finish w => exact (hworker w).2.2.trans (List.append_nil _).symm

end ThreadPool

end Icl.Util
