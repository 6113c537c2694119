import Icl.Network.Descriptors
import Icl.Util.Pool

namespace Icl.Network

open Icl.Cxx Icl.Transition Icl.Util

/-!
# The server thread, the worker pool and the descriptors

The threads of the program run side by side.  What an action of the server does to the outside it
does one effect after the other, and the workers may take steps in between.

* `System.step` — one action of the server, one of its effects, or one step of a worker;
* `SysInv` — the invariant: each `ReadData` that is outstanding has been enqueued, and its
  descriptor is closed or is still its own;
* `replies_reach_own` — a running `ReadData` writes to its own connection, as long as no connection
  is accepted on a descriptor that an outstanding `ReadData` still uses;
* `callbacks_inOrder_iff` — the jobs of a connection begin in the order in which they were
  enqueued, whatever the run, if and only if the pool has at most one thread.
-/

/-! ### The system -/

/-- The server, what it has still to do before its next action, what has been done so far, and the
    pool with its `k` threads. -/
structure System (k : Nat) where
  server : Server
  pending : List Effect
  done : List Effect
  pool : ThreadPool Job k

/-- What can happen next. -/
inductive SystemAct (k : Nat) where
  /-- The thread of the server, or another one with `SendToAllClients`, takes the mutex. -/
  | server (action : Action)
  /-- The next effect of the action in progress. -/
  | effect
  /-- `~thread_pool`. -/
  | destroyPool
  | pop (w : Fin k)
  | call (w : Fin k)
  | finish (w : Fin k)

namespace System

variable {k : Nat}

/-- The system when `Run` enters its loop. -/
def start (k : Nat) (tcpServer wsServer : Peer) (receiveFd : Int) : System k :=
  { server := .start tcpServer wsServer receiveFd, pending := [], done := [], pool := .start }

/-- What an effect does to the pool. -/
def perform (pool : ThreadPool Job k) : Effect → ThreadPool Job k
  | .enqueue job => pool.step (.enqueueWork job)
  | _ => pool

/-- One step of the pool. -/
def work (sys : System k) (a : PoolAct Job k) : System k := { sys with pool := sys.pool.step a }

/-- One step of the system.  An action of the server waits for the end of the one before. -/
def step (sys : System k) : SystemAct k → Except Fault (System k)
  | .server action =>
    if sys.pending = [] then do
      let server ← sys.server.step action
      return { sys with server, pending := server.log.drop sys.server.log.length }
    else return sys
  | .effect =>
    match sys.pending with
    | [] => return sys
    | e :: pending =>
      return { sys with pending, done := sys.done ++ [e], pool := perform sys.pool e }
  | .destroyPool => return sys.work .destroy
  | .pop w => return sys.work (.pop w)
  | .call w => return sys.work (.call w)
  | .finish w => return sys.work (.finish w)

/-- What a step of the system can do: the server acts, or an effect takes place, or a worker takes
    a step, which enqueues nothing. -/
theorem step_cases {sys sys' : System k} {a : SystemAct k} (h : sys.step a = .ok sys') :
    (∃ action server, a = .server action ∧ sys.pending = [] ∧
      sys.server.step action = .ok server ∧
      sys' = { sys with server, pending := server.log.drop sys.server.log.length }) ∨
    (∃ e pending, a = .effect ∧ sys.pending = e :: pending ∧
      sys' = { sys with pending, done := sys.done ++ [e], pool := perform sys.pool e }) ∨
    (∃ act : PoolAct Job k, act.enqueues = [] ∧ sys' = sys.work act) ∨ sys' = sys := by
  cases a with
  | server action =>
    rw [step] at h
    split_ifs at h with hpending
    · obtain ⟨server, hserver, h⟩ := bind_eq_ok.mp h
      cases h
      exact .inl ⟨action, server, rfl, hpending, hserver, rfl⟩
    · cases h
      exact .inr (.inr (.inr rfl))
  | effect =>
    rw [step] at h
    -- The effects take place one at a time, oldest first.
    cases hpending : sys.pending with
    | nil =>
      rw [hpending] at h
      cases h
      exact .inr (.inr (.inr rfl))
    | cons e pending =>
      rw [hpending] at h
      cases h
      exact .inr (.inl ⟨e, pending, rfl, rfl, rfl⟩)
  | destroyPool =>
    cases h
    exact .inr (.inr (.inl ⟨.destroy, rfl, rfl⟩))
  | pop w =>
    cases h
    exact .inr (.inr (.inl ⟨.pop w, rfl, rfl⟩))
  | call w =>
    cases h
    exact .inr (.inr (.inl ⟨.call w, rfl, rfl⟩))
  | finish w =>
    cases h
    exact .inr (.inr (.inl ⟨.finish w, rfl, rfl⟩))

end System

/-! ### The log of the server -/

/-- The log of the second state goes on where that of the first one ends. -/
def LogGrows (s s' : Server) : Prop := s.log <+: s'.log

/-- A log is a beginning of itself. -/
theorem LogGrows.refl (s : Server) : LogGrows s s := List.prefix_rfl

/-- Logs grow on. -/
theorem LogGrows.trans {s s₁ s₂ : Server} (h : LogGrows s s₁) (h' : LogGrows s₁ s₂) :
    LogGrows s s₂ := List.IsPrefix.trans h h'

/-- A log grows by the effects behind it. -/
theorem LogGrows.of_append {s s' : Server} {effects : List Effect}
    (h : s'.log = s.log ++ effects) : LogGrows s s' := ⟨effects, h.symm⟩

/-- Accepting only adds to the log. -/
theorem logGrows_incommingConnection (isWebSocket : Bool) (s : Server) (accepted : List Nat) :
    LogGrows s (incommingConnection isWebSocket s accepted) := by
  induction accepted generalizing s with
  | nil => exact .refl s
  | cons newSd accepted ih =>
    rw [incommingConnection]
    exact .trans (.of_append rfl) (ih _)

/-- So does every event. -/
theorem logGrows_handleEvent {s s' : Server} {ev : EpollEvent} (h : handleEvent s ev = .ok s') :
    LogGrows s s' := by
  cases handleEvent_does h with
  | hangUp _ => exact .of_append (List.append_nil _).symm
  | terminate => exact .of_append rfl
  | accept isWebSocket => exact logGrows_incommingConnection isWebSocket s ev.accepted
  | ignore => exact .refl s
  | scan _ _ => exact .of_append rfl

/-- So does the end of a turn. -/
theorem logGrows_endTurn (s : Server) : LogGrows s (endTurn s) := by
  rw [endTurn]
  split_ifs
  · exact .of_append rfl
  · exact .refl s

/-- The server takes nothing back. -/
theorem logGrows_step {s s' : Server} {action : Action} (h : s.step action = .ok s') :
    LogGrows s s' := by
  cases Server.step_does h with
  | nothing => exact .refl s
  | @batch events s₁ _ hrun =>
    have hevents : LogGrows s s₁ :=
      run_rel LogGrows.refl (fun _ _ _ => LogGrows.trans) (fun _ _ _ => logGrows_handleEvent) hrun
    have hupdate : LogGrows s₁ (updateClients s₁) := .of_append rfl
    exact (hevents.trans hupdate).trans (logGrows_endTurn _)
  | waitFailed retry =>
    have hlog : LogGrows s { s with
        endServer := true, log := s.log ++ [.enqueue (.serverTerminated .waitSockFailed)] } :=
      .of_append rfl
    exact hlog.trans (logGrows_endTurn _)
  | sendToAllClients data wsOnly answers => exact .of_append rfl

/-- What has been done and what is still to be done make up the log of the server. -/
def InStep {k : Nat} (sys : System k) : Prop := sys.server.log = sys.done ++ sys.pending

/-- **What is done and what is pending is always the log of the server**, in this order. -/
theorem InStep.step {k : Nat} {sys sys' : System k} {a : SystemAct k} (h : sys.step a = .ok sys')
    (hs : InStep sys) : InStep sys' := by
  rcases System.step_cases h with ⟨action, server, -, hpending, hserver, rfl⟩ |
    ⟨e, pending, -, hpending, rfl⟩ | ⟨act, -, rfl⟩ | rfl
  · -- Everything that was logged before has been done.
    have hdone : sys.server.log = sys.done := by rw [hs, hpending, List.append_nil]
    obtain ⟨effects, heffects⟩ := logGrows_step hserver
    show server.log = sys.done ++ server.log.drop sys.server.log.length
    rw [← heffects, List.drop_left, hdone]
  · show sys.server.log = sys.done ++ [e] ++ pending
    rw [hs, hpending, List.append_assoc]
    rfl
  · exact hs
  · exact hs

/-! ### Replies -/

/-- A running `ReadData` can write to no connection but its own: its descriptor is its own or is
    closed. -/
def RepliesRight {k : Nat} (sys : System k) : Prop :=
  ∀ w conn, sys.pool.threads w = .running (.readData conn) →
    descriptors sys.done conn.peer.socket = some conn.serial ∨
    descriptors sys.done conn.peer.socket = none

/-- The step does not accept a connection on a descriptor that an outstanding `ReadData` uses. -/
def AcceptsFresh {k : Nat} (sys : System k) : SystemAct k → Prop
  | .effect => ∀ serial socket, sys.pending.head? = some (.accepted serial socket) →
      ∀ conn, sys.pool.Outstanding (.readData conn) → conn.peer.socket ≠ socket
  | _ => True

/-- What holds of the system, as long as `accept` returns closed descriptors. -/
structure SysInv {k : Nat} (sys : System k) : Prop where
  inStep : InStep sys
  table : TableInv sys.server
  outstanding : ∀ conn, sys.pool.Outstanding (.readData conn) →
    descriptors sys.done conn.peer.socket = some conn.serial ∨
    descriptors sys.done conn.peer.socket = none

/-- Nothing is pending and no job is outstanding before the first action. -/
theorem sysInv_start (k : Nat) (tcpServer wsServer : Peer) (receiveFd : Int) :
    SysInv (System.start k tcpServer wsServer receiveFd) where
  inStep := rfl
  table := tableInv_start tcpServer wsServer receiveFd
  outstanding _ h := absurd h (ThreadPool.not_outstanding_start _)

/-- With the invariant no reply can go to another client. -/
theorem SysInv.repliesRight {k : Nat} {sys : System k} (h : SysInv sys) : RepliesRight sys :=
  fun w conn hw => h.outstanding conn (.inr ⟨w, by rw [hw]; rfl⟩)

/-- The jobs that an effect enqueues. -/
def Effect.jobs : Effect → List Job
  | .enqueue job => [job]
  | _ => []

/-- An effect brings no other job to the pool than the one it enqueues. -/
theorem outstanding_perform {k : Nat} {pool : ThreadPool Job k} {e : Effect} {job : Job}
    (h : (System.perform pool e).Outstanding job) : pool.Outstanding job ∨ job ∈ e.jobs := by
  cases e with
  | enqueue job' => exact ThreadPool.step_outstanding h
  | _ => exact .inl h

/-- **An effect** keeps every outstanding `ReadData` on its own descriptor or on a closed one. -/
theorem SysInv.effect {k : Nat} {sys : System k} {e : Effect} {pending : List Effect}
    (h : SysInv sys) (hpending : sys.pending = e :: pending)
    (hfresh : AcceptsFresh sys .effect) (conn : Conn)
    (hout : (System.perform sys.pool e).Outstanding (.readData conn)) :
    descriptors (sys.done ++ [e]) conn.peer.socket = some conn.serial ∨
    descriptors (sys.done ++ [e]) conn.peer.socket = none := by
  have hafter : descriptors (sys.done ++ [e]) = (descriptors sys.done).apply e :=
    descriptors_append _ _
  rw [hafter]
  -- The job was outstanding before, or this effect enqueues it.
  rcases outstanding_perform hout with hold | hnew
  · cases e with
    | accepted serial socket =>
      have hother := hfresh serial socket (by rw [hpending]; rfl) conn hold
      rw [Descriptors.apply, Function.update_of_ne hother]
      exact h.outstanding conn hold
    | close socket =>
      -- Closing the descriptor of an outstanding job leaves it closed; another one does not matter.
      by_cases hsocket : conn.peer.socket = socket
      · right
        rw [Descriptors.apply, hsocket, Function.update_self]
      · rw [Descriptors.apply, Function.update_of_ne hsocket]
        exact h.outstanding conn hold
    | _ => exact h.outstanding conn hold
  · -- The job is enqueued now, while its connection is open.
    have hreads := h.table.reads
    rw [ReadsOpen, h.inStep, hpending] at hreads
    have hown := (eachEffect_append.mp hreads).2.1
    cases e with
    | enqueue job =>
      cases List.mem_singleton.mp hnew
      exact .inl hown
    | _ => cases hnew

/-- One step of the system, whose condition the step meets. -/
theorem SysInv.step {k : Nat} {sys sys' : System k} {a : SystemAct k} (hfresh : AcceptsFresh sys a)
    (h : sys.step a = .ok sys')
    (hinv : AcceptsClosed sys.server.log → SysInv sys) :
    AcceptsClosed sys'.server.log → SysInv sys' := by
  intro hclosed
  rcases System.step_cases h with ⟨action, server, -, hpending, hserver, rfl⟩ |
    ⟨e, pending, rfl, hpending, rfl⟩ | ⟨act, henqueues, rfl⟩ | rfl
  · -- The server acts: descriptors and jobs change only when its effects take place.
    obtain ⟨hclosed₀, htable⟩ := PassesOn.step hserver hclosed
    have hs := hinv hclosed₀
    exact ⟨InStep.step h hs.inStep, htable hs.table, hs.outstanding⟩
  · have hs := hinv hclosed
    exact ⟨InStep.step h hs.inStep, hs.table, hs.effect hpending hfresh⟩
  · have hs := hinv hclosed
    refine ⟨hs.inStep, hs.table, fun conn hout => hs.outstanding conn ?_⟩
    -- What the pool does by itself brings no new job.
    rcases ThreadPool.step_outstanding hout with hold | hnew
    · exact hold
    · rw [henqueues] at hnew
      cases hnew
  · exact hinv hclosed

/-- **Replies.**  As long as `accept` returns closed descriptors, in every run in which none is
    accepted on a descriptor that an outstanding `ReadData` uses, a `ReadData` that is running finds
    its own connection on its descriptor, or none. -/
theorem replies_reach_own (k : Nat) (tcpServer wsServer : Peer) (receiveFd : Int)
    (acts : List (SystemAct k)) (sys : System k)
    (hrun : run System.step (.start k tcpServer wsServer receiveFd) acts = .ok sys)
    (hclosed : AcceptsClosed sys.server.log)
    (hfresh : Along System.step AcceptsFresh (.start k tcpServer wsServer receiveFd) acts) :
    RepliesRight sys := by
  have hinv : AcceptsClosed sys.server.log → SysInv sys :=
    invariant_along (fun _ _ _ hfresh h hinv => SysInv.step hfresh h hinv) hfresh hrun
      (fun _ => sysInv_start k tcpServer wsServer receiveFd)
  exact (hinv hclosed).repliesRight

/-- A client is accepted and asks for something.  Two workers take the jobs, and the one that has
    the data is faster. -/
def firstData {k : Nat} (w w' : Fin k) : List (SystemAct k) :=
  [.server (.batch [.listening 3 [8]]), .effect, .effect, .effect,
    .server (.batch [.readable 8 (wholeRecv (ascii "x"))]), .effect, .pop w, .pop w', .call w']

theorem replies_reach_own_firstData :
    ∃ sys, run System.step (.start 2 ⟨3, false⟩ ⟨4, true⟩ 5) (firstData 0 1) = .ok sys ∧
      RepliesRight sys := by
  obtain ⟨sys, hsys⟩ : ∃ sys,
      run System.step (.start 2 ⟨3, false⟩ ⟨4, true⟩ 5) (firstData 0 1) = .ok sys := ⟨_, rfl⟩
  have hclosed : AcceptsClosed sys.server.log := by
    cases hsys
    decide
  have hfresh : Along System.step AcceptsFresh (.start 2 ⟨3, false⟩ ⟨4, true⟩ 5)
      (firstData 0 1) := by
    refine ⟨trivial, fun _ h => ?_⟩
    cases h
    -- The only connection is accepted before any job is enqueued.
    refine ⟨fun _ _ _ conn hout => absurd hout (ThreadPool.not_outstanding_start _), fun _ h => ?_⟩
    cases h
    refine ⟨nofun, fun _ h => ?_⟩
    cases h
    refine ⟨nofun, fun _ h => ?_⟩
    cases h
    refine ⟨trivial, fun _ h => ?_⟩
    cases h
    refine ⟨nofun, fun _ _ => ?_⟩
    exact ⟨trivial, fun _ _ => ⟨trivial, fun _ _ => ⟨trivial, fun _ _ => trivial⟩⟩⟩
  exact ⟨sys, hsys, replies_reach_own _ _ _ _ _ _ hsys hclosed hfresh⟩

/-- **A reply that reaches another client.**  The client hangs up while its request is handled, its
    descriptor is closed at once, and the next client gets it. -/
theorem reply_reaches_other :
    ∃ sys, run System.step (.start 2 ⟨3, false⟩ ⟨4, true⟩ 5)
        (firstData 0 1 ++ [.server (.batch [.hangUp 8]), .effect, .effect, .effect,
          .server (.batch [.listening 3 [8]]), .effect]) = .ok sys ∧
      AcceptsClosed sys.server.log ∧ ¬ RepliesRight sys := by
  refine ⟨_, rfl, by decide, fun h => ?_⟩
  have hreply := h 1 _ rfl
  revert hreply
  decide

/-! ### The order of the callbacks -/

/-- The jobs about connection `n`. -/
def jobsAbout (n : Nat) (jobs : List Job) : List Job :=
  jobs.filter fun job => (job.kindFor n).isSome

/-- The jobs that have been enqueued, in order. -/
def enqueued (effects : List Effect) : List Job := effects.flatMap Effect.jobs

/-- **The callbacks of each connection begin in order.** -/
def CallbacksInOrder {k : Nat} (sys : System k) : Prop :=
  ∀ n, jobsAbout n sys.pool.begun <+: jobsAbout n (enqueued sys.done)

/-- What a single worker keeps up: the jobs that have begun, and then those that have not, are
    those that have been enqueued. -/
def BeginsInOrder {k : Nat} (sys : System k) : Prop :=
  sys.pool.begun ++ sys.pool.notBegun = enqueued sys.done

/-- Where the jobs begin in the order of the effects, so do the callbacks. -/
theorem BeginsInOrder.callbacksInOrder {k : Nat} {sys : System k} (h : BeginsInOrder sys) :
    CallbacksInOrder sys := by
  intro n
  rw [← h, jobsAbout, jobsAbout, List.filter_append]
  exact List.prefix_append _ _

/-- Nothing has begun before the first action. -/
theorem beginsInOrder_start (k : Nat) (tcpServer wsServer : Peer) (receiveFd : Int) :
    BeginsInOrder (System.start k tcpServer wsServer receiveFd) := by
  rw [BeginsInOrder, System.start, ThreadPool.notBegun, ThreadPool.start]
  simp [Worker.next, enqueued]

/-- With one thread a job that is enqueued comes behind all the others. -/
theorem perform_inOrder {k : Nat} (hk : k ≤ 1) (pool : ThreadPool Job k) (e : Effect) :
    (System.perform pool e).begun ++ (System.perform pool e).notBegun
      = pool.begun ++ pool.notBegun ++ e.jobs := by
  cases e with
  | enqueue job => exact ThreadPool.step_inOrder hk pool (.enqueueWork job)
  | _ => exact (List.append_nil _).symm

/-- **Every action keeps the order**, as long as the pool has at most one thread. -/
theorem BeginsInOrder.step {k : Nat} (hk : k ≤ 1) {sys sys' : System k} {a : SystemAct k}
    (h : sys.step a = .ok sys') (hs : BeginsInOrder sys) : BeginsInOrder sys' := by
  rcases System.step_cases h with ⟨action, server, -, -, -, rfl⟩ | ⟨e, pending, -, -, rfl⟩ |
    ⟨act, henqueues, rfl⟩ | rfl
  · exact hs
  · show (System.perform sys.pool e).begun ++ (System.perform sys.pool e).notBegun
      = enqueued (sys.done ++ [e])
    rw [perform_inOrder hk, hs, enqueued, enqueued, List.flatMap_append, List.flatMap_singleton]
  · show (sys.pool.step act).begun ++ (sys.pool.step act).notBegun = enqueued sys.done
    rw [ThreadPool.step_inOrder hk, hs, henqueues, List.append_nil]
  · exact hs

/-- With two threads, data may be read before its connection is announced. -/
theorem firstData_not_inOrder {k : Nat} (hk : 2 ≤ k) :
    ∃ sys, run System.step (.start k ⟨3, false⟩ ⟨4, true⟩ 5)
        (firstData ⟨0, by omega⟩ ⟨1, by omega⟩) = .ok sys ∧ ¬ CallbacksInOrder sys := by
  have hconn : ∃ sys, run System.step (.start k ⟨3, false⟩ ⟨4, true⟩ 5)
      (firstData ⟨0, by omega⟩ ⟨1, by omega⟩) = .ok sys ∧
      sys.pool.begun = [.readData { Conn.new 0 8 false with payload := ascii "x" }] ∧
      enqueued sys.done = [.newConnection (Conn.new 0 8 false),
        .readData { Conn.new 0 8 false with payload := ascii "x" }] := ⟨_, rfl, rfl, rfl⟩
  obtain ⟨sys, hrun, hbegun, henqueued⟩ := hconn
  refine ⟨sys, hrun, fun h => ?_⟩
  have hprefix := h 0
  rw [hbegun, henqueued] at hprefix
  revert hprefix
  decide

/-- **The order of the callbacks.**  In every run the callbacks of each connection begin in the
    order in which the server enqueued them if and only if the pool has at most one thread. -/
theorem callbacks_inOrder_iff (k : Nat) :
    (∀ (tcpServer wsServer : Peer) (receiveFd : Int) (acts : List (SystemAct k)) (sys : System k),
      run System.step (.start k tcpServer wsServer receiveFd) acts = .ok sys →
        CallbacksInOrder sys) ↔ k ≤ 1 := by
  constructor
  · intro h
    by_contra hk
    obtain ⟨sys, hrun, hnot⟩ := firstData_not_inOrder (k := k) (by omega)
    exact hnot (h _ _ _ _ sys hrun)
  · intro hk tcpServer wsServer receiveFd acts sys hrun
    exact (invariant_run (fun _ _ _ h hs => BeginsInOrder.step hk h hs) hrun
      (beginsInOrder_start k tcpServer wsServer receiveFd)).callbacksInOrder

/-- With two threads, data is read before its connection is announced. -/
theorem callbacks_out_of_order :
    ¬ ∀ (k : Nat) (tcpServer wsServer : Peer) (receiveFd : Int) (acts : List (SystemAct k))
      (sys : System k), run System.step (.start k tcpServer wsServer receiveFd) acts = .ok sys →
        CallbacksInOrder sys := by
  intro h
  obtain ⟨sys, hrun, hnot⟩ := firstData_not_inOrder (k := 2) (by omega)
  exact hnot (h 2 _ _ _ _ sys hrun)

end Icl.Network
