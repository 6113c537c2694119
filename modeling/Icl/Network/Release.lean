import Icl.Network.Descriptors

namespace Icl.Network

open Icl.Cxx Icl.Transition

/-!
# What becomes of the descriptors that were accepted

When `Run` returns, each descriptor that `accept` returned should have been closed, once.
`UpdateClients` closes every client it erases, but the clean-up behind the loop closes only the
clients that are connected, and a WebSocket is not before its handshake.

* `uses` — what is done with one descriptor, in order;
* `ReleasedOnce` — each opening is followed by one closing;
* `Server.turn` — the loop of `Run` without the clean-up, so that another thread may send
  between the two; `run_step_ends` takes the runs of `Server.step` apart accordingly;
* `Held` — the invariant: the descriptors still open are those of the table;
* `releasedOnce_iff` — all are released in the runs whose loop ends with no WebSocket waiting for
  its handshake, and in no others.
-/

/-! ### The uses of a descriptor -/

/-- What can be done with a descriptor. -/
inductive Use where
  | opened | closed
  deriving DecidableEq, Repr

/-- The use that an effect makes of the descriptor `fd`. -/
def Effect.useOf (fd : Int) : Effect → Option Use
  | .accepted _ socket => if socket = fd then some .opened else none
  | .close socket => if socket = fd then some .closed else none
  | _ => none

/-- What has been done with the descriptor `fd`, in order. -/
def uses (fd : Int) (log : List Effect) : List Use := log.filterMap (Effect.useOf fd)

/-- A descriptor opened and closed `n` times. -/
def rounds (n : Nat) : List Use := (List.replicate n [Use.opened, Use.closed]).flatten

/-- **What should hold when `Run` returns**: each descriptor has been closed once for each time
    that `accept` returned it, before `accept` returned it again. -/
def ReleasedOnce (log : List Effect) : Prop := ∀ fd, ∃ n, uses fd log = rounds n

@[simp] theorem uses_append (fd : Int) (log effects : List Effect) :
    uses fd (log ++ effects) = uses fd log ++ uses fd effects := List.filterMap_append

@[simp] theorem length_rounds (n : Nat) : (rounds n).length = 2 * n := by
  simp [rounds, Nat.mul_comm]

/-- One round more opens and closes once more. -/
theorem rounds_succ (n : Nat) : rounds (n + 1) = rounds n ++ [.opened, .closed] := by
  simp [rounds, List.replicate_succ']

/-- Effects that open and close nothing do not use a descriptor. -/
theorem uses_quiet {effects : List Effect} (h : ∀ e ∈ effects, e.Quiet) (fd : Int) :
    uses fd effects = [] := by
  refine List.filterMap_eq_nil_iff.mpr fun e he => ?_
  have hquiet := h e he
  cases e with
  | accepted serial socket => exact absurd hquiet id
  | close socket => exact absurd hquiet id
  | _ => rfl

/-- Taking a client over opens its descriptor. -/
theorem uses_acceptClient (fd : Int) (conn : Conn) :
    uses fd (acceptClient conn) = if conn.peer.socket = fd then [.opened] else [] := by
  unfold acceptClient
  by_cases hfd : conn.peer.socket = fd <;> cases conn.peer.isWebSocket <;>
    simp [uses, List.filterMap_cons, Effect.useOf, hfd]

/-- Closing a client closes its descriptor. -/
theorem uses_closeClient (fd : Int) (conn : Conn) :
    uses fd (closeClient conn) = if conn.peer.socket = fd then [.closed] else [] := by
  unfold closeClient
  by_cases hfd : conn.peer.socket = fd <;> cases conn.isConnected <;>
    simp [uses, List.filterMap_cons, Effect.useOf, hfd]

/-- Clients on distinct descriptors, of which each is closed. -/
theorem uses_flatMap {fd : Int} {closing : Conn → List Effect}
    (hclosing : ∀ c, uses fd (closing c) = if c.peer.socket = fd then [.closed] else [])
    {conns : List Conn} (hnodup : (conns.map (·.peer.socket)).Nodup) :
    uses fd (conns.flatMap closing)
      = if fd ∈ conns.map (·.peer.socket) then [.closed] else [] := by
  induction conns with
  | nil => rfl
  | cons conn conns ih =>
    rw [List.map_cons, List.nodup_cons] at hnodup
    rw [List.flatMap_cons, uses_append, hclosing, ih hnodup.2, List.map_cons]
    by_cases hfd : conn.peer.socket = fd
    · rw [hfd] at hnodup
      rw [if_pos hfd, if_neg hnodup.1, if_pos (by simp [hfd]), List.append_nil]
    · rw [if_neg hfd, List.nil_append]
      simp [Ne.symm hfd]

/-! ### The loop of `Run` -/

/-- One action of the server, as `Server.step` without the clean-up. -/
def Server.turn (s : Server) : Action → Except Fault Server
  | .batch events =>
    if s.endServer then .ok s
    else do
      let s ← run handleEvent s events
      return updateClients s
  | .waitFailed retry =>
    if s.endServer || retry then .ok s
    else .ok { s with
      endServer := true
      log := s.log ++ [.enqueue (.serverTerminated .waitSockFailed)] }
  | .sendToAllClients data wsOnly answers =>
    let (_, clients, effects) := sendToClients data wsOnly answers 0 s.clients
    .ok { s with clients, log := s.log ++ effects }

/-- While the loop runs, a step is a turn and what follows it. -/
theorem Server.step_eq_turn {s : Server} (hend : s.endServer = false) (action : Action) :
    s.step action = (s.turn action).map endTurn := by
  cases action with
  | batch events =>
    rw [Server.step, Server.turn, if_neg (by simp [hend]), if_neg (by simp [hend])]
    cases run handleEvent s events <;> rfl
  | waitFailed retry => cases retry <;> simp [Server.step, Server.turn, hend, Except.map, endTurn]
  | sendToAllClients data wsOnly answers =>
    simp [Server.step, Server.turn, Except.map, endTurn, hend]

/-- Once `Run` has returned, nothing happens any more. -/
theorem Server.step_returned {s : Server} (hend : s.endServer = true) (hclients : s.clients = [])
    (action : Action) : s.step action = .ok s := by
  cases action with
  | batch events => exact if_pos hend
  | waitFailed retry => exact if_pos (by simp [hend])
  | sendToAllClients data wsOnly answers =>
    rw [Server.step, hclients]
    simp [sendToClients, ← hclients]

/-- **A run that has ended** is one of the loop, then the clean-up. -/
theorem run_step_ends {s s' : Server} {actions : List Action} (hopen : s.endServer = false)
    (hrun : run Server.step s actions = .ok s') (hend : s'.endServer = true) :
    ∃ turns s₁, turns <+: actions ∧ run Server.turn s turns = .ok s₁ ∧ s₁.endServer = true ∧
      s' = cleanup s₁ := by
  induction actions generalizing s with
  | nil =>
    cases hrun
    rw [hopen] at hend
    cases hend
  | cons action actions ih =>
    rw [run_cons, Server.step_eq_turn hopen] at hrun
    rcases hturn : s.turn action with e | s₁
    · rw [hturn] at hrun
      cases hrun
    rw [hturn] at hrun
    replace hrun : run Server.step (endTurn s₁) actions = .ok s' := hrun
    -- The turn was the last one, or the loop goes on.
    by_cases hlast : s₁.endServer = true
    · -- The loop ends here; whatever comes behind the clean-up does nothing.
      rw [endTurn, if_pos hlast] at hrun
      have hstays : s' = cleanup s₁ := by
        have hstep : ∀ s a s₂, Server.step s a = .ok s₂ → s = cleanup s₁ → s₂ = cleanup s₁ := by
          rintro _ a s₂ hs₂ rfl
          rw [Server.step_returned (s := cleanup s₁) hlast rfl] at hs₂
          exact (Except.ok.inj hs₂).symm
        exact invariant_run hstep hrun rfl
      exact ⟨[action], s₁, by simp, by simp [run_cons, hturn], hlast, hstays⟩
    · rw [endTurn, if_neg hlast] at hrun
      obtain ⟨turns, s₂, hprefix, hturns, hrest⟩ := ih (by simpa using hlast) hrun
      refine ⟨action :: turns, s₂, by simpa using hprefix, ?_, hrest⟩
      rw [run_cons, hturn]
      exact hturns

/-! ### The invariant -/

/-- The descriptors `sockets` are open, each for the first time or after some rounds, and every
    other one has been closed. -/
def Held (sockets : List Int) (log : List Effect) : Prop :=
  ∀ fd, ∃ n, uses fd log = rounds n ++ if fd ∈ sockets then [.opened] else []

/-- Nothing is left open exactly if there is nothing that is held. -/
theorem Held.releasedOnce {sockets : List Int} {log : List Effect} (h : Held sockets log) :
    ReleasedOnce log ↔ sockets = [] := by
  constructor
  · intro hreleased
    refine List.eq_nil_iff_forall_not_mem.mpr fun fd hfd => ?_
    obtain ⟨n, hn⟩ := h fd
    obtain ⟨m, hm⟩ := hreleased fd
    rw [if_pos hfd, hm] at hn
    -- Rounds are of even length, and an opening more makes it odd.
    have hlength := congrArg List.length hn
    simp only [length_rounds, List.length_append, List.length_singleton] at hlength
    omega
  · rintro rfl fd
    obtain ⟨n, hn⟩ := h fd
    exact ⟨n, by simpa using hn⟩

/-- Effects that open and close nothing. -/
theorem Held.quiet {sockets : List Int} {log effects : List Effect} (h : Held sockets log)
    (hquiet : ∀ e ∈ effects, e.Quiet) : Held sockets (log ++ effects) := by
  intro fd
  obtain ⟨n, hn⟩ := h fd
  exact ⟨n, by rw [uses_append, uses_quiet hquiet, List.append_nil, hn]⟩

/-- A descriptor is opened that was not held. -/
theorem Held.opens {sockets : List Int} {log effects : List Effect} {socket : Int}
    (h : Held sockets log) (hfree : socket ∉ sockets)
    (heffects : ∀ fd, uses fd effects = if socket = fd then [.opened] else []) :
    Held (sockets ++ [socket]) (log ++ effects) := by
  intro fd
  obtain ⟨n, hn⟩ := h fd
  refine ⟨n, ?_⟩
  rw [uses_append, heffects, hn]
  by_cases hfd : socket = fd
  · rw [← hfd, if_neg hfree, if_pos rfl, if_pos (by simp), List.append_nil]
  · simp [hfd, Ne.symm hfd]

/-- Some of the clients are closed, the others are kept. -/
theorem Held.closes {conns : List Conn} {log effects : List Effect}
    (h : Held (conns.map (·.peer.socket)) log) (hnodup : (conns.map (·.peer.socket)).Nodup)
    (p : Conn → Bool) (heffects : ∀ fd, uses fd effects
      = if fd ∈ (conns.filter p).map (·.peer.socket) then [.closed] else []) :
    Held ((conns.filter fun c => !p c).map (·.peer.socket)) (log ++ effects) := by
  intro fd
  obtain ⟨n, hn⟩ := h fd
  rw [uses_append, heffects, hn]
  by_cases hclosed : fd ∈ (conns.filter p).map (·.peer.socket)
  · -- The client on `fd` is closed, and no other one is on `fd`.
    obtain ⟨c, hc, rfl⟩ := List.mem_map.mp hclosed
    obtain ⟨hc, hp⟩ := List.mem_filter.mp hc
    have hkept : c.peer.socket ∉ (conns.filter fun c => !p c).map (·.peer.socket) := by
      intro hmem
      obtain ⟨c', hc', heq⟩ := List.mem_map.mp hmem
      obtain ⟨hc', hp'⟩ := List.mem_filter.mp hc'
      rw [List.inj_on_of_nodup_map hnodup hc' hc heq, hp] at hp'
      cases hp'
    refine ⟨n + 1, ?_⟩
    rw [if_pos hclosed, if_neg hkept, if_pos (List.mem_map_of_mem hc), rounds_succ]
    simp
  · refine ⟨n, ?_⟩
    -- The descriptor is kept by those who are not closed exactly when it was held at all.
    have hsame : fd ∈ (conns.filter fun c => !p c).map (·.peer.socket)
        ↔ fd ∈ conns.map (·.peer.socket) := by
      constructor
      · exact fun hmem => (List.filter_sublist.map _).subset hmem
      · intro hmem
        obtain ⟨c, hc, rfl⟩ := List.mem_map.mp hmem
        refine List.mem_map_of_mem (List.mem_filter.mpr ⟨hc, ?_⟩)
        by_contra hp
        exact hclosed (List.mem_map_of_mem (List.mem_filter.mpr ⟨hc, by simpa using hp⟩))
    rw [if_neg hclosed, List.append_nil]
    simp only [hsame]

/-- The descriptors of the table. -/
def Server.sockets (s : Server) : List Int := s.clients.map (·.peer.socket)

/-- What holds between two events: besides what holds of the table, its descriptors are the open
    ones. -/
structure ReleaseInv (s : Server) : Prop where
  table : TableInv s
  held : Held s.sockets s.log

/-- Nothing is open before the first action. -/
theorem releaseInv_start (tcpServer wsServer : Peer) (receiveFd : Int) :
    ReleaseInv (Server.start tcpServer wsServer receiveFd) where
  table := tableInv_start tcpServer wsServer receiveFd
  held _ := ⟨0, rfl⟩

/-- Clients that keep their places keep their sockets. -/
theorem Keeps.sockets {conns conns' : List Conn} {effects : List Effect}
    (h : Keeps conns conns' effects) :
    conns'.map (·.peer.socket) = conns.map (·.peer.socket) := by
  have := congrArg (List.map Prod.snd) h.same
  rwa [List.map_map, List.map_map] at this

/-- If the system has kept its promise up to the second state, it had kept it up to the first, and
    the invariant has been passed on. -/
def HandsOn (s s' : Server) : Prop :=
  AcceptsClosed s'.log → AcceptsClosed s.log ∧ (ReleaseInv s → ReleaseInv s')

/-- A state hands the invariant on to itself. -/
theorem HandsOn.refl (s : Server) : HandsOn s s := fun h => ⟨h, id⟩

/-- The invariant is handed on along the way from state to state. -/
theorem HandsOn.trans (s s₁ s₂ : Server) (h : HandsOn s s₁) (h' : HandsOn s₁ s₂) :
    HandsOn s s₂ := fun hclosed =>
  have ⟨hclosed₁, hinv₁⟩ := h' hclosed
  have ⟨hclosed₀, hinv₀⟩ := h hclosed₁
  ⟨hclosed₀, hinv₁ ∘ hinv₀⟩

/-- What passes the invariant of the table on and keeps the descriptors. -/
theorem HandsOn.of_passesOn {s s' : Server} (h : PassesOn s s')
    (hheld : AcceptsClosed s'.log → TableInv s → Held s.sockets s.log → Held s'.sockets s'.log) :
    HandsOn s s' := fun hclosed =>
  have ⟨hclosed₀, htable⟩ := h hclosed
  ⟨hclosed₀, fun hinv => ⟨htable hinv.table, hheld hclosed hinv.table hinv.held⟩⟩

/-- It is handed on where the clients keep their places. -/
theorem HandsOn.keeps {s : Server} {clients : List Conn} {effects : List Effect}
    (h : Keeps s.clients clients effects) :
    HandsOn s { s with clients, log := s.log ++ effects } := by
  refine .of_passesOn (.keeps h) fun _ _ hheld => ?_
  show Held (clients.map (·.peer.socket)) (s.log ++ effects)
  rw [h.sockets]
  exact hheld.quiet h.quiet

/-- It is handed on where the server ends. -/
theorem HandsOn.terminated (s : Server) (type : CloseType) :
    HandsOn s { s with endServer := true, log := s.log ++ [.enqueue (.serverTerminated type)] } :=
  .of_passesOn (.terminated s type) fun _ _ hheld => hheld.quiet (by simp [Effect.Quiet])

/-- One client more, on a descriptor that was closed. -/
theorem HandsOn.accept (isWebSocket : Bool) (s : Server) (newSd : Nat) :
    HandsOn s (incommingConnection isWebSocket s [newSd]) := by
  refine .of_passesOn (.incommingConnection isWebSocket s [newSd]) fun hclosed htable hheld => ?_
  have hnone : descriptors s.log newSd = none := (eachEffect_append.mp hclosed).2.1
  have hfree : (newSd : Int) ∉ s.sockets := by
    intro hmem
    obtain ⟨c, hc, heq⟩ := List.mem_map.mp hmem
    have hopen := htable.distinctOpen.isOpen c hc
    rw [heq, hnone] at hopen
    cases hopen
  have hsockets : (incommingConnection isWebSocket s [newSd]).sockets
      = s.sockets ++ [(newSd : Int)] := List.map_append
  rw [hsockets]
  exact hheld.opens hfree fun fd => uses_acceptClient fd (.new s.nextSerial newSd isWebSocket)

/-- It is handed on by `IncommingConnection`. -/
theorem HandsOn.incommingConnection (isWebSocket : Bool) (s : Server) (accepted : List Nat) :
    HandsOn s (incommingConnection isWebSocket s accepted) := by
  induction accepted generalizing s with
  | nil => exact .refl s
  | cons newSd accepted ih => exact (HandsOn.accept isWebSocket s newSd).trans _ _ _ (ih _)

/-- **An event** passes the invariant on. -/
theorem HandsOn.handleEvent {s s' : Server} {ev : EpollEvent}
    (h : handleEvent s ev = .ok s') : HandsOn s s' := by
  cases handleEvent_does h with
  | hangUp _ => simpa using HandsOn.keeps (removeClient_keeps ev.fd s.clients)
  | terminate => exact .terminated s .closed
  | accept isWebSocket => exact .incommingConnection isWebSocket s ev.accepted
  | ignore => exact .refl s
  | scan _ hscan => exact .keeps (scanClients_keeps hscan)

/-- **The end of a batch** passes the invariant on: each client that is erased is closed. -/
theorem HandsOn.updateClients (s : Server) : HandsOn s (updateClients s) := by
  refine .of_passesOn (.updateClients s) fun _ htable hheld => ?_
  rw [updateClients_eq]
  have hnodup := htable.distinctOpen.distinct
  refine hheld.closes hnodup mustErase fun fd => ?_
  exact uses_flatMap (uses_closeClient fd) (hnodup.sublist (List.filter_sublist.map _))

/-- **One turn** passes the invariant on. -/
theorem HandsOn.turn {s s' : Server} {action : Action} (h : s.turn action = .ok s') :
    HandsOn s s' := by
  cases action with
  | batch events =>
    rw [Server.turn] at h
    split_ifs at h
    · cases h
      exact .refl s
    -- Event by event, and then the erasing of the marked clients.
    · obtain ⟨s₁, hrun, h⟩ := bind_eq_ok.mp h
      cases h
      exact (run_rel HandsOn.refl HandsOn.trans (fun _ _ _ => HandsOn.handleEvent) hrun).trans _ _ _
        (.updateClients s₁)
  | waitFailed retry =>
    rw [Server.turn] at h
    split_ifs at h
    · cases h
      exact .refl s
    · cases h
      exact .terminated s .waitSockFailed
  | sendToAllClients data wsOnly answers =>
    cases h
    exact .keeps (sendToClients_keeps data wsOnly answers 0 s.clients)

/-! ### The clean-up -/

/-- In a table of the invariant the clients that are not connected are the waiting WebSockets. -/
theorem TableInv.isConnected_eq {s : Server} (h : TableInv s) {conn : Conn}
    (hconn : conn ∈ s.clients) : conn.isConnected = !decide conn.AwaitsHandshake := by
  have hvalid : conn.peer.isValid = true := by
    simpa [Peer.isValid, Conn.ident] using h.seated.valid _ (List.mem_map_of_mem hconn)
  rw [Conn.isConnected, if_pos hvalid]
  by_cases hws : conn.peer.isWebSocket = true
  · cases hstate : conn.state <;> simp [Conn.AwaitsHandshake, hws, hstate]
  · simp [Conn.AwaitsHandshake, hws]

/-- The clean-up closes the connected clients and leaves the other ones open. -/
theorem ReleaseInv.cleanup {s : Server} (h : ReleaseInv s) :
    Held ((s.clients.filter fun c => !c.isConnected).map (·.peer.socket))
      (Network.cleanup s).log := by
  have hnodup := h.table.distinctOpen.distinct
  refine h.held.closes hnodup Conn.isConnected fun fd => ?_
  rw [List.map_eq_flatMap]
  refine uses_flatMap (fun c => ?_) (hnodup.sublist (List.filter_sublist.map _))
  by_cases hfd : c.peer.socket = fd <;> simp [uses, Effect.useOf, hfd]

/-- **The release of the descriptors.**  As long as the system does not return a descriptor that is
    open, the descriptors accepted in a run that has ended have all been closed, each once for
    each time it was accepted, exactly if no WebSocket of the table was waiting for its handshake
    when the loop ended. -/
theorem releasedOnce_iff (tcpServer wsServer : Peer) (receiveFd : Int) (actions : List Action)
    (s : Server) (hrun : run Server.turn (.start tcpServer wsServer receiveFd) actions = .ok s)
    (hend : s.endServer = true) (hclosed : AcceptsClosed s.log) :
    ReleasedOnce (endTurn s).log ↔ ∀ conn ∈ s.clients, ¬ conn.AwaitsHandshake := by
  obtain ⟨-, hinv⟩ := run_rel HandsOn.refl HandsOn.trans (fun _ _ _ => HandsOn.turn) hrun hclosed
  have h := hinv (releaseInv_start tcpServer wsServer receiveFd)
  rw [endTurn, if_pos hend, h.cleanup.releasedOnce, List.map_eq_nil_iff, List.filter_eq_nil_iff]
  refine forall₂_congr fun conn hconn => ?_
  rw [h.table.isConnected_eq hconn]
  simp

/-- A client hangs up, and another one has its descriptor when the server is stopped. -/
theorem releasedOnce_iff_reused :
    ∃ s, run Server.turn (.start ⟨3, false⟩ ⟨4, true⟩ 5)
        [.batch [.listening 3 [8]], .batch [.hangUp 8], .batch [.listening 3 [8]],
          .batch [.listening 5 []]] = .ok s ∧
      ReleasedOnce (endTurn s).log := by
  obtain ⟨s, hs⟩ : ∃ s, run Server.turn (.start ⟨3, false⟩ ⟨4, true⟩ 5)
      [.batch [.listening 3 [8]], .batch [.hangUp 8], .batch [.listening 3 [8]],
        .batch [.listening 5 []]] = .ok s := ⟨_, rfl⟩
  refine ⟨s, hs, (releasedOnce_iff _ _ _ _ s hs ?_ ?_).mpr ?_⟩
  · cases hs
    rfl
  · cases hs
    decide
  · cases hs
    decide

/-- A WebSocket that was accepted and has sent nothing when the server is stopped: its descriptor
    is never closed. -/
theorem waiting_webSocket_leaks :
    ∃ s, run Server.turn (.start ⟨3, false⟩ ⟨4, true⟩ 5)
        [.batch [.listening 4 [8]], .batch [.listening 5 []]] = .ok s ∧
      s.endServer = true ∧ AcceptsClosed s.log ∧ ¬ ReleasedOnce (endTurn s).log := by
  refine ⟨_, rfl, rfl, by decide, fun h => ?_⟩
  obtain ⟨n, hn⟩ := h 8
  have hlength := congrArg List.length hn
  rw [length_rounds] at hlength
  exact absurd hlength (show 1 ≠ 2 * n by omega)

end Icl.Network
