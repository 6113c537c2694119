import Icl.Network.Descriptors
import Icl.Network.EdgeTriggered
import Icl.Network.SelectServer

namespace Icl.Network.SelectServer

open Icl.Cxx Icl.Transition

/-!
# Whom the server keeps

* `Watching` — the invariant of the table of clients;
* `incommingConnection_watching`, `scanClients_watching`, `updateClients_watching` — what each
  operation keeps;
* `watching_run` — the invariant in every run;
* `keeps_reader_iff` — a client with data outlives a turn of `select` if and only if there is data
  for each turn over the descriptors.
-/

/-! ### The promise and the invariant -/

/-- The descriptors that `accept` has returned. -/
def acceptedSockets (log : List SelectEffect) : List Int :=
  log.filterMap fun
    | .accepted _ socket => some socket
    | _ => none

/-- **What the system promises**: `accept` never returns a descriptor that is open, as all of them
    are that have been returned before. -/
def Fresh (s : SelectServer) : Prop :=
  (listening s.tcpServer s.wsServer ++ acceptedSockets s.log).Nodup

instance (s : SelectServer) : Decidable (Fresh s) := inferInstanceAs (Decidable (List.Nodup _))

/-- **The invariant** of the table of clients. -/
structure Watching (s : SelectServer) : Prop where
  sockets : (s.clients.map (·.peer.socket)).Nodup
  serials : (s.clients.map Conn.serial).Nodup
  below : ∀ c ∈ s.clients, c.serial < s.nextSerial
  known : ∀ c ∈ s.clients, c.peer.socket ∈ acceptedSockets s.log
  max : s.mMaxSd = maxSocket s.tcpServer s.wsServer s.clients
  kept : ∀ fd, .close fd ∉ s.log

/-- Before the first pass the set holds the two listening sockets and nothing has been accepted. -/
theorem watching_start (tcpServer wsServer : Peer) : Watching (start tcpServer wsServer) where
  sockets := List.nodup_nil
  serials := List.nodup_nil
  below _ hc := absurd hc List.not_mem_nil
  known _ hc := absurd hc List.not_mem_nil
  max := rfl
  kept _ := List.not_mem_nil

/-! ### Effects -/

/-- The effect neither opens nor closes a descriptor. -/
def Quiet : SelectEffect → Prop
  | .accepted _ _ | .close _ => False
  | _ => True

/-- The accepted descriptors are read off the log piece by piece. -/
theorem acceptedSockets_append (log effects : List SelectEffect) :
    acceptedSockets (log ++ effects) = acceptedSockets log ++ acceptedSockets effects :=
  List.filterMap_append

/-- The server waits at the same sockets as it did, and its log has grown. -/
structure Grows (s s' : SelectServer) : Prop where
  tcpServer : s'.tcpServer = s.tcpServer
  wsServer : s'.wsServer = s.wsServer
  mReceiveFd : s'.mReceiveFd = s.mReceiveFd
  log : s.log <+: s'.log

/-- Nothing has to happen between two states for the one to grow out of the other. -/
theorem Grows.refl (s : SelectServer) : Grows s s := ⟨rfl, rfl, rfl, List.prefix_rfl⟩

/-- Growth goes on from one state to the next. -/
theorem Grows.trans {s s' s'' : SelectServer} (h : Grows s s') (h' : Grows s' s'') : Grows s s'' :=
  ⟨h'.tcpServer.trans h.tcpServer, h'.wsServer.trans h.wsServer,
    h'.mReceiveFd.trans h.mReceiveFd, h.log.trans h'.log⟩

/-- A promise that is kept now was kept before. -/
theorem Fresh.of_grows {s s' : SelectServer} (h : Fresh s') (hgrows : Grows s s') : Fresh s := by
  obtain ⟨effects, hlog⟩ := hgrows.log
  rw [Fresh, hgrows.tcpServer, hgrows.wsServer, ← hlog, acceptedSockets_append,
    ← List.append_assoc] at h
  exact h.sublist (List.sublist_append_left _ _)

/-! ### Accepting -/

/-- What is done for a connection that has just been accepted. -/
def acceptClient (newPeer : Conn) : List SelectEffect :=
  .accepted newPeer.serial newPeer.peer.socket ::
    if newPeer.peer.isWebSocket then [] else [.called (.newConnection newPeer)]

/-- The server with a client more. -/
def withClient (s : SelectServer) (newPeer : Conn) : SelectServer :=
  updateMaxSocket { s with
    clients := s.clients ++ [newPeer]
    nextSerial := s.nextSerial + 1
    mMasterSet := fdSet newPeer.peer.socket s.mMasterSet
    log := s.log ++ acceptClient newPeer }

/-- One accepted socket is taken over before the next one is looked at. -/
theorem incommingConnection_cons (isWebSocket : Bool) (s : SelectServer) (newSd : Nat)
    (accepted : List Nat) : s.incommingConnection isWebSocket (newSd :: accepted)
      = (s.withClient (.new s.nextSerial newSd isWebSocket)).incommingConnection isWebSocket
          accepted := by
  cases isWebSocket with
  | true => rfl
  | false =>
    rw [incommingConnection, withClient, acceptClient]
    dsimp only [updateMaxSocket, Conn.new]
    simp

/-- Taking a client over notes its descriptor once, whatever kind of client it is. -/
theorem acceptedSockets_acceptClient (newPeer : Conn) :
    acceptedSockets (acceptClient newPeer) = [newPeer.peer.socket] := by
  rw [acceptClient]
  split_ifs <;> rfl

/-- A new client only adds to what there is. -/
theorem withClient_grows (s : SelectServer) (newPeer : Conn) : Grows s (s.withClient newPeer) :=
  ⟨rfl, rfl, rfl, List.prefix_append _ _⟩

/-- So do all the clients of one `IncommingConnection`. -/
theorem incommingConnection_grows (isWebSocket : Bool) (s : SelectServer) (accepted : List Nat) :
    Grows s (s.incommingConnection isWebSocket accepted) := by
  induction accepted generalizing s with
  | nil => exact .refl s
  | cons newSd accepted ih =>
    rw [incommingConnection_cons]
    exact (withClient_grows s _).trans (ih _)

/-- **A new client keeps the invariant**, provided its descriptor is none the server holds: the
    set gains this socket, the list of clients gains this serial, and the maximum is compared
    with it. -/
theorem withClient_watching {s : SelectServer} {newPeer : Conn} (h : Watching s)
    (hserial : newPeer.serial = s.nextSerial) (hfresh : Fresh (s.withClient newPeer)) :
    Watching (s.withClient newPeer) := by
  have hlog : acceptedSockets (s.log ++ acceptClient newPeer)
      = acceptedSockets s.log ++ [newPeer.peer.socket] := by
    rw [acceptedSockets_append, acceptedSockets_acceptClient]
  -- What makes the descriptor new is that the log does not name it twice.
  have hnew : newPeer.peer.socket ∉ acceptedSockets s.log := by
    have hnodup : (listening s.tcpServer s.wsServer
        ++ acceptedSockets (s.log ++ acceptClient newPeer)).Nodup := hfresh
    rw [hlog] at hnodup
    have hsplit := (List.nodup_append.mp (List.nodup_append.mp hnodup).2.1).2.2
    exact fun hmem => hsplit _ hmem _ List.mem_cons_self rfl
  -- In the order of the fields: sockets, serials, numbers below the next one, known descriptors,
  -- and what the set has kept.
  refine ⟨?_, ?_, fun c hc => ?_, fun c hc => ?_, rfl, fun fd hmem => ?_⟩
  · show ((s.clients ++ [newPeer]).map (·.peer.socket)).Nodup
    rw [List.map_append, List.map_singleton, List.nodup_append]
    refine ⟨h.sockets, List.pairwise_singleton _ _, fun fd hfd fd' hfd' heq => ?_⟩
    obtain ⟨c, hc, rfl⟩ := List.mem_map.mp hfd
    rw [List.mem_singleton.mp hfd'] at heq
    exact hnew (heq ▸ h.known c hc)
  · show ((s.clients ++ [newPeer]).map Conn.serial).Nodup
    rw [List.map_append, List.map_singleton, List.nodup_append]
    refine ⟨h.serials, List.pairwise_singleton _ _, fun n hn n' hn' heq => ?_⟩
    obtain ⟨c, hc, rfl⟩ := List.mem_map.mp hn
    rw [List.mem_singleton.mp hn', hserial] at heq
    exact absurd (h.below c hc) (by omega)
  · show c.serial < s.nextSerial + 1
    rcases List.mem_append.mp hc with hc | hc
    · exact Nat.lt_succ_of_lt (h.below c hc)
    · rw [List.mem_singleton.mp hc, hserial]
      exact Nat.lt_succ_self _
  · show c.peer.socket ∈ acceptedSockets (s.log ++ acceptClient newPeer)
    rw [hlog]
    rcases List.mem_append.mp hc with hc | hc
    · exact List.mem_append_left _ (h.known c hc)
    · rw [List.mem_singleton.mp hc]
      exact List.mem_append_right _ List.mem_cons_self
  · rcases List.mem_append.mp hmem with hmem | hmem
    · exact h.kept fd hmem
    · rw [acceptClient] at hmem
      split_ifs at hmem <;> simp at hmem

/-- **`IncommingConnection` keeps the invariant** when the descriptors `accept` gives are fresh. -/
theorem incommingConnection_watching {s : SelectServer} {isWebSocket : Bool} {accepted : List Nat}
    (h : Watching s) (hfresh : Fresh (s.incommingConnection isWebSocket accepted)) :
    Watching (s.incommingConnection isWebSocket accepted) := by
  induction accepted generalizing s with
  | nil => exact h
  | cons newSd accepted ih =>
    rw [incommingConnection_cons] at hfresh ⊢
    have hfirst := hfresh.of_grows (incommingConnection_grows isWebSocket _ accepted)
    exact ih (withClient_watching h rfl hfirst) hfresh

/-! ### Incoming data -/

/-- What is written for a client, and jobs for it. -/
theorem quiet_sent (peer : Peer) (w : Option Written) {effects : List SelectEffect}
    (h : ∀ e ∈ effects, Quiet e) : ∀ e ∈ w.toList.map (sentEffect peer) ++ effects, Quiet e := by
  intro e he
  rcases List.mem_append.mp he with he | he
  · obtain ⟨_, -, rfl⟩ := List.mem_map.mp he
    trivial
  · exact h e he

/-- `IncommingData` keeps the client where it is. -/
theorem incommingData_keeps {conn conn' : Conn} {answers : ClientAnswers}
    {effects : List SelectEffect} (h : incommingData conn answers = .ok (conn', effects)) :
    conn'.ident = conn.ident ∧ ∀ e ∈ effects, Quiet e := by
  rw [incommingData] at h
  rcases hrecv : recv [] 0 answers.recv with ⟨_ | _, mBuff⟩
  · rw [hrecv] at h
    cases h
    exact ⟨rfl, by simp⟩
  · simp only [hrecv] at h
    split_ifs at h
    · -- The handshake: whether it succeeds or not, something is called or enqueued.
      obtain ⟨⟨success, w⟩, -, h⟩ := bind_eq_ok.mp h
      dsimp only at h
      split_ifs at h <;> cases h <;>
        exact ⟨rfl, quiet_sent conn.peer w fun e he => List.mem_singleton.mp he ▸ trivial⟩
    · -- A frame: data is handed over, or nothing is.
      obtain ⟨⟨hasData, conn₁, w⟩, hdecode, h⟩ := bind_eq_ok.mp h
      have hident : conn₁.ident = conn.ident := decodeWsDataConn_ident hdecode
      cases h
      refine ⟨hident, quiet_sent _ w fun e he => ?_⟩
      cases hasData
      · cases he
      · rw [if_pos rfl] at he
        exact List.mem_singleton.mp he ▸ trivial
    · cases h
      exact ⟨rfl, fun e he => List.mem_singleton.mp he ▸ trivial⟩

/-- The scan over all of the clients leaves each of them its number and its socket, and no socket is
    put into the set or taken out of it. -/
theorem scanClients_keeps {ready : List Int} {answers : Int → ClientAnswers}
    {conns conns' : List Conn} {effects : List SelectEffect}
    (h : scanClients ready answers conns = .ok (conns', effects)) :
    conns'.map Conn.ident = conns.map Conn.ident ∧ ∀ e ∈ effects, Quiet e := by
  induction conns generalizing conns' effects with
  | nil =>
    cases h
    exact ⟨rfl, by simp⟩
  | cons conn conns ih =>
    obtain ⟨⟨conn₁, es⟩, hconn, h⟩ := bind_eq_ok.mp h
    obtain ⟨⟨conns₁, es'⟩, hconns, h⟩ := bind_eq_ok.mp h
    cases h
    obtain ⟨hrest, hquiet⟩ := ih hconns
    have hfirst : conn₁.ident = conn.ident ∧ ∀ e ∈ es, Quiet e := by
      rw [scanClient] at hconn
      split_ifs at hconn
      · exact incommingData_keeps hconn
      · cases hconn
        exact ⟨rfl, by simp⟩
    refine ⟨by rw [List.map_cons, List.map_cons, hfirst.1, hrest], fun e he => ?_⟩
    exact (List.mem_append.mp he).elim (hfirst.2 e) (hquiet e)

/-- **Clients that have been handled.** -/
theorem scanClients_watching {s : SelectServer} (h : Watching s) {clients : List Conn}
    {effects : List SelectEffect} (hsame : clients.map Conn.ident = s.clients.map Conn.ident)
    (hquiet : ∀ e ∈ effects, Quiet e) :
    Watching { s with clients, log := s.log ++ effects } := by
  have hsockets : clients.map (·.peer.socket) = s.clients.map (·.peer.socket) := by
    have := congrArg (List.map Prod.snd) hsame
    rwa [List.map_map, List.map_map] at this
  have hserials : clients.map Conn.serial = s.clients.map Conn.serial := by
    have := congrArg (List.map Prod.fst) hsame
    rwa [List.map_map, List.map_map] at this
  -- Each client of the new list stands for the one with its number and socket in the old one.
  have hcounterpart : ∀ c ∈ clients, ∃ c' ∈ s.clients, c'.ident = c.ident := fun c hc =>
    List.mem_map.mp (hsame ▸ List.mem_map_of_mem hc)
  refine ⟨hsockets ▸ h.sockets, hserials ▸ h.serials, fun c hc => ?_, fun c hc => ?_, ?_,
    fun fd hmem => ?_⟩
  · obtain ⟨c', hc', hident⟩ := hcounterpart c hc
    have hserial : c'.serial = c.serial := congrArg Prod.fst hident
    exact hserial ▸ h.below c' hc'
  · obtain ⟨c', hc', hident⟩ := hcounterpart c hc
    have hsocket : c'.peer.socket = c.peer.socket := congrArg Prod.snd hident
    rw [acceptedSockets_append]
    exact List.mem_append_left _ (hsocket ▸ h.known c' hc')
  · rw [h.max, maxSocket, maxSocket, hsockets]
  · rcases List.mem_append.mp hmem with hmem | hmem
    · exact h.kept fd hmem
    · exact hquiet _ hmem

/-! ### The end of a turn -/

/-- The erase loop removes the clients to erase, and their descriptors from the master set. -/
theorem updateClientsLoop_eq {fuel : Nat} {conns : List Conn} {mMasterSet : List Int}
    (hfuel : (conns.filter mustErase).length ≤ fuel) :
    updateClientsLoop fuel conns mMasterSet = (conns.filter (fun c => !mustErase c),
      (conns.filter mustErase).foldl (fun set c => fdClr c.peer.socket set) mMasterSet,
      (conns.filter mustErase).flatMap closeClient) := by
  induction fuel generalizing conns mMasterSet with
  | zero =>
    have hnone := List.filter_eq_nil_iff.mp (List.length_eq_zero_iff.mp (Nat.le_zero.mp hfuel))
    rw [updateClientsLoop, List.filter_eq_nil_iff.mpr hnone,
      List.filter_eq_self.mpr fun c hc => by simpa using hnone c hc]
    rfl
  | succ fuel ih =>
    rw [updateClientsLoop]
    cases hfind : conns.find? mustErase with
    | none =>
      have hnone := List.find?_eq_none.mp hfind
      rw [List.filter_eq_nil_iff.mpr hnone,
        List.filter_eq_self.mpr fun c hc => by simpa using hnone c hc]
      rfl
    | some conn =>
      -- The loop starts over behind each erasure; no client before the first one is to erase.
      obtain ⟨hconn, before, after, rfl, hbefore⟩ := List.find?_eq_some_iff_append.mp hfind
      have hbefore' : ∀ c ∈ before, mustErase c = false := fun c hc => by simpa using hbefore c hc
      have herase : (before ++ conn :: after).eraseP mustErase = before ++ after := by
        rw [List.eraseP_append_right _ fun c hc => by simp [hbefore' c hc],
          List.eraseP_cons_of_pos hconn]
      have hkeep : before.filter mustErase = [] :=
        List.filter_eq_nil_iff.mpr fun c hc => by simp [hbefore' c hc]
      rw [List.filter_append, List.filter_cons_of_pos hconn, hkeep, List.nil_append,
        List.length_cons] at hfuel
      have hrest : ((before ++ after).filter mustErase).length ≤ fuel := by
        rw [List.filter_append, hkeep, List.nil_append]
        omega
      simp [herase, ih hrest, hkeep, hconn]

/-- `UpdateClients` erases the clients marked for it and then looks for the maximum among the
    others. -/
theorem updateClients_eq (s : SelectServer) :
    updateClients s = updateMaxSocket { s with
      clients := s.clients.filter (fun c => !mustErase c)
      mMasterSet := (s.clients.filter mustErase).foldl (fun set c => fdClr c.peer.socket set)
        s.mMasterSet
      log := s.log ++ (s.clients.filter mustErase).flatMap closeClient } := by
  rw [updateClients, updateClientsLoop_eq (List.length_filter_le _ _)]

/-- Closing a client does not touch the accepted descriptors. -/
theorem quiet_closeClients (conns : List Conn) : ∀ e ∈ conns.flatMap closeClient, Quiet e := by
  intro e he
  obtain ⟨conn, -, he⟩ := List.mem_flatMap.mp he
  rw [closeClient] at he
  split_ifs at he
  · exact List.mem_singleton.mp he ▸ trivial
  · cases he

/-- **The table after a turn.** -/
theorem updateClients_watching {s : SelectServer} (h : Watching s) : Watching s.updateClients := by
  have hsub : (s.clients.filter (fun c => !mustErase c)).Sublist s.clients :=
    List.filter_sublist
  rw [updateClients_eq]
  refine ⟨h.sockets.sublist (hsub.map _), h.serials.sublist (hsub.map _),
    fun c hc => h.below c (hsub.subset hc), fun c hc => ?_, rfl, fun fd hmem => ?_⟩
  · show _ ∈ acceptedSockets (_ ++ _)
    rw [acceptedSockets_append]
    exact List.mem_append_left _ (h.known c (hsub.subset hc))
  · rcases List.mem_append.mp hmem with hmem | hmem
    · exact h.kept fd hmem
    · exact quiet_closeClients _ _ hmem

/-- Erasing clients leaves the listening sockets and what has been accepted as it was. -/
theorem updateClients_grows (s : SelectServer) : Grows s s.updateClients := by
  rw [updateClients_eq]
  exact ⟨rfl, rfl, rfl, List.prefix_append _ _⟩

/-! ### Turns -/

/-- One listening socket of a pass only adds clients. -/
theorem listenOn_grows (ready : List Int) (isWebSocket : Bool) (accepted : List Nat)
    (s : SelectServer) : Grows s (s.listenOn ready isWebSocket accepted) := by
  rw [listenOn]
  split_ifs
  · exact incommingConnection_grows _ s accepted
  · exact .refl s
  · exact incommingConnection_grows _ s accepted
  · exact .refl s

/-- **One listening socket of a pass keeps the invariant**, ready or not. -/
theorem listenOn_watching {s : SelectServer} (h : Watching s) {ready : List Int}
    {isWebSocket : Bool} {accepted : List Nat}
    (hfresh : Fresh (s.listenOn ready isWebSocket accepted)) :
    Watching (s.listenOn ready isWebSocket accepted) := by
  rw [listenOn] at hfresh ⊢
  split_ifs at hfresh ⊢
  · exact incommingConnection_watching h hfresh
  · exact h
  · exact incommingConnection_watching h hfresh
  · exact h

/-- The server with its clients handled. -/
def handled (s : SelectServer) (clients : List Conn) (effects : List SelectEffect) : SelectServer :=
  { s with clients, log := s.log ++ effects }

/-- What the clients of a pass leave behind grows out of the state before it. -/
theorem handled_grows (s : SelectServer) (clients : List Conn) (effects : List SelectEffect) :
    Grows s (s.handled clients effects) := ⟨rfl, rfl, rfl, List.prefix_append _ _⟩

/-- The server once it has looked at its listening sockets. -/
def listened (ready : List Int) (answers : PassAnswers) (s : SelectServer) : SelectServer :=
  (s.listenOn ready false answers.tcpAccepted).listenOn ready true answers.wsAccepted

/-- Both listening sockets of a pass only add clients. -/
theorem listened_grows (ready : List Int) (answers : PassAnswers) (s : SelectServer) :
    Grows s (s.listened ready answers) :=
  (listenOn_grows ready false answers.tcpAccepted s).trans
    (listenOn_grows ready true answers.wsAccepted _)

/-- **The accepting half of a pass keeps the invariant.** -/
theorem listened_watching {s : SelectServer} (h : Watching s) {ready : List Int}
    {answers : PassAnswers} (hfresh : Fresh (s.listened ready answers)) :
    Watching (s.listened ready answers) := by
  have htcp : Fresh (s.listenOn ready false answers.tcpAccepted) :=
    hfresh.of_grows (listenOn_grows ready true answers.wsAccepted _)
  exact listenOn_watching (listenOn_watching h htcp) hfresh

/-- What `pass` does, in three parts. -/
theorem pass_parts {s s' : SelectServer} {ready : List Int} {answers : PassAnswers}
    (hpass : s.pass ready answers = .ok s') :
    ∃ clients effects, scanClients ready answers.clients (s.listened ready answers).clients
        = .ok (clients, effects) ∧
      s' = ((s.listened ready answers).handled clients effects).updateClients := by
  obtain ⟨⟨clients, effects⟩, hscan, hpass⟩ := bind_eq_ok.mp hpass
  cases hpass
  exact ⟨clients, effects, hscan, rfl⟩

/-- A whole pass grows out of the state before it. -/
theorem pass_grows {s s' : SelectServer} {ready : List Int} {answers : PassAnswers}
    (hpass : s.pass ready answers = .ok s') : Grows s s' := by
  obtain ⟨clients, effects, -, rfl⟩ := pass_parts hpass
  exact ((listened_grows ready answers s).trans (handled_grows _ clients effects)).trans
    (updateClients_grows _)

/-- **One pass keeps the invariant**: the sockets accepted, the clients read, the marked ones
    erased. -/
theorem pass_watching {s s' : SelectServer} (h : Watching s) {ready : List Int}
    {answers : PassAnswers} (hpass : s.pass ready answers = .ok s') (hfresh : Fresh s') :
    Watching s' := by
  obtain ⟨clients, effects, hscan, rfl⟩ := pass_parts hpass
  have hhandled := hfresh.of_grows (updateClients_grows _)
  have hlistened := hhandled.of_grows (handled_grows _ clients effects)
  obtain ⟨hsame, hquiet⟩ := scanClients_keeps hscan
  exact updateClients_watching
    (scanClients_watching (listened_watching h hlistened) hsame hquiet)

/-- So does one `select` with all of its passes. -/
theorem passes_grows {n i : Nat} {s s' : SelectServer} {ready : List Int}
    {answers : Nat → PassAnswers} (hpasses : passes ready answers n i s = .ok s') : Grows s s' := by
  induction n generalizing i s with
  | zero =>
    cases hpasses
    exact .refl _
  | succ n ih =>
    rw [passes] at hpasses
    split_ifs at hpasses
    · cases hpasses
      exact ⟨rfl, rfl, rfl, List.prefix_append _ _⟩
    · obtain ⟨s₁, hpass, hpasses⟩ := bind_eq_ok.mp hpasses
      exact (pass_grows hpass).trans (ih hpasses)

/-- **The turns over the descriptors.** -/
theorem passes_watching {n i : Nat} {s s' : SelectServer} (h : Watching s) {ready : List Int}
    {answers : Nat → PassAnswers} (hpasses : passes ready answers n i s = .ok s')
    (hfresh : Fresh s') : s'.endServer = true ∨ Watching s' := by
  induction n generalizing i s with
  | zero =>
    cases hpasses
    exact .inr h
  | succ n ih =>
    rw [passes] at hpasses
    split_ifs at hpasses
    · cases hpasses
      exact .inl rfl
    · obtain ⟨s₁, hpass, hpasses⟩ := bind_eq_ok.mp hpasses
      exact ih (pass_watching h hpass (hfresh.of_grows (passes_grows hpasses))) hpasses

/-- The end of a turn closes clients at most. -/
theorem endTurn_grows (s : SelectServer) : Grows s s.endTurn := by
  rw [endTurn]
  split_ifs
  · exact ⟨rfl, rfl, rfl, List.prefix_append _ _⟩
  · exact .refl s

/-- Whether the server ends is not decided by the end of a turn. -/
theorem endTurn_endServer (s : SelectServer) : s.endTurn.endServer = s.endServer := by
  rw [endTurn]
  split_ifs <;> rfl

/-- **Every turn of the loop grows out of the state before it**, so what is fresh at the end has
    been fresh all along. -/
theorem step_grows {s s' : SelectServer} {action : Action} (hstep : s.step action = .ok s') :
    Grows s s' := by
  have hterminate : ∀ type, Grows s (s.terminate type) := by
    intro type
    have hlog : Grows s { s with
        endServer := true
        log := s.log ++ [.called (.serverTerminated type)] } :=
      ⟨rfl, rfl, rfl, List.prefix_append _ _⟩
    exact hlog.trans (endTurn_grows _)
  -- Only a turn with ready sockets runs passes; the other two at most terminate the server.
  cases action with
  | ready fds answers =>
    rw [step] at hstep
    split_ifs at hstep
    · cases hstep
      exact .refl s
    · obtain ⟨s₁, hpasses, hstep⟩ := bind_eq_ok.mp hstep
      cases hstep
      exact (passes_grows hpasses).trans (endTurn_grows s₁)
  | failed retry =>
    cases hstep
    split_ifs
    · exact .refl s
    · exact hterminate _
  | expired retry =>
    cases hstep
    split_ifs
    · exact .refl s
    · exact hterminate _

/-- A server that has ended does nothing any more. -/
theorem step_ended {s s' : SelectServer} {action : Action} (hstep : s.step action = .ok s')
    (hend : s.endServer = true) : s'.endServer = true := by
  have hsame : s' = s := by
    cases action with
    | ready fds answers =>
      rw [step, if_pos hend] at hstep
      exact (Except.ok.inj hstep).symm
    | failed retry | expired retry =>
      rw [step, hend, Bool.true_or, if_pos rfl] at hstep
      exact (Except.ok.inj hstep).symm
  rw [hsame, hend]

/-! ### Whom a turn keeps -/

/-- No client waits to be erased. -/
def Alive (s : SelectServer) : Prop := ∀ c ∈ s.clients, mustErase c = false

/-- After `UpdateClients` no client is left that is marked for erasing. -/
theorem updateClients_alive (s : SelectServer) : Alive s.updateClients := by
  intro c hc
  rw [updateClients_eq] at hc
  simpa using (List.mem_filter.mp hc).2

/-- Every pass ends with `UpdateClients`, so no pass leaves such a client behind. -/
theorem passes_alive {n i : Nat} {s s' : SelectServer} (h : Alive s) {ready : List Int}
    {answers : Nat → PassAnswers} (hpasses : passes ready answers n i s = .ok s') : Alive s' := by
  induction n generalizing i s with
  | zero =>
    cases hpasses
    exact h
  | succ n ih =>
    rw [passes] at hpasses
    split_ifs at hpasses
    · cases hpasses
      exact h
    · obtain ⟨s₁, hpass, hpasses⟩ := bind_eq_ok.mp hpasses
      -- Whatever the pass did before, `UpdateClients` was its last call.
      obtain ⟨clients, effects, -, rfl⟩ := pass_parts hpass
      exact ih (updateClients_alive _) hpasses

/-- **The clients of an `IncommingConnection` come behind the ones there were**, under numbers not
    given out before. -/
theorem incommingConnection_clients (isWebSocket : Bool) (s : SelectServer) (accepted : List Nat) :
    ∃ more, (s.incommingConnection isWebSocket accepted).clients = s.clients ++ more ∧
      (∀ c ∈ more, s.nextSerial ≤ c.serial) ∧
      s.nextSerial ≤ (s.incommingConnection isWebSocket accepted).nextSerial ∧
      (s.incommingConnection isWebSocket accepted).endServer = s.endServer := by
  induction accepted generalizing s with
  | nil => exact ⟨[], (List.append_nil _).symm, by simp, le_rfl, rfl⟩
  | cons newSd accepted ih =>
    rw [incommingConnection_cons]
    obtain ⟨more, hclients, hserials, hnext, hend⟩ :=
      ih (s.withClient (.new s.nextSerial newSd isWebSocket))
    have hle : s.nextSerial ≤ (s.withClient (.new s.nextSerial newSd isWebSocket)).nextSerial :=
      Nat.le_succ _
    refine ⟨.new s.nextSerial newSd isWebSocket :: more, ?_, fun c hc => ?_, hle.trans hnext, hend⟩
    · rw [hclients]
      exact List.append_assoc _ [_] more
    · rcases List.mem_cons.mp hc with rfl | hc
      · exact le_rfl
      · exact hle.trans (hserials c hc)

/-- The same of one listening socket, which may not be ready. -/
theorem listenOn_clients (ready : List Int) (isWebSocket : Bool) (accepted : List Nat)
    (s : SelectServer) :
    ∃ more, (s.listenOn ready isWebSocket accepted).clients = s.clients ++ more ∧
      (∀ c ∈ more, s.nextSerial ≤ c.serial) ∧
      s.nextSerial ≤ (s.listenOn ready isWebSocket accepted).nextSerial ∧
      (s.listenOn ready isWebSocket accepted).endServer = s.endServer := by
  have hsame : ∃ more, s.clients = s.clients ++ more ∧ (∀ c ∈ more, s.nextSerial ≤ c.serial) ∧
      s.nextSerial ≤ s.nextSerial ∧ s.endServer = s.endServer :=
    ⟨[], (List.append_nil _).symm, by simp, le_rfl, rfl⟩
  rw [listenOn]
  split_ifs
  · exact incommingConnection_clients _ s accepted
  · exact hsame
  · exact incommingConnection_clients _ s accepted
  · exact hsame

/-- The same of both listening sockets of a pass. -/
theorem listened_clients (ready : List Int) (answers : PassAnswers) (s : SelectServer) :
    ∃ more, (s.listened ready answers).clients = s.clients ++ more ∧
      (∀ c ∈ more, s.nextSerial ≤ c.serial) ∧ s.nextSerial ≤ (s.listened ready answers).nextSerial ∧
      (s.listened ready answers).endServer = s.endServer := by
  obtain ⟨more, hclients, hserials, hnext, hend⟩ :=
    listenOn_clients ready false answers.tcpAccepted s
  obtain ⟨more', hclients', hserials', hnext', hend'⟩ :=
    listenOn_clients ready true answers.wsAccepted (s.listenOn ready false answers.tcpAccepted)
  refine ⟨more ++ more', ?_, fun c hc => ?_, hnext.trans hnext', hend'.trans hend⟩
  · exact hclients'.trans (by rw [hclients, List.append_assoc])
  · exact (List.mem_append.mp hc).elim (hserials c) fun hc => hnext.trans (hserials' c hc)

/-- What the scan makes of a client. -/
theorem scanClients_mem {ready : List Int} {answers : Int → ClientAnswers}
    {conns conns' : List Conn} {effects : List SelectEffect}
    (h : scanClients ready answers conns = .ok (conns', effects))
    {conn : Conn} (hconn : conn ∈ conns) :
    ∃ conn' es, scanClient ready conn answers = .ok (conn', es) ∧ conn' ∈ conns' := by
  induction conns generalizing conns' effects with
  | nil => cases hconn
  | cons first conns ih =>
    obtain ⟨⟨first', es⟩, hfirst, h⟩ := bind_eq_ok.mp h
    obtain ⟨⟨rest', es'⟩, hrest, h⟩ := bind_eq_ok.mp h
    cases h
    rcases List.mem_cons.mp hconn with rfl | hconn
    · exact ⟨first', es, hfirst, List.mem_cons_self⟩
    · obtain ⟨conn', es'', hconn', hmem⟩ := ih hrest hconn
      exact ⟨conn', es'', hconn', List.mem_cons_of_mem _ hmem⟩

/-- The connection `n` is a client on `fd` that no handshake and no frames are for. -/
def Reader (s : SelectServer) (n : Nat) (fd : Int) : Prop :=
  ∃ c ∈ s.clients, c.serial = n ∧ c.peer = { socket := fd, isWebSocket := false } ∧
    mustErase c = false

/-- The connection `n` is no client any more. -/
def Gone (s : SelectServer) (n : Nat) : Prop := n < s.nextSerial ∧ ∀ c ∈ s.clients, c.serial ≠ n

/-- A client outlives `UpdateClients` exactly when it is not marked. -/
theorem mem_updateClients {s : SelectServer} {c : Conn} :
    c ∈ s.updateClients.clients ↔ c ∈ s.clients ∧ mustErase c = false := by
  rw [updateClients_eq]
  show c ∈ s.clients.filter _ ↔ _
  rw [List.mem_filter, Bool.not_eq_true']

/-- `UpdateClients` gives out no number and does not end the server. -/
theorem updateClients_keeps (s : SelectServer) :
    s.updateClients.nextSerial = s.nextSerial ∧ s.updateClients.endServer = s.endServer := by
  rw [updateClients_eq]
  exact ⟨rfl, rfl⟩

/-- A pass does not end the server. -/
theorem pass_running {s s' : SelectServer} {ready : List Int} {answers : PassAnswers}
    (hpass : s.pass ready answers = .ok s') : s'.endServer = s.endServer := by
  obtain ⟨clients, effects, -, rfl⟩ := pass_parts hpass
  obtain ⟨-, -, -, -, hend⟩ := listened_clients ready answers s
  exact (updateClients_keeps _).2.trans hend

/-- **A client that is gone** does not come back. -/
theorem pass_gone {s s' : SelectServer} {n : Nat} {ready : List Int} {answers : PassAnswers}
    (h : Gone s n) (hpass : s.pass ready answers = .ok s') : Gone s' n := by
  obtain ⟨clients, effects, hscan, rfl⟩ := pass_parts hpass
  obtain ⟨more, hclients, hserials, hnext, -⟩ := listened_clients ready answers s
  refine ⟨?_, fun c hc hn => ?_⟩
  · rw [(updateClients_keeps _).1]
    exact lt_of_lt_of_le h.1 hnext
  · have hc : c ∈ clients := (mem_updateClients.mp hc).1
    obtain ⟨c', hc', hident⟩ : ∃ c' ∈ (s.listened ready answers).clients, c'.ident = c.ident :=
      List.mem_map.mp ((scanClients_keeps hscan).1 ▸ List.mem_map_of_mem hc)
    have hserial : c'.serial = n := (congrArg Prod.fst hident).trans hn
    -- An old client with this number is excluded by `h`, a new one by its number.
    rw [hclients] at hc'
    rcases List.mem_append.mp hc' with hc' | hc'
    · exact h.2 c' hc' hserial
    · exact absurd (hserials c' hc') (by rw [hserial]; exact not_le.mpr h.1)

/-- **A client in the working set**: it is kept when `Recv` succeeds, and erased when it fails. -/
theorem pass_reader {s s' : SelectServer} {n : Nat} {fd : Int} {ready : List Int}
    {answers : PassAnswers} (hwatching : Watching s) (h : Reader s n fd) (hfd : fd ∈ ready)
    (hpass : s.pass ready answers = .ok s') (hfresh : Fresh s') :
    if (recv [] 0 (answers.clients fd).recv).1 then Reader s' n fd else Gone s' n := by
  obtain ⟨c, hc, hn, hpeer, hkeep⟩ := h
  obtain ⟨clients, effects, hscan, rfl⟩ := pass_parts hpass
  obtain ⟨more, hclients, hserials, hnext, -⟩ := listened_clients ready answers s
  have hhandled := hfresh.of_grows (updateClients_grows _)
  have hlistened := listened_watching hwatching
    (hhandled.of_grows (handled_grows _ clients effects))
  have hmem : c ∈ (s.listened ready answers).clients := by
    rw [hclients]
    exact List.mem_append_left _ hc
  have hsocket : c.peer.socket = fd := by rw [hpeer]
  have hplain : c.peer.isWebSocket = false := by rw [hpeer]
  -- The client is in the list that is scanned, so what becomes of it is read off its own turn.
  obtain ⟨c', es, hscan', hmem'⟩ := scanClients_mem hscan hmem
  rw [scanClient, hsocket, if_pos hfd, incommingData] at hscan'
  rcases hrecv : recv [] 0 (answers.clients fd).recv with ⟨_ | _, mBuff⟩
  · -- Nothing comes: the client is marked, and it is the only one with its number.
    rw [hrecv] at hscan'
    cases hscan'
    rw [if_neg Bool.false_ne_true]
    refine ⟨?_, fun c' hc' hn' => ?_⟩
    · rw [(updateClients_keeps _).1]
      exact lt_of_lt_of_le (hn ▸ hwatching.below c hc) hnext
    · obtain ⟨hc', hkeep'⟩ := mem_updateClients.mp hc'
      have hnodup : (clients.map Conn.serial).Nodup := by
        have hsame := congrArg (List.map Prod.fst) (scanClients_keeps hscan).1
        rw [List.map_map, List.map_map] at hsame
        exact hsame ▸ hlistened.serials
      have heq := List.inj_on_of_nodup_map hnodup hc' hmem' (hn'.trans hn.symm)
      rw [heq] at hkeep'
      cases hkeep'
  · rw [hrecv] at hscan'
    dsimp only at hscan'
    rw [hplain, if_neg Bool.false_ne_true] at hscan'
    cases hscan'
    rw [if_pos rfl]
    exact ⟨_, mem_updateClients.mpr ⟨hmem', hkeep⟩, hn, hpeer, hkeep⟩

/-- What `Recv` makes of the bytes that have come. -/
theorem recv_stream (stream : Bytes) :
    (recv [] 0 (wholeRecv stream).recv).1 = decide (0 < stream.length) := by
  cases stream with
  | nil => rfl
  | cons b bs =>
    rw [recv_wholeRecv (List.cons_ne_nil b bs)]
    simp

/-- A client that is gone stays gone in every further pass. -/
theorem passes_gone {n i m : Nat} {s s' : SelectServer} (h : Gone s n) {ready : List Int}
    {answers : Nat → PassAnswers} (hpasses : passes ready answers m i s = .ok s') : Gone s' n := by
  induction m generalizing i s with
  | zero =>
    cases hpasses
    exact h
  | succ m ih =>
    rw [passes] at hpasses
    split_ifs at hpasses
    · cases hpasses
      exact h
    · obtain ⟨s₁, hpass, hpasses⟩ := bind_eq_ok.mp hpasses
      exact ih (pass_gone h hpass) hpasses

/-- Unless the pipe is ready, no pass of a `select` ends the server. -/
theorem passes_running {i m : Nat} {s s' : SelectServer} {ready : List Int}
    {answers : Nat → PassAnswers} (hreceive : s.mReceiveFd ∉ ready)
    (hpasses : passes ready answers m i s = .ok s') : s'.endServer = s.endServer := by
  induction m generalizing i s with
  | zero =>
    cases hpasses
    rfl
  | succ m ih =>
    rw [passes, if_neg hreceive] at hpasses
    obtain ⟨s₁, hpass, hpasses⟩ := bind_eq_ok.mp hpasses
    exact (ih ((pass_grows hpass).mReceiveFd ▸ hreceive) hpasses).trans (pass_running hpass)

/-- **The turns over the descriptors**: each takes `MAXRECV` bytes more of the stream. -/
theorem passes_reader {n i m : Nat} {fd : Int} {s s' : SelectServer} {ready : List Int}
    {answers : Nat → PassAnswers} {stream : Bytes} (hwatching : Watching s) (h : Reader s n fd)
    (hfd : fd ∈ ready) (hreceive : s.mReceiveFd ∉ ready)
    (hstream : ∀ k, i ≤ k → k < i + m →
      ((answers k).clients fd).recv = (wholeRecv (stream.drop (k * maxRecv))).recv)
    (hpasses : passes ready answers m i s = .ok s') (hfresh : Fresh s') :
    if m = 0 ∨ (i + m - 1) * maxRecv < stream.length then Reader s' n fd else Gone s' n := by
  induction m generalizing i s with
  | zero =>
    cases hpasses
    rw [if_pos (.inl rfl)]
    exact h
  | succ m ih =>
    rw [passes, if_neg hreceive] at hpasses
    obtain ⟨s₁, hpass, hpasses⟩ := bind_eq_ok.mp hpasses
    have hfresh₁ := hfresh.of_grows (passes_grows hpasses)
    have hfirst := pass_reader hwatching h hfd hpass hfresh₁
    rw [hstream i le_rfl (by omega), recv_stream, List.length_drop] at hfirst
    have hlast : i + (m + 1) - 1 = i + m := by omega
    rw [hlast]
    by_cases hmore : i * maxRecv < stream.length
    · rw [if_pos (decide_eq_true (by omega))] at hfirst
      -- Something was left to read, so the client is still there for the rest of the passes.
      have hrest := ih (pass_watching hwatching hpass hfresh₁) hfirst
        ((pass_grows hpass).mReceiveFd ▸ hreceive)
        (fun k hle hlt => hstream k (by omega) (by omega)) hpasses
      have hcond : (m = 0 ∨ (i + 1 + m - 1) * maxRecv < stream.length)
          ↔ (m + 1 = 0 ∨ (i + m) * maxRecv < stream.length) := by
        rw [show i + 1 + m - 1 = i + m by omega]
        constructor
        · rintro (rfl | hlt)
          · exact .inr hmore
          · exact .inr hlt
        · rintro (hzero | hlt)
          · omega
          · exact .inr hlt
      rwa [if_congr hcond rfl rfl] at hrest
    · -- All there was has been taken before.
      have hnone : ¬ (m + 1 = 0 ∨ (i + m) * maxRecv < stream.length) := by
        have hle : i * maxRecv ≤ (i + m) * maxRecv := Nat.mul_le_mul_right _ (Nat.le_add_right i m)
        omega
      rw [if_neg (by simpa using by omega)] at hfirst
      rw [if_neg hnone]
      exact passes_gone hfirst hpasses

/-- **A turn of the loop of `Run`.** -/
theorem step_watching {s s' : SelectServer} {action : Action} (hstep : s.step action = .ok s')
    (hfresh : Fresh s') (h : s.endServer = true ∨ Watching s ∧ Alive s ∧ s.mReceiveFd = -1) :
    s'.endServer = true ∨ Watching s' ∧ Alive s' ∧ s'.mReceiveFd = -1 := by
  have hterminate : ∀ type, (s.terminate type).endServer = true := fun type =>
    endTurn_endServer _
  cases action with
  | ready fds answers =>
    rw [step] at hstep
    split_ifs at hstep with hend
    · cases hstep
      exact .inl hend
    · obtain ⟨s₁, hpasses, hstep⟩ := bind_eq_ok.mp hstep
      cases hstep
      obtain ⟨hwatching, halive, hreceive⟩ := h.resolve_left hend
      -- A pass may have ended the server; otherwise the turn ends without closing anything.
      rcases passes_watching hwatching hpasses (hfresh.of_grows (endTurn_grows s₁)) with hend₁ | h₁
      · exact .inl ((endTurn_endServer s₁).trans hend₁)
      · cases hend₁ : s₁.endServer with
        | true => exact .inl ((endTurn_endServer s₁).trans hend₁)
        | false =>
          rw [endTurn, hend₁, if_neg Bool.false_ne_true]
          exact .inr ⟨h₁, passes_alive halive hpasses,
            (passes_grows hpasses).mReceiveFd.trans hreceive⟩
  | failed retry =>
    cases hstep
    split_ifs
    · exact h
    · exact .inl (hterminate _)
  | expired retry =>
    cases hstep
    split_ifs
    · exact h
    · exact .inl (hterminate _)

/-- The invariant, in every run. -/
theorem watching_run {tcpServer wsServer : Peer} {actions : List Action} {s : SelectServer}
    (hrun : run step (start tcpServer wsServer) actions = .ok s) (hfresh : Fresh s)
    (hrunning : s.endServer = false) : Watching s ∧ Alive s ∧ s.mReceiveFd = -1 := by
  have hstep : ∀ (s : SelectServer) action s', s.step action = .ok s' → Fresh s' →
      (s.endServer = true ∨ Watching s ∧ Alive s ∧ s.mReceiveFd = -1) →
      (s'.endServer = true ∨ Watching s' ∧ Alive s' ∧ s'.mReceiveFd = -1) :=
    fun _ _ _ hstep hfresh h => step_watching hstep hfresh h
  -- Fresh descriptors at the end have been fresh before every step, so each step may use it.
  have hback : ∀ (s : SelectServer) action s', s.step action = .ok s' → Fresh s' → Fresh s :=
    fun _ _ _ hstep hfresh => hfresh.of_grows (step_grows hstep)
  have hstart : (start tcpServer wsServer).endServer = true ∨ Watching (start tcpServer wsServer) ∧
      Alive (start tcpServer wsServer) ∧ (start tcpServer wsServer).mReceiveFd = -1 :=
    .inr ⟨watching_start _ _, fun _ hc => absurd hc List.not_mem_nil, rfl⟩
  rcases invariant_promised hback hstep hrun hfresh hstart with hend | h
  · rw [hrunning] at hend
    cases hend
  · exact h

/-- A listening socket, and one client. -/
def oneClient : SelectServer where
  tcpServer := ⟨3, false⟩
  wsServer := ⟨-1, true⟩
  mReceiveFd := -1
  mMasterSet := [5, 3]
  mMaxSd := 5
  clients := [.new 0 5 false]
  nextSerial := 1
  endServer := false
  log := [.accepted 0 5, .called (.newConnection (.new 0 5 false))]

theorem run_oneClient : run step (start ⟨3, false⟩ ⟨-1, true⟩)
    [.ready [3] fun _ => ⟨[5], [], fun _ => wholeRecv []⟩] = .ok oneClient := rfl

/-- **Whom the server keeps.**  All descriptors that are ready are looked at as often as there are
    such descriptors.  A client for which nothing more comes outlives that if and only if it has
    sent data for each time, `MAXRECV` bytes for all but the last one: next to any other descriptor
    that is ready, a client with less is taken for one that has hung up. -/
theorem keeps_reader_iff {tcpServer wsServer : Peer} {actions : List Action} {s s' : SelectServer}
    (hrun : run step (start tcpServer wsServer) actions = .ok s) (hrunning : s.endServer = false)
    {c : Conn} (hc : c ∈ s.clients) (hplain : c.peer.isWebSocket = false) {fds : List Int}
    (hfd : c.peer.socket ∈ fds) (hready : -1 ∉ fds) {answers : Nat → PassAnswers} {stream : Bytes}
    (hstream : ∀ k < fds.length, ((answers k).clients c.peer.socket).recv
      = (wholeRecv (stream.drop (k * maxRecv))).recv)
    (hstep : s.step (.ready fds answers) = .ok s') (hfresh : Fresh s') :
    (∃ c' ∈ s'.clients, c'.serial = c.serial) ↔ (fds.length - 1) * maxRecv < stream.length := by
  obtain ⟨hwatching, halive, hreceive⟩ := watching_run hrun (hfresh.of_grows (step_grows hstep))
    hrunning
  rw [step, hrunning, if_neg Bool.false_ne_true] at hstep
  obtain ⟨s₁, hpasses, hstep⟩ := bind_eq_ok.mp hstep
  cases hstep
  rw [← hreceive] at hready
  have hrunning₁ : s₁.endServer = false := (passes_running hready hpasses).trans hrunning
  have hend : s₁.endTurn = s₁ := by rw [endTurn, hrunning₁, if_neg Bool.false_ne_true]
  rw [hend] at hfresh ⊢
  have hpeer : c.peer = { socket := c.peer.socket, isWebSocket := false } := by rw [← hplain]
  have hreader : Reader s c.serial c.peer.socket := ⟨c, hc, rfl, hpeer, halive c hc⟩
  -- Every pass of this `select` reads from the client, even if nothing is left to read.
  have hturns := passes_reader hwatching hreader hfd hready
    (fun k _ hlt => hstream k (by omega)) hpasses hfresh
  have hpos := List.length_pos_of_mem hfd
  have hcond : (fds.length = 0 ∨ (0 + fds.length - 1) * maxRecv < stream.length)
      ↔ (fds.length - 1) * maxRecv < stream.length := by
    rw [Nat.zero_add, or_iff_right (by omega)]
  rw [if_congr hcond rfl rfl] at hturns
  split_ifs at hturns with henough
  · obtain ⟨c', hc', hserial, -⟩ := hturns
    exact ⟨fun _ => henough, fun _ => ⟨c', hc', hserial⟩⟩
  · exact ⟨fun ⟨c', hc', hserial⟩ => absurd hserial (hturns.2 c' hc'),
      fun hlt => absurd hlt henough⟩

/-- A client connects, and the other one sends a byte. -/
def oneByte (k : Nat) : PassAnswers where
  tcpAccepted := if k = 0 then [6] else []
  wsAccepted := []
  clients := fun _ => wholeRecv ((ascii "x").drop (k * maxRecv))

/-- The client that has sent a byte is erased. -/
theorem keeps_reader_iff_two :
    ∃ s', oneClient.step (.ready [3, 5] oneByte) = .ok s' ∧
      ¬ ∃ c' ∈ s'.clients, c'.serial = 0 := by
  obtain ⟨s', hstep, hfresh⟩ :
      ∃ s', oneClient.step (.ready [3, 5] oneByte) = .ok s' ∧ Fresh s' := ⟨_, rfl, by decide⟩
  have hready : (5 : Int) ∈ [(3 : Int), 5] := by decide
  have hreceive : (-1 : Int) ∉ [(3 : Int), 5] := by decide
  have hstream : ∀ k < [(3 : Int), 5].length, ((oneByte k).clients 5).recv
      = (wholeRecv ((ascii "x").drop (k * maxRecv))).recv := fun _ _ => rfl
  refine ⟨s', hstep, fun hkept => ?_⟩
  have hlt := (keeps_reader_iff run_oneClient rfl List.mem_cons_self rfl hready hreceive hstream
    hstep hfresh).mp hkept
  exact absurd hlt (by decide)

end Icl.Network.SelectServer
