import Icl.Network.TcpSocket
import Icl.Protocol.HttpProtocol
import Icl.Transition.Run

namespace Icl.Network

open Icl.Cxx Icl.Protocol Icl.Transition

/-!
# `TcpServer`, with `epoll`

The model of `network/TcpServerEpoll.cpp`: the table of clients, the handling of one event, the
removal of closed clients at the end of each batch, and `SendToAllClients`.

A batch runs with `mMutex` held, as `SendToAllClients` does, so that a run of the server is a
sequence of whole actions.  `log` is not in the source: it records in order what the server
does to the outside, the jobs it enqueues for the application among it.  What the operating
system returns stands in the events: `accepted` are the descriptors that `accept` gives before
it fails, `clients j` the answers to the calls made for the client at index `j`.

`Start`, `Stop` and the creation of the descriptors are left out.
-/

/-! ### Jobs and events -/

/-- `IEvent::CloseType`. -/
inductive CloseType where
  | waitSockFailed | timeout | closed
  deriving DecidableEq, Repr

/-- A job of the worker pool: a call of the application's `IEvent`, with a copy of the
    connection made when the job is enqueued. -/
inductive Job where
  | newConnection (conn : Conn)
  | readData (conn : Conn)
  | clientClosed (conn : Conn)
  | serverTerminated (type : CloseType)
  deriving DecidableEq, Repr

/-- What the server does to the outside.  `accepted` is an `accept` that returned a descriptor,
    on which the connection `serial` is open from then on; `epollAdd` and `epollDel` are the calls
    of `epoll_ctl`. -/
inductive Effect where
  | enqueue (job : Job)
  | sent (socket : Int) (bytes : Bytes)
  | accepted (serial : Nat) (socket : Int)
  | epollAdd (socket : Int)
  | epollDel (socket : Int)
  | close (socket : Int)
  deriving DecidableEq, Repr

/-- The answers to the calls of one `IncommingData` or one `Send`. -/
structure ClientAnswers where
  recv : RecvAnswers
  send : Nat → SendAnswer

/-- `epoll_event`, and the answers of the system to the calls its handling makes. -/
structure EpollEvent where
  fd : Int
  /-- `EPOLLHUP | EPOLLERR`. -/
  hupOrErr : Bool
  /-- `EPOLLRDHUP`. -/
  rdHup : Bool
  /-- `getsockopt` reports no error on the listening socket. -/
  noError : Bool
  accepted : List Nat
  clients : Nat → ClientAnswers

/-- The system's answers when one `recv` returns all of `bytes` and every `send` takes all it is
    offered. -/
def wholeRecv (bytes : Bytes) : ClientAnswers :=
  { recv := { available := bytes.length, results := bytes.head?.toList.map (.data · bytes.tail) }
    send := fun _ => .accepted (2 ^ 32) }

namespace EpollEvent

/-- A listening socket with connections to accept. -/
def listening (fd : Int) (accepted : List Nat) : EpollEvent :=
  { fd, hupOrErr := false, rdHup := false, noError := true, accepted
    clients := fun _ => wholeRecv [] }

/-- A client that has hung up. -/
def hangUp (fd : Int) : EpollEvent :=
  { fd, hupOrErr := true, rdHup := false, noError := true, accepted := []
    clients := fun _ => wholeRecv [] }

/-- A readable client. -/
def readable (fd : Int) (answers : ClientAnswers) : EpollEvent :=
  { fd, hupOrErr := false, rdHup := false, noError := true, accepted := []
    clients := fun _ => answers }

end EpollEvent

/-- `TcpServer`. -/
structure Server where
  tcpServer : Peer
  wsServer : Peer
  receiveFd : Int
  clients : List Conn
  nextSerial : Nat
  endServer : Bool
  log : List Effect
  deriving DecidableEq, Repr

namespace Server

/-- The server when `Run` enters its loop. -/
def start (tcpServer wsServer : Peer) (receiveFd : Int) : Server :=
  { tcpServer, wsServer, receiveFd, clients := [], nextSerial := 0, endServer := false, log := [] }

end Server

/-! ### Incoming data -/

/-- What a call of `Write` leaves in the log. -/
def sentEffect (peer : Peer) (w : Written) : Effect := .sent peer.socket w.sent

/-- `TcpSocket::ProceedWsHandshake`: whether the upgrade was answered in full, and what was
    written, if anything. -/
def proceedWsHandshake (mBuff : Bytes) (answers : Nat → SendAnswer) :
    Except Fault (Bool × Option Written) := do
  let (ok, ws) ← parseWebSocketRequest mBuff .new
  if ok then
    let req ← ws.upgrade
    let w := write req answers
    return (w.ret && req.length == w.written, some w)
  else return (false, none)

/-- A readable WebSocket that waits for its handshake. -/
def incommingHandshake (conn : Conn) (mBuff : Bytes) (answers : Nat → SendAnswer) :
    Except Fault (Conn × List Effect) := do
  let (success, w) ← proceedWsHandshake mBuff answers
  let sent := w.toList.map (sentEffect conn.peer)
  if success then
    let conn := { conn with state := .connected }
    return (conn, sent ++ [.enqueue (.newConnection conn)])
  else
    -- `hasData` stays true on this path.
    let conn := { conn with state := .deleteLater }
    return (conn, sent ++ [.enqueue (.readData conn)])

/-- A readable WebSocket in the connected state. -/
def incommingFrame (conn : Conn) (mBuff : Bytes) (answers : Nat → SendAnswer) :
    Except Fault (Conn × List Effect) := do
  let (hasData, conn, w) ← decodeWsDataConn mBuff conn answers
  let sent := w.toList.map (sentEffect conn.peer)
  return (conn, sent ++ if hasData then [.enqueue (.readData conn)] else [])

/-- A readable TCP connection: `DeliverData`, then the job. -/
def deliverData (conn : Conn) (mBuff : Bytes) : Conn × List Effect :=
  let conn := { conn with payload := mBuff }
  (conn, [.enqueue (.readData conn)])

/-- `TcpServer::IncommingData`. -/
def incommingData (conn : Conn) (answers : ClientAnswers) : Except Fault (Conn × List Effect) :=
  match recv [] 0 answers.recv with
  | (true, mBuff) =>
    if conn.peer.isWebSocket then
      -- A WebSocket is in `cStateClosed` until its handshake is done.
      if conn.isClosed then incommingHandshake conn mBuff answers.send
      else incommingFrame conn mBuff answers.send
    else .ok (deliverData conn mBuff)
  | (false, _) => .ok ({ conn with state := .deleteLater }, [])

/-- One turn of the scan for the clients with the descriptor `fd`. -/
def scanClient (fd : Int) (conn : Conn) (answers : ClientAnswers) :
    Except Fault (Conn × List Effect) :=
  if conn.peer.socket = fd then incommingData conn answers else .ok (conn, [])

/-- The scan, from index `j` on. -/
def scanClients (fd : Int) (answers : Nat → ClientAnswers) :
    Nat → List Conn → Except Fault (List Conn × List Effect)
  | _, [] => .ok ([], [])
  | j, conn :: conns => do
    let (conn, effects) ← scanClient fd conn (answers j)
    let (conns, rest) ← scanClients fd answers (j + 1) conns
    return (conn :: conns, effects ++ rest)

/-! ### The other operations -/

/-- What is done for a connection that has just been accepted. -/
def acceptClient (newPeer : Conn) : List Effect :=
  [.accepted newPeer.serial newPeer.peer.socket, .epollAdd newPeer.peer.socket]
    -- A WebSocket is announced after its handshake.
    ++ if newPeer.peer.isWebSocket then [] else [.enqueue (.newConnection newPeer)]

/-- `TcpServer::IncommingConnection`. -/
def incommingConnection (isWebSocket : Bool) (s : Server) : List Nat → Server
  | [] => s
  | newSd :: accepted =>
    let newPeer := Conn.new s.nextSerial newSd isWebSocket
    incommingConnection isWebSocket
      { s with
        clients := s.clients ++ [newPeer]
        nextSerial := s.nextSerial + 1
        log := s.log ++ acceptClient newPeer }
      accepted

/-- `TcpServer::RemoveClient`. -/
def removeClient (fd : Int) (conns : List Conn) : List Conn :=
  conns.map fun c => if c.peer.socket = fd then { c with state := .deleteLater } else c

/-- The condition under which `UpdateClients` erases a client. -/
def mustErase (conn : Conn) : Bool := conn.state == .deleteLater || !conn.peer.isValid

/-- What is done for a client that has been erased. -/
def closeClient (conn : Conn) : List Effect :=
  -- The job holds a copy of the connection, made before the socket is closed.
  (if conn.isConnected then [.enqueue (.clientClosed conn)] else [])
    ++ [.epollDel conn.peer.socket, .close conn.peer.socket]

/-- The loop of `UpdateClients`: the first client to erase, until there is none.  Each turn but
    the last erases one client, so their number is fuel enough. -/
def updateClientsLoop : Nat → List Conn → List Conn × List Effect
  | 0, conns => (conns, [])
  | fuel + 1, conns =>
    match conns.find? mustErase with
    | none => (conns, [])
    | some conn =>
      let (rest, effects) := updateClientsLoop fuel (conns.eraseP mustErase)
      (rest, closeClient conn ++ effects)

/-- `TcpServer::UpdateClients`. -/
def updateClients (s : Server) : Server :=
  let (clients, effects) := updateClientsLoop s.clients.length s.clients
  { s with clients, log := s.log ++ effects }

/-- `TcpSocket::Send`: the result, and what was written, if anything. -/
def send (input : Bytes) (peer : Peer) (answers : Nat → SendAnswer) : Bool × Option Written :=
  let req := if peer.isWebSocket then buildWsFrame websocketOpcodeText input else input
  if peer.isValid then
    let w := write req answers
    (w.ret && req.length == w.written, some w)
  else (false, none)

/-- One turn of the loop of `SendToAllClients`. -/
def sendToClient (data : Bytes) (wsOnly : Bool) (conn : Conn) (answers : Nat → SendAnswer) :
    Bool × Conn × List Effect :=
  if !wsOnly || conn.peer.isWebSocket then
    let (ok, w) := send data conn.peer answers
    -- A client that cannot be written to is erased by the next `UpdateClients`.
    (ok, if ok then conn else { conn with state := .deleteLater },
      w.toList.map (sentEffect conn.peer))
  else (true, conn, [])

/-- The loop of `SendToAllClients`, from index `j` on. -/
def sendToClients (data : Bytes) (wsOnly : Bool) (answers : Nat → Nat → SendAnswer) :
    Nat → List Conn → Bool × List Conn × List Effect
  | _, [] => (true, [], [])
  | j, conn :: conns =>
    let (ok, conn, effects) := sendToClient data wsOnly conn (answers j)
    let (success, conns, rest) := sendToClients data wsOnly answers (j + 1) conns
    (ok && success, conn :: conns, effects ++ rest)

/-! ### The loop of the server -/

/-- One event of a batch. -/
def handleEvent (s : Server) (ev : EpollEvent) : Except Fault Server :=
  if ev.hupOrErr || ev.rdHup then .ok { s with clients := removeClient ev.fd s.clients }
  -- Something has been written into the pipe: the server is to stop.
  else if s.receiveFd = ev.fd then
    .ok { s with endServer := true, log := s.log ++ [.enqueue (.serverTerminated .closed)] }
  else if s.tcpServer.socket = ev.fd then
    .ok (if ev.noError && s.tcpServer.isValid then incommingConnection false s ev.accepted else s)
  else if s.wsServer.socket = ev.fd then
    .ok (if ev.noError && s.wsServer.isValid then incommingConnection true s ev.accepted else s)
  else do
    let (clients, effects) ← scanClients ev.fd ev.clients 0 s.clients
    return { s with clients, log := s.log ++ effects }

/-- What `Run` does once its loop has ended. -/
def cleanup (s : Server) : Server :=
  { s with
    clients := []
    -- Only the connected ones are closed; the others are dropped as they are.
    log := s.log ++ (s.clients.filter Conn.isConnected).map fun c => .close c.peer.socket }

/-- The end of one turn of the loop of `Run`. -/
def endTurn (s : Server) : Server := if s.endServer then cleanup s else s

/-- What can happen: `epoll_wait` returns events or fails, with `retry` the result of
    `AnalyzeSocketError`, or another thread calls `SendToAllClients`. -/
inductive Action where
  | batch (events : List EpollEvent)
  | waitFailed (retry : Bool)
  | sendToAllClients (data : Bytes) (wsOnly : Bool) (answers : Nat → Nat → SendAnswer)

/-- One action of the server.  Once its loop has ended no event is handled any more. -/
def Server.step (s : Server) : Action → Except Fault Server
  | .batch events =>
    if s.endServer then .ok s
    else do
      let s ← run handleEvent s events
      return endTurn (updateClients s)
  | .waitFailed retry =>
    if s.endServer || retry then .ok s
    else .ok (endTurn { s with
      endServer := true
      log := s.log ++ [.enqueue (.serverTerminated .waitSockFailed)] })
  | .sendToAllClients data wsOnly answers =>
    let (_, clients, effects) := sendToClients data wsOnly answers 0 s.clients
    .ok { s with clients, log := s.log ++ effects }

/-! ### What a step can do -/

/-- What an event can do. -/
inductive EventDoes (s : Server) (ev : EpollEvent) : Server → Prop where
  | hangUp : (ev.hupOrErr || ev.rdHup) = true →
      EventDoes s ev { s with clients := removeClient ev.fd s.clients }
  | terminate : EventDoes s ev
      { s with endServer := true, log := s.log ++ [.enqueue (.serverTerminated .closed)] }
  | accept (isWebSocket : Bool) : EventDoes s ev (incommingConnection isWebSocket s ev.accepted)
  | ignore : EventDoes s ev s
  | scan {clients : List Conn} {effects : List Effect} :
      ¬ (ev.hupOrErr || ev.rdHup) = true ∧ s.receiveFd ≠ ev.fd ∧ s.tcpServer.socket ≠ ev.fd ∧
        s.wsServer.socket ≠ ev.fd →
      scanClients ev.fd ev.clients 0 s.clients = .ok (clients, effects) →
      EventDoes s ev { s with clients, log := s.log ++ effects }

/-- **Everything an event can do.** -/
theorem handleEvent_does {s s' : Server} {ev : EpollEvent} (h : handleEvent s ev = .ok s') :
    EventDoes s ev s' := by
  -- The branches in the order of the source.
  unfold handleEvent at h
  by_cases hhup : (ev.hupOrErr || ev.rdHup) = true
  · rw [if_pos hhup] at h
    cases h
    exact .hangUp hhup
  rw [if_neg hhup] at h
  by_cases hreceive : s.receiveFd = ev.fd
  · rw [if_pos hreceive] at h
    cases h
    exact .terminate
  rw [if_neg hreceive] at h
  by_cases htcp : s.tcpServer.socket = ev.fd
  · rw [if_pos htcp] at h
    cases h
    split_ifs
    · exact .accept false
    · exact .ignore
  rw [if_neg htcp] at h
  by_cases hws : s.wsServer.socket = ev.fd
  · rw [if_pos hws] at h
    cases h
    split_ifs
    · exact .accept true
    · exact .ignore
  rw [if_neg hws] at h
  obtain ⟨⟨clients, effects⟩, hscan, h⟩ := bind_eq_ok.mp h
  cases h
  exact .scan ⟨hhup, hreceive, htcp, hws⟩ hscan

/-- What an action can do. -/
inductive ActionDoes (s : Server) : Action → Server → Prop where
  | nothing (action : Action) : ActionDoes s action s
  | batch {events : List EpollEvent} {s₁ : Server} : s.endServer = false →
      run handleEvent s events = .ok s₁ →
      ActionDoes s (.batch events) (endTurn (updateClients s₁))
  | waitFailed (retry : Bool) : ActionDoes s (.waitFailed retry) (endTurn { s with
      endServer := true
      log := s.log ++ [.enqueue (.serverTerminated .waitSockFailed)] })
  | sendToAllClients (data : Bytes) (wsOnly : Bool) (answers : Nat → Nat → SendAnswer) :
      ActionDoes s (.sendToAllClients data wsOnly answers) { s with
        clients := (sendToClients data wsOnly answers 0 s.clients).2.1
        log := s.log ++ (sendToClients data wsOnly answers 0 s.clients).2.2 }

/-- **Everything an action can do.** -/
theorem Server.step_does {s s' : Server} {action : Action} (h : s.step action = .ok s') :
    ActionDoes s action s' := by
  cases action with
  | batch events =>
    rw [Server.step] at h
    by_cases hend : s.endServer = true
    · rw [if_pos hend] at h
      cases h
      exact .nothing _
    -- The events are handled one by one, and then the marked clients erased.
    · rw [if_neg hend] at h
      obtain ⟨s₁, hrun, h⟩ := bind_eq_ok.mp h
      cases h
      exact .batch (by simpa using hend) hrun
  | waitFailed retry =>
    rw [Server.step] at h
    split_ifs at h
    · cases h
      exact .nothing _
    · cases h
      exact .waitFailed retry
  | sendToAllClients data wsOnly answers =>
    cases h
    exact .sendToAllClients data wsOnly answers

end Icl.Network
