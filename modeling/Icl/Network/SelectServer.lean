import Icl.Network.TcpServer

namespace Icl.Network

open Icl.Cxx Icl.Transition

/-!
# `TcpServer`, with `select`

The model of `network/TcpServer.cpp`, the server of Windows and Apple: `Run`, `IncommingConnection`,
`IncommingData`, `UpdateClients` and `UpdateMaxSocket`.

What the operating system returns stands in the actions: the descriptors that `select` leaves in
the working set, and for each turn of the loop over them what `accept` and the calls for a client
return.  `log` is not in the source.  `Start` and `Stop` are left out, and so is the pipe, which is
created under `USE_UNIX_OS`: the builds that have this file do not define it, so that `mReceiveFd`
stays `-1`.  The sets of descriptors are those of Windows, which hold `FD_SETSIZE` of them.
-/

/-- What the server does to the outside; `called` is a call of the application's `IEvent` in the
    thread of the server. -/
inductive SelectEffect where
  | called (job : Job)
  | enqueue (job : Job)
  | sent (socket : Int) (bytes : Bytes)
  | accepted (serial : Nat) (socket : Int)
  | close (socket : Int)
  deriving DecidableEq, Repr

/-- The system's answers in one turn of the loop over the descriptors that are ready. -/
structure PassAnswers where
  tcpAccepted : List Nat
  wsAccepted : List Nat
  clients : Int → ClientAnswers

/-- `FD_SETSIZE`, which the repository does not define. -/
def fdSetSize : Nat := 64

/-- `FD_SET`: nothing is done when the set is full. -/
def fdSet (fd : Int) (set : List Int) : List Int :=
  if fd ∈ set then set else if set.length < fdSetSize then fd :: set else set

/-- `FD_CLR`. -/
def fdClr (fd : Int) (set : List Int) : List Int := set.filter (· ≠ fd)

/-- `TcpServer`. -/
structure SelectServer where
  tcpServer : Peer
  wsServer : Peer
  mReceiveFd : Int
  mMasterSet : List Int
  mMaxSd : Int
  clients : List Conn
  nextSerial : Nat
  endServer : Bool
  log : List SelectEffect
  deriving DecidableEq, Repr

namespace SelectServer

/-- The maximum that `UpdateMaxSocket` finds. -/
def maxSocket (tcpServer wsServer : Peer) (clients : List Conn) : Int :=
  let mMaxSd := if wsServer.socket > tcpServer.socket then wsServer.socket else tcpServer.socket
  match (clients.map (·.peer.socket)).max? with
  | some pos => if pos > mMaxSd then pos else mMaxSd
  | none => mMaxSd

/-- `UpdateMaxSocket`. -/
def updateMaxSocket (s : SelectServer) : SelectServer :=
  { s with mMaxSd := maxSocket s.tcpServer s.wsServer s.clients }

/-- The listening sockets. -/
def listening (tcpServer wsServer : Peer) : List Int :=
  ([tcpServer, wsServer].filter Peer.isValid).map Peer.socket

/-- The server when `Run` enters its loop. -/
def start (tcpServer wsServer : Peer) : SelectServer :=
  { tcpServer, wsServer, mReceiveFd := -1
    mMasterSet := (listening tcpServer wsServer).foldl (fun set fd => fdSet fd set) []
    mMaxSd := maxSocket tcpServer wsServer [], clients := [], nextSerial := 0
    endServer := false, log := [] }

/-! ### Incoming data -/

/-- What a call of `Write` leaves in the log. -/
def sentEffect (peer : Peer) (w : Written) : SelectEffect := .sent peer.socket w.sent

/-- A readable WebSocket that waits for its handshake. -/
def incommingHandshake (conn : Conn) (mBuff : Bytes) (answers : Nat → SendAnswer) :
    Except Fault (Conn × List SelectEffect) := do
  let (success, w) ← proceedWsHandshake mBuff answers
  let sent := w.toList.map (sentEffect conn.peer)
  if success then
    let conn := { conn with state := .connected }
    return (conn, sent ++ [.called (.newConnection conn)])
  else
    -- `hasData` stays true on this path, and the state is not changed.
    return (conn, sent ++ [.enqueue (.readData conn)])

/-- A readable WebSocket in the connected state. -/
def incommingFrame (conn : Conn) (mBuff : Bytes) (answers : Nat → SendAnswer) :
    Except Fault (Conn × List SelectEffect) := do
  let (hasData, conn, w) ← decodeWsDataConn mBuff conn answers
  let sent := w.toList.map (sentEffect conn.peer)
  return (conn, sent ++ if hasData then [.enqueue (.readData conn)] else [])

/-- A readable TCP connection: `DeliverData`, then the job. -/
def deliverData (conn : Conn) (mBuff : Bytes) : Conn × List SelectEffect :=
  let conn := { conn with payload := mBuff }
  (conn, [.enqueue (.readData conn)])

/-- `IncommingData`. -/
def incommingData (conn : Conn) (answers : ClientAnswers) :
    Except Fault (Conn × List SelectEffect) :=
  match recv [] 0 answers.recv with
  | (true, mBuff) =>
    if conn.peer.isWebSocket then
      if conn.isClosed then incommingHandshake conn mBuff answers.send
      else incommingFrame conn mBuff answers.send
    else .ok (deliverData conn mBuff)
  | (false, _) => .ok ({ conn with state := .deleteLater }, [])

/-- One turn of the scan for the clients in the working set. -/
def scanClient (ready : List Int) (conn : Conn) (answers : Int → ClientAnswers) :
    Except Fault (Conn × List SelectEffect) :=
  if conn.peer.socket ∈ ready then incommingData conn (answers conn.peer.socket)
  else .ok (conn, [])

/-- The scan. -/
def scanClients (ready : List Int) (answers : Int → ClientAnswers) :
    List Conn → Except Fault (List Conn × List SelectEffect)
  | [] => .ok ([], [])
  | conn :: conns => do
    let (conn, effects) ← scanClient ready conn answers
    let (conns, rest) ← scanClients ready answers conns
    return (conn :: conns, effects ++ rest)

/-! ### The table of clients -/

/-- `IncommingConnection`. -/
def incommingConnection (isWebSocket : Bool) (s : SelectServer) : List Nat → SelectServer
  | [] => s
  | newSd :: accepted =>
    let newPeer := Conn.new s.nextSerial newSd isWebSocket
    let s := updateMaxSocket { s with
      clients := s.clients ++ [newPeer]
      nextSerial := s.nextSerial + 1
      mMasterSet := fdSet newSd s.mMasterSet
      log := s.log ++ [.accepted newPeer.serial newSd] }
    -- `NewConnection` is called here, by the thread of the server.
    let s := if isWebSocket then s
      else { s with log := s.log ++ [.called (.newConnection newPeer)] }
    incommingConnection isWebSocket s accepted

/-- The condition under which `UpdateClients` erases a client. -/
def mustErase (conn : Conn) : Bool := conn.state == .deleteLater

/-- What is done for a client that has been erased. -/
def closeClient (conn : Conn) : List SelectEffect :=
  if conn.isConnected then [.called (.clientClosed conn)] else []

/-- The loop of `UpdateClients`, on the clients and the master set: the first client to erase, until
    there is none.  Each turn but the last erases one client, so their number is fuel enough. -/
def updateClientsLoop : Nat → List Conn → List Int → List Conn × List Int × List SelectEffect
  | 0, conns, mMasterSet => (conns, mMasterSet, [])
  | fuel + 1, conns, mMasterSet =>
    match conns.find? mustErase with
    | none => (conns, mMasterSet, [])
    | some conn =>
      let (rest, mMasterSet, effects) :=
        updateClientsLoop fuel (conns.eraseP mustErase) (fdClr conn.peer.socket mMasterSet)
      (rest, mMasterSet, closeClient conn ++ effects)

/-- `UpdateClients`. -/
def updateClients (s : SelectServer) : SelectServer :=
  let (clients, mMasterSet, effects) := updateClientsLoop s.clients.length s.clients s.mMasterSet
  updateMaxSocket { s with clients, mMasterSet, log := s.log ++ effects }

/-! ### The loop of the server -/

/-- A listening socket, if it is valid and ready. -/
def listenOn (ready : List Int) (isWebSocket : Bool) (accepted : List Nat) (s : SelectServer) :
    SelectServer :=
  let server := if isWebSocket then s.wsServer else s.tcpServer
  if server.isValid ∧ server.socket ∈ ready then s.incommingConnection isWebSocket accepted else s

/-- One turn of the loop over the descriptors that are ready: all of them are looked at. -/
def pass (ready : List Int) (answers : PassAnswers) (s : SelectServer) :
    Except Fault SelectServer := do
  let s := s.listenOn ready false answers.tcpAccepted
  let s := s.listenOn ready true answers.wsAccepted
  let (clients, effects) ← scanClients ready answers.clients s.clients
  return updateClients { s with clients, log := s.log ++ effects }

/-- The turns, from the `i`-th on, of which there are `n`. -/
def passes (ready : List Int) (answers : Nat → PassAnswers) :
    Nat → Nat → SelectServer → Except Fault SelectServer
  | 0, _, s => .ok s
  | n + 1, i, s =>
    if s.mReceiveFd ∈ ready then
      .ok { s with endServer := true, log := s.log ++ [.called (.serverTerminated .closed)] }
    else do
      let s ← s.pass ready (answers i)
      passes ready answers n (i + 1) s

/-- What `Run` does once its loop has ended. -/
def cleanup (s : SelectServer) : SelectServer :=
  -- `FD_ISSET` decides, so a socket the set could not take is not closed.
  let isOpen := fun c : Conn => decide (c.peer.socket ∈ s.mMasterSet)
  { s with
    clients := s.clients.map fun c =>
      if isOpen c then { c with peer := { c.peer with socket := cSocketInvalid } } else c
    log := s.log ++ (s.clients.filter isOpen).map fun c => .close c.peer.socket }

/-- The end of one turn of the loop of `Run`. -/
def endTurn (s : SelectServer) : SelectServer := if s.endServer then cleanup s else s

/-- What `select` returns: the descriptors that are ready, with what comes of them, an error or
    nothing, with `retry` the result of `AnalyzeSocketError`. -/
inductive Action where
  | ready (fds : List Int) (answers : Nat → PassAnswers)
  | failed (retry : Bool)
  | expired (retry : Bool)

/-- The server ends by itself. -/
def terminate (type : CloseType) (s : SelectServer) : SelectServer :=
  endTurn { s with endServer := true, log := s.log ++ [.called (.serverTerminated type)] }

/-- One turn of the loop of `Run`.  Once it has ended, nothing is done any more. -/
def step (s : SelectServer) : Action → Except Fault SelectServer
  | .ready fds answers =>
    if s.endServer then .ok s
    else do
      -- As many turns as there are descriptors, each for all of them.
      let s ← passes fds answers fds.length 0 s
      return endTurn s
  | .failed retry =>
    .ok (if s.endServer || retry then s else s.terminate .waitSockFailed)
  | .expired retry =>
    .ok (if s.endServer || retry then s else s.terminate .timeout)

end SelectServer

end Icl.Network
