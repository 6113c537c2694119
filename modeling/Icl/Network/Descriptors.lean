import Icl.Network.LifeCycle

namespace Icl.Network

open Icl.Cxx Icl.Transition

/-!
# The table of clients and the descriptors of the system

A client is known to the system by its descriptor, which may be given to another connection once
it has been closed.  What the server does to the outside says which connection is open on which
descriptor.

* `descriptors` — the connection open on each descriptor, after the effects of a log;
* `AcceptsClosed` — what the system promises: `accept` returns a descriptor that is closed;
* `TableInv` — the invariant: the clients sit on distinct descriptors, each open for its client,
  and each `ReadData` was enqueued while its connection was open;
* `clientTable_invariant` — the invariant holds throughout every run, and what `UpdateClients`
  does to a table for which it holds.
-/

/-! ### The descriptors of the system -/

/-- The connection that is open on each descriptor. -/
abbrev Descriptors := Int → Option Nat

namespace Descriptors

/-- The descriptors after one effect. -/
def apply (t : Descriptors) : Effect → Descriptors
  | .accepted serial socket => Function.update t socket (some serial)
  | .close socket => Function.update t socket none
  | _ => t

/-- The descriptors after some effects. -/
def after (t : Descriptors) (effects : List Effect) : Descriptors := effects.foldl apply t

end Descriptors

/-- The descriptors after the effects of a log, none being open at first. -/
def descriptors (log : List Effect) : Descriptors := Descriptors.after (fun _ => none) log

/-- Every effect meets `P` with the descriptors as they are before it. -/
def EachEffect (P : Descriptors → Effect → Prop) : Descriptors → List Effect → Prop
  | _, [] => True
  | t, e :: effects => P t e ∧ EachEffect P (t.apply e) effects

/-- The effect does not return a descriptor that is open. -/
def ReturnsClosed (t : Descriptors) : Effect → Prop
  | .accepted _ socket => t socket = none
  | _ => True

/-- The effect does not hand over data of a connection that is not open on its descriptor. -/
def ReadsOwn (t : Descriptors) : Effect → Prop
  | .enqueue (.readData conn) => t conn.peer.socket = some conn.serial
  | _ => True

/-- **What the system promises**: `accept` never returns a descriptor that is still open. -/
def AcceptsClosed (log : List Effect) : Prop := EachEffect ReturnsClosed (fun _ => none) log

/-- Each `ReadData` is enqueued while its connection is open. -/
def ReadsOpen (log : List Effect) : Prop := EachEffect ReadsOwn (fun _ => none) log

instance (t : Descriptors) : ∀ e, Decidable (ReturnsClosed t e)
  | .accepted _ socket => inferInstanceAs (Decidable (t socket = none))
  | .enqueue _ | .sent _ _ | .epollAdd _ | .epollDel _ | .close _ => isTrue trivial

instance decidableEachEffect (P : Descriptors → Effect → Prop) [∀ t e, Decidable (P t e)] :
    ∀ t effects, Decidable (EachEffect P t effects)
  | _, [] => isTrue trivial
  | t, e :: effects =>
    have := decidableEachEffect P (t.apply e) effects
    inferInstanceAs (Decidable (P t e ∧ EachEffect P (t.apply e) effects))

instance (log : List Effect) : Decidable (AcceptsClosed log) :=
  decidableEachEffect _ _ _

/-- The table after a longer log is the table after the log, changed by the further effects. -/
theorem descriptors_append (log effects : List Effect) :
    descriptors (log ++ effects) = (descriptors log).after effects := List.foldl_append

/-- What holds of every effect holds of the first ones, and of the others with the table the first
    ones leave. -/
theorem eachEffect_append {P : Descriptors → Effect → Prop} {t : Descriptors}
    {es es' : List Effect} :
    EachEffect P t (es ++ es') ↔ EachEffect P t es ∧ EachEffect P (t.after es) es' := by
  induction es generalizing t with
  | nil => simp [EachEffect, Descriptors.after]
  | cons e es ih =>
    rw [List.cons_append, EachEffect, EachEffect, ih, and_assoc]
    rfl

/-- A log that keeps the promise kept it before its last effects. -/
theorem AcceptsClosed.of_append {log effects : List Effect} (h : AcceptsClosed (log ++ effects)) :
    AcceptsClosed log := (eachEffect_append.mp h).1

/-! ### Effects that open and close nothing -/

/-- The effect neither opens nor closes a descriptor. -/
def Effect.Quiet : Effect → Prop
  | .accepted _ _ | .close _ => False
  | _ => True

/-- A quiet effect leaves the table as it is. -/
theorem Descriptors.apply_quiet {e : Effect} (h : e.Quiet) (t : Descriptors) : t.apply e = t := by
  cases e with
  | accepted serial socket => exact absurd h id
  | close socket => exact absurd h id
  | _ => rfl

/-- So do any number of them. -/
theorem Descriptors.after_quiet {effects : List Effect} (h : ∀ e ∈ effects, e.Quiet)
    (t : Descriptors) : t.after effects = t := by
  induction effects with
  | nil => rfl
  | cons e effects ih =>
    obtain ⟨he, hes⟩ := List.forall_mem_cons.mp h
    rw [after, List.foldl_cons, apply_quiet he]
    exact ih hes

/-- Among effects that open and close nothing, a condition on the descriptors is one on each
    effect. -/
theorem eachEffect_quiet {P : Descriptors → Effect → Prop} {t : Descriptors}
    {effects : List Effect} (hquiet : ∀ e ∈ effects, e.Quiet) (h : ∀ e ∈ effects, P t e) :
    EachEffect P t effects := by
  induction effects with
  | nil => trivial
  | cons e effects ih =>
    obtain ⟨he, hes⟩ := List.forall_mem_cons.mp hquiet
    obtain ⟨hp, hps⟩ := List.forall_mem_cons.mp h
    refine ⟨hp, ?_⟩
    rw [Descriptors.apply_quiet he]
    exact ih hes hps

/-! ### What handling clients does to the table -/

/-- Which connection a client is, and its descriptor. -/
def Conn.ident (conn : Conn) : Nat × Int := (conn.serial, conn.peer.socket)

/-- Clients that have been handled: none has moved, no descriptor has been opened or closed, and
    only data of these clients has been handed over. -/
structure Keeps (conns conns' : List Conn) (effects : List Effect) : Prop where
  same : conns'.map Conn.ident = conns.map Conn.ident
  quiet : ∀ e ∈ effects, e.Quiet
  reads : ∀ conn, .enqueue (.readData conn) ∈ effects → conn.ident ∈ conns.map Conn.ident

/-- Without clients nothing changes. -/
theorem Keeps.nil : Keeps [] [] [] := ⟨rfl, by simp, by simp⟩

/-- A client of which nothing is handed over. -/
theorem Keeps.silent {conn conn' : Conn} {effects : List Effect} (hident : conn'.ident = conn.ident)
    (hquiet : ∀ e ∈ effects, e.Quiet) (hreads : ∀ c, .enqueue (.readData c) ∉ effects) :
    Keeps [conn] [conn'] effects :=
  ⟨by simp [hident], hquiet, fun c hc => absurd hc (hreads c)⟩

/-- Clients are dealt with one by one, and their effects come in that order. -/
theorem Keeps.cons {conn conn' : Conn} {conns conns' : List Conn} {es es' : List Effect}
    (hconn : Keeps [conn] [conn'] es) (hconns : Keeps conns conns' es') :
    Keeps (conn :: conns) (conn' :: conns') (es ++ es') where
  same := by
    have := hconn.same
    simp_all [hconns.same]
  quiet e he := (List.mem_append.mp he).elim (hconn.quiet e) (hconns.quiet e)
  reads c hc := by
    rcases List.mem_append.mp hc with hc | hc
    · have := hconn.reads c hc
      simp_all
    · exact List.mem_cons_of_mem _ (hconns.reads c hc)

/-- A client for which something is written and jobs are enqueued. -/
theorem Keeps.jobs {conn conn' : Conn} (hident : conn'.ident = conn.ident) (peer : Peer)
    (w : Option Written) (jobs : List Job)
    (hjobs : ∀ c, .readData c ∈ jobs → c.ident = conn'.ident) :
    Keeps [conn] [conn'] (w.toList.map (sentEffect peer) ++ jobs.map .enqueue) where
  same := by simp [hident]
  quiet e he := by
    -- Neither what was sent nor the jobs open or close a descriptor.
    rcases List.mem_append.mp he with he | he
    · obtain ⟨_, -, rfl⟩ := List.mem_map.mp he
      trivial
    · obtain ⟨_, -, rfl⟩ := List.mem_map.mp he
      trivial
  reads c hc := by
    rcases List.mem_append.mp hc with hc | hc
    · obtain ⟨_, -, heq⟩ := List.mem_map.mp hc
      cases heq
    · obtain ⟨job, hjob, heq⟩ := List.mem_map.mp hc
      cases heq
      simp [hjobs c hjob, hident]

/-- A client that is left alone keeps its place. -/
theorem Keeps.refl (conn : Conn) : Keeps [conn] [conn] [] :=
  .jobs rfl conn.peer none [] (by simp)

/-- A client that has only been marked. -/
theorem Keeps.state (conn : Conn) (state : ConnState) : Keeps [conn] [{ conn with state }] [] :=
  have hident : Conn.ident { conn with state } = conn.ident := rfl
  .jobs hident conn.peer none [] (by simp)

/-- Decoding a frame changes the state and the payload of a connection, never its number or its
    socket. -/
theorem decodeWsDataConn_ident {mBuff : Bytes} {conn conn' : Conn} {answers : Nat → SendAnswer}
    {hasData : Bool} {w : Option Written}
    (h : decodeWsDataConn mBuff conn answers = .ok (hasData, conn', w)) :
    conn'.ident = conn.ident := by
  obtain ⟨⟨res, buf, payload⟩, -, h⟩ := bind_eq_ok.mp h
  cases res <;> cases h <;> rfl

/-- `IncommingData` keeps the client where it is. -/
theorem incommingData_keeps {conn conn' : Conn} {answers : ClientAnswers} {effects : List Effect}
    (h : incommingData conn answers = .ok (conn', effects)) : Keeps [conn] [conn'] effects := by
  rw [incommingData] at h
  rcases hrecv : recv [] 0 answers.recv with ⟨_ | _, mBuff⟩
  · rw [hrecv] at h
    cases h
    exact .state conn _
  · simp only [hrecv] at h
    split_ifs at h
    · -- The handshake: whether it succeeds or not, one job is enqueued.
      obtain ⟨⟨success, w⟩, -, h⟩ := bind_eq_ok.mp h
      dsimp only at h
      have hident : ∀ state, Conn.ident { conn with state } = conn.ident := fun _ => rfl
      split_ifs at h
      · cases h
        exact .jobs (hident _) conn.peer w [.newConnection _] (by simp)
      · cases h
        exact .jobs (hident _) conn.peer w [.readData _] (by simp)
    · -- A frame: data is handed over, or nothing is.
      obtain ⟨⟨hasData, conn₁, w⟩, hdecode, h⟩ := bind_eq_ok.mp h
      have hident := decodeWsDataConn_ident hdecode
      cases h
      cases hasData
      · exact .jobs hident _ w [] (by simp)
      · exact .jobs hident _ w [.readData _] (by simp)
    · cases h
      have hident : Conn.ident { conn with payload := mBuff } = conn.ident := rfl
      exact .jobs hident conn.peer none [.readData _] (by simp)

/-- **The scan for the client of an event keeps the table**, whichever clients it stops at. -/
theorem scanClients_keeps {fd : Int} {answers : Nat → ClientAnswers} {j : Nat}
    {conns conns' : List Conn} {effects : List Effect}
    (h : scanClients fd answers j conns = .ok (conns', effects)) : Keeps conns conns' effects := by
  induction conns generalizing j conns' effects with
  | nil =>
    cases h
    exact .nil
  | cons conn conns ih =>
    obtain ⟨⟨conn₁, es⟩, hconn, h⟩ := bind_eq_ok.mp h
    obtain ⟨⟨conns₁, es'⟩, hconns, h⟩ := bind_eq_ok.mp h
    cases h
    refine .cons ?_ (ih hconns)
    rw [scanClient] at hconn
    split_ifs at hconn
    · exact incommingData_keeps hconn
    · cases hconn
      exact .refl conn

/-- Marking a client for deletion keeps the table: the descriptor is not closed yet. -/
theorem removeClient_keeps (fd : Int) (conns : List Conn) :
    Keeps conns (removeClient fd conns) [] := by
  induction conns with
  | nil => exact .nil
  | cons conn conns ih =>
    refine .cons (?_ : Keeps [conn] [_] []) ih
    dsimp only
    split_ifs
    · exact .state conn _
    · exact .refl conn

/-- Sending to one client keeps the table. -/
theorem sendToClient_keeps (data : Bytes) (wsOnly : Bool) (conn : Conn)
    (answers : Nat → SendAnswer) :
    Keeps [conn] [(sendToClient data wsOnly conn answers).2.1]
      (sendToClient data wsOnly conn answers).2.2 := by
  unfold sendToClient
  split_ifs
  · dsimp only
    rw [← List.append_nil (List.map _ _)]
    refine .jobs ?_ conn.peer _ [] (by simp)
    split_ifs <;> rfl
  · exact .refl conn

/-- So does sending to all of them. -/
theorem sendToClients_keeps (data : Bytes) (wsOnly : Bool) (answers : Nat → Nat → SendAnswer)
    (j : Nat) (conns : List Conn) :
    Keeps conns (sendToClients data wsOnly answers j conns).2.1
      (sendToClients data wsOnly answers j conns).2.2 := by
  induction conns generalizing j with
  | nil => exact .nil
  | cons conn conns ih =>
    exact .cons (sendToClient_keeps data wsOnly conn (answers j)) (ih (j + 1))

/-! ### The invariant -/

/-- Clients that sit on distinct descriptors, each of them valid and open for its client. -/
structure Seated (ids : List (Nat × Int)) (t : Descriptors) : Prop where
  nodup : (ids.map Prod.snd).Nodup
  isOpen : ∀ id ∈ ids, t id.2 = some id.1
  valid : ∀ id ∈ ids, id.2 ≠ cSocketInvalid

/-- What holds of the server and its log between two events. -/
structure TableInv (s : Server) : Prop where
  seated : Seated (s.clients.map Conn.ident) (descriptors s.log)
  reads : ReadsOpen s.log

/-- With no clients and no log the invariant holds. -/
theorem tableInv_start (tcpServer wsServer : Peer) (receiveFd : Int) :
    TableInv (Server.start tcpServer wsServer receiveFd) where
  seated := ⟨List.nodup_nil, by simp [Server.start], by simp [Server.start]⟩
  reads := trivial

/-- Those who stay keep their seats. -/
theorem Seated.sublist {ids ids' : List (Nat × Int)} {t : Descriptors} (h : Seated ids t)
    (hsub : ids'.Sublist ids) : Seated ids' t where
  nodup := h.nodup.sublist (hsub.map _)
  isOpen id hid := h.isOpen id (hsub.subset hid)
  valid id hid := h.valid id (hsub.subset hid)

/-- Effects that open and close nothing and hand nothing over. -/
theorem TableInv.silent {s : Server} (h : TableInv s) (endServer : Bool) {effects : List Effect}
    (hquiet : ∀ e ∈ effects, e.Quiet) (hreads : ∀ c, .enqueue (.readData c) ∉ effects) :
    TableInv { s with endServer, log := s.log ++ effects } where
  seated := by
    rw [descriptors_append, Descriptors.after_quiet hquiet]
    exact h.seated
  reads := by
    refine eachEffect_append.mpr ⟨h.reads, eachEffect_quiet hquiet fun e he => ?_⟩
    cases e with
    | enqueue job =>
      cases job with
      | readData conn => exact absurd he (hreads conn)
      | _ => trivial
    | _ => trivial

/-- **Clients that have been handled** keep their places. -/
theorem TableInv.keeps {s : Server} (h : TableInv s) {clients : List Conn} {effects : List Effect}
    (hkeeps : Keeps s.clients clients effects) :
    TableInv { s with clients, log := s.log ++ effects } where
  seated := by
    rw [hkeeps.same, descriptors_append, Descriptors.after_quiet hkeeps.quiet]
    exact h.seated
  reads := by
    refine eachEffect_append.mpr ⟨h.reads, eachEffect_quiet hkeeps.quiet fun e he => ?_⟩
    cases e with
    | enqueue job =>
      cases job with
      | readData conn => exact h.seated.isOpen _ (hkeeps.reads conn he)
      | _ => trivial
    | _ => trivial

/-- A client that has been accepted on a descriptor that was closed. -/
theorem TableInv.accept {s : Server} (h : TableInv s) (isWebSocket : Bool) (newSd : Nat)
    (hclosed : AcceptsClosed (s.log ++ acceptClient (.new s.nextSerial newSd isWebSocket))) :
    TableInv { s with
      clients := s.clients ++ [.new s.nextSerial newSd isWebSocket]
      nextSerial := s.nextSerial + 1
      log := s.log ++ acceptClient (.new s.nextSerial newSd isWebSocket) } := by
  have hnone : descriptors s.log newSd = none := (eachEffect_append.mp hclosed).2.1
  have hafter : descriptors (s.log ++ acceptClient (.new s.nextSerial newSd isWebSocket))
      = Function.update (descriptors s.log) newSd (some s.nextSerial) := by
    rw [descriptors_append]
    cases isWebSocket <;> rfl
  -- No client sits on a closed descriptor.
  have hfree : ∀ id ∈ s.clients.map Conn.ident, id.2 ≠ newSd := by
    intro id hid heq
    have := h.seated.isOpen id hid
    rw [heq, hnone] at this
    cases this
  have hids : (s.clients ++ [Conn.new s.nextSerial newSd isWebSocket]).map Conn.ident
      = s.clients.map Conn.ident ++ [(s.nextSerial, (newSd : Int))] := List.map_append
  refine ⟨?_, ?_⟩
  · show Seated ((s.clients ++ [Conn.new s.nextSerial newSd isWebSocket]).map Conn.ident) _
    rw [hids, hafter]
    constructor
    case nodup =>
      rw [List.map_append, List.nodup_append]
      refine ⟨h.seated.nodup, by simp, ?_⟩
      rintro fd hfd _ hnew rfl
      obtain ⟨id, hid, rfl⟩ := List.mem_map.mp hfd
      exact hfree id hid (by simpa using hnew)
    case isOpen =>
      intro id hid
      rcases List.mem_append.mp hid with hid | hid
      · rw [Function.update_of_ne (hfree id hid)]
        exact h.seated.isOpen id hid
      · rw [List.mem_singleton.mp hid, Function.update_self]
    case valid =>
      intro id hid
      rcases List.mem_append.mp hid with hid | hid
      · exact h.seated.valid id hid
      · rw [List.mem_singleton.mp hid]
        simp [cSocketInvalid]
  · refine eachEffect_append.mpr ⟨h.reads, ?_⟩
    cases isWebSocket <;> exact ⟨trivial, trivial, by simp [EachEffect, ReadsOwn, Conn.new]⟩

/-- What the system promises of the log after an `IncommingConnection` it has kept before it. -/
theorem acceptsClosed_of_incommingConnection {isWebSocket : Bool} {s : Server} {accepted : List Nat}
    (h : AcceptsClosed (incommingConnection isWebSocket s accepted).log) : AcceptsClosed s.log := by
  induction accepted generalizing s with
  | nil => exact h
  | cons newSd accepted ih => exact (ih h).of_append

/-- **Accepting keeps the invariant**, as long as each descriptor `accept` returns is closed at that
    moment. -/
theorem TableInv.incommingConnection {s : Server} (h : TableInv s) (isWebSocket : Bool)
    {accepted : List Nat}
    (hclosed : AcceptsClosed (incommingConnection isWebSocket s accepted).log) :
    TableInv (incommingConnection isWebSocket s accepted) := by
  induction accepted generalizing s with
  | nil => exact h
  | cons newSd accepted ih =>
    rw [Network.incommingConnection] at hclosed
    exact ih (h.accept isWebSocket newSd (acceptsClosed_of_incommingConnection hclosed)) hclosed

/-! ### The end of a batch -/

/-- A client that has been closed leaves its descriptor closed, and no other one. -/
theorem after_closeClient (t : Descriptors) (conn : Conn) :
    t.after (closeClient conn) = Function.update t conn.peer.socket none := by
  rw [closeClient, Descriptors.after, List.foldl_append]
  by_cases hconn : conn.isConnected = true
  · rw [if_pos hconn]
    rfl
  · rw [if_neg hconn]
    rfl

/-- Closing some clients empties exactly their descriptors. -/
theorem after_closeClients (t : Descriptors) (conns : List Conn) (fd : Int) :
    t.after (conns.flatMap closeClient) fd
      = if fd ∈ conns.map (·.peer.socket) then none else t fd := by
  induction conns generalizing t with
  | nil => rfl
  | cons conn conns ih =>
    have hsplit : t.after (closeClient conn ++ conns.flatMap closeClient)
        = (t.after (closeClient conn)).after (conns.flatMap closeClient) := List.foldl_append
    rw [List.flatMap_cons, hsplit, ih, after_closeClient, List.map_cons]
    by_cases hfd : fd = conn.peer.socket
    · simp [hfd]
    · simp [hfd]

/-- Closing clients hands nothing over. -/
theorem readsOwn_closeClients (t : Descriptors) (conns : List Conn) :
    EachEffect ReadsOwn t (conns.flatMap closeClient) := by
  induction conns generalizing t with
  | nil => trivial
  | cons conn conns ih =>
    rw [List.flatMap_cons, eachEffect_append]
    refine ⟨?_, ih _⟩
    rw [closeClient]
    split_ifs <;> exact ⟨trivial, by simp [EachEffect, ReadsOwn]⟩

/-- How often a descriptor is taken out of `epoll` and closed. -/
theorem count_closeClients (conns : List Conn) (fd : Int) :
    (conns.flatMap closeClient).count (.epollDel fd) = (conns.map (·.peer.socket)).count fd ∧
    (conns.flatMap closeClient).count (.close fd) = (conns.map (·.peer.socket)).count fd := by
  induction conns with
  | nil => exact ⟨rfl, rfl⟩
  | cons conn conns ih =>
    rw [List.flatMap_cons, List.count_append, List.count_append, ih.1, ih.2, List.map_cons,
      List.count_cons, closeClient]
    by_cases hconn : conn.isConnected = true <;> by_cases hfd : conn.peer.socket = fd <;>
      simp [hconn, hfd, Nat.add_comm]

/-- In a table of the invariant the clients to erase are those marked for deletion. -/
theorem Seated.mustErase_eq {s : Server} {t : Descriptors}
    (h : Seated (s.clients.map Conn.ident) t) {conn : Conn} (hconn : conn ∈ s.clients) :
    mustErase conn = (conn.state == .deleteLater) := by
  have hvalid : conn.peer.isValid = true := by
    simpa [Peer.isValid, Conn.ident] using h.valid _ (List.mem_map_of_mem hconn)
  simp [mustErase, hvalid]

/-- **The end of a batch** keeps the invariant: the clients that stay are not closed. -/
theorem TableInv.updateClients {s : Server} (h : TableInv s) : TableInv (updateClients s) := by
  rw [updateClients_eq]
  have hstay : ((s.clients.filter (fun c => !mustErase c)).map Conn.ident).Sublist
      (s.clients.map Conn.ident) := List.filter_sublist.map _
  refine ⟨?_, eachEffect_append.mpr ⟨h.reads, readsOwn_closeClients _ _⟩⟩
  refine ⟨(h.seated.sublist hstay).nodup, ?_, (h.seated.sublist hstay).valid⟩
  intro id hid
  obtain ⟨c, hc, rfl⟩ := List.mem_map.mp hid
  obtain ⟨hc, hkeep⟩ := List.mem_filter.mp hc
  -- The descriptors are distinct, so that none of the closed ones is the client's.
  have hother : c.peer.socket ∉ (s.clients.filter mustErase).map (·.peer.socket) := by
    intro hmem
    obtain ⟨c', hc', heq⟩ := List.mem_map.mp hmem
    obtain ⟨hc', herase⟩ := List.mem_filter.mp hc'
    have hnodup := h.seated.nodup
    rw [List.map_map] at hnodup
    have hsame : c' = c := List.inj_on_of_nodup_map hnodup hc' hc heq
    rw [hsame] at herase
    simp [herase] at hkeep
  show descriptors (s.log ++ _) c.peer.socket = some c.serial
  rw [descriptors_append, after_closeClients, if_neg hother]
  exact h.seated.isOpen _ (List.mem_map_of_mem hc)

/-! ### Whole runs -/

/-- If the system has kept its promise up to the second state, it had kept it up to the first, and
    the invariant has been passed on. -/
def PassesOn (s s' : Server) : Prop :=
  AcceptsClosed s'.log → AcceptsClosed s.log ∧ (TableInv s → TableInv s')

/-- A state passes the invariant on to itself. -/
theorem PassesOn.refl (s : Server) : PassesOn s s := fun h => ⟨h, id⟩

/-- The invariant is passed on along the way from state to state. -/
theorem PassesOn.trans (s s₁ s₂ : Server) (h : PassesOn s s₁) (h' : PassesOn s₁ s₂) :
    PassesOn s s₂ := fun hclosed =>
  have ⟨hclosed₁, hinv₁⟩ := h' hclosed
  have ⟨hclosed₀, hinv₀⟩ := h hclosed₁
  ⟨hclosed₀, hinv₁ ∘ hinv₀⟩

/-- It is passed on where the clients keep their places. -/
theorem PassesOn.keeps {s : Server} {clients : List Conn} {effects : List Effect}
    (h : Keeps s.clients clients effects) :
    PassesOn s { s with clients, log := s.log ++ effects } :=
  fun hclosed => ⟨hclosed.of_append, fun hinv => hinv.keeps h⟩

/-- It is passed on where the server ends: `ServerTerminated` opens and closes nothing. -/
theorem PassesOn.terminated (s : Server) (type : CloseType) :
    PassesOn s { s with endServer := true, log := s.log ++ [.enqueue (.serverTerminated type)] } :=
  fun hclosed =>
    ⟨hclosed.of_append, fun hinv => hinv.silent true (by simp [Effect.Quiet]) (by simp)⟩

/-- It is passed on by `IncommingConnection`. -/
theorem PassesOn.incommingConnection (isWebSocket : Bool) (s : Server) (accepted : List Nat) :
    PassesOn s (incommingConnection isWebSocket s accepted) := fun hclosed =>
  ⟨acceptsClosed_of_incommingConnection hclosed, fun hinv =>
    hinv.incommingConnection isWebSocket hclosed⟩

/-- **Each event passes the invariant on.** -/
theorem PassesOn.handleEvent {s s' : Server} {ev : EpollEvent}
    (h : handleEvent s ev = .ok s') : PassesOn s s' := by
  cases handleEvent_does h with
  | hangUp _ => simpa using PassesOn.keeps (removeClient_keeps ev.fd s.clients)
  | terminate => exact .terminated s .closed
  | accept isWebSocket => exact .incommingConnection isWebSocket s ev.accepted
  | ignore => exact .refl s
  | scan _ hscan => exact .keeps (scanClients_keeps hscan)

/-- So do all the events of one `epoll_wait`. -/
theorem PassesOn.events {s s' : Server} {events : List EpollEvent}
    (h : run Network.handleEvent s events = .ok s') : PassesOn s s' :=
  run_rel PassesOn.refl PassesOn.trans (fun _ _ _ => PassesOn.handleEvent) h

/-- `UpdateClients` passes it on: what it closes it also erases. -/
theorem PassesOn.updateClients (s : Server) : PassesOn s (updateClients s) := fun hclosed => by
  refine ⟨?_, TableInv.updateClients⟩
  rw [updateClients_eq] at hclosed
  exact hclosed.of_append

/-- The end of a turn passes it on. -/
theorem PassesOn.endTurn (s : Server) : PassesOn s (endTurn s) := by
  rw [Network.endTurn]
  split_ifs
  · -- The table is emptied; whatever is closed here belonged to it.
    refine fun hclosed => ⟨hclosed.of_append, fun hinv => ⟨⟨List.nodup_nil, ?_, ?_⟩, ?_⟩⟩
    · simp [cleanup]
    · simp [cleanup]
    · refine eachEffect_append.mpr ⟨hinv.reads, ?_⟩
      generalize Descriptors.after _ s.log = t
      induction s.clients.filter Conn.isConnected generalizing t with
      | nil => trivial
      | cons conn conns ih => exact ⟨trivial, ih _⟩
  · exact .refl s

/-- **Every action of the server passes the invariant on.** -/
theorem PassesOn.step {s s' : Server} {action : Action} (h : s.step action = .ok s') :
    PassesOn s s' := by
  cases Server.step_does h with
  | nothing => exact .refl s
  | batch _ hrun =>
    exact (PassesOn.events hrun).trans _ _ _
      ((PassesOn.updateClients _).trans _ _ _ (PassesOn.endTurn _))
  | waitFailed retry => exact (PassesOn.terminated s .waitSockFailed).trans _ _ _ (.endTurn _)
  | sendToAllClients data wsOnly answers =>
    exact .keeps (sendToClients_keeps data wsOnly answers 0 s.clients)

/-- **So does every run.** -/
theorem PassesOn.actions {s s' : Server} {actions : List Action}
    (h : run Server.step s actions = .ok s') : PassesOn s s' :=
  run_rel PassesOn.refl PassesOn.trans (fun _ _ _ => PassesOn.step) h

/-- Clients on distinct descriptors, each open for its client. -/
structure DistinctOpen (s : Server) : Prop where
  distinct : (s.clients.map (·.peer.socket)).Nodup
  isOpen : ∀ conn ∈ s.clients, descriptors s.log conn.peer.socket = some conn.serial

/-- The invariant says in particular that the clients sit on distinct descriptors, each open for its
    client. -/
theorem TableInv.distinctOpen {s : Server} (h : TableInv s) : DistinctOpen s where
  distinct := by
    have := h.seated.nodup
    rwa [List.map_map] at this
  isOpen conn hconn := h.seated.isOpen _ (List.mem_map_of_mem hconn)

/-- `UpdateClients` erases the clients marked for deletion and no other, keeps the order, and takes
    each erased client out of `epoll` and closes it once. -/
structure ErasesMarked (s s' : Server) : Prop where
  clients : s'.clients = s.clients.filter (fun conn => conn.state ≠ .deleteLater)
  closes : ∃ effects, s'.log = s.log ++ effects ∧ ∀ conn ∈ s.clients,
    effects.count (.epollDel conn.peer.socket) = (if conn.state = .deleteLater then 1 else 0) ∧
    effects.count (.close conn.peer.socket) = (if conn.state = .deleteLater then 1 else 0)

/-- With it, what `UpdateClients` closes and erases is exactly the marked clients. -/
theorem TableInv.erasesMarked {s : Server} (h : TableInv s) :
    ErasesMarked s (Network.updateClients s) := by
  have hmust : ∀ conn ∈ s.clients, mustErase conn = (conn.state == .deleteLater) :=
    fun conn hconn => h.seated.mustErase_eq hconn
  have hnodup := h.distinctOpen.distinct
  rw [updateClients_eq]
  refine ⟨List.filter_congr fun conn hconn => ?_, _, rfl, ?_⟩
  · rw [hmust conn hconn]
    cases conn.state <;> rfl
  intro conn hconn
  have hcount : ((s.clients.filter mustErase).map (·.peer.socket)).count conn.peer.socket
      = if conn.state = .deleteLater then 1 else 0 := by
    by_cases hstate : conn.state = .deleteLater
    · have hmem : conn ∈ s.clients.filter mustErase :=
        List.mem_filter.mpr ⟨hconn, by simp [hmust conn hconn, hstate]⟩
      rw [if_pos hstate]
      exact List.count_eq_one_of_mem (hnodup.sublist (List.filter_sublist.map _))
        (List.mem_map_of_mem hmem)
    · rw [if_neg hstate]
      refine List.count_eq_zero_of_not_mem fun hmem => ?_
      -- Another client on the same descriptor would be the same client.
      obtain ⟨conn', hconn', heq⟩ := List.mem_map.mp hmem
      obtain ⟨hconn', herase⟩ := List.mem_filter.mp hconn'
      have hsame : conn' = conn := List.inj_on_of_nodup_map hnodup hconn' hconn heq
      rw [hsame, hmust conn hconn] at herase
      exact hstate (by simpa using herase)
  obtain ⟨hdel, hclose⟩ := count_closeClients (s.clients.filter mustErase) conn.peer.socket
  exact ⟨hdel.trans hcount, hclose.trans hcount⟩

/-- **The table of clients.**  As long as the system does not return a descriptor that is open, in
    every state that a run of batches and of calls of `SendToAllClients` comes to, also between
    two events of a batch, the clients are on distinct open descriptors; and `UpdateClients`, called
    there, erases exactly the clients marked for deletion. -/
theorem clientTable_invariant (tcpServer wsServer : Peer) (receiveFd : Int)
    (actions : List Action) (events : List EpollEvent) (s₀ s : Server)
    (hrun : run Server.step (.start tcpServer wsServer receiveFd) actions = .ok s₀)
    (hevents : run handleEvent s₀ events = .ok s) (hclosed : AcceptsClosed s.log) :
    DistinctOpen s ∧ DistinctOpen (updateClients s) ∧ ErasesMarked s (updateClients s) := by
  obtain ⟨hclosed₀, hinv⟩ := PassesOn.events hevents hclosed
  obtain ⟨-, hinv₀⟩ := PassesOn.actions hrun hclosed₀
  have h := hinv (hinv₀ (tableInv_start tcpServer wsServer receiveFd))
  exact ⟨h.distinctOpen, h.updateClients.distinctOpen, h.erasesMarked⟩

/-- Two clients, one of which hangs up in the batch in which a third one comes. -/
theorem clientTable_invariant_hangUp :
    ∃ s₀ s, run Server.step (.start ⟨3, false⟩ ⟨4, true⟩ 5) [.batch [.listening 3 [8, 9]]]
        = .ok s₀ ∧
      run handleEvent s₀ [.hangUp 8, .listening 3 [10]] = .ok s ∧
      DistinctOpen s ∧ DistinctOpen (updateClients s) ∧ ErasesMarked s (updateClients s) := by
  obtain ⟨s₀, hs₀⟩ : ∃ s₀, run Server.step (.start ⟨3, false⟩ ⟨4, true⟩ 5)
      [.batch [.listening 3 [8, 9]]] = .ok s₀ := ⟨_, rfl⟩
  obtain ⟨s, hs⟩ : ∃ s, run handleEvent s₀ [.hangUp 8, .listening 3 [10]] = .ok s := by
    cases hs₀
    exact ⟨_, rfl⟩
  refine ⟨s₀, s, hs₀, hs, clientTable_invariant _ _ _ _ _ _ _ hs₀ hs ?_⟩
  cases hs₀
  cases hs
  decide

end Icl.Network
