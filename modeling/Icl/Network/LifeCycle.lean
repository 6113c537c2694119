import Icl.Network.TcpServer
import Mathlib.Data.List.Nodup

namespace Icl.Network

open Icl.Cxx Icl.Transition

/-!
# The life cycle of a connection, as the application sees it

The application should see a connection open, then read from it, then close: `LifeCycle`.  The
server keeps this up as long as nothing happens to a WebSocket before its handshake is done.

* `ConnStep` — what handling one client may do to it and to the log;
* `Advance` — the same for the whole table, one client after the other;
* `Inv` — the invariant: a WebSocket that waits for its handshake has been announced to no one,
  every other client has been announced and not closed;
* `lifeCycle_of_clean` — every run whose steps leave the waiting WebSockets alone keeps the
  life cycle of every connection.
-/

/-! ### The jobs of one connection -/

/-- The kinds of jobs about a connection. -/
inductive JobKind where
  | newConnection | readData | clientClosed
  deriving DecidableEq, Repr

/-- The kind of the job, if it is about connection `n`. -/
def Job.kindFor (n : Nat) : Job → Option JobKind
  | .newConnection conn => if conn.serial = n then some .newConnection else none
  | .readData conn => if conn.serial = n then some .readData else none
  | .clientClosed conn => if conn.serial = n then some .clientClosed else none
  | .serverTerminated _ => none

/-- The jobs about connection `n`, in the order in which they are enqueued. -/
def jobKinds (n : Nat) (log : List Effect) : List JobKind :=
  log.filterMap fun
    | .enqueue job => job.kindFor n
    | _ => none

/-- **What the application should see**: the connection opens, is read from, and closes. -/
def LifeCycle (jobs : List JobKind) : Prop :=
  ∃ reads, jobs <+: .newConnection :: List.replicate reads .readData ++ [.clientClosed]

/-- The connection is open. -/
def IsOpen (jobs : List JobKind) : Prop :=
  ∃ reads, jobs = .newConnection :: List.replicate reads .readData

/-- A connection without jobs has a life cycle. -/
theorem lifeCycle_nil : LifeCycle [] := ⟨0, List.nil_prefix⟩

/-- A life cycle may still be going on. -/
theorem IsOpen.lifeCycle {jobs : List JobKind} (h : IsOpen jobs) : LifeCycle jobs := by
  obtain ⟨reads, rfl⟩ := h
  exact ⟨reads, List.prefix_append _ _⟩

/-- An open connection can be read from. -/
theorem IsOpen.read {jobs : List JobKind} (h : IsOpen jobs) (reads : Nat) :
    IsOpen (jobs ++ List.replicate reads .readData) := by
  obtain ⟨k, rfl⟩ := h
  exact ⟨k + reads, by simp [List.replicate_append_replicate]⟩

/-- An open connection can be closed. -/
theorem IsOpen.closed {jobs : List JobKind} (h : IsOpen jobs) :
    LifeCycle (jobs ++ [.clientClosed]) := by
  obtain ⟨reads, rfl⟩ := h
  exact ⟨reads, List.prefix_rfl⟩

@[simp] theorem jobKinds_nil (n : Nat) : jobKinds n [] = [] := rfl

/-- The jobs of a connection are read off the log piece by piece. -/
@[simp] theorem jobKinds_append (n : Nat) (es es' : List Effect) :
    jobKinds n (es ++ es') = jobKinds n es ++ jobKinds n es' :=
  List.filterMap_append

/-- An announcement is a job of the connection it announces. -/
@[simp] theorem jobKinds_newConnection (n : Nat) (conn : Conn) :
    jobKinds n [.enqueue (.newConnection conn)]
      = if conn.serial = n then [.newConnection] else [] := by
  simp only [jobKinds, List.filterMap_cons, List.filterMap_nil, Job.kindFor]
  split_ifs <;> rfl

/-- Data is a job of the connection it came from. -/
@[simp] theorem jobKinds_readData (n : Nat) (conn : Conn) :
    jobKinds n [.enqueue (.readData conn)] = if conn.serial = n then [.readData] else [] := by
  simp only [jobKinds, List.filterMap_cons, List.filterMap_nil, Job.kindFor]
  split_ifs <;> rfl

/-- An end is a job of the connection that ended. -/
@[simp] theorem jobKinds_clientClosed (n : Nat) (conn : Conn) :
    jobKinds n [.enqueue (.clientClosed conn)]
      = if conn.serial = n then [.clientClosed] else [] := by
  simp only [jobKinds, List.filterMap_cons, List.filterMap_nil, Job.kindFor]
  split_ifs <;> rfl

/-- The end of the server is a job of no connection. -/
@[simp] theorem jobKinds_serverTerminated (n : Nat) (type : CloseType) :
    jobKinds n [.enqueue (.serverTerminated type)] = [] := rfl

/-- Closing a descriptor is no job. -/
@[simp] theorem jobKinds_close (n : Nat) (socket : Int) :
    jobKinds n [.epollDel socket, .close socket] = [] := rfl

/-- What the application hears of a connection just accepted. -/
theorem jobKinds_acceptClient (n : Nat) (conn : Conn) :
    jobKinds n (acceptClient conn)
      = if conn.peer.isWebSocket = false ∧ conn.serial = n then [.newConnection] else [] := by
  rw [acceptClient, jobKinds_append]
  have hsilent : jobKinds n [.accepted conn.serial conn.peer.socket, .epollAdd conn.peer.socket]
      = [] := rfl
  rw [hsilent, List.nil_append]
  cases conn.peer.isWebSocket <;> simp

/-- Sending is no job. -/
@[simp] theorem jobKinds_sent (n : Nat) (peer : Peer) (w : Option Written) :
    jobKinds n (w.toList.map (sentEffect peer)) = [] := by
  cases w <;> rfl

/-! ### What one client may do -/

/-- A WebSocket whose handshake has not been handled yet. -/
def Conn.AwaitsHandshake (conn : Conn) : Prop :=
  conn.peer.isWebSocket = true ∧ conn.state = .closed

instance (conn : Conn) : Decidable conn.AwaitsHandshake := inferInstanceAs (Decidable (_ ∧ _))

/-- What handling one client may do to it and to the log: a client that waits for its handshake
    goes on waiting unseen, or is announced; another one is read from. -/
structure ConnStep (conn conn' : Conn) (effects : List Effect) : Prop where
  serial : conn'.serial = conn.serial
  others : ∀ n ≠ conn.serial, jobKinds n effects = []
  waiting : conn.AwaitsHandshake →
    conn'.AwaitsHandshake ∧ jobKinds conn.serial effects = [] ∨
    ¬ conn'.AwaitsHandshake ∧ jobKinds conn.serial effects = [.newConnection]
  opened : ¬ conn.AwaitsHandshake → ¬ conn'.AwaitsHandshake ∧
    ∃ reads, jobKinds conn.serial effects = List.replicate reads .readData

/-- A client that nothing happens to. -/
theorem ConnStep.refl (conn : Conn) : ConnStep conn conn [] where
  serial := rfl
  others _ _ := rfl
  waiting h := .inl ⟨h, rfl⟩
  opened h := ⟨h, 0, rfl⟩

/-- A client marked for deletion, without a word to the application. -/
theorem ConnStep.deleteLater {conn : Conn} (h : ¬ conn.AwaitsHandshake) {effects : List Effect}
    (hsilent : ∀ n, jobKinds n effects = []) :
    ConnStep conn { conn with state := .deleteLater } effects where
  serial := rfl
  others n _ := hsilent n
  waiting hw := absurd hw h
  opened _ := ⟨by simp [Conn.AwaitsHandshake], 0, hsilent _⟩

/-- A frame does not change whose connection it is, and never makes it wait again. -/
theorem decodeWsDataConn_keeps {mBuff : Bytes} {conn conn' : Conn} {answers : Nat → SendAnswer}
    {hasData : Bool} {w : Option Written}
    (h : decodeWsDataConn mBuff conn answers = .ok (hasData, conn', w)) :
    conn'.serial = conn.serial ∧ (conn'.AwaitsHandshake → conn.AwaitsHandshake) := by
  obtain ⟨⟨res, buf, payload⟩, -, h⟩ := bind_eq_ok.mp h
  cases res <;> cases h <;> simp [Conn.AwaitsHandshake]

/-- The next `recv` returns an upgrade request, and its answer is sent in full. -/
def HandshakeSucceeds (answers : ClientAnswers) : Prop :=
  (recv [] 0 answers.recv).1 = true ∧
    ∃ w, proceedWsHandshake (recv [] 0 answers.recv).2 answers.send = .ok (true, w)

/-- `IncommingData`, if it finds an upgrade request on a client that waits for one. -/
theorem incommingData_connStep {conn conn' : Conn} {answers : ClientAnswers}
    {effects : List Effect} (hclean : conn.AwaitsHandshake → HandshakeSucceeds answers)
    (h : incommingData conn answers = .ok (conn', effects)) : ConnStep conn conn' effects := by
  rw [incommingData] at h
  by_cases hwait : conn.AwaitsHandshake
  · -- The handshake succeeds, and the connection is announced.
    obtain ⟨hws, hclosed⟩ := hwait
    obtain ⟨hrecv, w, hshake⟩ := hclean ⟨hws, hclosed⟩
    rw [← Prod.mk.eta (p := recv [] 0 answers.recv), hrecv] at h
    have hisClosed : conn.isClosed = true := by simp [Conn.isClosed, hclosed]
    simp only [hws, hisClosed, if_true, incommingHandshake, hshake, ok_bind] at h
    cases h
    exact {
      serial := rfl
      others := fun n hn => by simp [hn.symm]
      waiting := fun _ => .inr ⟨by simp [Conn.AwaitsHandshake], by simp⟩
      opened := fun hopen => absurd ⟨hws, hclosed⟩ hopen }
  · rcases hrecv : recv [] 0 answers.recv with ⟨_ | _, mBuff⟩
    · rw [hrecv] at h
      cases h
      exact .deleteLater hwait fun _ => rfl
    · simp only [hrecv] at h
      by_cases hws : conn.peer.isWebSocket = true
      · -- An open WebSocket: a frame, which is handed over only if it has data.
        have hnotClosed : conn.isClosed = false := by
          have : conn.state ≠ .closed := fun hstate => hwait ⟨hws, hstate⟩
          simpa [Conn.isClosed] using this
        simp only [hws, hnotClosed, if_true, Bool.false_eq_true, if_false, incommingFrame] at h
        obtain ⟨⟨hasData, conn₁, w⟩, hdecode, h⟩ := bind_eq_ok.mp h
        obtain ⟨hserial, hwait₁⟩ := decodeWsDataConn_keeps hdecode
        cases h
        exact {
          serial := hserial
          others := fun n hn => by cases hasData <;> simp [hserial, hn.symm]
          waiting := fun hw => absurd hw hwait
          opened := fun _ => ⟨fun hw => hwait (hwait₁ hw), hasData.toNat, by
            cases hasData <;> simp [hserial]⟩ }
      · simp only [hws, Bool.false_eq_true, if_false, deliverData] at h
        cases h
        exact {
          serial := rfl
          others := fun n hn => by simp [hn.symm]
          waiting := fun hw => absurd hw hwait
          opened := fun _ => ⟨fun hw => hws hw.1, 1, by simp⟩ }

/-! ### What the table of clients may do -/

section Table

variable {ι : Type} {serial : ι → Nat} {effects : ι → List Effect} {l : List ι}

/-- Among effects that each concern their own connection, a connection without any gets no
    job. -/
theorem jobKinds_flatMap_not_mem
    (hown : ∀ i ∈ l, ∀ n ≠ serial i, jobKinds n (effects i) = []) {n : Nat}
    (hn : n ∉ l.map serial) : jobKinds n (l.flatMap effects) = [] := by
  induction l with
  | nil => rfl
  | cons i l ih =>
    obtain ⟨hi, hl⟩ := List.forall_mem_cons.mp hown
    obtain ⟨hni, hnl⟩ : n ≠ serial i ∧ n ∉ l.map serial := by simpa using hn
    rw [List.flatMap_cons, jobKinds_append, hi n hni, ih hl hnl, List.append_nil]

/-- Among effects that each concern their own connection, a connection gets the jobs of its
    own. -/
theorem jobKinds_flatMap_mem (hown : ∀ i ∈ l, ∀ n ≠ serial i, jobKinds n (effects i) = [])
    (hnodup : (l.map serial).Nodup) {i : ι} (hi : i ∈ l) :
    jobKinds (serial i) (l.flatMap effects) = jobKinds (serial i) (effects i) := by
  induction l with
  | nil => simp at hi
  | cons i' l ih =>
    obtain ⟨hi', hl⟩ := List.forall_mem_cons.mp hown
    obtain ⟨hnotMem, hnodup⟩ := List.nodup_cons.mp hnodup
    rw [List.flatMap_cons, jobKinds_append]
    rcases List.mem_cons.mp hi with rfl | hi
    · rw [jobKinds_flatMap_not_mem hl hnotMem, List.append_nil]
    · have hne : serial i ≠ serial i' := fun h => hnotMem (h ▸ List.mem_map_of_mem hi)
      rw [hi' _ hne, ih hl hnodup hi, List.nil_append]

end Table

/-- A client, what it has become, and what was done for it meanwhile. -/
structure ClientStep where
  before : Conn
  after : Conn
  effects : List Effect
  step : ConnStep before after effects

/-- Each client of the table has made one step. -/
def Advance (conns conns' : List Conn) (effects : List Effect) : Prop :=
  ∃ l : List ClientStep, l.map ClientStep.before = conns ∧ l.map ClientStep.after = conns' ∧
    l.flatMap ClientStep.effects = effects

/-- Without clients nothing has to be done. -/
theorem Advance.nil : Advance [] [] [] := ⟨[], rfl, rfl, rfl⟩

/-- Clients are dealt with one by one, and the jobs come in that order. -/
theorem Advance.cons {conn conn' : Conn} {conns conns' : List Conn} {es es' : List Effect}
    (hconn : ConnStep conn conn' es) (hconns : Advance conns conns' es') :
    Advance (conn :: conns) (conn' :: conns') (es ++ es') := by
  obtain ⟨l, rfl, rfl, rfl⟩ := hconns
  exact ⟨⟨conn, conn', es, hconn⟩ :: l, rfl, rfl, rfl⟩

/-- The scan of a readable descriptor, if no client that waits for its handshake fails it. -/
theorem scanClients_advance {fd : Int} {answers : Nat → ClientAnswers} {j : Nat}
    {conns conns' : List Conn} {effects : List Effect}
    (hclean : ∀ i conn, conns[i]? = some conn → conn.peer.socket = fd → conn.AwaitsHandshake →
      HandshakeSucceeds (answers (j + i)))
    (h : scanClients fd answers j conns = .ok (conns', effects)) :
    Advance conns conns' effects := by
  induction conns generalizing j conns' effects with
  | nil =>
    cases h
    exact .nil
  | cons conn conns ih =>
    obtain ⟨⟨conn₁, es⟩, hconn, h⟩ := bind_eq_ok.mp h
    obtain ⟨⟨conns₁, es'⟩, hconns, h⟩ := bind_eq_ok.mp h
    cases h
    -- The first client takes its own turn, the others follow.
    refine .cons ?_ (ih (fun i c hi => ?_) hconns)
    · -- Clients on other descriptors are passed over.
      rw [scanClient] at hconn
      split_ifs at hconn with hfd
      · exact incommingData_connStep (hclean 0 conn rfl hfd) hconn
      · cases hconn
        exact .refl conn
    · have := hclean (i + 1) c hi
      rwa [← Nat.add_assoc, Nat.add_right_comm] at this

/-- The removal of the clients of a descriptor, if none of them waits for its handshake. -/
theorem removeClient_advance {fd : Int} {conns : List Conn}
    (hclean : ∀ conn ∈ conns, conn.peer.socket = fd → ¬ conn.AwaitsHandshake) :
    Advance conns (removeClient fd conns) [] := by
  induction conns with
  | nil => exact .nil
  | cons conn conns ih =>
    obtain ⟨hconn, hconns⟩ := List.forall_mem_cons.mp hclean
    refine .cons (?_ : ConnStep conn _ []) (ih hconns)
    dsimp only
    split_ifs with hfd
    · exact .deleteLater (hconn hfd) fun _ => rfl
    · exact .refl conn

/-- A send, if it does not fail for a client that waits for its handshake. -/
theorem sendToClient_connStep {data : Bytes} {wsOnly : Bool} {conn : Conn}
    {answers : Nat → SendAnswer}
    (hclean : conn.AwaitsHandshake → (sendToClient data wsOnly conn answers).1 = true) :
    ConnStep conn (sendToClient data wsOnly conn answers).2.1
      (sendToClient data wsOnly conn answers).2.2 := by
  unfold sendToClient at hclean ⊢
  by_cases hsend : (!wsOnly || conn.peer.isWebSocket) = true
  · simp only [if_pos hsend] at hclean ⊢
    split_ifs with hok
    · exact {
        serial := rfl
        others := fun n _ => jobKinds_sent n _ _
        waiting := fun hw => .inl ⟨hw, jobKinds_sent _ _ _⟩
        opened := fun hw => ⟨hw, 0, jobKinds_sent _ _ _⟩ }
    · exact .deleteLater (fun hw => hok (hclean hw)) fun n => jobKinds_sent n _ _
  · simp only [if_neg hsend]
    exact .refl conn

/-- A broadcast, if it fails for no client that waits for its handshake. -/
theorem sendToClients_advance {data : Bytes} {wsOnly : Bool} {answers : Nat → Nat → SendAnswer}
    {j : Nat} {conns : List Conn}
    (hclean : ∀ i conn, conns[i]? = some conn → conn.AwaitsHandshake →
      (sendToClient data wsOnly conn (answers (j + i))).1 = true) :
    Advance conns (sendToClients data wsOnly answers j conns).2.1
      (sendToClients data wsOnly answers j conns).2.2 := by
  induction conns generalizing j with
  | nil => exact .nil
  | cons conn conns ih =>
    refine .cons (sendToClient_connStep (hclean 0 conn rfl)) (ih fun i c hi => ?_)
    have := hclean (i + 1) c hi
    rwa [← Nat.add_assoc, Nat.add_right_comm] at this

/-! ### The invariant -/

/-- What holds of the server between two events. -/
structure Inv (s : Server) : Prop where
  /-- Serials are handed out in order, each once. -/
  serial_lt : ∀ conn ∈ s.clients, conn.serial < s.nextSerial
  nodup : (s.clients.map Conn.serial).Nodup
  unused : ∀ n ≥ s.nextSerial, jobKinds n s.log = []
  /-- A WebSocket that waits for its handshake has been announced to no one. -/
  waiting : ∀ conn ∈ s.clients, conn.AwaitsHandshake → jobKinds conn.serial s.log = []
  /-- Every other client has been announced, and not closed. -/
  opened : ∀ conn ∈ s.clients, ¬ conn.AwaitsHandshake → IsOpen (jobKinds conn.serial s.log)
  lifeCycle : ∀ n, LifeCycle (jobKinds n s.log)

/-- Before the first action there is no client and no job. -/
theorem inv_start (tcpServer wsServer : Peer) (receiveFd : Int) :
    Inv (Server.start tcpServer wsServer receiveFd) where
  serial_lt _ h := by simp [Server.start] at h
  nodup := List.nodup_nil
  unused _ _ := rfl
  waiting _ h := by simp [Server.start] at h
  opened _ h := by simp [Server.start] at h
  lifeCycle _ := lifeCycle_nil

/-- Effects that say nothing to the application about a connection. -/
theorem Inv.silent {s : Server} (h : Inv s) {effects : List Effect} (endServer : Bool)
    (hsilent : ∀ n, jobKinds n effects = []) :
    Inv { s with endServer, log := s.log ++ effects } where
  serial_lt := h.serial_lt
  nodup := h.nodup
  unused n hn := by simp [hsilent, h.unused n hn]
  waiting c hc hw := by simp [hsilent, h.waiting c hc hw]
  opened c hc hw := by simpa [hsilent] using h.opened c hc hw
  lifeCycle n := by simpa [hsilent] using h.lifeCycle n

/-- **One step of each client** keeps the invariant. -/
theorem Inv.advance {s : Server} (h : Inv s) {clients : List Conn} {effects : List Effect}
    (hadvance : Advance s.clients clients effects) :
    Inv { s with clients, log := s.log ++ effects } := by
  obtain ⟨l, hbefore, rfl, rfl⟩ := hadvance
  have hserials : l.map (fun t => t.after.serial) = l.map (fun t => t.before.serial) :=
    List.map_congr_left fun t _ => t.step.serial
  have hclients : s.clients.map Conn.serial = l.map (fun t => t.before.serial) := by
    rw [← hbefore, List.map_map]
    rfl
  have hnodup : (l.map fun t => t.before.serial).Nodup := hclients ▸ h.nodup
  have hmem : ∀ t ∈ l, t.before ∈ s.clients := fun t ht => hbefore ▸ List.mem_map_of_mem ht
  have hown : ∀ t ∈ l, ∀ n ≠ t.before.serial, jobKinds n t.effects = [] :=
    fun t _ => t.step.others
  -- The jobs of a client after the step are the old ones and those of its own step.
  have hjobs : ∀ t ∈ l, jobKinds t.before.serial (s.log ++ l.flatMap ClientStep.effects)
      = jobKinds t.before.serial s.log ++ jobKinds t.before.serial t.effects := fun t ht => by
    rw [jobKinds_append, jobKinds_flatMap_mem hown hnodup ht]
  have hnone : ∀ n, n ∉ s.clients.map Conn.serial →
      jobKinds n (s.log ++ l.flatMap ClientStep.effects) = jobKinds n s.log := fun n hn => by
    rw [jobKinds_append, jobKinds_flatMap_not_mem hown (hclients ▸ hn), List.append_nil]
  have hopened : ∀ t ∈ l, ¬ t.after.AwaitsHandshake →
      IsOpen (jobKinds t.before.serial (s.log ++ l.flatMap ClientStep.effects)) := by
    intro t ht hw
    rw [hjobs t ht]
    by_cases hwait : t.before.AwaitsHandshake
    · rcases t.step.waiting hwait with ⟨hw', -⟩ | ⟨-, hnew⟩
      · exact absurd hw' hw
      · rw [h.waiting _ (hmem t ht) hwait, hnew]
        exact ⟨0, rfl⟩
    · obtain ⟨-, reads, hreads⟩ := t.step.opened hwait
      rw [hreads]
      exact (h.opened _ (hmem t ht) hwait).read reads
  have hwaiting : ∀ t ∈ l, t.after.AwaitsHandshake →
      jobKinds t.before.serial (s.log ++ l.flatMap ClientStep.effects) = [] := by
    intro t ht hw
    by_cases hwait : t.before.AwaitsHandshake
    · rcases t.step.waiting hwait with ⟨-, hnone⟩ | ⟨hw', -⟩
      · rw [hjobs t ht, h.waiting _ (hmem t ht) hwait, hnone, List.append_nil]
      · exact absurd hw hw'
    · exact absurd hw (t.step.opened hwait).1
  constructor
  case serial_lt =>
    intro c hc
    obtain ⟨t, ht, rfl⟩ := List.mem_map.mp hc
    exact t.step.serial ▸ h.serial_lt _ (hmem t ht)
  case nodup =>
    rw [List.map_map]
    exact hserials ▸ hnodup
  case unused =>
    intro n hn
    refine (hnone n fun hmem => ?_).trans (h.unused n hn)
    obtain ⟨c, hc, rfl⟩ := List.mem_map.mp hmem
    exact absurd (h.serial_lt c hc) (not_lt.mpr hn)
  case waiting =>
    intro c hc hw
    obtain ⟨t, ht, rfl⟩ := List.mem_map.mp hc
    exact t.step.serial ▸ hwaiting t ht hw
  case opened =>
    intro c hc hw
    obtain ⟨t, ht, rfl⟩ := List.mem_map.mp hc
    exact t.step.serial ▸ hopened t ht hw
  case lifeCycle =>
    intro n
    by_cases hn : n ∈ s.clients.map Conn.serial
    · rw [hclients] at hn
      obtain ⟨t, ht, rfl⟩ := List.mem_map.mp hn
      by_cases hw : t.after.AwaitsHandshake
      · exact hwaiting t ht hw ▸ lifeCycle_nil
      · exact (hopened t ht hw).lifeCycle
    · exact hnone n hn ▸ h.lifeCycle n

/-- The table grows by a client that waits, or that is announced at once. -/
theorem Inv.accept {s : Server} (h : Inv s) (isWebSocket : Bool) (newSd : Nat) :
    Inv { s with
      clients := s.clients ++ [.new s.nextSerial newSd isWebSocket]
      nextSerial := s.nextSerial + 1
      log := s.log ++ acceptClient (.new s.nextSerial newSd isWebSocket) } := by
  have hother : ∀ n ≠ s.nextSerial,
      jobKinds n (s.log ++ acceptClient (.new s.nextSerial newSd isWebSocket))
        = jobKinds n s.log := fun n hn => by
    simp [jobKinds_acceptClient, Conn.new, hn.symm]
  -- A plain connection is announced at once, a WebSocket after its handshake.
  have hself : jobKinds s.nextSerial
      (s.log ++ acceptClient (.new s.nextSerial newSd isWebSocket))
        = if isWebSocket then [] else [.newConnection] := by
    cases isWebSocket <;>
      simp [jobKinds_acceptClient, Conn.new, h.unused s.nextSerial le_rfl]
  constructor
  case serial_lt =>
    intro c hc
    rcases List.mem_append.mp hc with hc | hc
    · exact Nat.lt_succ_of_lt (h.serial_lt c hc)
    · simp [List.mem_singleton.mp hc, Conn.new]
  case nodup =>
    rw [List.map_append, List.nodup_append]
    refine ⟨h.nodup, by simp, ?_⟩
    rintro n hn m hm rfl
    obtain ⟨c, hc, rfl⟩ := List.mem_map.mp hn
    have hm : c.serial = s.nextSerial := by simpa [Conn.new] using hm
    exact absurd (h.serial_lt c hc) (by omega)
  case unused =>
    intro n hn
    change s.nextSerial + 1 ≤ n at hn
    exact (hother n (by omega)).trans (h.unused n (by omega))
  case waiting =>
    intro c hc hw
    rcases List.mem_append.mp hc with hc | hc
    · have := h.serial_lt c hc
      exact (hother _ (by omega)).trans (h.waiting c hc hw)
    · rw [List.mem_singleton.mp hc] at hw ⊢
      exact hself.trans (if_pos hw.1)
  case opened =>
    intro c hc hw
    rcases List.mem_append.mp hc with hc | hc
    · have := h.serial_lt c hc
      rw [hother _ (by omega)]
      exact h.opened c hc hw
    · rw [List.mem_singleton.mp hc] at hw ⊢
      have hws : isWebSocket = false := by simpa [Conn.AwaitsHandshake, Conn.new] using hw
      exact ⟨0, hself.trans (by simp [hws])⟩
  case lifeCycle =>
    intro n
    by_cases hn : n = s.nextSerial
    · rw [hn, hself]
      cases isWebSocket
      · exact IsOpen.lifeCycle ⟨0, rfl⟩
      · exact lifeCycle_nil
    · rw [hother n hn]
      exact h.lifeCycle n

/-- **Accepting keeps the invariant**: TCP clients are announced at once, WebSocket clients wait. -/
theorem Inv.incommingConnection {s : Server} (h : Inv s) (isWebSocket : Bool)
    (accepted : List Nat) : Inv (incommingConnection isWebSocket s accepted) := by
  induction accepted generalizing s with
  | nil => exact h
  | cons newSd accepted ih => exact ih (h.accept isWebSocket newSd)

/-! ### The end of a batch -/

/-- The erase loop removes the clients to erase and closes each of them, in order. -/
theorem updateClientsLoop_eq {fuel : Nat} {conns : List Conn}
    (hfuel : (conns.filter mustErase).length ≤ fuel) :
    updateClientsLoop fuel conns
      = (conns.filter (fun c => !mustErase c), (conns.filter mustErase).flatMap closeClient) := by
  induction fuel generalizing conns with
  | zero =>
    have hnone := List.filter_eq_nil_iff.mp (List.length_eq_zero_iff.mp (Nat.le_zero.mp hfuel))
    rw [updateClientsLoop, List.filter_eq_nil_iff.mpr hnone,
      List.filter_eq_self.mpr fun c hc => by simpa using hnone c hc]
    rfl
  | succ fuel ih =>
    rw [updateClientsLoop]
    cases hfind : conns.find? mustErase with
    | none =>
      have hnone := List.find?_eq_none.mp hfind
      rw [List.filter_eq_nil_iff.mpr hnone,
        List.filter_eq_self.mpr fun c hc => by simpa using hnone c hc]
      rfl
    | some conn =>
      -- The loop starts over behind each erasure; no client before the first one is to erase.
      obtain ⟨hconn, before, after, rfl, hbefore⟩ := List.find?_eq_some_iff_append.mp hfind
      have hbefore' : ∀ c ∈ before, mustErase c = false := fun c hc => by simpa using hbefore c hc
      have herase : (before ++ conn :: after).eraseP mustErase = before ++ after := by
        rw [List.eraseP_append_right _ fun c hc => by simp [hbefore' c hc],
          List.eraseP_cons_of_pos hconn]
      have hkeep : before.filter mustErase = [] :=
        List.filter_eq_nil_iff.mpr fun c hc => by simp [hbefore' c hc]
      simp only [List.filter_append, List.filter_cons_of_pos hconn, hkeep, List.nil_append,
        List.length_cons] at hfuel
      have hrest := ih (show ((before ++ after).filter mustErase).length ≤ fuel by
        simpa [hkeep] using hfuel)
      simp [herase, hrest, hkeep, hconn]

/-- `UpdateClients` erases the marked clients and tells of those that were connected. -/
theorem updateClients_eq (s : Server) :
    updateClients s = { s with
      clients := s.clients.filter (fun c => !mustErase c)
      log := s.log ++ (s.clients.filter mustErase).flatMap closeClient } := by
  rw [updateClients, updateClientsLoop_eq (List.length_filter_le _ _)]

/-- What closing a client says to the application. -/
theorem jobKinds_closeClient (n : Nat) (conn : Conn) :
    jobKinds n (closeClient conn)
      = if conn.isConnected ∧ conn.serial = n then [.clientClosed] else [] := by
  rw [closeClient, jobKinds_append]
  by_cases hconn : conn.isConnected = true <;> simp [hconn]

/-- **The end of a batch** keeps the invariant: only announced clients are closed, once. -/
theorem Inv.updateClients {s : Server} (h : Inv s) : Inv (updateClients s) := by
  rw [updateClients_eq]
  have hown : ∀ c ∈ s.clients.filter mustErase, ∀ n ≠ c.serial, jobKinds n (closeClient c) = [] :=
    fun c _ n hn => by simp [jobKinds_closeClient, hn.symm]
  have hnodup : ((s.clients.filter mustErase).map Conn.serial).Nodup :=
    h.nodup.sublist (List.filter_sublist.map _)
  -- For a connection that is not erased nothing is enqueued.
  have hkept : ∀ n, n ∉ (s.clients.filter mustErase).map Conn.serial →
      jobKinds n (s.log ++ (s.clients.filter mustErase).flatMap closeClient)
        = jobKinds n s.log := fun n hn => by
    rw [jobKinds_append, jobKinds_flatMap_not_mem hown hn, List.append_nil]
  have hstays : ∀ c ∈ s.clients, mustErase c = false →
      c.serial ∉ (s.clients.filter mustErase).map Conn.serial := fun c hc hkeep hmem => by
    obtain ⟨c', hc', heq⟩ := List.mem_map.mp hmem
    obtain ⟨hc', herase⟩ := List.mem_filter.mp hc'
    rw [List.inj_on_of_nodup_map h.nodup hc' hc heq, hkeep] at herase
    exact absurd herase (by simp)
  constructor
  case serial_lt => exact fun c hc => h.serial_lt c (List.mem_of_mem_filter hc)
  case nodup => exact h.nodup.sublist (List.filter_sublist.map _)
  case unused =>
    intro n hn
    refine (hkept n fun hmem => ?_).trans (h.unused n hn)
    obtain ⟨c, hc, rfl⟩ := List.mem_map.mp hmem
    exact absurd (h.serial_lt c (List.mem_of_mem_filter hc)) (not_lt.mpr hn)
  case waiting =>
    intro c hc hw
    obtain ⟨hc, hkeep⟩ := List.mem_filter.mp hc
    rw [hkept _ (hstays c hc (by simpa using hkeep))]
    exact h.waiting c hc hw
  case opened =>
    intro c hc hw
    obtain ⟨hc, hkeep⟩ := List.mem_filter.mp hc
    rw [hkept _ (hstays c hc (by simpa using hkeep))]
    exact h.opened c hc hw
  case lifeCycle =>
    intro n
    by_cases hn : n ∈ (s.clients.filter mustErase).map Conn.serial
    · obtain ⟨c, hc, rfl⟩ := List.mem_map.mp hn
      obtain ⟨hmem, herase⟩ := List.mem_filter.mp hc
      rw [jobKinds_append, jobKinds_flatMap_mem hown hnodup hc, jobKinds_closeClient]
      by_cases hconn : c.isConnected = true
      · -- A connected client to erase is marked for deletion, so that its handshake is over.
        have hvalid : c.peer.isValid = true := by
          by_contra hinvalid
          simp [Conn.isConnected, hinvalid] at hconn
        have hstate : c.state = .deleteLater := by simpa [mustErase, hvalid] using herase
        have hdone : ¬ c.AwaitsHandshake := by simp [Conn.AwaitsHandshake, hstate]
        rw [if_pos ⟨hconn, rfl⟩]
        exact (h.opened c hmem hdone).closed
      · rw [if_neg fun hc => hconn hc.1, List.append_nil]
        exact h.lifeCycle _
    · rw [hkept n hn]
      exact h.lifeCycle n

/-! ### Whole runs -/

/-- The event is handled by the scan for readable clients. -/
def ReadsClients (s : Server) (ev : EpollEvent) : Prop :=
  ¬ (ev.hupOrErr || ev.rdHup) ∧ s.receiveFd ≠ ev.fd ∧ s.tcpServer.socket ≠ ev.fd ∧
    s.wsServer.socket ≠ ev.fd

/-- The event neither hangs up on a WebSocket that waits for its handshake, nor gives it
    anything but a handshake that succeeds. -/
structure CleanEvent (s : Server) (ev : EpollEvent) : Prop where
  hangUp : ev.hupOrErr || ev.rdHup →
    ∀ conn ∈ s.clients, conn.peer.socket = ev.fd → ¬ conn.AwaitsHandshake
  handshake : ReadsClients s ev → ∀ j conn, s.clients[j]? = some conn →
    conn.peer.socket = ev.fd → conn.AwaitsHandshake → HandshakeSucceeds (ev.clients j)

/-- The action leaves alone the WebSockets that wait for their handshake. -/
def CleanAction (s : Server) : Action → Prop
  | .batch events => s.endServer = false → Along handleEvent CleanEvent s events
  | .waitFailed _ => True
  | .sendToAllClients data wsOnly answers => ∀ j conn, s.clients[j]? = some conn →
      conn.AwaitsHandshake → (sendToClient data wsOnly conn (answers j)).1 = true

/-- **Each clean event keeps the invariant.** -/
theorem Inv.handleEvent {s s' : Server} {ev : EpollEvent} (hclean : CleanEvent s ev)
    (h : handleEvent s ev = .ok s') (hinv : Inv s) : Inv s' := by
  cases handleEvent_does h with
  | hangUp hhup => simpa using hinv.advance (removeClient_advance (hclean.hangUp hhup))
  | terminate => exact hinv.silent true fun _ => rfl
  | accept isWebSocket => exact hinv.incommingConnection isWebSocket ev.accepted
  | ignore => exact hinv
  | scan hreads hscan =>
    refine hinv.advance (scanClients_advance (fun i conn hi hfd hw => ?_) hscan)
    rw [Nat.zero_add]
    exact hclean.handshake hreads i conn hi hfd hw

/-- The end of a turn keeps the invariant. -/
theorem Inv.endTurn {s : Server} (h : Inv s) : Inv (endTurn s) := by
  rw [Network.endTurn]
  split_ifs
  · -- The table is emptied; closing a socket here is not told to the application.
    have hsilent : ∀ n, jobKinds n ((s.clients.filter Conn.isConnected).map
        fun c => .close c.peer.socket) = [] := fun n => by
      simp [jobKinds, List.filterMap_map]
    exact {
      serial_lt := fun _ hc => by simp [cleanup] at hc
      nodup := List.nodup_nil
      unused := fun n hn => by simp [cleanup, hsilent, h.unused n hn]
      waiting := fun _ hc => by simp [cleanup] at hc
      opened := fun _ hc => by simp [cleanup] at hc
      lifeCycle := fun n => by simpa [cleanup, hsilent] using h.lifeCycle n }
  · exact h

/-- **One action** keeps the invariant. -/
theorem Inv.step {s s' : Server} {action : Action} (hclean : CleanAction s action)
    (h : s.step action = .ok s') (hinv : Inv s) : Inv s' := by
  cases Server.step_does h with
  | nothing => exact hinv
  | batch hend hrun =>
    have hinv₁ := invariant_along (fun _ _ _ hc hs => Inv.handleEvent hc hs) (hclean hend) hrun hinv
    exact hinv₁.updateClients.endTurn
  | waitFailed retry => exact (hinv.silent true fun _ => rfl).endTurn
  | sendToAllClients data wsOnly answers =>
    exact hinv.advance (sendToClients_advance fun j conn hj hw => by
      simpa using hclean j conn hj hw)

/-- **The life cycle of a connection.**  In every run whose actions leave alone the WebSockets
    that wait for their handshake, the jobs about each connection are one `NewConnection`, any
    number of `ReadData` and one `ClientClosed`, or the beginning of that. -/
theorem lifeCycle_of_clean (tcpServer wsServer : Peer) (receiveFd : Int) (actions : List Action)
    (s : Server) (hrun : run Server.step (.start tcpServer wsServer receiveFd) actions = .ok s)
    (hclean : Along Server.step CleanAction (.start tcpServer wsServer receiveFd) actions)
    (n : Nat) : LifeCycle (jobKinds n s.log) :=
  (invariant_along (fun _ _ _ hc hs => Inv.step hc hs) hclean hrun
    (inv_start tcpServer wsServer receiveFd)).lifeCycle n

/-- An upgrade request. -/
def upgradeRequest : Bytes :=
  ascii "GET /chat HTTP/1.1\r\nUpgrade: websocket\r\nSec-WebSocket-Key: dGhlIHNhbXBsZQ==\r\n\r\n"

/-- A request that is answered as a whole is a handshake that succeeds. -/
theorem handshakeSucceeds_of {answers : ClientAnswers} {mBuff : Bytes}
    (hrecv : recv [] 0 answers.recv = (true, mBuff))
    (hshake : (proceedWsHandshake mBuff answers.send).map Prod.fst = .ok true) :
    HandshakeSucceeds answers := by
  rw [HandshakeSucceeds, hrecv]
  refine ⟨rfl, ?_⟩
  rcases hres : proceedWsHandshake mBuff answers.send with e | ⟨ok, w⟩
  · rw [hres] at hshake
    cases hshake
  · rw [hres] at hshake
    cases hshake
    exact ⟨w, rfl⟩

/-- An upgrade request right after its connection. -/
theorem lifeCycle_of_clean_upgrade :
    ∃ s, run Server.step (.start ⟨3, false⟩ ⟨4, true⟩ 5)
        [.batch [.listening 4 [8]], .batch [.readable 8 (wholeRecv upgradeRequest)]] = .ok s ∧
      LifeCycle (jobKinds 0 s.log) := by
  have hok : (run Server.step (.start ⟨3, false⟩ ⟨4, true⟩ 5)
      [.batch [.listening 4 [8]], .batch [.readable 8 (wholeRecv upgradeRequest)]]).isOk
        = true := by
    decide +kernel
  have hshake : HandshakeSucceeds (wholeRecv upgradeRequest) :=
    handshakeSucceeds_of
      (show recv [] 0 (wholeRecv upgradeRequest).recv = (true, upgradeRequest) by decide)
      (by decide +kernel)
  -- The first batch reads from nobody, the second one from a client whose handshake succeeds.
  have hclean : Along Server.step CleanAction (.start ⟨3, false⟩ ⟨4, true⟩ 5)
      [.batch [.listening 4 [8]], .batch [.readable 8 (wholeRecv upgradeRequest)]] := by
    refine ⟨fun _ => ⟨⟨by simp [EpollEvent.listening], fun h => absurd rfl h.2.2.2⟩,
      fun _ _ => trivial⟩, ?_⟩
    rintro s hs
    cases hs
    exact ⟨fun _ => ⟨⟨by simp [EpollEvent.readable], fun _ _ _ _ _ _ => hshake⟩,
      fun _ _ => trivial⟩, fun _ _ => trivial⟩
  rcases hrun : run Server.step (.start ⟨3, false⟩ ⟨4, true⟩ 5)
      [.batch [.listening 4 [8]], .batch [.readable 8 (wholeRecv upgradeRequest)]] with e | s
  · rw [hrun] at hok
    cases hok
  · exact ⟨s, rfl, lifeCycle_of_clean _ _ _ _ s hrun hclean 0⟩

/-- A handshake that fails: the application reads from, and sees closed, a connection that it
    never saw open. -/
theorem failed_handshake_seen :
    (run Server.step (.start ⟨3, false⟩ ⟨4, true⟩ 5)
        [.batch [.listening 4 [8]], .batch [.readable 8 (wholeRecv (ascii "x\r\n"))]]).map
        (fun s => jobKinds 0 s.log) = .ok [.readData, .clientClosed] ∧
      ¬ LifeCycle [.readData, .clientClosed] := by
  refine ⟨by decide, ?_⟩
  rintro ⟨reads, h⟩
  simp at h

end Icl.Network
