import Icl.Network.Descriptors

namespace Icl.Network

open Icl.Cxx Icl.Protocol Icl.Transition

/-!
# What is written on a WebSocket before its handshake is done

The first bytes on a WebSocket should be the reply to its handshake.  The server keeps this up as
long as nothing is sent to all clients while a WebSocket waits for its handshake.

* `write_sent` — what `Write` has written is a beginning of its input;
* `writtenOn` — the bytes that have been written on one connection;
* `ReceivedOn` — the bytes that one `Recv` of a run has received on a connection;
* `HandshakeFirst` — on every WebSocket, the reply to what has been received on it comes first;
* `ShakeInv` — the invariant: a WebSocket that waits for its handshake has been written nothing;
* `handshake_first` — every run in which nothing is sent to a waiting WebSocket.
-/

/-! ### `Write` -/

/-- **The bytes sent are the first ones of the buffer**, and `written` counts them in 32 bits,
    however the calls of `::send` come out. -/
theorem writeLoop_sent (answers : Nat → SendAnswer) (fuel i : Nat) (buf : Bytes) {w : Written}
    (hw : w.written < 2 ^ 32) :
    ∃ k ≤ buf.length, (writeLoop answers fuel i buf w).sent = w.sent ++ buf.take k ∧
      (writeLoop answers fuel i buf w).written = (w.written + k) % 2 ^ 32 := by
  have hnone : w.sent = w.sent ++ buf.take 0 ∧ w.written = (w.written + 0) % 2 ^ 32 :=
    ⟨by simp, (Nat.mod_eq_of_lt hw).symm⟩
  induction fuel generalizing i buf w with
  | zero => exact ⟨0, Nat.zero_le _, hnone⟩
  | succ fuel ih =>
    rw [writeLoop]
    split_ifs with hmore
    · cases answers i with
      | error retry => exact ⟨0, Nat.zero_le _, hnone⟩
      | accepted more =>
        -- What this call took comes before what the later calls take.
        obtain ⟨k, hk, hsent, hwritten⟩ := ih (i + 1) (buf.drop (min (more + 1) buf.length))
          (w := { w with written := (w.written + min (more + 1) buf.length) % 2 ^ 32
                         sent := w.sent ++ buf.take (min (more + 1) buf.length) })
          (Nat.mod_lt _ (by decide)) ⟨by simp, by simp⟩
        rw [List.length_drop] at hk
        refine ⟨min (more + 1) buf.length + k, by omega, ?_, ?_⟩
        · rw [hsent, List.append_assoc, ← List.take_add]
        · rw [hwritten]
          dsimp only
          rw [Nat.mod_add_mod, Nat.add_assoc]
    · exact ⟨0, Nat.zero_le _, hnone⟩

/-- **What `Write` has written** is a beginning of its input, and all of it when `written` says
    so. -/
theorem write_sent (input : Bytes) (answers : Nat → SendAnswer) :
    (write input answers).sent <+: input ∧
      (input.length = (write input answers).written → (write input answers).sent = input) := by
  obtain ⟨k, hk, hsent, hwritten⟩ := writeLoop_sent answers input.length 0 input
    (w := { ret := true, written := 0, sent := [] }) (by decide)
  rw [List.nil_append] at hsent
  rw [write, hsent, hwritten]
  refine ⟨List.take_prefix _ _, fun hall => List.take_of_length_le ?_⟩
  dsimp only at hall
  rw [Nat.zero_add] at hall
  exact hall.le.trans (Nat.mod_le _ _)

/-! ### What has been written on a connection -/

/-- The bytes that an effect writes on connection `n`. -/
def Effect.bytesOn (t : Descriptors) (n : Nat) : Effect → Bytes
  | .sent socket bytes => if t socket = some n then bytes else []
  | _ => []

/-- The bytes written on connection `n`, from some descriptors on. -/
def writtenFrom (n : Nat) : Descriptors → List Effect → Bytes
  | _, [] => []
  | t, e :: effects => e.bytesOn t n ++ writtenFrom n (t.apply e) effects

/-- The bytes that have been written on connection `n`. -/
def writtenOn (n : Nat) (log : List Effect) : Bytes := writtenFrom n (fun _ => none) log

/-- What a client is sent during two pieces of a log is sent in that order. -/
theorem writtenFrom_append (n : Nat) (t : Descriptors) (es es' : List Effect) :
    writtenFrom n t (es ++ es') = writtenFrom n t es ++ writtenFrom n (t.after es) es' := by
  induction es generalizing t with
  | nil => rfl
  | cons e es ih =>
    rw [List.cons_append, writtenFrom, ih, writtenFrom, List.append_assoc]
    rfl

/-- One more effect adds the bytes it puts on the connection open on its descriptor. -/
theorem writtenOn_snoc (n : Nat) (log : List Effect) (e : Effect) :
    writtenOn n (log ++ [e]) = writtenOn n log ++ e.bytesOn (descriptors log) n := by
  rw [writtenOn, writtenFrom_append, writtenFrom, writtenFrom, List.append_nil]
  rfl

/-- The application has been told that connection `n` is open. -/
def Announced (n : Nat) (log : List Effect) : Prop :=
  ∃ conn, .enqueue (.newConnection conn) ∈ log ∧ conn.serial = n

/-- Connection `n` is not a WebSocket: it has been announced as such. -/
def AnnouncedTcp (n : Nat) (log : List Effect) : Prop :=
  ∃ conn, .enqueue (.newConnection conn) ∈ log ∧ conn.serial = n ∧ conn.peer.isWebSocket = false

/-- A client stays announced. -/
theorem Announced.append {n : Nat} {log : List Effect} (h : Announced n log)
    (effects : List Effect) : Announced n (log ++ effects) := by
  obtain ⟨conn, hconn, hn⟩ := h
  exact ⟨conn, List.mem_append_left _ hconn, hn⟩

/-- And so does a TCP client. -/
theorem AnnouncedTcp.append {n : Nat} {log : List Effect} (h : AnnouncedTcp n log)
    (effects : List Effect) : AnnouncedTcp n (log ++ effects) := by
  obtain ⟨conn, hconn, hn⟩ := h
  exact ⟨conn, List.mem_append_left _ hconn, hn⟩

/-! ### What has been received on a connection -/

/-- An event makes the server receive `mBuff` on connection `n`. -/
def EpollEvent.Receives (n : Nat) (mBuff : Bytes) (s : Server) (ev : EpollEvent) : Prop :=
  ∃ j conn, s.clients[j]? = some conn ∧ conn.serial = n ∧ conn.peer.socket = ev.fd ∧
    recv [] 0 (ev.clients j).recv = (true, mBuff)

/-- An action makes the server receive `mBuff` on connection `n`. -/
def Action.Receives (n : Nat) (mBuff : Bytes) (s : Server) : Action → Prop
  | .batch events =>
    s.endServer = false ∧ Somewhere handleEvent (EpollEvent.Receives n mBuff) s events
  | .waitFailed _ | .sendToAllClients _ _ _ => False

/-- In a run, the server receives `mBuff` on connection `n`. -/
def ReceivedOn (s : Server) (actions : List Action) (n : Nat) (mBuff : Bytes) : Prop :=
  Somewhere Server.step (Action.Receives n mBuff) s actions

/-! ### The reply comes first -/

/-- A reply to an upgrade request. -/
def HandshakeReply (request reply : Bytes) : Prop :=
  ∃ ws, parseWebSocketRequest request .new = .ok (true, ws) ∧ ws.upgrade = .ok reply

/-- The status line of a reply. -/
theorem HandshakeReply.status {request reply : Bytes} (h : HandshakeReply request reply) :
    ascii "HTTP/1.1 101 Switching Protocols\r\n" <+: reply := by
  obtain ⟨ws, -, hupgrade⟩ := h
  obtain ⟨accept, -, hreply⟩ := bind_eq_ok.mp hupgrade
  obtain rfl := Except.ok.inj hreply
  simp only [List.append_assoc]
  exact List.prefix_append _ _

/-- A reply to a request that has been received on connection `n`. -/
def RepliesTo (received : Nat → Bytes → Prop) (n : Nat) (reply : Bytes) : Prop :=
  ∃ request, received n request ∧ HandshakeReply request reply

/-- A WebSocket that has been announced has been written the reply to a request received on it, and
    maybe more; another one nothing, or nothing but a part of such a reply. -/
structure ReplyFirst (received : Nat → Bytes → Prop) (n : Nat) (log : List Effect) : Prop where
  announced : Announced n log → ∃ reply, RepliesTo received n reply ∧ reply <+: writtenOn n log
  waiting : ¬ Announced n log →
    writtenOn n log = [] ∨ ∃ reply, RepliesTo received n reply ∧ writtenOn n log <+: reply

/-- **The reply comes first** on every WebSocket, at any time. -/
def HandshakeFirst (received : Nat → Bytes → Prop) (log : List Effect) : Prop :=
  ∀ before, before <+: log → ∀ n, ¬ AnnouncedTcp n before → ReplyFirst received n before

section HandshakeFirst

variable {received : Nat → Bytes → Prop} {log : List Effect}

/-- What holds throughout the log holds at its end. -/
theorem HandshakeFirst.now (h : HandshakeFirst received log) {n : Nat}
    (hn : ¬ AnnouncedTcp n log) : ReplyFirst received n log := h log List.prefix_rfl n hn

/-- To carry the property over one more effect, only the log at its end has to be looked at. -/
theorem HandshakeFirst.snoc {e : Effect} (h : HandshakeFirst received log)
    (he : ∀ n, ¬ AnnouncedTcp n (log ++ [e]) → ReplyFirst received n (log ++ [e])) :
    HandshakeFirst received (log ++ [e]) := by
  intro before hbefore
  rcases List.prefix_concat_iff.mp hbefore with rfl | hbefore
  · exact he
  · exact h before hbefore

/-- What was so before an effect, of a connection that the effect does not concern. -/
theorem HandshakeFirst.other {e : Effect} (h : HandshakeFirst received log) {n : Nat}
    (hwritten : writtenOn n (log ++ [e]) = writtenOn n log)
    (hannounced : Announced n (log ++ [e]) → Announced n log)
    (hn : ¬ AnnouncedTcp n (log ++ [e])) : ReplyFirst received n (log ++ [e]) := by
  obtain ⟨hyes, hno⟩ := h log List.prefix_rfl n fun htcp => hn (htcp.append _)
  constructor <;> rw [hwritten]
  · exact fun ha => hyes (hannounced ha)
  · exact fun ha => hno fun ha' => ha (ha'.append _)

/-- An effect that neither writes nor announces a connection. -/
def Effect.Mute : Effect → Prop
  | .sent _ _ | .enqueue (.newConnection _) => False
  | _ => True

/-- A mute effect puts no bytes on any connection. -/
theorem writtenOn_mute {n : Nat} {log : List Effect} {e : Effect} (he : e.Mute) :
    writtenOn n (log ++ [e]) = writtenOn n log := by
  rw [writtenOn_snoc]
  cases e with
  | sent socket bytes => exact absurd he id
  | _ => exact List.append_nil _

/-- A client announced at the end was announced before, unless the last effects announce it. -/
theorem Announced.of_append {n : Nat} {log effects : List Effect}
    (h : Announced n (log ++ effects))
    (hnone : ∀ conn, .enqueue (.newConnection conn) ∈ effects → conn.serial ≠ n) :
    Announced n log := by
  obtain ⟨conn, hconn, hn⟩ := h
  rcases List.mem_append.mp hconn with hconn | hconn
  · exact ⟨conn, hconn, hn⟩
  · exact absurd hn (hnone conn hconn)

/-- No connection is announced by another effect. -/
theorem Announced.of_snoc {n : Nat} {log : List Effect} {e : Effect}
    (h : Announced n (log ++ [e])) (he : ∀ conn, e = .enqueue (.newConnection conn) →
      conn.serial ≠ n) : Announced n log :=
  h.of_append fun conn hconn => he conn (List.mem_singleton.mp hconn).symm

/-- An effect that sends nothing and announces no one keeps the property. -/
theorem HandshakeFirst.mute {e : Effect} (h : HandshakeFirst received log) (he : e.Mute) :
    HandshakeFirst received (log ++ [e]) := by
  refine h.snoc fun n => h.other (writtenOn_mute he) fun ha => ha.of_snoc ?_
  rintro conn rfl
  exact absurd he id

/-- A connection that has been announced is written to, or one that has been written nothing gets
    a part of its reply. -/
theorem HandshakeFirst.sent {socket : Int} {bytes : Bytes} {n : Nat}
    (h : HandshakeFirst received log) (hopen : descriptors log socket = some n)
    (hmay : Announced n log ∨
      writtenOn n log = [] ∧ ∃ reply, RepliesTo received n reply ∧ bytes <+: reply) :
    HandshakeFirst received (log ++ [.sent socket bytes]) := by
  refine h.snoc fun m hm => ?_
  have hannounced : Announced m (log ++ [.sent socket bytes]) → Announced m log :=
    fun ha => ha.of_snoc nofun
  have hwritten : writtenOn m (log ++ [.sent socket bytes])
      = writtenOn m log ++ if n = m then bytes else [] := by
    rw [writtenOn_snoc, Effect.bytesOn, hopen]
    simp only [Option.some.injEq]
  -- Only the client that is written to has to be looked at.
  by_cases hmn : n = m
  · subst hmn
    rw [if_pos rfl] at hwritten
    -- Either its handshake is done and the bytes come behind the reply, or they are a part of it.
    by_cases ha : Announced n log
    · have hfirst := h log List.prefix_rfl n fun htcp => hm (htcp.append _)
      obtain ⟨reply, hreply, hdone⟩ := hfirst.announced ha
      refine ⟨fun _ => ⟨reply, hreply, ?_⟩, fun hno => absurd (ha.append _) hno⟩
      rw [hwritten]
      exact hdone.trans (List.prefix_append _ _)
    · obtain ⟨hnothing, reply, hreply, hpart⟩ := hmay.resolve_left ha
      refine ⟨fun ha' => absurd (hannounced ha') ha, fun _ => .inr ⟨reply, hreply, ?_⟩⟩
      rwa [hwritten, hnothing, List.nil_append]
  · rw [if_neg hmn, List.append_nil] at hwritten
    exact h.other hwritten hannounced hm

/-- A connection is announced that is no WebSocket, or that has been written its reply. -/
theorem HandshakeFirst.newConnection {conn : Conn} (h : HandshakeFirst received log)
    (hconn : conn.peer.isWebSocket = true →
      ∃ reply, RepliesTo received conn.serial reply ∧ reply <+: writtenOn conn.serial log) :
    HandshakeFirst received (log ++ [.enqueue (.newConnection conn)]) := by
  refine h.snoc fun n hn => ?_
  have hwritten : ∀ m, writtenOn m (log ++ [.enqueue (.newConnection conn)]) = writtenOn m log :=
    fun m => by rw [writtenOn_snoc, Effect.bytesOn, List.append_nil]; nofun
  have hmem : .enqueue (.newConnection conn) ∈ log ++ [Effect.enqueue (.newConnection conn)] :=
    List.mem_append_right _ List.mem_cons_self
  -- Only the client that is announced has to be looked at.
  by_cases hserial : conn.serial = n
  · subst hserial
    cases hws : conn.peer.isWebSocket with
    | false => exact absurd ⟨conn, hmem, rfl, hws⟩ hn
    | true =>
      obtain ⟨reply, hreply, hdone⟩ := hconn hws
      refine ⟨fun _ => ⟨reply, hreply, ?_⟩, fun hno => absurd ⟨conn, hmem, rfl⟩ hno⟩
      rwa [hwritten]
  · refine h.other (hwritten n) (fun ha => ha.of_snoc ?_) hn
    intro conn' heq
    cases heq
    exact hserial

/-- So do any number of them. -/
theorem HandshakeFirst.mutes {effects : List Effect} (h : HandshakeFirst received log)
    (heffects : ∀ e ∈ effects, e.Mute) : HandshakeFirst received (log ++ effects) := by
  induction effects generalizing log with
  | nil => rwa [List.append_nil]
  | cons e effects ih =>
    obtain ⟨he, hes⟩ := List.forall_mem_cons.mp heffects
    rw [List.append_cons]
    exact ih (h.mute he) hes

end HandshakeFirst

/-- They put no bytes on any connection. -/
theorem writtenOn_mutes {n : Nat} {log effects : List Effect} (heffects : ∀ e ∈ effects, e.Mute) :
    writtenOn n (log ++ effects) = writtenOn n log := by
  induction effects generalizing log with
  | nil => rw [List.append_nil]
  | cons e effects ih =>
    obtain ⟨he, hes⟩ := List.forall_mem_cons.mp heffects
    rw [List.append_cons, ih hes, writtenOn_mute he]

/-! ### What handling one client may do -/

/-- A client has been handled: it is still the same one, nothing has been written on other
    connections, and the replies still come first. -/
structure Handles (received : Nat → Bytes → Prop) (log : List Effect) (conn conn' : Conn)
    (effects : List Effect) : Prop where
  ident : conn'.ident = conn.ident
  quiet : ∀ e ∈ effects, e.Quiet
  others : ∀ n ≠ conn.serial, writtenOn n (log ++ effects) = writtenOn n log
  first : HandshakeFirst received log → HandshakeFirst received (log ++ effects)

section Handles

variable {received : Nat → Bytes → Prop} {log es es' : List Effect} {conn conn₁ conn' : Conn}

/-- Handling a client without sending or announcing anything keeps the property. -/
theorem Handles.mute (hident : conn'.ident = conn.ident) (hquiet : ∀ e ∈ es, e.Quiet)
    (hmute : ∀ e ∈ es, e.Mute) : Handles received log conn conn' es :=
  ⟨hident, hquiet, fun _ _ => writtenOn_mutes hmute, fun h => h.mutes hmute⟩

/-- A client is handled in two steps, the second one with the log the first one leaves. -/
theorem Handles.trans (h : Handles received log conn conn₁ es)
    (h' : Handles received (log ++ es) conn₁ conn' es') :
    Handles received log conn conn' (es ++ es') where
  ident := h'.ident.trans h.ident
  quiet e he := (List.mem_append.mp he).elim (h.quiet e) (h'.quiet e)
  others n hn := by
    have hn' : n ≠ conn₁.serial := fun heq => hn (heq.trans (congrArg Prod.fst h.ident))
    rw [← List.append_assoc, h'.others n hn', h.others n hn]
  first hfirst := by
    rw [← List.append_assoc]
    exact h'.first (h.first hfirst)

/-- Something is written on the descriptor of a client. -/
theorem Handles.sent (hopen : descriptors log conn.peer.socket = some conn.serial) (w : Written)
    (hmay : Announced conn.serial log ∨
      writtenOn conn.serial log = [] ∧
        ∃ reply, RepliesTo received conn.serial reply ∧ w.sent <+: reply) :
    Handles received log conn conn [sentEffect conn.peer w] where
  ident := rfl
  quiet e he := by
    rw [List.mem_singleton.mp he]
    trivial
  others n hn := by
    rw [writtenOn_snoc, sentEffect, Effect.bytesOn, hopen,
      if_neg fun heq => hn (Option.some.inj heq).symm, List.append_nil]
  first h := h.sent hopen hmay

/-- A client to which something is written or nothing. -/
theorem Handles.sents (hopen : descriptors log conn.peer.socket = some conn.serial)
    (hmay : Announced conn.serial log) (w : Option Written) :
    Handles received log conn conn (w.toList.map (sentEffect conn.peer)) := by
  cases w with
  | none => exact .mute rfl (by simp) (by simp)
  | some w => exact .sent hopen w (.inl hmay)

/-- A client is announced that has been written its reply. -/
theorem Handles.newConnection (hident : conn'.ident = conn.ident)
    (hreply : ∃ reply, RepliesTo received conn.serial reply ∧
      reply <+: writtenOn conn.serial log) :
    Handles received log conn conn' [.enqueue (.newConnection conn')] where
  ident := hident
  quiet e he := by
    rw [List.mem_singleton.mp he]
    trivial
  others n _ := by
    rw [writtenOn_snoc]
    exact List.append_nil _
  first h := by
    have hserial : conn'.serial = conn.serial := congrArg Prod.fst hident
    rw [← hserial] at hreply
    exact h.newConnection fun _ => hreply

end Handles

/-- The client waits for its handshake and has been written nothing, or has been announced. -/
def Conn.Shaken (log : List Effect) (conn : Conn) : Prop :=
  if conn.AwaitsHandshake then writtenOn conn.serial log = [] else Announced conn.serial log

/-- The client is ready for the events on the descriptors `left`. -/
def Conn.ReadyFor (left : Int → Prop) (log : List Effect) (conn : Conn) : Prop :=
  conn.Shaken log ∨ conn.state = .deleteLater ∧ ¬ left conn.peer.socket

/-- A client that is ready for some events is handled, and then ready for others. -/
def ClientDoes (received : Nat → Bytes → Prop) (left left' : Int → Prop) (conn conn' : Conn)
    (effects : List Effect) : Prop :=
  ∀ log, descriptors log conn.peer.socket = some conn.serial → conn.ReadyFor left log →
    Handles received log conn conn' effects ∧ conn'.ReadyFor left' (log ++ effects)

/-- A client that is announced and no longer awaits the handshake may be written to. -/
theorem Announced.readyFor {log : List Effect} {conn conn' : Conn} (h : Announced conn.serial log)
    (hident : conn'.ident = conn.ident) (hwait : ¬ conn'.AwaitsHandshake) (left : Int → Prop)
    (effects : List Effect) : conn'.ReadyFor left (log ++ effects) := by
  have hserial : conn'.serial = conn.serial := congrArg Prod.fst hident
  refine .inl ?_
  rw [Conn.Shaken, if_neg hwait, hserial]
  exact h.append effects

/-- **The handshake**: nothing but the reply is written, and the connection is announced once all of
    it is. -/
theorem incommingHandshake_handles {received : Nat → Bytes → Prop} {conn conn' : Conn}
    {mBuff : Bytes} {answers : Nat → SendAnswer} {effects log : List Effect}
    (hreceived : received conn.serial mBuff)
    (h : incommingHandshake conn mBuff answers = .ok (conn', effects))
    (hopen : descriptors log conn.peer.socket = some conn.serial)
    (hnothing : writtenOn conn.serial log = []) :
    Handles received log conn conn' effects ∧
      (conn'.Shaken (log ++ effects) ∨ conn'.state = .deleteLater) := by
  obtain ⟨⟨success, w⟩, hshake, h⟩ := bind_eq_ok.mp h
  obtain ⟨⟨ok, ws⟩, hparse, hshake⟩ := bind_eq_ok.mp hshake
  have hident : ∀ state, Conn.ident { conn with state } = conn.ident := fun _ => rfl
  have hread : ∀ {log}, Handles received log conn { conn with state := .deleteLater }
      [.enqueue (.readData { conn with state := .deleteLater })] := fun {log} =>
    .mute (hident _) (by simp [Effect.Quiet]) (by simp [Effect.Mute])
  -- A request that does not parse is marked for deletion without a reply.
  cases ok with
  | false =>
    cases hshake
    cases h
    exact ⟨hread, .inr rfl⟩
  | true =>
    obtain ⟨req, hupgrade, hshake⟩ := bind_eq_ok.mp hshake
    cases hshake
    have hreply : RepliesTo received conn.serial req := ⟨mBuff, hreceived, ws, hparse, hupgrade⟩
    obtain ⟨hpart, hall⟩ := write_sent req answers
    have hsent : Handles received log conn conn [sentEffect conn.peer (write req answers)] :=
      .sent hopen _ (.inr ⟨hnothing, req, hreply, hpart⟩)
    dsimp only at h
    -- The reply is sent as a whole, or the connection is given up.
    split_ifs at h with hsuccess
    · cases h
      have hlength : req.length = (write req answers).written := by
        simpa using (Bool.and_eq_true_iff.mp hsuccess).2
      have hwritten : writtenOn conn.serial
          (log ++ [sentEffect conn.peer (write req answers)]) = req := by
        rw [writtenOn_snoc, hnothing, sentEffect, Effect.bytesOn, hopen, if_pos rfl, hall hlength,
          List.nil_append]
      refine ⟨hsent.trans (.newConnection (hident _) ⟨req, hreply, ?_⟩), .inl ?_⟩
      · exact ⟨[], by rw [List.append_nil, hwritten]⟩
      · rw [Conn.Shaken, if_neg (by simp [Conn.AwaitsHandshake])]
        exact ⟨_, List.mem_append_right _ (List.mem_append_right _ List.mem_cons_self), rfl⟩
    · cases h
      exact ⟨hsent.trans hread, .inr rfl⟩

/-- **`IncommingData`** on a client that is ready for it. -/
theorem incommingData_does {received : Nat → Bytes → Prop} {left left' : Int → Prop}
    {conn conn' : Conn} {answers : ClientAnswers} {effects : List Effect}
    (hreceived : ∀ mBuff, recv [] 0 answers.recv = (true, mBuff) → received conn.serial mBuff)
    (hleft : left conn.peer.socket) (hleft' : ¬ left' conn.peer.socket)
    (h : incommingData conn answers = .ok (conn', effects)) :
    ClientDoes received left left' conn conn' effects := by
  intro log hopen hready
  have hshaken : conn.Shaken log := hready.resolve_right fun hdead => hdead.2 hleft
  have hident : ∀ state, Conn.ident { conn with state } = conn.ident := fun _ => rfl
  rw [incommingData] at h
  rcases hrecv : recv [] 0 answers.recv with ⟨_ | _, mBuff⟩
  · rw [hrecv] at h
    cases h
    exact ⟨.mute (hident _) (by simp) (by simp), .inr ⟨rfl, hleft'⟩⟩
  simp only [hrecv] at h
  split_ifs at h with hws hclosed
  · have hwait : conn.AwaitsHandshake := ⟨hws, by simpa [Conn.isClosed] using hclosed⟩
    rw [Conn.Shaken, if_pos hwait] at hshaken
    obtain ⟨hhandles, hafter⟩ :=
      incommingHandshake_handles (hreceived mBuff hrecv) h hopen hshaken
    have hsocket : conn'.peer.socket = conn.peer.socket := congrArg Prod.snd hhandles.ident
    exact ⟨hhandles, hafter.imp_right fun hstate => ⟨hstate, hsocket ▸ hleft'⟩⟩
  · have hwait : ¬ conn.AwaitsHandshake := fun hwait => hclosed (by simp [Conn.isClosed, hwait.2])
    rw [Conn.Shaken, if_neg hwait] at hshaken
    obtain ⟨⟨hasData, conn₁, w⟩, hdecode, h⟩ := bind_eq_ok.mp h
    have hident₁ := decodeWsDataConn_ident hdecode
    have hwait₁ : ¬ conn₁.AwaitsHandshake := fun hw => hwait ((decodeWsDataConn_keeps hdecode).2 hw)
    have hserial : conn₁.serial = conn.serial := congrArg Prod.fst hident₁
    have hsocket : conn₁.peer.socket = conn.peer.socket := congrArg Prod.snd hident₁
    -- A pong or nothing is written, and data is handed over or not.
    have hsents : Handles received log conn₁ conn₁ (w.toList.map (sentEffect conn₁.peer)) :=
      .sents (by rw [hsocket, hserial, hopen]) (hserial ▸ hshaken) w
    have hread : ∀ log, Handles received log conn₁ conn₁
        (if hasData then [.enqueue (.readData conn₁)] else []) := by
      intro log
      cases hasData with
      | false => exact .mute rfl (by simp) (by simp)
      | true => exact .mute rfl (by simp [Effect.Quiet]) (by simp [Effect.Mute])
    have hsame : Handles received log conn conn₁ [] := .mute hident₁ (by simp) (by simp)
    cases h
    refine ⟨?_, hshaken.readyFor hident₁ hwait₁ left' _⟩
    simpa using hsame.trans ((List.append_nil log).symm ▸ hsents.trans (hread _))
  · have hwait : ¬ conn.AwaitsHandshake := fun hwait => hws hwait.1
    rw [Conn.Shaken, if_neg hwait] at hshaken
    cases h
    have hpayload : Conn.ident { conn with payload := mBuff } = conn.ident := rfl
    exact ⟨.mute hpayload (by simp [Effect.Quiet]) (by simp [Effect.Mute]),
      hshaken.readyFor hpayload (fun hw => hws hw.1) left' _⟩

/-- **`SendToAllClients`** on a client that does not wait for its handshake. -/
theorem sendToClient_does (received : Nat → Bytes → Prop) (data : Bytes) (wsOnly : Bool)
    {conn : Conn} (hwait : ¬ conn.AwaitsHandshake) (answers : Nat → SendAnswer) :
    ClientDoes received (fun _ => True) (fun _ => True) conn
      (sendToClient data wsOnly conn answers).2.1 (sendToClient data wsOnly conn answers).2.2 := by
  intro log hopen hready
  have hannounced : Announced conn.serial log := by
    have hshaken : conn.Shaken log := hready.resolve_right fun hdead => hdead.2 trivial
    rwa [Conn.Shaken, if_neg hwait] at hshaken
  have hident : Conn.ident { conn with state := .deleteLater } = conn.ident := rfl
  have hmark : ∀ log, Handles received log conn { conn with state := .deleteLater } [] := fun log =>
    .mute hident (by simp) (by simp)
  unfold sendToClient
  -- `SendToAllClients` skips the WebSocket clients that are not connected.
  split_ifs with hsend
  · dsimp only
    have hsents : Handles received log conn conn
        ((send data conn.peer answers).2.toList.map (sentEffect conn.peer)) :=
      .sents hopen hannounced _
    split_ifs
    · exact ⟨hsents, hannounced.readyFor rfl hwait _ _⟩
    · refine ⟨?_, hannounced.readyFor hident (by simp [Conn.AwaitsHandshake]) _ _⟩
      simpa using hsents.trans (hmark _)
  · exact ⟨.mute rfl (by simp) (by simp), hannounced.readyFor rfl hwait _ _⟩

/-! ### What handling the table may do -/

/-- The clients of the table are handled one after the other. -/
inductive Walk (R : Conn → Conn → List Effect → Prop) :
    List Conn → List Conn → List Effect → Prop
  | nil : Walk R [] [] []
  | cons {conn conn' : Conn} {conns conns' : List Conn} {es es' : List Effect} :
      R conn conn' es → Walk R conns conns' es' →
      Walk R (conn :: conns) (conn' :: conns') (es ++ es')

/-- **The scan walks along the clients**: the ones on the descriptor of the event are read from, the
    others passed. -/
theorem scanClients_walk {R : Conn → Conn → List Effect → Prop} {fd : Int}
    {answers : Nat → ClientAnswers} {j : Nat} {conns conns' : List Conn} {effects : List Effect}
    (hread : ∀ i conn conn' es, conns[i]? = some conn → conn.peer.socket = fd →
      incommingData conn (answers (j + i)) = .ok (conn', es) → R conn conn' es)
    (hpass : ∀ conn : Conn, conn.peer.socket ≠ fd → R conn conn [])
    (h : scanClients fd answers j conns = .ok (conns', effects)) : Walk R conns conns' effects := by
  induction conns generalizing j conns' effects with
  | nil =>
    cases h
    exact .nil
  | cons conn conns ih =>
    obtain ⟨⟨conn₁, es⟩, hconn, h⟩ := bind_eq_ok.mp h
    obtain ⟨⟨conns₁, es'⟩, hconns, h⟩ := bind_eq_ok.mp h
    cases h
    have hreads : ∀ i c c' es, conns[i]? = some c → c.peer.socket = fd →
        incommingData c (answers (j + 1 + i)) = .ok (c', es) → R c c' es := by
      intro i c c' es hc hfd hdata
      rw [Nat.add_assoc, Nat.add_comm 1 i] at hdata
      exact hread (i + 1) c c' es hc hfd hdata
    -- The first client takes its own turn; the others are walked with their positions moved by one.
    refine .cons ?_ (ih hreads hconns)
    rw [scanClient] at hconn
    split_ifs at hconn with hfd
    · exact hread 0 conn conn₁ es rfl hfd hconn
    · cases hconn
      exact hpass conn hfd

/-- Marking walks along the clients as well. -/
theorem removeClient_walk {R : Conn → Conn → List Effect → Prop} {fd : Int} (conns : List Conn)
    (hmark : ∀ conn : Conn, conn.peer.socket = fd → R conn { conn with state := .deleteLater } [])
    (hpass : ∀ conn : Conn, conn.peer.socket ≠ fd → R conn conn []) :
    Walk R conns (removeClient fd conns) [] := by
  induction conns with
  | nil => exact .nil
  | cons conn conns ih =>
    have hconn : R conn
        (if conn.peer.socket = fd then { conn with state := .deleteLater } else conn) [] := by
      split_ifs with hfd
      · exact hmark conn hfd
      · exact hpass conn hfd
    exact .cons hconn ih

/-- And so does sending to all of them. -/
theorem sendToClients_walk {R : Conn → Conn → List Effect → Prop} (data : Bytes) (wsOnly : Bool)
    (answers : Nat → Nat → SendAnswer) (j : Nat) {conns : List Conn}
    (hsend : ∀ conn ∈ conns, ∀ answers, R conn (sendToClient data wsOnly conn answers).2.1
      (sendToClient data wsOnly conn answers).2.2) :
    Walk R conns (sendToClients data wsOnly answers j conns).2.1
      (sendToClients data wsOnly answers j conns).2.2 := by
  induction conns generalizing j with
  | nil => exact .nil
  | cons conn conns ih =>
    obtain ⟨hconn, hconns⟩ := List.forall_mem_cons.mp hsend
    exact .cons (hconn _) (ih (j + 1) hconns)

/-! ### The invariant -/

/-- What holds of the table and of the log, whatever the clients are ready for. -/
structure ShakeBase (received : Nat → Bytes → Prop) (clients : List Conn) (nextSerial : Nat)
    (log : List Effect) : Prop where
  serial_lt : ∀ conn ∈ clients, conn.serial < nextSerial
  nodup : (clients.map Conn.serial).Nodup
  unwritten : ∀ n ≥ nextSerial, writtenOn n log = []
  first : HandshakeFirst received log

/-- What is done for other connections does not matter. -/
theorem Conn.ReadyFor.append {left : Int → Prop} {log effects : List Effect} {conn : Conn}
    (h : conn.ReadyFor left log)
    (hwritten : writtenOn conn.serial (log ++ effects) = writtenOn conn.serial log) :
    conn.ReadyFor left (log ++ effects) := by
  refine h.imp_left fun hshaken => ?_
  rw [Conn.Shaken] at hshaken ⊢
  split_ifs at hshaken ⊢
  · rwa [hwritten]
  · exact hshaken.append effects

/-- **The clients of a table are handled**, those of `before` already. -/
theorem Walk.shakes {received : Nat → Bytes → Prop} {left left' : Int → Prop}
    {conns conns' before : List Conn} {nextSerial : Nat} {log effects : List Effect}
    (hwalk : Walk (ClientDoes received left left') conns conns' effects)
    (hbase : ShakeBase received (before ++ conns) nextSerial log)
    (hopen : ∀ conn ∈ conns, descriptors log conn.peer.socket = some conn.serial)
    (hbefore : ∀ conn ∈ before, conn.ReadyFor left' log)
    (hready : ∀ conn ∈ conns, conn.ReadyFor left log) :
    ShakeBase received (before ++ conns') nextSerial (log ++ effects) ∧
      ∀ conn ∈ before ++ conns', conn.ReadyFor left' (log ++ effects) := by
  induction hwalk generalizing before log with
  | nil =>
    rw [List.append_nil] at hbase
    rw [List.append_nil, List.append_nil]
    exact ⟨hbase, hbefore⟩
  | @cons conn conn' conns conns' es es' hconn hconns ih =>
    obtain ⟨hopen, hopens⟩ := List.forall_mem_cons.mp hopen
    obtain ⟨hready, hreadys⟩ := List.forall_mem_cons.mp hready
    obtain ⟨hhandles, hready'⟩ := hconn log hopen hready
    have hserial : conn'.serial = conn.serial := congrArg Prod.fst hhandles.ident
    have hserials : (before ++ conn' :: conns).map Conn.serial
        = (before ++ conn :: conns).map Conn.serial := by simp [hserial]
    -- The other clients have other serials.
    have hother : ∀ c, c ∈ before ∨ c ∈ conns → c.serial ≠ conn.serial := by
      have hnodup := hbase.nodup
      rw [List.map_append, List.map_cons, List.nodup_append] at hnodup
      obtain ⟨-, htail, hdisjoint⟩ := hnodup
      rintro c (hc | hc)
      · exact hdisjoint _ (List.mem_map_of_mem hc) _ List.mem_cons_self
      · exact fun heq => (List.nodup_cons.mp htail).1 (heq ▸ List.mem_map_of_mem hc)
    have hbase' : ShakeBase received (before ++ conn' :: conns) nextSerial (log ++ es) := by
      have hlt : ∀ n ∈ (before ++ conn :: conns).map Conn.serial, n < nextSerial := by
        intro n hn
        obtain ⟨c, hc, rfl⟩ := List.mem_map.mp hn
        exact hbase.serial_lt c hc
      refine ⟨fun c hc => hlt _ (hserials ▸ List.mem_map_of_mem hc), hserials ▸ hbase.nodup, ?_,
        hhandles.first hbase.first⟩
      intro n hn
      rw [hhandles.others n, hbase.unwritten n hn]
      rintro rfl
      exact absurd (hlt conn.serial (by simp)) (not_lt.mpr hn)
    have hdescriptors : descriptors (log ++ es) = descriptors log := by
      rw [descriptors_append, Descriptors.after_quiet hhandles.quiet]
    have hnext := @ih (before ++ [conn']) (log ++ es)
      (by rwa [← List.append_cons]) (by rwa [hdescriptors])
      (fun c hc => by
        rcases List.mem_append.mp hc with hc | hc
        · exact (hbefore c hc).append (hhandles.others _ (hother c (.inl hc)))
        · rwa [List.mem_singleton.mp hc])
      (fun c hc => (hreadys c hc).append (hhandles.others _ (hother c (.inr hc))))
    rwa [← List.append_cons, List.append_assoc] at hnext

/-- The server between two events: its clients are ready for the events on the descriptors
    `left`. -/
structure ShakeInv (received : Nat → Bytes → Prop) (left : Int → Prop) (s : Server) : Prop where
  base : ShakeBase received s.clients s.nextSerial s.log
  ready : ∀ conn ∈ s.clients, conn.ReadyFor left s.log

/-- Without clients there is nothing to shake hands with. -/
theorem shakeInv_start (received : Nat → Bytes → Prop) (tcpServer wsServer : Peer)
    (receiveFd : Int) :
    ShakeInv received (fun _ => True) (Server.start tcpServer wsServer receiveFd) := by
  refine ⟨⟨by simp [Server.start], List.nodup_nil, fun _ _ => rfl, ?_⟩, by simp [Server.start]⟩
  intro before hbefore n _
  obtain rfl := List.prefix_nil.mp hbefore
  refine ⟨?_, fun _ => .inl rfl⟩
  rintro ⟨conn, hconn, -⟩
  exact absurd hconn List.not_mem_nil

section Server

variable {received : Nat → Bytes → Prop} {left left' : Int → Prop} {s : Server}

/-- Events on fewer descriptors. -/
theorem ShakeInv.weaken (h : ShakeInv received left s) (hleft : ∀ fd, left' fd → left fd) :
    ShakeInv received left' s :=
  ⟨h.base, fun conn hconn => (h.ready conn hconn).imp_right fun hdead =>
    ⟨hdead.1, fun hfd => hdead.2 (hleft _ hfd)⟩⟩

/-- The clients have been handled. -/
theorem ShakeInv.walk {clients : List Conn} {effects : List Effect} (h : ShakeInv received left s)
    (htable : TableInv s)
    (hwalk : Walk (ClientDoes received left left') s.clients clients effects) :
    ShakeInv received left' { s with clients, log := s.log ++ effects } := by
  have hbase : ShakeBase received ([] ++ s.clients) s.nextSerial s.log := h.base
  obtain ⟨hbase, hready⟩ := hwalk.shakes hbase
    (fun conn hconn => htable.seated.isOpen _ (List.mem_map_of_mem hconn)) (by simp) h.ready
  exact ⟨hbase, hready⟩

/-- Clients stay or are removed, and nothing is written or announced. -/
theorem ShakeInv.mutes {clients : List Conn} {effects : List Effect} (endServer : Bool)
    (h : ShakeInv received left s) (hclients : clients.Sublist s.clients)
    (hmute : ∀ e ∈ effects, e.Mute) (hready : ∀ conn ∈ clients, conn.ReadyFor left' s.log) :
    ShakeInv received left' { s with clients, endServer, log := s.log ++ effects } where
  base := {
    serial_lt := fun conn hconn => h.base.serial_lt conn (hclients.subset hconn)
    nodup := h.base.nodup.sublist (hclients.map _)
    unwritten := fun n hn => (writtenOn_mutes hmute).trans (h.base.unwritten n hn)
    first := h.base.first.mutes hmute }
  ready conn hconn := (hready conn hconn).append (writtenOn_mutes hmute)

/-- A client that has just been accepted. -/
theorem ShakeInv.accept (h : ShakeInv received left s) (isWebSocket : Bool) (newSd : Nat) :
    ShakeInv received left { s with
      clients := s.clients ++ [.new s.nextSerial newSd isWebSocket]
      nextSerial := s.nextSerial + 1
      log := s.log ++ acceptClient (.new s.nextSerial newSd isWebSocket) } := by
  have hwritten : ∀ n, writtenOn n (s.log ++ acceptClient (.new s.nextSerial newSd isWebSocket))
      = writtenOn n s.log := by
    intro n
    rw [writtenOn, writtenFrom_append]
    cases isWebSocket <;> exact List.append_nil _
  have hfirst : HandshakeFirst received
      (s.log ++ acceptClient (.new s.nextSerial newSd isWebSocket)) := by
    rw [acceptClient, ← List.append_assoc]
    have hmute : ∀ e ∈ [Effect.accepted s.nextSerial newSd, .epollAdd newSd], e.Mute := by
      simp [Effect.Mute]
    have haccepted := h.base.first.mutes hmute
    cases isWebSocket with
    | true => simpa [Conn.new] using haccepted
    | false => exact haccepted.newConnection fun hws => absurd hws Bool.false_ne_true
  refine ⟨⟨fun conn hconn => ?_, ?_, fun n hn => ?_, hfirst⟩, fun conn hconn => ?_⟩
  · rcases List.mem_append.mp hconn with hconn | hconn
    · exact Nat.lt_succ_of_lt (h.base.serial_lt conn hconn)
    · rw [List.mem_singleton.mp hconn]
      exact Nat.lt_succ_self _
  · rw [List.map_append, List.nodup_append]
    refine ⟨h.base.nodup, by simp, ?_⟩
    rintro n hn m hm rfl
    obtain ⟨conn, hconn, rfl⟩ := List.mem_map.mp hn
    have hserial : conn.serial = s.nextSerial := by simpa [Conn.new] using hm
    exact absurd (h.base.serial_lt conn hconn) (by omega)
  · exact (hwritten n).trans (h.base.unwritten n (Nat.le_of_succ_le hn))
  · rcases List.mem_append.mp hconn with hconn | hconn
    · exact (h.ready conn hconn).append (hwritten _)
    -- A WebSocket waits for its handshake, another client is announced at once.
    · rw [List.mem_singleton.mp hconn]
      refine .inl ?_
      rw [Conn.Shaken]
      cases isWebSocket with
      | true =>
        rw [if_pos ⟨rfl, rfl⟩]
        exact (hwritten _).trans (h.base.unwritten _ le_rfl)
      | false =>
        rw [if_neg (by simp [Conn.AwaitsHandshake, Conn.new])]
        exact ⟨_, List.mem_append_right _ (by simp [acceptClient, Conn.new]), rfl⟩

/-- **Accepting keeps the invariant**: a new WebSocket client has been sent nothing yet, and a TCP
    client is announced at once. -/
theorem ShakeInv.incommingConnection (h : ShakeInv received left s) (isWebSocket : Bool)
    (accepted : List Nat) :
    ShakeInv received left (incommingConnection isWebSocket s accepted) := by
  induction accepted generalizing s with
  | nil => exact h
  | cons newSd accepted ih => exact ih (h.accept isWebSocket newSd)

end Server

section Run

variable {received : Nat → Bytes → Prop}

/-- **One event**, on a descriptor that the rest of the batch does not name. -/
theorem ShakeInv.handleEvent {s s' : Server} {ev : EpollEvent} {rest : List Int}
    (h : ShakeInv received (· ∈ ev.fd :: rest) s) (htable : TableInv s) (hrest : ev.fd ∉ rest)
    (hreceived : ∀ n mBuff, ev.Receives n mBuff s → received n mBuff)
    (hrun : handleEvent s ev = .ok s') : ShakeInv received (· ∈ rest) s' := by
  have hweaken : ShakeInv received (· ∈ rest) s := h.weaken fun fd => List.mem_cons_of_mem _
  have hpass : ∀ conn : Conn, conn.peer.socket ≠ ev.fd →
      ClientDoes received (· ∈ ev.fd :: rest) (· ∈ rest) conn conn [] := by
    intro conn _ log _ hready
    refine ⟨.mute rfl (by simp) (by simp), ?_⟩
    rw [List.append_nil]
    exact hready.imp_right fun hdead => ⟨hdead.1, fun hfd => hdead.2 (List.mem_cons_of_mem _ hfd)⟩
  -- One case for each thing an event can be.
  cases handleEvent_does hrun with
  | hangUp _ =>
    have hwalk := removeClient_walk s.clients (fun conn (hfd : conn.peer.socket = ev.fd)
        log _ _ => by
      have hident : Conn.ident { conn with state := .deleteLater } = conn.ident := rfl
      exact ⟨.mute hident (by simp) (by simp), .inr ⟨rfl, hfd ▸ hrest⟩⟩) hpass
    simpa using h.walk htable hwalk
  | terminate =>
    exact hweaken.mutes true (List.Sublist.refl _) (by simp [Effect.Mute]) hweaken.ready
  | accept isWebSocket => exact hweaken.incommingConnection isWebSocket ev.accepted
  | ignore => exact hweaken
  | scan _ hscan =>
    refine h.walk htable (scanClients_walk (fun j conn conn' es hconn hfd hdata => ?_) hpass hscan)
    rw [Nat.zero_add] at hdata
    exact incommingData_does
      (fun mBuff hrecv => hreceived _ mBuff ⟨j, conn, hconn, rfl, hfd, hrecv⟩)
      (hfd ▸ List.mem_cons_self) (hfd ▸ hrest) hdata

/-- The events of a batch, which name each descriptor once. -/
theorem ShakeInv.events {s s' : Server} {events : List EpollEvent}
    (h : ShakeInv received (· ∈ events.map (·.fd)) s) (htable : TableInv s)
    (hnodup : (events.map (·.fd)).Nodup)
    (hreceived : ∀ n mBuff, Somewhere Network.handleEvent (EpollEvent.Receives n mBuff) s events →
      received n mBuff)
    (hrun : run Network.handleEvent s events = .ok s') (hclosed : AcceptsClosed s'.log) :
    ShakeInv received (fun _ => False) s' := by
  induction events generalizing s with
  | nil =>
    cases hrun
    exact h.weaken fun _ => False.elim
  | cons ev events ih =>
    obtain ⟨s₁, hev, hrest⟩ := bind_eq_ok.mp hrun
    obtain ⟨hfd, hnodup⟩ := List.nodup_cons.mp hnodup
    obtain ⟨hclosed₁, -⟩ := PassesOn.events hrest hclosed
    obtain ⟨-, htable₁⟩ := PassesOn.handleEvent hev hclosed₁
    have hreceived₁ := fun n mBuff h => hreceived n mBuff (.inr ⟨s₁, hev, h⟩)
    exact ih (h.handleEvent htable hfd (fun n mBuff h => hreceived n mBuff (.inl h)) hev)
      (htable₁ htable) hnodup hreceived₁ hrest

/-- **The end of a batch**: the clients marked for deletion are gone. -/
theorem ShakeInv.updateClients {left : Int → Prop} {s : Server} (h : ShakeInv received left s) :
    ShakeInv received (fun _ => True) (updateClients s) := by
  rw [updateClients_eq]
  refine h.mutes s.endServer List.filter_sublist (fun e he => ?_) fun conn hconn => ?_
  · obtain ⟨conn, -, he⟩ := List.mem_flatMap.mp he
    rw [closeClient] at he
    rcases List.mem_append.mp he with he | he
    · split_ifs at he
      · rw [List.mem_singleton.mp he]
        trivial
      · exact absurd he List.not_mem_nil
    · rcases List.mem_pair.mp he with rfl | rfl <;> trivial
  · obtain ⟨hconn, hkeep⟩ := List.mem_filter.mp hconn
    refine .inl ((h.ready conn hconn).resolve_right fun hdead => ?_)
    simp [mustErase, hdead.1] at hkeep

/-- The end of a turn keeps the invariant: it closes connections and announces nobody. -/
theorem ShakeInv.endTurn {s : Server} (h : ShakeInv received (fun _ => True) s) :
    ShakeInv received (fun _ => True) (endTurn s) := by
  rw [Network.endTurn]
  split_ifs
  · refine h.mutes s.endServer (List.nil_sublist _) (fun e he => ?_) (by simp)
    obtain ⟨conn, -, rfl⟩ := List.mem_map.mp he
    trivial
  · exact h

end Run

/-! ### Whole runs -/

/-- **What `epoll_wait` promises**: a batch names each descriptor once. -/
def EventsDistinct : Action → Prop
  | .batch events => (events.map (·.fd)).Nodup
  | .waitFailed _ | .sendToAllClients _ _ _ => True

/-- Nothing is sent to all clients while a WebSocket waits for its handshake. -/
def SendsToShaken (s : Server) : Action → Prop
  | .sendToAllClients _ _ _ => ∀ conn ∈ s.clients, ¬ conn.AwaitsHandshake
  | .batch _ | .waitFailed _ => True

instance (s : Server) : ∀ action, Decidable (SendsToShaken s action)
  | .sendToAllClients _ _ _ =>
    inferInstanceAs (Decidable (∀ conn ∈ s.clients, ¬ conn.AwaitsHandshake))
  | .batch _ | .waitFailed _ => isTrue trivial

section Run

variable {received : Nat → Bytes → Prop}

/-- **One action.** -/
theorem ShakeInv.step {s s' : Server} {action : Action} (h : ShakeInv received (fun _ => True) s)
    (htable : TableInv s) (hepoll : EventsDistinct action) (hsend : SendsToShaken s action)
    (hreceived : ∀ n mBuff, action.Receives n mBuff s → received n mBuff)
    (hrun : s.step action = .ok s') (hclosed : AcceptsClosed s'.log) :
    ShakeInv received (fun _ => True) s' := by
  cases Server.step_does hrun with
  | nothing => exact h
  | @batch events s₁ hend hevents =>
    have hpass : PassesOn s₁ (Network.endTurn (Network.updateClients s₁)) :=
      (PassesOn.updateClients _).trans _ _ _ (PassesOn.endTurn _)
    have hinv₁ := (h.weaken fun _ _ => trivial).events htable hepoll
      (fun n mBuff h => hreceived n mBuff ⟨hend, h⟩) hevents (hpass hclosed).1
    exact hinv₁.updateClients.endTurn
  | waitFailed retry =>
    exact (h.mutes true (List.Sublist.refl _) (by simp [Effect.Mute]) h.ready).endTurn
  | sendToAllClients data wsOnly answers =>
    exact h.walk htable (sendToClients_walk data wsOnly answers 0 fun conn hconn answers =>
      sendToClient_does received data wsOnly (hsend conn hconn) answers)

/-- **A run**, what it receives being among `received`. -/
theorem ShakeInv.actions {s s' : Server} {actions : List Action}
    (h : ShakeInv received (fun _ => True) s) (htable : TableInv s)
    (hepoll : ∀ action ∈ actions, EventsDistinct action)
    (hsend : Along Server.step SendsToShaken s actions)
    (hreceived : ∀ n mBuff, ReceivedOn s actions n mBuff → received n mBuff)
    (hrun : run Server.step s actions = .ok s') (hclosed : AcceptsClosed s'.log) :
    ShakeInv received (fun _ => True) s' := by
  induction actions generalizing s with
  | nil =>
    cases hrun
    exact h
  | cons action actions ih =>
    obtain ⟨s₁, hstep, hrest⟩ := bind_eq_ok.mp hrun
    obtain ⟨hepoll, hepolls⟩ := List.forall_mem_cons.mp hepoll
    obtain ⟨hclosed₁, -⟩ := PassesOn.actions hrest hclosed
    obtain ⟨-, htable₁⟩ := PassesOn.step hstep hclosed₁
    have hinv₁ := h.step htable hepoll hsend.1 (fun n mBuff h => hreceived n mBuff (.inl h)) hstep
      hclosed₁
    exact ih hinv₁ (htable₁ htable) hepolls (hsend.2 s₁ hstep)
      (fun n mBuff h => hreceived n mBuff (.inr ⟨s₁, hstep, h⟩)) hrest

end Run

/-- **The reply to the handshake comes first** in every run in which nothing is sent to all clients
    while a WebSocket waits for its handshake. -/
theorem handshake_first (tcpServer wsServer : Peer) (receiveFd : Int) (actions : List Action)
    (s : Server) (hrun : run Server.step (.start tcpServer wsServer receiveFd) actions = .ok s)
    (hepoll : ∀ action ∈ actions, EventsDistinct action) (hclosed : AcceptsClosed s.log)
    (hsend : Along Server.step SendsToShaken (.start tcpServer wsServer receiveFd) actions) :
    HandshakeFirst (ReceivedOn (.start tcpServer wsServer receiveFd) actions) s.log :=
  ((shakeInv_start _ tcpServer wsServer receiveFd).actions
    (tableInv_start tcpServer wsServer receiveFd) hepoll hsend (fun _ _ h => h) hrun
    hclosed).base.first

/-- A WebSocket gets a frame after its handshake. -/
def sendAfterHandshake : List Action :=
  [.batch [.listening 4 [8]], .batch [.readable 8 (wholeRecv upgradeRequest)],
    .sendToAllClients (ascii "hi") true fun _ _ => .accepted 4096]

/-- A WebSocket gets a frame while it waits for its handshake. -/
def sendBeforeHandshake : List Action :=
  [.batch [.listening 4 [8]], .sendToAllClients (ascii "hi") true fun _ _ => .accepted 4096]

theorem handshake_first_after :
    ∃ s, run Server.step (.start ⟨3, false⟩ ⟨4, true⟩ 5) sendAfterHandshake = .ok s ∧
      HandshakeFirst (ReceivedOn (.start ⟨3, false⟩ ⟨4, true⟩ 5) sendAfterHandshake) s.log := by
  have hok : (run Server.step (.start ⟨3, false⟩ ⟨4, true⟩ 5) sendAfterHandshake).map
      (fun s => decide (AcceptsClosed s.log)) = .ok true := by decide +kernel
  have hsend : Along Server.step SendsToShaken (.start ⟨3, false⟩ ⟨4, true⟩ 5)
      sendAfterHandshake := by decide +kernel
  rcases hrun : run Server.step (.start ⟨3, false⟩ ⟨4, true⟩ 5) sendAfterHandshake with e | s
  · rw [hrun] at hok
    cases hok
  · rw [hrun] at hok
    have hclosed : AcceptsClosed s.log := of_decide_eq_true (Except.ok.inj hok)
    refine ⟨s, rfl, handshake_first _ _ _ _ s hrun ?_ hclosed hsend⟩
    simp [sendAfterHandshake, EventsDistinct]

/-- The frame is the first thing that the WebSocket is written, and it is no reply to anything. -/
theorem not_handshake_first_before :
    ∃ s, run Server.step (.start ⟨3, false⟩ ⟨4, true⟩ 5) sendBeforeHandshake = .ok s ∧
      (∀ action ∈ sendBeforeHandshake, EventsDistinct action) ∧ AcceptsClosed s.log ∧
      ∀ received, ¬ HandshakeFirst received s.log := by
  obtain ⟨s, hs⟩ : ∃ s, run Server.step (.start ⟨3, false⟩ ⟨4, true⟩ 5) sendBeforeHandshake
      = .ok s := ⟨_, rfl⟩
  refine ⟨s, hs, by simp [sendBeforeHandshake, EventsDistinct], ?_, fun received h => ?_⟩
  · cases hs
    decide
  have hnone : ¬ Announced 0 s.log := by
    have hsilent : s.log = [.accepted 0 8, .epollAdd 8, .sent 8 [0x81, 2, 104, 105]] := by
      cases hs
      decide
    rintro ⟨conn, hconn, -⟩
    simp [hsilent] at hconn
  have hwritten : writtenOn 0 s.log = [0x81, 2, 104, 105] := by
    cases hs
    decide
  have hnotTcp : ¬ AnnouncedTcp 0 s.log := by
    rintro ⟨conn, hconn, hn, -⟩
    exact hnone ⟨conn, hconn, hn⟩
  obtain hnothing | ⟨reply, ⟨request, -, hreply⟩, rest, hrest⟩ := (h.now hnotTcp).waiting hnone
  · rw [hwritten] at hnothing
    cases hnothing
  -- A frame does not begin as a reply does.
  obtain ⟨rest', hrest'⟩ := hreply.status
  rw [hwritten, ← hrest'] at hrest
  have hhead : some (0x81 : UInt8) = some 72 := congrArg List.head? hrest
  exact absurd hhead (by decide)

end Icl.Network
