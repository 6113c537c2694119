import Icl.Network.Deliveries
import Icl.Network.EdgeTriggered
import Icl.Network.TcpClient
import Icl.Protocol.HttpReplies
import Icl.Security.Base64RoundTrip
import Icl.Security.Sha1Digest
import Mathlib.Data.List.Forall2
import Mathlib.Data.List.ReduceOption

namespace Icl.Network

open Icl.Cxx Icl.Format Icl.Protocol Icl.Security

/-!
# A WebSocket client and the server

* `upgradeReply` — the answer to a key, as RFC 6455 has it;
* `proceedWsHandshake_request` — the server on what the client sends: it gives that answer;
* `connectReply_eq` — what `Connect` makes of any answer;
* `session_from_client` — a whole session: the server takes all the messages of a client which has
  been told that there is no connection;
* `recvAll_frames` — what the client makes of the frames of the server.
-/

/-! ### The opening handshake -/

/-- The answer to a key. -/
def acceptKey (key : Bytes) : Bytes :=
  Rfc4648.encode (Fips180.sha1 (key ++ ascii "258EAFA5-E914-47DA-95CA-C5AB0DC85B11"))

/-- The status line of the reply, and its header fields. -/
def switchingProtocols : Bytes := ascii "HTTP/1.1 101 Switching Protocols"

def upgradeFields (key : Bytes) : List HeaderField :=
  [(ascii "Upgrade", ascii " websocket"), (ascii "Connection", ascii " Upgrade"),
    (ascii "Sec-WebSocket-Version", ascii " 13"),
    (ascii "Sec-WebSocket-Accept", 0x20 :: acceptKey key)]

/-- The reply to an upgrade request with the key. -/
def upgradeReply (key : Bytes) : Bytes := messageHead switchingProtocols (upgradeFields key)

/-- The headers of the request, in the order of the map. -/
def requestHeaders (host key : Bytes) : StringMap :=
  [(ascii "Connection", ascii "keep-alive, Upgrade"), (ascii "Host", host),
    (ascii "Sec-WebSocket-Key", key), (ascii "Sec-WebSocket-Version", ascii "13"),
    (ascii "Upgrade", ascii "websocket")]

/-- The request the client builds is a request line and headers as `GenerateRequest` writes them. -/
theorem buildWebSocketHandshake_eq (client : TcpClient) (random : Bytes) :
    client.buildWebSocketHandshake random
      = messageHead (requestStart (ascii "GET") client.mWsUri (ascii "HTTP/1.1"))
        ((requestHeaders client.mHost (Rfc4648.encode random)).map sentField) ++ [] := by
  rw [← Base64.encode_eq_rfc]
  exact generateRequest_eq { HttpRequest.new with
    query := client.mWsUri
    headers := requestHeaders client.mHost (Base64.encode random)
    body := [] }

/-- The characters of a key are no blanks and no line ends. -/
theorem key_plain (random : Bytes) :
    ∀ c ∈ Rfc4648.encode random, isBlank c = false ∧ c ≠ newline := by
  intro c hc
  rw [← Base64.encode_eq_rfc] at hc
  obtain ⟨chars, hchars, htext⟩ := (Base64.isText_encode random).shape
  rw [htext] at hc
  have hall : ∀ c ∈ Base64.base64Chars, isBlank c = false ∧ c ≠ newline := by
    decide +kernel
  rcases List.mem_append.mp hc with hc | hc
  · exact hall c (hchars c hc)
  · rw [(List.mem_replicate.mp hc).2]
    decide

/-- The key has no blank at its ends, so trimming takes off the one behind the colon only. -/
theorem trim_key (random : Bytes) :
    trim (0x20 :: Rfc4648.encode random) = Rfc4648.encode random :=
  trim_sent (fun hc => (key_plain random _ hc).2 rfl)
    (fun c hc => (key_plain random c (List.mem_of_mem_head? hc)).1)
    (fun c hc => (key_plain random c (List.mem_of_mem_getLast? hc)).1)

/-- The target of a request, and the host it names. -/
structure Opening (client : TcpClient) : Prop where
  webSocket : client.mIsWebSocket = true
  uri : 0x20 ∉ client.mWsUri ∧ newline ∉ client.mWsUri
  host : newline ∉ client.mHost

/-- The headers of the request are ones the parser reads back. -/
theorem requestHeaders_valid {host key : Bytes} (hhost : newline ∉ host) (hkey : newline ∉ key) :
    ∀ field ∈ (requestHeaders host key).map sentField, field.Valid := by
  have hspace : newline ≠ 0x20 := by decide
  have hnames : ∀ name ∈ [ascii "Connection", ascii "Host", ascii "Sec-WebSocket-Key",
      ascii "Sec-WebSocket-Version", ascii "Upgrade"], 0x3A ∉ name ∧ newline ∉ name := by decide
  have hvalues : ∀ header ∈ requestHeaders host key, newline ∉ header.2 := by
    intro header hheader
    simp only [requestHeaders, List.mem_cons, List.not_mem_nil, or_false] at hheader
    rcases hheader with rfl | rfl | rfl | rfl | rfl
    · decide
    · exact hhost
    · exact hkey
    · decide
    · decide
  intro field hfield
  obtain ⟨header, hheader, rfl⟩ := List.mem_map.mp hfield
  have hname := hnames header.1 (List.mem_map_of_mem (f := Prod.fst) hheader)
  exact ⟨hname.1, hname.2, List.not_mem_cons_of_ne_of_not_mem hspace (hvalues header hheader)⟩

/-- **The server reads the key of the client.** -/
theorem parseWebSocketRequest_request {client : TcpClient} (h : Opening client) (random : Bytes)
    (hsize : (client.buildWebSocketHandshake random).length < 2 ^ 32) :
    ∃ request, parseWebSocketRequest (client.buildWebSocketHandshake random) .new
      = .ok (true, { request, key := Rfc4648.encode random, protocol := [] }) := by
  have hvalid := requestHeaders_valid h.host (fun hc => (key_plain random _ hc).2 rfl)
  rw [buildWebSocketHandshake_eq] at hsize ⊢
  obtain ⟨request, hparse, hheaders⟩ :
      ∃ request, parseRequestHeader (messageHead (requestStart (ascii "GET") client.mWsUri
        (ascii "HTTP/1.1")) ((requestHeaders client.mHost (Rfc4648.encode random)).map sentField)
        ++ []) .new = .ok (true, request) ∧ request.headers = insertFields
        ((requestHeaders client.mHost (Rfc4648.encode random)).map sentField) [] :=
    ⟨_, parseRequestHeader_message (by decide) h.uri (by decide) hvalid [] hsize, rfl⟩
  -- The headers are distinct, so looking one up gives what was sent under this name.
  have hfind : ∀ name, OrdMap.find? name (insertFields
      ((requestHeaders client.mHost (Rfc4648.encode random)).map sentField) [])
      = OrdMap.find? name (((requestHeaders client.mHost (Rfc4648.encode random)).map
        sentField).map storedField) := by
    intro name
    rw [insertFields, OrdMap.find?_insertAll name _ OrdMap.sorted_nil]
    rfl
  have hkey : OrdMap.find? ((ascii "Sec-WebSocket-Key").map tolower) (insertFields
      ((requestHeaders client.mHost (Rfc4648.encode random)).map sentField) [])
      = some (Rfc4648.encode random) := by
    rw [hfind]
    exact congrArg some (trim_key random)
  have hupgrade : OrdMap.find? ((ascii "Upgrade").map tolower) (insertFields
      ((requestHeaders client.mHost (Rfc4648.encode random)).map sentField) [])
      = some (ascii "websocket") := by
    rw [hfind]
    rfl
  -- The two headers the server asks for are there; the others are not looked at.
  refine ⟨request, ?_⟩
  rw [parseWebSocketRequest, show WebSocketRequest.new.request = .new from rfl, hparse]
  simp only [ok_bind, getRequestHeaderValue, hheaders, hkey, hupgrade]
  rfl

/-- `Upgrade` gives the reply of the standard. -/
theorem upgrade_eq (request : HttpRequest) (key : Bytes) :
    WebSocketRequest.upgrade { request, key, protocol := [] } = .ok (upgradeReply key) := by
  have haccept : WebSocketRequest.accept { request, key, protocol := [] }
      = .ok (acceptKey key) := by
    obtain ⟨sha, hupdate, hfinal⟩ := Sha1.final_update (key ++ WebSocketRequest.magic)
    rw [WebSocketRequest.accept, hupdate, ok_bind, hfinal, Base64.encode_eq_rfc]
    rfl
  rw [WebSocketRequest.upgrade, haccept, ok_bind]
  simp [upgradeReply, upgradeFields, messageHead, headerBlock, HeaderField.encode, HeaderField.line,
    switchingProtocols, crlf, ascii]
  decide

/-- The reply has 156 bytes, whatever the key. -/
theorem length_upgradeReply (key : Bytes) : (upgradeReply key).length = 156 := by
  have hkey : (acceptKey key).length = 28 := by
    rw [acceptKey, ← Base64.encode_eq_rfc, (Base64.isText_encode _).length_eq, Fips180.length_sha1]
  simp [upgradeReply, upgradeFields, messageHead, headerBlock, HeaderField.encode, HeaderField.line,
    switchingProtocols, crlf, ascii, hkey]

/-- A socket that takes all it is offered. -/
def takesAll : Nat → SendAnswer := fun _ => .accepted (2 ^ 32)

/-- A socket that takes all it is offered is written to by one call. -/
theorem write_takesAll {input : Bytes} (h : input.length < 2 ^ 32) :
    write input takesAll = { ret := true, written := input.length, sent := input } := by
  cases input with
  | nil => rfl
  | cons b bs =>
    have hall : min (2 ^ 32 + 1) (b :: bs).length = (b :: bs).length := by omega
    have hmod : (0 + (b :: bs).length) % 2 ^ 32 = (b :: bs).length := by
      rw [Nat.zero_add, Nat.mod_eq_of_lt h]
    have hpos : (b :: bs).length > 0 := Nat.succ_pos _
    have hfirst : write (b :: bs) takesAll
        = writeLoop takesAll bs.length 1 ((b :: bs).drop (min (2 ^ 32 + 1) (b :: bs).length))
          { ret := true, written := (0 + min (2 ^ 32 + 1) (b :: bs).length) % 2 ^ 32
            sent := [] ++ (b :: bs).take (min (2 ^ 32 + 1) (b :: bs).length) } := by
      rw [write, List.length_cons, writeLoop]
      exact if_pos hpos
    rw [hfirst, hall, hmod, List.drop_length, List.take_length, List.nil_append]
    cases bs <;> rfl

/-- **The handshake at the server**, on the request of a client. -/
theorem proceedWsHandshake_request {client : TcpClient} (h : Opening client) (random : Bytes)
    (hsize : (client.buildWebSocketHandshake random).length < 2 ^ 32) :
    proceedWsHandshake (client.buildWebSocketHandshake random) takesAll
      = .ok (true, some
          { ret := true, written := 156, sent := upgradeReply (Rfc4648.encode random) }) := by
  obtain ⟨request, hparse⟩ := parseWebSocketRequest_request h random hsize
  have hlength := length_upgradeReply (Rfc4648.encode random)
  have hwrite := write_takesAll (show (upgradeReply (Rfc4648.encode random)).length < 2 ^ 32 by
    rw [hlength]; decide)
  rw [proceedWsHandshake, hparse, ok_bind]
  dsimp only
  rw [if_pos rfl, upgrade_eq, ok_bind]
  simp only [hwrite, hlength]
  rfl

/-! ### The answer at the client -/

/-- **What the header loop returns**: whether all lines before the separator have a colon. -/
theorem headerLoop_success {fuel : Nat} {iss : IStringStream} (headers : StringMap)
    (success : Bool) (hgood : iss.Intact) (hfuel : iss.rest.length < fuel)
    (hempty : [] ∉ headerLines (lines iss.rest)) :
    ∃ headers' iss', headerLoop fuel iss headers success = .ok (headers', success &&
      (headerLines (lines iss.rest)).all fun line => (storedLine line).isSome, iss') := by
  induction fuel generalizing iss headers success with
  | zero => omega
  | succ fuel ih =>
    rcases headerLoop_turn fuel hgood headers success with
      ⟨hnone, iss', hturn⟩ | ⟨line, iss', hlines, hless, hgood', hturn⟩
    · exact ⟨headers, iss', by simp [hturn, hnone, headerLines]⟩
    · rw [hlines] at hempty ⊢
      rw [hturn]
      -- The blank line ends the headers; any other line is looked at and the loop goes on.
      by_cases hsep : line = separatorLine
      · exact ⟨headers, iss', by simp [hsep, headerLines]⟩
      · have htake :
            headerLines (line :: lines iss'.rest) = line :: headerLines (lines iss'.rest) :=
          List.takeWhile_cons_of_pos (by simpa using hsep)
        rw [htake] at hempty ⊢
        obtain ⟨hne, hrest⟩ : line ≠ [] ∧ [] ∉ headerLines (lines iss'.rest) := by
          simpa [eq_comm] using hempty
        rw [if_neg hsep, headerLine_eq hne, ok_bind, List.all_cons, ← Bool.and_assoc]
        exact ih _ _ hgood' (by omega) hrest

/-- So does the parser of the reply around it. -/
theorem parseReplyHeaders_success (garbage : Nat) {payload : Bytes} (reply : HttpReply)
    (hempty : [] ∉ headerLines (lines payload)) :
    ∃ reply', parseReplyHeaders garbage payload reply = .ok
      ((headerLines (lines payload)).all fun line => (storedLine line).isSome, reply') := by
  obtain ⟨headers, iss, hloop⟩ := headerLoop_success reply.headers true
    (IStringStream.intact_ofString payload) (Nat.lt_succ_self payload.length) hempty
  rw [Bool.true_and] at hloop
  rw [parseReplyHeaders, hloop, ok_bind]
  dsimp only
  split
  · split_ifs
    · exact ⟨_, rfl⟩
    · exact ⟨_, rfl⟩
  · exact ⟨_, rfl⟩

/-- **What `Connect` makes of an answer**: whether all its header lines have a colon, the first line
    being one of them. -/
theorem connectReply_eq (garbage : Nat) (b : UInt8) (bs : Bytes)
    (hempty : [] ∉ headerLines (lines ((b :: bs).take simpleRecvMax))) :
    TcpClient.connectReply garbage (some (.data b bs))
      = .ok ((headerLines (lines ((b :: bs).take simpleRecvMax))).all
          fun line => (storedLine line).isSome) := by
  obtain ⟨reply, hparse⟩ := parseReplyHeaders_success garbage TcpClient.newReply hempty
  have hrecv : simpleRecvWithTimeout [] (some (.data b bs))
      = (true, (b :: bs).take simpleRecvMax) := rfl
  rw [TcpClient.connectReply, hrecv]
  dsimp only
  rw [hparse]
  rfl

/-- The lines of the reply. -/
def upgradeLines (key : Bytes) : List Bytes :=
  (switchingProtocols ++ [0x0D]) :: (upgradeFields key).map HeaderField.line

/-- The reply is its lines and a blank line. -/
theorem upgradeReply_lines (key : Bytes) :
    upgradeReply key = unlines (upgradeLines key) ++ crlf := by
  simp [upgradeReply, upgradeLines, upgradeFields, messageHead, headerBlock, HeaderField.encode,
    unlines, crlf, newline]

/-- None of its lines is blank or holds a line feed. -/
theorem isHeaderLine_upgrade {key : Bytes} (hkey : newline ∉ acceptKey key) :
    ∀ line ∈ upgradeLines key, IsHeaderLine line := by
  have hspace : newline ≠ 0x20 := by decide
  intro line hline
  rcases List.mem_cons.mp hline with rfl | hline
  · exact ⟨by decide, by decide, by decide⟩
  · obtain ⟨field, hfield, rfl⟩ := List.mem_map.mp hline
    refine isHeaderLine_field ?_
    simp only [upgradeFields, List.mem_cons, List.not_mem_nil, or_false] at hfield
    rcases hfield with rfl | rfl | rfl | rfl
    · exact ⟨by decide, by decide, by decide⟩
    · exact ⟨by decide, by decide, by decide⟩
    · exact ⟨by decide, by decide, by decide⟩
    · exact ⟨by show (0x3A : UInt8) ∉ ascii "Sec-WebSocket-Accept"; decide,
        by show newline ∉ ascii "Sec-WebSocket-Accept"; decide,
        List.not_mem_cons_of_ne_of_not_mem hspace hkey⟩

/-- A text that stops anywhere has a part of the first line. -/
theorem firstLine_prefix {line rest text : Bytes} (htext : text <+: line ++ newline :: rest) :
    text.takeWhile (· != newline) <+: line := by
  have hall := (List.takeWhile_prefix (· != newline)).trans htext
  rcases List.prefix_or_prefix_of_prefix hall (List.prefix_append _ _) with hpart | ⟨more, hmore⟩
  · exact hpart
  · rw [← hmore, List.prefix_append_right_inj] at hall
    cases more with
    | nil => rw [← hmore, List.append_nil]
    | cons c cs =>
      -- It would go on behind the end of the line.
      have hc : c = newline := (List.cons_prefix_cons.mp hall).1
      have hmem : c ∈ text.takeWhile (· != newline) := by
        rw [← hmore]
        exact List.mem_append_right _ List.mem_cons_self
      have hother := List.mem_takeWhile_imp hmem
      simp [hc] at hother

/-- **The client turns the reply down**, wherever it ends: its first line has no colon. -/
theorem connectReply_upgrade (garbage : Nat) (key : Bytes) {b : UInt8} {bs : Bytes}
    (hpiece : b :: bs <+: upgradeReply key) :
    TcpClient.connectReply garbage (some (.data b bs)) = .ok false := by
  have hreceived : (b :: bs).take simpleRecvMax <+: unlines (upgradeLines key) ++ (crlf ++ []) := by
    rw [List.append_nil, ← upgradeReply_lines]
    exact (List.take_prefix _ _).trans hpiece
  have haccept : newline ∉ acceptKey key := fun hc => (key_plain _ _ hc).2 rfl
  have hlines := isHeaderLine_upgrade haccept
  have hread := headerLines_of_prefix hlines hreceived
  rw [connectReply_eq garbage b bs hread]
  -- What there is of the first line has no colon.
  have hfirst : (b :: bs).take simpleRecvMax = b :: bs.take 1023 := rfl
  have hpart : (b :: bs.take 1023).takeWhile (· != newline) <+: switchingProtocols ++ [0x0D] := by
    rw [hfirst, upgradeLines, unlines_cons, List.append_assoc, List.cons_append] at hreceived
    exact firstLine_prefix hreceived
  have hsep : (b :: bs.take 1023).takeWhile (· != newline) ≠ separatorLine := by
    intro heq
    rw [heq] at hpart
    revert hpart
    decide
  have hcolon : 0x3A ∉ ((b :: bs.take 1023).takeWhile (· != newline)).dropLast := by
    have hplain : 0x3A ∉ switchingProtocols ++ [0x0D] := by decide
    exact fun hc => hplain (hpart.subset (List.mem_of_mem_dropLast hc))
  rw [hfirst, lines_cons, headerLines, List.takeWhile_cons_of_pos (by simpa using hsep),
    List.all_cons, storedLine_none hcolon]
  rfl

/-! ### The session at the server -/

/-- A WebSocket that has sent nothing yet. -/
structure Waiting (conn : Conn) : Prop where
  webSocket : conn.peer.isWebSocket = true
  closed : conn.state = .closed

/-- The client, once `Connect` has been given its host. -/
def TcpClient.toHost (client : TcpClient) (host : Bytes) : TcpClient :=
  { client with mHost := host }

/-- Connecting to a WebSocket writes the request and looks at the first piece of the reply. -/
theorem connect_webSocket {client : TcpClient} {host : Bytes}
    (h : (client.toHost host).mIsWebSocket = true) (garbage : Nat) (valid : Bool)
    {answers : ConnectAnswers} (hconnected : answers.connected = true) :
    client.connect garbage host valid answers
      = let req := (client.toHost host).buildWebSocketHandshake answers.random
        let w := write req answers.send
        if req.length ≠ w.written then .ok (false, client.toHost host, some w)
        else TcpClient.connectReply garbage answers.reply >>= fun ret =>
          .ok (ret, client.toHost host, some w) := by
  exact (if_pos hconnected).trans (if_pos h)

/-- A short message is received in one call. -/
theorem recv_short {bytes : Bytes} (hne : bytes ≠ []) (hshort : bytes.length ≤ maxRecv) :
    recv [] 0 (wholeRecv bytes).recv = (true, bytes) := by
  rw [recv_wholeRecv hne, List.take_of_length_le hshort]

/-- **The first `IncommingData` of a WebSocket**, on the request of a client. -/
theorem incommingData_request {client : TcpClient} (h : Opening client) (random : Bytes)
    (hshort : (client.buildWebSocketHandshake random).length ≤ maxRecv) {conn : Conn}
    (hwaiting : Waiting conn) :
    incommingData conn (wholeRecv (client.buildWebSocketHandshake random))
      = .ok ({ conn with state := .connected },
          [.sent conn.peer.socket (upgradeReply (Rfc4648.encode random)),
            .enqueue (.newConnection { conn with state := .connected })]) := by
  have hne : client.buildWebSocketHandshake random ≠ [] := by
    rw [buildWebSocketHandshake_eq]
    exact List.cons_ne_nil _ _
  have hclosed : conn.isClosed = true := by rw [Conn.isClosed, hwaiting.closed]; rfl
  have hsize : (client.buildWebSocketHandshake random).length < 2 ^ 32 :=
    lt_of_le_of_lt hshort (by decide)
  have hproceed := proceedWsHandshake_request h random hsize
  rw [incommingData, recv_short hne hshort]
  dsimp only
  rw [hwaiting.webSocket, hclosed, if_pos rfl, if_pos rfl, incommingHandshake,
    show (wholeRecv (client.buildWebSocketHandshake random)).send = takesAll from rfl, hproceed]
  rfl

/-- The frame of a text. -/
def textFrame (text : Bytes) : WsFrame := ⟨true, .text, none, text⟩

/-- A text is sent as an unmasked frame of its own. -/
theorem buildWsFrame_text {text : Bytes}
    (hshort : (buildWsFrame websocketOpcodeText text).length ≤ maxRecv) :
    buildWsFrame websocketOpcodeText text = (textFrame text).encode := by
  have hle : text.length ≤ (buildWsFrame websocketOpcodeText text).length := by
    rw [buildWsFrame]
    split_ifs <;> exact (List.suffix_append _ _).length_le
  exact buildWsFrame_eq_encode .text (lt_of_le_of_lt (hle.trans hshort) (by decide))

/-- What `Send` writes. -/
theorem send_text {client : TcpClient} (h : client.mIsWebSocket = true) {text : Bytes}
    (hshort : (buildWsFrame websocketOpcodeText text).length ≤ maxRecv) :
    client.send text takesAll
      = (true, { ret := true, written := (textFrame text).encode.length
                 sent := (textFrame text).encode }) := by
  have hsize : (textFrame text).encode.length < 2 ^ 32 := by
    rw [← buildWsFrame_text hshort]
    exact lt_of_le_of_lt hshort (by decide)
  rw [TcpClient.send, h, if_pos rfl, buildWsFrame_text hshort, write_takesAll hsize]
  simp

/-- **A session of a client with the server.**  The server answers the request of `Connect` as
    RFC 6455 has it, tells the application that there is a connection, and hands over the texts that
    the client sends.  But `Connect` says that there is none, whatever comes of the reply. -/
theorem session_from_client {client : TcpClient} {host : Bytes} (h : Opening (client.toHost host))
    (random : Bytes)
    (hshort : ((client.toHost host).buildWebSocketHandshake random).length ≤ maxRecv)
    {conn : Conn} (hwaiting : Waiting conn) {texts : List Bytes}
    (htexts : ∀ text ∈ texts, (buildWsFrame websocketOpcodeText text).length ≤ maxRecv) :
    (∃ conn' effects, incommingAll conn
        (wholeRecv ((client.toHost host).buildWebSocketHandshake random) ::
          texts.map fun text => wholeRecv ((client.toHost host).send text takesAll).2.sent)
        = .ok (conn', .sent conn.peer.socket (upgradeReply (Rfc4648.encode random)) ::
          .enqueue (.newConnection { conn with state := .connected }) :: effects) ∧
      deliveredPayloads effects = texts) ∧
    ∀ (garbage : Nat) (valid : Bool) (b : UInt8) (bs : Bytes),
      b :: bs <+: upgradeReply (Rfc4648.encode random) →
      client.connect garbage host valid
          { connected := true, random, send := takesAll, reply := some (.data b bs) }
        = .ok (false, client.toHost host, some
          { ret := true
            written := ((client.toHost host).buildWebSocketHandshake random).length
            sent := (client.toHost host).buildWebSocketHandshake random }) := by
  refine ⟨?_, fun garbage valid b bs hpiece => ?_⟩
  · have hopen : Open { conn with state := .connected } := ⟨hwaiting.webSocket, rfl⟩
    -- Each text comes as one frame in one `recv`.
    have hrecv : List.Forall₂ (fun a f => recv [] 0 a.recv = (true, f.encode))
        (texts.map fun text => wholeRecv ((client.toHost host).send text takesAll).2.sent)
        (texts.map textFrame) := by
      rw [List.forall₂_map_left_iff, List.forall₂_map_right_iff, List.forall₂_same]
      intro text htext
      have hle := htexts text htext
      rw [send_text h.webSocket hle]
      rw [buildWsFrame_text hle] at hle
      exact recv_short (List.cons_ne_nil _ _) hle
    have hdata : ∀ f ∈ texts.map textFrame, (f.opcode = .text ∨ f.opcode = .binary) ∧
        f.fin = true := by
      intro f hf
      obtain ⟨text, -, rfl⟩ := List.mem_map.mp hf
      exact ⟨.inl rfl, rfl⟩
    have hclose : ∀ f ∈ texts.map textFrame, f.opcode ≠ .close := by
      intro f hf
      obtain ⟨text, -, rfl⟩ := List.mem_map.mp hf
      exact WsOpcode.noConfusion
    -- What the server hands over is the data of these frames.
    obtain ⟨conn', effects, hrun, hdelivered⟩ := incommingAll_delivers hopen hrecv hclose
    refine ⟨conn', effects, ?_, ?_⟩
    · rw [incommingAll, incommingData_request h random hshort hwaiting, ok_bind]
      dsimp only
      rw [hrun]
      rfl
    · rw [hdelivered, delivered_unfragmented hdata, List.map_map]
      exact List.map_id texts
  · have hsize : ((client.toHost host).buildWebSocketHandshake random).length < 2 ^ 32 :=
      lt_of_le_of_lt hshort (by decide)
    rw [connect_webSocket h.webSocket garbage valid rfl]
    dsimp only
    rw [write_takesAll hsize, if_neg (fun hne => hne rfl), connectReply_upgrade garbage _ hpiece]
    rfl

/-- A client of the path `/chat`. -/
def chatClient : TcpClient := ⟨[], true, ascii "/chat", 4⟩

/-- The client says hello, whatever it has been told. -/
theorem session_from_client_hello :
    (∃ conn' effects, incommingAll ⟨0, ⟨7, true⟩, .closed, []⟩
        (wholeRecv ((chatClient.toHost (ascii "h")).buildWebSocketHandshake (ascii "r")) ::
          [ascii "hello"].map fun text =>
            wholeRecv ((chatClient.toHost (ascii "h")).send text takesAll).2.sent)
        = .ok (conn', .sent 7 (upgradeReply (Rfc4648.encode (ascii "r"))) ::
          .enqueue (.newConnection ⟨0, ⟨7, true⟩, .connected, []⟩) :: effects) ∧
      deliveredPayloads effects = [ascii "hello"]) ∧
    ∀ (garbage : Nat) (valid : Bool) (b : UInt8) (bs : Bytes),
      b :: bs <+: upgradeReply (Rfc4648.encode (ascii "r")) →
      chatClient.connect garbage (ascii "h") valid
          { connected := true, random := ascii "r", send := takesAll, reply := some (.data b bs) }
        = .ok (false, chatClient.toHost (ascii "h"), some
          { ret := true
            written := ((chatClient.toHost (ascii "h")).buildWebSocketHandshake (ascii "r")).length
            sent := (chatClient.toHost (ascii "h")).buildWebSocketHandshake (ascii "r") }) :=
  session_from_client ⟨rfl, by decide, by decide⟩ (ascii "r") (by decide +kernel) ⟨rfl, rfl⟩
    (by decide)

/-! ### The frames of the server at the client -/

/-- The `recv` that brings a frame. -/
def arrival (f : WsFrame) : RecvAnswer := .data (f.encode.headD 0) f.encode.tail

/-- A simple receive gives the first bytes of a frame, as many as its buffer holds. -/
theorem simpleRecv_arrival (f : WsFrame) :
    simpleRecvWithTimeout [] (some (arrival f)) = (true, f.encode.take simpleRecvMax) := rfl

/-- Successive calls of `RecvWithTimeout` on one string: what they hand over, and what they
    write. -/
def recvAll : TcpClient → Bytes → List (Option RecvAnswer) →
    Except Fault (List Bytes × List Written)
  | _, _, [] => .ok ([], [])
  | client, output, answer :: rest => do
    let r ← client.recvWithTimeout output answer true takesAll
    let (outputs, writes) ← recvAll r.client r.output rest
    return ((if r.hasData then [r.output] else []) ++ outputs, r.written.toList ++ writes)

/-- An empty pong. -/
def pongWritten : Written := { ret := true, written := 2, sent := [0x8A, 0x00] }

/-- **One `RecvWithTimeout` on a whole frame**, of any kind but a close. -/
theorem recvWithTimeout_frame {client : TcpClient} (h : client.mIsWebSocket = true) {f : WsFrame}
    (hshort : f.encode.length ≤ simpleRecvMax) (hclose : f.opcode ≠ .close) (output : Bytes)
    (valid : Bool) :
    client.recvWithTimeout output (some (arrival f)) valid takesAll = .ok
      { hasData := decide (frameResult f = .wsData), output := framePayload f output, client
        written := if f.opcode = .ping then some pongWritten else none } := by
  have hsize : f.encode.length < 2 ^ 32 := lt_of_le_of_lt hshort (by decide)
  rw [TcpClient.recvWithTimeout, simpleRecv_arrival, List.take_of_length_le hshort]
  dsimp only
  rw [h, if_pos rfl, decodeWsData_encode f hsize, ok_bind]
  dsimp only
  cases hop : f.opcode with
  | close => exact absurd hop hclose
  | ping => simp only [frameResult, hop]; rfl
  | _ => cases hfin : f.fin <;> simp only [frameResult, hop, hfin] <;> rfl

/-- **What the client makes of the frames of the server**, with any number of calls in which nothing
    comes: it hands over the messages, and answers each ping with a pong. -/
theorem recvAll_frames {client : TcpClient} (h : client.mIsWebSocket = true)
    (arrivals : List (Option WsFrame)) (output : Bytes)
    (hshort : ∀ f ∈ arrivals.reduceOption, f.encode.length ≤ simpleRecvMax)
    (hclose : ∀ f ∈ arrivals.reduceOption, f.opcode ≠ .close) :
    recvAll client output (arrivals.map (·.map arrival))
      = .ok (delivered output arrivals.reduceOption,
          List.replicate (arrivals.reduceOption.countP (·.opcode == .ping)) pongWritten) := by
  induction arrivals generalizing output with
  | nil => rfl
  | cons a arrivals ih =>
    cases a with
    | none =>
      rw [List.reduceOption_cons_of_none] at hshort hclose ⊢
      have hnone : client.recvWithTimeout output none true takesAll
          = .ok { hasData := false, output, client, written := none } := rfl
      rw [List.map_cons, Option.map_none, recvAll, hnone, ok_bind]
      dsimp only
      rw [ih output hshort hclose]
      rfl
    | some f =>
      rw [List.reduceOption_cons_of_some] at hshort hclose ⊢
      obtain ⟨hf, hfs⟩ := List.forall_mem_cons.mp hshort
      obtain ⟨hopen, hopens⟩ := List.forall_mem_cons.mp hclose
      rw [List.map_cons, Option.map_some, recvAll, recvWithTimeout_frame h hf hopen, ok_bind]
      dsimp only
      rw [ih _ hfs hopens, ok_bind, delivered, List.countP_cons]
      -- A data frame gives its payload, any other frame nothing.
      have hout : (if decide (frameResult f = .wsData) = true then [framePayload f output] else [])
          ++ delivered (framePayload f output) arrivals.reduceOption
          = if frameResult f = .wsData then
              framePayload f output :: delivered (framePayload f output) arrivals.reduceOption
            else delivered (framePayload f output) arrivals.reduceOption := by
        by_cases hdata : frameResult f = .wsData <;> simp [hdata]
      -- A PING is answered by a PONG, any other frame by nothing.
      have hpong : ∀ n, (if f.opcode = .ping then some pongWritten else none).toList
          ++ List.replicate n pongWritten
          = List.replicate (n + if (f.opcode == .ping) = true then 1 else 0) pongWritten := by
        intro n
        by_cases hping : f.opcode = .ping <;> simp [hping, List.replicate_succ]
      rw [hout, hpong]
      rfl

/-- **The client on the messages of a server**, each frame in a `recv` of its own: it hands over the
    messages, fragmented or not, whatever pings come between the fragments. -/
theorem client_receives_messages {client : TcpClient} (h : client.mIsWebSocket = true)
    {arrivals : List (Option WsFrame)} {msgs : List Message}
    (hmsgs : arrivals.reduceOption.filter (fun f => !isControl f) = msgs.flatMap Message.frames)
    (hctl : ∀ f ∈ arrivals.reduceOption, isControl f → f.opcode = .ping ∧ f.fin = true)
    (hshort : ∀ f ∈ arrivals.reduceOption, f.encode.length ≤ simpleRecvMax) (output : Bytes) :
    recvAll client output (arrivals.map (·.map arrival))
      = .ok (msgs.map Message.data,
          List.replicate (arrivals.reduceOption.countP (·.opcode == .ping)) pongWritten) := by
  have hother : ∀ f ∈ arrivals.reduceOption, f.opcode ≠ .close ∧ f.opcode ≠ .pong := by
    intro f hf
    refine ⟨fun hop => ?_, fun hop => ?_⟩
    · have hping := (hctl f hf (by simp [isControl, hop])).1
      simp [hop] at hping
    · have hping := (hctl f hf (by simp [isControl, hop])).1
      simp [hop] at hping
  have hpings : ∀ f ∈ arrivals.reduceOption, isControl f → isPingPong f :=
    fun f hf hcontrol => ⟨.inl (hctl f hf hcontrol).1, (hctl f hf hcontrol).2⟩
  rw [recvAll_frames h arrivals output hshort fun f hf => (hother f hf).1,
    delivered_eq_assemble hpings (fun f hf => (hother f hf).2), ← assemble_filter, hmsgs,
    assemble_messages]

/-- A message in two fragments, with a ping and a call in vain between them. -/
theorem client_receives_messages_two :
    recvAll chatClient [] ([some ⟨false, .text, none, [0x68]⟩, none, some ⟨true, .ping, none, []⟩,
        some ⟨true, .continuation, none, [0x69]⟩].map (·.map arrival))
      = .ok ([⟨.text, [(none, [0x68]), (none, [0x69])], .inl rfl, by simp⟩].map Message.data,
          List.replicate 1 pongWritten) :=
  have hmsgs : List.filter (fun f => !isControl f) (List.reduceOption
      [some ⟨false, .text, none, [0x68]⟩, none, some ⟨true, .ping, none, []⟩,
        some ⟨true, .continuation, none, [0x69]⟩])
      = [⟨.text, [(none, [0x68]), (none, [0x69])], .inl rfl, by simp⟩].flatMap Message.frames := by
    decide
  client_receives_messages rfl hmsgs (by decide) (by decide) []

/-! ### Frames that are too long -/

/-- A byte in front of the cut is still there. -/
theorem byteAt_take {buf : Bytes} {n k : Nat} (h : k < n) :
    byteAt (buf.take n) k = byteAt buf k := by
  rw [byteAt, byteAt, List.getD_eq_getElem?_getD, List.getD_eq_getElem?_getD,
    List.getElem?_take_of_lt h]

/-- So is an extended length. -/
theorem declared_take {buf : Bytes} {n k : Nat} (h : 2 + k ≤ n) :
    declared k (buf.take n) = declared k buf := by
  rw [declared, declared, List.drop_take, List.take_take, Nat.min_eq_left (by omega)]

/-- The longest header has 14 bytes, so that with these all is known. -/
theorem lengthsOf_take {buf : Bytes} {n : Nat} (hn : 14 ≤ n) (hlong : n ≤ buf.length)
    (hsize : buf.length < 2 ^ 32) : lengthsOf (buf.take n) = lengthsOf buf := by
  have hmask : maskBit (buf.take n) ↔ maskBit buf := by
    rw [maskBit, maskBit, byteAt_take (by omega)]
  have hkey : keyLen (buf.take n) = keyLen buf := if_congr hmask rfl rfl
  have hlen7 : len7 (buf.take n) = len7 buf := by
    simp only [len7, byteAt_take (show 1 < n by omega)]
  have hle : keyLen buf ≤ 4 := by
    rw [keyLen]
    split_ifs <;> omega
  have hshort : bufLen (buf.take n) = n := by
    rw [bufLen, List.length_take, Nat.min_eq_left hlong, Nat.mod_eq_of_lt (by omega)]
  have hbuf : bufLen buf = buf.length := Nat.mod_eq_of_lt hsize
  simp only [lengthsOf, hkey, hlen7, hshort, hbuf, declared_take (show 2 + 2 ≤ n by omega),
    declared_take (show 2 + 8 ≤ n by omega)]
  split_ifs <;> first | rfl | omega

/-- The header of a text frame has at most ten bytes. -/
theorem length_header_text (text : Bytes) : (textFrame text).header.length ≤ 10 := by
  have hkey : (textFrame text).keyBytes = [] := rfl
  have hextended : (WsFrame.extendedLength (textFrame text).data.length).length ≤ 8 := by
    rw [WsFrame.extendedLength]
    split_ifs <;> simp
  rw [WsFrame.header, hkey, List.append_nil, List.length_append]
  exact Nat.add_le_add_left hextended 2

/-- **The beginning of a text frame** is decoded as if it were all. -/
theorem decodeWsData_take {text : Bytes} {n : Nat} (hn : 14 ≤ n)
    (hlong : n ≤ (textFrame text).encode.length) (hsize : (textFrame text).encode.length < 2 ^ 32)
    (payload : Bytes) :
    decodeWsData ((textFrame text).encode.take n) payload
      = .ok (.wsData, (textFrame text).encode.take n,
          text.take (n - (textFrame text).header.length)) := by
  have hheader := length_header_text text
  have hencode : (textFrame text).encode = (textFrame text).header ++ text := rfl
  -- The header lies in front of the cut, so the decoder reads the lengths of the whole frame.
  have hlengths : lengthsOf ((textFrame text).encode.take n)
      = ⟨0, (textFrame text).header.length, text.length⟩ := by
    rw [lengthsOf_take hn hlong hsize, lengthsOf_encode _ hsize]
    rfl
  have hfirst : firstByte ((textFrame text).encode.take n) = 0x81 := by
    rw [firstByte_eq, byteAt_take (by omega)]
    rfl
  have hdata : substr ((textFrame text).encode.take n) (textFrame text).header.length text.length
      = .ok (text.take (n - (textFrame text).header.length)) := by
    rw [hencode, List.length_append] at hlong
    rw [hencode, List.take_append, List.take_of_length_le (by omega), substr_of_le (by simp),
      List.drop_left, List.take_take, Nat.min_eq_right (by omega)]
  rw [decodeWsData, decodeLengths_eq, ok_bind, hlengths, unmaskFrame, if_neg (lt_irrefl 0), ok_bind,
    takePayload, hfirst]
  simp only [newPayload, hdata]
  rfl

/-- **Which texts come whole.**  A text frame is handed over whole if and only if it fits into the
    buffer of `SimpleRecv`; of a longer one, the client hands over the beginning as if it were
    all. -/
theorem recvWithTimeout_whole_iff {client : TcpClient} (h : client.mIsWebSocket = true)
    {text : Bytes} (hsize : (textFrame text).encode.length < 2 ^ 32) (output : Bytes)
    (valid : Bool) :
    ∃ received, client.recvWithTimeout output (some (arrival (textFrame text))) valid takesAll
        = .ok received ∧
      received.hasData = true ∧
      received.output = text.take (simpleRecvMax - (textFrame text).header.length) ∧
      (received.output = text ↔ (textFrame text).encode.length ≤ simpleRecvMax) := by
  have hheader := length_header_text text
  have hlength : (textFrame text).encode.length = (textFrame text).header.length + text.length :=
    WsFrame.length_encode _
  have hmax : simpleRecvMax = 1024 := rfl
  -- A frame that fits the buffer is decoded as a whole; of a longer one its end is missing.
  by_cases hshort : (textFrame text).encode.length ≤ simpleRecvMax
  · refine ⟨_, recvWithTimeout_frame h hshort WsOpcode.noConfusion output valid, rfl, ?_,
      iff_of_true rfl hshort⟩
    have hall : text.take (simpleRecvMax - (textFrame text).header.length) = text :=
      List.take_of_length_le (by omega)
    exact hall.symm
  · have hdecode := decodeWsData_take (show 14 ≤ simpleRecvMax by decide) (le_of_not_ge hshort)
      hsize output
    refine ⟨{ hasData := true, output := text.take (simpleRecvMax
      - (textFrame text).header.length), client, written := none }, ?_, rfl, rfl,
      iff_of_false (fun heq => ?_) hshort⟩
    · rw [TcpClient.recvWithTimeout, simpleRecv_arrival]
      dsimp only
      rw [h, if_pos rfl, hdecode]
      rfl
    · have hcut := congrArg List.length heq
      rw [List.length_take] at hcut
      omega

/-- A text of 2000 bytes does not. -/
theorem recvWithTimeout_whole_iff_long :
    ∃ received, chatClient.recvWithTimeout [] (some (arrival (textFrame (.replicate 2000 0x61))))
        true takesAll = .ok received ∧
      received.hasData = true ∧ received.output ≠ .replicate 2000 0x61 := by
  have hlength : (textFrame (.replicate 2000 0x61)).encode.length
      = (textFrame (.replicate 2000 0x61)).header.length + 2000 := by
    rw [WsFrame.length_encode]
    exact congrArg _ List.length_replicate
  have hheader := length_header_text (.replicate 2000 0x61)
  have hsize : (textFrame (.replicate 2000 0x61)).encode.length < 2 ^ 32 := by omega
  have hwebSocket : chatClient.mIsWebSocket = true := rfl
  obtain ⟨received, hrecv, hdata, -, hwhole⟩ :=
    recvWithTimeout_whole_iff hwebSocket hsize [] true
  refine ⟨received, hrecv, hdata, fun heq => ?_⟩
  have hshort := hwhole.mp heq
  have hmax : simpleRecvMax = 1024 := rfl
  omega

end Icl.Network
