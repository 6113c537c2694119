import Icl.Network.FrameRoundTrip
import Icl.Network.TcpServer

namespace Icl.Network

open Icl.Cxx Icl.Format

/-!
# What a connected WebSocket delivers to the application

* `incommingAll` — successive `IncommingData` on one connection;
* `assemble` — what the application should get out of a sequence of frames: the messages, with
  the control frames left out;
* `delivered` — what it does get: `IncommingData` refines it on whole frames, one per `recv`
  (`incommingAll_delivers`);
* `delivers_whole_frames`, `delivers_messages_iff` — when the two agree.
-/

/-! ### Runs of one connection -/

/-- The payloads of the `ReadData` jobs. -/
def deliveredPayloads (effects : List Effect) : List Bytes :=
  effects.filterMap fun
    | .enqueue (.readData conn) => some conn.payload
    | _ => none

/-- Payloads are delivered in the order of the effects. -/
@[simp] theorem deliveredPayloads_append (es es' : List Effect) :
    deliveredPayloads (es ++ es') = deliveredPayloads es ++ deliveredPayloads es' :=
  List.filterMap_append

@[simp] theorem deliveredPayloads_nil : deliveredPayloads [] = [] := rfl

@[simp] theorem deliveredPayloads_readData (conn : Conn) :
    deliveredPayloads [.enqueue (.readData conn)] = [conn.payload] := rfl

@[simp] theorem deliveredPayloads_newConnection (conn : Conn) :
    deliveredPayloads [.enqueue (.newConnection conn)] = [] := rfl

/-- Bytes on the socket are no delivery. -/
@[simp] theorem deliveredPayloads_sent (peer : Peer) (w : Option Written) :
    deliveredPayloads (w.toList.map (sentEffect peer)) = [] := by
  cases w <;> rfl

/-- Successive calls of `IncommingData` on one connection. -/
def incommingAll : Conn → List ClientAnswers → Except Fault (Conn × List Effect)
  | conn, [] => .ok (conn, [])
  | conn, answers :: rest => do
    let (conn, effects) ← incommingData conn answers
    let (conn, effects') ← incommingAll conn rest
    return (conn, effects ++ effects')

/-- One `Recv` appends at most as many bytes as it asked for. -/
theorem recvLoop_length (results : List RecvAnswer) (count : Nat) (output : Bytes) :
    (recvLoop results count output).2.length ≤ output.length + count := by
  induction results generalizing count output with
  | nil => simp [recvLoop]
  | cons r rest ih =>
    cases r with
    | error retry => simp [recvLoop]
    | closed => simp [recvLoop]
    | data b bs =>
      have hle : ((b :: bs).take count).length ≤ count := List.length_take_le _ _
      rw [recvLoop]
      split_ifs with hmore
      · refine (ih _ _).trans ?_
        rw [List.length_append]
        omega
      · rw [List.length_append]
        omega

/-- One `recv` gives at most `MAXRECV` bytes. -/
theorem recv_length (max : Nat) (answers : RecvAnswers) :
    (recv [] max answers).2.length ≤ maxRecv := by
  have key : ∀ count ≤ maxRecv, (recvLoop answers.results count []).2.length ≤ maxRecv :=
    fun count h => (recvLoop_length _ _ _).trans (by simpa using h)
  simp only [recv]
  split_ifs <;> first | exact key _ (by omega) | simp

/-! ### What frames deliver -/

/-- A control frame. -/
def isControl (f : WsFrame) : Bool :=
  f.opcode == .close || f.opcode == .ping || f.opcode == .pong

/-- The messages a receiver should take out of a sequence of frames, `sofar` being what it has
    of the current one: control frames are skipped, and a message ends with its FIN bit. -/
def assemble : Bytes → List WsFrame → List Bytes
  | _, [] => []
  | sofar, f :: fs =>
    if isControl f then assemble sofar fs
    else if f.fin then framePayload f sofar :: assemble (framePayload f sofar) fs
    else assemble (framePayload f sofar) fs

/-- The payloads that the server delivers on a sequence of frames. -/
def delivered : Bytes → List WsFrame → List Bytes
  | _, [] => []
  | payload, f :: fs =>
    if frameResult f = .wsData then framePayload f payload :: delivered (framePayload f payload) fs
    else delivered (framePayload f payload) fs

/-- A connection whose WebSocket handshake is done. -/
structure Open (conn : Conn) : Prop where
  webSocket : conn.peer.isWebSocket = true
  connected : conn.state = .connected

/-- **One `IncommingData` on a whole frame**, of any kind but a close. -/
theorem incommingData_frame {conn : Conn} (hopen : Open conn) {answers : ClientAnswers}
    {f : WsFrame} (hrecv : recv [] 0 answers.recv = (true, f.encode)) (hclose : f.opcode ≠ .close) :
    ∃ effects, incommingData conn answers
        = .ok ({ conn with payload := framePayload f conn.payload }, effects) ∧
      deliveredPayloads effects
        = if frameResult f = .wsData then [framePayload f conn.payload] else [] := by
  -- What a single `recv` returns is short enough for the decoder.
  have hlen : f.encode.length < 2 ^ 32 := by
    have := recv_length 0 answers.recv
    rw [hrecv] at this
    exact lt_of_le_of_lt this (by decide)
  have hres : frameResult f ≠ .wsClose := by
    rw [frameResult]
    cases hop : f.opcode with
    | close => exact absurd hop hclose
    | ping => simp
    | _ => cases f.fin <;> simp
  have hclosed : conn.isClosed = false := by simp [Conn.isClosed, hopen.connected]
  rw [incommingData, hrecv]
  simp only [hopen.webSocket, hclosed, if_true, Bool.false_eq_true, if_false, incommingFrame,
    decodeWsDataConn, decodeWsData_encode f hlen, ok_bind]
  cases hcase : frameResult f with
  | wsClose => exact absurd hcase hres
  | wsSendPong => exact ⟨_, rfl, deliveredPayloads_sent conn.peer (some _)⟩
  | wsData => exact ⟨_, rfl, by simp⟩
  | wsPartial => exact ⟨_, rfl, by simp⟩

/-- **The server on whole frames**, one per `recv`: it delivers what `delivered` says. -/
theorem incommingAll_delivers {conn : Conn} (hopen : Open conn) {answers : List ClientAnswers}
    {frames : List WsFrame}
    (hrecv : List.Forall₂ (fun a f => recv [] 0 a.recv = (true, f.encode)) answers frames)
    (hclose : ∀ f ∈ frames, f.opcode ≠ .close) :
    ∃ conn' effects, incommingAll conn answers = .ok (conn', effects) ∧
      deliveredPayloads effects = delivered conn.payload frames := by
  induction hrecv generalizing conn with
  | nil => exact ⟨conn, [], rfl, rfl⟩
  | @cons a f answers frames ha _ ih =>
    obtain ⟨hf, hfs⟩ := List.forall_mem_cons.mp hclose
    obtain ⟨effects, hstep, hdel⟩ := incommingData_frame hopen ha hf
    obtain ⟨conn', effects', hrun, hdel'⟩ :=
      ih (show Open { conn with payload := framePayload f conn.payload } from
        ⟨hopen.webSocket, hopen.connected⟩) hfs
    refine ⟨conn', effects ++ effects', by simp [incommingAll, hstep, hrun], ?_⟩
    rw [deliveredPayloads_append, hdel, hdel', delivered]
    split_ifs <;> rfl

/-- One `recv` delivers at most one payload. -/
theorem incommingData_delivers_le {conn conn' : Conn} {answers : ClientAnswers}
    {effects : List Effect} (h : incommingData conn answers = .ok (conn', effects)) :
    (deliveredPayloads effects).length ≤ 1 := by
  rw [incommingData] at h
  rcases hrecv : recv [] 0 answers.recv with ⟨_ | _, mBuff⟩
  · rw [hrecv] at h
    cases h
    simp
  · simp only [hrecv] at h
    split_ifs at h
    · obtain ⟨⟨success, w⟩, -, h⟩ := bind_eq_ok.mp h
      dsimp only at h
      split_ifs at h <;> cases h <;> simp
    · obtain ⟨⟨hasData, conn₁, w⟩, -, h⟩ := bind_eq_ok.mp h
      cases h
      cases hasData <;> simp
    · cases h
      simp

/-- **Every event delivers at most one message.** -/
theorem incommingAll_delivers_le {conn conn' : Conn} {answers : List ClientAnswers}
    {effects : List Effect} (h : incommingAll conn answers = .ok (conn', effects)) :
    (deliveredPayloads effects).length ≤ answers.length := by
  induction answers generalizing conn effects with
  | nil =>
    cases h
    simp
  | cons a rest ih =>
    obtain ⟨⟨conn₁, effects₁⟩, hstep, h⟩ := bind_eq_ok.mp h
    obtain ⟨⟨conn₂, effects₂⟩, hrun, h⟩ := bind_eq_ok.mp h
    cases h
    have := incommingData_delivers_le hstep
    have := ih hrun
    rw [deliveredPayloads_append, List.length_append, List.length_cons]
    omega

/-! ### Unfragmented frames -/

/-- Unfragmented data frames are delivered one by one. -/
theorem delivered_unfragmented {frames : List WsFrame}
    (hdata : ∀ f ∈ frames, (f.opcode = .text ∨ f.opcode = .binary) ∧ f.fin = true)
    (payload : Bytes) : delivered payload frames = frames.map WsFrame.data := by
  induction frames generalizing payload with
  | nil => rfl
  | cons f fs ih =>
    obtain ⟨⟨hop, hfin⟩, hfs⟩ := List.forall_mem_cons.mp hdata
    rw [delivered, ih hfs]
    rcases hop with hop | hop <;> simp [frameResult, framePayload, hop, hfin]

/-- **Delivery of unfragmented frames.**  When each `recv` returns exactly one of the frames,
    every frame is delivered, in order; when there are fewer `recv` than frames, some frame is
    not. -/
theorem delivers_whole_frames {conn : Conn} (hopen : Open conn) {frames : List WsFrame}
    (hdata : ∀ f ∈ frames, (f.opcode = .text ∨ f.opcode = .binary) ∧ f.fin = true)
    (answers : List ClientAnswers) :
    (List.Forall₂ (fun a f => recv [] 0 a.recv = (true, f.encode)) answers frames →
      ∃ conn' effects, incommingAll conn answers = .ok (conn', effects) ∧
        deliveredPayloads effects = frames.map WsFrame.data) ∧
    (answers.length < frames.length →
      ∀ conn' effects, incommingAll conn answers = .ok (conn', effects) →
        deliveredPayloads effects ≠ frames.map WsFrame.data) := by
  refine ⟨fun hrecv => ?_, fun hfewer conn' effects hrun heq => ?_⟩
  · have hclose : ∀ f ∈ frames, f.opcode ≠ .close := fun f hf hop => by
      have := (hdata f hf).1
      simp [hop] at this
    obtain ⟨conn', effects, hrun, hdel⟩ := incommingAll_delivers hopen hrecv hclose
    exact ⟨conn', effects, hrun, hdel.trans (delivered_unfragmented hdata _)⟩
  · have := incommingAll_delivers_le hrun
    rw [heq, List.length_map] at this
    omega

/-- Two masked text frames, each in a `recv` of its own. -/
theorem delivers_whole_frames_two :
    ∃ conn' effects, incommingAll ⟨0, ⟨7, true⟩, .connected, []⟩
        [wholeRecv (WsFrame.encode ⟨true, .text, some ⟨1, 2, 3, 4⟩, [0x61]⟩),
          wholeRecv (WsFrame.encode ⟨true, .text, some ⟨5, 6, 7, 8⟩, [0x62]⟩)]
        = .ok (conn', effects) ∧ deliveredPayloads effects = [[0x61], [0x62]] :=
  have hdata : ∀ f ∈ ([⟨true, .text, some ⟨1, 2, 3, 4⟩, [0x61]⟩,
      ⟨true, .text, some ⟨5, 6, 7, 8⟩, [0x62]⟩] : List WsFrame),
      (f.opcode = .text ∨ f.opcode = .binary) ∧ f.fin = true := by decide
  (delivers_whole_frames ⟨rfl, rfl⟩ hdata _).1 (.cons (by decide) (.cons (by decide) .nil))

/-- The same two frames in one `recv`: the second is lost. -/
theorem two_frames_in_one_recv :
    (incommingAll ⟨0, ⟨7, true⟩, .connected, []⟩
      [wholeRecv (WsFrame.encode ⟨true, .text, some ⟨1, 2, 3, 4⟩, [0x61]⟩
        ++ WsFrame.encode ⟨true, .text, some ⟨5, 6, 7, 8⟩, [0x62]⟩)]).map
        (fun r => deliveredPayloads r.2) = .ok [[0x61]] ∧
    [[0x61]] ≠ ([⟨true, .text, some ⟨1, 2, 3, 4⟩, [0x61]⟩,
      ⟨true, .text, some ⟨5, 6, 7, 8⟩, [0x62]⟩] : List WsFrame).map WsFrame.data := by
  decide

/-! ### What should be delivered -/

/-- A text or binary message, in one or more fragments, each with or without a key. -/
structure Message where
  opcode : WsOpcode
  fragments : List (Option MaskKey × Bytes)
  data_opcode : opcode = .text ∨ opcode = .binary
  fragments_ne_nil : fragments ≠ []

namespace Message

/-- The frames of the message. -/
def frames (m : Message) : List WsFrame := fragmentFrames m.opcode m.fragments

/-- The message itself: its fragments, put together. -/
def data (m : Message) : Bytes := (m.fragments.map Prod.snd).flatten

end Message

/-- Control frames do not matter to what should be delivered. -/
theorem assemble_filter (frames : List WsFrame) (sofar : Bytes) :
    assemble sofar (frames.filter fun f => !isControl f) = assemble sofar frames := by
  induction frames generalizing sofar with
  | nil => rfl
  | cons f fs ih =>
    by_cases hf : isControl f
    · rw [List.filter_cons_of_neg (by simp [hf]), assemble, if_pos hf, ih]
    · rw [List.filter_cons_of_pos (by simp [hf]), assemble, assemble, if_neg hf, if_neg hf]
      simp only [ih]

/-- The fragments of a message are put behind what has come before. -/
theorem assemble_continuation (fragments : List (Option MaskKey × Bytes)) (hne : fragments ≠ [])
    (sofar : Bytes) (rest : List WsFrame) :
    assemble sofar (fragmentFrames .continuation fragments ++ rest)
      = (sofar ++ (fragments.map Prod.snd).flatten)
        :: assemble (sofar ++ (fragments.map Prod.snd).flatten) rest := by
  induction fragments generalizing sofar with
  | nil => exact absurd rfl hne
  | cons fragment fragments ih =>
    obtain ⟨mask, data⟩ := fragment
    cases fragments with
    | nil => simp [fragmentFrames, assemble, isControl, framePayload]
    | cons second fragments =>
      rw [fragmentFrames_cons, List.cons_append, assemble]
      simp [isControl, framePayload, ih]

/-- The frames of a message give the message. -/
theorem assemble_message (m : Message) (sofar : Bytes) (rest : List WsFrame) :
    assemble sofar (m.frames ++ rest) = m.data :: assemble m.data rest := by
  obtain ⟨opcode, fragments, hop, hne⟩ := m
  obtain ⟨⟨mask, data⟩, fragments, rfl⟩ := List.exists_cons_of_ne_nil hne
  rw [Message.frames, Message.data]
  cases fragments with
  | nil => rcases hop with rfl | rfl <;> simp [fragmentFrames, assemble, isControl, framePayload]
  | cons second fragments =>
    rw [fragmentFrames_cons, List.cons_append, assemble]
    rcases hop with rfl | rfl <;>
      simp [isControl, framePayload, assemble_continuation]

/-- **Fragmented messages are put together again**, one after the other. -/
theorem assemble_messages (msgs : List Message) (sofar : Bytes) :
    assemble sofar (msgs.flatMap Message.frames) = msgs.map Message.data := by
  induction msgs generalizing sofar with
  | nil => rfl
  | cons m msgs ih => rw [List.flatMap_cons, assemble_message, ih, List.map_cons]

/-! ### When the two agree -/

/-- A ping or a pong. -/
def isPingPong (f : WsFrame) : Prop :=
  (f.opcode = .ping ∨ f.opcode = .pong) ∧ f.fin = true

/-- Each pong adds one delivery. -/
theorem length_delivered {frames : List WsFrame}
    (hctl : ∀ f ∈ frames, isControl f → isPingPong f) (payload : Bytes) :
    (delivered payload frames).length
      = (assemble payload frames).length + frames.countP (·.opcode == .pong) := by
  induction frames generalizing payload with
  | nil => rfl
  | cons f fs ih =>
    obtain ⟨hf, hfs⟩ := List.forall_mem_cons.mp hctl
    rw [delivered, assemble, List.countP_cons]
    obtain ⟨fin, opcode, mask, data⟩ := f
    cases opcode <;> cases fin <;>
      simp_all [isControl, isPingPong, frameResult, framePayload] <;> omega

/-- Without a pong the server delivers what it should. -/
theorem delivered_eq_assemble {frames : List WsFrame}
    (hctl : ∀ f ∈ frames, isControl f → isPingPong f) (hpong : ∀ f ∈ frames, f.opcode ≠ .pong)
    (payload : Bytes) : delivered payload frames = assemble payload frames := by
  induction frames generalizing payload with
  | nil => rfl
  | cons f fs ih =>
    obtain ⟨hf, hfs⟩ := List.forall_mem_cons.mp hctl
    obtain ⟨hp, hps⟩ := List.forall_mem_cons.mp hpong
    rw [delivered, assemble]
    obtain ⟨fin, opcode, mask, data⟩ := f
    cases opcode <;> cases fin <;>
      simp_all [isControl, isPingPong, frameResult, framePayload]

/-- **Delivery of messages.**  On whole frames, one per `recv`, that are the frames of messages
    with pings and pongs anywhere between them, the server delivers one payload per message,
    the message itself, exactly when there is no pong. -/
theorem delivers_messages_iff {conn : Conn} (hopen : Open conn) {answers : List ClientAnswers}
    {frames : List WsFrame} {msgs : List Message}
    (hrecv : List.Forall₂ (fun a f => recv [] 0 a.recv = (true, f.encode)) answers frames)
    (hmsgs : frames.filter (fun f => !isControl f) = msgs.flatMap Message.frames)
    (hctl : ∀ f ∈ frames, isControl f → isPingPong f) :
    ∃ conn' effects, incommingAll conn answers = .ok (conn', effects) ∧
      (deliveredPayloads effects = msgs.map Message.data ↔ ∀ f ∈ frames, f.opcode ≠ .pong) := by
  have hclose : ∀ f ∈ frames, f.opcode ≠ .close := fun f hf hop => by
    have := (hctl f hf (by simp [isControl, hop])).1
    simp [hop] at this
  obtain ⟨conn', effects, hrun, hdel⟩ := incommingAll_delivers hopen hrecv hclose
  have hassemble : assemble conn.payload frames = msgs.map Message.data := by
    rw [← assemble_filter, hmsgs, assemble_messages]
  refine ⟨conn', effects, hrun, fun heq f hf hop => ?_, fun hpong => ?_⟩
  · -- A pong makes one delivery too many.
    have hlen := length_delivered hctl conn.payload
    rw [← hdel, heq, hassemble] at hlen
    have : frames.countP (·.opcode == .pong) = 0 := by omega
    simpa [hop] using List.countP_eq_zero.mp this f hf
  · rw [hdel, delivered_eq_assemble hctl hpong, hassemble]

/-- A message in two fragments with a ping between them. -/
theorem delivers_messages_ping :
    ∃ conn' effects, incommingAll ⟨0, ⟨7, true⟩, .connected, []⟩
        ([⟨false, .text, some ⟨1, 2, 3, 4⟩, [0x68]⟩, ⟨true, .ping, some ⟨5, 6, 7, 8⟩, []⟩,
          ⟨true, .continuation, none, [0x69]⟩].map fun f => wholeRecv (WsFrame.encode f))
        = .ok (conn', effects) ∧
      (deliveredPayloads effects = [[0x68, 0x69]] ↔
        ∀ f ∈ ([⟨false, .text, some ⟨1, 2, 3, 4⟩, [0x68]⟩, ⟨true, .ping, some ⟨5, 6, 7, 8⟩, []⟩,
          ⟨true, .continuation, none, [0x69]⟩] : List WsFrame), f.opcode ≠ .pong) :=
  have hmsgs : ([⟨false, .text, some ⟨1, 2, 3, 4⟩, [0x68]⟩, ⟨true, .ping, some ⟨5, 6, 7, 8⟩, []⟩,
      ⟨true, .continuation, none, [0x69]⟩] : List WsFrame).filter (fun f => !isControl f)
      = [⟨.text, [(some ⟨1, 2, 3, 4⟩, [0x68]), (none, [0x69])], .inl rfl, by simp⟩].flatMap
        Message.frames := by decide
  delivers_messages_iff ⟨rfl, rfl⟩ (.cons (by decide) (.cons (by decide) (.cons (by decide) .nil)))
    hmsgs (by simp [isControl, isPingPong])

/-- A pong after a message delivers the message a second time. -/
theorem pong_delivers_again :
    (incommingAll ⟨0, ⟨7, true⟩, .connected, []⟩
      ([⟨true, .text, some ⟨1, 2, 3, 4⟩, [0x61]⟩, ⟨true, .pong, some ⟨5, 6, 7, 8⟩, []⟩].map
        fun f => wholeRecv (WsFrame.encode f))).map (fun r => deliveredPayloads r.2)
      = .ok [[0x61], [0x61]] ∧
    [[0x61], [0x61]]
      ≠ [Message.data ⟨.text, [(some ⟨1, 2, 3, 4⟩, [0x61])], .inl rfl, by simp⟩] := by
  decide

end Icl.Network
