import Icl.Protocol.HttpCallbacks
import Icl.Protocol.HttpReading

namespace Icl.Http

open Icl.Cxx Icl.Format Icl.Transition

/-!
# Requests that are sent ahead of their replies

A `Connection` may issue requests before the replies to the ones before have come.  The replies then
come one behind the other, cut anywhere.

* `Inbox` — a handler that collects the bodies;
* `receive` — the responses outstanding, given bytes, and what the handler has got;
* `receive_append` — bytes in two parts;
* `pumpAll_receive` — pieces give the handler what their bytes give;
* `pipelined_replies` — every request gets the body of its own reply.
-/

/-! ### A handler that collects the bodies -/

/-- The bodies that are complete, and what there is of the next one. -/
structure Inbox where
  bodies : List Bytes
  current : Bytes
  deriving DecidableEq, Repr

namespace Inbox

/-- One call of the handler. -/
def add (box : Inbox) : Event → Inbox
  | .responseBegin => box
  | .responseData data => { box with current := box.current ++ data }
  | .responseComplete => { bodies := box.bodies ++ [box.current], current := [] }

/-- Some calls of the handler. -/
def addAll (box : Inbox) (events : List Event) : Inbox := events.foldl add box

/-- Events are sorted into the box one after the other. -/
theorem addAll_append (box : Inbox) (es es' : List Event) :
    box.addAll (es ++ es') = (box.addAll es).addAll es' := List.foldl_append

/-- What one response has handed out, when it may be complete. -/
def hand (box : Inbox) (completed : Bool) (data : Bytes) : Inbox :=
  if completed then { bodies := box.bodies ++ [data], current := [] }
  else { box with current := data }

/-- Nothing may be told when nobody waits. -/
theorem heeds_idle {es : List Event} {t : Talk}
    (h : ({ waiting := 0, begun := false } : Talk).Heeds es t) :
    es = [] ∧ t = { waiting := 0, begun := false } := by
  cases es with
  | nil => exact ⟨rfl, (Option.some.inj h).symm⟩
  | cons e es => cases e <;> cases h

/-- **The calls of one response** put its data together. -/
theorem addAll_heeds {es : List Event} {begun : Bool} {t : Talk}
    (h : ({ waiting := 1, begun } : Talk).Heeds es t) (bodies : List Bytes) (handed : Handed) :
    addAll { bodies, current := handed.data } es
      = hand { bodies, current := handed.data } (t.waiting == 0) (handed.addAll es).data := by
  induction es generalizing begun handed with
  | nil =>
    obtain rfl := Option.some.inj h
    rfl
  | cons e es ih =>
    -- Each event is one the box expects: begin, data, and complete at the end.
    cases e with
    | responseBegin =>
      cases begun with
      | true => cases h
      | false => exact ih h (handed.add .responseBegin)
    | responseData data =>
      cases begun with
      | false => cases h
      | true => exact ih h (handed.add (.responseData data))
    | responseComplete =>
      cases begun with
      | false => cases h
      | true =>
        obtain ⟨rfl, rfl⟩ := heeds_idle h
        rfl

end Inbox

/-- The responses outstanding, one after the other, and what the handler has got. -/
def receive : List Response → Inbox → Bytes → Except Fault (List Response × Inbox × Bytes)
  | [], box, data => .ok ([], box, data)
  | r :: rs, box, data => do
    let ((r, handed), rest) ← Response.takeBytes (r, { Handed.none with data := box.current }) data
    let box := box.hand r.completed handed.data
    if r.completed then receive rs box rest else return (r :: rs, box, rest)

/-! ### Bytes for the responses outstanding -/

/-- What is handed over does not depend on how often a response has begun or ended. -/
theorem addAll_data_congr {handed handed' : Handed} (h : handed.data = handed'.data)
    (es : List Event) : (handed.addAll es).data = (handed'.addAll es).data := by
  induction es generalizing handed handed' with
  | nil => exact h
  | cons e es ih =>
    have hadd : (handed.add e).data = (handed'.add e).data := by cases e <;> simp [Handed.add, h]
    exact ih hadd

/-- The data that has been handed out so far comes before the rest of it, and the handler's counts
    do not matter. -/
theorem takeBytes_data (r : Response) {handed handed' : Handed} (h : handed.data = handed'.data)
    (bytes : Bytes) :
    (Response.takeBytes (r, handed) bytes).map (fun s => (s.1.1, s.1.2.data, s.2))
      = (Response.takeBytes (r, handed') bytes).map fun s => (s.1.1, s.1.2.data, s.2) := by
  induction bytes generalizing r handed handed' with
  | nil =>
    show Except.ok (r, handed.data, []) = Except.ok (r, handed'.data, [])
    rw [h]
  | cons c bytes ih =>
    cases hdone : r.completed with
    | true =>
      rw [Response.takeBytes, feedItems_done (show Response.takenAll (r, handed) = true from hdone),
        feedItems_done (show Response.takenAll (r, handed') = true from hdone)]
      show Except.ok (r, handed.data, c :: bytes) = Except.ok (r, handed'.data, c :: bytes)
      rw [h]
    | false =>
      rw [Response.takeBytes_cons hdone, Response.takeBytes_cons hdone, Response.takeByte,
        Response.takeByte]
      -- A line hands over no data; the body hands over the same data in both.
      by_cases hline : r.readsLine = true
      · rw [if_pos hline, if_pos hline]
        exact ih _ (addAll_data_congr h _)
      · rw [if_neg hline, if_neg hline]
        rcases r.processData [c] with e | ⟨r', es, used⟩
        · rfl
        · have hes := addAll_data_congr h es
          cases hused : used == 1 with
          | true =>
            simp only [ok_bind, pure_eq_ok, hused, if_true]
            exact ih r' hes
          | false =>
            simp only [ok_bind, pure_eq_ok, hused, Bool.false_eq_true, if_false, Except.map, hes]

/-- **The first response takes its bytes**; if it completes, the next one goes on with the rest. -/
theorem receive_cons (r : Response) (rs : List Response) (box : Inbox) (handed : Handed)
    (h : handed.data = box.current) (data : Bytes) :
    receive (r :: rs) box data = Response.takeBytes (r, handed) data >>= fun s =>
      if s.1.1.completed then receive rs (box.hand true s.1.2.data) s.2
      else .ok (s.1.1 :: rs, box.hand false s.1.2.data, s.2) := by
  have hsame : ({ Handed.none with data := box.current } : Handed).data = handed.data := h.symm
  have hdata := takeBytes_data r hsame data
  rw [receive]
  rcases hfirst : Response.takeBytes (r, { Handed.none with data := box.current }) data with
    e | ⟨⟨r₁, handed₁⟩, rest⟩ <;>
    rcases hsecond : Response.takeBytes (r, handed) data with e' | ⟨⟨r₂, handed₂⟩, rest'⟩ <;>
    rw [hfirst, hsecond] at hdata
  · cases hdata
    rfl
  · cases hdata
  · cases hdata
  · obtain ⟨rfl, hout, rfl⟩ : r₁ = r₂ ∧ handed₁.data = handed₂.data ∧ rest = rest' := by
      simpa [Except.map] using hdata
    simp only [ok_bind, pure_eq_ok, hout]
    cases r₁.completed <;> rfl

/-- A response that goes on has taken all the bytes. -/
theorem rest_eq_nil {r r' : Response} {handed handed' : Handed} {bytes rest : Bytes} (h : r.Sane)
    (hbytes : Response.takeBytes (r, handed) bytes = .ok ((r', handed'), rest))
    (hopen : r'.completed = false) : rest = [] := by
  have hinv := Response.feedsAs_takeByte
  have hsane : (r, handed).1.Sane := h
  by_contra hrest
  have hdone : r'.completed = true := done_of_feedItems hinv.inv hinv.leave hsane hbytes hrest
  rw [hopen] at hdone
  cases hdone

/-- Without bytes the box stays as it is. -/
theorem receive_nil {q : List Response} (h : Waiting q) (box : Inbox) :
    receive q box [] = .ok (q, box, []) := by
  cases q with
  | nil => rfl
  | cons r rs =>
    have hopen : r.completed = false := h.2.1
    rw [receive_cons r rs box { Handed.none with data := box.current } rfl]
    show (if r.completed then _ else _) = _
    rw [hopen, if_neg Bool.false_ne_true]
    rfl

/-- **Bytes in two parts.** -/
theorem receive_append {q : List Response} (h : Waiting q) (box : Inbox) (bytes bytes' : Bytes) :
    receive q box (bytes ++ bytes') = receive q box bytes >>= fun s =>
      receive s.1 s.2.1 (s.2.2 ++ bytes') := by
  induction q generalizing box bytes with
  | nil => rfl
  | cons r rs ih =>
    obtain ⟨handed, hhanded⟩ : ∃ handed : Handed,
        handed = { Handed.none with data := box.current } := ⟨_, rfl⟩
    have hdata : handed.data = box.current := by rw [hhanded]
    rw [receive_cons r rs box _ hdata, receive_cons r rs box _ hdata, Response.takeBytes,
      feedItems_append]
    rcases hbytes : feedItems Response.takenAll Response.takeByte (r, handed) bytes with
      e | ⟨⟨r₁, handed₁⟩, rest⟩
    · rfl
    simp only [ok_bind]
    cases hdone : r₁.completed with
    | true =>
      -- The response is complete after the first part.
      have hrest : (if rest = [] then Response.takeBytes (r₁, handed₁) bytes'
          else .ok ((r₁, handed₁), rest ++ bytes')) = .ok ((r₁, handed₁), rest ++ bytes') := by
        split_ifs with hnone
        · rw [hnone, List.nil_append]
          exact feedItems_done (show Response.takenAll (r₁, handed₁) = true from hdone) bytes'
        · rfl
      rw [hrest, if_pos rfl]
      simp only [ok_bind, hdone, if_true]
      exact ih h.tail _ rest
    | false =>
      have hleft : rest = [] := rest_eq_nil h.1 hbytes hdone
      rw [hleft, if_pos rfl, if_neg Bool.false_ne_true, ok_bind, List.nil_append,
        receive_cons r₁ rs (box.hand false handed₁.data) handed₁ rfl]
      rfl

/-- What is left comes when no response is outstanding any more. -/
theorem receive_waiting {q q' : List Response} (h : Waiting q) {box box' : Inbox}
    {bytes left : Bytes} (hreceive : receive q box bytes = .ok (q', box', left)) :
    Waiting q' ∧ (left ≠ [] → q' = []) := by
  induction q generalizing box bytes with
  | nil =>
    cases hreceive
    exact ⟨trivial, fun _ => rfl⟩
  | cons r rs ih =>
    have hinv := Response.feedsAs_takeByte
    rw [receive_cons r rs box { Handed.none with data := box.current } rfl] at hreceive
    obtain ⟨⟨⟨r₁, handed₁⟩, rest⟩, hbytes, hreceive⟩ := bind_eq_ok.mp hreceive
    dsimp only at hreceive
    -- A response that completes leaves the bytes to the next one; otherwise it has taken all of
    -- them.
    cases hdone : r₁.completed with
    | true =>
      rw [hdone, if_pos rfl] at hreceive
      exact ih h.tail hreceive
    | false =>
      rw [hdone, if_neg Bool.false_ne_true] at hreceive
      cases hreceive
      have hsane : (r, { Handed.none with data := box.current }).1.Sane := h.1
      exact ⟨h.front (feedItems_inv hinv.inv hsane hbytes) hdone,
        fun hleft => absurd (rest_eq_nil h.1 hbytes hdone) hleft⟩

namespace Connection

/-- **One response**: what its `pump` takes of the buffer, and what it gives to the handler. -/
theorem pump_receive {r r' : Response} {rs : List Response} (h : Waiting (r :: rs)) {box : Inbox}
    {handed : Handed} {buf rest : Bytes} (hbuf : buf ≠ [])
    (hbytes : Response.takeBytes (r, { Handed.none with data := box.current }) buf
      = .ok ((r', handed), rest)) :
    ∃ more, r.pump buf = .ok (r', more, buf.length - rest.length) ∧
      box.addAll more = box.hand r'.completed handed.data := by
  have hpump := Response.pump_takeBytes h.1 { Handed.none with data := box.current } hbuf
  rw [hbytes] at hpump
  rcases hrun : r.pump buf with e | ⟨r₁, more, used⟩
  · rw [hrun] at hpump
    cases hpump
  rw [hrun] at hpump
  obtain ⟨⟨rfl, hhanded⟩, rfl⟩ : (r₁ = r' ∧
      Handed.addAll { Handed.none with data := box.current } more = handed) ∧
      used = buf.length - rest.length := by
    simpa [Except.map] using hpump
  refine ⟨more, rfl, ?_⟩
  -- What the response has called.
  have hheeds : (r.talk 0).Heeds more (r₁.talk 0) := Response.pump_heeds hrun
  rw [Response.talk, h.2.1, if_neg Bool.false_ne_true] at hheeds
  have hbox := Inbox.addAll_heeds hheeds box.bodies { Handed.none with data := box.current }
  have hwaiting : ((r₁.talk 0).waiting == 0) = r₁.completed := by
    rw [Response.talk]
    cases r₁.completed <;> rfl
  rw [hhanded, hwaiting] at hbox
  exact hbox

/-- **A buffer** gives the handler what its bytes give. -/
theorem loop_receive {q q' : List Response} (h : Waiting q) {box box' : Inbox} {buf left : Bytes}
    (hreceive : receive q box buf = .ok (q', box', left)) (es : List Event) {fuel : Nat}
    (hfuel : q.length + 1 < fuel) :
    ∃ more, loop pumpTurn fuel (q, es, buf) = .ok (q', es ++ more, left) ∧
      box.addAll more = box' := by
  induction q generalizing box buf es fuel with
  | nil =>
    obtain ⟨fuel, rfl⟩ := Nat.exists_eq_succ_of_ne_zero (by omega : fuel ≠ 0)
    cases hreceive
    exact ⟨[], by rw [loop_stop (pumpTurn_nil es left), List.append_nil], rfl⟩
  | cons r rs ih =>
    obtain ⟨fuel, rfl⟩ := Nat.exists_eq_succ_of_ne_zero (by omega : fuel ≠ 0)
    obtain ⟨⟨⟨r₁, handed⟩, rest⟩, hbytes, hreceive⟩ := bind_eq_ok.mp hreceive
    dsimp only at hreceive
    by_cases hbuf : buf = []
    · subst hbuf
      cases hbytes
      have hopen : r.completed = false := h.2.1
      rw [hopen, if_neg Bool.false_ne_true] at hreceive
      cases hreceive
      exact ⟨[], by rw [loop_stop (pumpTurn_used r rs es), List.append_nil], rfl⟩
    obtain ⟨more, hrun, hbox⟩ := pump_receive h hbuf hbytes
    have hdrop : buf.drop (buf.length - rest.length) = rest := by
      obtain ⟨front, rfl⟩ := feedItems_suffix hbytes
      rw [List.length_append, Nat.add_sub_cancel, List.drop_left]
    have hturn := pumpTurn_cons r rs es hbuf
    rw [hrun] at hturn
    have hloop := loop_next hturn fuel
    dsimp only at hloop
    rw [hdrop] at hloop
    rw [hloop]
    cases hdone : r₁.completed with
    | true =>
      rw [hdone, if_pos rfl] at hreceive
      rw [hdone] at hbox
      have hfuel' : rs.length + 1 < fuel := by
        rw [List.length_cons] at hfuel
        omega
      obtain ⟨more', hrest, hbox'⟩ := ih h.tail hreceive (es ++ more) hfuel'
      rw [if_pos rfl, hrest, List.append_assoc]
      exact ⟨_, rfl, by rw [Inbox.addAll_append, hbox, hbox']⟩
    | false =>
      rw [hdone, if_neg Bool.false_ne_true] at hreceive
      rw [hdone] at hbox
      obtain ⟨fuel, rfl⟩ := Nat.exists_eq_succ_of_ne_zero (by omega : fuel ≠ 0)
      -- The response goes on, so that all the bytes have been used.
      have hleft : rest = [] := rest_eq_nil h.1 hbytes hdone
      cases hreceive
      rw [if_neg Bool.false_ne_true, hleft, loop_stop (pumpTurn_used r₁ rs _)]
      exact ⟨more, rfl, hbox⟩

/-- The calls of `pump` that receive the pieces, one after the other: the connection, what the
    handler has been told, and whether the assertions have held. -/
def pumpAll : Connection → List Bytes → Except Fault (Connection × List Event × Bool)
  | c, [] => .ok (c, [], true)
  | c, piece :: pieces => do
    let (c, events, asserted) ← c.pump (some piece)
    let (c, more, assertedMore) ← pumpAll c pieces
    return (c, events ++ more, asserted && assertedMore)

/-- **Pieces** give the handler what their bytes give, when all of them are used. -/
theorem pumpAll_receive {c : Connection} (h : Waiting c.m_Outstanding) {box box' : Inbox}
    {pieces : List Bytes} {q : List Response}
    (hreceive : receive c.m_Outstanding box pieces.flatten = .ok (q, box', [])) :
    ∃ c' events, c.pumpAll pieces = .ok (c', events, true) ∧ c'.m_Outstanding = q ∧
      box.addAll events = box' := by
  induction pieces generalizing c box with
  | nil =>
    rw [List.flatten_nil, receive_nil h] at hreceive
    cases hreceive
    exact ⟨c, [], rfl, rfl, rfl⟩
  | cons piece pieces ih =>
    rw [List.flatten_cons, receive_append h] at hreceive
    obtain ⟨⟨q₁, box₁, left⟩, hfirst, hreceive⟩ := bind_eq_ok.mp hreceive
    dsimp only at hreceive
    cases hq : c.m_Outstanding with
    | nil =>
      -- Nothing is outstanding, and nothing is left to be received.
      rw [hq] at hfirst
      cases hfirst
      obtain ⟨rfl, rfl, hnone⟩ : [] = q ∧ box = box' ∧ piece ++ pieces.flatten = [] := by
        simpa [receive] using hreceive
      have hrest : receive c.m_Outstanding box pieces.flatten = .ok ([], box, []) := by
        rw [hq, (List.append_eq_nil_iff.mp hnone).2]
        rfl
      obtain ⟨c', events, hpump, hc', hevents⟩ := ih h hrest
      refine ⟨c', events, ?_, hc', hevents⟩
      rw [pumpAll, pump_nil hq, ok_bind]
      dsimp only
      rw [hpump]
      rfl
    | cons r rs =>
      rw [hq] at h hfirst
      obtain ⟨events, hloop, hbox⟩ := loop_receive h hfirst [] (Nat.lt_succ_self _)
      have hpump : c.pump (some piece)
          = .ok ({ c with m_Outstanding := q₁ }, events, left.isEmpty) := by
        rw [pump_received hq, pumpBuffer, hloop]
        rfl
      obtain ⟨hwaiting, hnobody⟩ := receive_waiting h hfirst
      have hleft : left = [] := by
        by_contra hleft
        rw [hnobody hleft] at hreceive
        cases hleft (List.append_eq_nil_iff.mp (congrArg (·.2.2) (Except.ok.inj hreceive))).1
      rw [hleft, List.nil_append] at hreceive
      obtain ⟨c', more, hrest, hc', hmore⟩ := ih (c := { c with m_Outstanding := q₁ }) hwaiting
        hreceive
      refine ⟨c', events ++ more, ?_, hc', by rw [Inbox.addAll_append, hbox, hmore]⟩
      rw [pumpAll, hpump, ok_bind]
      dsimp only
      rw [hrest, hleft]
      rfl

/-- Requests that have been issued, and no reply to them yet. -/
theorem waiting_new (methods : List Bytes) : Waiting (methods.map .new) := by
  cases methods with
  | nil => trivial
  | cons method methods =>
    refine ⟨Response.sane_new method, rfl, fun r hr => ?_⟩
    obtain ⟨other, -, rfl⟩ := List.mem_map.mp hr
    exact ⟨other, rfl⟩

/-- **Replies**, one behind the other. -/
theorem receive_replies {exchanges : List (Bytes × Reply)}
    (h : ∀ exchange ∈ exchanges, Answers exchange.1 exchange.2) (bodies : List Bytes) :
    receive (exchanges.map fun exchange => .new exchange.1) { bodies, current := [] }
      (exchanges.flatMap fun exchange => exchange.2.encode) = .ok ([],
        { bodies := bodies ++ exchanges.map fun exchange => exchange.2.body, current := [] },
        []) := by
  induction exchanges generalizing bodies with
  | nil =>
    rw [List.map_nil, List.map_nil, List.append_nil]
    rfl
  | cons exchange exchanges ih =>
    obtain ⟨hfirst, hrest⟩ := List.forall_mem_cons.mp h
    obtain ⟨r, htakes, hdone⟩ := Response.takes_reply hfirst
    have hbytes := (htakes (Response.sane_new _)).2
      (exchanges.flatMap fun exchange => exchange.2.encode)
    -- The response completes with its reply, and leaves what follows untouched.
    have hend := hbytes.trans (feedItems_done (show Response.takenAll (r, _) = true from hdone) _)
    have hnone : Handed.none.data = Inbox.current { bodies, current := [] } := rfl
    rw [List.map_cons, List.map_cons, List.flatMap_cons, receive_cons _ _ _ _ hnone, hend, ok_bind]
    dsimp only
    rw [hdone, if_pos rfl]
    have hnext := ih hrest (bodies ++ [exchange.2.body])
    rw [List.append_assoc] at hnext
    exact hnext

/-- **Every request gets the body of its own reply**, however the bytes of the replies are cut, and
    the assertions of `pump` hold. -/
theorem pipelined_replies {c : Connection} {exchanges : List (Bytes × Reply)}
    (hc : c.m_Outstanding = exchanges.map fun exchange => .new exchange.1)
    (h : ∀ exchange ∈ exchanges, Answers exchange.1 exchange.2) {pieces : List Bytes}
    (hcut : pieces.flatten = exchanges.flatMap fun exchange => exchange.2.encode) :
    ∃ c' events, c.pumpAll pieces = .ok (c', events, true) ∧ c'.m_Outstanding = [] ∧
      Inbox.addAll { bodies := [], current := [] } events
        = { bodies := exchanges.map fun exchange => exchange.2.body, current := [] } := by
  have hreceive := receive_replies h []
  rw [← hc, ← hcut, List.nil_append] at hreceive
  refine pumpAll_receive ?_ hreceive
  have hnew := waiting_new (exchanges.map Prod.fst)
  rw [List.map_map] at hnew
  rw [hc]
  exact hnew

/-- The size `2` is hexadecimal. -/
theorem digits_two : ∀ c ∈ ascii "2", isxdigit c = true := forall_mem_of_all (by decide)

/-- It is the length of the body. -/
theorem hexValue_two : hexValue (ascii "2") = (ascii "hi").length := by decide

theorem hi_nonempty : ascii "hi" ≠ [] := by decide

/-- A chunk of two bytes. -/
def hiChunk : Chunk where
  size := ascii "2"
  data := ascii "hi"
  digits := digits_two
  value := hexValue_two
  nonempty := hi_nonempty

theorem ok_line : (0x0A : UInt8) ∉ ascii "200 OK" := by decide

theorem server_field : ∀ field : HeaderField, field ∈ [(ascii "Server", ascii " icl")] ++ [] →
    field.Valid ∧ field.1.map tolower ∉ framingNames := by
  intro field hfield
  rw [List.mem_singleton.mp hfield]
  exact ⟨⟨by decide, by decide, by decide⟩, by decide⟩

theorem chunked_framed :
    (Framing.chunked (ascii "Transfer-Encoding") (.spaced (ascii "chunked")) [hiChunk] 0).Valid :=
  ⟨by decide, by decide⟩

/-- A reply in one chunk. -/
def chunkedReply : Reply where
  status := ascii "200 OK"
  before := [(ascii "Server", ascii " icl")]
  framing := .chunked (ascii "Transfer-Encoding") (.spaced (ascii "chunked")) [hiChunk] 0
  after := []
  status_line := ok_line
  fields := server_field
  framed := chunked_framed

theorem notFound_line : (0x0A : UInt8) ∉ ascii "404 Not Found" := by decide

theorem no_fields : ∀ field : HeaderField, field ∈ ([] : List HeaderField) ++ [] →
    field.Valid ∧ field.1.map tolower ∉ framingNames := by
  simp

theorem sized_framed :
    (Framing.sized (ascii "content-length") (.spaced (ascii "1")) (ascii "x")).Valid :=
  ⟨by decide, by decide, forall_mem_of_all (by decide), by decide⟩

/-- A reply of a known length. -/
def sizedReply : Reply where
  status := ascii "404 Not Found"
  before := []
  framing := .sized (ascii "content-length") (.spaced (ascii "1")) (ascii "x")
  after := []
  status_line := notFound_line
  fields := no_fields
  framed := sized_framed

/-- A reply in chunks answers a GET. -/
theorem answers_chunkedReply : Answers (ascii "GET") chunkedReply where
  method := by decide
  status := ⟨ascii "200", ascii "OK", rfl, by decide, forall_mem_of_all (by decide), by decide,
    by decide, by decide, by decide⟩
  names := by
    intro field hfield
    rw [List.mem_singleton.mp hfield]
    exact ⟨by decide, by decide +kernel⟩
  fits := by
    refine ⟨rfl, rfl, fun chunk hchunk => ?_⟩
    rw [List.mem_singleton.mp hchunk]
    decide

/-- So does one with a length, whatever its status. -/
theorem answers_sizedReply : Answers (ascii "GET") sizedReply where
  method := by decide
  status := ⟨ascii "404", ascii "Not Found", rfl, by decide, forall_mem_of_all (by decide),
    by decide, by decide, by decide, by decide⟩
  names := by simp [sizedReply]
  fits := ⟨by decide, by decide⟩

/-- Two requests; the replies come in two pieces, cut in the first body. -/
theorem pipelined_replies_two :
    ∃ c' events, pumpAll { new with m_Outstanding := [.new (ascii "GET"), .new (ascii "GET")] }
        [chunkedReply.encode.take 70, chunkedReply.encode.drop 70 ++ sizedReply.encode]
        = .ok (c', events, true) ∧ c'.m_Outstanding = [] ∧
      Inbox.addAll { bodies := [], current := [] } events
        = { bodies := [ascii "hi", ascii "x"], current := [] } := by
  have hanswers : ∀ exchange ∈ [(ascii "GET", chunkedReply), (ascii "GET", sizedReply)],
      Answers exchange.1 exchange.2 := by
    intro exchange hexchange
    rcases List.mem_cons.mp hexchange with rfl | hexchange
    · exact answers_chunkedReply
    · rw [List.mem_singleton.mp hexchange]
      exact answers_sizedReply
  have hcut : [chunkedReply.encode.take 70,
      chunkedReply.encode.drop 70 ++ sizedReply.encode].flatten
      = [(ascii "GET", chunkedReply), (ascii "GET", sizedReply)].flatMap
          fun exchange => exchange.2.encode := by
    simp [← List.append_assoc]
  exact pipelined_replies rfl hanswers hcut

end Connection

end Icl.Http
