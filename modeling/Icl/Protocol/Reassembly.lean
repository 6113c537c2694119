import Icl.Protocol.HttpRoundTrip
import Icl.Protocol.PartialScan
import Icl.Transition.Run
import Mathlib.Logic.Function.Basic

namespace Icl.Protocol

open Icl.Cxx Icl.Format Icl.Network Icl.Transition Icl.Util

/-!
# POST requests in several segments

A segment that is not the first one of its request is recognised by what it is not: `ReadData` tries
to parse it as a request.

* `Upload` — a POST request, and the cut of its body;
* `Reception.step` — one segment of one connection is handed to `ReadData`;
* `partialLoop_more`, `partialLoop_last` — the loop over `mPartials` finds the upload among the
  others;
* `uploads_dispatched` — every request is dispatched once, after its last segment and with its whole
  body, in the runs in which no later segment begins with a line that the request parser takes or
  stumbles over, and the upload that is finished is the one begun last.
-/

/-- A POST request, whose header is in its first segment. -/
structure Upload where
  query : Bytes
  protocol : Bytes
  before : List HeaderField
  lengthName : Bytes
  length : PaddedText
  after : List HeaderField
  /-- The part of the body that comes with the header. -/
  first : Bytes
  /-- The segments that follow. -/
  rest : List Bytes
  query_plain : 0x20 ∉ query ∧ newline ∉ query
  protocol_plain : 0x20 ∉ protocol ∧ newline ∉ protocol
  fields_valid : ∀ field ∈ before ++ after, field.Valid
  /-- The Content-Length is the first one. -/
  before_name : ∀ field ∈ before, field.1.map tolower ≠ ascii "content-length"
  /-- Its value is the length of the body. -/
  sized : (Framing.sized lengthName length (first ++ rest.flatten)).Valid
  rest_nonempty : [] ∉ rest

namespace Upload

/-- The header fields. -/
def fields (up : Upload) : List HeaderField :=
  up.before ++ (up.lengthName, up.length.text) :: up.after

/-- What stands before the body. -/
def head (up : Upload) : Bytes :=
  messageHead (requestStart (ascii "POST") up.query up.protocol) up.fields

/-- The whole body. -/
def body (up : Upload) : Bytes := up.first ++ up.rest.flatten

/-- The segments. -/
def segments (up : Upload) : List Bytes := (up.head ++ up.first) :: up.rest

/-- Segment `n`. -/
def segment (up : Upload) (n : Nat) : Bytes := up.segments.getD n []

/-- The request as it is parsed, with the part of the body that is there. -/
def request (up : Upload) (body : Bytes) : HttpRequest :=
  { parseUrlParameters { HttpRequest.new with
      method := ascii "POST", query := up.query, protocol := up.protocol } with
    headers := insertFields up.fields [], body }

/-- The sizes are 32-bit values, and the request is not one that is forbidden. -/
structure Accepted (up : Upload) (mLocalHostOnly : Bool) : Prop where
  first_size : (up.head ++ up.first).length < 2 ^ 32
  body_size : up.body.length < 2 ^ 32
  allowed : isForbidden mLocalHostOnly (up.request up.body) = false

/-- The part of the body in the first `n` segments. -/
def received (up : Upload) (n : Nat) : Bytes := up.first ++ (up.rest.take (n - 1)).flatten

/-! ### The first segment -/

theorem valid_fields (up : Upload) : ∀ field ∈ up.fields, field.Valid := by
  intro field hfield
  rcases List.mem_append.mp hfield with hfield | hfield
  · exact up.fields_valid field (List.mem_append_left _ hfield)
  · rcases List.mem_cons.mp hfield with rfl | hfield
    · exact up.sized.field
    · exact up.fields_valid field (List.mem_append_right _ hfield)

/-- The parser on the first segment. -/
theorem parse_first (up : Upload) (hsize : (up.head ++ up.first).length < 2 ^ 32) :
    parseRequestHeader (up.segment 0) .new = .ok (true, up.request up.first) :=
  parseRequestHeader_message (by decide) up.query_plain up.protocol_plain up.valid_fields up.first
    hsize

end Upload

/-- The blanks around a word are trimmed. -/
theorem trim_text {padded : PaddedText} (hword : ∀ c ∈ padded.word, isTrimmed c = false) :
    trim padded.text = padded.word := by
  have hblank : ∀ c ∈ padded.lead ++ padded.trail, isTrimmed c = true := by
    intro c hc
    rcases padded.blank c hc with rfl | rfl <;> decide
  rw [PaddedText.text, List.append_assoc]
  exact trim_padded hblank (fun c hc => hword c (List.mem_of_mem_head? hc))
    (fun c hc => hword c (List.mem_of_mem_getLast? hc))

/-- No digit is trimmed. -/
theorem isTrimmed_digit {c : UInt8} (h : isdigit c = true) : isTrimmed c = false := by
  have := forall_byte (p := fun c => !isdigit c || !isTrimmed c) (by decide +kernel) c
  simpa [h] using this

/-- A number in blanks is read back. -/
theorem fromString_text (garbage : Nat) {length : PaddedText} (hne : length.word ≠ [])
    (hdigits : Digits length.word) (hsize : decimalValue length.word < 2 ^ 32) :
    fromStringUint32 garbage (trim length.text) = decimalValue length.word := by
  rw [trim_text fun c hc => isTrimmed_digit (hdigits c hc), fromStringUint32_digits _ hne hdigits]
  exact if_neg (not_le.mpr hsize)

/-- A connection that gets a segment. -/
def segmentConn (serial : Nat) (socket : Int) (payload : Bytes) : Conn :=
  { Conn.new serial socket false with state := .connected, payload }

namespace Upload

/-- What `mPartials` has of the upload after `n` segments. -/
def partialData (up : Upload) (serial : Nat) (socket : Int) (n : Nat) : ChunkedData :=
  { request := up.request up.first
    conn := segmentConn serial socket (up.segment 0)
    data := up.received n
    currentSize := (up.received n).length
    totalSize := up.body.length
    counter := n % 2 ^ 32 }

theorem find_length (up : Upload) : OrdMap.find? (ascii "content-length")
    (insertFields up.fields []) = some (trim up.length.text) := by
  have hbefore : ∀ e ∈ up.before.map storedField, e.1 ≠ ascii "content-length" := by
    intro e he
    obtain ⟨field, hfield, rfl⟩ := List.mem_map.mp he
    exact up.before_name field hfield
  rw [insertFields, OrdMap.find?_insertAll _ _ OrdMap.sorted_nil, fields, List.map_append,
    OrdMap.find?_append_of_ne hbefore, List.map_cons, OrdMap.find?]
  exact (Option.none_or).trans (if_pos up.sized.1.symm)

/-- The first segment begins a partial request, unless it has the whole body. -/
theorem startRequest_first (up : Upload) (hsize : up.body.length < 2 ^ 32) (garbage serial : Nat)
    (socket : Int) (mPartials : List ChunkedData) :
    startRequest garbage (segmentConn serial socket (up.segment 0)) (up.request up.first) mPartials
      = if up.rest = [] then (mPartials, true)
        else (mPartials ++ [up.partialData serial socket 1], false) := by
  obtain ⟨-, hword, hdigits, hvalue⟩ := up.sized
  have hlength : fromStringUint32 garbage (trim up.length.text) = up.body.length := by
    rw [fromString_text garbage hword hdigits (hvalue ▸ hsize), hvalue]
    rfl
  have hpost : (up.request up.first).method = ascii "POST" := by
    obtain ⟨params, hparams⟩ := parseUrlParameters_eq { HttpRequest.new with
      method := ascii "POST", query := up.query, protocol := up.protocol }
    rw [request, hparams]
  have hheaders : (up.request up.first).headers = insertFields up.fields [] := rfl
  have hbody : (up.request up.first).body = up.first := rfl
  simp only [startRequest, hpost, if_true, hheaders, find_length, hlength, hbody]
  by_cases hrest : up.rest = []
  · rw [if_pos hrest, if_neg (by simp [body, hrest])]
  · -- There is more to come, as no segment is empty.
    have hmore : up.rest.flatten ≠ [] := by
      obtain ⟨part, rest, hcons⟩ := List.exists_cons_of_ne_nil hrest
      have hpart : part ≠ [] := by
        rintro rfl
        exact up.rest_nonempty (by rw [hcons]; exact List.mem_cons_self)
      simp [hcons, hpart]
    have hpos := List.length_pos_of_ne_nil hmore
    have hless : up.first.length < up.body.length := by
      rw [body, List.length_append]
      omega
    have hone : up.received 1 = up.first := by simp [received]
    rw [if_neg hrest, if_pos hless, partialData, hone, Nat.mod_eq_of_lt (by omega)]
    rfl

end Upload

/-! ### Later segments -/

/-- A payload whose first line is not one of a request. -/
theorem parseRequestHeader_refused {payload : Bytes} (hline : FirstLineNonempty payload)
    (hnot : ¬ ValidRequestLine payload) :
    ∃ request, parseRequestHeader payload .new = .ok (false, request) ∧ request.headers = [] := by
  rw [parseRequestHeader]
  rcases getline_payload payload with ⟨rfl, line, iss, hget⟩ | ⟨line, rest, iss, hlines, hget, -⟩
  · exact ⟨.new, by rw [hget], rfl⟩
  · rw [FirstLineNonempty, hlines] at hline
    have hne : line ≠ [] := by simpa using hline
    simp only [hget, requestLine_eq hne, ok_bind]
    split
    · next method query protocol hparts =>
      have hmethod : method ∉ cSupportedMethods := by
        intro hmem
        refine hnot ⟨method, query, protocol, ?_, hmem⟩
        rw [hlines, List.headD_cons, hparts]
      rw [if_neg hmethod]
      exact ⟨_, rfl, rfl⟩
    · exact ⟨.new, rfl, rfl⟩

/-- **A segment that is not the last one** is added to the partial request of its connection. -/
theorem partialLoop_more {conn : Conn} (scan : PartialScan) {front back : List ChunkedData}
    {el : ChunkedData} (hparts : scan.mPartials = front ++ el :: back)
    (hfront : ∀ el ∈ front, sameConn conn el = false) (hel : sameConn conn el = true)
    (hback : ∀ el ∈ back, sameConn conn el = false)
    (hless : (appendSegment conn.payload el).currentSize < el.totalSize) :
    partialLoop conn scan.mPartials.length 0 scan
      = .ok { scan with mPartials := front ++ appendSegment conn.payload el :: back } := by
  have hpending : ∀ el ∈ scan.mPartials, completes conn el = false := by
    rw [hparts, List.forall_mem_append, List.forall_mem_cons]
    refine ⟨fun el hmem => completes_other (hfront el hmem), ?_,
      fun el hmem => completes_other (hback el hmem)⟩
    rw [Bool.eq_false_iff, ne_eq, completes_own hel]
    exact not_le.mpr hless
  rw [partialLoop_none scan hpending, hparts, List.map_append, List.map_cons,
    map_withSegment_other hfront, map_withSegment_other hback, withSegment_own hel]

/-- **The last segment**, where the partial request is the last one of `mPartials`: it is taken out
    and completed. -/
theorem partialLoop_last {conn : Conn} (scan : PartialScan) {front : List ChunkedData}
    {el : ChunkedData} (hparts : scan.mPartials = front ++ [el])
    (hfront : ∀ el ∈ front, sameConn conn el = false) (hel : sameConn conn el = true)
    (hfull : el.totalSize ≤ (appendSegment conn.payload el).currentSize) :
    partialLoop conn scan.mPartials.length 0 scan
      = .ok { mPartials := front, process := true
              request := { el.request with body := (appendSegment conn.payload el).data } } := by
  rw [partialLoop_first hparts (fun el hmem => completes_other (hfront el hmem))
    ((completes_own hel).mpr hfull), map_withSegment_other hfront,
    deletePartialConn_concat front (show sameConn conn (appendSegment conn.payload el) = true
      from hel)]
  rfl

namespace Upload

theorem length_segments (up : Upload) : up.segments.length = up.rest.length + 1 := rfl

/-- A later segment, and the part of the body before it. -/
theorem later (up : Upload) {n : Nat} (hpos : 0 < n) (hn : n < up.segments.length) :
    up.segment n ∈ up.rest ∧ up.received (n + 1) = up.received n ++ up.segment n := by
  obtain ⟨m, rfl⟩ : ∃ m, n = m + 1 := ⟨n - 1, by omega⟩
  have hm : m < up.rest.length := by
    rw [length_segments] at hn
    omega
  have hsegment : up.segment (m + 1) = up.rest[m] := by
    rw [segment, segments, List.getD_cons_succ, List.getD_eq_getElem?_getD,
      List.getElem?_eq_getElem hm, Option.getD_some]
  rw [hsegment]
  refine ⟨List.getElem_mem hm, ?_⟩
  simp only [received, Nat.add_sub_cancel]
  rw [List.take_succ_eq_append_getElem hm, List.flatten_append, List.flatten_singleton,
    List.append_assoc]

theorem segment_ne_nil (up : Upload) {n : Nat} (hn : n < up.segments.length) :
    up.segment n ≠ [] := by
  cases n with
  | zero =>
    have hpost : ascii "POST" = 0x50 :: ascii "OST" := rfl
    simp [segment, segments, head, messageHead, requestStart, hpost]
  | succ n => exact fun h => up.rest_nonempty (h ▸ (up.later n.succ_pos hn).1)

theorem received_all (up : Upload) {n : Nat} (hn : up.segments.length ≤ n) :
    up.received n = up.body := by
  rw [length_segments] at hn
  rw [received, List.take_of_length_le (by omega), body]

/-- Some of the body is missing as long as there is a segment to come. -/
theorem received_less (up : Upload) {n : Nat} (hpos : 0 < n) (hn : n < up.segments.length) :
    (up.received n).length < up.body.length := by
  have hstep : ∀ m, 0 < m → m < up.segments.length →
      (up.received m).length < (up.received (m + 1)).length := by
    intro m hm hlt
    have hseg := List.length_pos_of_ne_nil (up.segment_ne_nil hlt)
    rw [(up.later hm hlt).2, List.length_append]
    omega
  -- By induction on the number of segments to come.
  induction hmore : up.segments.length - n generalizing n with
  | zero => omega
  | succ k ih =>
    have hnext := hstep n hpos hn
    by_cases hlast : n + 1 < up.segments.length
    · exact lt_trans hnext (ih n.succ_pos hlast (by omega))
    · rwa [up.received_all (n := n + 1) (by omega)] at hnext

/-- One more segment. -/
theorem appendSegment_partialData (up : Upload) (hsize : up.body.length < 2 ^ 32) (serial : Nat)
    (socket : Int) {n : Nat} (hpos : 0 < n) (hn : n < up.segments.length) :
    appendSegment (up.segment n) (up.partialData serial socket n)
      = up.partialData serial socket (n + 1) := by
  obtain ⟨-, hreceived⟩ := up.later hpos hn
  have hle : (up.received (n + 1)).length ≤ up.body.length := by
    by_cases hlast : n + 1 < up.segments.length
    · exact le_of_lt (up.received_less n.succ_pos hlast)
    · rw [up.received_all (by omega)]
  have hcurrent : ((up.received n).length + (up.segment n).length) % 2 ^ 32
      = (up.received (n + 1)).length := by
    rw [hreceived, List.length_append] at hle ⊢
    exact Nat.mod_eq_of_lt (by omega)
  have hcounter : (n % 2 ^ 32 + 1) % 2 ^ 32 = (n + 1) % 2 ^ 32 := by omega
  simp only [appendSegment, partialData, hcurrent, hcounter, ← hreceived]

end Upload

/-! ### `ReadData` on one segment -/

/-- **The first segment.** -/
theorem readData_first {up : Upload} {server : HttpFileServer}
    (haccepted : up.Accepted server.mLocalHostOnly) (garbage serial : Nat) (socket : Int) :
    readData garbage server (segmentConn serial socket (up.segment 0)) = .ok
      (if up.rest = [] then
        (server, [.dispatch (segmentConn serial socket (up.segment 0)) (up.request up.body)])
      else
        ({ server with
          mPartials := server.mPartials ++ [up.partialData serial socket 1] }, [])) := by
  have hne : (up.segment 0).length ≠ 0 :=
    mt List.length_eq_zero_iff.mp (up.segment_ne_nil (by simp [Upload.length_segments]))
  have hparse := up.parse_first haccepted.first_size
  have hallowed : isForbidden server.mLocalHostOnly (up.request up.first) = false :=
    haccepted.allowed
  simp only [readData, segmentConn, Conn.new, hne, if_false, Bool.false_eq_true, hparse, ok_bind,
    if_true]
  have hstart := up.startRequest_first haccepted.body_size garbage serial socket server.mPartials
  simp only [segmentConn, Conn.new] at hstart
  simp only [hstart]
  by_cases hrest : up.rest = []
  · have hbody : up.body = up.first := by simp [Upload.body, hrest]
    simp only [hrest, if_true, pure_eq_ok, ok_bind, hallowed, Bool.false_eq_true, if_false, hbody]
  · simp only [hrest, if_false, pure_eq_ok, ok_bind, hallowed, Bool.false_eq_true]

/-- **A later segment**, when its first line is not one of a request. -/
theorem readData_later {up : Upload} {server : HttpFileServer}
    (haccepted : up.Accepted server.mLocalHostOnly) (garbage serial : Nat) (socket : Int) {n : Nat}
    (hpos : 0 < n) (hn : n < up.segments.length) (hline : FirstLineNonempty (up.segment n))
    (hnot : ¬ ValidRequestLine (up.segment n)) {front back : List ChunkedData}
    (hparts : server.mPartials = front ++ up.partialData serial socket n :: back)
    (hfront : ∀ el ∈ front, el.conn.peer.socket ≠ socket)
    (hback : ∀ el ∈ back, el.conn.peer.socket ≠ socket)
    (hlast : n + 1 = up.segments.length → back = []) :
    readData garbage server (segmentConn serial socket (up.segment n)) = .ok
      (if n + 1 < up.segments.length then
        ({ server with mPartials := front ++ up.partialData serial socket (n + 1) :: back }, [])
      else ({ server with mPartials := front },
        [.dispatch (segmentConn serial socket (up.segment n)) (up.request up.body)])) := by
  have hne : (up.segment n).length ≠ 0 := mt List.length_eq_zero_iff.mp (up.segment_ne_nil hn)
  obtain ⟨request, hparse, hheaders⟩ := parseRequestHeader_refused hline hnot
  have hother : isForbidden server.mLocalHostOnly request = false := by
    rw [isForbidden, hheaders, OrdMap.find?, Bool.and_false]
  have hsame : ∀ el : ChunkedData, el.conn.peer.socket ≠ socket →
      sameConn (segmentConn serial socket (up.segment n)) el = false := fun el hel =>
    beq_eq_false_iff_ne.mpr hel
  have hel : sameConn (segmentConn serial socket (up.segment n)) (up.partialData serial socket n)
      = true := beq_self_eq_true _
  have happend : appendSegment (segmentConn serial socket (up.segment n)).payload
      (up.partialData serial socket n) = up.partialData serial socket (n + 1) :=
    up.appendSegment_partialData haccepted.body_size serial socket hpos hn
  have hallowed : isForbidden server.mLocalHostOnly (up.request up.body) = false :=
    haccepted.allowed
  have hpayload : (segmentConn serial socket (up.segment n)).payload = up.segment n := rfl
  have hplain : (segmentConn serial socket (up.segment n)).peer.isWebSocket = false := rfl
  simp only [readData, hpayload, hplain, hne, if_false, Bool.false_eq_true, hparse, ok_bind]
  by_cases hmore : n + 1 < up.segments.length
  · have hless : (appendSegment (segmentConn serial socket (up.segment n)).payload
        (up.partialData serial socket n)).currentSize < up.body.length := by
      rw [happend]
      exact up.received_less n.succ_pos hmore
    have hloop := partialLoop_more { mPartials := server.mPartials, process := false, request }
      hparts (fun el hmem => hsame el (hfront el hmem)) hel
      (fun el hmem => hsame el (hback el hmem)) hless
    simp only [happend] at hloop
    simp only [hloop, ok_bind, hother, Bool.false_eq_true, if_false, if_pos hmore, pure_eq_ok]
  · obtain rfl := hlast (by omega)
    have hfull : up.body.length ≤ (appendSegment (segmentConn serial socket (up.segment n)).payload
        (up.partialData serial socket n)).currentSize := by
      rw [happend]
      show up.body.length ≤ (up.received (n + 1)).length
      rw [up.received_all (by omega)]
    have hloop := partialLoop_last { mPartials := server.mPartials, process := false, request }
      hparts (fun el hmem => hsame el (hfront el hmem)) hel hfull
    -- What is dispatched is the parsed request with the whole body in it.
    have hdata : { (up.partialData serial socket n).request with
        body := (up.partialData serial socket (n + 1)).data } = up.request up.body := by
      show { up.request up.first with body := up.received (n + 1) } = _
      rw [up.received_all (by omega)]
      rfl
    simp only [happend, hdata] at hloop
    simp only [hloop, ok_bind, hallowed, Bool.false_eq_true, if_false, if_true, if_neg hmore,
      pure_eq_ok]

/-! ### Any interleaving -/

/-- The server, and what comes on every socket. -/
structure Reception where
  server : HttpFileServer
  /-- The uploads that have not been received wholly, in their order. -/
  uploads : Int → List Upload
  /-- How many segments of the first of them have been received. -/
  sent : Int → Nat
  effects : List FileServerEffect
  /-- What `ReadData` should have done: one dispatch for every upload that has been received. -/
  due : List FileServerEffect

namespace Reception

/-- Nothing has come yet. -/
def start (mLocalHostOnly : Bool) (uploads : Int → List Upload) : Reception :=
  { server := { mLocalHostOnly, mPartials := [] }
    uploads, sent := fun _ => 0, effects := [], due := [] }

/-- The next segment of a socket is handed to `ReadData`. -/
def step (garbage : Nat) (serial : Int → Nat) (r : Reception) (socket : Int) :
    Except Fault Reception :=
  match r.uploads socket with
  | [] => return r
  | up :: others => do
    let n := r.sent socket
    let conn := segmentConn (serial socket) socket (up.segment n)
    let (server, effects) ← readData garbage r.server conn
    let effects := r.effects ++ effects
    if n + 1 < up.segments.length then
      return { r with server, effects, sent := Function.update r.sent socket (n + 1) }
    else
      return { r with
        server, effects
        uploads := Function.update r.uploads socket others
        sent := Function.update r.sent socket 0
        due := r.due ++ [.dispatch conn (up.request up.body)] }

end Reception

/-- Every request that has been received has been dispatched once and in full, and nothing else. -/
def DispatchedOnce (r : Reception) : Prop := r.effects = r.due

/-- The next segment of the socket, if it is a later one, begins with a line that is neither empty
    nor the first line of a request, and if it is the last one, no other upload that is under way
    was begun after its own. -/
def Undisturbed (r : Reception) (socket : Int) : Prop :=
  ∀ up ∈ (r.uploads socket).head?, 0 < r.sent socket →
    FirstLineNonempty (up.segment (r.sent socket)) ∧
    ¬ ValidRequestLine (up.segment (r.sent socket)) ∧
    (r.sent socket + 1 = up.segments.length →
      r.server.mPartials.getLast?.map (·.conn.peer.socket) = some socket)

instance (r : Reception) (socket : Int) : Decidable (Undisturbed r socket) :=
  inferInstanceAs (Decidable (∀ up ∈ (r.uploads socket).head?, _))

/-- An upload is under way on the socket, and `el` is what there is of it. -/
def UnderWay (serial : Int → Nat) (r : Reception) (socket : Int) (el : ChunkedData) : Prop :=
  ∃ up others, r.uploads socket = up :: others ∧ 0 < r.sent socket ∧
    r.sent socket < up.segments.length ∧ el = up.partialData (serial socket) socket (r.sent socket)

/-- What every undisturbed step keeps up. -/
structure ReceptionInv (serial : Int → Nat) (mLocalHostOnly : Bool) (r : Reception) : Prop where
  localHost : r.server.mLocalHostOnly = mLocalHostOnly
  accepted : ∀ socket, ∀ up ∈ r.uploads socket, up.Accepted mLocalHostOnly
  dispatched : DispatchedOnce r
  /-- The partial requests are those of the uploads under way. -/
  underWay : ∀ el ∈ r.server.mPartials, UnderWay serial r el.conn.peer.socket el
  known : ∀ socket, 0 < r.sent socket → ∃ el ∈ r.server.mPartials, el.conn.peer.socket = socket
  distinct : (r.server.mPartials.map (·.conn.peer.socket)).Nodup

theorem receptionInv_start (serial : Int → Nat) {mLocalHostOnly : Bool}
    {uploads : Int → List Upload}
    (haccepted : ∀ socket, ∀ up ∈ uploads socket, up.Accepted mLocalHostOnly) :
    ReceptionInv serial mLocalHostOnly (.start mLocalHostOnly uploads) where
  localHost := rfl
  accepted := haccepted
  dispatched := rfl
  underWay := by simp [Reception.start]
  known := by simp [Reception.start]
  distinct := List.nodup_nil

/-- A step touches the partial request of its own socket, if any, and no other one. -/
theorem ReceptionInv.touch {serial : Int → Nat} {mLocalHostOnly : Bool} {r r' : Reception}
    (h : ReceptionInv serial mLocalHostOnly r) {socket : Int} (front back : List ChunkedData)
    (own own' : Option ChunkedData)
    (hold : r.server.mPartials = front ++ (own.toList ++ back))
    (hnew : r'.server.mPartials = front ++ (own'.toList ++ back))
    (hothers : ∀ el ∈ front ++ back, el.conn.peer.socket ≠ socket)
    (hown : ∀ el ∈ own, el.conn.peer.socket = socket)
    (hown' : ∀ el ∈ own', el.conn.peer.socket = socket ∧ UnderWay serial r' socket el)
    (hknown : 0 < r'.sent socket → own'.isSome)
    (huploads : ∀ s, r'.uploads s ⊆ r.uploads s)
    (hsame : ∀ s, s ≠ socket → r'.uploads s = r.uploads s ∧ r'.sent s = r.sent s)
    (hlocal : r'.server.mLocalHostOnly = r.server.mLocalHostOnly)
    (hdispatched : DispatchedOnce r') : ReceptionInv serial mLocalHostOnly r' where
  localHost := hlocal.trans h.localHost
  accepted s up hup := h.accepted s up (huploads s hup)
  dispatched := hdispatched
  underWay := by
    intro el hel
    rw [hnew] at hel
    by_cases hmem : el ∈ own'
    · obtain ⟨hsocket, hway⟩ := hown' el hmem
      rwa [hsocket]
    · -- It was there before, and its socket has not been touched.
      have hrest : el ∈ front ++ back := by
        simp only [List.mem_append, Option.mem_toList] at hel ⊢
        tauto
      have hbefore : el ∈ r.server.mPartials := by
        rw [hold]
        simp only [List.mem_append] at hrest ⊢
        tauto
      obtain ⟨hup, hsent⟩ := hsame _ (hothers el hrest)
      have hway := h.underWay el hbefore
      rwa [UnderWay, ← hup, ← hsent] at hway
  known := by
    intro s hpos
    rw [hnew]
    by_cases hs : s = socket
    · subst hs
      obtain ⟨el, rfl⟩ := Option.isSome_iff_exists.mp (hknown hpos)
      exact ⟨el, by simp, (hown' el rfl).1⟩
    · rw [(hsame s hs).2] at hpos
      obtain ⟨el, hel, hsocket⟩ := h.known s hpos
      have hnot : el ∉ own := fun hmem => hs (hsocket ▸ hown el hmem)
      rw [hold] at hel
      refine ⟨el, ?_, hsocket⟩
      simp only [List.mem_append, Option.mem_toList] at hel ⊢
      tauto
  distinct := by
    have hrest : ((front ++ back).map (·.conn.peer.socket)).Nodup := by
      refine h.distinct.sublist ((List.Sublist.map _ ?_))
      rw [hold]
      exact (List.Sublist.refl _).append (List.sublist_append_right _ _)
    rw [hnew]
    cases hcase : own' with
    | none => exact hrest
    | some el =>
      have hsocket : el.conn.peer.socket = socket := (hown' el hcase).1
      rw [Option.toList_some, List.singleton_append, List.map_append, List.map_cons,
        List.perm_middle.nodup_iff, ← List.map_append, List.nodup_cons]
      refine ⟨fun hmem => ?_, hrest⟩
      obtain ⟨el', hel', heq⟩ := List.mem_map.mp hmem
      exact hothers el' hel' (heq.trans hsocket)

/-- The uploads of a socket, once the first of them has been received. -/
theorem update_subset {r : Reception} {socket : Int} {up : Upload} {others : List Upload}
    (huploads : r.uploads socket = up :: others) (s : Int) :
    Function.update r.uploads socket others s ⊆ r.uploads s := by
  by_cases hs : s = socket
  · subst hs
    rw [Function.update_self, huploads]
    exact List.subset_cons_self _ _
  · rw [Function.update_of_ne hs]
    exact List.Subset.refl _

/-- **The first segment of an upload.** -/
theorem ReceptionInv.step_first {serial : Int → Nat} {mLocalHostOnly : Bool} {r : Reception}
    (h : ReceptionInv serial mLocalHostOnly r) (garbage : Nat) {socket : Int} {up : Upload}
    {others : List Upload} (huploads : r.uploads socket = up :: others)
    (haccepted : up.Accepted r.server.mLocalHostOnly) (hzero : r.sent socket = 0) :
    ∃ r', r.step garbage serial socket = .ok r' ∧ ReceptionInv serial mLocalHostOnly r' := by
  -- The socket is idle.
  have hidle : ∀ el ∈ r.server.mPartials ++ [], el.conn.peer.socket ≠ socket := by
    rintro el hel rfl
    obtain ⟨-, -, -, hpos, -⟩ := h.underWay el (by simpa using hel)
    omega
  have hread := readData_first haccepted garbage (serial socket) socket
  simp only [Reception.step, huploads, hzero, hread, ok_bind]
  by_cases hrest : up.rest = []
  · have hlast : ¬ 0 + 1 < up.segments.length := by simp [Upload.length_segments, hrest]
    simp only [if_pos hrest, if_neg hlast]
    refine ⟨_, rfl, h.touch r.server.mPartials [] none none (by simp) (by simp) hidle (by simp)
      (by simp) (by simp) (update_subset huploads) (fun s hs => ?_) rfl ?_⟩
    · exact ⟨Function.update_of_ne hs _ _, Function.update_of_ne hs _ _⟩
    · exact congrArg (· ++ [_]) h.dispatched
  · have hmore : 0 + 1 < up.segments.length := by
      have := List.length_pos_of_ne_nil hrest
      rw [Upload.length_segments]
      omega
    simp only [if_neg hrest, if_pos hmore, List.append_nil]
    refine ⟨_, rfl, h.touch r.server.mPartials [] none
      (some (up.partialData (serial socket) socket 1)) (by simp) (by simp) hidle (by simp) ?_
      (by simp) (fun s => List.Subset.refl _) (fun s hs => ⟨rfl, Function.update_of_ne hs _ _⟩) rfl
      h.dispatched⟩
    rintro el ⟨⟩
    exact ⟨rfl, up, others, huploads, by simp, by simpa using hmore, by simp⟩

/-- **A later segment of an upload.** -/
theorem ReceptionInv.step_later {serial : Int → Nat} {mLocalHostOnly : Bool} {r : Reception}
    (h : ReceptionInv serial mLocalHostOnly r) (garbage : Nat) {socket : Int} {up : Upload}
    {others : List Upload} (huploads : r.uploads socket = up :: others)
    (haccepted : up.Accepted r.server.mLocalHostOnly) (hpos : 0 < r.sent socket)
    (hundisturbed : Undisturbed r socket) :
    ∃ r', r.step garbage serial socket = .ok r' ∧ ReceptionInv serial mLocalHostOnly r' := by
  obtain ⟨hline, hnot, hlast⟩ := hundisturbed up (by rw [huploads]; rfl) hpos
  obtain ⟨el, hel, hsocket⟩ := h.known socket hpos
  have hway := h.underWay el hel
  rw [hsocket] at hway
  obtain ⟨up', others', huploads', -, hn, rfl⟩ := hway
  obtain ⟨rfl, rfl⟩ : up = up' ∧ others = others' := by simpa [huploads] using huploads'
  obtain ⟨front, back, hparts⟩ := List.append_of_mem hel
  -- No other partial request is one of the socket.
  have hothers : ∀ el ∈ front ++ back, el.conn.peer.socket ≠ socket := by
    have hdistinct := h.distinct
    rw [hparts, List.map_append, List.map_cons, List.perm_middle.nodup_iff, ← List.map_append,
      List.nodup_cons] at hdistinct
    exact fun el hmem heq => hdistinct.1 (List.mem_map.mpr ⟨el, hmem, heq⟩)
  have hback : r.sent socket + 1 = up.segments.length → back = [] := by
    intro hend
    have hsome := hlast hend
    by_contra hne
    obtain ⟨pre, el, rfl⟩ := List.eq_nil_or_concat' back |>.resolve_left hne
    have hend : front ++ up.partialData (serial socket) socket (r.sent socket) :: (pre ++ [el])
        = (front ++ up.partialData (serial socket) socket (r.sent socket) :: pre) ++ [el] := by simp
    rw [hparts, hend, List.getLast?_concat] at hsome
    exact hothers el (by simp) (Option.some.inj hsome)
  have hread := readData_later haccepted garbage (serial socket) socket hpos hn hline hnot hparts
    (fun el hmem => hothers el (List.mem_append_left _ hmem))
    (fun el hmem => hothers el (List.mem_append_right _ hmem)) hback
  have hown : ∀ el ∈ some (up.partialData (serial socket) socket (r.sent socket)),
      el.conn.peer.socket = socket := by
    rintro el ⟨⟩
    rfl
  simp only [Reception.step, huploads, hread, ok_bind]
  by_cases hmore : r.sent socket + 1 < up.segments.length
  · simp only [if_pos hmore, List.append_nil]
    refine ⟨_, rfl, h.touch front back
      (some (up.partialData (serial socket) socket (r.sent socket)))
      (some (up.partialData (serial socket) socket (r.sent socket + 1))) hparts rfl hothers hown ?_
      (by simp) (fun s => List.Subset.refl _) (fun s hs => ⟨rfl, Function.update_of_ne hs _ _⟩) rfl
      h.dispatched⟩
    rintro el ⟨⟩
    exact ⟨rfl, up, others, huploads, by simp, by simpa using hmore, by simp⟩
  · obtain rfl := hback (by omega)
    simp only [if_neg hmore]
    refine ⟨_, rfl, h.touch front [] (some (up.partialData (serial socket) socket (r.sent socket)))
      none hparts (by simp) hothers hown (by simp) (by simp) (update_subset huploads)
      (fun s hs => ?_) rfl ?_⟩
    · exact ⟨Function.update_of_ne hs _ _, Function.update_of_ne hs _ _⟩
    · exact congrArg (· ++ [_]) h.dispatched

/-- **One step.** -/
theorem ReceptionInv.step {serial : Int → Nat} {mLocalHostOnly : Bool} (garbage : Nat)
    (r : Reception) (socket : Int) (hundisturbed : Undisturbed r socket)
    (h : ReceptionInv serial mLocalHostOnly r) :
    ∃ r', r.step garbage serial socket = .ok r' ∧ ReceptionInv serial mLocalHostOnly r' := by
  rcases huploads : r.uploads socket with _ | ⟨up, others⟩
  · exact ⟨r, by simp only [Reception.step, huploads, pure_eq_ok], h⟩
  · have haccepted : up.Accepted r.server.mLocalHostOnly := by
      rw [h.localHost]
      exact h.accepted socket up (by rw [huploads]; exact List.mem_cons_self)
    rcases Nat.eq_zero_or_pos (r.sent socket) with hzero | hpos
    · exact h.step_first garbage huploads haccepted hzero
    · exact h.step_later garbage huploads haccepted hpos hundisturbed

/-- **Requests in any number of segments, interleaved in any way.**  As long as every later segment
    can be told from a request and no upload is finished before one that was begun after it,
    `ReadData` is defined, and at any moment the requests that have been received have been
    dispatched once, with their whole bodies, and nothing else has been. -/
theorem uploads_dispatched (garbage : Nat) (serial : Int → Nat) (mLocalHostOnly : Bool)
    (uploads : Int → List Upload)
    (haccepted : ∀ socket, ∀ up ∈ uploads socket, up.Accepted mLocalHostOnly) (order : List Int)
    (hundisturbed : Along (Reception.step garbage serial) Undisturbed
      (.start mLocalHostOnly uploads) order) :
    Defined (run (Reception.step garbage serial) (.start mLocalHostOnly uploads) order) ∧
      Throughout (Reception.step garbage serial) DispatchedOnce (.start mLocalHostOnly uploads)
        order := by
  obtain ⟨hrun, hthroughout⟩ :=
    throughout_along (fun r socket => ReceptionInv.step garbage r socket) hundisturbed
      (receptionInv_start serial haccepted)
  exact ⟨hrun, hthroughout.mono fun _ h => h.dispatched⟩

/-- A request for `/a`, whose body comes in the given segments. -/
def Upload.small (first : Bytes) (rest : List Bytes) (digits : Bytes)
    (h : digits ≠ [] ∧ (∀ d ∈ digits, isdigit d = true) ∧
      decimalValue digits = (first ++ rest.flatten).length)
    (hrest : [] ∉ rest) : Upload where
  query := ascii "/a"
  protocol := ascii "HTTP/1.1"
  before := [(ascii "Host", ascii " b")]
  lengthName := ascii "Content-Length"
  length := .spaced digits
  after := []
  first
  rest
  query_plain := by decide
  protocol_plain := by decide
  fields_valid := by
    intro field hfield
    obtain rfl : field = (ascii "Host", ascii " b") := by simpa using hfield
    exact ⟨by decide, by decide, by decide⟩
  before_name := by decide
  sized := ⟨by decide, h⟩
  rest_nonempty := hrest

/-- Two uploads on two sockets; the one that begins later is finished first. -/
def twoUploads (socket : Int) : List Upload :=
  if socket = 8 then
    [.small (ascii "a") [ascii "b\r\n", ascii "c"] (ascii "5")
      ⟨by decide, forall_mem_of_all (by decide), by decide⟩ (by decide)]
  else if socket = 9 then
    [.small [] [ascii "POST it"] (ascii "7") ⟨by decide, forall_mem_of_all (by decide), by decide⟩
      (by decide)]
  else []

theorem uploads_dispatched_two :
    Defined (run (Reception.step 0 fun _ => 0) (.start true twoUploads) [8, 9, 8, 9, 8]) ∧
      Throughout (Reception.step 0 fun _ => 0) DispatchedOnce (.start true twoUploads)
        [8, 9, 8, 9, 8] := by
  refine uploads_dispatched 0 (fun _ => 0) true twoUploads (fun socket up hup => ?_) _ (by decide)
  rw [twoUploads] at hup
  split_ifs at hup with h₈ h₉
  · rw [List.mem_singleton.mp hup]
    exact ⟨by decide, by decide, by decide⟩
  · rw [List.mem_singleton.mp hup]
    exact ⟨by decide, by decide, by decide⟩
  · cases hup

/-- An upload whose second segment is a request. -/
def hijackedUpload (socket : Int) : List Upload :=
  if socket = 8 then
    [.small [] [ascii "GET / HTTP/1.1\r\n"] (ascii "16")
      ⟨by decide, forall_mem_of_all (by decide), by decide⟩ (by decide)]
  else []

/-- The second segment is answered as a request of its own, and the upload never ends. -/
theorem upload_taken_for_request :
    ¬ ∀ (garbage : Nat) (serial : Int → Nat) (mLocalHostOnly : Bool) (uploads : Int → List Upload),
      (∀ socket, ∀ up ∈ uploads socket, up.Accepted mLocalHostOnly) → ∀ order : List Int,
      Defined (run (Reception.step garbage serial) (.start mLocalHostOnly uploads) order) ∧
        Throughout (Reception.step garbage serial) DispatchedOnce (.start mLocalHostOnly uploads)
          order := by
  intro h
  have haccepted : ∀ socket, ∀ up ∈ hijackedUpload socket, up.Accepted false := by
    intro socket up hup
    rw [hijackedUpload] at hup
    split_ifs at hup with h₈
    · rw [List.mem_singleton.mp hup]
      exact ⟨by decide, by decide, by decide⟩
    · cases hup
  obtain ⟨⟨r, hr⟩, hthroughout⟩ := h 0 (fun _ => 0) false hijackedUpload haccepted [8, 8]
  have hdispatched : DispatchedOnce r := hthroughout.last hr
  have heval : (run (Reception.step 0 fun _ => 0) (.start false hijackedUpload) [8, 8]).map
      (fun r => decide (r.effects = r.due)) = .ok false := by decide
  rw [hr] at heval
  exact of_decide_eq_false (Except.ok.inj heval) hdispatched

end Icl.Protocol
