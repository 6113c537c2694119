import Icl.Protocol.HttpConnection

namespace Icl.Http

open Icl.Cxx Icl.Transition

/-!
# What an `IEvent` is told

A handler is called by all the responses of its connection.  What it may rely on is the machine
`Talk.heed`: each request that has been issued is answered in its turn, by a begin, data and an end,
unless the connection is closed before.

* `Talk` — the requests that are not answered, and whether the first answer has begun;
* `Connection.noted` — a call of the connection, with what can be seen of it;
* `processLine_heeds`, `processData_heeds` — one step of a response;
* `pumpBuffer_heeds` — a buffer;
* `noted_heeds` — the connection refines the machine.
-/

/-! ### The machine -/

/-- What can be seen of a connection: a request is issued, the handler is called, or what is
    outstanding is discarded. -/
inductive Note where
  | asked
  | told (event : Event)
  | dropped
  deriving DecidableEq, Repr

/-- The number of answers still to be completed, and whether the first one has begun. -/
structure Talk where
  waiting : ℕ
  begun : Bool
  deriving DecidableEq, Repr

namespace Talk

/-- What may come next, and what it leads to. -/
def heed (t : Talk) : Note → Option Talk
  | .asked => some { t with waiting := t.waiting + 1 }
  | .told .responseBegin =>
    if t.begun = false ∧ 0 < t.waiting then some { t with begun := true } else none
  | .told (.responseData _) => if t.begun then some t else none
  | .told .responseComplete =>
    if t.begun then some { waiting := t.waiting - 1, begun := false } else none
  | .dropped => some { waiting := 0, begun := false }

/-- Some notes, one after the other. -/
def heedAll (t : Talk) (notes : List Note) : Option Talk := notes.foldlM heed t

/-- Notes are heeded one after the other. -/
theorem heedAll_append (t : Talk) (notes notes' : List Note) :
    t.heedAll (notes ++ notes') = t.heedAll notes >>= fun t => t.heedAll notes' :=
  List.foldlM_append

/-- The events may come, and lead from `t` to `t'`. -/
def Heeds (t : Talk) (events : List Event) (t' : Talk) : Prop :=
  t.heedAll (events.map .told) = some t'

/-- Nothing said is heeded. -/
theorem Heeds.nil (t : Talk) : t.Heeds [] t := rfl

/-- Events are heeded piece by piece. -/
theorem Heeds.append {t t' t'' : Talk} {es es' : List Event} (h : t.Heeds es t')
    (h' : t'.Heeds es' t'') : t.Heeds (es ++ es') t'' := by
  rw [Heeds, List.map_append, heedAll_append, h]
  exact h'

end Talk

/-! ### One response -/

namespace Response

/-- The handler has been told of the begin of the response, and not of its end. -/
def begun (r : Response) : Bool :=
  match r.mState with
  | .body | .chunkLen | .chunkEnd | .trailers => true
  | .statusLine | .headers | .complete => false

/-- The response, with `n` requests behind it. -/
def talk (n : ℕ) (r : Response) : Talk :=
  if r.completed then { waiting := n, begun := false } else { waiting := n + 1, begun := r.begun }

variable {r : Response} {n : ℕ}

/-- Only the state of a response counts for the talk. -/
theorem talk_congr {r' : Response} (h : r.mState = r'.mState) : r.talk n = r'.talk n := by
  rw [talk, talk, completed, completed, begun, begun, h]

/-- A response that has begun is waited for. -/
theorem talk_begun (h : r.begun = true) : r.talk n = { waiting := n + 1, begun := true } := by
  have hopen : r.completed = false := by
    rw [begun] at h
    rw [completed]
    cases hstate : r.mState <;> rw [hstate] at h <;> first | rfl | cases h
  rw [talk, hopen, if_neg Bool.false_ne_true, h]

/-- Finishing says that the response is complete, which has begun. -/
theorem finish_heeds (h : r.begun = true) : (r.talk n).Heeds r.finish.2 (r.finish.1.talk n) := by
  rw [talk_begun h]
  rfl

/-- Beginning the body says that the response begins, and at once that it is complete if there is no
    body. -/
theorem beginBody_heeds (h : r.mState = .headers) :
    (r.talk n).Heeds r.beginBody.2 (r.beginBody.1.talk n) := by
  have hbegun : r.beginBody.1.begun = true := by
    rw [beginBody, begun]
    dsimp only
    split_ifs <;> rfl
  have hevents : r.beginBody.2 = [.responseBegin] := rfl
  rw [talk_begun hbegun, hevents, talk, completed, begun, h]
  rfl

/-- A header line says nothing, the blank one that the response begins. -/
theorem processHeaderLine_heeds (h : r.mState = .headers) (line : Bytes) :
    (r.talk n).Heeds (r.processHeaderLine line).2 ((r.processHeaderLine line).1.talk n) := by
  obtain ⟨hflush, -⟩ := r.flushHeader_keeps
  rw [processHeaderLine]
  by_cases hempty : line = []
  · rw [if_pos hempty, talk_congr hflush.symm]
    dsimp only
    split_ifs
    · -- The response has only said that it will come.
      rw [talk, completed, begun, hflush, h]
      rfl
    · exact beginBody_heeds (hflush.trans h)
  · rw [if_neg hempty]
    dsimp only
    split_ifs
    · exact .nil _
    · rw [talk_congr (r := r) hflush.symm]
      exact .nil _

/-- **A line.** -/
theorem processLine_heeds : (r.talk n).Heeds r.processLine.2 (r.processLine.1.talk n) := by
  rw [processLine]
  -- One case for each state in which a line may end.
  cases hstate : r.mState with
  | headers => exact processHeaderLine_heeds hstate _
  | trailers =>
    dsimp only
    rw [processTrailerLine]
    split_ifs
    · exact finish_heeds (by rw [begun, hstate])
    · exact .nil _
  | statusLine =>
    have hbefore : r.talk n = (r.processStatusLine r.m_LineBuf).talk n := by
      rw [talk, completed, begun, hstate]
      rfl
    rw [hbefore]
    exact .nil _
  | chunkLen =>
    have hbegun : (r.processChunkLenLine r.m_LineBuf).begun = true := by
      simp only [processChunkLenLine]
      split_ifs <;> rfl
    have hbefore : r.begun = true := by rw [begun, hstate]
    rw [talk_begun hbefore]
    dsimp only
    rw [talk_begun hbegun]
    exact .nil _
  | chunkEnd =>
    have hbefore : r.begun = true := by rw [begun, hstate]
    rw [talk_begun hbefore]
    rfl
  | body | complete => exact .nil _

/-- The bytes of a line. -/
theorem accumulate_heeds (data : Bytes) :
    (r.talk n).Heeds (r.accumulate data).2.1 ((r.accumulate data).1.talk n) := by
  induction data generalizing r with
  | nil => exact .nil _
  | cons c data ih =>
    rw [accumulate]
    split_ifs
    · exact processLine_heeds
    · rw [talk_congr (r.addChar_mState c).symm]
      exact ih

/-- **Some data of the body.** -/
theorem processData_heeds (h : r.mState = .body) {data : Bytes} {r' : Response}
    {events : List Event} {used : ℕ} (hrun : r.processData data = .ok (r', events, used)) :
    (r.talk n).Heeds events (r'.talk n) := by
  have hbegun : r.begun = true := by rw [begun, h]
  rw [processData_eq] at hrun
  split_ifs at hrun
  cases hrun
  rw [talk_begun hbegun, advance]
  split_ifs with hchunked hall hlast
  · rfl
  · have hbody : Response.begun { r with
        m_BytesRead := toInt (r.m_BytesRead + r.bodyCount data.length)
        m_ChunkLeft := r.m_ChunkLeft - r.bodyCount data.length } = true := hbegun
    rw [talk_begun hbody]
    rfl
  · rfl
  · rw [talk_begun (by exact hbegun)]
    rfl

/-- The loop of `pump` stops where it is. -/
theorem pumpTurn_stop {s s' : Response × List Event × Bytes}
    (hturn : pumpTurn s = .ok (.stop s')) : s' = s := by
  obtain ⟨r, es, left⟩ := s
  rw [pumpTurn] at hturn
  by_cases hstop : left = [] ∨ r.completed = true
  · rw [if_pos hstop] at hturn
    cases hturn
    rfl
  rw [if_neg hstop] at hturn
  by_cases hline : r.readsLine = true
  · rw [if_pos hline] at hturn
    cases hturn
  · rw [if_neg hline] at hturn
    obtain ⟨⟨r', more, used⟩, -, hturn⟩ := bind_eq_ok.mp hturn
    cases hturn

/-- **Each turn of the loop says what is heeded.** -/
theorem pumpTurn_heeds {t : Talk} {s s' : Response × List Event × Bytes}
    (hturn : pumpTurn s = .ok (.next s')) (h : t.Heeds s.2.1 (s.1.talk n)) :
    t.Heeds s'.2.1 (s'.1.talk n) := by
  obtain ⟨r, es, left⟩ := s
  rw [pumpTurn] at hturn
  by_cases hstop : left = [] ∨ r.completed = true
  · rw [if_pos hstop] at hturn
    cases hturn
  rw [if_neg hstop] at hturn
  by_cases hline : r.readsLine = true
  · rw [if_pos hline] at hturn
    cases hturn
    exact h.append (accumulate_heeds left)
  · rw [if_neg hline] at hturn
    obtain ⟨⟨r', more, used⟩, hdata, hturn⟩ := bind_eq_ok.mp hturn
    cases hturn
    have hbody := body_of_not_readsLine hline (by simpa using (not_or.mp hstop).2)
    exact h.append (processData_heeds hbody hdata)

/-- **`pump`.** -/
theorem pump_heeds {data : Bytes} {r' : Response} {events : List Event} {used : ℕ}
    (hrun : r.pump data = .ok (r', events, used)) : (r.talk n).Heeds events (r'.talk n) := by
  rw [pump] at hrun
  split_ifs at hrun
  obtain ⟨⟨r'', events', rest⟩, hloop, hrun⟩ := bind_eq_ok.mp hrun
  cases hrun
  have hnext : ∀ s s', pumpTurn s = .ok (.next s') → (r.talk n).Heeds s.2.1 (s.1.talk n) →
      (r.talk n).Heeds s'.2.1 (s'.1.talk n) := fun _ _ hturn hs => pumpTurn_heeds hturn hs
  have hstop : ∀ s s', pumpTurn s = .ok (.stop s') → (r.talk n).Heeds s.2.1 (s.1.talk n) →
      (r.talk n).Heeds s'.2.1 (s'.1.talk n) := fun _ _ hturn hs => pumpTurn_stop hturn ▸ hs
  exact loop_ensures hnext hstop hloop (.nil _)

/-- A connection that closes completes the body that goes on to the end. -/
theorem notifyConnectionClosed_heeds :
    (r.talk n).Heeds r.notifyConnectionClosed.2 (r.notifyConnectionClosed.1.talk n) := by
  rw [notifyConnectionClosed]
  split_ifs with hdone hbody
  · exact .nil _
  · exact finish_heeds (by rw [begun, hbody.1])
  · exact .nil _

end Response

/-! ### The connection -/

/-- The responses outstanding. -/
def talkOf : List Response → Talk
  | [] => { waiting := 0, begun := false }
  | r :: rs => r.talk rs.length

/-- When a response is complete, the next one has not begun. -/
theorem Waiting.talk_completed {r r' : Response} {rs : List Response} (h : Waiting (r :: rs))
    (hdone : r'.completed = true) : r'.talk rs.length = talkOf rs := by
  rw [Response.talk, if_pos hdone]
  cases rs with
  | nil => rfl
  | cons r'' rs =>
    obtain ⟨⟨method, rfl⟩, -⟩ := List.forall_mem_cons.mp h.2.2
    rfl

/-- A request is one response more to wait for. -/
theorem Waiting.talk_append {q : List Response} (h : Waiting q) (method : Bytes) :
    (talkOf q).heed .asked = some (talkOf (q ++ [.new method])) := by
  cases q with
  | nil => rfl
  | cons r rs =>
    have hopen : r.completed = false := h.2.1
    rw [List.cons_append, talkOf, talkOf, Response.talk, Response.talk, hopen,
      List.length_append, List.length_singleton]
    rfl

namespace Connection

/-- A turn of the loop of `pump`. -/
theorem pumpTurn_heeds {q q' : List Response} {es es' : List Event} {left left' : Bytes}
    (hturn : pumpTurn (q, es, left) = .ok (.next (q', es', left'))) (h : Waiting q) :
    Waiting q' ∧ ∃ more, es' = es ++ more ∧ (talkOf q).Heeds more (talkOf q') := by
  cases q with
  | nil =>
    rw [pumpTurn_nil] at hturn
    cases hturn
  | cons r rs =>
    by_cases hleft : left = []
    · rw [hleft, pumpTurn_used] at hturn
      cases hturn
    rw [pumpTurn_cons r rs es hleft] at hturn
    rcases Response.pump_cases h.1 hleft with ⟨e, e', hpump, -⟩ |
      ⟨r', more, used, handed, rest, hpump, -, -, hsane, -⟩
    · rw [hpump] at hturn
      cases hturn
    rw [hpump] at hturn
    cases hturn
    have hheeds : (r.talk rs.length).Heeds more (r'.talk rs.length) := Response.pump_heeds hpump
    dsimp only
    -- A response that completes leaves the queue, as the talk has it.
    cases hdone : r'.completed with
    | true =>
      rw [if_pos rfl]
      refine ⟨h.tail, more, rfl, ?_⟩
      rwa [h.talk_completed hdone] at hheeds
    | false =>
      rw [if_neg Bool.false_ne_true]
      exact ⟨h.front hsane hdone, more, rfl, hheeds⟩

theorem pumpTurn_stop {s s' : List Response × List Event × Bytes}
    (hturn : pumpTurn s = .ok (.stop s')) : s' = s := by
  obtain ⟨q, es, left⟩ := s
  cases q with
  | nil =>
    rw [pumpTurn_nil] at hturn
    cases hturn
    rfl
  | cons r rs =>
    by_cases hleft : left = []
    · rw [hleft, pumpTurn_used] at hturn
      cases hturn
      rw [hleft]
    · rw [pumpTurn_cons r rs es hleft] at hturn
      rcases hpump : r.pump left with e | ⟨r', more, used⟩ <;> rw [hpump] at hturn <;> cases hturn

/-- **A buffer.** -/
theorem pumpBuffer_heeds {q q' : List Response} {buf left : Bytes} {es : List Event}
    (hrun : pumpBuffer q buf = .ok (q', es, left)) (h : Waiting q) :
    (talkOf q).Heeds es (talkOf q') := by
  have hnext : ∀ s s', pumpTurn s = .ok (.next s') →
      Waiting s.1 ∧ (talkOf q).Heeds s.2.1 (talkOf s.1) →
      Waiting s'.1 ∧ (talkOf q).Heeds s'.2.1 (talkOf s'.1) := by
    rintro ⟨q₁, es₁, left₁⟩ ⟨q₂, es₂, left₂⟩ hturn ⟨hwaiting, hheeds⟩
    obtain ⟨hwaiting', more, rfl, hmore⟩ := pumpTurn_heeds hturn hwaiting
    exact ⟨hwaiting', hheeds.append hmore⟩
  have hstop : ∀ s s', pumpTurn s = .ok (.stop s') →
      Waiting s.1 ∧ (talkOf q).Heeds s.2.1 (talkOf s.1) →
      (talkOf q).Heeds s'.2.1 (talkOf s'.1) := fun _ _ hturn hs => pumpTurn_stop hturn ▸ hs.2
  exact loop_ensures hnext hstop hrun ⟨h, .nil _⟩

/-- A call, and what can be seen of it. -/
def noted (c : Connection) : ConnectionAct → Except Fault (Connection × List Note)
  | .putrequest method url =>
    .ok (c.putrequest method url, if c.m_State = .idle then [.asked] else [])
  | .pump recv => do
    let (c', events, _) ← c.pump recv
    let dropped := if c.m_Outstanding ≠ [] ∧ recv = none then [.dropped] else []
    return (c', events.map .told ++ dropped)
  | .close => .ok (c.close, [.dropped])
  | act => do
    let c' ← c.step act
    return (c', [])

/-- Nothing else is added to the call. -/
theorem noted_step (c : Connection) (act : ConnectionAct) :
    (c.noted act).map (·.1) = c.step act := by
  cases act with
  | pump recv =>
    rw [noted, step]
    rcases c.pump recv with e | ⟨c', events, asserted⟩ <;> rfl
  | _ => rfl

/-- The calls, with what has been seen of them. -/
def notedStep (s : Connection × List Note) (act : ConnectionAct) :
    Except Fault (Connection × List Note) := do
  let (c, notes) ← s.1.noted act
  return (c, s.2 ++ notes)

theorem pump_heeds {c c' : Connection} {recv : Option Bytes} {events : List Event}
    {asserted : Bool} (hpump : c.pump recv = .ok (c', events, asserted))
    (h : Waiting c.m_Outstanding) :
    (talkOf c.m_Outstanding).heedAll (events.map .told ++
      if c.m_Outstanding ≠ [] ∧ recv = none then [.dropped] else [])
      = some (talkOf c'.m_Outstanding) := by
  cases hq : c.m_Outstanding with
  | nil =>
    rw [pump_nil hq] at hpump
    cases hpump
    rw [hq]
    rfl
  | cons r rs =>
    rw [hq] at h
    cases recv with
    | none =>
      rw [pump_closed hq] at hpump
      cases hpump
      have hclosed : (talkOf (r :: rs)).Heeds r.notifyConnectionClosed.2 _ :=
        Response.notifyConnectionClosed_heeds
      rw [if_pos ⟨List.cons_ne_nil r rs, rfl⟩, Talk.heedAll_append, hclosed]
      rfl
    | some buf =>
      rw [pump_received hq] at hpump
      rcases hbuffer : pumpBuffer (r :: rs) buf with e | ⟨q, es, left⟩
      · rw [hbuffer] at hpump
        cases hpump
      · rw [hbuffer] at hpump
        cases hpump
        rw [if_neg (by simp), List.append_nil]
        exact pumpBuffer_heeds hbuffer h

/-- **A call** is a move of the machine. -/
theorem noted_heeds {c c' : Connection} {act : ConnectionAct} {notes : List Note}
    (hrun : c.noted act = .ok (c', notes)) (h : Waiting c.m_Outstanding) :
    (talkOf c.m_Outstanding).heedAll notes = some (talkOf c'.m_Outstanding) := by
  -- Only `pump` says something, and only a request asks.
  cases act with
  | pump recv =>
    obtain ⟨⟨c₁, events, asserted⟩, hpump, hrun⟩ := bind_eq_ok.mp hrun
    cases hrun
    exact pump_heeds hpump h
  | putrequest method url =>
    cases hrun
    -- A request that is made while another one is being written is refused.
    by_cases hidle : c.m_State = .idle
    · have hq : (c.putrequest method url).m_Outstanding = c.m_Outstanding ++ [.new method] := by
        rw [putrequest, if_neg (not_not_intro hidle)]
        dsimp only
        rw [putheader_outstanding, putheader_outstanding]
      rw [if_pos hidle, hq]
      exact (bind_pure _).trans (h.talk_append method)
    · rw [if_neg hidle, putrequest, if_pos hidle]
      rfl
  | putheader header value =>
    cases hrun
    rw [putheader_outstanding]
    rfl
  | endheaders connected =>
    cases hrun
    rw [endheaders_outstanding]
    rfl
  | send connected buf =>
    cases hrun
    rw [send_outstanding]
    rfl
  | connect host =>
    cases hrun
    rfl
  | close =>
    cases hrun
    rfl

/-- **The handler is told of the answers in their order**, whatever the calls and whatever the bytes
    received: each request is answered by a begin, then data, then an end, before the next one is
    begun, and nothing is told of a request that has been answered or discarded. -/
theorem callbacks_heed {acts : List ConnectionAct} {c : Connection} {notes : List Note}
    (hrun : run notedStep (new, []) acts = .ok (c, notes)) :
    Talk.heedAll { waiting := 0, begun := false } notes = some (talkOf c.m_Outstanding) := by
  have hstep : ∀ (s : Connection × List Note) act s', notedStep s act = .ok s' →
      Waiting s.1.m_Outstanding ∧
        Talk.heedAll { waiting := 0, begun := false } s.2 = some (talkOf s.1.m_Outstanding) →
      Waiting s'.1.m_Outstanding ∧
        Talk.heedAll { waiting := 0, begun := false } s'.2 = some (talkOf s'.1.m_Outstanding) := by
    rintro ⟨c₁, notes₁⟩ act s₂ hstep ⟨hwaiting, hheeds⟩
    obtain ⟨⟨c₂, more⟩, hnoted, hstep⟩ := bind_eq_ok.mp hstep
    cases hstep
    have hnext : c₁.step act = .ok c₂ := by
      rw [← noted_step, hnoted]
      rfl
    refine ⟨step_waiting hnext hwaiting, ?_⟩
    rw [Talk.heedAll_append, hheeds]
    exact noted_heeds hnoted hwaiting
  exact (invariant_run hstep hrun ⟨trivial, rfl⟩).2

/-- Two requests, with the answer to the first one and the beginning of the second one in a single
    buffer. -/
theorem callbacks_heed_two :
    let acts := [.putrequest (ascii "GET") (ascii "/a"), .endheaders true,
      .putrequest (ascii "GET") (ascii "/b"), .endheaders true, .pump (some (ascii
        "HTTP/1.1 200 OK\r\nContent-Length: 1\r\n\r\naHTTP/1.1 200 OK\r\n"))]
    ∃ c notes, run notedStep (new, []) acts = .ok (c, notes) ∧
      notes = [.asked, .asked, .told .responseBegin, .told (.responseData (ascii "a")),
        .told .responseComplete] ∧
      Talk.heedAll { waiting := 0, begun := false } notes = some (talkOf c.m_Outstanding) := by
  intro acts
  have hnotes : (run notedStep (new, []) acts).map (·.2) = .ok [.asked, .asked,
      .told .responseBegin, .told (.responseData (ascii "a")), .told .responseComplete] := by
    decide +kernel
  rcases hrun : run notedStep (new, []) acts with e | ⟨c, notes⟩
  · rw [hrun] at hnotes
    cases hnotes
  · rw [hrun] at hnotes
    exact ⟨c, notes, rfl, Except.ok.inj hnotes, callbacks_heed hrun⟩

end Connection

end Icl.Http
