import Icl.Protocol.HttpSegments
import Icl.Transition.Run

namespace Icl.Http

open Icl.Cxx Icl.Transition

/-!
# `http::Connection`

The model of the class `Connection` of `protocol/Http.cpp`, which sends requests and gives what
comes back to the responses outstanding, the first one first, and the two assertions of its `pump`.

`pump` is given what `RecvWithTimeout` does: it fails, when the peer has closed or nothing comes in
time, or it returns some bytes.  `request` calls `putrequest`, `putheader`, `endheaders` and `send`,
and then `pump` until nothing is outstanding, so that its runs are among those of `Connection.step`.
What is written to `std::cout` is left out.

* `Connection.pump` — with the outcome of the assertion that it comes to;
* `queueStep` — the responses outstanding, which get one byte;
* `Taken` — the byte is for one of them, and can be counted;
* `pumpBuffer_iff` — a buffer is used up if and only if all its bytes are taken;
* `assertionsHold_iff` — the runs in which the assertions hold.
-/

/-! ### The class -/

/-- `m_State`. -/
inductive ConnectionState where
  | idle | reqStarted
  deriving DecidableEq, Repr

/-- `Connection`.  `sent` is what `mClient` has been given to send. -/
structure Connection where
  m_State : ConnectionState
  mHost : Bytes
  m_Buffer : List Bytes
  m_Outstanding : List Response
  sent : List Bytes
  deriving DecidableEq, Repr

/-- `Response::notifyconnectionclosed`. -/
def Response.notifyConnectionClosed (r : Response) : Response × List Event :=
  if r.mState = .complete then (r, [])
  else if r.mState = .body ∧ r.m_Chunked = false ∧ r.m_Length = -1 then r.finish
  else (r, [])

namespace Connection

/-- The constructor. -/
def new : Connection :=
  { m_State := .idle, mHost := [], m_Buffer := [], m_Outstanding := [], sent := [] }

/-- `connect`. -/
def connect (host : Bytes) (c : Connection) : Connection := { c with mHost := host }

/-- `close`. -/
def close (c : Connection) : Connection := { c with m_Outstanding := [] }

/-- `putheader`. -/
def putheader (header value : Bytes) (c : Connection) : Connection :=
  if c.m_State ≠ .reqStarted then c
  else { c with m_Buffer := c.m_Buffer ++ [header ++ ascii ": " ++ value] }

/-- `putrequest`. -/
def putrequest (method url : Bytes) (c : Connection) : Connection :=
  if c.m_State ≠ .idle then c
  else
    let c := { c with
      m_State := .reqStarted
      m_Buffer := c.m_Buffer ++ [method ++ ascii " " ++ url ++ ascii " HTTP/1.1"] }
    let c := c.putheader (ascii "Host") (cStr c.mHost)
    let c := c.putheader (ascii "Accept-Encoding") (ascii "identity")
    { c with m_Outstanding := c.m_Outstanding ++ [.new method] }

/-- `send`, where `connected` is `mClient.IsConnected()`. -/
def send (connected : Bool) (buf : Bytes) (c : Connection) : Connection :=
  if connected then { c with sent := c.sent ++ [buf] } else c

/-- `endheaders`. -/
def endheaders (connected : Bool) (c : Connection) : Connection :=
  if c.m_State ≠ .reqStarted then c
  else
    let msg := (c.m_Buffer ++ [[]]).flatMap (· ++ ascii "\r\n")
    send connected msg { c with m_State := .idle, m_Buffer := [] }

/-! ### `pump` -/

/-- A turn of the loop of `pump`, on the responses outstanding, what the handler has got, and the
    bytes left. -/
def pumpTurn : List Response × List Event × Bytes →
    Except Fault (Turn (List Response × List Event × Bytes) (List Response × List Event × Bytes))
  | ([], events, left) => .ok (.stop ([], events, left))
  | (r :: rs, events, left) =>
    if left = [] then .ok (.stop (r :: rs, events, left))
    else do
      let (r, more, u) ← r.pump left
      return .next (if r.completed then rs else r :: rs, events ++ more, left.drop u)

/-- The loop of `pump`.  Each turn completes a response or uses all that is left. -/
def pumpBuffer (outstanding : List Response) (buf : Bytes) :
    Except Fault (List Response × List Event × Bytes) :=
  loop pumpTurn (outstanding.length + 2) (outstanding, [], buf)

/-- `pump`, with what `RecvWithTimeout` returns, if anything.  The last result is whether the
    assertion holds, if one is come to. -/
def pump (recv : Option Bytes) (c : Connection) : Except Fault (Connection × List Event × Bool) :=
  match c.m_Outstanding, recv with
  | [], _ => .ok (c, [], true)
  | r :: _, none =>
    let (r, events) := r.notifyConnectionClosed
    -- `assert( r->completed() )`
    .ok (c.close, events, r.completed)
  | r :: rs, some buf => do
    let (outstanding, events, left) ← pumpBuffer (r :: rs) buf
    -- `assert( used == size )`
    return ({ c with m_Outstanding := outstanding }, events, left.isEmpty)

end Connection

/-- A call of a function of the class. -/
inductive ConnectionAct where
  | connect (host : Bytes)
  | putrequest (method url : Bytes)
  | putheader (header value : Bytes)
  | endheaders (connected : Bool)
  | send (connected : Bool) (buf : Bytes)
  | pump (recv : Option Bytes)
  | close
  deriving DecidableEq, Repr

/-- The connection after a call. -/
def Connection.step (c : Connection) : ConnectionAct → Except Fault Connection
  | .connect host => .ok (c.connect host)
  | .putrequest method url => .ok (c.putrequest method url)
  | .putheader header value => .ok (c.putheader header value)
  | .endheaders connected => .ok (c.endheaders connected)
  | .send connected buf => .ok (c.send connected buf)
  | .pump recv => do
    let (c, _, _) ← c.pump recv
    return c
  | .close => .ok c.close

/-- **What should hold of a call**: `pump` gets to its end, and its assertion holds. -/
def AssertionsHold (c : Connection) : ConnectionAct → Prop
  | .pump recv => ∃ c' events, c.pump recv = .ok (c', events, true)
  | _ => True

instance (c : Connection) : ∀ act, Decidable (AssertionsHold c act)
  | .pump recv =>
    decidable_of_iff ((c.pump recv).map (·.2.2) = .ok true) <| by
      rw [AssertionsHold]
      rcases c.pump recv with e | ⟨c', events, asserted⟩
      · simp [Except.map]
      · simp [Except.map]
  | .connect _ | .putrequest _ _ | .putheader _ _ | .endheaders _ | .send _ _ | .close =>
    isTrue trivial

/-! ### One byte for the responses outstanding -/

namespace Response

/-- The response is over, for its body is empty; it will notice when the next byte comes. -/
def EndsHere (r : Response) : Prop := r.mState = .body ∧ r.m_Chunked = false ∧ r.m_Length = 0

/-- A body that is being read is not of a negative length; `-1` stands for an unknown one. -/
def Counts (r : Response) : Prop :=
  r.mState = .body → if r.m_Chunked then 0 ≤ r.m_ChunkLeft else -1 ≤ r.m_Length

/-- A new response has not begun its body. -/
theorem counts_new (method : Bytes) : (new method).Counts := by simp [Counts, new]

/-- What has been handed out so far does not matter to a byte. -/
theorem takeByte_handed (r : Response) (handed handed' : Handed) (c : UInt8) :
    (takeByte (r, handed) c).map (fun s => (s.1.1, s.2))
      = (takeByte (r, handed') c).map fun s => (s.1.1, s.2) := by
  rw [takeByte, takeByte]
  by_cases hline : r.readsLine = true
  · rw [if_pos hline, if_pos hline]
    rfl
  · rw [if_neg hline, if_neg hline]
    rcases r.processData [c] with e | ⟨r', events, used⟩ <;> rfl

/-- What a byte of the body may be counted as. -/
theorem bodyCount_byte {r : Response} (h : r.Sane) (hbody : r.mState = .body) :
    (0 ≤ r.bodyCount 1 ↔ r.Counts) ∧ (r.bodyCount 1 = 0 ↔ r.EndsHere) := by
  cases hchunked : r.m_Chunked with
  | true =>
    have hne := h.chunk hbody hchunked
    rw [bodyCount_chunked hchunked, Counts, EndsHere]
    simp only [hbody, hchunked, if_true, true_implies]
    exact ⟨by omega, ⟨fun hzero => by omega, fun hends => by simp at hends⟩⟩
  | false =>
    rw [Counts, EndsHere]
    simp only [hbody, hchunked, Bool.false_eq_true, if_false, true_implies, true_and]
    by_cases hunknown : r.m_Length = -1
    · rw [bodyCount_unknown hchunked hunknown]
      omega
    · have hleft := (h.known hbody hchunked hunknown).2
      rw [bodyCount_known hchunked hunknown]
      omega

/-- **A byte for a response** that is not complete: when it may be taken, and when it is left. -/
theorem takeByte_cases {r : Response} (h : r.Sane) (hdone : r.completed = false) (handed : Handed)
    (c : UInt8) : (Defined (takeByte (r, handed) c) ↔ r.Counts) ∧
      ∀ s taken, takeByte (r, handed) c = .ok (s, taken) → (taken = false ↔ r.EndsHere) := by
  by_cases hline : r.readsLine = true
  · have hstate : r.mState ≠ .body := by
      intro hbody
      simp [readsLine, hbody] at hline
    rw [takeByte, if_pos hline]
    refine ⟨⟨fun _ hbody => absurd hbody hstate, fun _ => defined_ok _⟩, fun s taken hs => ?_⟩
    cases hs
    exact ⟨fun htaken => absurd htaken.symm Bool.false_ne_true, fun hends =>
      absurd hends.1 hstate⟩
  · have hbody := body_of_not_readsLine hline hdone
    obtain ⟨hcounts, hends⟩ := bodyCount_byte h hbody
    have hle : r.bodyCount 1 ≤ 1 := by
      rw [bodyCount]
      split_ifs <;> omega
    -- A negative count is a length the vector refuses; any other takes one byte or none.
    by_cases hneg : r.bodyCount 1 < 0
    · have htake : takeByte (r, handed) c = .error (.outOfBounds 0 0) := by
        rw [takeByte, if_neg hline, processData_eq, List.length_singleton, Nat.cast_one,
          if_pos hneg]
        rfl
      rw [htake]
      refine ⟨⟨fun h => absurd h (not_defined_error _), fun hcount => ?_⟩, fun s taken hs => ?_⟩
      · exact absurd (hcounts.mpr hcount) (by omega)
      · cases hs
    · have htake : takeByte (r, handed) c = .ok (((r.advance (r.bodyCount 1)).1,
          handed.addAll (.responseData ([c].take (r.bodyCount 1).toNat)
            :: (r.advance (r.bodyCount 1)).2)), (r.bodyCount 1).toNat == 1) := by
        rw [takeByte, if_neg hline, processData_eq, List.length_singleton, Nat.cast_one,
          if_neg hneg]
        rfl
      rw [htake]
      refine ⟨⟨fun _ => hcounts.mp (by omega), fun _ => defined_ok _⟩, fun s taken hs => ?_⟩
      cases hs
      rw [← hends, beq_eq_false_iff_ne]
      omega

end Response

/-- The responses outstanding after a byte: one that ends without it leaves it to the next one. -/
def queueStep : List Response → UInt8 → Except Fault (List Response)
  | [], _ => .ok []
  | r :: rs, c => do
    let ((r, _), taken) ← Response.takeByte (r, .none) c
    if r.completed then if taken then return rs else queueStep rs c
    else return r :: rs

/-- **When a byte is taken**: the first response can count it, and one of them does not end without
    it. -/
structure Taken (q : List Response) (c : UInt8) : Prop where
  counts : ∀ r ∈ q.head?, r.Counts
  taker : ∃ r ∈ q, ¬ r.EndsHere

/-- The responses outstanding: the first one may have begun, the others have not. -/
def Waiting : List Response → Prop
  | [] => True
  | r :: rs => r.Sane ∧ r.completed = false ∧ ∀ r' ∈ rs, ∃ method, r' = .new method

/-- The others wait as before. -/
theorem Waiting.tail {r : Response} {rs : List Response} (h : Waiting (r :: rs)) : Waiting rs := by
  cases rs with
  | nil => trivial
  | cons r' rs =>
    obtain ⟨⟨method, rfl⟩, hrs⟩ := List.forall_mem_cons.mp h.2.2
    exact ⟨Response.sane_new method, rfl, hrs⟩

/-- The first response may go on as long as it is not complete. -/
theorem Waiting.front {r r' : Response} {rs : List Response} (h : Waiting (r :: rs))
    (hsane : r'.Sane) (hdone : r'.completed = false) : Waiting (r' :: rs) :=
  ⟨hsane, hdone, h.2.2⟩

/-- **A byte goes to the first response**, and to the next one if that response is complete without
    it. -/
theorem queueStep_cons {r : Response} {handed : Handed} {c : UInt8} {s : Response × Handed}
    {taken : Bool} (h : Response.takeByte (r, handed) c = .ok (s, taken)) (rs : List Response) :
    queueStep (r :: rs) c = if s.1.completed then if taken then .ok rs else queueStep rs c
      else .ok (s.1 :: rs) := by
  have hsame := Response.takeByte_handed r .none handed c
  rw [h] at hsame
  rw [queueStep]
  rcases htake : Response.takeByte (r, .none) c with e | ⟨⟨r', handed'⟩, taken'⟩
  · rw [htake] at hsame
    cases hsame
  · rw [htake] at hsame
    obtain ⟨rfl, rfl⟩ : r' = s.1 ∧ taken' = taken := by simpa [Except.map] using hsame
    rfl

/-- When a byte is taken, for a response and those behind it. -/
theorem taken_cons {r : Response} {rs : List Response} (h : Waiting (r :: rs)) (c : UInt8) :
    Taken (r :: rs) c ↔ r.Counts ∧ (r.EndsHere → Taken rs c) := by
  constructor
  · rintro ⟨hcounts, r', hr', hnot⟩
    refine ⟨hcounts r rfl, fun hends => ⟨fun r'' hr'' => ?_, ?_⟩⟩
    · -- The next response has not begun.
      obtain ⟨method, rfl⟩ := h.2.2 r'' (List.mem_of_mem_head? hr'')
      exact Response.counts_new method
    · rcases List.mem_cons.mp hr' with rfl | hr'
      · exact absurd hends hnot
      · exact ⟨r', hr', hnot⟩
  · rintro ⟨hcounts, hrest⟩
    refine ⟨fun r' hr' => Option.some.inj hr' ▸ hcounts, ?_⟩
    by_cases hends : r.EndsHere
    · obtain ⟨r', hr', hnot⟩ := (hrest hends).taker
      exact ⟨r', List.mem_cons_of_mem r hr', hnot⟩
    · exact ⟨r, List.mem_cons_self, hends⟩

/-- **Bytes for the first response**, and for the others what it leaves. -/
theorem along_queue_cons {r : Response} {rs : List Response} (h : Waiting (r :: rs))
    (handed : Handed) (buf : Bytes) : Along queueStep Taken (r :: rs) buf
      ↔ ∃ s rest, Response.takeBytes (r, handed) buf = .ok (s, rest) ∧
        (s.1.completed = true → Along queueStep Taken rs rest) := by
  induction buf generalizing r handed with
  | nil =>
    have hdone : r.completed = false := h.2.1
    exact ⟨fun _ => ⟨(r, handed), [], rfl, by simp [hdone]⟩, fun _ => trivial⟩
  | cons c buf ih =>
    have hsane := h.1
    have hdone := h.2.1
    obtain ⟨hdefined, htaken⟩ := Response.takeByte_cases hsane hdone handed c
    rw [Along, taken_cons h, Response.takeBytes_cons hdone]
    rcases htake : Response.takeByte (r, handed) c with e | ⟨s, taken⟩
    · -- The byte cannot be counted.
      have hnot : ¬ r.Counts := by
        rw [← hdefined, htake]
        exact not_defined_error e
      exact ⟨fun hall => absurd hall.1.1 hnot, fun ⟨_, _, hs, _⟩ => (nomatch hs)⟩
    have hcounts : r.Counts := by
      rw [← hdefined, htake]
      exact defined_ok _
    obtain ⟨hsane', hleft⟩ := Response.takeByte_sane (s := (r, handed)) hsane hdone htake
    rw [queueStep_cons htake, ok_bind]
    cases taken with
    | false =>
      -- The response has ended before the byte, which goes to the next one.
      have hends : r.EndsHere := (htaken s false htake).mp rfl
      have hdone' : s.1.completed = true := hleft rfl
      rw [if_pos hdone', if_neg Bool.false_ne_true, if_neg Bool.false_ne_true]
      constructor
      · rintro ⟨⟨-, hnext⟩, hrest⟩
        exact ⟨s, c :: buf, rfl, fun _ => ⟨hnext hends, hrest⟩⟩
      · rintro ⟨s', rest, hs', hrest⟩
        cases hs'
        obtain ⟨hnext, hrest⟩ := hrest hdone'
        exact ⟨⟨hcounts, fun _ => hnext⟩, hrest⟩
    | true =>
      have hends : ¬ r.EndsHere := fun hends => nomatch (htaken s true htake).mpr hends
      rw [if_pos rfl, if_pos rfl]
      cases hdone' : s.1.completed with
      | true =>
        rw [Response.takeBytes, feedItems_done (show Response.takenAll s = true from hdone')]
        constructor
        · exact fun hall => ⟨s, buf, rfl, fun _ => hall.2 rs rfl⟩
        · rintro ⟨s', rest, hs', hrest⟩
          cases hs'
          refine ⟨⟨hcounts, fun h => absurd h hends⟩, fun q' hq' => ?_⟩
          exact Except.ok.inj hq' ▸ hrest hdone'
      | false =>
        have hnext := ih (h.front hsane' hdone') s.2
        rw [if_neg Bool.false_ne_true]
        constructor
        · exact fun hall => hnext.mp (hall.2 _ rfl)
        · intro hall
          refine ⟨⟨hcounts, fun h => absurd h hends⟩, fun q' hq' => ?_⟩
          exact Except.ok.inj hq' ▸ hnext.mpr hall

/-! ### The loop of `pump` -/

namespace Response

/-- `pump` and the bytes: both fault, or they come to the same response and leave the same bytes. -/
theorem pump_cases {r : Response} (h : r.Sane) {buf : Bytes} (hbuf : buf ≠ []) :
    (∃ e e', r.pump buf = .error e ∧ takeBytes (r, .none) buf = .error e') ∨
    ∃ r' events used handed rest, r.pump buf = .ok (r', events, used) ∧
      takeBytes (r, .none) buf = .ok ((r', handed), rest) ∧ buf.drop used = rest ∧ r'.Sane ∧
      (r'.completed = false → rest = []) := by
  have hpump := pump_takeBytes h .none hbuf
  have hinv := feedsAs_takeByte
  have hsane : (r, Handed.none).1.Sane := h
  -- Both ways of reading the buffer fail together or come to the same response.
  rcases hrun : r.pump buf with e | ⟨r', events, used⟩ <;>
    rcases hbytes : takeBytes (r, .none) buf with e' | ⟨⟨r'', handed⟩, rest⟩ <;>
    rw [hrun, hbytes] at hpump
  · exact .inl ⟨e, e', rfl, rfl⟩
  · cases hpump
  · cases hpump
  · obtain ⟨⟨rfl, rfl⟩, rfl⟩ : (r' = r'' ∧ Handed.none.addAll events = handed) ∧
        used = buf.length - rest.length := by
      simpa [Except.map] using hpump
    obtain ⟨front, rfl⟩ := feedItems_suffix hbytes
    refine .inr ⟨r', events, _, _, rest, rfl, rfl, ?_, ?_, fun hopen => ?_⟩
    · rw [List.length_append, Nat.add_sub_cancel, List.drop_left]
    · exact feedItems_inv hinv.inv hsane hbytes
    · by_contra hrest
      have hdone' : takenAll (r', Handed.none.addAll events) = true :=
        done_of_feedItems hinv.inv hinv.leave hsane hbytes hrest
      exact absurd (hopen.symm.trans hdone') Bool.false_ne_true

end Response

namespace Connection

/-- Without responses nothing is taken. -/
theorem pumpTurn_nil (events : List Event) (left : Bytes) :
    pumpTurn ([], events, left) = .ok (.stop ([], events, left)) := rfl

/-- Without bytes neither. -/
theorem pumpTurn_used (r : Response) (rs : List Response) (events : List Event) :
    pumpTurn (r :: rs, events, []) = .ok (.stop (r :: rs, events, [])) := rfl

/-- **A turn of the loop** pumps the first response, which leaves the queue when it is complete. -/
theorem pumpTurn_cons (r : Response) (rs : List Response) (events : List Event) {left : Bytes}
    (hleft : left ≠ []) : pumpTurn (r :: rs, events, left) = (r.pump left).map fun s =>
      .next (if s.1.completed then rs else s.1 :: rs, events ++ s.2.1, left.drop s.2.2) := by
  rw [pumpTurn, if_neg hleft]
  rcases r.pump left with e | ⟨r', more, u⟩ <;> rfl

/-- **A buffer** is used up if and only if its bytes are all taken. -/
theorem loop_used_iff {q : List Response} (h : Waiting q) (events : List Event) (buf : Bytes)
    {fuel : Nat} (hfuel : q.length + 1 < fuel) :
    (∃ q' events', loop pumpTurn fuel (q, events, buf) = .ok (q', events', []))
      ↔ Along queueStep Taken q buf := by
  induction q generalizing events buf fuel with
  | nil =>
    obtain ⟨fuel, rfl⟩ := Nat.exists_eq_succ_of_ne_zero (by omega : fuel ≠ 0)
    rw [loop_stop (pumpTurn_nil events buf)]
    cases buf with
    | nil => exact ⟨fun _ => trivial, fun _ => ⟨[], events, rfl⟩⟩
    | cons c buf =>
      constructor
      · rintro ⟨q', events', hloop⟩
        cases hloop
      · intro hall
        obtain ⟨r, hr, -⟩ := hall.1.taker
        cases hr
  | cons r rs ih =>
    obtain ⟨fuel, rfl⟩ := Nat.exists_eq_succ_of_ne_zero (by omega : fuel ≠ 0)
    by_cases hbuf : buf = []
    · rw [hbuf, loop_stop (pumpTurn_used r rs events)]
      exact ⟨fun _ => trivial, fun _ => ⟨r :: rs, events, rfl⟩⟩
    have hturn := pumpTurn_cons r rs events hbuf
    rw [along_queue_cons h .none]
    rcases Response.pump_cases h.1 hbuf with ⟨e, e', hpump, hbytes⟩ |
      ⟨r', more, used, handed, rest, hpump, hbytes, hdrop, hsane, hall⟩
    · -- A length is negative: neither gets to its end.
      rw [hpump] at hturn
      have hloop : loop pumpTurn (fuel + 1) (r :: rs, events, buf) = .error e := by
        rw [loop, hturn]
        rfl
      rw [hloop, hbytes]
      constructor
      · rintro ⟨q', events', hq⟩
        cases hq
      · rintro ⟨s, rest', hs, -⟩
        cases hs
    · rw [hpump] at hturn
      have hloop := loop_next hturn fuel
      dsimp only at hloop
      rw [hdrop] at hloop
      rw [hloop, hbytes]
      cases hdone : r'.completed with
      | true =>
        rw [if_pos rfl, ih h.tail _ _ (by rw [List.length_cons] at hfuel; omega)]
        constructor
        · exact fun hrest => ⟨_, rest, rfl, fun _ => hrest⟩
        · rintro ⟨s, rest', hs, hrest⟩
          cases hs
          exact hrest hdone
      | false =>
        -- The response goes on, so that all the bytes have been used.
        obtain ⟨fuel, rfl⟩ := Nat.exists_eq_succ_of_ne_zero (by omega : fuel ≠ 0)
        rw [if_neg Bool.false_ne_true, hall hdone, loop_stop (pumpTurn_used r' rs _)]
        refine ⟨fun _ => ⟨_, [], rfl, fun hdone' => ?_⟩, fun _ => ⟨_, _, rfl⟩⟩
        rw [show r'.completed = true from hdone'] at hdone
        cases hdone

/-- **The buffer is used up** exactly when every byte of it finds a response to take it. -/
theorem pumpBuffer_iff {q : List Response} (h : Waiting q) (buf : Bytes) :
    (∃ q' events, pumpBuffer q buf = .ok (q', events, [])) ↔ Along queueStep Taken q buf :=
  loop_used_iff h [] buf (Nat.lt_succ_self _)

/-- The responses outstanding after a buffer. -/
theorem loop_waiting {fuel : Nat} {q q' : List Response} {events events' : List Event}
    {buf left : Bytes} (hloop : loop pumpTurn fuel (q, events, buf) = .ok (q', events', left))
    (h : Waiting q) : Waiting q' := by
  induction fuel generalizing q events buf with
  | zero => cases hloop
  | succ fuel ih =>
    cases q with
    | nil =>
      rw [loop_stop (pumpTurn_nil events buf)] at hloop
      cases hloop
      exact h
    | cons r rs =>
      by_cases hbuf : buf = []
      · rw [hbuf, loop_stop (pumpTurn_used r rs events)] at hloop
        cases hloop
        exact h
      have hturn := pumpTurn_cons r rs events hbuf
      rcases Response.pump_cases h.1 hbuf with ⟨e, e', hpump, -⟩ |
        ⟨r', more, used, handed, rest, hpump, -, -, hsane, -⟩
      · rw [hpump] at hturn
        rw [loop, hturn] at hloop
        cases hloop
      · rw [hpump] at hturn
        rw [loop_next hturn fuel] at hloop
        refine ih hloop ?_
        dsimp only
        -- A complete response leaves the queue, another one stays at its front.
        cases hdone : r'.completed with
        | true => exact h.tail
        | false => exact h.front hsane hdone

end Connection

/-! ### Runs -/

namespace Connection

variable {c : Connection} {r : Response} {rs : List Response}

/-- Without responses `pump` returns at once. -/
theorem pump_nil (hq : c.m_Outstanding = []) (recv : Option Bytes) :
    c.pump recv = .ok (c, [], true) := by
  unfold pump
  rw [hq]

/-- A connection closed by the other side is closed here, and the first response is told. -/
theorem pump_closed (hq : c.m_Outstanding = r :: rs) : c.pump none
    = .ok (c.close, r.notifyConnectionClosed.2, r.notifyConnectionClosed.1.completed) := by
  unfold pump
  rw [hq]

/-- What has been received goes to the responses. -/
theorem pump_received (hq : c.m_Outstanding = r :: rs) (buf : Bytes) :
    c.pump (some buf) = (pumpBuffer (r :: rs) buf).map fun s =>
      ({ c with m_Outstanding := s.1 }, s.2.1, s.2.2.isEmpty) := by
  unfold pump
  rw [hq]
  dsimp only
  rcases pumpBuffer (r :: rs) buf with e | ⟨q, events, left⟩ <;> rfl

/-- A header asks for no response. -/
theorem putheader_outstanding (header value : Bytes) (c : Connection) :
    (c.putheader header value).m_Outstanding = c.m_Outstanding := by
  rw [putheader]
  split_ifs <;> rfl

/-- Nor does sending. -/
theorem send_outstanding (connected : Bool) (buf : Bytes) (c : Connection) :
    (c.send connected buf).m_Outstanding = c.m_Outstanding := by
  rw [send]
  split_ifs <;> rfl

/-- Nor does the end of the headers. -/
theorem endheaders_outstanding (connected : Bool) (c : Connection) :
    (c.endheaders connected).m_Outstanding = c.m_Outstanding := by
  rw [endheaders]
  split_ifs
  · rfl
  · exact send_outstanding connected _ _

/-- A request asks for one response more, unless one is being written. -/
theorem putrequest_outstanding (method url : Bytes) (c : Connection) :
    (c.putrequest method url).m_Outstanding = c.m_Outstanding ∨
      (c.putrequest method url).m_Outstanding = c.m_Outstanding ++ [.new method] := by
  rw [putrequest]
  split_ifs
  · exact .inl rfl
  · right
    dsimp only
    rw [putheader_outstanding, putheader_outstanding]

end Connection

/-- One response more. -/
theorem Waiting.append {q : List Response} (h : Waiting q) (method : Bytes) :
    Waiting (q ++ [.new method]) := by
  cases q with
  | nil => exact ⟨Response.sane_new method, rfl, by simp⟩
  | cons r rs =>
    refine ⟨h.1, h.2.1, fun r' hr' => ?_⟩
    rcases List.mem_append.mp hr' with hr' | hr'
    · exact h.2.2 r' hr'
    · exact ⟨method, List.mem_singleton.mp hr'⟩

/-- **When the assertion of a call holds**: when receiving stops, the first response is one whose
    body goes on to the end of the connection; and the bytes received are all taken, by one response
    after the other. -/
def Assertable (c : Connection) : ConnectionAct → Prop
  | .pump none => ∀ r ∈ c.m_Outstanding.head?,
      r.mState = .body ∧ r.m_Chunked = false ∧ r.m_Length = -1
  | .pump (some buf) => c.m_Outstanding ≠ [] → Along queueStep Taken c.m_Outstanding buf
  | _ => True

/-- The response that is told that the connection has closed. -/
theorem notifyConnectionClosed_completed {r : Response} (hdone : r.completed = false) :
    r.notifyConnectionClosed.1.completed = true
      ↔ r.mState = .body ∧ r.m_Chunked = false ∧ r.m_Length = -1 := by
  have hstate : r.mState ≠ .complete := by simpa [Response.completed] using hdone
  rw [Response.notifyConnectionClosed, if_neg hstate]
  by_cases heof : r.mState = .body ∧ r.m_Chunked = false ∧ r.m_Length = -1
  · rw [if_pos heof]
    exact ⟨fun _ => heof, fun _ => rfl⟩
  · rw [if_neg heof]
    exact ⟨fun h => absurd (hdone.symm.trans h) Bool.false_ne_true, fun h => absurd h heof⟩

/-- **One call.** -/
theorem assertionsHold_call {c : Connection} (h : Waiting c.m_Outstanding) (act : ConnectionAct) :
    AssertionsHold c act ↔ Assertable c act := by
  cases act with
  | pump recv =>
    rw [AssertionsHold]
    cases hq : c.m_Outstanding with
    | nil =>
      -- `pump` returns at once.
      rw [Connection.pump_nil hq]
      refine ⟨fun _ => ?_, fun _ => ⟨c, [], rfl⟩⟩
      cases recv with
      | none => simp [Assertable, hq]
      | some buf => exact fun hne => absurd hq hne
    | cons r rs =>
      rw [hq] at h
      cases recv with
      | none =>
        rw [Connection.pump_closed hq, Assertable, hq, List.head?_cons]
        constructor
        · rintro ⟨c', events, hpump⟩ r' hr'
          cases hr'
          exact (notifyConnectionClosed_completed h.2.1).mp (congrArg (·.2.2) (Except.ok.inj hpump))
        · intro hclosed
          rw [(notifyConnectionClosed_completed h.2.1).mpr (hclosed r rfl)]
          exact ⟨_, _, rfl⟩
      | some buf =>
        have hne : c.m_Outstanding ≠ [] := by simp [hq]
        rw [Connection.pump_received hq, Assertable, hq, ← Connection.pumpBuffer_iff h]
        rcases Connection.pumpBuffer (r :: rs) buf with e | ⟨q, events, left⟩
        · exact ⟨fun ⟨_, _, hpump⟩ => (nomatch hpump),
            fun hall => (nomatch (hall (List.cons_ne_nil r rs)).choose_spec.choose_spec)⟩
        · constructor
          · rintro ⟨c', events', hpump⟩ -
            have hleft : left = [] := List.isEmpty_iff.mp (congrArg (·.2.2) (Except.ok.inj hpump))
            exact ⟨q, events, by rw [hleft]⟩
          · intro hall
            obtain ⟨q', events', hq'⟩ := hall (List.cons_ne_nil r rs)
            cases hq'
            exact ⟨_, _, rfl⟩
  | _ => exact Iff.rfl

/-- After `pump` the responses still wait. -/
theorem pump_waiting {c c' : Connection} {recv : Option Bytes} {events : List Event}
    {asserted : Bool} (hpump : c.pump recv = .ok (c', events, asserted))
    (h : Waiting c.m_Outstanding) : Waiting c'.m_Outstanding := by
  -- Nothing is waited for, the connection is closed, or bytes have come.
  cases hq : c.m_Outstanding with
  | nil =>
    rw [Connection.pump_nil hq] at hpump
    cases hpump
    exact h
  | cons r rs =>
    cases recv with
    | none =>
      rw [Connection.pump_closed hq] at hpump
      cases hpump
      trivial
    | some buf =>
      rw [Connection.pump_received hq] at hpump
      rcases hloop : Connection.pumpBuffer (r :: rs) buf with e | ⟨q, events', left⟩
      · rw [hloop] at hpump
        cases hpump
      · rw [hloop] at hpump
        cases hpump
        exact Connection.loop_waiting hloop (hq ▸ h)

/-- **A call** keeps the responses waiting. -/
theorem step_waiting {c c' : Connection} {act : ConnectionAct} (hstep : c.step act = .ok c')
    (h : Waiting c.m_Outstanding) : Waiting c'.m_Outstanding := by
  -- Only a request adds a response, a new one behind all the others.
  cases act with
  | pump recv =>
    obtain ⟨⟨c₁, events, asserted⟩, hpump, hstep⟩ := bind_eq_ok.mp hstep
    cases hstep
    exact pump_waiting hpump h
  | putrequest method url =>
    cases hstep
    rcases Connection.putrequest_outstanding method url c with hq | hq
    · rwa [hq]
    · rw [hq]
      exact h.append method
  | putheader header value =>
    cases hstep
    rwa [Connection.putheader_outstanding]
  | endheaders connected =>
    cases hstep
    rwa [Connection.endheaders_outstanding]
  | send connected buf =>
    cases hstep
    rwa [Connection.send_outstanding]
  | connect host =>
    cases hstep
    exact h
  | close =>
    cases hstep
    trivial

/-- **The assertions of `pump`** hold in the runs in which receiving stops only while the first
    response reads a body up to the end of the connection, and every byte received is taken; and in
    no others. -/
theorem assertionsHold_iff (acts : List ConnectionAct) :
    Along Connection.step AssertionsHold .new acts
      ↔ Along Connection.step Assertable .new acts := by
  have hnew : Waiting Connection.new.m_Outstanding := trivial
  have hstep : ∀ (c : Connection) act c', c.step act = .ok c' → Waiting c.m_Outstanding →
      Waiting c'.m_Outstanding := fun _ _ _ hstep => step_waiting hstep
  exact along_congr hstep (fun _ act h => assertionsHold_call h act) hnew acts

/-- A reply without a body, after which the server closes the connection; and bytes behind the end
    of a reply. -/
theorem assertions_fail :
    ¬ Along Connection.step AssertionsHold .new
      [.putrequest (ascii "HEAD") (ascii "/"), .endheaders true,
        .pump (some (ascii "HTTP/1.1 200 OK\r\n\r\n")), .pump none] ∧
    ¬ Along Connection.step AssertionsHold .new
      [.putrequest (ascii "GET") (ascii "/"), .endheaders true,
        .pump (some (ascii "HTTP/1.1 200 OK\r\nContent-Length: 1\r\n\r\nab"))] := by
  constructor
  · decide +kernel
  · decide +kernel

end Icl.Http
