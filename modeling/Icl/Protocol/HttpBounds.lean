import Icl.Protocol.HttpSegments
import Icl.Transition.Run

namespace Icl.Http

open Icl.Cxx Icl.Transition

/-!
# A response hands out no more than it has got

`pump` computes how many bytes of the body to hand out from numbers that the server has sent, which
may be negative.

* `pumpStep`, `byteStep` — a response that gets pieces, or bytes;
* `HandsOutReceived` — what should hold of a piece: every call of `ResponseData` is about bytes that
  are left of it;
* `NoNegative` — no chunk length is negative, nor is the length of a body when a byte of it comes;
* `Lawful` — the invariant, which a byte without a negative length keeps;
* `accumulate_bytes`, `processData_bytes` — a turn of `pump` is the bytes that it uses;
* `handsOutReceived_iff` — the pieces hand out received bytes if and only if no length of their
  stream is negative.
-/

namespace Response

/-! ### Pieces and bytes -/

/-- A piece, as `Connection::pump` passes it on: while there are bytes, and until the response is
    complete. -/
def pumpStep (r : Response) (piece : Bytes) : Except Fault Response :=
  if piece = [] ∨ r.completed then .ok r
  else do
    let (r, _, _) ← r.pump piece
    return r

/-- A byte. -/
def byteStep (r : Response) (c : UInt8) : Except Fault Response :=
  if r.completed then .ok r
  else do
    let ((r, _), _) ← takeByte (r, .none) c
    return r

/-- What should hold at the head of the loop of `pump`, with `left` still to be used: what is handed
    out next is there. -/
structure InBounds (piece : Bytes) (r : Response) (left : Bytes) : Prop where
  within : left <:+ piece
  count : r.mState = .body → left ≠ [] →
    0 ≤ r.bodyCount left.length ∧ r.bodyCount left.length ≤ left.length
  chunkLeft : r.mState = .body → r.m_Chunked = true → 0 ≤ r.m_ChunkLeft

/-- **What should hold of a piece**: `pump` hands out bytes that are left of it, turn by turn, and
    returns how many it has used. -/
def HandsOutReceived (r : Response) (piece : Bytes) : Prop :=
  piece ≠ [] → r.completed = false →
    (∀ r' events left, Reaches pumpTurn (r, [], piece) (r', events, left) →
      InBounds piece r' left) ∧
    ∃ r' events used, r.pump piece = .ok (r', events, used) ∧ used ≤ piece.length

/-- The byte does not end a line with a negative chunk length, nor does it belong to a body of a
    negative length; `-1` stands for an unknown one. -/
structure NoNegative (r : Response) (c : UInt8) : Prop where
  chunk : r.mState = .chunkLen → c = newline → 0 ≤ toInt (strtol true (cStr r.m_LineBuf))
  length : r.mState = .body → r.m_Chunked = false → -1 ≤ r.m_Length

/-! ### The bytes of a piece -/

/-- A complete response takes no byte. -/
theorem byteStep_completed {r : Response} (h : r.completed = true) (c : UInt8) :
    byteStep r c = .ok r := if_pos h

/-- A byte of a line ends it or is put behind it. -/
theorem byteStep_line {r : Response} (h : r.readsLine = true) (c : UInt8) :
    byteStep r c = .ok (if c = newline then r.endLine.1 else r.addChar c) := by
  rw [byteStep, if_neg (by simp [completed_of_readsLine h]), takeByte, if_pos h]
  split_ifs <;> rfl

/-- A byte of the body is handed out on its own. -/
theorem byteStep_body {r : Response} (h : r.mState = .body) (c : UInt8) :
    byteStep r c = (r.processData [c]).map (·.1) := by
  rw [byteStep, if_neg (by simp [completed, h]), takeByte, if_neg (by simp [readsLine, h])]
  rcases r.processData [c] with e | ⟨r', events, used⟩ <;> rfl

/-- What has been handed out so far has no part in what a byte does to the response. -/
theorem takeByte_byteStep {r : Response} (h : r.completed = false) (handed : Handed) (c : UInt8) :
    (takeByte (r, handed) c).map (·.1.1) = byteStep r c := by
  rw [byteStep, if_neg (by simp [h]), takeByte, takeByte]
  by_cases hline : r.readsLine = true
  · rw [if_pos hline, if_pos hline]
    rfl
  · rw [if_neg hline, if_neg hline]
    rcases r.processData [c] with e | ⟨r', events, used⟩ <;> rfl

/-- However many bytes come, it stays as it is. -/
theorem run_completed {r : Response} (h : r.completed = true) (data : Bytes) :
    run byteStep r data = .ok r := by
  induction data with
  | nil => rfl
  | cons c data ih => rw [run_cons, byteStep_completed h, ok_bind, ih]

/-- And none of them is negative. -/
theorem along_completed {r : Response} (h : r.completed = true) (data : Bytes) :
    Along byteStep NoNegative r data := by
  have hstate : r.mState = .complete := by simpa [completed] using h
  induction data with
  | nil => trivial
  | cons c data ih =>
    refine ⟨⟨by simp [hstate], by simp [hstate]⟩, fun r' hr' => ?_⟩
    rw [byteStep_completed h] at hr'
    exact Except.ok.inj hr' ▸ ih

/-- Bytes, one at a time. -/
theorem takeBytes_run {r : Response} (h : r.Sane) (handed : Handed) (data : Bytes) :
    (takeBytes (r, handed) data).map (·.1.1) = run byteStep r data := by
  induction data generalizing r handed with
  | nil => rfl
  | cons c data ih =>
    cases hdone : r.completed with
    | true =>
      rw [takeBytes, feedItems_done (show takenAll (r, handed) = true from hdone),
        run_completed hdone]
      rfl
    | false =>
      rw [takeBytes_cons hdone, run_cons, ← takeByte_byteStep hdone handed]
      rcases htake : takeByte (r, handed) c with e | ⟨⟨r', handed'⟩, taken⟩
      · rfl
      · obtain ⟨hsane, hleft⟩ := takeByte_sane (s := (r, handed)) h hdone htake
        cases taken with
        | true => exact ih hsane handed'
        | false => exact (run_completed (hleft rfl) data).symm

/-- **A piece** does to the response what its bytes do. -/
theorem pumpStep_eq_run {r : Response} (h : r.Sane) (piece : Bytes) :
    pumpStep r piece = run byteStep r piece := by
  rw [pumpStep]
  by_cases hstop : piece = [] ∨ r.completed = true
  · rw [if_pos hstop]
    rcases hstop with rfl | hdone
    · rfl
    · exact (run_completed hdone piece).symm
  · obtain ⟨hpiece, -⟩ := not_or.mp hstop
    rw [if_neg hstop, ← takeBytes_run h .none]
    have hpump := pump_takeBytes h .none hpiece
    -- Piece and bytes fail together or come to the same response.
    rcases hrun : r.pump piece with e | ⟨r', events, used⟩ <;>
      rcases hbytes : takeBytes (r, .none) piece with e' | ⟨⟨r'', handed⟩, rest⟩ <;>
      rw [hrun, hbytes] at hpump
    · exact congrArg Except.error (Except.error.inj hpump)
    · cases hpump
    · cases hpump
    · have hsame : r' = r'' := congrArg (·.1.1) (Except.ok.inj hpump)
      rw [hsame]
      rfl

/-! ### The invariant -/

/-- **The invariant**: besides what holds of every response, no chunk that is being read has a
    negative length. -/
structure Lawful (r : Response) : Prop where
  sane : r.Sane
  chunkLeft : r.mState = .body → r.m_Chunked = true → 0 ≤ r.m_ChunkLeft

/-- A new response is lawful. -/
theorem lawful_new (method : Bytes) : Lawful (.new method) := ⟨sane_new method, by simp [new]⟩

/-- No more bytes are handed out than there are. -/
theorem bodyCount_le (r : Response) (count : Int) : r.bodyCount count ≤ count := by
  rw [bodyCount]
  split_ifs <;> omega

/-- A count that is used again gives itself. -/
theorem bodyCount_bodyCount (r : Response) (count : Int) :
    r.bodyCount (r.bodyCount count) = r.bodyCount count := by
  rw [bodyCount]
  unfold bodyCount
  split_ifs <;> omega

/-- Where no length is negative, no count is. -/
theorem Lawful.bodyCount_nonneg {r : Response} (h : r.Lawful) (hbody : r.mState = .body)
    (hlength : r.m_Chunked = false → -1 ≤ r.m_Length) {count : Int} (hcount : 0 ≤ count) :
    0 ≤ r.bodyCount count := by
  cases hchunked : r.m_Chunked with
  | true =>
    rw [bodyCount_chunked hchunked]
    exact le_min hcount (h.chunkLeft hbody hchunked)
  | false =>
    by_cases hunknown : r.m_Length = -1
    · rw [bodyCount_unknown hchunked hunknown]
      exact hcount
    · have hleft := (h.sane.known hbody hchunked hunknown).2
      have hle := hlength hchunked
      rw [bodyCount_known hchunked hunknown]
      omega

/-- Where a count is not negative, the length of the body is not. -/
theorem Sane.length_of_bodyCount {r : Response} (h : r.Sane) (hbody : r.mState = .body)
    {count : Int} (hcount : 0 ≤ r.bodyCount count) (hchunked : r.m_Chunked = false) :
    -1 ≤ r.m_Length := by
  by_cases hunknown : r.m_Length = -1
  · omega
  · have hleft := (h.known hbody hchunked hunknown).2
    rw [bodyCount_known hchunked hunknown] at hcount
    omega

/-- Only a line with a chunk length begins a chunk. -/
theorem endLine_chunk {r : Response} (hline : r.readsLine = true)
    (hbody : r.endLine.1.mState = .body) (hchunked : r.endLine.1.m_Chunked = true) :
    r.mState = .chunkLen ∧ r.endLine.1.m_ChunkLeft = toInt (strtol true (cStr r.m_LineBuf)) := by
  have hbody : r.processLine.1.mState = .body := hbody
  have hchunked : r.processLine.1.m_Chunked = true := hchunked
  show _ ∧ r.processLine.1.m_ChunkLeft = _
  rw [processLine] at hbody hchunked ⊢
  cases hstate : r.mState with
  | chunkLen =>
    refine ⟨rfl, ?_⟩
    simp only [processChunkLenLine]
    split_ifs <;> rfl
  | statusLine =>
    rw [hstate] at hbody
    cases hbody
  | headers =>
    -- The body begins with its first chunk length, or there are no chunks.
    rw [hstate] at hbody hchunked
    dsimp only at hbody hchunked
    rw [processHeaderLine] at hbody hchunked
    obtain ⟨hflush, -⟩ := r.flushHeader_keeps
    by_cases hempty : r.m_LineBuf = []
    · rw [if_pos hempty] at hbody hchunked
      dsimp only at hbody hchunked
      by_cases hcontinue : r.flushHeader.m_Status = statusContinue
      · rw [if_pos hcontinue] at hbody
        cases hbody
      · rw [if_neg hcontinue] at hbody hchunked
        simp only [beginBody] at hbody hchunked
        rw [if_pos hchunked] at hbody
        cases hbody
    · rw [if_neg hempty] at hbody
      dsimp only at hbody
      by_cases hspace : (cStr r.m_LineBuf).head?.any isspace = true
      · rw [if_pos hspace] at hbody
        cases hstate.symm.trans hbody
      · rw [if_neg hspace] at hbody
        cases (hflush.trans hstate).symm.trans hbody
  | trailers =>
    rw [hstate] at hbody
    dsimp only at hbody
    rw [processTrailerLine] at hbody
    by_cases hempty : r.m_LineBuf = []
    · rw [if_pos hempty] at hbody
      cases hbody
    · rw [if_neg hempty] at hbody
      cases hstate.symm.trans hbody
  | chunkEnd =>
    rw [hstate] at hbody
    cases hbody
  | body | complete => simp [readsLine, hstate] at hline

/-- The end of a line, where no length is negative. -/
theorem Lawful.endLine {r : Response} (h : r.Lawful) (hline : r.readsLine = true)
    (hchunk : r.mState = .chunkLen → 0 ≤ toInt (strtol true (cStr r.m_LineBuf))) :
    r.endLine.1.Lawful := by
  refine ⟨endLine_sane h.sane, fun hbody hchunked => ?_⟩
  obtain ⟨hstate, hvalue⟩ := endLine_chunk hline hbody hchunked
  rw [hvalue]
  exact hchunk hstate

/-- A character keeps a response lawful. -/
theorem Lawful.addChar {r : Response} (h : r.Lawful) (c : UInt8) : (r.addChar c).Lawful := by
  refine ⟨addChar_sane h.sane c, ?_⟩
  rw [Response.addChar]
  split_ifs
  · exact h.chunkLeft
  · exact h.chunkLeft

/-- Some bytes of the body. -/
theorem Lawful.advance {r : Response} (h : r.Lawful) (hbody : r.mState = .body) {count : Int}
    (hcount : 1 ≤ count) (hn : 0 ≤ r.bodyCount count) :
    (r.advance (r.bodyCount count)).1.Lawful := by
  refine ⟨(advance_sane h.sane hbody hcount hn).1, ?_⟩
  cases hchunked : r.m_Chunked with
  | true =>
    have hle : r.bodyCount count ≤ r.m_ChunkLeft := by
      rw [bodyCount_chunked hchunked]
      exact min_le_right _ _
    rw [Response.advance, if_pos hchunked]
    exact fun _ _ => sub_nonneg.mpr hle
  | false =>
    rw [Response.advance, if_neg (by simp [hchunked])]
    split_ifs
    · simp [finish]
    · simp [hchunked]

/-- **A byte** without a negative length keeps the invariant. -/
theorem byteStep_lawful {r : Response} {c : UInt8} (hc : NoNegative r c) (h : r.Lawful) :
    ∃ r', byteStep r c = .ok r' ∧ r'.Lawful := by
  by_cases hdone : r.completed = true
  · exact ⟨r, byteStep_completed hdone c, h⟩
  by_cases hline : r.readsLine = true
  · refine ⟨_, byteStep_line hline c, ?_⟩
    by_cases hnl : c = newline
    · rw [if_pos hnl]
      exact h.endLine hline fun hstate => hc.chunk hstate hnl
    · rw [if_neg hnl]
      exact h.addChar c
  · have hbody := body_of_not_readsLine hline (by simpa using hdone)
    have hn := h.bodyCount_nonneg hbody (hc.length hbody) (Int.natCast_nonneg [c].length)
    refine ⟨_, ?_, h.advance hbody le_rfl hn⟩
    rw [byteStep_body hbody, processData_eq, if_neg (not_lt.mpr hn)]
    rfl

/-- **Bytes** without a negative length. -/
theorem run_lawful {r : Response} (h : r.Lawful) {data : Bytes}
    (halong : Along byteStep NoNegative r data) :
    ∃ r', run byteStep r data = .ok r' ∧ r'.Lawful := by
  obtain ⟨⟨r', hrun⟩, hthroughout⟩ :=
    throughout_along (fun _ _ hc hs => byteStep_lawful hc hs) halong h
  exact ⟨r', hrun, hthroughout.last hrun⟩

/-! ### Turns of `pump` -/

/-- **A line**, or the beginning of one: the bytes of it that are there.  If it begins no chunk of a
    negative length, they have none. -/
theorem accumulate_bytes {r : Response} (hline : r.readsLine = true) (hsane : r.Sane)
    (data : Bytes) : ∃ used, data = used ++ (r.accumulate data).2.2 ∧
      run byteStep r used = .ok (r.accumulate data).1 ∧
      (((r.accumulate data).1.mState = .body → (r.accumulate data).1.m_Chunked = true →
        0 ≤ (r.accumulate data).1.m_ChunkLeft) → Along byteStep NoNegative r used) := by
  have hstate : r.mState ≠ .body := by
    intro hbody
    simp [readsLine, hbody] at hline
  induction data generalizing r with
  | nil => exact ⟨[], rfl, rfl, fun _ => trivial⟩
  | cons c data ih =>
    rw [accumulate]
    -- A line feed ends the line, any other byte is put behind it.
    by_cases hc : c = newline
    · rw [if_pos hc]
      refine ⟨[c], rfl, ?_, fun hchunkLeft => ⟨⟨fun hlen _ => ?_, fun h => absurd h hstate⟩, ?_⟩⟩
      · rw [run_cons, byteStep_line hline, if_pos hc]
        rfl
      · by_cases hzero : toInt (strtol true (cStr r.m_LineBuf)) = 0
        · omega
        · -- A chunk begins, the length of which is the number.
          have hline' : r.processLine.1 = { r with
              m_ChunkLeft := toInt (strtol true (cStr r.m_LineBuf)), mState := .body } := by
            simp only [processLine, hlen, processChunkLenLine, if_neg hzero]
          have hbody : r.endLine.1.mState = .body := congrArg mState hline'
          have hchunked : r.endLine.1.m_Chunked = true :=
            (congrArg m_Chunked hline').trans (hsane.chunked (.inl hlen))
          rw [← (endLine_chunk hline hbody hchunked).2]
          exact hchunkLeft hbody hchunked
      · exact fun _ _ => trivial
    · rw [if_neg hc]
      have hstep := byteStep_line hline c
      rw [if_neg hc] at hstep
      have hline' : (r.addChar c).readsLine = true := by
        rw [readsLine, addChar_mState]
        exact hline
      obtain ⟨used, hused, hrun, halong⟩ :=
        ih hline' (addChar_sane hsane c) (by rwa [addChar_mState])
      refine ⟨c :: used, by rw [List.cons_append, ← hused], ?_, fun hchunkLeft => ?_⟩
      · rw [run_cons, hstep]
        exact hrun
      · refine ⟨⟨fun _ h => absurd h hc, fun h => absurd h hstate⟩, fun r' hr' => ?_⟩
        rw [hstep] at hr'
        exact Except.ok.inj hr' ▸ halong hchunkLeft

/-- The bytes of the body that are handed out at once have no negative length. -/
theorem along_body {r : Response} (h : r.Sane) (hbody : r.mState = .body) {data : Bytes}
    (hdata : (data.length : Int) ≤ r.bodyCount data.length) :
    Along byteStep NoNegative r data := by
  induction data generalizing r with
  | nil => trivial
  | cons c data ih =>
    have hlength : ((c :: data).length : Int) = data.length + 1 := by simp
    have hcount : 0 ≤ r.bodyCount (c :: data).length := by omega
    refine ⟨⟨by simp [hbody], fun _ => h.length_of_bodyCount hbody hcount⟩, ?_⟩
    intro r' hr'
    by_cases hmore : data = []
    · rw [hmore]
      trivial
    · have hpos := List.length_pos_iff.mpr hmore
      have htwo : 2 ≤ r.bodyCount (c :: data).length := by omega
      -- Two bytes or more are handed out as the first one and the others.
      obtain ⟨hone, -, hbody₁, hcount₁, -⟩ := bodyCount_succ h hbody htwo
      have hsane := (advance_sane h hbody le_rfl (by omega : 0 ≤ r.bodyCount 1)).1
      rw [hone] at hsane
      have hstep : byteStep r c = .ok (r.advance 1).1 := by
        rw [byteStep_body hbody, processData_eq, List.length_singleton, Nat.cast_one, hone,
          if_neg (by decide)]
        rfl
      rw [hstep] at hr'
      rw [← Except.ok.inj hr']
      have hlength' : ((c :: data).length : Int) - 1 = data.length := by omega
      rw [hlength'] at hcount₁
      exact ih hsane hbody₁ (by omega)

/-- **Some data of the body**: its bytes, unless it completes the response without any. -/
theorem processData_bytes {r r' : Response} (h : r.Sane) (hbody : r.mState = .body) {data : Bytes}
    (hdata : data ≠ []) {events : List Event} {used : Nat}
    (hrun : r.processData data = .ok (r', events, used)) :
    0 ≤ r.bodyCount data.length ∧ used = (r.bodyCount data.length).toNat ∧
      (used = 0 → r'.completed = true) ∧
      (used ≠ 0 → run byteStep r (data.take used) = .ok r' ∧
        Along byteStep NoNegative r (data.take used)) := by
  have hzero := (processData_sane h hbody hdata hrun).2
  have hle := r.bodyCount_le data.length
  have hself := r.bodyCount_bodyCount data.length
  rw [processData_eq] at hrun
  split_ifs at hrun with hneg
  cases hrun
  refine ⟨not_lt.mp hneg, rfl, hzero, fun hne => ?_⟩
  have hlength : ((data.take (r.bodyCount data.length).toNat).length : Int)
      = r.bodyCount data.length := by
    rw [List.length_take]
    omega
  have htake : data.take (r.bodyCount data.length).toNat ≠ [] := by
    intro hnil
    rw [hnil, List.length_nil] at hlength
    omega
  constructor
  · -- The same bytes on their own are used up in the same way.
    have hnone : (data.take (r.bodyCount data.length).toNat).drop (r.bodyCount data.length).toNat
        = [] := List.drop_of_length_le (by omega)
    rw [← takeBytes_run h .none, processData_takeBytes h hbody _ htake, processData_eq, hlength,
      hself, if_neg hneg, ok_bind]
    dsimp only
    rw [hnone]
    rfl
  · refine along_body h hbody ?_
    rw [hlength, hself]

/-- A turn of `pump` that goes on. -/
theorem pumpTurn_next {r : Response} {events : List Event} {left : Bytes}
    {st : Response × List Event × Bytes} (h : pumpTurn (r, events, left) = .ok (.next st)) :
    left ≠ [] ∧ r.completed = false ∧
      (r.readsLine = true ∧ st.1 = (r.accumulate left).1 ∧ st.2.2 = (r.accumulate left).2.2 ∨
        r.mState = .body ∧ ∃ more used, r.processData left = .ok (st.1, more, used) ∧
          st.2.2 = left.drop used) := by
  rw [pumpTurn] at h
  by_cases hstop : left = [] ∨ r.completed = true
  · rw [if_pos hstop] at h
    cases h
  obtain ⟨hleft, hdone⟩ := not_or.mp hstop
  have hdone : r.completed = false := by simpa using hdone
  rw [if_neg hstop] at h
  refine ⟨hleft, hdone, ?_⟩
  by_cases hline : r.readsLine = true
  · rw [if_pos hline] at h
    cases h
    exact .inl ⟨hline, rfl, rfl⟩
  · rw [if_neg hline] at h
    obtain ⟨⟨r', more, used⟩, hrun, h⟩ := bind_eq_ok.mp h
    cases h
    exact .inr ⟨body_of_not_readsLine hline hdone, more, used, hrun, rfl⟩

/-! ### From the bytes to the turns -/

/-- What is left at the head of the loop is the end of the piece, and no length in it is
    negative. -/
structure TurnInv (piece : Bytes) (st : Response × List Event × Bytes) : Prop where
  lawful : st.1.Lawful
  within : st.2.2 <:+ piece
  along : Along byteStep NoNegative st.1 st.2.2

/-- What is left when some bytes have been used. -/
theorem TurnInv.of_bytes {piece : Bytes} {r r' : Response} {events events' : List Event}
    {used left : Bytes} (h : TurnInv piece (r, events, used ++ left))
    (hrun : run byteStep r used = .ok r') : TurnInv piece (r', events', left) := by
  obtain ⟨hused, hleft⟩ := along_append.mp h.along
  obtain ⟨r'', hr'', hlawful⟩ := run_lawful h.lawful hused
  rw [hrun] at hr''
  cases hr''
  exact ⟨hlawful, (List.suffix_append used left).trans h.within, hleft r' hrun⟩

/-- **A turn** keeps the invariant. -/
theorem TurnInv.next {piece : Bytes} {st st' : Response × List Event × Bytes}
    (hturn : pumpTurn st = .ok (.next st')) (h : TurnInv piece st) : TurnInv piece st' := by
  obtain ⟨r, events, left⟩ := st
  obtain ⟨r', events', left'⟩ := st'
  -- A turn reads a line or hands out some of the body.
  obtain ⟨hleft, -, ⟨hline, hr', hleft'⟩ | ⟨hbody, more, used, hrun, hleft'⟩⟩ :=
    pumpTurn_next hturn
  · have hr' : r' = (r.accumulate left).1 := hr'
    have hleft' : left' = (r.accumulate left).2.2 := hleft'
    obtain ⟨used, hused, hbytes, -⟩ := accumulate_bytes hline h.lawful.sane left
    rw [← hr'] at hbytes
    rw [← hleft'] at hused
    exact (hused ▸ h : TurnInv piece (r, events, used ++ left')).of_bytes hbytes
  · have hleft' : left' = left.drop used := hleft'
    have hsplit : left = left.take used ++ left' := by rw [hleft', List.take_append_drop]
    obtain ⟨-, -, hzero, hsome⟩ := processData_bytes h.lawful.sane hbody hleft hrun
    by_cases hnone : used = 0
    · -- A body without bytes: the response is complete.
      have hdone := hzero hnone
      have hstate : r'.mState = .complete := by simpa [completed] using hdone
      refine ⟨⟨(processData_sane h.lawful.sane hbody hleft hrun).1, by simp [hstate]⟩, ?_, ?_⟩
      · exact (hleft' ▸ List.drop_suffix used left).trans h.within
      · exact along_completed hdone left'
    · exact (hsplit ▸ h : TurnInv piece (r, events, left.take used ++ left')).of_bytes
        (hsome hnone).1

/-- With the invariant a turn stays inside the piece. -/
theorem TurnInv.inBounds {piece : Bytes} {r : Response} {events : List Event} {left : Bytes}
    (h : TurnInv piece (r, events, left)) : InBounds piece r left where
  within := h.within
  count hbody hleft := by
    obtain ⟨c, cs, rfl⟩ := List.exists_cons_of_ne_nil hleft
    exact ⟨h.lawful.bodyCount_nonneg hbody (h.along.1.length hbody) (Int.natCast_nonneg _),
      r.bodyCount_le _⟩
  chunkLeft := h.lawful.chunkLeft

/-- Bytes without a negative length are handed out as they have been received. -/
theorem Lawful.handsOutReceived {r : Response} (h : r.Lawful) {piece : Bytes}
    (halong : Along byteStep NoNegative r piece) : HandsOutReceived r piece := by
  intro hpiece hdone
  have hstart : TurnInv piece (r, [], piece) := ⟨h, List.suffix_rfl, halong⟩
  constructor
  · intro r' events left hreach
    exact (hreach.invariant (fun _ _ => TurnInv.next) hstart).inBounds
  · obtain ⟨r', hrun, -⟩ := run_lawful h halong
    rw [← pumpStep_eq_run h.sane, pumpStep, if_neg (by simp [hpiece, hdone])] at hrun
    obtain ⟨⟨r'', events, used⟩, hpump, -⟩ := bind_eq_ok.mp hrun
    refine ⟨r'', events, used, hpump, ?_⟩
    rw [pump, if_neg hpiece] at hpump
    obtain ⟨st, -, hpump⟩ := bind_eq_ok.mp hpump
    cases hpump
    exact Nat.sub_le _ _

/-! ### From the turns to the bytes -/

/-- A body without bytes: the first of them completes the response. -/
theorem along_of_empty_body {r r' : Response} (h : r.Sane) (hbody : r.mState = .body)
    {data : Bytes} (hdata : data ≠ []) (hcount : 0 ≤ r.bodyCount data.length) {more : List Event}
    (hrun : r.processData data = .ok (r', more, 0)) : Along byteStep NoNegative r data := by
  have hused := (processData_bytes h hbody hdata hrun).2.1
  obtain ⟨c, cs, rfl⟩ := List.exists_cons_of_ne_nil hdata
  have hle : r.bodyCount (c :: cs).length ≤ 1 := by omega
  have hone := bodyCount_one (by simp) hle
  refine ⟨⟨by simp [hbody], fun _ => h.length_of_bodyCount hbody hcount⟩, fun r'' hr'' => ?_⟩
  refine along_completed ?_ cs
  rw [byteStep_body hbody] at hr''
  rcases hfirst : r.processData [c] with e | ⟨r₁, events, used⟩
  · rw [hfirst] at hr''
    cases hr''
  · rw [hfirst] at hr''
    cases hr''
    obtain ⟨-, hused₁, hzero, -⟩ := processData_bytes h hbody (List.cons_ne_nil c []) hfirst
    rw [List.length_singleton, Nat.cast_one, hone] at hused₁
    exact hzero (hused₁.trans hused.symm)

/-- If the turns from here on hand out what is there, no length of what is left is negative. -/
theorem along_of_turns {piece : Bytes} {r : Response} {events : List Event} {left : Bytes}
    (hsane : r.Sane) (hturns : ∀ r' events' left',
      Reaches pumpTurn (r, events, left) (r', events', left') → InBounds piece r' left') :
    Along byteStep NoNegative r left := by
  induction hm : pumpMeasure r left using Nat.strong_induction_on generalizing r events left with
  | h m ih =>
    cases hdone : r.completed with
    | true => exact along_completed hdone left
    | false =>
    by_cases hleft : left = []
    · rw [hleft]
      trivial
    have hstop : ¬ (left = [] ∨ r.completed = true) := by simp [hleft, hdone]
    have hpos := List.length_pos_iff.mpr hleft
    have hm : left.length + 1 = m := by simpa [pumpMeasure, hdone] using hm
    by_cases hline : r.readsLine = true
    · -- A line: its bytes, and then what is left.
      have hturn : pumpTurn (r, events, left) = .ok (.next
          ((r.accumulate left).1, events ++ (r.accumulate left).2.1, (r.accumulate left).2.2)) := by
        rw [pumpTurn, if_neg hstop, if_pos hline]
      obtain ⟨used, hused, hrun, halong⟩ := accumulate_bytes hline hsane left
      have hnext := hturns _ _ _ (.next hturn (.refl _))
      have hless := accumulate_length r left
      rw [hused]
      refine along_append.mpr ⟨halong hnext.chunkLeft, fun r' hr' => ?_⟩
      rw [hrun] at hr'
      cases hr'
      refine ih _ ?_ (accumulate_sane hsane left)
        (fun r' events' left' hreach => hturns _ _ _ (.next hturn hreach)) rfl
      rw [pumpMeasure]
      split_ifs <;> omega
    · -- The body: what is handed out, and then what is left.
      have hbody := body_of_not_readsLine hline hdone
      have hcount := ((hturns _ _ _ (.refl _)).count hbody hleft).1
      have hlength := hsane.length_of_bodyCount hbody hcount
      rcases hrun : r.processData left with e | ⟨r', more, used⟩
      · rw [processData_eq, if_neg (not_lt.mpr hcount)] at hrun
        cases hrun
      have hturn : pumpTurn (r, events, left) = .ok (.next
          (r', events ++ more, left.drop used)) := by
        rw [pumpTurn, if_neg hstop, if_neg hline, hrun]
        rfl
      obtain ⟨-, -, hzero, hsome⟩ := processData_bytes hsane hbody hleft hrun
      by_cases hnone : used = 0
      · exact along_of_empty_body hsane hbody hleft hcount (hnone ▸ hrun)
      · obtain ⟨hbytes, halong⟩ := hsome hnone
        rw [← List.take_append_drop used left]
        refine along_append.mpr ⟨halong, fun r'' hr'' => ?_⟩
        rw [hbytes] at hr''
        cases hr''
        refine ih _ ?_ (processData_sane hsane hbody hleft hrun).1
          (fun r'' events' left' hreach => hturns _ _ _ (.next hturn hreach)) rfl
        rw [pumpMeasure, List.length_drop]
        split_ifs <;> omega

/-! ### Streams -/

/-- **A piece is handed out as it was received** exactly when no byte of it meets a negative
    length. -/
theorem Lawful.handsOutReceived_piece {r : Response} (h : r.Lawful) (piece : Bytes) :
    HandsOutReceived r piece ↔ Along byteStep NoNegative r piece := by
  refine ⟨fun hhands => ?_, h.handsOutReceived⟩
  by_cases hpiece : piece = []
  · rw [hpiece]
    trivial
  · cases hdone : r.completed with
    | true => exact along_completed hdone piece
    | false => exact along_of_turns h.sane (hhands hpiece hdone).1

/-- The pieces of a stream are its bytes. -/
theorem along_flatten {r : Response} (h : r.Lawful) (pieces : List Bytes) :
    Along pumpStep (fun r piece => Along byteStep NoNegative r piece) r pieces
      ↔ Along byteStep NoNegative r pieces.flatten := by
  induction pieces generalizing r with
  | nil => rfl
  | cons piece pieces ih =>
    rw [Along, List.flatten_cons, along_append, pumpStep_eq_run h.sane]
    refine and_congr_right fun halong => forall₂_congr fun r' hr' => ih ?_
    obtain ⟨r'', hr'', hlawful⟩ := run_lawful h halong
    rw [hr'] at hr''
    exact Except.ok.inj hr'' ▸ hlawful

/-- **A response hands out what it has received**, however the stream of the server is cut, if and
    only if no chunk length of the stream is negative and no byte comes of a body of a negative
    length. -/
theorem handsOutReceived_iff (method : Bytes) (pieces : List Bytes) :
    Along pumpStep HandsOutReceived (.new method) pieces
      ↔ Along byteStep NoNegative (.new method) pieces.flatten := by
  rw [← along_flatten (lawful_new method)]
  refine along_iff_along (fun _ piece h => h.handsOutReceived_piece piece) ?_ (lawful_new method) _
  intro r piece r' h halong hr'
  obtain ⟨r'', hr'', hlawful⟩ := run_lawful h halong
  rw [pumpStep_eq_run h.sane, hr''] at hr'
  exact Except.ok.inj hr' ▸ hlawful

/-- A chunk length of `-5`. -/
theorem negative_chunk_handed_out :
    ¬ Along pumpStep HandsOutReceived (.new (ascii "GET"))
      [ascii "HTTP/1.1 200 OK\r\nTransfer-Encoding: chunked\r\n\r\n-5\r\nabc"] := by
  rintro ⟨h, -⟩
  obtain ⟨r, events, used, hpump, -⟩ := (h (by decide +kernel) (by decide)).2
  have hfault : ((new (ascii "GET")).pump
      (ascii "HTTP/1.1 200 OK\r\nTransfer-Encoding: chunked\r\n\r\n-5\r\nabc")).isOk = false := by
    decide +kernel
  rw [hpump] at hfault
  cases hfault

end Response

end Icl.Http
