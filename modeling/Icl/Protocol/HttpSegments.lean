import Icl.Protocol.Http
import Icl.Transition.Feed

namespace Icl.Http

open Icl.Cxx Icl.Transition

/-!
# A response that comes in segments

The segments in which the bytes of a server come should not matter to a `Response`.

* `Handed` — what the handler has got, whatever the pieces;
* `takeByte` — a response that takes one byte at a time;
* `Sane` — the invariant of the states that a response comes to;
* `processData_cons` — some data of the body is its first byte and then the others;
* `pump_takeBytes` — `pump` does on a segment what `takeByte` does on its bytes;
* `response_segments` — two ways to cut a stream lead to the same response.
-/

/-! ### What the handler gets -/

/-- The data that the handler has got, and how often it has been told of the begin and of the
    end. -/
structure Handed where
  data : Bytes
  begins : ℕ
  completes : ℕ
  deriving DecidableEq, Repr

namespace Handed

/-- Nothing yet. -/
def none : Handed := { data := [], begins := 0, completes := 0 }

/-- One call of the handler. -/
def add (h : Handed) : Event → Handed
  | .responseBegin => { h with begins := h.begins + 1 }
  | .responseData data => { h with data := h.data ++ data }
  | .responseComplete => { h with completes := h.completes + 1 }

/-- Some calls of the handler. -/
def addAll (h : Handed) (events : List Event) : Handed := events.foldl add h

@[simp] theorem addAll_nil (h : Handed) : h.addAll [] = h := rfl

/-- Events are added up one after the other. -/
theorem addAll_append (h : Handed) (es es' : List Event) :
    h.addAll (es ++ es') = (h.addAll es).addAll es' := List.foldl_append

/-- Data may be handed out in parts. -/
theorem addAll_data (h : Handed) (data data' : Bytes) (es : List Event) :
    (h.addAll [.responseData data]).addAll (.responseData data' :: es)
      = h.addAll (.responseData (data ++ data') :: es) := by
  simp [addAll, add, List.append_assoc]

end Handed

/-! ### One byte at a time -/

namespace Response

/-- A byte: the response, what the handler has got, and whether the byte has been used. -/
def takeByte (s : Response × Handed) (c : UInt8) : Except Fault ((Response × Handed) × Bool) :=
  if s.1.readsLine then
    let (r, events) := if c = newline then s.1.endLine else (s.1.addChar c, [])
    .ok ((r, s.2.addAll events), true)
  else do
    let (r, events, used) ← s.1.processData [c]
    return ((r, s.2.addAll events), used == 1)

/-- The response is complete. -/
def takenAll (s : Response × Handed) : Bool := s.1.completed

/-- Bytes, one at a time. -/
abbrev takeBytes : Response × Handed → Bytes → Except Fault ((Response × Handed) × Bytes) :=
  feedItems takenAll takeByte

/-- A byte that is not taken ends the run; a byte that is taken is followed by the next one. -/
theorem takeBytes_cons {r : Response} (hdone : r.completed = false) (h : Handed) (c : UInt8)
    (data : Bytes) : takeBytes (r, h) (c :: data) = takeByte (r, h) c >>= fun s =>
      if s.2 then takeBytes s.1 data else .ok (s.1, c :: data) :=
  have hdone' : takenAll (r, h) = false := hdone
  feedItems_cons hdone' c data

/-! ### The invariant -/

/-- **The invariant.**  No body is read before there is one, chunk states come with chunks, a chunk
    to be read is not empty, and a length that is known has been read from the headers and leaves
    something to be read, if not all. -/
structure Sane (r : Response) : Prop where
  unread : r.mState = .statusLine ∨ r.mState = .headers → r.m_BytesRead = 0
  chunked : r.mState = .chunkLen ∨ r.mState = .chunkEnd → r.m_Chunked = true
  chunk : r.mState = .body → r.m_Chunked = true → r.m_ChunkLeft ≠ 0
  length : r.mState = .body → r.m_Chunked = false → r.m_Length = r.beginLength false
  left : r.mState = .body → r.m_Chunked = false → r.m_Length ≠ -1 →
    r.m_BytesRead = 0 ∨ 0 ≤ r.m_BytesRead ∧ r.m_BytesRead < r.m_Length

/-- A new response is sane. -/
theorem sane_new (method : Bytes) : Sane (.new method) :=
  ⟨fun _ => rfl, by simp [new], by simp [new], by simp [new], by simp [new]⟩

/-- A response that waits for no body. -/
theorem Sane.of_state {r : Response} (hbody : r.mState ≠ .body)
    (hunread : r.mState = .statusLine ∨ r.mState = .headers → r.m_BytesRead = 0)
    (hchunked : r.mState = .chunkLen ∨ r.mState = .chunkEnd → r.m_Chunked = true) : r.Sane :=
  ⟨hunread, hchunked, fun h => absurd h hbody, fun h => absurd h hbody, fun h => absurd h hbody⟩

/-- `FlushHeader` touches the headers only. -/
theorem flushHeader_keeps (r : Response) :
    r.flushHeader.mState = r.mState ∧ r.flushHeader.m_BytesRead = r.m_BytesRead := by
  rw [flushHeader]
  split_ifs
  · exact ⟨rfl, rfl⟩
  · exact ⟨rfl, rfl⟩

/-- So is one that begins its body. -/
theorem beginBody_sane {r : Response} (h : r.m_BytesRead = 0) : r.beginBody.1.Sane := by
  rw [beginBody]
  dsimp only
  cases hchunked : r.getheader (ascii "transfer-encoding") == some (ascii "chunked") with
  | true => exact .of_state (by simp) (by simp) (by simp)
  | false => exact ⟨by simp, by simp, by simp, fun _ _ => rfl, fun _ _ _ => .inl h⟩

/-- A header line keeps it sane, the blank one included, which begins the body. -/
theorem processHeaderLine_sane {r : Response} (h : r.Sane) (hstate : r.mState = .headers)
    (line : Bytes) : (r.processHeaderLine line).1.Sane := by
  obtain ⟨hflush, hflush'⟩ := r.flushHeader_keeps
  have hunread : r.m_BytesRead = 0 := h.unread (.inr hstate)
  rw [processHeaderLine]
  by_cases hempty : line = []
  · rw [if_pos hempty]
    dsimp only
    split_ifs
    · exact .of_state (by simp) (fun _ => hflush'.trans hunread) (by simp)
    · exact beginBody_sane (hflush'.trans hunread)
  · rw [if_neg hempty]
    dsimp only
    split_ifs
    · exact .of_state (by simp [hstate]) (fun _ => hunread) (by simp [hstate])
    · exact .of_state (by simp [hflush, hstate]) (fun _ => hflush'.trans hunread)
        (by simp [hflush, hstate])

/-- A response that has read a line. -/
theorem endLine_sane {r : Response} (h : r.Sane) : r.endLine.1.Sane := by
  have hclear : ∀ {r : Response}, r.Sane → Sane { r with m_LineBuf := [] } := fun h =>
    ⟨h.unread, h.chunked, h.chunk, h.length, h.left⟩
  refine hclear (r := r.processLine.1) ?_
  rw [processLine]
  -- One case for each state in which a line may end.
  cases hstate : r.mState with
  | statusLine =>
    have hunread : r.m_BytesRead = 0 := h.unread (.inl hstate)
    exact .of_state (by simp [processStatusLine]) (fun _ => hunread) (by simp [processStatusLine])
  | headers => exact processHeaderLine_sane h hstate _
  | trailers =>
    dsimp only
    rw [processTrailerLine]
    split_ifs
    · exact .of_state (by simp [finish]) (by simp [finish]) (by simp [finish])
    · exact h
  | chunkLen =>
    have hchunked : r.m_Chunked = true := h.chunked (.inl hstate)
    simp only [processChunkLenLine]
    split_ifs with hzero
    · exact .of_state (by simp) (by simp) (by simp)
    · exact ⟨by simp, by simp, fun _ _ => hzero, by simp [hchunked], by simp [hchunked]⟩
  | chunkEnd => exact .of_state (by simp) (by simp) (fun _ => h.chunked (.inr hstate))
  | body | complete => exact h

/-- A character of a line keeps it sane. -/
theorem addChar_sane {r : Response} (h : r.Sane) (c : UInt8) : (r.addChar c).Sane := by
  rw [addChar]
  split_ifs
  · exact ⟨h.unread, h.chunked, h.chunk, h.length, h.left⟩
  · exact h

/-- It does not change the state. -/
theorem addChar_mState (r : Response) (c : UInt8) : (r.addChar c).mState = r.mState := by
  rw [addChar]
  split_ifs <;> rfl

/-- A response that reads a line is not complete. -/
theorem completed_of_readsLine {r : Response} (h : r.readsLine = true) : r.completed = false := by
  rw [readsLine] at h
  rw [completed]
  cases hstate : r.mState <;> rw [hstate] at h <;> first | rfl | cases h

/-- In a state without lines there is a body to be read. -/
theorem body_of_not_readsLine {r : Response} (hline : ¬ r.readsLine = true)
    (hdone : r.completed = false) : r.mState = .body := by
  rw [readsLine] at hline
  rw [completed] at hdone
  cases hstate : r.mState <;> simp [hstate] at hline hdone ⊢

/-! ### Lines -/

/-- **A line** is its characters. -/
theorem accumulate_takeBytes {r : Response} (hline : r.readsLine = true) (h : Handed)
    (data : Bytes) : takeBytes (r, h) data
      = takeBytes ((r.accumulate data).1, h.addAll (r.accumulate data).2.1)
          (r.accumulate data).2.2 := by
  induction data generalizing r with
  | nil => rfl
  | cons c data ih =>
    rw [takeBytes_cons (completed_of_readsLine hline), takeByte, if_pos hline, accumulate]
    by_cases hc : c = newline
    · rw [if_pos hc, if_pos hc]
      rfl
    · rw [if_neg hc, if_neg hc]
      have hline' : (r.addChar c).readsLine = true := by
        rw [readsLine, addChar_mState]
        exact hline
      exact ih hline'

/-- **Reading a line keeps a response sane**, whether it comes to its end or not. -/
theorem accumulate_sane {r : Response} (h : r.Sane) (data : Bytes) :
    (r.accumulate data).1.Sane := by
  induction data generalizing r with
  | nil => exact h
  | cons c data ih =>
    rw [accumulate]
    split_ifs
    · exact endLine_sane h
    · exact ih (addChar_sane h c)

/-- Each turn of it takes a byte at least. -/
theorem accumulate_length (r : Response) (data : Bytes) :
    (r.accumulate data).2.2.length ≤ data.length - 1 := by
  induction data generalizing r with
  | nil => exact le_rfl
  | cons c data ih =>
    rw [accumulate]
    split_ifs
    · exact le_rfl
    · exact (ih _).trans (Nat.sub_le _ _)

/-! ### The body -/

/-- A number that fits `int` is kept. -/
theorem toInt_of_lt {z : Int} (h : 0 ≤ z) (h' : z < 2 ^ 31) : toInt z = z :=
  Int.bmod_eq_of_le (by omega) (by omega)

/-- Sums may be brought into range at the end only. -/
theorem toInt_add (y z : Int) : toInt (toInt y + z) = toInt (y + z) := Int.bmod_add_bmod

/-- The length of a body fits `int`. -/
theorem beginLength_lt (r : Response) (m_Chunked : Bool) : r.beginLength m_Chunked < 2 ^ 31 := by
  have hatoi : ∀ s, atoi s < 2 ^ 31 := fun s => Int.bmod_lt (by decide)
  rw [beginLength]
  cases r.getheader (ascii "content-length") <;> dsimp only <;> split_ifs <;>
    first | exact hatoi _ | decide

/-- `n`, with so much data. -/
def bodyCount (r : Response) (count : Int) : Int :=
  if r.m_Chunked then min count r.m_ChunkLeft
  else if r.m_Length ≠ -1 then min count (r.m_Length - r.m_BytesRead)
  else count

/-- The response after `n` bytes of the body, and what it calls then. -/
def advance (n : Int) (r : Response) : Response × List Event :=
  if r.m_Chunked then
    ({ r with
        m_BytesRead := toInt (r.m_BytesRead + n)
        m_ChunkLeft := r.m_ChunkLeft - n
        mState := if r.m_ChunkLeft - n = 0 then .chunkEnd else r.mState }, [])
  else if r.m_Length ≠ -1 ∧ toInt (r.m_BytesRead + n) = r.m_Length then
    finish { r with m_BytesRead := toInt (r.m_BytesRead + n) }
  else ({ r with m_BytesRead := toInt (r.m_BytesRead + n) }, [])

/-- Both ways to read the body. -/
theorem processData_eq (data : Bytes) (r : Response) :
    r.processData data = if r.bodyCount data.length < 0 then .error (.outOfBounds 0 0)
      else .ok ((r.advance (r.bodyCount data.length)).1,
        .responseData (data.take (r.bodyCount data.length).toNat)
          :: (r.advance (r.bodyCount data.length)).2,
        (r.bodyCount data.length).toNat) := by
  rw [processData, bodyCount, advance]
  by_cases hchunked : r.m_Chunked = true
  · simp only [if_pos hchunked, processDataChunked]
  · simp only [if_neg hchunked, processDataNonChunked]
    split_ifs <;> rfl

section Body

variable {r : Response} {count : Int}

/-- In a chunk no more is taken than is left of it. -/
theorem bodyCount_chunked (h : r.m_Chunked = true) : r.bodyCount count = min count r.m_ChunkLeft :=
  if_pos h

/-- Without a length all there is is taken. -/
theorem bodyCount_unknown (h : r.m_Chunked = false) (hlength : r.m_Length = -1) :
    r.bodyCount count = count := by
  rw [bodyCount, h, if_neg Bool.false_ne_true, if_neg (not_not_intro hlength)]

/-- With a length no more is taken than is missing. -/
theorem bodyCount_known (h : r.m_Chunked = false) (hlength : r.m_Length ≠ -1) :
    r.bodyCount count = min count (r.m_Length - r.m_BytesRead) := by
  rw [bodyCount, h, if_neg Bool.false_ne_true, if_pos hlength]

/-- What is left of a length that is known. -/
theorem Sane.known (h : r.Sane) (hbody : r.mState = .body) (hchunked : r.m_Chunked = false)
    (hlength : r.m_Length ≠ -1) : r.m_Length < 2 ^ 31 ∧
      (r.m_BytesRead = 0 ∨ 0 ≤ r.m_BytesRead ∧ r.m_BytesRead < r.m_Length) := by
  refine ⟨?_, h.left hbody hchunked hlength⟩
  rw [h.length hbody hchunked]
  exact beginLength_lt r false

/-- At most one byte is used, whatever the data. -/
theorem bodyCount_one (hcount : 1 ≤ count) (hn : r.bodyCount count ≤ 1) :
    r.bodyCount 1 = r.bodyCount count := by
  rw [bodyCount] at hn ⊢
  rw [bodyCount]
  split_ifs at hn ⊢ <;> omega

/-- **The first of several bytes.** -/
theorem bodyCount_succ (h : r.Sane) (hbody : r.mState = .body) (hn : 2 ≤ r.bodyCount count) :
    r.bodyCount 1 = 1 ∧ (r.advance 1).2 = [] ∧ (r.advance 1).1.mState = .body ∧
      (r.advance 1).1.bodyCount (count - 1) = r.bodyCount count - 1 ∧
      (r.advance 1).1.advance (r.bodyCount count - 1) = r.advance (r.bodyCount count) := by
  have hread : ∀ n : Int, toInt (toInt (r.m_BytesRead + 1) + (n - 1)) = toInt (r.m_BytesRead + n) :=
    fun n => by rw [toInt_add]; congr 1; omega
  -- A chunk, a body of unknown length, or one of known length.
  cases hchunked : r.m_Chunked with
  | true =>
    rw [bodyCount_chunked hchunked] at hn ⊢
    have hadvance : r.advance 1 = ({ r with
        m_BytesRead := toInt (r.m_BytesRead + 1), m_ChunkLeft := r.m_ChunkLeft - 1 }, []) := by
      rw [advance, if_pos hchunked, if_neg (by omega)]
    rw [hadvance, bodyCount_chunked hchunked]
    refine ⟨by omega, rfl, hbody, ?_, ?_⟩
    · rw [bodyCount_chunked (by exact hchunked)]
      dsimp only
      omega
    · simp only [advance, hchunked, if_true, hread,
        show ∀ n : Int, r.m_ChunkLeft - 1 - (n - 1) = r.m_ChunkLeft - n by omega]
  | false =>
    by_cases hlength : r.m_Length = -1
    · have hadvance : ∀ n,
          r.advance n = ({ r with m_BytesRead := toInt (r.m_BytesRead + n) }, []) :=
        fun n => by simp [advance, hchunked, hlength]
      rw [hadvance, hadvance, bodyCount_unknown hchunked hlength,
        bodyCount_unknown hchunked hlength]
      refine ⟨rfl, rfl, hbody, bodyCount_unknown hchunked hlength, ?_⟩
      simp [advance, hchunked, hlength, hread]
    · -- What is left is known, and there are two bytes of it at least.
      obtain ⟨hlt, hleft⟩ := h.known hbody hchunked hlength
      rw [bodyCount_known hchunked hlength] at hn ⊢
      have hone : toInt (r.m_BytesRead + 1) = r.m_BytesRead + 1 :=
        toInt_of_lt (by omega) (by omega)
      have hadvance : r.advance 1 = ({ r with m_BytesRead := r.m_BytesRead + 1 }, []) := by
        rw [advance, if_neg (by simp [hchunked]), hone, if_neg (by omega)]
      rw [hadvance, bodyCount_known hchunked hlength]
      refine ⟨by omega, rfl, hbody, ?_, ?_⟩
      · rw [bodyCount_known (by exact hchunked) (by exact hlength)]
        dsimp only
        omega
      · simp only [advance, hchunked, Bool.false_eq_true, if_false,
          show ∀ n : Int, r.m_BytesRead + 1 + (n - 1) = r.m_BytesRead + n by omega]

/-- The response after some bytes of the body; it is complete when there were none to be read. -/
theorem advance_sane (h : r.Sane) (hbody : r.mState = .body) (hcount : 1 ≤ count)
    (hn : 0 ≤ r.bodyCount count) : (r.advance (r.bodyCount count)).1.Sane ∧
      (r.bodyCount count = 0 → (r.advance (r.bodyCount count)).1.completed = true) := by
  -- A chunk, a body of unknown length, or one of known length.
  cases hchunked : r.m_Chunked with
  | true =>
    have hne := h.chunk hbody hchunked
    rw [bodyCount_chunked hchunked] at hn ⊢
    rw [advance, if_pos hchunked]
    refine ⟨?_, fun hzero => by omega⟩
    split_ifs with hzero
    · exact .of_state (by simp) (by simp) (fun _ => hchunked)
    · exact ⟨by simp [hbody], by simp [hbody], fun _ _ => hzero, by simp [hchunked],
        by simp [hchunked]⟩
  | false =>
    rw [advance, if_neg (by simp [hchunked])]
    by_cases hlength : r.m_Length = -1
    · rw [if_neg (by simp [hlength]), bodyCount_unknown hchunked hlength]
      exact ⟨⟨by simp [hbody], by simp [hbody], by simp [hchunked], h.length,
        fun _ _ hne => absurd hlength hne⟩, fun hzero => by omega⟩
    · obtain ⟨hlt, hleft⟩ := h.known hbody hchunked hlength
      rw [bodyCount_known hchunked hlength] at hn ⊢
      have hread : toInt (r.m_BytesRead + min count (r.m_Length - r.m_BytesRead))
          = r.m_BytesRead + min count (r.m_Length - r.m_BytesRead) :=
        toInt_of_lt (by omega) (by omega)
      rw [hread]
      -- The body is complete with these bytes, or some are still missing.
      split_ifs with hall
      · exact ⟨.of_state (by simp [finish]) (by simp [finish]) (by simp [finish]), fun _ => rfl⟩
      · refine ⟨⟨by simp [hbody], by simp [hbody], by simp [hchunked], h.length, fun _ _ _ => ?_⟩,
          fun hzero => ?_⟩
        · dsimp only
          omega
        · exact absurd ⟨hlength, by omega⟩ hall

/-- **Some data of the body** is its first byte and then the others. -/
theorem processData_cons (h : r.Sane) (hbody : r.mState = .body) (c : UInt8) (cs : Bytes) :
    r.processData (c :: cs) = r.processData [c] ∨
      ∃ r₁ r' data es used, r.processData [c] = .ok (r₁, [.responseData [c]], 1) ∧
        r₁.Sane ∧ r₁.mState = .body ∧
        r₁.processData cs = .ok (r', .responseData data :: es, used) ∧
        r.processData (c :: cs) = .ok (r', .responseData (c :: data) :: es, used + 1) := by
  have hcount : (1 : Int) ≤ (c :: cs).length := by simp
  -- Either the piece gives one byte at most, or its first byte comes apart from the others.
  rcases lt_or_ge (r.bodyCount (c :: cs).length) 2 with hfew | hmore
  · left
    have hone : r.bodyCount ([c] : Bytes).length = r.bodyCount (c :: cs).length :=
      bodyCount_one hcount (by omega)
    rw [processData_eq, processData_eq, hone]
    have htake : (c :: cs).take (r.bodyCount (c :: cs).length).toNat
        = [c].take (r.bodyCount (c :: cs).length).toNat := by
      rcases (by omega : (r.bodyCount (c :: cs).length).toNat = 0 ∨
        (r.bodyCount (c :: cs).length).toNat = 1) with hzero | hone
      · rw [hzero, List.take_zero, List.take_zero]
      · rw [hone, List.take_succ_cons, List.take_succ_cons, List.take_zero, List.take_zero]
    rw [htake]
  · right
    obtain ⟨hone, hnone, hbody₁, hcount₁, hadvance⟩ := bodyCount_succ h hbody hmore
    have hsane := (advance_sane h hbody le_rfl (by omega : 0 ≤ r.bodyCount 1)).1
    rw [hone] at hsane
    have hlength : ((c :: cs).length : Int) - 1 = cs.length := by simp
    rw [hlength] at hcount₁
    have hused : (r.bodyCount (c :: cs).length).toNat
        = (r.bodyCount (c :: cs).length - 1).toNat + 1 := by omega
    refine ⟨(r.advance 1).1, (r.advance (r.bodyCount (c :: cs).length)).1,
      cs.take (r.bodyCount (c :: cs).length - 1).toNat,
      (r.advance (r.bodyCount (c :: cs).length)).2,
      (r.bodyCount (c :: cs).length - 1).toNat, ?_, hsane, hbody₁, ?_, ?_⟩
    · rw [processData_eq, List.length_singleton, Nat.cast_one, hone, hnone, if_neg (by decide)]
      rfl
    · rw [processData_eq, hcount₁, hadvance, if_neg (by omega)]
    · rw [processData_eq, if_neg (by omega), hused, List.take_succ_cons]

/-- What reading the body leads to. -/
theorem processData_sane (h : r.Sane) (hbody : r.mState = .body) {data : Bytes} (hdata : data ≠ [])
    {r' : Response} {events : List Event} {used : Nat}
    (hrun : r.processData data = .ok (r', events, used)) :
    r'.Sane ∧ (used = 0 → r'.completed = true) := by
  have hcount : (1 : Int) ≤ data.length := by
    have := List.length_pos_iff.mpr hdata
    omega
  rw [processData_eq] at hrun
  split_ifs at hrun with hneg
  cases hrun
  obtain ⟨hsane, hzero⟩ := advance_sane h hbody hcount (by omega)
  exact ⟨hsane, fun hused => hzero (by omega)⟩

/-- No more bytes are used than there are. -/
theorem processData_used {data : Bytes} {r' : Response} {events : List Event} {used : Nat}
    (hrun : r.processData data = .ok (r', events, used)) : used ≤ data.length := by
  have hle : r.bodyCount data.length ≤ data.length := by
    rw [bodyCount]
    split_ifs <;> omega
  rw [processData_eq] at hrun
  split_ifs at hrun
  cases hrun
  omega

/-- **The body**, byte by byte. -/
theorem processData_takeBytes (h : r.Sane) (hbody : r.mState = .body) (handed : Handed)
    {data : Bytes} (hdata : data ≠ []) : takeBytes (r, handed) data
      = r.processData data >>= fun s =>
        takeBytes (s.1, handed.addAll s.2.1) (data.drop s.2.2) := by
  induction data generalizing r handed with
  | nil => exact absurd rfl hdata
  | cons c cs ih =>
    have hdone : r.completed = false := by simp [completed, hbody]
    have hline : ¬ r.readsLine = true := by simp [readsLine, hbody]
    rw [takeBytes_cons hdone, takeByte, if_neg hline]
    -- The rest of the piece is the same question for one byte less.
    rcases processData_cons h hbody c cs with hone | ⟨r₁, r', data, es, used, hone, hsane, hbody₁,
      hothers, hall⟩
    · rw [hone]
      rcases hrun : r.processData [c] with e | ⟨r', events, used⟩
      · rfl
      have hused : used ≤ 1 := processData_used hrun
      rcases (by omega : used = 1 ∨ used = 0) with rfl | rfl
      · rfl
      · have hcomplete : takenAll (r', handed.addAll events) = true :=
          (processData_sane h hbody (by simp) hrun).2 rfl
        exact (feedItems_done hcomplete _).symm
    · rw [hone, hall]
      by_cases hcs : cs = []
      · subst hcs
        rw [hone] at hall
        cases hall
        rfl
      · have hrest := ih hsane hbody₁ (handed.addAll [.responseData [c]]) hcs
        rw [hothers] at hrest
        simp only [ok_bind, Handed.addAll_data] at hrest ⊢
        exact hrest

end Body

/-! ### `pump` -/

/-- The response, what the handler has got, and the data left. -/
def sumUp (handed : Handed) (s : Response × List Event × Bytes) : (Response × Handed) × Bytes :=
  ((s.1, handed.addAll s.2.1), s.2.2)

/-- What is left to be done: to use the data, or to complete the response. -/
def pumpMeasure (r : Response) (data : Bytes) : ℕ := data.length + if r.completed then 0 else 1

/-- **The loop of `pump` is the machine that takes one byte at a time**: what it hands over on a
    piece is what the bytes hand over one by one. -/
theorem loop_takeBytes {fuel : ℕ} {r : Response} (h : r.Sane) (handed : Handed)
    (events : List Event) (data : Bytes) (hfuel : pumpMeasure r data < fuel) :
    (loop pumpTurn fuel (r, events, data)).map (sumUp handed)
      = takeBytes (r, handed.addAll events) data := by
  induction fuel generalizing r events data with
  | zero => exact absurd hfuel (Nat.not_lt_zero _)
  | succ fuel ih =>
    rw [loop, pumpTurn]
    by_cases hstop : data = [] ∨ r.completed = true
    · rw [if_pos hstop]
      rcases hstop with rfl | hdone
      · rfl
      · exact (feedItems_done (show takenAll (r, handed.addAll events) = true from hdone) data).symm
    obtain ⟨hdata, hdone⟩ := not_or.mp hstop
    have hlength := List.length_pos_iff.mpr hdata
    rw [if_neg hstop]
    rw [pumpMeasure, if_neg hdone] at hfuel
    -- A turn reads a line or the body; in both it takes bytes off the measure.
    by_cases hline : r.readsLine = true
    · rw [if_pos hline, accumulate_takeBytes hline]
      have hrest := accumulate_length r data
      have hnext := ih (accumulate_sane h data) (events ++ (r.accumulate data).2.1)
        (r.accumulate data).2.2 (by rw [pumpMeasure]; split_ifs <;> omega)
      rw [Handed.addAll_append] at hnext
      exact hnext
    · have hbody := body_of_not_readsLine hline (by simpa using hdone)
      rw [if_neg hline, processData_takeBytes h hbody _ hdata]
      rcases hrun : r.processData data with e | ⟨r', more, used⟩
      · rfl
      · obtain ⟨hsane, hzero⟩ := processData_sane h hbody hdata hrun
        have hnext := ih hsane (events ++ more) (data.drop used) (by
          rw [pumpMeasure, List.length_drop]
          rcases Nat.eq_zero_or_pos used with hused | hused
          · rw [if_pos (hzero hused)]
            omega
          · split_ifs <;> omega)
        rw [Handed.addAll_append] at hnext
        exact hnext

/-- **`pump`** does what `takeByte` does on the bytes. -/
theorem pump_takeBytes {r : Response} (h : r.Sane) (handed : Handed) {data : Bytes}
    (hdata : data ≠ []) : (r.pump data).map (fun s => ((s.1, handed.addAll s.2.1), s.2.2))
      = (takeBytes (r, handed) data).map fun s => (s.1, data.length - s.2.length) := by
  have hfuel : pumpMeasure r data < data.length + 2 := by
    rw [pumpMeasure]
    split_ifs <;> omega
  have hloop := loop_takeBytes h handed [] data hfuel
  rw [Handed.addAll_nil] at hloop
  rw [pump, if_neg hdata, ← hloop]
  rcases loop pumpTurn (data.length + 2) (r, [], data) with e | ⟨r', events, rest⟩ <;> rfl

/-! ### Segments -/

/-- `pump`, with what it has called so far. -/
def pumpPiece (s : Response × List Event) (piece : Bytes) :
    Except Fault ((Response × List Event) × ℕ) := do
  let (r, events, used) ← s.1.pump piece
  return ((r, s.2 ++ events), used)

/-- The pieces are fed in turn to `pump`, until it completes: the response, what it has called, and
    how many bytes it has used. -/
def feedPieces (method : Bytes) (pieces : List Bytes) :
    Except Fault ((Response × List Event) × ℕ) :=
  feed (fun s => s.1.completed) pumpPiece (.new method, []) pieces

/-- What is seen of it: the response, and what the handler has got. -/
def seen (s : Response × List Event) : Response × Handed := (s.1, Handed.none.addAll s.2)

/-- **Each byte keeps a response sane**, and only a complete one refuses it. -/
theorem takeByte_sane {s s' : Response × Handed} {c : UInt8} {taken : Bool} (h : s.1.Sane)
    (hdone : takenAll s = false) (hrun : takeByte s c = .ok (s', taken)) :
    s'.1.Sane ∧ (taken = false → takenAll s' = true) := by
  rw [takeByte] at hrun
  -- A byte of a line is always taken; a byte of the body may find it complete.
  by_cases hline : s.1.readsLine = true
  · rw [if_pos hline] at hrun
    by_cases hc : c = newline
    · rw [if_pos hc] at hrun
      cases hrun
      exact ⟨endLine_sane h, nofun⟩
    · rw [if_neg hc] at hrun
      cases hrun
      exact ⟨addChar_sane h c, nofun⟩
  · rw [if_neg hline] at hrun
    obtain ⟨⟨r', events, used⟩, hdata, hrun⟩ := bind_eq_ok.mp hrun
    cases hrun
    have hbody := body_of_not_readsLine hline hdone
    obtain ⟨hsane, hzero⟩ := processData_sane h hbody (List.cons_ne_nil c []) hdata
    refine ⟨hsane, fun htaken => hzero ?_⟩
    have hused : used ≤ 1 := processData_used hdata
    have hne : used ≠ 1 := by simpa using htaken
    omega

/-- So feeding pieces is feeding bytes. -/
theorem feedsAs_takeByte : FeedsAs (fun s => s.1.completed) pumpPiece takenAll takeByte seen
    (fun s => s.1.Sane) where
  done_eq _ := rfl
  inv _ _ _ _ h hdone hrun := (takeByte_sane h hdone hrun).1
  leave _ _ _ h hdone hrun := (takeByte_sane h hdone hrun).2 rfl
  pump_eq s piece h hpiece := by
    have hsane : s.1.Sane := h
    refine Eq.trans ?_ (pump_takeBytes hsane (Handed.none.addAll s.2) hpiece)
    rw [pumpPiece]
    rcases s.1.pump piece with e | ⟨r, events, used⟩
    · rfl
    · simp [Except.map, seen, Handed.addAll_append]

/-! ### Lengths -/

/-- The length of the body, or of a chunk, is not negative where it is to be read. -/
def LengthNonnegative (r : Response) : Prop :=
  r.mState = .body →
    if r.m_Chunked then 0 ≤ r.m_ChunkLeft
    else ∀ contentlen, r.getheader (ascii "content-length") = some contentlen → 0 ≤ atoi contentlen

instance (r : Response) : Decidable r.LengthNonnegative :=
  inferInstanceAs (Decidable (r.mState = .body → if r.m_Chunked then 0 ≤ r.m_ChunkLeft
    else ∀ contentlen ∈ r.getheader (ascii "content-length"), 0 ≤ atoi contentlen))

/-- Every Content-Length value and every chunk length that is read is not negative, in whatever
    state the response comes to. -/
def LengthsNonnegative (method stream : Bytes) : Prop :=
  ∀ before, before <+: stream → ∀ r events used,
    (Response.new method).pump before = .ok (r, events, used) → r.LengthNonnegative

/-- A length that is not negative in the header is not negative in the response. -/
theorem beginLength_nonneg {r : Response}
    (h : ∀ contentlen, r.getheader (ascii "content-length") = some contentlen → 0 ≤ atoi contentlen)
    (hlength : r.beginLength false ≠ -1) : 0 ≤ r.beginLength false := by
  rw [beginLength] at hlength ⊢
  cases hheader : r.getheader (ascii "content-length") with
  | none =>
    rw [hheader] at hlength
    dsimp only at hlength ⊢
    split_ifs at hlength ⊢
    · exact le_rfl
    · exact absurd rfl hlength
  | some contentlen =>
    simp only [Bool.false_eq_true, if_false]
    split_ifs
    · exact le_rfl
    · exact h contentlen hheader

/-- **With lengths that are not negative** no turn takes a negative number of bytes. -/
theorem bodyCount_nonneg {r : Response} (h : r.Sane) (hbody : r.mState = .body)
    (hlength : r.LengthNonnegative) {count : Int} (hcount : 0 ≤ count) : 0 ≤ r.bodyCount count := by
  have hread := hlength hbody
  cases hchunked : r.m_Chunked with
  | true =>
    rw [hchunked, if_pos rfl] at hread
    rw [bodyCount_chunked hchunked]
    exact le_min hcount hread
  | false =>
    rw [hchunked, if_neg Bool.false_ne_true] at hread
    by_cases hunknown : r.m_Length = -1
    · rw [bodyCount_unknown hchunked hunknown]
      exact hcount
    · have hbegin := h.length hbody hchunked
      have hnonneg : 0 ≤ r.m_Length := by
        rw [hbegin] at hunknown ⊢
        exact beginLength_nonneg hread hunknown
      have hleft := (h.known hbody hchunked hunknown).2
      rw [bodyCount_known hchunked hunknown]
      omega

/-- A byte is taken where the length is not negative. -/
theorem takeByte_defined {s : Response × Handed} (h : s.1.Sane) (hdone : takenAll s = false)
    (hlength : s.1.LengthNonnegative) (c : UInt8) : Defined (takeByte s c) := by
  rw [takeByte]
  by_cases hline : s.1.readsLine = true
  · rw [if_pos hline]
    exact defined_ok _
  · have hbody := body_of_not_readsLine hline hdone
    have hcount := bodyCount_nonneg h hbody hlength (Int.natCast_nonneg [c].length)
    rw [if_neg hline, processData_eq, if_neg (by omega)]
    exact defined_ok _

/-- The lengths are not negative in the states that `takeByte` comes to. -/
theorem LengthsNonnegative.of_takeBytes {method stream before : Bytes}
    (h : LengthsNonnegative method stream) (hbefore : before <+: stream) {s : Response × Handed}
    {rest : Bytes} (hrun : takeBytes (new method, Handed.none) before = .ok (s, rest)) :
    s.1.LengthNonnegative := by
  by_cases hempty : before = []
  · subst hempty
    cases hrun
    nofun
  · have hpump := pump_takeBytes (sane_new method) Handed.none hempty
    rw [hrun] at hpump
    rcases hresponse : (new method).pump before with e | ⟨r, events, used⟩
    · rw [hresponse] at hpump
      cases hpump
    · rw [hresponse] at hpump
      obtain ⟨rfl, -⟩ : (r, Handed.none.addAll events) = s ∧
          used = before.length - rest.length := by
        simpa [Except.map] using hpump
      exact h before hbefore r events used hresponse

/-- **Segments do not matter**: not for the response, not for what the handler gets, and not for the
    number of bytes used; and the response is there when no length is negative. -/
theorem response_segments (method : Bytes) (pieces pieces' : List Bytes)
    (hpieces : ∀ piece ∈ pieces, piece ≠ []) (hpieces' : ∀ piece ∈ pieces', piece ≠ [])
    (hcut : pieces.flatten = pieces'.flatten) :
    (feedPieces method pieces).map (fun s => (seen s.1, s.2))
      = (feedPieces method pieces').map (fun s => (seen s.1, s.2)) ∧
      (LengthsNonnegative method pieces.flatten → Defined (feedPieces method pieces)) := by
  have hsane : (seen (new method, [])).1.Sane := sane_new method
  refine ⟨feedsAs_takeByte.feed_cut hsane hpieces hpieces' hcut, fun hlengths => ?_⟩
  refine feedsAs_takeByte.feed_defined hsane hpieces (feedItems_defined ?_)
  intro before c after s hstream hbefore hdone
  refine takeByte_defined ?_ hdone ?_ c
  · exact feedItems_inv feedsAs_takeByte.inv hsane hbefore
  · exact hlengths.of_takeBytes ⟨c :: after, hstream⟩ hbefore

/-- It is enough to look at the response after each beginning of the stream. -/
theorem lengthsNonnegative_of_inits {method stream : Bytes}
    (h : ∀ before ∈ stream.inits, ((new method).pump before).toOption.all
      (fun s => decide s.1.LengthNonnegative) = true) : LengthsNonnegative method stream := by
  intro before hbefore r events used hrun
  have hbefore := h before ((List.mem_inits before stream).mpr hbefore)
  rw [hrun] at hbefore
  exact of_decide_eq_true hbefore

/-- Two chunks of a reply, with cuts in a header, in a chunk and in a line break; no length is
    negative. -/
theorem response_segments_chunks :
    let pieces := [ascii "HTTP/1.1 200 OK\r\nTransfer-Enco", ascii "ding: chunked\r\n\r\n3\r\na",
      ascii "bc\r", ascii "\n2\r\nde\r\n0\r\n\r\n"]
    (feedPieces (ascii "GET") pieces).map (fun s => (seen s.1, s.2))
      = (feedPieces (ascii "GET") [pieces.flatten]).map (fun s => (seen s.1, s.2)) ∧
    Defined (feedPieces (ascii "GET") pieces) ∧
    (feedPieces (ascii "GET") pieces).map (fun s => (s.1.1.completed, (seen s.1).2, s.2))
      = .ok (true, { data := ascii "abcde", begins := 1, completes := 1 }, 67) := by
  intro pieces
  have hlengths : LengthsNonnegative (ascii "GET") pieces.flatten :=
    lengthsNonnegative_of_inits (by decide +kernel)
  obtain ⟨hcut, hdefined⟩ := response_segments (ascii "GET") pieces [pieces.flatten]
    (by decide +kernel) (by decide +kernel) (by decide +kernel)
  exact ⟨hcut, hdefined hlengths, by decide +kernel⟩

end Response

end Icl.Http
