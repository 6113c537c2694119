import Icl.Protocol.HttpClient

namespace Icl.Protocol

open Icl.Cxx Icl.Format

/-!
# How `HttpClient::Get` reads chunks

`Get` keeps what it has received in `mCurrentChunk`, and takes whole chunks off it.  What it makes
of a buffer is stated as a relation between the buffer and the data of its chunks.

* `sizeLine` — the size at the head of a buffer, and `parseChunkSize_eq`;
* `ReadsChunks` — the data of the chunks that can be taken off a buffer, and where that stops;
* `chunkLoop_of_reads`, `exists_readsChunks` — the chunk loop finds these data, and there always
  are some;
* `ReadsPackets` — the same for packets that come one after the other, with `getLoop_of_reads` and
  `exists_readsPackets`.
-/

/-! ### The size of a chunk -/

/-- The size of a chunk, read from the first line of a buffer, and what is kept of the buffer.  The
    line ends in CR.  Nothing is taken off if there is nothing behind the line. -/
def sizeLine (buffer : Bytes) : Option (Int × Bytes) :=
  let line := buffer.takeWhile (· != newline)
  let behind := if newline ∈ buffer then (line.length + 1) % 2 ^ 32 else 2 ^ 32 - 1
  if line.getLast? = some 0x0D then
    some (extractHexInt32 line.dropLast (-1),
      if behind < buffer.length then buffer.drop behind else buffer)
  else none

/-- The first `getline` on a buffer. -/
theorem getline_buffer {buffer : Bytes} (hne : buffer ≠ []) :
    ∃ iss, getline newline (.ofString buffer) []
        = (true, buffer.takeWhile (· != newline), iss) ∧
      (iss.tellg % 2 ^ 32).toNat
        = if newline ∈ buffer then ((buffer.takeWhile (· != newline)).length + 1) % 2 ^ 32
          else 2 ^ 32 - 1 := by
  by_cases hmem : newline ∈ buffer
  · obtain ⟨line, rest, rfl, hline⟩ := List.eq_append_cons_of_mem hmem
    have htake : (line ++ newline :: rest).takeWhile (· != newline) = line := by
      rw [List.takeWhile_append_of_pos fun c hc => by
        simpa using ne_of_mem_of_not_mem hc hline]
      simp
    refine ⟨.reading rest (0 + line.length + 1), ?_, ?_⟩
    · rw [htake]
      exact getline_reading hline rest 0 []
    · rw [if_pos hmem, htake]
      show (((0 + line.length + 1 : Nat) : Int) % 2 ^ 32).toNat = (line.length + 1) % 2 ^ 32
      omega
  -- The stream is at its end, and `tellg` fails.
  · have htake : buffer.takeWhile (· != newline) = buffer := by
      rw [List.takeWhile_eq_self_iff]
      exact fun c hc => by simpa using ne_of_mem_of_not_mem hc hmem
    have hempty : buffer.isEmpty = false := by simpa using hne
    refine ⟨{ rest := [], pos := 0 + buffer.length, eof := true, fail := buffer.isEmpty }, ?_, ?_⟩
    · rw [htake]
      refine (getline_last hmem 0 []).trans ?_
      rw [hempty]
      rfl
    · rw [if_neg hmem]
      rfl

/-- **`ParseChunkSize` on a buffer** whose size is not known. -/
theorem parseChunkSize_eq {c : HttpClient} (hsize : c.mCurrentChunkSize = -1)
    (hne : c.mCurrentChunk ≠ []) :
    parseChunkSize c.mCurrentChunk c = .ok (match sizeLine c.mCurrentChunk with
      | some (n, kept) => (true, { c with mCurrentChunkSize := n, mCurrentChunk := kept })
      | none => (false, c)) := by
  obtain ⟨iss, hget, htellg⟩ := getline_buffer hne
  rw [parseChunkSize, hget, sizeLine]
  dsimp only
  rw [hsize]
  -- The line has to end in a carriage return, which is taken off before the size is read.
  by_cases hlast : (c.mCurrentChunk.takeWhile (· != newline)).getLast? = some 0x0D
  · have hline : c.mCurrentChunk.takeWhile (· != newline) ≠ [] := by
      intro hnil
      rw [hnil] at hlast
      cases hlast
    rw [if_pos hlast, if_pos hlast, popBack_of_ne_nil hline, ok_bind, htellg]
    dsimp only
    generalize (if newline ∈ c.mCurrentChunk then _ else _ : Nat) = behind
    by_cases hbehind : behind < c.mCurrentChunk.length
    · rw [if_pos hbehind, if_pos hbehind, substr_of_le (le_of_lt hbehind), ok_bind,
        List.take_of_length_le (by simp)]
      rfl
    · rw [if_neg hbehind, if_neg hbehind]
      rfl
  · rw [if_neg hlast, if_neg hlast]
    rfl

/-! ### Chunks in a buffer -/

/-- Where the chunks of a buffer end. -/
inductive ChunkEnd where
  /-- The size of the last chunk has come. -/
  | last
  /-- There is no size where one should be, or no CRLF behind the data. -/
  | broken
  /-- More has to come: the size of the chunk that is waited for, -1 if it is not known, and what
      is kept. -/
  | waits (size : Int) (kept : Bytes)

/-- What is taken off for a chunk of size `n`, and what is left.  A negative size counts modulo
    `2 ^ 32` when it is compared, and modulo `2 ^ 64` when bytes are taken off. -/
structure IsChunk (n : Int) (data rest : Bytes) : Prop where
  enough : (n % 2 ^ 32).toNat ≤ (data ++ rest).length
  size : data.length = min (n % 2 ^ 64).toNat (data ++ rest).length

/-- **The chunks of a buffer**: the data of those that can be taken off, and where that stops.  The
    buffer begins with a size, or with the data of a chunk of a known size. -/
inductive ReadsChunks : Option Int → Bytes → Bytes → ChunkEnd → Prop where
  /-- Three bytes are not looked at. -/
  | few {buffer : Bytes} (hfew : buffer.length ≤ 3) :
    ReadsChunks none buffer [] (.waits (-1) buffer)
  | noSize {buffer : Bytes} (hmany : 3 < buffer.length) (hline : sizeLine buffer = none) :
    ReadsChunks none buffer [] .broken
  | size {buffer kept data : Bytes} {n : Int} {stop : ChunkEnd} (hmany : 3 < buffer.length)
      (hline : sizeLine buffer = some (n, kept)) (hdata : ReadsChunks (some n) kept data stop) :
    ReadsChunks none buffer data stop
  /-- A size of 0. -/
  | last {buffer : Bytes} : ReadsChunks (some 0) buffer [] .last
  /-- The data are not all there. -/
  | part {buffer : Bytes} {n : Int} (hn : n ≠ 0) (hpart : buffer.length < (n % 2 ^ 32).toNat) :
    ReadsChunks (some n) buffer [] (.waits n buffer)
  /-- The CRLF behind the data is not there; the size is not forgotten. -/
  | bare {data rest : Bytes} {n : Int} (hn : n ≠ 0) (hchunk : IsChunk n data rest)
      (hrest : rest.length < 2) : ReadsChunks (some n) (data ++ rest) data (.waits n rest)
  | junk {data rest : Bytes} {n : Int} (hn : n ≠ 0) (hchunk : IsChunk n data rest)
      (hrest : 2 ≤ rest.length) (hcrlf : ¬ crlf <+: rest) :
    ReadsChunks (some n) (data ++ rest) data .broken
  | next {data rest more : Bytes} {n : Int} {stop : ChunkEnd} (hn : n ≠ 0)
      (hchunk : IsChunk n data (crlf ++ rest)) (hmore : ReadsChunks none rest more stop) :
    ReadsChunks (some n) (data ++ (crlf ++ rest)) (data ++ more) stop

/-- What a buffer begins with, when `mCurrentChunkSize` is `size`. -/
def awaiting (size : Int) : Option Int := if size = -1 then none else some size

/-- **What becomes of the client**, and of `response`, when the chunks end so. -/
def ChunkEnd.Leaves (stop : ChunkEnd) (c : HttpClient) (response data : Bytes) (c' : HttpClient)
    (response' : Bytes) : Prop :=
  match stop with
  | .last => c'.mGetFinished = true ∧ c'.mRequestSuccess = true ∧ c'.mReply = c.mReply ∧
      response' = response ++ data
  | .broken => c'.mGetFinished = true ∧ c'.mRequestSuccess = false ∧ c'.mReply = c.mReply
  | .waits n kept => c' = { c with mCurrentChunkSize := n, mCurrentChunk := kept } ∧
      response' = response ++ data

/-- What the client has kept before makes no difference, and data that have been taken off before
    may be counted with `response`. -/
theorem ChunkEnd.Leaves.append {stop : ChunkEnd} {c c' : HttpClient}
    {response response' data more kept : Bytes} {n : Int}
    (h : stop.Leaves { c with mCurrentChunk := kept, mCurrentChunkSize := n } (response ++ data)
      more c' response') : stop.Leaves c response (data ++ more) c' response' := by
  cases stop with
  | last => exact ⟨h.1, h.2.1, h.2.2.1, h.2.2.2.trans (List.append_assoc _ _ _)⟩
  | broken => exact h
  | waits n' kept' => exact ⟨h.1, h.2.trans (List.append_assoc _ _ _)⟩

/-- The chunk loop leaves the reply as it is. -/
theorem ChunkEnd.Leaves.mReply {stop : ChunkEnd} {c c' : HttpClient}
    {response response' data : Bytes} (h : stop.Leaves c response data c' response') :
    c'.mReply = c.mReply := by
  cases stop with
  | last => exact h.2.2.1
  | broken => exact h.2.2
  | waits n kept => rw [h.1]

/-- A turn of the chunk loop, once it has looked for a size. -/
def afterSize (fuel : Nat) (moreData : Bool) (c : HttpClient) (response : Bytes) :
    Except Fault (HttpClient × Bytes) :=
  let (moreData, c, response) := takeChunk moreData c response
  if moreData then chunkLoop fuel c response else .ok (c, response)

theorem chunkLoop_succ (fuel : Nat) (c : HttpClient) (response : Bytes) :
    chunkLoop (fuel + 1) c response
      = findChunkSize c >>= fun found => afterSize fuel found.1 found.2 response := rfl

/-! ### One turn -/

section Turn

variable {c : HttpClient}

/-- Three bytes are too few for a size. -/
theorem findChunkSize_few (hsize : c.mCurrentChunkSize = -1) (hfew : c.mCurrentChunk.length ≤ 3) :
    findChunkSize c = .ok (false, c) := by
  rw [findChunkSize, if_pos hsize, if_neg (by omega)]
  rfl

theorem findChunkSize_noSize (hsize : c.mCurrentChunkSize = -1)
    (hmany : 3 < c.mCurrentChunk.length) (hline : sizeLine c.mCurrentChunk = none) :
    findChunkSize c = .ok (false, { c with mGetFinished := true, mRequestSuccess := false }) := by
  have hne : c.mCurrentChunk ≠ [] := List.ne_nil_of_length_pos (by omega)
  rw [findChunkSize, if_pos hsize, if_pos hmany, parseChunkSize_eq hsize hne, hline]
  rfl

theorem findChunkSize_size (hsize : c.mCurrentChunkSize = -1) (hmany : 3 < c.mCurrentChunk.length)
    {n : Int} {kept : Bytes} (hline : sizeLine c.mCurrentChunk = some (n, kept)) :
    findChunkSize c = .ok (true, { c with mCurrentChunkSize := n, mCurrentChunk := kept }) := by
  have hne : c.mCurrentChunk ≠ [] := List.ne_nil_of_length_pos (by omega)
  rw [findChunkSize, if_pos hsize, if_pos hmany, parseChunkSize_eq hsize hne, hline]
  rfl

/-- A size that is known is not looked for. -/
theorem findChunkSize_known (hsize : c.mCurrentChunkSize ≠ -1) :
    findChunkSize c = .ok (true, c) := by
  rw [findChunkSize, if_neg hsize]
  rfl

/-- Nothing is taken off while the size is not known, of a buffer that is not too long. -/
theorem afterSize_few (fuel : Nat) {c : HttpClient} (hsize : c.mCurrentChunkSize = -1)
    (hfew : c.mCurrentChunk.length ≤ 3) (response : Bytes) :
    afterSize fuel false c response = .ok (c, response) := by
  have hless : ¬ c.mCurrentChunk.length ≥ ((-1 : Int) % 2 ^ 32).toNat := by omega
  rw [afterSize, takeChunk, hsize, if_neg (by decide), if_neg hless]
  rfl

/-- Of the CRLF behind a chunk something is still to come. -/
theorem endChunk_short (hshort : c.mCurrentChunk.length < 2) (moreData : Bool) :
    endChunk moreData c = (false, c) := by
  obtain hnil | ⟨b, hone⟩ : c.mCurrentChunk = [] ∨ ∃ b, c.mCurrentChunk = [b] := by
    match c.mCurrentChunk, hshort with
    | [], _ => exact .inl rfl
    | [b], _ => exact .inr ⟨b, rfl⟩
  · rw [endChunk, hnil]
  · rw [endChunk, hone]

/-- The CRLF behind a chunk is taken off. -/
theorem endChunk_crlf {rest : Bytes} (hcrlf : c.mCurrentChunk = crlf ++ rest) (moreData : Bool) :
    endChunk moreData c
      = (moreData, { c with mCurrentChunk := rest, mCurrentChunkSize := -1 }) := by
  rw [endChunk, hcrlf]
  rfl

/-- Something else behind a chunk is a failure. -/
theorem endChunk_junk (hlong : 2 ≤ c.mCurrentChunk.length) (hcrlf : ¬ crlf <+: c.mCurrentChunk)
    (moreData : Bool) :
    endChunk moreData c = (false, { c with mGetFinished := true, mRequestSuccess := false }) := by
  obtain ⟨c0, c1, rest, htwo⟩ : ∃ c0 c1 rest, c.mCurrentChunk = c0 :: c1 :: rest := by
    match c.mCurrentChunk, hlong with
    | c0 :: c1 :: rest, _ => exact ⟨c0, c1, rest, rfl⟩
  have hno : ¬ (c0 = 0x0D ∧ c1 = 0x0A) := by
    rintro ⟨rfl, rfl⟩
    rw [htwo] at hcrlf
    exact hcrlf (List.prefix_append crlf rest)
  rw [endChunk, htwo]
  dsimp only
  rw [if_neg hno]

/-- A failure is not made good. -/
theorem endChunk_failed (hfinished : c.mGetFinished = true) (hfailed : c.mRequestSuccess = false) :
    ∃ c', endChunk false c = (false, c') ∧ c'.mGetFinished = true ∧ c'.mRequestSuccess = false ∧
      c'.mReply = c.mReply := by
  unfold endChunk
  split
  case h_1 =>
    split_ifs
    · exact ⟨_, rfl, hfinished, hfailed, rfl⟩
    · exact ⟨_, rfl, rfl, rfl, rfl⟩
  case h_2 => exact ⟨_, rfl, hfinished, hfailed, rfl⟩

/-- The loop ends with a turn that has found no size. -/
theorem afterSize_failed (fuel : Nat) (hsize : c.mCurrentChunkSize ≠ 0)
    (hfinished : c.mGetFinished = true) (hfailed : c.mRequestSuccess = false) (response : Bytes) :
    ∃ c' response', afterSize fuel false c response = .ok (c', response') ∧
      c'.mGetFinished = true ∧ c'.mRequestSuccess = false ∧ c'.mReply = c.mReply := by
  rw [afterSize, takeChunk, if_neg hsize]
  split_ifs with henough
  · -- A buffer of 4 GiB is taken off all the same.
    obtain ⟨c', hend, hflags⟩ := endChunk_failed
      (c := { c with mCurrentChunk := c.mCurrentChunk.drop (c.mCurrentChunkSize % 2 ^ 64).toNat })
      hfinished hfailed
    dsimp only
    rw [hend]
    exact ⟨c', _, rfl, hflags⟩
  · exact ⟨c, response, rfl, hfinished, hfailed, rfl⟩

theorem IsChunk.split {n : Int} {data rest : Bytes} (h : IsChunk n data rest) :
    (data ++ rest).take (n % 2 ^ 64).toNat = data ∧
      (data ++ rest).drop (n % 2 ^ 64).toNat = rest := by
  have hsize := h.size
  rw [List.length_append] at hsize
  by_cases hle : (n % 2 ^ 64).toNat ≤ data.length + rest.length
  · have hlength : (n % 2 ^ 64).toNat = data.length := by omega
    rw [hlength]
    exact ⟨List.take_left, List.drop_left⟩
  -- All of the buffer is taken off.
  · obtain rfl : rest = [] := List.length_eq_zero_iff.mp (by omega)
    rw [List.append_nil]
    exact ⟨List.take_of_length_le (by omega), List.drop_eq_nil_of_le (by omega)⟩

/-- Every buffer that is long enough begins with a chunk. -/
theorem exists_isChunk {n : Int} {buffer : Bytes} (h : (n % 2 ^ 32).toNat ≤ buffer.length) :
    ∃ data rest, buffer = data ++ rest ∧ IsChunk n data rest := by
  refine ⟨buffer.take (n % 2 ^ 64).toNat, buffer.drop (n % 2 ^ 64).toNat,
    (List.take_append_drop _ _).symm, ?_, ?_⟩
  · rwa [List.take_append_drop]
  · rw [List.take_append_drop, List.length_take]

/-- **A chunk is taken off.** -/
theorem takeChunk_chunk {c : HttpClient} {data rest : Bytes} (hn : c.mCurrentChunkSize ≠ 0)
    (hbuffer : c.mCurrentChunk = data ++ rest) (hchunk : IsChunk c.mCurrentChunkSize data rest)
    (moreData : Bool) (response : Bytes) :
    takeChunk moreData c response
      = ((endChunk moreData { c with mCurrentChunk := rest }).1,
        (endChunk moreData { c with mCurrentChunk := rest }).2, response ++ data) := by
  obtain ⟨htake, hdrop⟩ := hchunk.split
  rw [takeChunk, if_neg hn, hbuffer, if_pos hchunk.enough]
  simp only [htake, hdrop]

end Turn

/-- What a size leaves is no longer than the buffer. -/
theorem length_of_sizeLine {buffer kept : Bytes} {n : Int}
    (h : sizeLine buffer = some (n, kept)) : kept.length ≤ buffer.length := by
  simp only [sizeLine] at h
  split_ifs at h
  all_goals
    obtain ⟨-, rfl⟩ := Prod.mk.inj (Option.some.inj h)
    simp

/-! ### The loop -/

/-- **The chunk loop reads the chunks**, from a size or from the data of a chunk. -/
theorem chunkLoop_of_readsChunks {start : Option Int} {buffer data : Bytes} {stop : ChunkEnd}
    (h : ReadsChunks start buffer data stop) (c : HttpClient) (response : Bytes) (fuel : Nat)
    (hbuffer : c.mCurrentChunk = buffer) (hsize : c.mCurrentChunkSize = start.getD (-1)) :
    match start with
    | none => buffer.length ≤ fuel → ∃ c' response',
        chunkLoop (fuel + 1) c response = .ok (c', response') ∧
          stop.Leaves c response data c' response'
    | some _ => buffer.length ≤ fuel → ∃ c' response',
        afterSize fuel true c response = .ok (c', response') ∧
          stop.Leaves c response data c' response' := by
  induction h generalizing c response fuel with
  -- At most three bytes: the size is waited for.
  | few hfew =>
    intro hfuel
    have hunknown : c.mCurrentChunkSize = -1 := hsize
    rw [← hbuffer] at hfew
    refine ⟨c, response, ?_, ?_, (List.append_nil response).symm⟩
    · rw [chunkLoop_succ, findChunkSize_few hunknown hfew]
      exact afterSize_few fuel hunknown hfew response
    · rw [← hbuffer, ← hunknown]
  -- There are bytes and no line among them that could be a size.
  | noSize hmany hline =>
    intro hfuel
    have hunknown : c.mCurrentChunkSize = -1 := hsize
    rw [← hbuffer] at hmany hline
    rw [chunkLoop_succ, findChunkSize_noSize hunknown hmany hline]
    exact afterSize_failed fuel (by rw [hunknown]; decide) rfl rfl response
  | size hmany hline hdata ih =>
    intro hfuel
    have hkept := length_of_sizeLine hline
    rw [← hbuffer] at hmany hline
    rw [chunkLoop_succ, findChunkSize_size hsize hmany hline]
    exact ih { c with mCurrentChunkSize := _, mCurrentChunk := _ } response fuel rfl rfl (by omega)
  -- A size of zero ends the request.
  | last =>
    intro hfuel
    have hzero : c.mCurrentChunkSize = 0 := hsize
    refine ⟨{ c with mGetFinished := true, mRequestSuccess := true }, response, ?_, rfl, rfl, rfl,
      (List.append_nil response).symm⟩
    rw [afterSize, takeChunk, if_pos hzero]
    rfl
  -- The rest of the data is still to come.
  | @part buffer n hn hpart =>
    intro hfuel
    have hknown : c.mCurrentChunkSize = n := hsize
    refine ⟨c, response, ?_, ?_, (List.append_nil response).symm⟩
    · rw [afterSize, takeChunk, hknown, if_neg hn, hbuffer, if_neg (by omega)]
      rfl
    · rw [← hbuffer, ← hknown]
  -- The data is there, what ends it is not.
  | @bare data rest n hn hchunk hrest =>
    intro hfuel
    obtain rfl : c.mCurrentChunkSize = n := hsize
    refine ⟨{ c with mCurrentChunk := rest }, response ++ data, ?_, rfl, rfl⟩
    rw [afterSize, takeChunk_chunk hn hbuffer hchunk, endChunk_short hrest]
    rfl
  | @junk data rest n hn hchunk hrest hcrlf =>
    intro hfuel
    obtain rfl : c.mCurrentChunkSize = n := hsize
    rw [afterSize, takeChunk_chunk hn hbuffer hchunk, endChunk_junk hrest hcrlf]
    exact ⟨_, _, rfl, rfl, rfl, rfl⟩
  -- Only here the loop goes round once more, with a shorter buffer.
  | @next data rest more n stop hn hchunk hmore ih =>
    intro hfuel
    obtain rfl : c.mCurrentChunkSize = n := hsize
    have hless : rest.length + 2 ≤ fuel := by
      have hcrlf : crlf.length = 2 := rfl
      simp only [List.length_append, hcrlf] at hfuel
      omega
    obtain ⟨fuel, rfl⟩ : ∃ k, fuel = k + 1 := ⟨fuel - 1, by omega⟩
    obtain ⟨c', response', hloop, hleaves⟩ :=
      ih { c with mCurrentChunk := rest, mCurrentChunkSize := -1 } (response ++ data) fuel rfl rfl
        (by omega)
    refine ⟨c', response', ?_, hleaves.append⟩
    rw [afterSize, takeChunk_chunk hn hbuffer hchunk, endChunk_crlf rfl]
    exact hloop

/-- Every buffer is read, from the data of a chunk on, if all that are shorter are. -/
theorem exists_readsChunks_data (n : Int) (buffer : Bytes)
    (hshorter : ∀ rest : Bytes, rest.length < buffer.length →
      ∃ data stop, ReadsChunks none rest data stop) :
    ∃ data stop, ReadsChunks (some n) buffer data stop := by
  by_cases hn : n = 0
  · subst hn
    exact ⟨_, _, .last⟩
  · by_cases hpart : buffer.length < (n % 2 ^ 32).toNat
    · exact ⟨_, _, .part hn hpart⟩
    · obtain ⟨data, rest, rfl, hchunk⟩ := exists_isChunk (n := n) (not_lt.mp hpart)
      by_cases hbare : rest.length < 2
      · exact ⟨_, _, .bare hn hchunk hbare⟩
      · by_cases hcrlf : crlf <+: rest
        · obtain ⟨rest, rfl⟩ := hcrlf
          have hless : rest.length < (data ++ (crlf ++ rest)).length := by
            simp only [List.length_append, crlf, List.length_cons, List.length_nil]
            omega
          obtain ⟨more, stop, hmore⟩ := hshorter rest hless
          exact ⟨_, _, .next hn hchunk hmore⟩
        · exact ⟨_, _, .junk hn hchunk (not_lt.mp hbare) hcrlf⟩

/-- Every buffer is read, from a size on. -/
theorem exists_readsChunks_size (buffer : Bytes) :
    ∃ data stop, ReadsChunks none buffer data stop := by
  induction hlength : buffer.length using Nat.strong_induction_on generalizing buffer with
  | h length ih =>
    subst hlength
    by_cases hfew : buffer.length ≤ 3
    · exact ⟨_, _, .few hfew⟩
    · cases hline : sizeLine buffer with
      | none => exact ⟨_, _, .noSize (not_le.mp hfew) hline⟩
      | some found =>
        obtain ⟨n, kept⟩ := found
        have hkept := length_of_sizeLine hline
        obtain ⟨data, stop, hdata⟩ := exists_readsChunks_data n kept
          fun rest hrest => ih rest.length (by omega) rest rfl
        exact ⟨_, _, .size (not_le.mp hfew) hline hdata⟩

/-- **Every buffer is read**, whatever it begins with. -/
theorem exists_readsChunks (start : Option Int) (buffer : Bytes) :
    ∃ data stop, ReadsChunks start buffer data stop := by
  cases start with
  | none => exact exists_readsChunks_size buffer
  | some n => exact exists_readsChunks_data n buffer fun rest _ => exists_readsChunks_size rest

/-! ### Packets -/

/-- **A packet of a chunked reply.** -/
theorem takePacket_of_readsChunks {c : HttpClient} (hchunked : c.mReply.chunked = true)
    {packet data : Bytes} {stop : ChunkEnd}
    (h : ReadsChunks (awaiting c.mCurrentChunkSize) (c.mCurrentChunk ++ packet) data stop)
    (response : Bytes) :
    ∃ c' response', takePacket packet c response = .ok (c', response') ∧
      stop.Leaves c response data c' response' := by
  set buffer := c.mCurrentChunk ++ packet with hbuffer
  have hloop : ∃ c' response', chunkLoop (buffer.length + 1) { c with mCurrentChunk := buffer }
      response = .ok (c', response') ∧
      stop.Leaves { c with mCurrentChunk := buffer } (response ++ []) data c' response' := by
    rw [List.append_nil]
    by_cases hsize : c.mCurrentChunkSize = -1
    · rw [awaiting, if_pos hsize] at h
      exact chunkLoop_of_readsChunks h { c with mCurrentChunk := buffer } response _ rfl hsize
        le_rfl
    -- The chunk is known that the packet goes on with.
    · rw [awaiting, if_neg hsize] at h
      have hknown := findChunkSize_known (c := { c with mCurrentChunk := buffer }) hsize
      rw [chunkLoop_succ, hknown]
      exact chunkLoop_of_readsChunks h { c with mCurrentChunk := buffer } response _ rfl rfl le_rfl
  obtain ⟨c', response', hloop, hleaves⟩ := hloop
  refine ⟨c', response', ?_, hleaves.append⟩
  rw [takePacket, if_pos hchunked]
  exact hloop

/-- Why `Get` stops reading packets. -/
inductive PacketsEnd where
  | last
  | broken
  /-- There are no more. -/
  | ranOut

/-- What `Get` returns then, if `mRequestSuccess` has been `success`. -/
def PacketsEnd.result (success : Bool) : PacketsEnd → Bool
  | .last => true
  | .broken => false
  | .ranOut => success

/-- **The chunks of packets** that come one after the other: the data of all of them, and why it
    ends.  `size` and `kept` are what the packets before have left. -/
inductive ReadsPackets : Int → Bytes → List Bytes → Bytes → PacketsEnd → Prop where
  | ranOut (size : Int) (kept : Bytes) : ReadsPackets size kept [] [] .ranOut
  | last {size : Int} {kept packet data : Bytes} (packets : List Bytes)
      (h : ReadsChunks (awaiting size) (kept ++ packet) data .last) :
    ReadsPackets size kept (packet :: packets) data .last
  | broken {size : Int} {kept packet data : Bytes} (packets : List Bytes)
      (h : ReadsChunks (awaiting size) (kept ++ packet) data .broken) :
    ReadsPackets size kept (packet :: packets) data .broken
  | more {size size' : Int} {kept kept' packet data more : Bytes} {packets : List Bytes}
      {stop : PacketsEnd}
      (h : ReadsChunks (awaiting size) (kept ++ packet) data (.waits size' kept'))
      (hmore : ReadsPackets size' kept' packets more stop) :
    ReadsPackets size kept (packet :: packets) (data ++ more) stop

/-- Whatever the packets are, they are read. -/
theorem exists_readsPackets (size : Int) (kept : Bytes) (packets : List Bytes) :
    ∃ data stop, ReadsPackets size kept packets data stop := by
  induction packets generalizing size kept with
  | nil => exact ⟨_, _, .ranOut size kept⟩
  | cons packet packets ih =>
    obtain ⟨data, stop, h⟩ := exists_readsChunks (awaiting size) (kept ++ packet)
    cases stop with
    | last => exact ⟨_, _, .last packets h⟩
    | broken => exact ⟨_, _, .broken packets h⟩
    | waits size' kept' =>
      obtain ⟨more, stop, hmore⟩ := ih size' kept'
      exact ⟨_, _, .more h hmore⟩

/-- What is done with a packet, and with those behind it. -/
def getRest (garbage : Nat) (packet : Bytes) (packets : List Bytes) (c : HttpClient)
    (response : Bytes) : Except Fault (HttpClient × Bytes) :=
  takePacket packet c response >>= fun taken =>
    if taken.1.mGetFinished then .ok taken else getLoop garbage packets taken.1 taken.2

theorem getLoop_cons (garbage : Nat) (packet : Bytes) (packets : List Bytes) (c : HttpClient)
    (response : Bytes) : getLoop garbage (packet :: packets) c response
      = firstPacket garbage packet c >>= fun first =>
        getRest garbage first.1 packets first.2 response := rfl

/-- Only the first packet has a header. -/
theorem firstPacket_later (garbage : Nat) (output : Bytes) {c : HttpClient}
    (hfirst : c.mFirstPacket = true) : firstPacket garbage output c = .ok (output, c) :=
  if_pos hfirst

/-- **The packets are read**, once the first one has been looked at. -/
theorem getLoop_of_readsPackets (garbage : Nat) {size : Int} {kept data : Bytes}
    {packets : List Bytes} {stop : PacketsEnd} (h : ReadsPackets size kept packets data stop)
    {c : HttpClient} (hchunked : c.mReply.chunked = true) (hfirst : c.mFirstPacket = true)
    (hfinished : c.mGetFinished = false) (hsize : c.mCurrentChunkSize = size)
    (hkept : c.mCurrentChunk = kept) (response : Bytes) :
    ∃ c' response', getLoop garbage packets c response = .ok (c', response') ∧
      c'.mRequestSuccess = stop.result c.mRequestSuccess ∧
      (stop ≠ .broken → response' = response ++ data) := by
  induction h generalizing c response with
  | ranOut => exact ⟨_, _, rfl, rfl, fun _ => (List.append_nil response).symm⟩
  -- The packet that brings the last chunk ends the loop, whatever comes behind it.
  | last packets h =>
    subst hsize hkept
    obtain ⟨c', response', htake, hfinished', hsuccess, -, hresponse⟩ :=
      takePacket_of_readsChunks hchunked h response
    refine ⟨c', response', ?_, hsuccess, fun _ => hresponse⟩
    rw [getLoop_cons, firstPacket_later garbage _ hfirst, ok_bind, getRest, htake, ok_bind,
      if_pos hfinished']
  -- So does one with a size that is none, and the request fails.
  | broken packets h =>
    subst hsize hkept
    obtain ⟨c', response', htake, hfinished', hfailed, -⟩ :=
      takePacket_of_readsChunks hchunked h response
    refine ⟨c', response', ?_, hfailed, fun hno => absurd rfl hno⟩
    rw [getLoop_cons, firstPacket_later garbage _ hfirst, ok_bind, getRest, htake, ok_bind,
      if_pos hfinished']
  -- Any other packet leaves a state from which the next one goes on.
  | @more size size' kept kept' packet data more packets stop h hmore ih =>
    subst hsize hkept
    obtain ⟨c', response', htake, rfl, rfl⟩ := takePacket_of_readsChunks hchunked h response
    obtain ⟨c', response', hloop, hresult, hresponse⟩ :=
      ih (c := { c with mCurrentChunkSize := size', mCurrentChunk := kept' }) hchunked hfirst
        hfinished rfl rfl (response ++ data)
    refine ⟨c', response', ?_, hresult, fun hno => ?_⟩
    · rw [getLoop_cons, firstPacket_later garbage _ hfirst, ok_bind, getRest, htake, ok_bind,
        if_neg (by simp [hfinished])]
      exact hloop
    · rw [hresponse hno, List.append_assoc]

end Icl.Protocol
