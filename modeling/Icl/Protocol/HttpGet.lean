import Icl.Protocol.HttpChunks
import Icl.Protocol.HttpReplies

namespace Icl.Protocol

open Icl.Cxx Icl.Format Icl.Util

/-!
# What `HttpClient::Get` returns

`Get` parses the headers in the first packet, and takes the body from a member that nothing sets.
The headers of earlier replies, what they have left of their chunks and their success stay in the
client.

* `HttpClient.Reached` — the clients there are, and `HttpClient.Kept` what is true of them all;
* `firstPacket_first` — what `Get` makes of the first packet;
* `ReturnsBody` — the condition, on the client before and on the packets;
* `get_returns_body_iff` — `Get` returns the body just under this condition;
* `returnsBody_new` — for a new client it comes down to a body that is empty and a first packet that
  does not stop before the value of Content-Length.
-/

/-! ### The length of the body -/

/-- Digits of value 0 are all zeros. -/
theorem digits_eq_zero {digits : Bytes} (hdigits : Digits digits)
    (hzero : decimalValue digits = 0) : ∀ c ∈ digits, c = 0x30 := by
  -- The value only grows from digit to digit, so every one has to be a zero.
  have key : ∀ (ds : Bytes) (acc : Nat), Digits ds →
      ds.foldl (fun n d => n * 10 + (d.toNat - 0x30)) acc = 0 → acc = 0 ∧ ∀ c ∈ ds, c = 0x30 := by
    intro ds
    induction ds with
    | nil => exact fun acc _ h => ⟨h, by simp⟩
    | cons d ds ih =>
      intro acc hds h
      obtain ⟨hd, hds⟩ := List.forall_mem_cons.mp hds
      obtain ⟨hstep, hall⟩ := ih _ hds h
      have hacc : acc * 10 + (d.toNat - 0x30) = 0 := hstep
      have hle : 0x30 ≤ d.toNat := by
        simp only [isdigit, Bool.and_eq_true, decide_eq_true_eq, UInt8.le_iff_toNat_le] at hd
        exact hd.1
      have hd0 : d.toNat = (0x30 : UInt8).toNat := (by omega : d.toNat = 0x30)
      exact ⟨by omega, List.forall_mem_cons.mpr ⟨UInt8.toNat_inj.mp hd0, hall⟩⟩
  exact (key digits 0 hdigits hzero).2

/-- Zeros add up to zero. -/
theorem digitsValue_zeros {ds : Bytes} (h : ∀ c ∈ ds, c = 0x30) : digitsValue ds = 0 := by
  rw [digitsValue]
  induction ds with
  | nil => rfl
  | cons d ds ih =>
    obtain ⟨rfl, hds⟩ := List.forall_mem_cons.mp h
    exact ih hds

/-- A zero, perhaps more zeros, and perhaps blanks. -/
theorem fromString_zeros (garbage : Nat) {rest : Bytes}
    (h : ∀ c ∈ rest, c = 0x30 ∨ c = 0x20 ∨ c = 0x09) :
    fromStringUint32 garbage (0x30 :: rest) = 0 := by
  have hspace : (0x30 :: rest).dropWhile isspace = 0x30 :: rest :=
    List.dropWhile_cons_of_neg (by decide)
  have hzeros : ∀ c ∈ (0x30 :: rest).takeWhile isdigit, c = 0x30 := by
    intro c hc
    have hdigit := List.mem_takeWhile_imp hc
    rcases List.mem_cons.mp ((List.takeWhile_prefix _).subset hc) with rfl | hmem
    · rfl
    · rcases h c hmem with rfl | rfl | rfl
      · rfl
      · exact absurd hdigit (by decide)
      · exact absurd hdigit (by decide)
  have hvalue := digitsValue_zeros hzeros
  rw [fromStringUint32, hspace]
  have hplus : ((0x30 : UInt8) == 0x2B) = false := by decide
  have hminus : ((0x30 : UInt8) == 0x2D) = false := by decide
  simp only [hplus, hminus, Bool.or_self, Bool.false_eq_true, if_false, hvalue]
  rfl

/-- **A Content-Length of 0 that is cut off**: without a digit the value is indeterminate, else it
    is 0. -/
theorem fromString_part (garbage : Nat) {length : PaddedText} (hne : length.word ≠ [])
    (hdigits : Digits length.word) (hzero : decimalValue length.word = 0) {text : Bytes}
    (h : text <+: length.text) :
    fromStringUint32 garbage (trim text)
      = if text.length ≤ length.lead.length then garbage else 0 := by
  have hblank : ∀ c ∈ length.lead ++ length.trail, isTrimmed c = true := by
    intro c hc
    rcases length.blank c hc with rfl | rfl <;> decide
  rw [PaddedText.text, List.append_assoc] at h
  -- The text ends among the leading blanks or goes beyond them.
  rcases List.prefix_or_prefix_of_prefix h (List.prefix_append _ _) with hshort | ⟨rest, rfl⟩
  · -- Nothing but blanks.
    have hnone : text.dropWhile isTrimmed = [] :=
      List.dropWhile_eq_nil_iff.mpr fun c hc =>
        hblank c (List.mem_append_left _ (hshort.subset hc))
    rw [if_pos hshort.length_le, trim, hnone]
    rfl
  · have hrest := (List.prefix_append_right_inj _).mp h
    have hlead : (length.lead ++ rest).dropWhile isTrimmed = rest.dropWhile isTrimmed :=
      List.dropWhile_append_of_pos fun c hc => hblank c (List.mem_append_left _ hc)
    rw [trim, hlead]
    obtain ⟨d, ds, hword⟩ := List.exists_cons_of_ne_nil hne
    have hzeros := digits_eq_zero hdigits hzero
    rw [hword, List.cons_append] at hrest
    rcases List.prefix_cons_iff.mp hrest with rfl | ⟨more, rfl, hmore⟩
    · rw [if_pos (by simp)]
      rfl
    · -- A zero comes first, and only zeros and blanks follow.
      obtain rfl : d = 0x30 := hzeros d (by rw [hword]; exact List.mem_cons_self)
      have hall : ∀ c ∈ more, c = 0x30 ∨ c = 0x20 ∨ c = 0x09 := by
        intro c hc
        rcases List.mem_append.mp (hmore.subset hc) with hmem | hmem
        · exact .inl (hzeros c (by rw [hword]; exact List.mem_cons_of_mem _ hmem))
        · exact .inr (length.blank c (List.mem_append_right _ hmem))
      have hdrop : (0x30 :: more).dropWhile isTrimmed = 0x30 :: more :=
        List.dropWhile_cons_of_neg (by decide)
      rw [hdrop, if_neg (by simp)]
      rcases List.prefix_cons_iff.mp (List.rdropWhile_prefix isTrimmed (l := 0x30 :: more)) with
        hnil | ⟨kept, hkept, hsub⟩
      · exact absurd (List.rdropWhile_eq_nil_iff.mp hnil 0x30 List.mem_cons_self) (by decide)
      · rw [hkept]
        exact fromString_zeros garbage fun c hc => hall c (hsub.subset hc)

/-- The first packet ends in the blanks behind the colon of Content-Length, or right behind the
    first digit. -/
def EndsInLength (reply : Reply) (segment : Bytes) : Prop :=
  match reply.framing with
  | .sized _ length _ => fieldStart reply < segment.length ∧
      segment.length ≤ fieldStart reply + length.lead.length + 1
  | .chunked .. => False

instance (reply : Reply) (segment : Bytes) : Decidable (EndsInLength reply segment) := by
  unfold EndsInLength
  split <;> infer_instance

/-- The first field of a name, among those that earlier replies have left in the client and those of
    a packet. -/
def fieldFound (c : HttpClient) (packet name : Bytes) : Option Bytes :=
  OrdMap.find? name (c.mReply.headers ++ storedHeaders packet)

/-- The Content-Length that `Get` goes by: 0 if there is none, indeterminate if it has no digit. -/
def foundLength (garbage : Nat) (c : HttpClient) (packet : Bytes) : Nat :=
  ((fieldFound c packet (ascii "content-length")).map (fromStringUint32 garbage)).getD 0

/-- The packet, or an earlier one, says that the body is sent in chunks, and that packet says no
    Content-Length. -/
def TakesChunks (c : HttpClient) (packet : Bytes) : Prop :=
  c.mReply.chunked = true ∨ fieldFound c packet (ascii "content-length") = none ∧
    fieldFound c packet (ascii "transfer-encoding") = some (ascii "chunked")

instance (c : HttpClient) (packet : Bytes) : Decidable (TakesChunks c packet) :=
  inferInstanceAs (Decidable (_ ∨ _ ∧ _))

/-- Headers in front that have nothing to do with the framing are passed over. -/
theorem find?_skip {k : Bytes} (hk : k ∈ framingNames) {pre : List (Bytes × Bytes)}
    (hpre : ∀ e ∈ pre, e.1 ∉ framingNames) (rest : List (Bytes × Bytes)) :
    OrdMap.find? k (pre ++ rest) = OrdMap.find? k rest :=
  OrdMap.find?_append_of_ne (fun e he heq => hpre e he (heq ▸ hk)) rest

/-- A stored field is found under its name, in small letters. -/
theorem find?_stored {k name : Bytes} (h : name.map tolower = k) (text : Bytes)
    (rest : List (Bytes × Bytes)) :
    OrdMap.find? k (storedField (name, text) :: rest) = some (trim text) := by
  rw [OrdMap.find?, storedField, if_pos h.symm]

/-- Under another name it is passed over. -/
theorem find?_stored_ne {k name : Bytes} (h : name.map tolower ≠ k) (text : Bytes)
    (rest : List (Bytes × Bytes)) :
    OrdMap.find? k (storedField (name, text) :: rest) = OrdMap.find? k rest := by
  rw [OrdMap.find?, storedField, if_neg h.symm]

/-- A new client goes by the first Content-Length of the packet. -/
theorem foundLength_new (garbage : Nat) (segment : Bytes) :
    foundLength garbage .new segment
      = ((OrdMap.find? (ascii "content-length") (storedHeaders segment)).map
          (fromStringUint32 garbage)).getD 0 := rfl

/-- A reply in chunks says no Content-Length. -/
theorem foundLength_chunked {reply : Reply} {name : Bytes} {coding : PaddedText}
    {chunks : List Chunk} {zeros : Nat}
    (hframing : reply.framing = .chunked name coding chunks zeros) {segment : Bytes}
    (h : segment <+: reply.encode) (garbage : Nat) :
    foundLength garbage .new segment = 0 := by
  have hskip := @find?_skip (ascii "content-length") (by decide)
  obtain ⟨pre, hpre, hcases⟩ := stored_of_prefix h
  have hframed := reply.framed
  rw [hframing] at hframed hcases
  obtain ⟨hname, -⟩ := hframed
  -- Transfer-Encoding is no Content-Length.
  have hother : name.map tolower ≠ ascii "content-length" := by
    rw [hname]
    decide
  rw [foundLength_new]
  rcases hcases with ⟨hstored, -⟩ | ⟨text, -, hstored, -⟩ | ⟨post, hpost, hstored, -⟩
  · rw [hstored, ← List.append_nil pre, hskip hpre]
    rfl
  · rw [hstored, hskip hpre]
    show ((OrdMap.find? _ [storedField (name, text)]).map _).getD 0 = 0
    rw [find?_stored_ne hother]
    rfl
  · rw [hstored, hskip hpre]
    show ((OrdMap.find? _ (storedField (name, coding.text) :: post)).map _).getD 0 = 0
    rw [find?_stored_ne hother, ← List.append_nil post, hskip hpost]
    rfl

/-- A Content-Length of 0 is the one that is found, as far as it is in the packet. -/
theorem foundLength_sized {reply : Reply} {name : Bytes} {length : PaddedText} {body : Bytes}
    (hframing : reply.framing = .sized name length body) (hbody : body = []) {segment : Bytes}
    (h : segment <+: reply.encode) (garbage : Nat) :
    foundLength garbage .new segment
      = if fieldStart reply < segment.length ∧
          segment.length ≤ fieldStart reply + length.lead.length + 1 then garbage else 0 := by
  have hskip := @find?_skip (ascii "content-length") (by decide)
  obtain ⟨pre, hpre, hcases⟩ := stored_of_prefix h
  have hframed := reply.framed
  rw [hframing] at hframed hcases
  obtain ⟨hname, hne, hdigits, hvalue⟩ := hframed
  have hzero : decimalValue length.word = 0 := by
    rw [hvalue, hbody]
    rfl
  have hpos : 0 < length.word.length := List.length_pos_of_ne_nil hne
  rw [foundLength_new]
  rcases hcases with ⟨hstored, hlen⟩ | ⟨text, htext, hstored, hlen⟩ |
    ⟨post, hpost, hstored, hlen⟩
  -- The packet ends in front of the value.
  · rw [hstored, ← List.append_nil pre, hskip hpre, if_neg (by omega)]
    rfl
  -- It ends in it.
  · rw [hstored, hskip hpre]
    show ((OrdMap.find? _ [storedField (name, text)]).map _).getD 0 = _
    rw [find?_stored hname, Option.map_some, Option.getD_some,
      fromString_part garbage hne hdigits hzero htext]
    congr 1
    rw [hlen]
    simp only [eq_iff_iff]
    omega
  -- All of the line is there.
  · rw [hstored, hskip hpre]
    show ((OrdMap.find? _ (storedField (name, length.text) :: post)).map _).getD 0 = _
    have hlength : length.text.length
        = length.lead.length + length.word.length + length.trail.length := by
      simp [PaddedText.text, Nat.add_assoc]
    rw [find?_stored hname, Option.map_some, Option.getD_some,
      fromString_part garbage hne hdigits hzero List.prefix_rfl, if_neg (by omega), if_neg]
    have hlen' : fieldStart reply + length.text.length + 2 ≤ segment.length := hlen
    omega

/-- **The Content-Length of an empty body**, in any packet, for a new client. -/
theorem foundLength_empty {reply : Reply} (hbody : reply.body = []) {segment : Bytes}
    (h : segment <+: reply.encode) (garbage : Nat) :
    foundLength garbage .new segment = if EndsInLength reply segment then garbage else 0 := by
  cases hframing : reply.framing with
  | chunked name coding chunks zeros =>
    have hends : ¬ EndsInLength reply segment := by simp [EndsInLength, hframing]
    rw [if_neg hends]
    exact foundLength_chunked hframing h garbage
  | sized name length body =>
    have hnil : body = [] := by simpa [Reply.body, Framing.body, hframing] using hbody
    simp only [EndsInLength, hframing]
    exact foundLength_sized hframing hnil h garbage

/-! ### The first packet -/

/-- A reply is its header lines, a blank line and its framing. -/
theorem encode_lines (reply : Reply) : ∃ ls, (∀ line ∈ ls, IsHeaderLine line) ∧
    reply.encode = unlines ls ++ (crlf ++ reply.framing.encode) := by
  refine ⟨frontLines reply ++ reply.framing.field.line :: reply.after.map HeaderField.line, ?_, ?_⟩
  · intro line hline
    rcases List.mem_append.mp hline with hline | hline
    · exact isHeaderLine_front reply line hline
    · rcases List.mem_cons.mp hline with rfl | hline
      · exact isHeaderLine_field reply.framed.field
      · obtain ⟨field, hfield, rfl⟩ := List.mem_map.mp hline
        exact isHeaderLine_field (reply.fields field (List.mem_append_right _ hfield)).1
  · rw [encode_eq, unlines_append, unlines_cons, backText]
    simp

/-- A packet that says how the end of the body is found has the status line in it. -/
theorem statusLine_of_stored {reply : Reply} {segment : Bytes} (h : segment <+: reply.encode)
    {e : Bytes × Bytes} (he : e ∈ storedHeaders segment) (hname : e.1 ∈ framingNames) :
    ∃ rest, segment = reply.statusLine ++ newline :: rest := by
  -- It goes on past the name of the framing field.
  have hlen : fieldStart reply < segment.length := by
    obtain ⟨pre, hpre, hcases⟩ := stored_of_prefix h
    rcases hcases with ⟨hstored, -⟩ | ⟨text, -, -, hlen⟩ | ⟨post, -, -, hlen⟩
    · rw [hstored] at he
      exact absurd hname (hpre e he)
    · omega
    · omega
  have hfront : unlines (frontLines reply)
      = (reply.statusLine ++ [newline]) ++ unlines (reply.before.map HeaderField.line) := by
    simp [frontLines, unlines_cons]
  have hstart : reply.statusLine ++ [newline] <+: reply.encode := by
    rw [encode_eq, hfront, List.append_assoc]
    exact List.prefix_append _ _
  rcases List.prefix_or_prefix_of_prefix h hstart with hshort | ⟨rest, rfl⟩
  · have hle := hshort.length_le
    rw [fieldStart, hfront] at hlen
    simp only [List.length_append] at hle hlen
    omega
  · exact ⟨rest, by simp⟩

/-! ### Clients -/

/-- What is true of every client: nothing sets the body of the reply, and without a Content-Length
    its length is 0. -/
structure HttpClient.Kept (c : HttpClient) : Prop where
  sorted : OrdMap.Sorted c.mReply.headers
  body : c.mReply.body = []
  length : OrdMap.find? (ascii "content-length") c.mReply.headers = none →
    c.mReply.contentLength = 0

/-- A new client has kept nothing. -/
theorem HttpClient.kept_new : HttpClient.new.Kept := ⟨OrdMap.sorted_nil, rfl, fun _ => rfl⟩

/-- The header loop adds headers, and takes none away. -/
theorem headerLoop_keeps {fuel : Nat} {iss iss' : IStringStream} {headers headers' : StringMap}
    {success success' : Bool}
    (h : headerLoop fuel iss headers success = .ok (headers', success', iss'))
    (hsorted : OrdMap.Sorted headers) : OrdMap.Sorted headers' ∧
      ∀ k, OrdMap.find? k headers' = none → OrdMap.find? k headers = none := by
  induction fuel generalizing iss headers success with
  | zero =>
    obtain ⟨rfl, -⟩ := Prod.mk.inj (Except.ok.inj h)
    exact ⟨hsorted, fun _ => id⟩
  | succ fuel ih =>
    rw [headerLoop] at h
    rcases hget : getline newline iss [] with ⟨ok, line, iss₁⟩
    rw [hget] at h
    cases ok with
    | false =>
      obtain ⟨rfl, -⟩ := Prod.mk.inj (Except.ok.inj h)
      exact ⟨hsorted, fun _ => id⟩
    | true =>
      dsimp only at h
      split_ifs at h
      · obtain ⟨entry, -, hrest⟩ := bind_eq_ok.mp h
        cases entry with
        | none => exact ih hrest hsorted
        | some e =>
          obtain ⟨hsorted', hfind⟩ := ih hrest (OrdMap.sorted_insertNew e.1 e.2 hsorted)
          refine ⟨hsorted', fun k hk => ?_⟩
          have hnone := hfind k hk
          rw [OrdMap.find?_insertNew _ _ _ hsorted] at hnone
          -- What is not found at the end was not put in by this line, nor was it there before.
          split_ifs at hnone
          exact hnone
      · obtain ⟨rfl, -⟩ := Prod.mk.inj (Except.ok.inj h)
        exact ⟨hsorted, fun _ => id⟩

/-- The parser keeps what is true of the client. -/
theorem HttpClient.Kept.parse {c : HttpClient} (h : c.Kept) {garbage : Nat} {payload : Bytes}
    {success : Bool} {mReply : HttpReply}
    (hparse : parseReplyHeaders garbage payload c.mReply = .ok (success, mReply)) :
    HttpClient.Kept { c with mReply } := by
  rw [parseReplyHeaders] at hparse
  obtain ⟨⟨headers, success', iss⟩, hloop, hrest⟩ := bind_eq_ok.mp hparse
  obtain ⟨hsorted, hfind⟩ := headerLoop_keeps hloop h.sorted
  dsimp only at hrest
  -- A length in the headers replaces the one kept; without one this has to be the initial zero.
  cases hlength : OrdMap.find? (ascii "content-length") headers with
  | some value =>
    rw [hlength] at hrest
    obtain ⟨-, rfl⟩ := Prod.mk.inj (Except.ok.inj hrest)
    exact ⟨hsorted, h.body, fun hnone => by rw [hlength] at hnone; cases hnone⟩
  | none =>
    rw [hlength] at hrest
    dsimp only at hrest
    have hzero := h.length (hfind _ hlength)
    split_ifs at hrest
    all_goals
      obtain ⟨-, rfl⟩ := Prod.mk.inj (Except.ok.inj hrest)
      exact ⟨hsorted, h.body, fun _ => hzero⟩

/-- Only what is kept of the reply counts. -/
theorem HttpClient.Kept.of_mReply {c c' : HttpClient} (h : c.Kept) (heq : c'.mReply = c.mReply) :
    c'.Kept := by
  obtain ⟨hsorted, hbody, hlength⟩ := h
  rw [← heq] at hsorted hbody hlength
  exact ⟨hsorted, hbody, hlength⟩

/-- The first packet keeps the headers in order. -/
theorem HttpClient.Kept.firstPacket {c c' : HttpClient} (h : c.Kept) {garbage : Nat}
    {packet output : Bytes} (hfirst : firstPacket garbage packet c = .ok (output, c')) :
    c'.Kept := by
  rw [Icl.Protocol.firstPacket] at hfirst
  split_ifs at hfirst
  · obtain ⟨-, rfl⟩ := Prod.mk.inj (Except.ok.inj hfirst)
    exact h
  · obtain ⟨⟨success, mReply⟩, hparse, hrest⟩ := bind_eq_ok.mp hfirst
    have hkept := h.parse hparse
    dsimp only at hrest
    split_ifs at hrest
    all_goals
      obtain ⟨-, rfl⟩ := Prod.mk.inj (Except.ok.inj hrest)
      exact hkept.of_mReply rfl

/-- What is done with the data of a packet leaves the reply as it is. -/
theorem takePacket_mReply {c c' : HttpClient} {packet response response' : Bytes}
    (h : takePacket packet c response = .ok (c', response')) : c'.mReply = c.mReply := by
  by_cases hchunked : c.mReply.chunked = true
  · obtain ⟨data, stop, hreads⟩ :=
      exists_readsChunks (awaiting c.mCurrentChunkSize) (c.mCurrentChunk ++ packet)
    obtain ⟨c₁, response₁, htake, hleaves⟩ := takePacket_of_readsChunks hchunked hreads response
    rw [h] at htake
    obtain ⟨rfl, rfl⟩ := Prod.mk.inj (Except.ok.inj htake)
    exact hleaves.mReply
  · rw [takePacket, if_neg hchunked] at h
    obtain ⟨rfl, -⟩ := Prod.mk.inj (Except.ok.inj h)
    rfl

/-- So does the loop over all the packets. -/
theorem HttpClient.Kept.getLoop {c c' : HttpClient} (h : c.Kept) {garbage : Nat}
    {packets : List Bytes} {response response' : Bytes}
    (hloop : getLoop garbage packets c response = .ok (c', response')) : c'.Kept := by
  induction packets generalizing c response with
  | nil =>
    obtain ⟨rfl, -⟩ := Prod.mk.inj (Except.ok.inj hloop)
    exact h.of_mReply rfl
  | cons packet packets ih =>
    rw [getLoop_cons] at hloop
    obtain ⟨⟨output, c₁⟩, hfirst, hrest⟩ := bind_eq_ok.mp hloop
    obtain ⟨⟨c₂, response₂⟩, htake, hmore⟩ := bind_eq_ok.mp hrest
    have hkept : c₂.Kept := (h.firstPacket hfirst).of_mReply (takePacket_mReply htake)
    dsimp only at hmore
    split_ifs at hmore
    · obtain ⟨rfl, -⟩ := Prod.mk.inj (Except.ok.inj hmore)
      exact hkept
    · exact ih hkept hmore

/-- **The step lemma.** -/
theorem HttpClient.Kept.get {c c' : HttpClient} (h : c.Kept) {garbage : Nat} {exchange : Exchange}
    {host path : Bytes} {port : Nat} {response response' : Bytes} {ret : Bool}
    (hget : get garbage exchange host path port c response = .ok (ret, response', c')) :
    c'.Kept := by
  rw [Icl.Protocol.get] at hget
  split_ifs at hget
  · obtain ⟨⟨c₁, response₁⟩, hloop, hrest⟩ := bind_eq_ok.mp hget
    cases hrest
    have hstart : HttpClient.Kept { c with
        request := getRequest host path c.request
        mFirstPacket := false
        mGetFinished := false
        mCurrentChunkSize := -1 } := h.of_mReply rfl
    exact hstart.getLoop hloop
  · cases hget
    exact h.of_mReply rfl

/-- **The clients there are**: a new one, and what `Get` leaves of one, whatever the network
    does. -/
inductive HttpClient.Reached : HttpClient → Prop where
  | new : Reached .new
  | get {c c' : HttpClient} {garbage : Nat} {exchange : Exchange} {host path : Bytes} {port : Nat}
      {response response' : Bytes} {ret : Bool} (h : Reached c)
      (hget : get garbage exchange host path port c response = .ok (ret, response', c')) :
    Reached c'

/-- **The run lemma.** -/
theorem HttpClient.Reached.kept {c : HttpClient} (h : c.Reached) : c.Kept := by
  induction h with
  | new => exact HttpClient.kept_new
  | get h hget ih => exact ih.get hget

/-! ### The first packet -/

/-- **`ParseReplyHeaders` on a packet.** -/
theorem parseReplyHeaders_packet {reply : Reply} {packet : Bytes} (h : packet <+: reply.encode)
    (garbage : Nat) {c : HttpClient} (hkept : c.Kept) : ∃ success chunked,
    parseReplyHeaders garbage packet c.mReply = .ok (success, { c.mReply with
      headers := OrdMap.insertAll (storedHeaders packet) c.mReply.headers
      chunked
      contentLength := foundLength garbage c packet }) ∧
    (chunked = true ↔ TakesChunks c packet) := by
  -- No header line is empty, wherever the packet ends, so that the loop is defined.
  obtain ⟨ls, hls, hencode⟩ := encode_lines reply
  have hempty := headerLines_of_prefix hls (hencode ▸ h)
  obtain ⟨success, iss, hloop⟩ := headerLoop_lines c.mReply.headers true
    (IStringStream.intact_ofString packet) (Nat.lt_succ_self _) hempty
  have hloop' : headerLoop (packet.length + 1) (.ofString packet) c.mReply.headers true
      = .ok (OrdMap.insertAll (storedHeaders packet) c.mReply.headers, success, iss) := hloop
  have hfind : ∀ k, OrdMap.find? k (OrdMap.insertAll (storedHeaders packet) c.mReply.headers)
      = fieldFound c packet k := fun k => by
    rw [OrdMap.find?_insertAll _ _ hkept.sorted, fieldFound, OrdMap.find?_append]
  rw [parseReplyHeaders, hloop', ok_bind]
  simp only [hfind]
  rw [TakesChunks, foundLength]
  cases hlength : fieldFound c packet (ascii "content-length") with
  | some value =>
    -- A Content-Length leaves the flag as it is.
    exact ⟨success, c.mReply.chunked, rfl, by simp⟩
  | none =>
    have hold : OrdMap.find? (ascii "content-length") c.mReply.headers = none := by
      rw [fieldFound, OrdMap.find?_append, Option.or_eq_none_iff] at hlength
      exact hlength.1
    have hzero : ((none : Option Bytes).map (fromStringUint32 garbage)).getD 0
        = c.mReply.contentLength := (hkept.length hold).symm
    rw [hzero]
    by_cases hchunked : fieldFound c packet (ascii "transfer-encoding") = some (ascii "chunked")
    · refine ⟨success, true, ?_, by simp [hchunked]⟩
      rw [if_pos hchunked]
      rfl
    · refine ⟨success, c.mReply.chunked, ?_, by simp [hchunked]⟩
      rw [if_neg hchunked]
      rfl

/-- The status line is no chunk size: its value is 0. -/
theorem extractHexInt32_status (status : Bytes) (current : Int) :
    extractHexInt32 (ascii "HTTP/1.1 " ++ status) current = 0 := by
  have hstart : ascii "HTTP/1.1 " ++ status = 0x48 :: (ascii "TTP/1.1 " ++ status) := rfl
  have hspace : (0x48 :: (ascii "TTP/1.1 " ++ status)).dropWhile isspace
      = 0x48 :: (ascii "TTP/1.1 " ++ status) := List.dropWhile_cons_of_neg (by decide)
  have hdigits : (0x48 :: (ascii "TTP/1.1 " ++ status)).takeWhile isxdigit = [] :=
    List.takeWhile_cons_of_neg (by decide)
  have hplus : ((0x48 : UInt8) == 0x2B) = false := by decide
  have hminus : ((0x48 : UInt8) == 0x2D) = false := by decide
  rw [hstart, extractHexInt32, hspace]
  simp only [hplus, hminus, Bool.or_self, Bool.false_eq_true, if_false]
  show max (-2 ^ 31)
    (min ((hexValue ((0x48 :: (ascii "TTP/1.1 " ++ status)).takeWhile isxdigit) : Nat) : Int)
      (2 ^ 31 - 1)) = 0
  rw [hdigits]
  decide

/-- The status line is one line. -/
theorem newline_not_mem_statusLine (reply : Reply) : newline ∉ reply.statusLine :=
  (isHeaderLine_front reply _ List.mem_cons_self).1

/-- The status line is the first line of a packet that has it: its size is 0. -/
theorem sizeLine_status (reply : Reply) (rest : Bytes) :
    ∃ kept, sizeLine (reply.statusLine ++ newline :: rest) = some (0, kept) := by
  have hplain : newline ∉ reply.statusLine := newline_not_mem_statusLine reply
  have htake : (reply.statusLine ++ newline :: rest).takeWhile (· != newline)
      = reply.statusLine := by
    rw [List.takeWhile_append_of_pos fun c hc => by simpa using ne_of_mem_of_not_mem hc hplain]
    simp
  have hlast : reply.statusLine.getLast? = some 0x0D := by simp [Reply.statusLine]
  have hline : reply.statusLine.dropLast = ascii "HTTP/1.1 " ++ reply.status :=
    List.dropLast_concat
  rw [sizeLine]
  simp only [htake, if_pos hlast, hline, extractHexInt32_status]
  exact ⟨_, rfl⟩

/-- A packet with the status line is longer than three bytes. -/
theorem length_status (reply : Reply) (rest : Bytes) :
    3 < (reply.statusLine ++ newline :: rest).length := by
  have hprotocol : (ascii "HTTP/1.1 ").length = 9 := rfl
  simp only [Reply.statusLine, List.length_append, hprotocol]
  omega

/-- **A buffer that begins with the status line** ends the chunks at once, without data. -/
theorem readsChunks_status (reply : Reply) (rest : Bytes) :
    ReadsChunks none (reply.statusLine ++ newline :: rest) [] .last := by
  obtain ⟨kept, hline⟩ := sizeLine_status reply rest
  exact .size (length_status reply rest) hline .last

/-- It is read in no other way. -/
theorem ReadsChunks.status {reply : Reply} {rest buffer data : Bytes} {stop : ChunkEnd}
    (h : ReadsChunks none buffer data stop)
    (hbuffer : buffer = reply.statusLine ++ newline :: rest) :
    data = [] := by
  obtain ⟨zero, hline⟩ := sizeLine_status reply rest
  rw [← hbuffer] at hline
  cases h with
  | few => rfl
  | noSize => rfl
  | size hmany hline' hdata =>
    rw [hline] at hline'
    obtain ⟨rfl, rfl⟩ := Prod.mk.inj (Option.some.inj hline')
    cases hdata with
    | last => rfl
    | part hn => exact absurd rfl hn
    | bare hn => exact absurd rfl hn
    | junk hn => exact absurd rfl hn
    | next hn => exact absurd rfl hn

/-! ### `Get` -/

/-- **When `Get` returns the body**, for a reply that comes in these packets.  Where chunks are
    taken, their data have to be the body: with a Content-Length of 0 the chunks of what the client
    has kept and of the first packet, header and all, else those of what it has kept and of the
    other packets.  Where none are taken, there is no body, and the Content-Length is 0 or an
    earlier call has succeeded. -/
def ReturnsBody (garbage : Nat) (c : HttpClient) (packets : List Bytes) (body : Bytes) : Prop :=
  match packets with
  | [] => False
  | packet :: packets =>
    if TakesChunks c packet then
      if foundLength garbage c packet = 0 then
        ∃ stop, ReadsChunks none (c.mCurrentChunk ++ packet) body stop ∧ stop ≠ .broken
      else
        ∃ stop, ReadsPackets (-1) c.mCurrentChunk ([] :: packets) body stop ∧
          stop.result c.mRequestSuccess = true
    else body = [] ∧ (foundLength garbage c packet = 0 ∨ c.mRequestSuccess = true)

/-- The client when `Get` begins to receive. -/
def receiving (request : HttpRequest) (c : HttpClient) : HttpClient :=
  { c with request, mFirstPacket := false, mGetFinished := false, mCurrentChunkSize := -1 }

section Loop

variable {reply : Reply} {packet : Bytes} {c : HttpClient}

/-- **The first packet**, looked at: with a Content-Length of 0 it is kept, else it is dropped. -/
theorem firstPacket_first (h : packet <+: reply.encode) (hkept : c.Kept) (garbage : Nat)
    (request : HttpRequest) : ∃ mReply, (mReply.chunked = true ↔ TakesChunks c packet) ∧
      mReply.body = [] ∧
      firstPacket garbage packet (receiving request c)
        = .ok (if foundLength garbage c packet = 0 then
            (packet, { receiving request c with
              mFirstPacket := true, mReply, mGetFinished := true, mRequestSuccess := true })
          else ([], { receiving request c with mFirstPacket := true, mReply })) := by
  obtain ⟨success, chunked, hparse, hchunked⟩ := parseReplyHeaders_packet h garbage hkept
  refine ⟨{ c.mReply with
    headers := OrdMap.insertAll (storedHeaders packet) c.mReply.headers
    chunked
    contentLength := foundLength garbage c packet }, hchunked, hkept.body, ?_⟩
  have hfirst : (receiving request c).mFirstPacket = false := rfl
  have hreply : (receiving request c).mReply = c.mReply := rfl
  rw [firstPacket, hfirst, if_neg (by decide), hreply, hparse, ok_bind]
  dsimp only
  rw [hkept.body, List.length_nil]
  -- A length of zero ends the request at once; otherwise the body is waited for.
  by_cases hzero : foundLength garbage c packet = 0
  · rw [if_pos hzero, if_pos hzero.symm]
    rfl
  · rw [if_neg hzero, if_neg (Ne.symm hzero)]
    rfl

/-- A packet after which `Get` returns. -/
theorem getRest_finished {garbage : Nat} {packets : List Bytes} {c' : HttpClient}
    {response response' : Bytes} (htake : takePacket packet c response = .ok (c', response'))
    (hfinished : c'.mGetFinished = true) :
    getRest garbage packet packets c response = .ok (c', response') := by
  rw [getRest, htake, ok_bind, if_pos hfinished]

/-- **Where no chunks are taken**, `Get` returns after the first packet, and `response` is left as
    it is. -/
theorem getRest_plain {garbage : Nat} {packets : List Bytes} (hchunked : ¬ c.mReply.chunked = true)
    (hbody : c.mReply.body = []) (response : Bytes) :
    getRest garbage packet packets c response
      = .ok ({ c with mGetFinished := true }, response) := by
  refine getRest_finished ?_ rfl
  rw [takePacket, if_neg hchunked, hbody, List.append_nil]
  rfl

/-- **Where the first packet is taken for chunks**, `Get` returns after it. -/
theorem getRest_chunks {garbage : Nat} {packets : List Bytes} (hchunked : c.mReply.chunked = true)
    (hsize : c.mCurrentChunkSize = -1) (hfinished : c.mGetFinished = true)
    (hsuccess : c.mRequestSuccess = true) (response body : Bytes) :
    ∃ c' response', getRest garbage packet packets c response = .ok (c', response') ∧
      (c'.mRequestSuccess = true ∧ response' = response ++ body ↔
        ∃ stop, ReadsChunks none (c.mCurrentChunk ++ packet) body stop ∧ stop ≠ .broken) := by
  have hstart : awaiting c.mCurrentChunkSize = none := if_pos hsize
  have hreads : ∀ data stop, ReadsChunks none (c.mCurrentChunk ++ packet) data stop →
      ∃ c' response', getRest garbage packet packets c response = .ok (c', response') ∧
        (stop = .broken → c'.mRequestSuccess = false) ∧
        (stop ≠ .broken → c'.mRequestSuccess = true ∧ response' = response ++ data) := by
    intro data stop hdata
    rw [← hstart] at hdata
    obtain ⟨c', response', htake, hleaves⟩ := takePacket_of_readsChunks hchunked hdata response
    refine ⟨c', response', ?_⟩
    cases stop with
    | last =>
      obtain ⟨hfinished', hsuccess', -, hresponse⟩ := hleaves
      exact ⟨getRest_finished htake hfinished', (fun hno => by cases hno),
        fun _ => ⟨hsuccess', hresponse⟩⟩
    | broken =>
      obtain ⟨hfinished', hfailed, -⟩ := hleaves
      exact ⟨getRest_finished htake hfinished', fun _ => hfailed, fun hno => absurd rfl hno⟩
    | waits n kept =>
      obtain ⟨rfl, hresponse⟩ := hleaves
      exact ⟨getRest_finished htake hfinished, (fun hno => by cases hno),
        fun _ => ⟨hsuccess, hresponse⟩⟩
  obtain ⟨data, stop, hdata⟩ := exists_readsChunks none (c.mCurrentChunk ++ packet)
  obtain ⟨c', response', hrest, hbroken, hgood⟩ := hreads data stop hdata
  refine ⟨c', response', hrest, ?_, ?_⟩
  · rintro ⟨hsuccess', hresponse⟩
    have hstop : stop ≠ .broken := by
      intro hstop
      rw [hbroken hstop] at hsuccess'
      cases hsuccess'
    -- The data that have been appended are the body.
    obtain rfl : data = body := List.append_cancel_left ((hgood hstop).2.symm.trans hresponse)
    exact ⟨stop, hdata, hstop⟩
  · rintro ⟨stop', hbody, hstop'⟩
    obtain ⟨c₁, response₁, hrest₁, -, hgood₁⟩ := hreads body stop' hbody
    rw [hrest] at hrest₁
    obtain ⟨rfl, rfl⟩ := Prod.mk.inj (Except.ok.inj hrest₁)
    exact hgood₁ hstop'

/-- **Where the first packet is dropped**, the others are taken for chunks. -/
theorem getRest_packets {garbage : Nat} {packets : List Bytes} (hchunked : c.mReply.chunked = true)
    (hfirst : c.mFirstPacket = true) (hsize : c.mCurrentChunkSize = -1)
    (hfinished : c.mGetFinished = false) (response body : Bytes) :
    ∃ c' response', getRest garbage [] packets c response = .ok (c', response') ∧
      (c'.mRequestSuccess = true ∧ response' = response ++ body ↔
        ∃ stop, ReadsPackets (-1) c.mCurrentChunk ([] :: packets) body stop ∧
          stop.result c.mRequestSuccess = true) := by
  have hloop : getLoop garbage ([] :: packets) c response
      = getRest garbage [] packets c response := by
    rw [getLoop_cons, firstPacket_later garbage [] hfirst]
    rfl
  rw [← hloop]
  obtain ⟨data, stop, hdata⟩ := exists_readsPackets (-1) c.mCurrentChunk ([] :: packets)
  obtain ⟨c', response', hrest, hresult, hgood⟩ :=
    getLoop_of_readsPackets garbage hdata hchunked hfirst hfinished hsize rfl response
  refine ⟨c', response', hrest, ?_, ?_⟩
  -- A success says that the packets were read to an end; the data is then what was returned.
  · rintro ⟨hsuccess, hresponse⟩
    have hstop : stop ≠ .broken := by
      rintro rfl
      rw [hresult] at hsuccess
      cases hsuccess
    obtain rfl : data = body := List.append_cancel_left ((hgood hstop).symm.trans hresponse)
    exact ⟨stop, hdata, hresult ▸ hsuccess⟩
  -- Read another way the packets come to the same client and the same response.
  · rintro ⟨stop', hbody, hstop'⟩
    obtain ⟨c₁, response₁, hrest₁, hresult₁, hgood₁⟩ :=
      getLoop_of_readsPackets garbage hbody hchunked hfirst hfinished hsize rfl response
    rw [hrest] at hrest₁
    obtain ⟨rfl, rfl⟩ := Prod.mk.inj (Except.ok.inj hrest₁)
    have hno : stop' ≠ .broken := by
      rintro rfl
      cases hstop'
    exact ⟨hresult₁.trans hstop', hgood₁ hno⟩

/-- **The loop over the packets** succeeds and appends the body just under the condition. -/
theorem getLoop_iff (h : packet <+: reply.encode) (hkept : c.Kept) (garbage : Nat)
    (request : HttpRequest) (packets : List Bytes) (response body : Bytes) :
    ∃ c' response', getLoop garbage (packet :: packets) (receiving request c) response
        = .ok (c', response') ∧
      (c'.mRequestSuccess = true ∧ response' = response ++ body ↔
        ReturnsBody garbage c (packet :: packets) body) := by
  obtain ⟨mReply, hchunked, hbody, hfirst⟩ := firstPacket_first h hkept garbage request
  rw [getLoop_cons, hfirst, ok_bind, ReturnsBody]
  -- Whether chunks are taken is decided by the first packet, and there also where the length is
  -- found.
  by_cases htakes : TakesChunks c packet
  · have hflag := hchunked.mpr htakes
    rw [if_pos htakes]
    by_cases hzero : foundLength garbage c packet = 0
    · rw [if_pos hzero, if_pos hzero]
      exact getRest_chunks hflag rfl rfl rfl response body
    · rw [if_neg hzero, if_neg hzero]
      exact getRest_packets hflag rfl rfl rfl response body
  · have hflag := mt hchunked.mp htakes
    have hsame : response = response ++ body ↔ body = [] := List.self_eq_append_right
    rw [if_neg htakes]
    by_cases hzero : foundLength garbage c packet = 0
    · rw [if_pos hzero]
      refine ⟨_, response, getRest_plain hflag hbody response, ?_⟩
      exact ⟨fun hret => ⟨hsame.mp hret.2, .inl hzero⟩, fun hret => ⟨rfl, hsame.mpr hret.1⟩⟩
    · rw [if_neg hzero]
      refine ⟨_, response, getRest_plain hflag hbody response, ?_⟩
      exact ⟨fun hret => ⟨hsame.mp hret.2, .inr hret.1⟩,
        fun hret => ⟨hret.2.resolve_left hzero, hsame.mpr hret.1⟩⟩

end Loop

/-- The packets are a cut of the reply into parts that are not empty. -/
structure IsCut (segments : List Bytes) (reply : Reply) : Prop where
  whole : segments.flatten = reply.encode
  nonempty : ∀ segment ∈ segments, segment ≠ []

/-- No reply is empty. -/
theorem encode_ne_nil (reply : Reply) : reply.encode ≠ [] := by
  rw [encode_eq, frontLines, unlines_cons]
  simp

/-- The first piece of a reply is a beginning of it. -/
theorem IsCut.cons {segments : List Bytes} {reply : Reply} (h : IsCut segments reply) :
    ∃ segment rest, segments = segment :: rest ∧ segment <+: reply.encode := by
  cases segments with
  | nil => exact absurd h.whole.symm (encode_ne_nil reply)
  | cons segment rest => exact ⟨segment, rest, rfl, rest.flatten, h.whole⟩

/-- `Get` returns true, and the body behind what was in `response`. -/
def GetsBody (garbage : Nat) (exchange : Exchange) (host path : Bytes) (port : Nat) (c : HttpClient)
    (response body : Bytes) : Prop :=
  ∃ c', get garbage exchange host path port c response = .ok (true, response ++ body, c')

/-- **What `Get` returns**, for every client, whatever it has been used for: the body of the reply
    just under the condition. -/
theorem get_returns_body_iff (reply : Reply) (garbage : Nat) (exchange : Exchange)
    (host path : Bytes) (port : Nat) {c : HttpClient} (hreached : c.Reached) (response : Bytes)
    (hcut : IsCut exchange.segments reply) (hconnect : exchange.connect host port = true)
    (hsend : exchange.send (generateRequest (getRequest host path c.request)) = true) :
    GetsBody garbage exchange host path port c response reply.body ↔
      ReturnsBody garbage c exchange.segments reply.body := by
  obtain ⟨packet, packets, hsegments, hprefix⟩ := hcut.cons
  obtain ⟨c', response', hloop, hiff⟩ := getLoop_iff hprefix hreached.kept garbage
    (getRequest host path c.request) packets response reply.body
  have hget : get garbage exchange host path port c response
      = .ok (c'.mRequestSuccess, response', c') := by
    rw [get]
    simp only [hconnect, hsend, Bool.and_self, if_true, hsegments]
    exact (congrArg (· >>= _) hloop).trans rfl
  rw [hsegments, ← hiff, GetsBody, hget]
  constructor
  · rintro ⟨c₁, hc₁⟩
    obtain ⟨hsuccess, hrest⟩ := Prod.mk.inj (Except.ok.inj hc₁)
    exact ⟨hsuccess, (Prod.mk.inj hrest).1⟩
  · rintro ⟨hsuccess, hresponse⟩
    exact ⟨c', by rw [hsuccess, hresponse]⟩

/-- **A new client** returns the body, whatever the indeterminate value is, if there is none and the
    first packet does not stop before the value of Content-Length. -/
theorem returnsBody_new {reply : Reply} {packet : Bytes} (h : packet <+: reply.encode)
    (packets : List Bytes) : (∀ garbage, ReturnsBody garbage .new (packet :: packets) reply.body) ↔
      reply.body = [] ∧ ¬ EndsInLength reply packet := by
  have htakes : TakesChunks .new packet → (∀ garbage, foundLength garbage .new packet = 0) ∧
      ∃ rest, packet = reply.statusLine ++ newline :: rest := by
    rintro (hflag | ⟨hnone, hfound⟩)
    · cases hflag
    · refine ⟨fun garbage => by rw [foundLength, hnone]; rfl, ?_⟩
      exact statusLine_of_stored h (OrdMap.mem_of_find? hfound) (by decide)
  have hzero : ∀ garbage, ReturnsBody garbage .new (packet :: packets) reply.body →
      foundLength garbage .new packet = 0 ∧ reply.body = [] := by
    intro garbage hreturns
    rw [ReturnsBody] at hreturns
    split_ifs at hreturns with hchunks hlength
    · obtain ⟨-, rest, hrest⟩ := htakes hchunks
      obtain ⟨stop, hreads, -⟩ := hreturns
      exact ⟨hlength, hreads.status hrest⟩
    · exact absurd ((htakes hchunks).1 garbage) hlength
    · exact ⟨hreturns.2.resolve_right (by decide), hreturns.1⟩
  constructor
  · intro hall
    obtain ⟨-, hbody⟩ := hzero 0 (hall 0)
    refine ⟨hbody, fun hends => ?_⟩
    -- The indeterminate value may be any other than 0.
    obtain ⟨hone, -⟩ := hzero 1 (hall 1)
    rw [foundLength_empty hbody h, if_pos hends] at hone
    cases hone
  · rintro ⟨hbody, hends⟩ garbage
    have hlength : foundLength garbage .new packet = 0 := by
      rw [foundLength_empty hbody h, if_neg hends]
    rw [ReturnsBody, hbody, if_pos hlength]
    split_ifs with hchunks
    · obtain ⟨-, rest, rfl⟩ := htakes hchunks
      exact ⟨.last, readsChunks_status reply rest, fun hno => by cases hno⟩
    · exact ⟨rfl, .inl hlength⟩

/-! ### Examples -/

/-- A reply with a body of one byte. -/
def oneByteReply : Reply where
  status := ascii "200 OK"
  before := []
  framing := .sized (ascii "Content-Length") (.spaced (ascii "1")) [0x78]
  after := []
  status_line := by decide
  fields := by simp
  framed := ⟨by decide, by decide, forall_mem_of_all (by decide), by decide⟩

/-- A body of one byte, in a single packet, is not returned. -/
theorem get_loses_body :
    IsCut [oneByteReply.encode] oneByteReply ∧
    ¬ GetsBody 0 ⟨fun _ _ => true, fun _ => true, [oneByteReply.encode]⟩ (ascii "host")
      (ascii "/") 80 .new [] oneByteReply.body := by
  refine ⟨⟨by simp, by decide⟩, fun h => ?_⟩
  obtain ⟨c, hc⟩ := h
  have hresult : (get 0 ⟨fun _ _ => true, fun _ => true, [oneByteReply.encode]⟩ (ascii "host")
      (ascii "/") 80 .new []).map (fun r => (r.1, r.2.1)) = .ok (false, []) := by
    decide +kernel
  rw [hc] at hresult
  simp [Except.map] at hresult

/-- The size `2` is hexadecimal. -/
theorem two_digits : ∀ c ∈ ascii "2", isxdigit c = true := forall_mem_of_all (by decide)

/-- It is the length of the body. -/
theorem two_value : hexValue (ascii "2") = (ascii "hi").length := by decide

/-- A chunk of two bytes. -/
def hiChunk : Chunk where
  size := ascii "2"
  data := ascii "hi"
  digits := two_digits
  value := two_value
  nonempty := List.cons_ne_nil _ _

/-- Its reply has no other header. -/
def hiFraming : Framing :=
  .chunked (ascii "Transfer-Encoding") (.spaced (ascii "chunked")) [hiChunk] 0

/-- The status is one line. -/
theorem hi_status : (0x0A : UInt8) ∉ ascii "200 OK" := by decide

/-- There are no headers to go wrong. -/
theorem hi_fields : ∀ field : HeaderField, field ∈ ([] : List HeaderField) ++ [] →
    field.Valid ∧ field.1.map tolower ∉ framingNames := by
  simp

/-- The framing is valid. -/
theorem hi_framed : hiFraming.Valid := ⟨by decide, by decide⟩

def hiReply : Reply where
  status := ascii "200 OK"
  before := []
  framing := hiFraming
  after := []
  status_line := hi_status
  fields := hi_fields
  framed := hi_framed

/-- The reply comes in one packet. -/
def hiExchange : Exchange := ⟨fun _ _ => true, fun _ => true, [hiReply.encode]⟩

/-- The client behind one more call that gets this reply. -/
def afterHi (c : HttpClient) : HttpClient :=
  match get 0 hiExchange (ascii "host") (ascii "/") 80 c [] with
  | .ok (_, _, c') => c'
  | .error _ => c

/-- A client that has received this reply can be reached. -/
theorem HttpClient.Reached.afterHi {c : HttpClient} (h : c.Reached) : (afterHi c).Reached := by
  unfold Icl.Protocol.afterHi
  split
  case h_1 hget => exact h.get hget
  case h_2 => exact h

/-- A client that has got the reply three times. -/
def usedThrice : HttpClient := afterHi (afterHi (afterHi .new))

/-- What it has kept begins with the chunk of the first reply. -/
def keptChunks : Bytes := ascii "\r\n\r\n" ++ hiReply.encode ++ hiReply.encode

/-- What is left of the chunk after three replies. -/
theorem usedThrice_kept :
    usedThrice.mCurrentChunk = ascii "2\r\nhi\r\n0" ++ keptChunks := by
  decide +kernel

/-- **The fourth call returns the body**, which is that of the first reply. -/
theorem get_returns_body_usedThrice :
    GetsBody 0 hiExchange (ascii "host") (ascii "/") 80 usedThrice [] hiReply.body := by
  have hreached : usedThrice.Reached := HttpClient.Reached.new.afterHi.afterHi.afterHi
  have hcut : IsCut hiExchange.segments hiReply := ⟨by simp [hiExchange], by decide⟩
  have hsend : ∀ data, hiExchange.send data = true := fun _ => rfl
  refine (get_returns_body_iff hiReply 0 hiExchange (ascii "host") (ascii "/") 80 hreached [] hcut
    rfl (hsend _)).mpr ?_
  have htakes : TakesChunks usedThrice hiReply.encode := .inl (by decide +kernel)
  have hzero : foundLength 0 usedThrice hiReply.encode = 0 := by decide +kernel
  have hbody : hiReply.body = ascii "hi" ++ [] := by decide
  -- The size of a chunk, its data, and the size of the last one.
  have hfirst : sizeLine (ascii "2\r\nhi\r\n0" ++ keptChunks ++ hiReply.encode)
      = some (2, ascii "hi" ++ (crlf ++ (ascii "0" ++ keptChunks ++ hiReply.encode))) := by
    decide +kernel
  have hlast : sizeLine (ascii "0" ++ keptChunks ++ hiReply.encode)
      = some (0, (keptChunks ++ hiReply.encode).drop 2) := by
    decide +kernel
  show ReturnsBody 0 usedThrice [hiReply.encode] hiReply.body
  rw [ReturnsBody, if_pos htakes, if_pos hzero, usedThrice_kept, hbody]
  refine ⟨.last, .size (by decide +kernel) hfirst (.next (by decide) ⟨?_, ?_⟩
    (.size (by decide +kernel) hlast .last)), fun hno => by cases hno⟩
  · decide +kernel
  · decide +kernel

end Icl.Protocol
