import Icl.Protocol.HttpSegments
import Icl.Format.Http

namespace Icl.Http

open Icl.Cxx Icl.Format Icl.Transition

/-!
# A reply leads a response to its end

What a `Response` makes of a reply of HTTP/1.1, with a Content-Length or in chunks.

* `Takes` — bytes that lead a response from one state to another;
* `Answers` — the replies that the class can make out;
* `takes_statusLine`, `takes_field`, `takes_headerEnd` — the header;
* `takes_sized`, `takes_chunk`, `takes_lastChunk` — the body;
* `takes_reply` — a reply leads a new response to its end.
-/

/-! ### Bytes for a response -/

namespace Response

/-- The bytes lead from one state to the other, whatever comes behind them. -/
def Takes (s : Response × Handed) (bytes : Bytes) (s' : Response × Handed) : Prop :=
  s.1.Sane → s'.1.Sane ∧ ∀ rest, takeBytes s (bytes ++ rest) = takeBytes s' rest

/-- Taking nothing changes nothing. -/
theorem Takes.refl (s : Response × Handed) : Takes s [] s := fun hsane => ⟨hsane, fun _ => rfl⟩

/-- What is taken in two pieces is taken in one. -/
theorem Takes.trans {s s' s'' : Response × Handed} {bytes bytes' : Bytes} (h : Takes s bytes s')
    (h' : Takes s' bytes' s'') : Takes s (bytes ++ bytes') s'' := by
  intro hsane
  obtain ⟨hsane', htakes⟩ := h hsane
  obtain ⟨hsane'', htakes'⟩ := h' hsane'
  refine ⟨hsane'', fun rest => ?_⟩
  rw [List.append_assoc, htakes, htakes']

/-- What is kept of a line. -/
def lineText (line : Bytes) : Bytes := line.filter (· ≠ 0x0D)

/-- A line is put behind what the buffer holds and handled at its line feed. -/
theorem accumulate_line (r : Response) {line : Bytes} (hline : newline ∉ line) (rest : Bytes) :
    r.accumulate (line ++ newline :: rest)
      = ((endLine { r with m_LineBuf := r.m_LineBuf ++ lineText line }).1,
        (endLine { r with m_LineBuf := r.m_LineBuf ++ lineText line }).2, rest) := by
  induction line generalizing r with
  | nil =>
    rw [List.nil_append, accumulate, if_pos rfl, lineText, List.filter_nil, List.append_nil]
  | cons c line ih =>
    obtain ⟨hc, hline⟩ := not_or.mp (List.mem_cons.not.mp hline)
    have hne : c ≠ newline := fun heq => hc heq.symm
    rw [List.cons_append, accumulate, if_neg hne, ih _ hline, addChar, lineText, lineText]
    by_cases hcr : c = 0x0D
    · rw [if_neg (not_not_intro hcr), List.filter_cons_of_neg (by simp [hcr])]
    · rw [if_pos hcr, List.filter_cons_of_pos (by simp [hcr]), List.append_assoc]
      rfl

/-- **A line.** -/
theorem takes_line {r : Response} (hline : r.readsLine = true) (hbuf : r.m_LineBuf = [])
    (handed : Handed) {line : Bytes} (hnl : newline ∉ line) :
    Takes (r, handed) (line ++ [newline]) ((endLine { r with m_LineBuf := lineText line }).1,
      handed.addAll (endLine { r with m_LineBuf := lineText line }).2) := by
  intro hsane
  have hsane' : Sane { r with m_LineBuf := lineText line } :=
    ⟨hsane.unread, hsane.chunked, hsane.chunk, hsane.length, hsane.left⟩
  refine ⟨endLine_sane hsane', fun rest => ?_⟩
  rw [List.append_assoc, List.singleton_append, accumulate_takeBytes hline, accumulate_line r hnl,
    hbuf, List.nil_append]

/-- A carriage return is no line feed. -/
theorem newline_not_mem_cr : newline ∉ [(0x0D : UInt8)] := by decide

/-- **Data of the body**, all of which is used. -/
theorem takes_body {r : Response} (hbody : r.mState = .body) (handed : Handed) {data : Bytes}
    (hdata : data ≠ []) (hcount : ∀ count : Int, data.length ≤ count →
      r.bodyCount count = data.length) :
    Takes (r, handed) data ((r.advance data.length).1,
      handed.addAll (.responseData data :: (r.advance data.length).2)) := by
  intro hsane
  have hpos : 1 ≤ (data.length : Int) := by
    have := List.length_pos_of_ne_nil hdata
    omega
  have hone := hcount data.length le_rfl
  refine ⟨?_, fun rest => ?_⟩
  · have hadvance := (advance_sane hsane hbody hpos (by rw [hone]; omega)).1
    rwa [hone] at hadvance
  · have hall := hcount (data ++ rest).length (by simp)
    rw [processData_takeBytes hsane hbody handed (by simp [hdata]), processData_eq, hall,
      if_neg (by omega), ok_bind, Int.toNat_natCast]
    dsimp only
    rw [List.take_left, List.drop_left]

end Response

/-! ### Replies that can be made out -/

/-- A name without blanks and control characters. -/
def IsToken (name : Bytes) : Prop := name ≠ [] ∧ ∀ c ∈ name, 0x21 ≤ c ∧ c ≠ 0x3A

/-- The body is one that `Response` can tell the end of: an empty one of a known length is over
    only when more comes, the coding is compared with `chunked`, and lengths are of type `int`. -/
def Fits : Framing → Prop
  | .sized _ _ body => body ≠ [] ∧ body.length < 2 ^ 31
  | .chunked _ coding chunks _ => coding.word = ascii "chunked" ∧ coding.trail = [] ∧
      ∀ chunk ∈ chunks, chunk.data.length < 2 ^ 31

/-- The status says that there is a body. -/
def StatusWithBody (status : Bytes) : Prop :=
  ∃ code reason, status = code ++ 0x20 :: reason ∧ code ≠ [] ∧ Digits code ∧
    200 ≤ decimalValue code ∧ decimalValue code < 1000 ∧ decimalValue code ≠ 204 ∧
    decimalValue code ≠ 304

/-- A reply with a body to a request. -/
structure Answers (method : Bytes) (reply : Reply) : Prop where
  method : method ≠ ascii "HEAD"
  status : StatusWithBody reply.status
  names : ∀ field ∈ reply.before ++ reply.after, IsToken field.1
  fits : Fits reply.framing

/-! ### Numbers and texts -/

/-- The carriage returns are dropped piece by piece. -/
theorem lineText_append (line line' : Bytes) :
    Response.lineText (line ++ line') = Response.lineText line ++ Response.lineText line' := by
  rw [Response.lineText, List.filter_append]
  rfl

/-- A text without one is kept as it is. -/
theorem lineText_of_not_mem {line : Bytes} (h : 0x0D ∉ line) : Response.lineText line = line :=
  List.filter_eq_self.mpr fun _ hc => decide_eq_true (ne_of_mem_of_not_mem hc h)

/-- A text without a zero comes before what `c_str` makes of the rest. -/
theorem cStr_append {s : Bytes} (h : 0 ∉ s) (s' : Bytes) : cStr (s ++ s') = s ++ cStr s' :=
  List.takeWhile_append_of_pos fun _ hc => decide_eq_true (ne_of_mem_of_not_mem hc h)

/-- No digit is a blank or a sign. -/
theorem isxdigit_first {c : UInt8} (h : isxdigit c = true) :
    isspace c = false ∧ c ≠ 0x2D ∧ c ≠ 0x2B ∧ c ≠ 0x0D ∧ c ≠ 0 ∧ c ≠ newline := by
  have hall : ∀ n < 256, (!isxdigit (UInt8.ofNat n) || (!isspace (UInt8.ofNat n) &&
      (UInt8.ofNat n != 0x2D && (UInt8.ofNat n != 0x2B && (UInt8.ofNat n != 0x0D &&
        (UInt8.ofNat n != 0 && UInt8.ofNat n != newline)))))) = true := by decide +kernel
  have hc := forall_byte (p := fun c => !isxdigit c || (!isspace c && (c != 0x2D && (c != 0x2B &&
    (c != 0x0D && (c != 0 && c != newline)))))) hall c
  simpa [h] using hc

/-- A decimal digit is a hexadecimal one. -/
theorem isxdigit_of_isdigit {c : UInt8} (h : isdigit c = true) : isxdigit c = true := by
  rw [isxdigit, h]
  rfl

/-- **A number that begins with a digit is read by `strtol`**, bounded by `LONG_MAX`. -/
theorem strtol_first (hex : Bool) {c : UInt8} (hc : isxdigit c = true) (cs : Bytes) :
    strtol hex (c :: cs) = min (leadingNumber hex (c :: cs) : Int) (2 ^ 63 - 1) := by
  obtain ⟨hspace, hminus, hplus, -⟩ := isxdigit_first hc
  rw [strtol, List.dropWhile_cons_of_neg (by simp [hspace])]
  split
  · exact absurd (List.cons.inj ‹_›).1 hminus
  · exact absurd (List.cons.inj ‹_›).1 hplus
  · rfl

/-- `atoi`, on digits and what follows. -/
theorem atoi_digits {digits rest : Bytes} (hne : digits ≠ []) (hdigits : Digits digits)
    (hrest : ∀ c ∈ rest.head?, isdigit c = false) (hlt : decimalValue digits < 2 ^ 31) :
    atoi (digits ++ rest) = decimalValue digits := by
  have htake : (digits ++ rest).takeWhile isdigit = digits := by
    rw [List.takeWhile_append_of_pos hdigits]
    cases rest with
    | nil => simp
    | cons c rest =>
      have hc := hrest c rfl
      rw [List.takeWhile_cons_of_neg (by simp [hc]), List.append_nil]
  have hnumber : leadingNumber false (digits ++ rest) = decimalValue digits := by
    rw [leadingNumber, if_neg Bool.false_ne_true, htake]
    rfl
  obtain ⟨d, ds, rfl⟩ := List.exists_cons_of_ne_nil hne
  have hd := isxdigit_of_isdigit (hdigits d List.mem_cons_self)
  rw [atoi, List.cons_append, strtol_first false hd, ← List.cons_append, hnumber,
    min_eq_left (by omega)]
  exact Response.toInt_of_lt (by omega) (by omega)

/-- `strtol`, on the digits of a chunk length. -/
theorem strtol_hex {digits : Bytes} (hne : digits ≠ []) (hdigits : ∀ c ∈ digits, isxdigit c = true)
    (hlt : hexValue digits < 2 ^ 31) : toInt (strtol true digits) = hexValue digits := by
  have hprefix : Protocol.skipHexPrefix digits = digits := by
    rw [Protocol.skipHexPrefix.eq_def]
    split
    · exact absurd (hdigits 0x78 (by simp)) (by decide)
    · exact absurd (hdigits 0x58 (by simp)) (by decide)
    · rfl
  have hnumber : leadingNumber true digits = hexValue digits := by
    rw [leadingNumber, if_pos rfl, hprefix, List.takeWhile_eq_self_iff.mpr hdigits]
  obtain ⟨d, ds, rfl⟩ := List.exists_cons_of_ne_nil hne
  rw [strtol_first true (hdigits d List.mem_cons_self), hnumber, min_eq_left (by omega)]
  exact Response.toInt_of_lt (by omega) (by omega)

/-! ### The header -/

namespace Response

/-- The header is being read: what has been read of it, the field that is still accumulated among
    it. -/
structure ReadsHeader (method : Bytes) (status : Int) (headers : List (Bytes × Bytes))
    (r : Response) : Prop where
  state : r.mState = .headers
  buf : r.m_LineBuf = []
  unread : r.m_BytesRead = 0
  method : r.m_Method = method
  status : r.m_Status = status
  headers : r.flushHeader.m_Headers = headers

/-- The status is the second word. -/
theorem processStatusLine_status (r : Response) {line code rest : Bytes} (hcode : 0x20 ∉ code)
    (hline : cStr line = ascii "HTTP/1.1" ++ 0x20 :: (code ++ 0x20 :: rest)) (hne : code ≠ []) :
    (r.processStatusLine line).m_Status = atoi code := by
  have hword : ∀ word : Bytes, 0x20 ∉ word → ∀ after : Bytes,
      (word ++ 0x20 :: after).takeWhile (· != 0x20) = word ∧
      (word ++ 0x20 :: after).dropWhile (· != 0x20) = 0x20 :: after := by
    intro word hword after
    have hall : ∀ c ∈ word, (c != 0x20) = true := fun c hc => by
      simpa using ne_of_mem_of_not_mem hc hword
    rw [List.takeWhile_append_of_pos hall, List.dropWhile_append_of_pos hall]
    simp
  -- The version and the blanks are passed over; the code is what stands there then.
  obtain ⟨c, cs, rfl⟩ := List.exists_cons_of_ne_nil hne
  have hfirst : c ≠ 0x20 := fun heq => hcode (heq ▸ List.mem_cons_self)
  have hversion := hword (ascii "HTTP/1.1") (by decide) (c :: cs ++ 0x20 :: rest)
  have hstart : (ascii "HTTP/1.1" ++ 0x20 :: (c :: cs ++ 0x20 :: rest)).dropWhile (· == 0x20)
      = ascii "HTTP/1.1" ++ 0x20 :: (c :: cs ++ 0x20 :: rest) :=
    List.dropWhile_cons_of_neg (by decide)
  have hskip : (0x20 :: (c :: cs ++ 0x20 :: rest)).dropWhile (· == 0x20)
      = c :: cs ++ 0x20 :: rest := by
    rw [List.dropWhile_cons_of_pos (by decide), List.cons_append,
      List.dropWhile_cons_of_neg (by simpa using hfirst)]
  show atoi _ = _
  rw [hline, hstart, hversion.2, hskip, (hword _ hcode rest).1]

/-- **The status line.** -/
theorem takes_statusLine (method : Bytes) {status : Bytes} (hline : newline ∉ status)
    (hstatus : StatusWithBody status) : ∃ r, ∃ n : ℕ,
      Takes (.new method, .none) (ascii "HTTP/1.1 " ++ status ++ crlf) (r, .none) ∧
      r.ReadsHeader method n [] ∧ 200 ≤ n ∧ n ≠ 204 ∧ n ≠ 304 := by
  obtain ⟨code, reason, rfl, hne, hdigits, hmin, hmax, hno, hnot⟩ := hstatus
  have hnl : newline ∉ ascii "HTTP/1.1 " ++ (code ++ 0x20 :: reason) ++ [0x0D] := by
    intro hmem
    rcases List.mem_append.mp hmem with hmem | hmem
    · rcases List.mem_append.mp hmem with hmem | hmem
      · exact absurd hmem (by decide)
      · exact hline hmem
    · exact absurd hmem (by decide)
  have htakes := takes_line (r := new method) rfl rfl .none hnl
  have hcode : ∀ {d : UInt8}, isdigit d = false → d ∉ code := fun {d} hd hmem => by
    rw [hdigits d hmem] at hd
    cases hd
  -- Neither the version nor the code holds a carriage return or a zero.
  have htext : cStr (lineText (ascii "HTTP/1.1 " ++ (code ++ 0x20 :: reason) ++ [0x0D]))
      = ascii "HTTP/1.1" ++ 0x20 :: (code ++ 0x20 :: cStr (lineText reason)) := by
    have hfront : ascii "HTTP/1.1 " ++ (code ++ 0x20 :: reason) ++ [0x0D]
        = (ascii "HTTP/1.1 " ++ (code ++ [0x20])) ++ (reason ++ [0x0D]) := by simp
    have hplain : ∀ {d : UInt8}, isdigit d = false → d ≠ 0x20 → d ∉ ascii "HTTP/1.1 " →
        d ∉ ascii "HTTP/1.1 " ++ (code ++ [0x20]) := by
      intro d hd hspace hversion hmem
      rcases List.mem_append.mp hmem with hmem | hmem
      · exact hversion hmem
      · rcases List.mem_append.mp hmem with hmem | hmem
        · exact hcode hd hmem
        · exact hspace (List.mem_singleton.mp hmem)
    have hcr : lineText (reason ++ [0x0D]) = lineText reason := by
      rw [lineText_append]
      exact List.append_nil _
    rw [hfront, lineText_append, hcr,
      lineText_of_not_mem (hplain (by decide) (by decide) (by decide)),
      cStr_append (hplain (by decide) (by decide) (by decide)), List.append_assoc,
      List.append_assoc]
    rfl
  have hvalue : atoi code = decimalValue code := by
    have hend : ∀ c ∈ ([] : Bytes).head?, isdigit c = false := by simp
    have h := atoi_digits hne hdigits hend (by omega)
    rwa [List.append_nil] at h
  rw [List.append_assoc, List.singleton_append] at htakes
  have hstatus := processStatusLine_status { new method with
    m_LineBuf := lineText (ascii "HTTP/1.1 " ++ (code ++ 0x20 :: reason) ++ [0x0D]) }
    (hcode (by decide)) htext hne
  exact ⟨_, decimalValue code, htakes, ⟨rfl, rfl, rfl, rfl, hstatus.trans hvalue, rfl⟩, hmin, hno,
    hnot⟩

/-- `FlushHeader` only stores what has been accumulated. -/
theorem flushHeader_eq (r : Response) :
    r.flushHeader = { r with m_Headers := r.flushHeader.m_Headers, m_HeaderAccum := [] } := by
  by_cases hnone : r.m_HeaderAccum = []
  · obtain ⟨⟩ := r
    cases hnone
    rfl
  · rw [flushHeader, if_neg hnone]

/-- Storing the header does not look at the line buffer. -/
theorem flushHeader_lineBuf (r : Response) (buf : Bytes) :
    flushHeader { r with m_LineBuf := buf } = { r.flushHeader with m_LineBuf := buf } := by
  by_cases hnone : r.m_HeaderAccum = []
  · rw [flushHeader, flushHeader, if_pos hnone, if_pos hnone]
  · rw [flushHeader, flushHeader, if_neg hnone, if_neg hnone]

/-- A header line is handled and the buffer cleared. -/
theorem endLine_headers {r : Response} (h : r.mState = .headers) :
    r.endLine = ({ (r.processHeaderLine r.m_LineBuf).1 with m_LineBuf := [] },
      (r.processHeaderLine r.m_LineBuf).2) := by
  rw [endLine, processLine, h]

/-- The value that is stored for a field. -/
def fieldValue (text : Bytes) : Bytes :=
  (cStr (lineText text)).dropWhile fun c => c == 0x20 || c == 0x09

/-- The map of the headers, with one more field. -/
def storeField (headers : List (Bytes × Bytes)) (field : HeaderField) : List (Bytes × Bytes) :=
  OrdMap.insertOrAssign (field.1.map tolower) (fieldValue field.2) headers

/-- `c_str` twice is `c_str` once. -/
theorem cStr_cStr (s : Bytes) : cStr (cStr s) = cStr s := List.takeWhile_idem

/-- **A field.** -/
theorem takes_field {method : Bytes} {status : Int} {headers : List (Bytes × Bytes)} {r : Response}
    (h : r.ReadsHeader method status headers) (handed : Handed) {field : HeaderField}
    (hvalid : field.Valid) (htoken : IsToken field.1) :
    ∃ r', Takes (r, handed) field.encode (r', handed) ∧
      r'.ReadsHeader method status (storeField headers field) := by
  obtain ⟨hne, hchars⟩ := htoken
  have hout : ∀ {d : UInt8}, d < 0x21 → d ∉ field.1 := fun {d} hd hmem =>
    absurd (hchars d hmem).1 (not_le.mpr hd)
  have hcolon : ∀ c ∈ field.1, (c != 0x3A) = true := fun c hc => by simpa using (hchars c hc).2
  have hread : r.readsLine = true := by rw [readsLine, h.state]
  have htext : lineText field.line = field.1 ++ 0x3A :: lineText field.2 := by
    have hfront : field.line = (field.1 ++ [0x3A]) ++ (field.2 ++ [0x0D]) := by
      simp [HeaderField.line]
    have hcr : lineText (field.2 ++ [0x0D]) = lineText field.2 := by
      rw [lineText_append]
      exact List.append_nil _
    rw [hfront, lineText_append, hcr, lineText_append, lineText_of_not_mem (hout (by decide)),
      List.append_assoc]
    rfl
  have hstr : cStr (lineText field.line) = field.1 ++ 0x3A :: cStr (lineText field.2) := by
    rw [htext, cStr_append (hout (by decide))]
    rfl
  have hpne : cStr (lineText field.line) ≠ [] := by
    rw [hstr]
    simp
  have hspace : (cStr (lineText field.line)).head?.any isspace = false := by
    obtain ⟨c, cs, hname⟩ := List.exists_cons_of_ne_nil hne
    have hc := (hchars c (by rw [hname]; exact List.mem_cons_self)).1
    rw [hstr, hname]
    show isspace c = false
    simp only [isspace, Bool.or_eq_false_iff, beq_eq_false_iff_ne, Bool.and_eq_false_iff,
      decide_eq_false_iff_not, not_le]
    refine ⟨?_, .inr (lt_of_lt_of_le (by decide) hc)⟩
    rintro rfl
    exact absurd hc (by decide)
  -- The line does not begin with a blank, so it is a new header and the one before it is stored.
  have hprocess : endLine { r with m_LineBuf := lineText field.line }
      = ({ r.flushHeader with
          m_HeaderAccum := cStr (lineText field.line), m_LineBuf := [] }, []) := by
    have hstate : mState { r with m_LineBuf := lineText field.line } = .headers := h.state
    rw [endLine_headers hstate, processHeaderLine]
    dsimp only
    rw [if_neg (by rw [htext]; simp), hspace, if_neg Bool.false_ne_true, flushHeader_lineBuf]
  have htakes := takes_line hread h.buf handed hvalid.line
  rw [hprocess] at htakes
  refine ⟨_, htakes, ?_⟩
  have hflush := r.flushHeader_eq
  refine ⟨?_, rfl, ?_, ?_, ?_, ?_⟩
  · exact (congrArg mState hflush).trans h.state
  · exact (congrArg m_BytesRead hflush).trans h.unread
  · exact (congrArg m_Method hflush).trans h.method
  · exact (congrArg m_Status hflush).trans h.status
  · rw [flushHeader, if_neg hpne]
    dsimp only
    rw [cStr_cStr, hstr, h.headers, List.takeWhile_append_of_pos hcolon,
      List.dropWhile_append_of_pos hcolon]
    simp [storeField, fieldValue]

/-- **Fields.** -/
theorem takes_fields {method : Bytes} {status : Int} {headers : List (Bytes × Bytes)} {r : Response}
    (h : r.ReadsHeader method status headers) (handed : Handed) {fields : List HeaderField}
    (hfields : ∀ field ∈ fields, field.Valid ∧ IsToken field.1) :
    ∃ r', Takes (r, handed) (fields.flatMap HeaderField.encode) (r', handed) ∧
      r'.ReadsHeader method status (fields.foldl storeField headers) := by
  induction fields generalizing headers r with
  | nil => exact ⟨r, .refl _, h⟩
  | cons field fields ih =>
    obtain ⟨⟨hvalid, htoken⟩, hfields⟩ := List.forall_mem_cons.mp hfields
    obtain ⟨r₁, htakes, h₁⟩ := takes_field h handed hvalid htoken
    obtain ⟨r₂, htakes', h₂⟩ := ih h₁ hfields
    exact ⟨r₂, htakes.trans htakes', h₂⟩

/-- **The empty line.** -/
theorem takes_headerEnd {method : Bytes} {n : ℕ} {headers : List (Bytes × Bytes)} {r : Response}
    (h : r.ReadsHeader method n headers) (handed : Handed) (hmethod : method ≠ ascii "HEAD")
    (hn : 200 ≤ n ∧ n ≠ 204 ∧ n ≠ 304) :
    ∃ r', Takes (r, handed) crlf (r', handed.add .responseBegin) ∧ r'.m_LineBuf = [] ∧
      r'.m_BytesRead = 0 ∧
      (OrdMap.find? (ascii "transfer-encoding") headers = some (ascii "chunked") →
        r'.mState = .chunkLen ∧ r'.m_Chunked = true) ∧
      ∀ value, OrdMap.find? (ascii "transfer-encoding") headers = none →
        OrdMap.find? (ascii "content-length") headers = some value →
        r'.mState = .body ∧ r'.m_Chunked = false ∧ r'.m_Length = atoi value := by
  obtain ⟨hmin, hno, hnot⟩ := hn
  have hread : r.readsLine = true := by rw [readsLine, h.state]
  have hflush := r.flushHeader_eq
  have hstatus : r.flushHeader.m_Status = n := (congrArg m_Status hflush).trans h.status
  have hflushMethod : r.flushHeader.m_Method = method := (congrArg m_Method hflush).trans h.method
  have hcontinue : r.flushHeader.m_Status ≠ statusContinue := by
    rw [hstatus, statusContinue]
    omega
  have htakes := takes_line hread h.buf handed newline_not_mem_cr
  have hempty : lineText [0x0D] = r.m_LineBuf := h.buf.symm
  -- The blank line stores the last header and begins the body.
  have hprocess : endLine { r with m_LineBuf := lineText [0x0D] }
      = ({ r.flushHeader.beginBody.1 with m_LineBuf := [] }, [.responseBegin]) := by
    rw [hempty]
    have hend := endLine_headers h.state
    rw [h.buf, processHeaderLine, if_pos rfl] at hend
    dsimp only at hend
    rw [if_neg hcontinue] at hend
    exact hend
  rw [hprocess] at htakes
  have hte : r.flushHeader.getheader (ascii "transfer-encoding")
      = OrdMap.find? (ascii "transfer-encoding") headers := by
    rw [← h.headers]
    rfl
  have hcl : r.flushHeader.getheader (ascii "content-length")
      = OrdMap.find? (ascii "content-length") headers := by
    rw [← h.headers]
    rfl
  refine ⟨_, htakes, rfl, (congrArg m_BytesRead hflush).trans h.unread, fun hchunked => ?_,
    fun value hnone hvalue => ?_⟩
  · simp only [beginBody, hte, hchunked]
    exact ⟨rfl, rfl⟩
  · simp only [beginBody, hte, hnone]
    refine ⟨rfl, rfl, ?_⟩
    have hbody : ¬ ((n : Int) = statusNoContent ∨ (n : Int) = statusNotModified ∨
        (100 ≤ (n : Int) ∧ (n : Int) < 200) ∨ method = ascii "HEAD") := by
      simp only [statusNoContent, statusNotModified, hmethod, or_false]
      omega
    show r.flushHeader.beginLength false = atoi value
    rw [beginLength, hcl, hvalue, hstatus, hflushMethod, if_neg hbody]
    rfl

/-! ### The body -/

/-- **A body of a known length.** -/
theorem takes_sized {r : Response} (hbody : r.mState = .body) (hchunked : r.m_Chunked = false)
    (hunread : r.m_BytesRead = 0) (handed : Handed) {body : Bytes} (hne : body ≠ [])
    (hlt : body.length < 2 ^ 31) (hlength : r.m_Length = body.length) :
    ∃ r', Takes (r, handed) body (r', (handed.add (.responseData body)).add .responseComplete) ∧
      r'.completed = true := by
  have hknown : r.m_Length ≠ -1 := by omega
  have hcount : ∀ count : Int, body.length ≤ count → r.bodyCount count = body.length := by
    intro count hcount
    rw [bodyCount_known hchunked hknown, hlength, hunread]
    omega
  have htakes := takes_body hbody handed hne hcount
  have hall : r.m_Length ≠ -1 ∧ toInt (r.m_BytesRead + body.length) = r.m_Length := by
    rw [hunread, zero_add, toInt_of_lt (by omega) (by omega)]
    exact ⟨hknown, hlength.symm⟩
  rw [advance, if_neg (by simp [hchunked]), if_pos hall] at htakes
  exact ⟨_, htakes, rfl⟩

/-- Between two chunks. -/
structure BeforeChunk (r : Response) : Prop where
  state : r.mState = .chunkLen
  buf : r.m_LineBuf = []
  chunked : r.m_Chunked = true

/-- **A chunk length.** -/
theorem takes_chunkLen {r : Response} (h : r.BeforeChunk) (handed : Handed) {size : Bytes}
    (hne : size ≠ []) (hdigits : ∀ c ∈ size, isxdigit c = true) (hlt : hexValue size < 2 ^ 31) :
    Takes (r, handed) (size ++ crlf) ({ r with
      m_ChunkLeft := hexValue size
      mState := if hexValue size = 0 then .trailers else .body
      m_HeaderAccum := if hexValue size = 0 then [] else r.m_HeaderAccum }, handed) := by
  have hread : r.readsLine = true := by rw [readsLine, h.state]
  have hnot : ∀ {d : UInt8}, isxdigit d = false → d ∉ size := fun {d} hd hmem => by
    rw [hdigits d hmem] at hd
    cases hd
  have hnl : newline ∉ size ++ [0x0D] := by
    intro hmem
    rcases List.mem_append.mp hmem with hmem | hmem
    · exact hnot (by decide) hmem
    · exact absurd hmem (by decide)
  have htext : lineText (size ++ [0x0D]) = size := by
    rw [lineText_append, lineText_of_not_mem (hnot (by decide))]
    exact List.append_nil _
  have hstr : cStr size = size := List.takeWhile_eq_self_iff.mpr fun _ hc =>
    decide_eq_true (ne_of_mem_of_not_mem hc (hnot (by decide)))
  have htakes := takes_line hread h.buf handed hnl
  have hprocess : endLine { r with m_LineBuf := lineText (size ++ [0x0D]) } = ({ r with
      m_ChunkLeft := hexValue size
      mState := if hexValue size = 0 then .trailers else .body
      m_HeaderAccum := if hexValue size = 0 then [] else r.m_HeaderAccum }, []) := by
    have hstate : mState { r with m_LineBuf := size } = .chunkLen := h.state
    rw [htext, endLine, processLine, hstate]
    dsimp only
    rw [processChunkLenLine, hstr, strtol_hex hne hdigits hlt]
    dsimp only
    -- A size of zero is followed by the trailers, any other by its data.
    by_cases hzero : hexValue size = 0
    · rw [if_pos (by omega), if_pos hzero, if_pos hzero, ← h.buf]
    · rw [if_neg (by omega), if_neg hzero, if_neg hzero, ← h.buf]
  rw [hprocess, List.append_assoc, List.singleton_append] at htakes
  exact htakes

/-- **A chunk.** -/
theorem takes_chunk {r : Response} (h : r.BeforeChunk) (handed : Handed) (chunk : Chunk)
    (hlt : chunk.data.length < 2 ^ 31) :
    ∃ r', Takes (r, handed) chunk.encode (r', handed.add (.responseData chunk.data)) ∧
      r'.BeforeChunk := by
  have hpos := List.length_pos_of_ne_nil chunk.nonempty
  have hvalue := chunk.value
  have hne : chunk.size ≠ [] := by
    intro hnone
    rw [hnone] at hvalue
    rw [← hvalue] at hpos
    exact absurd hpos (by decide)
  have hlen := takes_chunkLen h handed hne chunk.digits (by omega)
  rw [if_neg (by omega), if_neg (by omega)] at hlen
  -- The data.
  obtain ⟨r₁, hr₁⟩ : ∃ r₁, r₁ = { r with
      m_ChunkLeft := (hexValue chunk.size : Int)
      mState := .body
      m_HeaderAccum := r.m_HeaderAccum } := ⟨_, rfl⟩
  rw [← hr₁] at hlen
  have hchunked : r₁.m_Chunked = true := by rw [hr₁]; exact h.chunked
  have hleft : r₁.m_ChunkLeft = chunk.data.length := by rw [hr₁, ← hvalue]
  have hbody : r₁.mState = .body := by rw [hr₁]
  have hdata := takes_body hbody handed chunk.nonempty fun count hcount => by
    rw [bodyCount_chunked hchunked, hleft]
    omega
  rw [advance, if_pos hchunked, hleft, sub_self, if_pos rfl] at hdata
  -- The line behind it.
  obtain ⟨r₂, hr₂⟩ : ∃ r₂, r₂ = { r₁ with
      m_BytesRead := toInt (r₁.m_BytesRead + chunk.data.length)
      m_ChunkLeft := 0
      mState := .chunkEnd } := ⟨_, rfl⟩
  rw [← hr₂] at hdata
  have hstate : r₂.mState = .chunkEnd := by rw [hr₂]
  have hbuf : r₂.m_LineBuf = [] := by rw [hr₂, hr₁]; exact h.buf
  have hend := takes_line (by rw [readsLine, hstate]) hbuf (handed.add (.responseData chunk.data))
    newline_not_mem_cr
  have hprocess : endLine { r₂ with m_LineBuf := lineText [0x0D] }
      = ({ r₂ with mState := .chunkLen }, []) := by
    have hempty : lineText [0x0D] = r₂.m_LineBuf := hbuf.symm
    rw [hempty, endLine, processLine, hstate, ← hbuf]
  rw [hprocess] at hend
  have hencode : chunk.encode = chunk.size ++ crlf ++ (chunk.data ++ ([0x0D] ++ [newline])) := by
    rw [Chunk.encode, List.append_assoc _ chunk.data]
    rfl
  rw [hencode]
  refine ⟨_, hlen.trans (hdata.trans hend), rfl, hbuf, ?_⟩
  show r₂.m_Chunked = true
  rw [hr₂]
  exact hchunked

/-- **The chunks are taken one after the other**, and their data is handed over in this order. -/
theorem takes_chunks {r : Response} (h : r.BeforeChunk) (handed : Handed) {chunks : List Chunk}
    (hlt : ∀ chunk ∈ chunks, chunk.data.length < 2 ^ 31) :
    ∃ r', Takes (r, handed) (chunks.flatMap Chunk.encode)
      (r', { handed with data := handed.data ++ chunks.flatMap Chunk.data }) ∧ r'.BeforeChunk := by
  induction chunks generalizing r handed with
  | nil => exact ⟨r, by simpa using Takes.refl (r, handed), h⟩
  | cons chunk chunks ih =>
    obtain ⟨hfirst, hlt⟩ := List.forall_mem_cons.mp hlt
    obtain ⟨r₁, htakes, h₁⟩ := takes_chunk h handed chunk hfirst
    obtain ⟨r₂, htakes', h₂⟩ := ih h₁ (handed.add (.responseData chunk.data)) hlt
    refine ⟨r₂, ?_, h₂⟩
    rw [List.flatMap_cons, List.flatMap_cons, ← List.append_assoc]
    exact htakes.trans htakes'

/-- Zeros have the value zero. -/
theorem hexValue_zeros (n : ℕ) : hexValue (List.replicate n 0x30) = 0 := by
  induction n with
  | zero => rfl
  | succ n ih => exact ih

/-- **The last chunk**, and the empty line. -/
theorem takes_lastChunk {r : Response} (h : r.BeforeChunk) (handed : Handed) (zeros : ℕ) :
    ∃ r', Takes (r, handed) (List.replicate (zeros + 1) 0x30 ++ crlf ++ crlf)
      (r', handed.add .responseComplete) ∧ r'.completed = true := by
  have hzero := hexValue_zeros (zeros + 1)
  have hdigits : ∀ c ∈ List.replicate (zeros + 1) (0x30 : UInt8), isxdigit c = true := by
    intro c hc
    rw [List.eq_of_mem_replicate hc]
    rfl
  have hlen := takes_chunkLen h handed (by simp) hdigits (by rw [hzero]; decide)
  rw [hzero, if_pos rfl, if_pos rfl] at hlen
  obtain ⟨r₁, hr₁⟩ : ∃ r₁, r₁ = { r with
      m_ChunkLeft := ((0 : ℕ) : Int)
      mState := .trailers
      m_HeaderAccum := [] } := ⟨_, rfl⟩
  rw [← hr₁] at hlen
  have hstate : r₁.mState = .trailers := by rw [hr₁]
  have hbuf : r₁.m_LineBuf = [] := by rw [hr₁]; exact h.buf
  have hend := takes_line (by rw [readsLine, hstate]) hbuf handed newline_not_mem_cr
  -- Behind the last chunk comes the blank line of the trailers.
  have hprocess : endLine { r₁ with m_LineBuf := lineText [0x0D] }
      = ({ r₁ with mState := .complete }, [.responseComplete]) := by
    have hempty : lineText [0x0D] = r₁.m_LineBuf := hbuf.symm
    rw [hempty, endLine, processLine, hstate]
    dsimp only
    rw [processTrailerLine, if_pos hbuf, finish, ← hbuf]
  rw [hprocess] at hend
  exact ⟨_, hlen.trans hend, rfl⟩

/-! ### The whole reply -/

/-- The value of the field that says how the body ends, when it is stored. -/
theorem fieldValue_padded (padded : PaddedText) (hne : padded.word ≠ [])
    (hword : ∀ c ∈ padded.word, 0x21 ≤ c) :
    fieldValue padded.text = padded.word ++ padded.trail := by
  have hblank : ∀ c ∈ padded.lead ++ padded.trail, c = 0x20 ∨ c = 0x09 := padded.blank
  have hnot : ∀ {d : UInt8}, d < 0x21 → d ≠ 0x20 → d ≠ 0x09 → d ∉ padded.text := by
    intro d hd hspace htab hmem
    rw [PaddedText.text, List.append_assoc] at hmem
    have hout : ∀ hmem : d ∈ padded.lead ++ padded.trail, False := fun hmem =>
      (hblank d hmem).elim hspace htab
    rcases List.mem_append.mp hmem with hmem | hmem
    · exact hout (List.mem_append_left _ hmem)
    · rcases List.mem_append.mp hmem with hmem | hmem
      · exact absurd (hword d hmem) (not_le.mpr hd)
      · exact hout (List.mem_append_right _ hmem)
  -- Neither the word nor the blanks hold a zero, a carriage return or a line feed.
  have hstr : cStr padded.text = padded.text := List.takeWhile_eq_self_iff.mpr fun _ hc =>
    decide_eq_true (ne_of_mem_of_not_mem hc (hnot (by decide) (by decide) (by decide)))
  have hlead : ∀ c ∈ padded.lead, (c == 0x20 || c == 0x09) = true := by
    intro c hc
    rcases hblank c (List.mem_append_left _ hc) with rfl | rfl <;> rfl
  obtain ⟨c, cs, hcs⟩ := List.exists_cons_of_ne_nil hne
  have hc := hword c (by rw [hcs]; exact List.mem_cons_self)
  have hfirst : ¬ (c == 0x20 || c == 0x09) = true := by
    intro h
    rcases (by simpa using h : c = 0x20 ∨ c = 0x09) with rfl | rfl
    · exact absurd hc (by decide)
    · exact absurd hc (by decide)
  rw [fieldValue, lineText_of_not_mem (hnot (by decide) (by decide) (by decide)), hstr,
    PaddedText.text, List.append_assoc, List.dropWhile_append_of_pos hlead, hcs, List.cons_append]
  exact List.dropWhile_cons_of_neg hfirst

/-- The map of the headers, at a name that other fields do not have. -/
theorem find?_storeField {name : Bytes} {before after : List HeaderField} {field : HeaderField}
    (hothers : ∀ other ∈ before ++ after, other.1.map tolower ≠ name) :
    OrdMap.find? name ((before ++ field :: after).foldl storeField [])
      = if field.1.map tolower = name then some (fieldValue field.2) else none := by
  -- Storing the fields is assigning them to a map one by one, and the name comes once.
  have hfold : (before ++ field :: after).foldl storeField []
      = ((before ++ field :: after).map fun f => (f.1.map tolower, fieldValue f.2)).foldl
          (fun m e => OrdMap.insertOrAssign e.1 e.2 m) [] := by
    rw [List.foldl_map]
    rfl
  have hnames : ∀ fields : List HeaderField, (∀ other ∈ fields, other ∈ before ++ after) →
      ∀ e ∈ (fields.map fun f => (f.1.map tolower, fieldValue f.2)).reverse, e.1 ≠ name := by
    intro fields hfields e he
    obtain ⟨other, hother, rfl⟩ := List.mem_map.mp (List.mem_reverse.mp he)
    exact hothers other (hfields other hother)
  rw [hfold, OrdMap.find?_foldl_insertOrAssign, List.map_append, List.map_cons,
    List.reverse_append, List.reverse_cons, List.append_assoc,
    OrdMap.find?_append_of_ne (hnames after fun _ => List.mem_append_right before),
    List.singleton_append, OrdMap.find?, OrdMap.find?,
    OrdMap.find?_of_ne (hnames before fun _ => List.mem_append_left after)]
  by_cases hname : field.1.map tolower = name
  · rw [if_pos hname, if_pos hname.symm]
    rfl
  · rw [if_neg hname, if_neg (Ne.symm hname)]
    rfl

/-- A name that is a token in lower case is one as it stands. -/
theorem isToken_of_lower {name lower : Bytes} (h : name.map tolower = lower) (hne : lower ≠ [])
    (hlower : ∀ c ∈ lower, 0x21 ≤ c ∧ c ≠ 0x3A) : IsToken name := by
  refine ⟨fun hnil => hne (by rw [← h, hnil]; rfl), fun c hc => ?_⟩
  have hchar := hlower (tolower c) (h ▸ List.mem_map_of_mem hc)
  rw [tolower] at hchar
  split_ifs at hchar with hupper
  · simp only [Bool.and_eq_true, decide_eq_true_eq] at hupper
    refine ⟨le_trans (by decide) hupper.1, ?_⟩
    rintro rfl
    exact absurd hupper.1 (by decide)
  · exact hchar

/-- **What follows the header**, when the header says so. -/
theorem takes_framing {framing : Framing} (hvalid : framing.Valid) (hfits : Fits framing)
    {headers : List (Bytes × Bytes)}
    (hheaders : ∀ name ∈ framingNames, OrdMap.find? name headers
      = if framing.field.1.map tolower = name then some (fieldValue framing.field.2) else none)
    {r : Response} (hbuf : r.m_LineBuf = []) (hunread : r.m_BytesRead = 0)
    (hchunks : OrdMap.find? (ascii "transfer-encoding") headers = some (ascii "chunked") →
      r.mState = .chunkLen ∧ r.m_Chunked = true)
    (hlength : ∀ value, OrdMap.find? (ascii "transfer-encoding") headers = none →
      OrdMap.find? (ascii "content-length") headers = some value →
      r.mState = .body ∧ r.m_Chunked = false ∧ r.m_Length = atoi value) (handed : Handed) :
    ∃ r', Takes (r, handed) framing.encode
      (r', Handed.add { handed with data := handed.data ++ framing.body } .responseComplete) ∧
      r'.completed = true := by
  have hte := hheaders (ascii "transfer-encoding") (by decide)
  have hcl := hheaders (ascii "content-length") (by decide)
  -- A body of a given length, or one in chunks.
  cases framing with
  | sized name length body =>
    obtain ⟨hne, hlt⟩ := hfits
    obtain ⟨hname, hword, hdigits, hvalue⟩ := hvalid
    have hlow : ∀ c ∈ length.word, 0x21 ≤ c := by
      intro c hc
      have hdigit := hdigits c hc
      simp only [isdigit, Bool.and_eq_true, decide_eq_true_eq] at hdigit
      exact le_trans (by decide) hdigit.1
    rw [Framing.field, if_neg (by rw [hname]; decide)] at hte
    rw [Framing.field, if_pos hname, fieldValue_padded length hword hlow] at hcl
    obtain ⟨hbody, hchunked, hlen⟩ := hlength _ hte hcl
    have htrail : ∀ c ∈ length.trail.head?, isdigit c = false := by
      intro c hc
      rcases length.blank c (List.mem_append_right _ (List.mem_of_mem_head? hc)) with rfl | rfl <;>
        decide
    rw [atoi_digits hword hdigits htrail (by omega), hvalue] at hlen
    exact takes_sized hbody hchunked hunread handed hne hlt hlen
  | chunked name coding chunks zeros =>
    obtain ⟨hword, htrail, hlt⟩ := hfits
    have hvalue : fieldValue coding.text = ascii "chunked" := by
      rw [fieldValue_padded coding (by rw [hword]; decide +kernel) (by rw [hword]; decide +kernel),
        hword, htrail]
      rfl
    rw [Framing.field, if_pos hvalid.1, hvalue] at hte
    obtain ⟨hstate, hchunked⟩ := hchunks hte
    obtain ⟨r₁, htakes, h₁⟩ := takes_chunks ⟨hstate, hbuf, hchunked⟩ handed hlt
    obtain ⟨r₂, hlast, hdone⟩ := takes_lastChunk h₁
      { handed with data := handed.data ++ chunks.flatMap Chunk.data } zeros
    refine ⟨r₂, ?_, hdone⟩
    rw [Framing.encode, List.append_assoc, List.append_assoc, ← List.append_assoc _ crlf]
    exact htakes.trans hlast

/-- **A reply** leads a new response to its end. -/
theorem takes_reply {method : Bytes} {reply : Reply} (h : Answers method reply) :
    ∃ r, Takes (.new method, .none) reply.encode
      (r, { data := reply.body, begins := 1, completes := 1 }) ∧ r.completed = true := by
  obtain ⟨r₁, n, hstatus, h₁, hn⟩ := takes_statusLine method reply.status_line h.status
  -- The names of the framing are tokens, as its values in lower case are.
  have htoken : IsToken reply.framing.field.1 := by
    have hframed := reply.framed
    cases hframing : reply.framing with
    | sized name length body =>
      rw [hframing] at hframed
      exact isToken_of_lower hframed.1 (by decide) (by decide +kernel)
    | chunked name coding chunks zeros =>
      rw [hframing] at hframed
      exact isToken_of_lower hframed.1 (by decide) (by decide +kernel)
  have hfields : ∀ field ∈ reply.before ++ reply.framing.field :: reply.after,
      field.Valid ∧ IsToken field.1 := by
    intro field hfield
    rcases List.mem_append.mp hfield with hmem | hmem
    · have hmem := List.mem_append_left reply.after hmem
      exact ⟨(reply.fields field hmem).1, h.names field hmem⟩
    · rcases List.mem_cons.mp hmem with rfl | hmem
      · exact ⟨reply.framed.field, htoken⟩
      · have hmem := List.mem_append_right reply.before hmem
        exact ⟨(reply.fields field hmem).1, h.names field hmem⟩
  obtain ⟨r₂, hheader, h₂⟩ := takes_fields h₁ .none hfields
  obtain ⟨r₃, hend, hbuf, hunread, hchunks, hlength⟩ := takes_headerEnd h₂ .none h.method hn
  -- No other field has one of these names.
  have hheaders : ∀ name ∈ framingNames, OrdMap.find? name
      ((reply.before ++ reply.framing.field :: reply.after).foldl storeField [])
      = if reply.framing.field.1.map tolower = name then some (fieldValue reply.framing.field.2)
        else none := fun name hname =>
    find?_storeField fun other hother heq => (reply.fields other hother).2 (heq ▸ hname)
  obtain ⟨r₄, hbody, hdone⟩ := takes_framing reply.framed h.fits hheaders hbuf hunread hchunks
    hlength (Handed.none.add .responseBegin)
  -- Status line, header fields, blank line and body, in this order.
  have hencode : reply.encode = ascii "HTTP/1.1 " ++ reply.status ++ crlf
      ++ ((reply.before ++ reply.framing.field :: reply.after).flatMap HeaderField.encode
        ++ (crlf ++ reply.framing.encode)) := by
    rw [Reply.encode, messageHead, headerBlock]
    simp only [List.append_assoc]
  rw [hencode]
  exact ⟨r₄, hstatus.trans (hheader.trans (hend.trans hbody)), hdone⟩

end Response

end Icl.Http
