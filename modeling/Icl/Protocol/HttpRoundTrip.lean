import Icl.Format.Http
import Icl.Protocol.HttpSafety

namespace Icl.Protocol

open Icl.Cxx Icl.Format Icl.Util

/-!
# The HTTP parsers on well-formed messages

* `insertFields` — what the header loop should make of the header fields: names in lower case,
  values trimmed, the first of several equal names wins;
* `headerLoop_block` — it does, on a header block, and stops right behind it;
* `parseRequestHeader_message` — the parser on a well-formed request;
* `parseRequestHeader_generateRequest` — a generated request is read back.
-/

/-! ### Header fields -/

/-- A header field as the parsers store it. -/
def storedField (field : HeaderField) : Bytes × Bytes := (field.1.map tolower, trim field.2)

/-- The headers after some fields have been stored. -/
def insertFields (fields : List HeaderField) (headers : StringMap) : StringMap :=
  OrdMap.insertAll (fields.map storedField) headers

/-- What the header loop stores of a line, less its last byte: nothing if it has no colon. -/
def storedLine (line : Bytes) : Option (Bytes × Bytes) :=
  (find line.dropLast [0x3A] 0).map fun i =>
    storedField (line.dropLast.take i, line.dropLast.drop (i + 1))

theorem headerLine_eq {line : Bytes} (h : line ≠ []) : headerLine line = .ok (storedLine line) := by
  rw [headerLine, popBack_of_ne_nil h, ok_bind, storedLine]
  cases hfind : find line.dropLast [0x3A] 0 with
  | none => rfl
  | some i =>
    have hcolon : i + 1 ≤ line.dropLast.length := (find_le hfind).2
    have hall : (line.dropLast.drop (i + 1)).take line.dropLast.length
        = line.dropLast.drop (i + 1) := List.take_of_length_le (by simp)
    simp only [substr_of_le (Nat.zero_le _), substr_of_le hcolon, ok_bind, pure_eq_ok, hall,
      List.drop_zero]
    rfl

/-- A colon in front of the last byte. -/
theorem storedLine_colon {name : Bytes} (h : 0x3A ∉ name) (text : Bytes) (last : UInt8) :
    storedLine (name ++ 0x3A :: text ++ [last]) = some (storedField (name, text)) := by
  have hfind : find (name ++ 0x3A :: text) [0x3A] 0 = some name.length := by
    rw [find, if_pos (Nat.zero_le _), List.drop_zero, findSub_single h]
    simp
  rw [storedLine, List.dropLast_concat, hfind]
  simp

/-- No colon in front of the last byte. -/
theorem storedLine_none {line : Bytes} (h : 0x3A ∉ line.dropLast) : storedLine line = none := by
  rw [storedLine, find, if_pos (Nat.zero_le _), List.drop_zero, findSub_single_none h]
  rfl

/-- A header line is taken apart at its colon. -/
theorem headerLine_field {field : HeaderField} (h : field.Valid) :
    headerLine field.line = .ok (some (storedField field)) := by
  rw [headerLine_eq (by simp [HeaderField.line]), HeaderField.line, storedLine_colon h.name_colon]

/-- **The header loop on a header block** stores the fields and stops behind the block. -/
theorem headerLoop_block {fields : List HeaderField} (hvalid : ∀ field ∈ fields, field.Valid)
    {fuel : Nat} (rest : Bytes) (pos : Nat) (headers : StringMap) (success : Bool)
    (hfuel : fields.length < fuel) :
    headerLoop fuel (.reading (headerBlock fields ++ rest) pos) headers success
      = .ok (insertFields fields headers, success,
          .reading rest (pos + (headerBlock fields).length)) := by
  induction fields generalizing fuel pos headers with
  | nil =>
    obtain ⟨fuel, rfl⟩ : ∃ n, fuel = n + 1 := ⟨fuel - 1, by simp at hfuel; omega⟩
    have hplain : newline ∉ separatorLine := by decide
    have hget := getline_reading hplain rest pos []
    rw [headerBlock_nil, headerLoop, show crlf ++ rest = separatorLine ++ newline :: rest from rfl,
      hget]
    rfl
  | cons field fields ih =>
    obtain ⟨fuel, rfl⟩ : ∃ n, fuel = n + 1 := ⟨fuel - 1, by simp at hfuel; omega⟩
    obtain ⟨hfield, hfields⟩ := List.forall_mem_cons.mp hvalid
    have hplain : newline ∉ field.line := hfield.line
    have hget := getline_reading hplain (headerBlock fields ++ rest) pos []
    have hsplit : headerBlock (field :: fields) ++ rest
        = field.line ++ newline :: (headerBlock fields ++ rest) := by
      simp [HeaderField.encode, newline]
    -- A field has a colon, which the separator has not.
    have hsep : field.line ≠ separatorLine := by
      intro heq
      have hcolon : (0x3A : UInt8) ∈ field.line := by simp [HeaderField.line]
      rw [heq] at hcolon
      revert hcolon
      decide
    rw [hsplit, headerLoop, hget]
    simp only [ne_eq, hsep, not_false_iff, if_true, headerLine_field hfield, ok_bind]
    rw [ih hfields _ _ (by simpa using hfuel)]
    simp [insertFields, HeaderField.encode, Nat.add_assoc, Nat.add_comm, Nat.add_left_comm]

/-- **The header loop on any lines**: it stores what the lines before the separator say. -/
theorem headerLoop_lines {fuel : Nat} {iss : IStringStream} (headers : StringMap) (success : Bool)
    (hgood : iss.Intact) (hfuel : iss.rest.length < fuel)
    (hempty : [] ∉ headerLines (lines iss.rest)) :
    ∃ success' iss', headerLoop fuel iss headers success = .ok
      (OrdMap.insertAll ((headerLines (lines iss.rest)).filterMap storedLine) headers,
        success', iss') := by
  induction fuel generalizing iss headers success with
  | zero => omega
  | succ fuel ih =>
    rcases headerLoop_turn fuel hgood headers success with
      ⟨hnone, iss', hturn⟩ | ⟨line, iss', hlines, hless, hgood', hturn⟩
    · exact ⟨success, iss', by simp [hturn, hnone, headerLines]⟩
    · rw [hlines] at hempty ⊢
      rw [hturn]
      by_cases hsep : line = separatorLine
      · exact ⟨success, iss', by simp [hsep, headerLines]⟩
      · have htake :
            headerLines (line :: lines iss'.rest) = line :: headerLines (lines iss'.rest) :=
          List.takeWhile_cons_of_pos (by simpa using hsep)
        rw [htake] at hempty ⊢
        obtain ⟨hne, hrest⟩ : line ≠ [] ∧ [] ∉ headerLines (lines iss'.rest) := by
          simpa [eq_comm] using hempty
        rw [if_neg hsep, headerLine_eq hne, ok_bind]
        -- What the line says is stored, and the loop goes on with the other lines.
        cases hstored : storedLine line with
        | none =>
          rw [List.filterMap_cons_none hstored]
          exact ih headers _ hgood' (by omega) hrest
        | some e =>
          rw [List.filterMap_cons_some hstored, OrdMap.insertAll_cons]
          exact ih _ _ hgood' (by omega) hrest

/-! ### Requests -/

/-- The request line is cut into its three parts. -/
theorem requestLine_requestStart {method query protocol : Bytes} (hmethod : 0x20 ∉ method)
    (hquery : 0x20 ∉ query) (hprotocol : 0x20 ∉ protocol) :
    requestLine (requestStart method query protocol ++ [0x0D]) = .ok [method, query, protocol] := by
  rw [requestLine_eq (by simp), List.dropLast_concat, requestStart, splitOn_cons hmethod,
    splitOn_cons hquery, splitOn_of_not_mem hprotocol]

theorem supportedMethod_plain {method : Bytes} (h : method ∈ cSupportedMethods) :
    0x20 ∉ method ∧ newline ∉ method := by
  rcases List.mem_cons.mp h with rfl | h
  · decide
  · rw [List.mem_singleton.mp h]
    decide

theorem length_lt_headerBlock (fields : List HeaderField) :
    fields.length < (headerBlock fields).length := by
  induction fields with
  | nil => decide
  | cons field fields ih =>
    rw [headerBlock_cons, List.length_append, HeaderField.encode, List.length_append,
      List.length_cons, List.length_singleton]
    omega

/-- The URL parameters are all that `ParseUrlParameters` changes. -/
theorem parseUrlParameters_eq (request : HttpRequest) :
    ∃ params, parseUrlParameters request = { request with params } := by
  rw [parseUrlParameters]
  rcases getline 0x3F (.ofString request.query) [] with ⟨_ | _, url, iss⟩
  · exact ⟨request.params, rfl⟩
  · exact ⟨_, rfl⟩

/-- **The fields after the request line**, the stream standing in front of the header block. -/
theorem parseRequestFields_block {fields : List HeaderField}
    (hvalid : ∀ field ∈ fields, field.Valid) (pre body : Bytes)
    (hsize : (pre ++ (headerBlock fields ++ body)).length < 2 ^ 32)
    {request : HttpRequest} (hheaders : request.headers = []) (hempty : request.body = []) :
    parseRequestFields (pre ++ (headerBlock fields ++ body))
        (.reading (headerBlock fields ++ body) pre.length) request
      = .ok { parseUrlParameters request with headers := insertFields fields [], body } := by
  obtain ⟨params, hparams⟩ := parseUrlParameters_eq request
  have hfuel : fields.length < (pre ++ (headerBlock fields ++ body)).length + 1 := by
    have := length_lt_headerBlock fields
    simp only [List.length_append]
    omega
  have hloop := headerLoop_block hvalid body pre.length [] true hfuel
  have hlength : (pre ++ (headerBlock fields ++ body)).length
      = pre.length + (headerBlock fields).length + body.length := by
    simp [Nat.add_assoc]
  -- The stream stops at the body, the position of which does not wrap around.
  have hstart : ((IStringStream.reading body (pre.length + (headerBlock fields).length)).tellg
      % 2 ^ 32).toNat = pre.length + (headerBlock fields).length := by
    have htellg : (IStringStream.reading body (pre.length + (headerBlock fields).length)).tellg
        = ((pre.length + (headerBlock fields).length : Nat) : Int) := rfl
    rw [htellg]
    omega
  rw [parseRequestFields, hparams, hheaders, hloop]
  simp only [ok_bind, hstart, hlength]
  by_cases hbody : body = []
  · rw [if_neg (by simp [hbody]), hbody, hempty]
    rfl
  · have hpos : 0 < body.length := List.length_pos_of_ne_nil hbody
    have hdrop : (pre ++ (headerBlock fields ++ body)).drop
        (pre.length + (headerBlock fields).length) = body := by
      rw [← List.append_assoc, ← List.length_append, List.drop_left]
    rw [if_pos (by omega), substr_of_le (by omega), hdrop, List.take_of_length_le (by omega)]
    rfl

/-- **The parser on a well-formed request.** -/
theorem parseRequestHeader_message {method query protocol : Bytes} {fields : List HeaderField}
    (hmethod : method ∈ cSupportedMethods) (hquery : 0x20 ∉ query ∧ newline ∉ query)
    (hprotocol : 0x20 ∉ protocol ∧ newline ∉ protocol) (hvalid : ∀ field ∈ fields, field.Valid)
    (body : Bytes)
    (hsize : (messageHead (requestStart method query protocol) fields ++ body).length < 2 ^ 32) :
    parseRequestHeader (messageHead (requestStart method query protocol) fields ++ body) .new
      = .ok (true, { parseUrlParameters { HttpRequest.new with method, query, protocol } with
          headers := insertFields fields [], body }) := by
  have hspace : 0x20 ∉ method ∧ newline ∉ method := supportedMethod_plain hmethod
  have hline : newline ∉ requestStart method query protocol ++ [0x0D] := by
    have hsep : newline ≠ 0x20 ∧ newline ≠ 0x0D := by decide
    simp [requestStart, hspace.2, hquery.2, hprotocol.2, hsep]
  -- `getline` takes the request line, and leaves the stream in front of the header block.
  have hget := getline_reading hline (headerBlock fields ++ body) 0 []
  have hsplit : messageHead (requestStart method query protocol) fields ++ body
      = (requestStart method query protocol ++ crlf) ++ (headerBlock fields ++ body) :=
    List.append_assoc _ _ _
  have hfirst : (requestStart method query protocol ++ crlf) ++ (headerBlock fields ++ body)
      = (requestStart method query protocol ++ [0x0D])
        ++ newline :: (headerBlock fields ++ body) := by
    simp [crlf, newline]
  have hpos : 0 + (requestStart method query protocol ++ [0x0D]).length + 1
      = (requestStart method query protocol ++ crlf).length := by
    simp [crlf]
  rw [hpos, ← hfirst] at hget
  rw [hsplit] at hsize ⊢
  have hfields : parseRequestFields (requestStart method query protocol ++ crlf
      ++ (headerBlock fields ++ body)) _ { HttpRequest.new with method, query, protocol } = _ :=
    parseRequestFields_block hvalid (requestStart method query protocol ++ crlf) body hsize rfl rfl
  have hopen : ∀ payload, IStringStream.ofString payload = .reading payload 0 := fun _ => rfl
  rw [parseRequestHeader, hopen, hget]
  simp only [requestLine_requestStart hspace.1 hquery.1 hprotocol.1, ok_bind, hmethod, if_true]
  rw [hfields]
  rfl

/-! ### Generated requests -/

/-- The characters that a value may not start or end with. -/
def isBlank (c : UInt8) : Bool := c == 0x20 || c == 0x09 || c == 0x0D || c == 0x0B

/-- A request that can be sent as it is: the separators of the format stand in none of its parts,
    and the names of its headers are distinct whatever their case. -/
structure Sendable (request : HttpRequest) : Prop where
  method : request.method ∈ cSupportedMethods
  query : ∀ c ∈ request.query, c ≠ 0x20 ∧ c ≠ 0x0D ∧ c ≠ 0x0A
  protocol : ∀ c ∈ request.protocol, c ≠ 0x20 ∧ c ≠ 0x0D ∧ c ≠ 0x0A
  names : ∀ header ∈ request.headers, 0x3A ∉ header.1 ∧ 0x0A ∉ header.1
  distinct : (request.headers.map fun header => header.1.map tolower).Nodup
  values : ∀ header ∈ request.headers, 0x0A ∉ header.2 ∧
    (∀ c ∈ header.2.head?, isBlank c = false) ∧ (∀ c ∈ header.2.getLast?, isBlank c = false)
  size : (generateRequest request).length < 2 ^ 32

/-- A header as `GenerateRequest` writes it. -/
def sentField (header : Bytes × Bytes) : HeaderField := (header.1, 0x20 :: header.2)

theorem generateRequest_eq (request : HttpRequest) :
    generateRequest request
      = messageHead (requestStart request.method request.query request.protocol)
        (request.headers.map sentField) ++ request.body := by
  have hfield : ∀ header : Bytes × Bytes, (sentField header).encode
      = header.1 ++ ascii ": " ++ header.2 ++ ascii "\r\n" := by
    intro header
    have hcolon : ascii ": " = [0x3A, 0x20] := rfl
    have hend : ascii "\r\n" = [0x0D, 0x0A] := rfl
    simp [HeaderField.encode, HeaderField.line, sentField, hcolon, hend]
  have hspace : ascii " " = [0x20] := rfl
  have hend : ascii "\r\n" = crlf := rfl
  simp only [generateRequest, messageHead, headerBlock, requestStart, List.flatMap_map, hfield,
    hspace, hend, List.append_assoc, List.cons_append, List.nil_append]

/-- `trim` takes away what stands around a word. -/
theorem trim_padded {lead word trail : Bytes} (hblank : ∀ c ∈ lead ++ trail, isTrimmed c = true)
    (hhead : ∀ c ∈ word.head?, isTrimmed c = false)
    (hlast : ∀ c ∈ word.getLast?, isTrimmed c = false) : trim (lead ++ (word ++ trail)) = word := by
  obtain ⟨hlead, htrail⟩ := List.forall_mem_append.mp hblank
  rw [trim, List.dropWhile_append_of_pos hlead]
  cases word with
  | nil =>
    rw [List.nil_append, List.dropWhile_eq_nil_iff.mpr htrail]
    rfl
  | cons c cs =>
    have hc : ¬ isTrimmed c = true := by simp [hhead c rfl]
    rw [List.cons_append, List.dropWhile_cons_of_neg hc, ← List.cons_append]
    -- From behind, the trailing blanks come first.
    have hdrop : ((c :: cs) ++ trail).rdropWhile isTrimmed = (c :: cs).rdropWhile isTrimmed := by
      rw [List.rdropWhile, List.reverse_append, List.dropWhile_append_of_pos, List.rdropWhile]
      exact fun d hd => htrail d (List.mem_reverse.mp hd)
    rw [hdrop, List.rdropWhile_eq_self_iff]
    intro hne
    simp [hlast _ (List.getLast?_eq_some_getLast hne)]

theorem trim_sent {value : Bytes} (hline : 0x0A ∉ value)
    (hhead : ∀ c ∈ value.head?, isBlank c = false)
    (hlast : ∀ c ∈ value.getLast?, isBlank c = false) : trim (0x20 :: value) = value := by
  -- A value has no line end, so that only blanks could be trimmed.
  have hkeep : ∀ c ∈ value, isBlank c = false → isTrimmed c = false := by
    intro c hc hblank
    have hne : c ≠ 0x0A := fun heq => hline (heq ▸ hc)
    simp only [isBlank, Bool.or_eq_false_iff, beq_eq_false_iff_ne] at hblank
    simp [isTrimmed, hblank, hne]
  have htrim := @trim_padded [0x20] value [] (by simp [isTrimmed])
    (fun c hc => hkeep c (List.mem_of_mem_head? hc) (hhead c hc))
    (fun c hc => hkeep c (List.mem_of_mem_getLast? hc) (hlast c hc))
  rwa [List.append_nil] at htrim

/-- **Generated requests are read back**: all their parts, with the names of the headers in lower
    case. -/
theorem parseRequestHeader_generateRequest (request : HttpRequest) (h : Sendable request) :
    ∃ parsed, parseRequestHeader (generateRequest request) .new = .ok (true, parsed) ∧
      parsed.method = request.method ∧ parsed.query = request.query ∧
      parsed.protocol = request.protocol ∧ parsed.body = request.body ∧
      OrdMap.Sorted parsed.headers ∧
      parsed.headers.Perm (request.headers.map fun header => (header.1.map tolower, header.2)) := by
  have hvalid : ∀ field ∈ request.headers.map sentField, field.Valid := by
    intro field hfield
    obtain ⟨header, hmem, rfl⟩ := List.mem_map.mp hfield
    obtain ⟨hcolon, hname⟩ := h.names header hmem
    exact ⟨hcolon, hname, by simpa [sentField] using (h.values header hmem).1⟩
  have hquery : 0x20 ∉ request.query ∧ newline ∉ request.query :=
    ⟨fun hc => (h.query _ hc).1 rfl, fun hc => (h.query _ hc).2.2 rfl⟩
  have hprotocol : 0x20 ∉ request.protocol ∧ newline ∉ request.protocol :=
    ⟨fun hc => (h.protocol _ hc).1 rfl, fun hc => (h.protocol _ hc).2.2 rfl⟩
  have hsize := h.size
  rw [generateRequest_eq] at hsize
  have hparse := parseRequestHeader_message h.method hquery hprotocol hvalid request.body hsize
  obtain ⟨params, hparams⟩ := parseUrlParameters_eq { HttpRequest.new with
    method := request.method, query := request.query, protocol := request.protocol }
  -- What is stored is what was sent, but for the case of the names.
  have hstored : (request.headers.map sentField).map storedField
      = request.headers.map fun header => (header.1.map tolower, header.2) := by
    rw [List.map_map]
    refine List.map_congr_left fun header hmem => ?_
    obtain ⟨hline, hhead, hlast⟩ := h.values header hmem
    exact Prod.ext rfl (trim_sent hline hhead hlast)
  have hperm := OrdMap.perm_insertAll ((request.headers.map sentField).map storedField) [] (by
    rw [List.append_nil, hstored, List.map_map]
    exact h.distinct)
  rw [List.append_nil, hstored] at hperm
  rw [hparams] at hparse
  rw [generateRequest_eq]
  rw [insertFields, hstored] at hparse
  exact ⟨_, hparse, rfl, rfl, rfl, rfl, OrdMap.sorted_insertAll _ OrdMap.sorted_nil, hperm⟩

/-- A request with two headers and a body that looks like a third one. -/
theorem parseRequestHeader_generateRequest_post :
    ∃ request parsed, request.headers = [(ascii "Host", ascii "a b"), (ascii "X", [])] ∧
      request.body = ascii "\r\nY: z" ∧
      parseRequestHeader (generateRequest request) .new = .ok (true, parsed) ∧
      parsed.body = request.body ∧
      parsed.headers.Perm (request.headers.map fun header => (header.1.map tolower, header.2)) := by
  obtain ⟨parsed, hparse, -, -, -, hbody, -, hperm⟩ := parseRequestHeader_generateRequest
    { HttpRequest.new with
      method := ascii "POST"
      headers := [(ascii "Host", ascii "a b"), (ascii "X", [])]
      body := ascii "\r\nY: z" }
    ⟨by decide, forall_mem_of_all (by decide), forall_mem_of_all (by decide), by decide, by decide,
      by decide +kernel, by decide⟩
  exact ⟨_, parsed, rfl, rfl, hparse, hbody, hperm⟩

end Icl.Protocol
