import Icl.Format.Json

namespace Icl.Format

open Icl.Cxx

/-!
# HTTP messages

The format of a message of HTTP/1.1: a start line, header fields, an empty line and a body, each
line ended by CRLF.

* `HeaderField.Valid` — a field whose line can be taken apart again;
* `messageHead` — the bytes of a message up to its body;
* `Reply` — a reply whose body is delimited by its Content-Length or sent in chunks.
-/

/-- CRLF. -/
def crlf : Bytes := [0x0D, 0x0A]

/-- A header field: its name, and what stands between the colon and the end of the line. -/
abbrev HeaderField := Bytes × Bytes

namespace HeaderField

/-- The colon and the line end are the first ones. -/
structure Valid (field : HeaderField) : Prop where
  name_colon : 0x3A ∉ field.1
  name_line : 0x0A ∉ field.1
  text_line : 0x0A ∉ field.2

/-- The line of the field, without its last byte. -/
def line (field : HeaderField) : Bytes := field.1 ++ 0x3A :: field.2 ++ [0x0D]

/-- The field as it is sent. -/
def encode (field : HeaderField) : Bytes := field.line ++ [0x0A]

theorem Valid.line {field : HeaderField} (h : field.Valid) : 0x0A ∉ field.line := by
  simp [HeaderField.line, h.name_line, h.text_line]

end HeaderField

/-- The header fields, and the empty line that ends them. -/
def headerBlock (fields : List HeaderField) : Bytes := fields.flatMap HeaderField.encode ++ crlf

@[simp] theorem headerBlock_nil : headerBlock [] = crlf := rfl

@[simp] theorem headerBlock_cons (field : HeaderField) (fields : List HeaderField) :
    headerBlock (field :: fields) = field.encode ++ headerBlock fields := by
  simp [headerBlock]

/-- The start line of a request. -/
def requestStart (method query protocol : Bytes) : Bytes :=
  method ++ 0x20 :: (query ++ 0x20 :: protocol)

/-- What stands before the body. -/
def messageHead (startLine : Bytes) (fields : List HeaderField) : Bytes :=
  startLine ++ crlf ++ headerBlock fields

/-! ### Replies -/

/-- The value of hexadecimal digits. -/
def hexValue (digits : Bytes) : Nat := digits.foldl (fun n c => n * 16 + hexDigit c) 0

/-- A chunk of a body, with the digits of its size. -/
structure Chunk where
  size : Bytes
  data : Bytes
  digits : ∀ c ∈ size, isxdigit c = true
  value : hexValue size = data.length
  nonempty : data ≠ []

/-- The chunk as it is sent. -/
def Chunk.encode (chunk : Chunk) : Bytes := chunk.size ++ crlf ++ chunk.data ++ crlf

/-- A word, with blanks around it. -/
structure PaddedText where
  lead : Bytes
  word : Bytes
  trail : Bytes
  blank : ∀ c ∈ lead ++ trail, c = 0x20 ∨ c = 0x09

/-- A word after a single space. -/
def PaddedText.spaced (word : Bytes) : PaddedText where
  lead := [0x20]
  word
  trail := []
  blank := by simp

/-- The text between the colon and the line end. -/
def PaddedText.text (padded : PaddedText) : Bytes := padded.lead ++ padded.word ++ padded.trail

/-- Neither the blanks nor the word end the line. -/
theorem PaddedText.text_line {padded : PaddedText} (h : 0x0A ∉ padded.word) :
    0x0A ∉ padded.text := by
  have hblank : ∀ c ∈ padded.lead ++ padded.trail, c ≠ 0x0A := by
    intro c hc
    rcases padded.blank c hc with rfl | rfl <;> decide
  intro hmem
  rcases List.mem_append.mp hmem with hmem | hmem
  · rcases List.mem_append.mp hmem with hmem | hmem
    · exact hblank _ (List.mem_append_left _ hmem) rfl
    · exact h hmem
  · exact hblank _ (List.mem_append_right _ hmem) rfl

/-- How the end of a body is found, with the header field that says so. -/
inductive Framing where
  /-- Content-Length, and as many bytes. -/
  | sized (name : Bytes) (length : PaddedText) (body : Bytes)
  /-- Transfer-Encoding: chunked, chunks, and a zero chunk of one or more zeros. -/
  | chunked (name : Bytes) (coding : PaddedText) (chunks : List Chunk) (zeros : Nat)

namespace Framing

/-- The header field. -/
def field : Framing → HeaderField
  | sized name length _ => (name, length.text)
  | chunked name coding _ _ => (name, coding.text)

/-- The bytes after the header. -/
def encode : Framing → Bytes
  | sized _ _ body => body
  | chunked _ _ chunks zeros =>
    chunks.flatMap Chunk.encode ++ List.replicate (zeros + 1) 0x30 ++ crlf ++ crlf

/-- The body. -/
def body : Framing → Bytes
  | sized _ _ body => body
  | chunked _ _ chunks _ => chunks.flatMap Chunk.data

/-- The field says what follows. -/
def Valid : Framing → Prop
  | sized name length body =>
    name.map tolower = ascii "content-length" ∧ length.word ≠ [] ∧ Digits length.word ∧
      decimalValue length.word = body.length
  | chunked name coding _ _ =>
    name.map tolower = ascii "transfer-encoding" ∧ coding.word.map tolower = ascii "chunked"

/-- A byte that is no letter is not hidden by `tolower`. -/
theorem not_mem_of_lower {c : UInt8} {s lower : Bytes} (h : s.map tolower = lower)
    (hc : tolower c ∉ lower) : c ∉ s := by
  intro hmem
  rw [← h] at hc
  exact hc (List.mem_map_of_mem hmem)

/-- The field that says what follows can be taken apart again. -/
theorem Valid.field {framing : Framing} (h : framing.Valid) : framing.field.Valid := by
  cases framing with
  | sized name length body =>
    obtain ⟨hname, -, hdigits, -⟩ := h
    refine ⟨not_mem_of_lower hname (by decide), not_mem_of_lower hname (by decide),
      PaddedText.text_line fun hc => ?_⟩
    exact absurd (hdigits _ hc) (by decide)
  | chunked name coding chunks zeros =>
    obtain ⟨hname, hcoding⟩ := h
    exact ⟨not_mem_of_lower hname (by decide), not_mem_of_lower hname (by decide),
      PaddedText.text_line (not_mem_of_lower hcoding (by decide))⟩

end Framing

/-- The names of the fields that say how the end of a body is found. -/
def framingNames : List Bytes := [ascii "content-length", ascii "transfer-encoding"]

/-- A reply of HTTP/1.1. -/
structure Reply where
  /-- What follows the protocol in the status line. -/
  status : Bytes
  before : List HeaderField
  framing : Framing
  after : List HeaderField
  status_line : 0x0A ∉ status
  fields : ∀ field ∈ before ++ after, field.Valid ∧ field.1.map tolower ∉ framingNames
  framed : framing.Valid

namespace Reply

/-- The status line, without its last byte. -/
def statusLine (reply : Reply) : Bytes := ascii "HTTP/1.1 " ++ reply.status ++ [0x0D]

/-- The reply as it is sent. -/
def encode (reply : Reply) : Bytes :=
  messageHead (ascii "HTTP/1.1 " ++ reply.status)
    (reply.before ++ reply.framing.field :: reply.after) ++ reply.framing.encode

/-- The body of the reply. -/
def body (reply : Reply) : Bytes := reply.framing.body

end Reply

end Icl.Format
