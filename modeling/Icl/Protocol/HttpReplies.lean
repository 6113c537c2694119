import Icl.Protocol.HttpRoundTrip

namespace Icl.Protocol

open Icl.Cxx Icl.Format Icl.Util

/-!
# The headers in the first packet of a reply

A packet may end anywhere in a reply, in the middle of a line for instance; the parser then removes
the last byte of what it has of that line, as it does with the CR of a whole one.

* `storedLine_part` — what the parser makes of the beginning of a header line;
* `stored_of_prefix` — what it stores of a packet: nothing about the body unless the packet reaches
  the text of Content-Length or Transfer-Encoding.
-/

/-! ### The headers of a packet -/

/-- What the header loop stores of a text. -/
def storedHeaders (text : Bytes) : List (Bytes × Bytes) :=
  (headerLines (lines text)).filterMap storedLine

/-- A line of a header: it has no line end of its own, and is neither empty nor the separator. -/
def IsHeaderLine (line : Bytes) : Prop := newline ∉ line ∧ line ≠ [] ∧ line ≠ separatorLine

/-- Header lines are read up to the blank line. -/
theorem headerLines_unlines {ls : List Bytes} (h : ∀ line ∈ ls, IsHeaderLine line) (rest : Bytes) :
    headerLines (lines (unlines ls ++ rest)) = ls ++ headerLines (lines rest) := by
  rw [lines_unlines fun line hline => (h line hline).1, headerLines, headerLines,
    List.takeWhile_append_of_pos fun line hline => by simpa using (h line hline).2.2]

/-- The text stops in a line. -/
theorem headerLines_part {part : Bytes} (h : newline ∉ part) :
    [] ∉ headerLines (lines part) ∧ storedHeaders part = (storedLine part).toList := by
  by_cases hne : part = []
  · subst hne
    exact ⟨by simp [headerLines], rfl⟩
  · by_cases hsep : part = separatorLine
    · subst hsep
      exact ⟨by decide, rfl⟩
    · rw [storedHeaders, lines_of_not_mem h hne, headerLines,
        List.takeWhile_cons_of_pos (by simpa using hsep)]
      exact ⟨by simpa using Ne.symm hne, by cases hstored : storedLine part <;> simp [hstored]⟩

/-- Each of them is stored as it stands. -/
theorem storedHeaders_unlines {ls : List Bytes} (h : ∀ line ∈ ls, IsHeaderLine line)
    (rest : Bytes) :
    storedHeaders (unlines ls ++ rest) = ls.filterMap storedLine ++ storedHeaders rest := by
  rw [storedHeaders, headerLines_unlines h, List.filterMap_append]
  rfl

/-- The text stops behind the header. -/
theorem headerLines_end {part tail : Bytes} (h : part <+: crlf ++ tail) :
    headerLines (lines part) = [] := by
  rcases List.prefix_cons_iff.mp h with rfl | ⟨part, rfl, hpart⟩
  · rfl
  · rcases List.prefix_cons_iff.mp hpart with rfl | ⟨rest, rfl, -⟩
    · rfl
    · have hplain : newline ∉ [(0x0D : UInt8)] := by decide
      have hline : lines (0x0D :: 0x0A :: rest) = [0x0D] :: lines rest := lines_append hplain rest
      rw [hline]
      rfl

/-- A text that stops anywhere in a header or behind it has no empty header line. -/
theorem headerLines_of_prefix {ls : List Bytes} (h : ∀ line ∈ ls, IsHeaderLine line)
    {tail text : Bytes} (htext : text <+: unlines ls ++ (crlf ++ tail)) :
    [] ∉ headerLines (lines text) := by
  rcases prefix_unlines htext with ⟨front, line, back, part, rfl, hpart, rfl⟩ | ⟨part, hpart, rfl⟩
  · have hfront : ∀ line ∈ front, IsHeaderLine line :=
      fun line hmem => h line (List.mem_append_left _ hmem)
    have hline : newline ∉ part := fun hmem => (h line (by simp)).1 (hpart.subset hmem)
    rw [headerLines_unlines hfront, List.mem_append, not_or]
    exact ⟨fun hmem => (hfront _ hmem).2.1 rfl, (headerLines_part hline).1⟩
  · rw [headerLines_unlines h, headerLines_end hpart, List.append_nil]
    exact fun hmem => (h _ hmem).2.1 rfl

/-- **A header line that stops somewhere**: it says nothing up to its colon, and from there on the
    text that is left once its last byte is removed. -/
theorem storedLine_part {field : HeaderField} (hname : 0x3A ∉ field.1) {part : Bytes}
    (h : part <+: field.line) :
    storedLine part = none ∧ part.length ≤ field.1.length + 1 ∨
    ∃ text, text <+: field.2 ∧ storedLine part = some (storedField (field.1, text)) ∧
      part.length = field.1.length + text.length + 2 := by
  have hline : field.line = (field.1 ++ [0x3A]) ++ (field.2 ++ [0x0D]) := by
    simp [HeaderField.line]
  rw [hline] at h
  -- The part ends before the colon or behind it.
  rcases List.prefix_or_prefix_of_prefix h (List.prefix_append _ _) with hshort | ⟨rest, rfl⟩
  · left
    have hcolon : 0x3A ∉ part.dropLast := by
      rcases List.prefix_concat_iff.mp hshort with rfl | hpart
      · rwa [List.dropLast_concat]
      · exact fun hmem => hname (hpart.subset (List.dropLast_subset _ hmem))
    exact ⟨storedLine_none hcolon, by simpa using hshort.length_le⟩
  · have hrest := (List.prefix_append_right_inj _).mp h
    by_cases hne : rest = []
    · left
      subst hne
      rw [List.append_nil]
      exact ⟨storedLine_none (by rwa [List.dropLast_concat]), by simp⟩
    · -- The last byte of the part is removed, whatever it is.
      right
      have hlast : rest = rest.dropLast ++ [rest.getLast hne] :=
        (List.dropLast_append_getLast hne).symm
      have htext : rest.dropLast <+: field.2 := by
        rcases List.prefix_concat_iff.mp hrest with heq | hpart
        · have hwhole : rest.dropLast = field.2 := by rw [heq, List.dropLast_concat]
          exact hwhole ▸ List.prefix_rfl
        · exact (List.dropLast_prefix rest).trans hpart
      have hsplit : (field.1 ++ [0x3A]) ++ rest
          = field.1 ++ 0x3A :: rest.dropLast ++ [rest.getLast hne] := by
        conv_lhs => rw [hlast]
        simp
      refine ⟨rest.dropLast, htext, ?_, ?_⟩
      · rw [hsplit, storedLine_colon hname]
      · rw [hsplit]
        simp only [List.length_append, List.length_cons, List.length_nil]
        omega

/-- What is stored of a header line is under its name, wherever the line stops. -/
theorem storedLine_name {field : HeaderField} (hname : 0x3A ∉ field.1) {part : Bytes}
    (h : part <+: field.line) {e : Bytes × Bytes} (he : storedLine part = some e) :
    e.1 = field.1.map tolower := by
  rcases storedLine_part hname h with ⟨hnone, -⟩ | ⟨text, -, hsome, -⟩
  · rw [hnone] at he
    cases he
  · rw [hsome] at he
    cases he
    rfl

/-! ### Packets of a reply -/

/-- The lines before the field that says how the end of the body is found. -/
def frontLines (reply : Reply) : List Bytes :=
  reply.statusLine :: reply.before.map HeaderField.line

/-- What follows that field. -/
def backText (reply : Reply) : Bytes :=
  unlines (reply.after.map HeaderField.line) ++ (crlf ++ reply.framing.encode)

/-- The position behind the colon of that field. -/
def fieldStart (reply : Reply) : Nat :=
  (unlines (frontLines reply)).length + reply.framing.field.1.length + 1

/-- A block of headers is its lines and a blank one. -/
theorem headerBlock_eq (fields : List HeaderField) :
    headerBlock fields = unlines (fields.map HeaderField.line) ++ crlf := by
  rw [headerBlock, unlines, List.flatMap_map]
  rfl

/-- A reply is cut at the field that tells its framing. -/
theorem encode_eq (reply : Reply) :
    reply.encode
      = unlines (frontLines reply) ++ (reply.framing.field.line ++ newline :: backText reply) := by
  simp [Reply.encode, messageHead, headerBlock_eq, frontLines, backText, unlines_append,
    unlines_cons, Reply.statusLine, crlf, newline]

/-- A valid field is one header line. -/
theorem isHeaderLine_field {field : HeaderField} (h : field.Valid) : IsHeaderLine field.line := by
  refine ⟨h.line, by simp [HeaderField.line], fun heq => ?_⟩
  have hcolon : (0x3A : UInt8) ∈ field.line := by simp [HeaderField.line]
  rw [heq] at hcolon
  revert hcolon
  decide

/-- So is everything in front of the framing. -/
theorem isHeaderLine_front (reply : Reply) : ∀ line ∈ frontLines reply, IsHeaderLine line := by
  intro line hline
  rcases List.mem_cons.mp hline with rfl | hline
  · have hstart : reply.statusLine = 0x48 :: (ascii "TTP/1.1 " ++ reply.status ++ [0x0D]) := rfl
    refine ⟨?_, by rw [hstart]; exact List.cons_ne_nil _ _, ?_⟩
    · have hprotocol : newline ∉ ascii "HTTP/1.1 " := by decide
      have hcr : newline ≠ 0x0D := by decide
      have hstatus : newline ∉ reply.status := reply.status_line
      simp [Reply.statusLine, hprotocol, hcr, hstatus]
    · rw [hstart]
      exact fun heq => absurd (List.cons.inj heq).1 (by decide)
  · obtain ⟨field, hfield, rfl⟩ := List.mem_map.mp hline
    exact isHeaderLine_field (reply.fields field (List.mem_append_left _ hfield)).1

/-- What the front lines say, to their ends or not, has nothing to do with the body. -/
theorem storedLine_front {reply : Reply} {line part : Bytes} (hline : line ∈ frontLines reply)
    (hpart : part <+: line) {e : Bytes × Bytes} (he : storedLine part = some e) :
    e.1 ∉ framingNames := by
  rcases List.mem_cons.mp hline with rfl | hline
  · -- Up to its first colon the status line is no name of a field.
    by_cases hcolon : 0x3A ∈ ascii "HTTP/1.1 " ++ reply.status
    · obtain ⟨name, text, hsplit, hname⟩ := List.eq_append_cons_of_mem hcolon
      have hfield : reply.statusLine = HeaderField.line (name, text) := by
        rw [Reply.statusLine, hsplit, HeaderField.line]
      have hcolon' : 0x3A ∉ ((name, text) : HeaderField).1 := hname
      rw [hfield] at hpart
      obtain ⟨rest, rfl⟩ : ∃ rest, name = 0x48 :: rest := by
        cases name with
        | nil => exact absurd (List.cons.inj hsplit).1 (by decide)
        | cons c rest => exact ⟨rest, by rw [← (List.cons.inj hsplit).1]; rfl⟩
      -- It begins with an H, and neither of the two names does.
      have hstart : e.1 = 0x68 :: rest.map tolower := storedLine_name hcolon' hpart he
      rw [hstart]
      intro hmem
      rcases List.mem_cons.mp hmem with heq | hmem
      · exact absurd (List.cons.inj heq).1 (by decide)
      · exact absurd (List.cons.inj (List.mem_singleton.mp hmem)).1 (by decide)
    · have hnone : storedLine part = none := by
        refine storedLine_none fun hmem => hcolon ?_
        rcases List.prefix_concat_iff.mp hpart with rfl | hpart
        · rwa [List.dropLast_concat] at hmem
        · exact hpart.subset (List.dropLast_subset _ hmem)
      rw [hnone] at he
      cases he
  · obtain ⟨field, hfield, rfl⟩ := List.mem_map.mp hline
    obtain ⟨hvalid, hname⟩ := reply.fields field (List.mem_append_left _ hfield)
    rw [storedLine_name hvalid.name_colon hpart he]
    exact hname

/-- None of it tells a framing. -/
theorem mem_stored_front {reply : Reply} {front : List Bytes}
    (h : ∀ line ∈ front, line ∈ frontLines reply) {e : Bytes × Bytes}
    (he : e ∈ front.filterMap storedLine) : e.1 ∉ framingNames := by
  obtain ⟨line, hline, he⟩ := List.mem_filterMap.mp he
  exact storedLine_front (h line hline) List.prefix_rfl he

/-- What the lines after the field say, to their ends or not. -/
theorem mem_stored_back {reply : Reply} {text : Bytes} (h : text <+: backText reply)
    {e : Bytes × Bytes} (he : e ∈ storedHeaders text) : e.1 ∉ framingNames := by
  have hback : ∀ line ∈ reply.after.map HeaderField.line, IsHeaderLine line ∧
      ∀ part, part <+: line → ∀ e, storedLine part = some e → e.1 ∉ framingNames := by
    intro line hline
    obtain ⟨field, hfield, rfl⟩ := List.mem_map.mp hline
    obtain ⟨hvalid, hname⟩ := reply.fields field (List.mem_append_right _ hfield)
    refine ⟨isHeaderLine_field hvalid, fun part hpart e he => ?_⟩
    rw [storedLine_name hvalid.name_colon hpart he]
    exact hname
  -- The whole lines first, then the one that is cut off.
  have hwhole : ∀ front : List Bytes, (∀ line ∈ front, line ∈ reply.after.map HeaderField.line) →
      e ∈ front.filterMap storedLine → e.1 ∉ framingNames := by
    intro front hfront he
    obtain ⟨line, hline, he⟩ := List.mem_filterMap.mp he
    exact (hback line (hfront line hline)).2 line List.prefix_rfl e he
  rcases prefix_unlines h with ⟨front, line, back, part, hls, hpart, rfl⟩ | ⟨part, hpart, rfl⟩
  · have hline : line ∈ reply.after.map HeaderField.line := by simp [hls]
    have hfront : ∀ l ∈ front, l ∈ reply.after.map HeaderField.line :=
      fun l hl => by simp [hls, hl]
    have hplain : newline ∉ part := fun hc => (hback line hline).1.1 (hpart.subset hc)
    rw [storedHeaders_unlines fun l hl => (hback l (hfront l hl)).1, (headerLines_part hplain).2]
      at he
    rcases List.mem_append.mp he with he | he
    · exact hwhole front hfront he
    · exact (hback line hline).2 part hpart e (by simpa using he)
  · rw [storedHeaders_unlines fun l hl => (hback l hl).1, storedHeaders, headerLines_end hpart,
      List.filterMap_nil, List.append_nil] at he
    exact hwhole _ (fun _ => id) he

/-- **The headers of a packet.**  The packet is a prefix of the reply, and ends before the text of
    the framing field, in that text, or behind it. -/
theorem stored_of_prefix {reply : Reply} {segment : Bytes} (h : segment <+: reply.encode) :
    ∃ pre, (∀ e ∈ pre, e.1 ∉ framingNames) ∧
      (storedHeaders segment = pre ∧ segment.length ≤ fieldStart reply ∨
      (∃ text, text <+: reply.framing.field.2 ∧
        storedHeaders segment = pre ++ [storedField (reply.framing.field.1, text)] ∧
        segment.length = fieldStart reply + text.length + 1) ∨
      ∃ post, (∀ e ∈ post, e.1 ∉ framingNames) ∧
        storedHeaders segment = pre ++ storedField reply.framing.field :: post ∧
        fieldStart reply + reply.framing.field.2.length + 2 ≤ segment.length) := by
  have hfield := reply.framed.field
  rw [encode_eq] at h
  rcases prefix_unlines h with ⟨front, line, back, part, hls, hpart, rfl⟩ | ⟨part, hpart, rfl⟩
  · -- It ends in one of the lines before the field.
    have hmem : ∀ l ∈ front ++ [line], l ∈ frontLines reply := by
      intro l hl
      rw [hls]
      simp only [List.mem_append, List.mem_cons, List.not_mem_nil, or_false] at hl ⊢
      tauto
    have hline : line ∈ frontLines reply := hmem line (by simp)
    have hfront : ∀ l ∈ front, l ∈ frontLines reply := fun l hl => hmem l (by simp [hl])
    have hplain : newline ∉ part :=
      fun hc => (isHeaderLine_front reply line hline).1 (hpart.subset hc)
    refine ⟨front.filterMap storedLine ++ (storedLine part).toList, ?_, .inl ⟨?_, ?_⟩⟩
    · intro e he
      rcases List.mem_append.mp he with he | he
      · exact mem_stored_front hfront he
      · exact storedLine_front hline hpart (by simpa using he)
    · rw [storedHeaders_unlines fun l hl => isHeaderLine_front reply l (hfront l hl),
        (headerLines_part hplain).2]
    · have hlen := hpart.length_le
      rw [fieldStart, hls, unlines_append, unlines_cons]
      simp only [List.length_append, List.length_cons]
      omega
  · have hfront := storedHeaders_unlines (isHeaderLine_front reply)
    refine ⟨(frontLines reply).filterMap storedLine,
      fun e he => mem_stored_front (fun _ => id) he, ?_⟩
    have hend : reply.framing.field.line ++ newline :: backText reply
        = (reply.framing.field.line ++ [newline]) ++ backText reply := by simp
    rw [hend] at hpart
    -- Otherwise it ends inside the line of the field or behind its line feed.
    have hcases : part <+: reply.framing.field.line ∨
        ∃ rest, rest <+: backText reply ∧ part = reply.framing.field.line ++ newline :: rest := by
      rcases List.prefix_or_prefix_of_prefix hpart (List.prefix_append _ _) with
        hshort | ⟨rest, rfl⟩
      · rcases List.prefix_concat_iff.mp hshort with rfl | hshort
        · exact .inr ⟨[], List.nil_prefix, rfl⟩
        · exact .inl hshort
      · exact .inr ⟨rest, (List.prefix_append_right_inj _).mp hpart, by simp⟩
    rcases hcases with hshort | ⟨rest, hrest, rfl⟩
    · have hplain : newline ∉ part :=
        fun hc => (isHeaderLine_field hfield).1 (hshort.subset hc)
      rw [hfront, (headerLines_part hplain).2]
      rcases storedLine_part hfield.name_colon hshort with
        ⟨hnone, hlen⟩ | ⟨text, htext, hsome, hlen⟩
      · -- In the name.
        refine .inl ⟨by rw [hnone]; exact List.append_nil _, ?_⟩
        rw [List.length_append, fieldStart]
        omega
      · -- In the text.
        refine .inr (.inl ⟨text, htext, by rw [hsome]; rfl, ?_⟩)
        rw [List.length_append, fieldStart]
        omega
    · -- Behind the line.
      have hline : storedLine reply.framing.field.line
          = some (storedField reply.framing.field) := by
        rw [HeaderField.line, storedLine_colon hfield.name_colon]
      have hlines : ∀ line ∈ [reply.framing.field.line], IsHeaderLine line := by
        simpa using isHeaderLine_field hfield
      have hone := storedHeaders_unlines hlines rest
      rw [unlines_cons, unlines_nil, List.append_assoc, List.cons_append, List.nil_append] at hone
      refine .inr (.inr ⟨storedHeaders rest, fun e => mem_stored_back hrest, ?_, ?_⟩)
      · rw [hfront, hone, List.filterMap_cons_some hline]
        rfl
      · simp only [List.length_append, List.length_cons, fieldStart, HeaderField.line,
          List.length_nil]
        omega

end Icl.Protocol
