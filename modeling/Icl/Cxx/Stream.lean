import Icl.Cxx.Bytes
import Mathlib.Data.List.TakeWhile

namespace Icl.Cxx

/-!
# `std::istringstream` and `std::getline`

* `IStringStream` — a string stream as the bytes it still holds, their position and the
  `eofbit` and `failbit` of its state;
* `read` — a given number of bytes, or those that are left;
* `getline` — one line up to a delimiter, which is taken out of the stream but not stored;
* `lines` — the lines that successive calls of `getline` return on a whole string
  (`getline_lines`).
-/

/-- A string stream opened for reading. -/
structure IStringStream where
  rest : Bytes
  pos : Nat
  eof : Bool
  fail : Bool
  deriving DecidableEq, Repr

namespace IStringStream

/-- A stream just opened on a string. -/
def ofString (s : Bytes) : IStringStream := { rest := s, pos := 0, eof := false, fail := false }

/-- `good()`. -/
def good (s : IStringStream) : Bool := !s.eof && !s.fail

/-- `tellg()`: it fails on a stream that has met its end, and is `-1` on one that failed. -/
def tellg (s : IStringStream) : Int := if s.good then s.pos else -1

/-- No read has failed yet: the stream is good, or it has met its end and holds nothing. -/
def Intact (s : IStringStream) : Prop := s.good = true ∨ s.rest = [] ∧ s.eof = true

/-- A stream in good state. -/
def reading (rest : Bytes) (pos : Nat) : IStringStream :=
  { rest, pos, eof := false, fail := false }

/-- A new stream has lost nothing. -/
theorem intact_ofString (s : Bytes) : (ofString s).Intact := .inl rfl

/-- `read(sbuf, max)`: the `gcount()` bytes and the stream, which has failed unless there were `max`
    of them. -/
def read (s : IStringStream) (max : Nat) : Bytes × IStringStream :=
  if s.good then
    if max ≤ s.rest.length then
      (s.rest.take max, { s with rest := s.rest.drop max, pos := s.pos + max })
    else (s.rest, { rest := [], pos := s.pos + s.rest.length, eof := true, fail := true })
  else ([], { s with fail := true })

/-- `read` takes `max` characters where there are that many. -/
theorem read_of_le {rest : Bytes} {max : Nat} (h : max ≤ rest.length) (pos : Nat) :
    (reading rest pos).read max = (rest.take max, reading (rest.drop max) (pos + max)) :=
  if_pos h

/-- Where there are fewer it takes those, and the stream is at its end and has failed. -/
theorem read_of_lt {rest : Bytes} {max : Nat} (h : rest.length < max) (pos : Nat) :
    (reading rest pos).read max
      = (rest, { rest := [], pos := pos + rest.length, eof := true, fail := true }) :=
  if_neg (Nat.not_le_of_lt h)

end IStringStream

/-- `std::getline(s, line, delim)`: whether it succeeded, the new line and the stream. -/
def getline (delim : UInt8) (s : IStringStream) (line : Bytes) : Bool × Bytes × IStringStream :=
  if s.good then
    let line := s.rest.takeWhile (· != delim)
    match s.rest.dropWhile (· != delim) with
    | [] =>
      -- The end of the stream came first: a failure only if nothing was extracted.
      (!line.isEmpty, line,
        { rest := [], pos := s.pos + line.length, eof := true, fail := line.isEmpty })
    | _ :: after => (true, line, { s with rest := after, pos := s.pos + line.length + 1 })
  else (false, line, { s with fail := true })

/-- `'\n'`, the delimiter of a line. -/
def newline : UInt8 := 0x0A

/-- The lines of a string.  A line end at the very end of the string starts no new line. -/
def lines : Bytes → List Bytes
  | [] => []
  | c :: cs =>
    if c = newline then [] :: lines cs
    else match lines cs with
      | [] => [[c]]
      | l :: ls => (c :: l) :: ls

@[simp] theorem lines_nil : lines [] = [] := rfl

/-- Only the empty text has no line. -/
theorem lines_eq_nil {s : Bytes} : lines s = [] ↔ s = [] := by
  cases s with
  | nil => simp
  | cons c cs =>
    simp only [lines, reduceCtorEq, iff_false]
    split_ifs
    · simp
    · cases lines cs <;> simp

/-- The first line stops at the first delimiter. -/
theorem lines_cons {c : UInt8} {cs : Bytes} :
    lines (c :: cs) = (c :: cs).takeWhile (· != newline)
      :: lines ((c :: cs).dropWhile (· != newline)).tail := by
  induction cs generalizing c with
  | nil => by_cases h : c = newline <;> simp [lines, h]
  | cons d ds ih =>
    by_cases h : c = newline
    · simp [lines, h]
    · rw [lines, if_neg h, ih]
      simp [h]

/-- A line and its end come off the front. -/
theorem lines_append {line : Bytes} (h : newline ∉ line) (rest : Bytes) :
    lines (line ++ newline :: rest) = line :: lines rest := by
  induction line with
  | nil => simp [lines]
  | cons c line ih =>
    obtain ⟨hc, hline⟩ : newline ≠ c ∧ newline ∉ line := by simpa using h
    rw [List.cons_append, lines, if_neg (Ne.symm hc), ih hline]

/-- A last line without an end. -/
theorem lines_of_not_mem {line : Bytes} (h : newline ∉ line) (hne : line ≠ []) :
    lines line = [line] := by
  induction line with
  | nil => exact absurd rfl hne
  | cons c cs ih =>
    obtain ⟨hc, hcs⟩ : newline ≠ c ∧ newline ∉ cs := by simpa using h
    rw [lines, if_neg (Ne.symm hc)]
    cases cs with
    | nil => rfl
    | cons d cs => rw [ih hcs (List.cons_ne_nil d cs)]

/-- The lines, each with its end. -/
def unlines (ls : List Bytes) : Bytes := ls.flatMap (· ++ [newline])

@[simp] theorem unlines_nil : unlines [] = [] := rfl

/-- Each line is followed by its line feed. -/
theorem unlines_cons (line : Bytes) (ls : List Bytes) :
    unlines (line :: ls) = line ++ newline :: unlines ls := by
  simp [unlines]

/-- The lines of two texts are written one text after the other. -/
theorem unlines_append (ls ls' : List Bytes) : unlines (ls ++ ls') = unlines ls ++ unlines ls' :=
  List.flatMap_append

/-- **Lines without a line feed are read back as they were written.** -/
theorem lines_unlines {ls : List Bytes} (h : ∀ line ∈ ls, newline ∉ line) (rest : Bytes) :
    lines (unlines ls ++ rest) = ls ++ lines rest := by
  induction ls with
  | nil => rfl
  | cons line ls ih =>
    obtain ⟨hline, hls⟩ := List.forall_mem_cons.mp h
    rw [unlines_cons, List.append_assoc, List.cons_append, lines_append hline, ih hls]
    rfl

/-- Where a text of lines may end: in one of its lines, before the end of the line, or behind
    them all. -/
theorem prefix_unlines {ls : List Bytes} {tail text : Bytes} (h : text <+: unlines ls ++ tail) :
    (∃ front line back part, ls = front ++ line :: back ∧ part <+: line ∧
      text = unlines front ++ part) ∨
    ∃ part, part <+: tail ∧ text = unlines ls ++ part := by
  induction ls generalizing text with
  | nil => exact .inr ⟨text, h, rfl⟩
  | cons line ls ih =>
    have hsplit : unlines (line :: ls) ++ tail = (line ++ [newline]) ++ (unlines ls ++ tail) := by
      simp [unlines_cons]
    rw [hsplit] at h
    -- The text ends inside the first line and its line feed, or goes beyond it.
    rcases List.prefix_or_prefix_of_prefix h (List.prefix_append _ _) with hshort | ⟨more, rfl⟩
    · rcases List.prefix_concat_iff.mp hshort with rfl | hpart
      · -- The text ends right behind the line.
        rcases ih (List.nil_prefix (l := unlines ls ++ tail)) with
          ⟨front, line', back, part, rfl, hpart, htext⟩ | ⟨part, hpart, htext⟩
        · exact .inl ⟨line :: front, line', back, part, rfl, hpart, by
            rw [unlines_cons, List.append_assoc, List.cons_append, ← htext]⟩
        · exact .inr ⟨part, hpart, by
            rw [unlines_cons, List.append_assoc, List.cons_append, ← htext]⟩
      · exact .inl ⟨[], line, ls, text, rfl, hpart, rfl⟩
    · rcases ih ((List.prefix_append_right_inj _).mp h) with
        ⟨front, line', back, part, rfl, hpart, rfl⟩ | ⟨part, hpart, rfl⟩
      · exact .inl ⟨line :: front, line', back, part, rfl, hpart, by simp [unlines_cons]⟩
      · exact .inr ⟨part, hpart, by simp [unlines_cons]⟩

/-- A call of `getline` on a stream in good state takes the first line. -/
theorem getline_lines {s : IStringStream} (hgood : s.good = true) (line : Bytes) :
    (s.rest = [] ∧ (getline newline s line).1 = false) ∨
    ∃ s', getline newline s line = (true, (lines s.rest).headD [], s') ∧
      lines s'.rest = (lines s.rest).tail ∧ s'.rest.length < s.rest.length ∧
      s'.Intact := by
  rcases hrest : s.rest with _ | ⟨c, cs⟩
  · simp [getline, hgood, hrest]
  · right
    have hsplit := List.takeWhile_append_dropWhile (p := (· != newline)) (l := c :: cs)
    rw [getline, if_pos hgood, hrest, lines_cons]
    -- The line runs to the end of the text or to the next line feed.
    rcases hdrop : (c :: cs).dropWhile (· != newline) with _ | ⟨d, after⟩
    · have hline : (c :: cs).takeWhile (· != newline) = c :: cs := by
        rw [hdrop, List.append_nil] at hsplit
        exact hsplit
      simp [hline, IStringStream.Intact]
    · have hlen := congrArg List.length hsplit
      rw [hdrop, List.length_append, List.length_cons] at hlen
      refine ⟨_, rfl, rfl, ?_, .inl hgood⟩
      simp only
      omega

/-- A line that ends is taken whole, its end included. -/
theorem getline_reading {delim : UInt8} {line : Bytes} (hline : delim ∉ line) (rest : Bytes)
    (pos : Nat) (old : Bytes) : getline delim (.reading (line ++ delim :: rest) pos) old
      = (true, line, .reading rest (pos + line.length + 1)) := by
  have hother : ∀ c ∈ line, (c != delim) = true := fun c hc => by
    simpa using fun h : c = delim => hline (h ▸ hc)
  have hgood : (IStringStream.reading (line ++ delim :: rest) pos).good = true := rfl
  rw [getline, if_pos hgood]
  simp only [IStringStream.reading, List.takeWhile_append_of_pos hother,
    List.dropWhile_append_of_pos hother]
  simp

/-- A last line without an end is taken whole; from an empty stream nothing is. -/
theorem getline_last {delim : UInt8} {line : Bytes} (hline : delim ∉ line) (pos : Nat)
    (old : Bytes) : getline delim (.reading line pos) old
      = (!line.isEmpty, line,
        { rest := [], pos := pos + line.length, eof := true, fail := line.isEmpty }) := by
  have hother : ∀ c ∈ line, (c != delim) = true := fun c hc => by
    simpa using fun h : c = delim => hline (h ▸ hc)
  have hgood : (IStringStream.reading line pos).good = true := rfl
  rw [getline, if_pos hgood]
  simp only [IStringStream.reading, List.takeWhile_eq_self_iff.mpr hother,
    List.dropWhile_eq_nil_iff.mpr hother]

/-- A stream that has met its end gives no further line. -/
theorem getline_eof {delim : UInt8} {s : IStringStream} (heof : s.eof = true) (line : Bytes) :
    (getline delim s line).1 = false := by
  simp [getline, IStringStream.good, heof]

/-- **One call of `getline`** on a stream that is intact: it takes the first line, or there is
    none. -/
theorem getline_intact {s : IStringStream} (h : s.Intact) (line : Bytes) :
    (lines s.rest = [] ∧ (getline newline s line).1 = false) ∨
    ∃ first s', lines s.rest = first :: lines s'.rest ∧
      getline newline s line = (true, first, s') ∧ s'.rest.length < s.rest.length ∧
      s'.Intact := by
  rcases h with hgood | ⟨hrest, heof⟩
  · rcases getline_lines hgood line with ⟨hrest, hfail⟩ | ⟨s', hget, htail, hless, hs'⟩
    · exact .inl ⟨lines_eq_nil.mpr hrest, hfail⟩
    · right
      cases hl : lines s.rest with
      | nil =>
        rw [lines_eq_nil] at hl
        simp [hl] at hless
      | cons first ls =>
        rw [hl] at hget htail
        exact ⟨first, s', by rw [htail, List.tail_cons], hget, hless, hs'⟩
  · exact .inl ⟨lines_eq_nil.mpr hrest, getline_eof heof line⟩

end Icl.Cxx
