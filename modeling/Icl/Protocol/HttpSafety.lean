import Icl.Protocol.HttpProtocol

namespace Icl.Protocol

open Icl.Cxx Icl.Util

/-!
# The HTTP parsers and their line ends

The parsers take the last character off each line they read, trusting that every line ends
in CRLF.  They stay inside their strings exactly when no line they strip is empty, and the
substrings they take never start past the end.

* `headerLine_defined` — a header line is safe when it is not empty;
* `headerLoop_defined` — the header loop is safe when no line before the separator is empty,
  by induction on the turns;
* `parsers_defined_iff` — the payloads on which the three parsers are safe.
-/

/-! ### What a payload holds -/

/-- The lines the header loop strips: those before the first separator. -/
def headerLines (ls : List Bytes) : List Bytes := ls.takeWhile (· ≠ separatorLine)

/-- The first line is not a lone LF. -/
def FirstLineNonempty (payload : Bytes) : Prop := (lines payload).head? ≠ some []

instance (payload : Bytes) : Decidable (FirstLineNonempty payload) :=
  inferInstanceAs (Decidable (_ ≠ _))

/-- The first line, less its last byte, is three parts cut at single spaces, the first of
    them a supported method. -/
def ValidRequestLine (payload : Bytes) : Prop :=
  ∃ method query protocol, ((lines payload).headD []).dropLast.splitOn 0x20
    = [method, query, protocol] ∧ method ∈ cSupportedMethods

instance (payload : Bytes) : Decidable (ValidRequestLine payload) :=
  match h : ((lines payload).headD []).dropLast.splitOn 0x20 with
  | [method, _, _] =>
    decidable_of_iff (cSupportedMethods.contains method = true) (by
      simp only [ValidRequestLine, h, List.contains_iff_mem]
      simp)
  | [] | [_] | [_, _] | _ :: _ :: _ :: _ :: _ =>
    isFalse (by simp only [ValidRequestLine, h]; simp)

/-! ### One line -/

theorem headerLine_defined {line : Bytes} : Defined (headerLine line) ↔ line ≠ [] := by
  refine ⟨?_, fun hline => ?_⟩
  · rintro ⟨r, hr⟩ rfl
    simp [headerLine] at hr
  · rw [headerLine, popBack_of_ne_nil hline, ok_bind]
    cases hfind : find line.dropLast [0x3A] 0 with
    | none => simp
    | some i =>
      have hcolon : i + 1 ≤ line.dropLast.length := (find_le hfind).2
      simp only [substr_of_le (Nat.zero_le _), substr_of_le hcolon, ok_bind, pure_eq_ok,
        defined_ok]

theorem requestLine_eq {line : Bytes} (h : line ≠ []) :
    requestLine line = .ok (line.dropLast.splitOn 0x20) := by
  rw [requestLine, popBack_of_ne_nil h, ok_bind]
  exact split_single _ _

@[simp] theorem requestLine_nil : requestLine [] = .error .popBackEmpty := rfl

/-! ### The header loop -/

/-- **One turn of the header loop**: the lines are at their end, or the first of them is taken. -/
theorem headerLoop_turn (fuel : Nat) {iss : IStringStream} (hgood : iss.Intact)
    (headers : StringMap) (success : Bool) :
    (lines iss.rest = [] ∧
      ∃ iss', headerLoop (fuel + 1) iss headers success = .ok (headers, success, iss')) ∨
    ∃ line iss', lines iss.rest = line :: lines iss'.rest ∧
      iss'.rest.length < iss.rest.length ∧ iss'.Intact ∧
      headerLoop (fuel + 1) iss headers success
        = if line = separatorLine then .ok (headers, success, iss')
          else headerLine line >>= fun field =>
            headerLoop fuel iss' (field.elim headers fun e => OrdMap.insertNew e.1 e.2 headers)
              (success && field.isSome) := by
  rcases getline_intact hgood [] with ⟨hnone, hfail⟩ | ⟨line, iss', hlines, hget, hless, hgood'⟩
  · left
    rcases hget : getline newline iss [] with ⟨ok, line, iss'⟩
    obtain rfl : ok = false := by simpa [hget] using hfail
    exact ⟨hnone, iss', by rw [headerLoop, hget]⟩
  · refine .inr ⟨line, iss', hlines, hless, hgood', ?_⟩
    rw [headerLoop, hget]
    by_cases hsep : line = separatorLine
    · simp [hsep]
    · simp only [ne_eq, hsep, not_false_iff, if_true, if_false]
      congr 1
      funext field
      rcases field with _ | ⟨option, value⟩ <;> simp

/-- **The header loop** is safe when no line it strips is empty.  The stream gets shorter at
    each turn, so the fuel is enough. -/
theorem headerLoop_defined {fuel : Nat} {iss : IStringStream} (headers : StringMap)
    (success : Bool) (hgood : iss.Intact) (hfuel : iss.rest.length < fuel) :
    Defined (headerLoop fuel iss headers success) ↔ [] ∉ headerLines (lines iss.rest) := by
  induction fuel generalizing iss headers success with
  | zero => omega
  | succ fuel ih =>
    rcases headerLoop_turn fuel hgood headers success with
      ⟨hnone, iss', hturn⟩ | ⟨line, iss', hlines, hless, hgood', hturn⟩
    · simp [hturn, hnone, headerLines]
    · -- The separator ends the loop, an empty line is the fault.
      rw [hturn, hlines, headerLines]
      by_cases hsep : line = separatorLine
      · simp [hsep]
      · have hrest := fun headers success => ih headers success hgood' (by omega)
        rw [if_neg hsep, List.takeWhile_cons_of_pos (by simpa using hsep)]
        rcases hres : headerLine line with e | field
        · have hdefined : Defined (headerLine line) ↔ line ≠ [] := headerLine_defined
          have hempty : line = [] := by simpa [hres] using hdefined
          simp [hempty]
        · have hline : line ≠ [] := headerLine_defined.mp ⟨_, hres⟩
          simpa [headerLines, hline.symm] using hrest _ _

/-- On a stream just opened. -/
theorem headerLoop_ofString (payload : Bytes) (headers : StringMap) (success : Bool) :
    Defined (headerLoop (payload.length + 1) (.ofString payload) headers success) ↔
      [] ∉ headerLines (lines payload) :=
  headerLoop_defined headers success (IStringStream.intact_ofString _) (Nat.lt_succ_self _)

/-! ### The parsers -/

/-- The first `getline` on a payload: nothing on the empty one, else its first line. -/
theorem getline_payload (payload : Bytes) :
    payload = [] ∧ (∃ line iss, getline newline (.ofString payload) [] = (false, line, iss)) ∨
    ∃ line rest iss, lines payload = line :: rest ∧
      getline newline (.ofString payload) [] = (true, line, iss) ∧ lines iss.rest = rest ∧
      iss.rest.length < payload.length ∧ iss.Intact := by
  rcases getline_intact (IStringStream.intact_ofString payload) [] with
    ⟨hnone, hfail⟩ | ⟨line, iss, hlines, hget, hless, hgood⟩
  · refine .inl ⟨lines_eq_nil.mp hnone, ?_⟩
    rcases hget : getline newline (.ofString payload) [] with ⟨ok, line, iss⟩
    obtain rfl : ok = false := by simpa [hget] using hfail
    exact ⟨line, iss, rfl⟩
  · exact .inr ⟨line, _, iss, hlines, hget, rfl, hless, hgood⟩

/-- The fields after the request line: the body is only cut out of the payload when it starts
    inside it. -/
theorem parseRequestFields_defined {payload : Bytes} {iss : IStringStream} (request : HttpRequest)
    (hgood : iss.Intact) (hlen : iss.rest.length < payload.length) :
    Defined (parseRequestFields payload iss request) ↔ [] ∉ headerLines (lines iss.rest) := by
  rw [← headerLoop_defined (parseUrlParameters request).headers true hgood
    (Nat.lt_succ_of_lt hlen), parseRequestFields]
  rcases hloop : headerLoop (payload.length + 1) iss (parseUrlParameters request).headers true
    with e | ⟨headers, success, iss'⟩
  · simp
  · simp only [ok_bind, pure_eq_ok, defined_ok, iff_true]
    by_cases hbody : (iss'.tellg % 2 ^ 32).toNat < payload.length
    · rw [if_pos hbody, substr_of_le (le_of_lt hbody)]
      simp
    · rw [if_neg hbody]
      simp

theorem parseRequestHeader_defined (payload : Bytes) (request : HttpRequest) :
    Defined (parseRequestHeader payload request) ↔ FirstLineNonempty payload ∧
      (ValidRequestLine payload → [] ∉ headerLines (lines payload).tail) := by
  rw [parseRequestHeader, FirstLineNonempty, ValidRequestLine]
  rcases getline_payload payload with ⟨rfl, line, iss, hget⟩ |
    ⟨line, rest, iss, hlines, hget, hrest, hlen, hgood⟩
  · simp [hget, headerLines]
  · simp only [hget, hlines, List.head?_cons, List.headD_cons, List.tail_cons]
    by_cases hline : line = []
    · simp [hline]
    · simp only [requestLine_eq hline, ok_bind, ne_eq, Option.some.injEq, hline, not_false_iff,
        true_and]
      -- Only a request line of three parts with a supported method leads to the header loop.
      split
      · next method query protocol hparts =>
        simp only [hparts, List.cons.injEq, and_true]
        by_cases hmethod : method ∈ cSupportedMethods
        · have hfields := parseRequestFields_defined
            { request with method := method, query := query, protocol := protocol } hgood hlen
          rw [if_pos hmethod]
          simp only [pure_eq_ok, defined_bind_ok, hfields, hrest]
          exact (imp_iff_right ⟨method, query, protocol, ⟨rfl, rfl, rfl⟩, hmethod⟩).symm
        · rw [if_neg hmethod]
          simp only [pure_eq_ok, defined_ok, true_iff]
          rintro ⟨_, _, _, ⟨rfl, -, -⟩, hmem⟩
          exact absurd hmem hmethod
      · next hparts =>
        simp only [pure_eq_ok, defined_ok, true_iff]
        rintro ⟨method, query, protocol, h, -⟩
        exact absurd h (hparts method query protocol)

theorem parseReplyFirstLine_defined (payload : Bytes) (reply : HttpReply) :
    Defined (parseReplyFirstLine payload reply) ↔ FirstLineNonempty payload := by
  rw [parseReplyFirstLine, FirstLineNonempty]
  rcases getline_payload payload with ⟨rfl, line, iss, hget⟩ |
    ⟨line, rest, iss, hlines, hget, -⟩
  · simp [hget]
  · simp only [hget, hlines, List.head?_cons]
    by_cases hline : line = []
    · simp [hline]
    · simp only [requestLine_eq hline, ok_bind, ne_eq, Option.some.injEq, hline, not_false_iff,
        iff_true]
      split <;> simp

theorem parseReplyHeaders_defined (garbage : Nat) (payload : Bytes) (reply : HttpReply) :
    Defined (parseReplyHeaders garbage payload reply) ↔ [] ∉ headerLines (lines payload) := by
  rw [← headerLoop_ofString payload reply.headers true, parseReplyHeaders]
  rcases headerLoop (payload.length + 1) (.ofString payload) reply.headers true
    with e | ⟨headers, success, iss⟩
  · simp
  · simp only [ok_bind, defined_ok, iff_true]
    split
    · split_ifs <;> simp
    · simp

/-- **The payloads the parsers are safe on.**  A request needs a first line that is not empty
    and, if that line is a valid request line, no empty line before the separator; a reply's
    first line needs not to be empty; a reply's headers need no empty line before the
    separator. -/
theorem parsers_defined_iff (payload : Bytes) (request : HttpRequest) (reply : HttpReply)
    (garbage : Nat) :
    (Defined (parseRequestHeader payload request) ↔ FirstLineNonempty payload ∧
      (ValidRequestLine payload → [] ∉ headerLines (lines payload).tail)) ∧
    (Defined (parseReplyFirstLine payload reply) ↔ FirstLineNonempty payload) ∧
    (Defined (parseReplyHeaders garbage payload reply) ↔ [] ∉ headerLines (lines payload)) :=
  ⟨parseRequestHeader_defined payload request, parseReplyFirstLine_defined payload reply,
    parseReplyHeaders_defined garbage payload reply⟩

/-- An empty line where the request line or a header is expected: its last byte is removed. -/
theorem parseRequestHeader_empty_line :
    parseRequestHeader (ascii "\n") .new = .error .popBackEmpty ∧
    parseRequestHeader (ascii "GET / HTTP/1.1\r\n\nHost: a\r\n\r\n") .new
      = .error .popBackEmpty := by
  decide

end Icl.Protocol
