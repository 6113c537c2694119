import Icl.Json.JsonValue
import Icl.Transition.Loop

namespace Icl.Json

open Icl.Cxx Icl.Transition

/-!
# `JsonReader`

The model of `json/JsonReader.cpp`: `StringToNumber`, `Parse` and `ParseString`.

A `char *` is the list of the bytes from it on, up to and with the NUL that ends the string.
Each `*s` is a match on that list, so a read past the terminator ends in a fault.  One turn of
the loop of `Parse` is `nextToken`, which moves the cursor, and `act`, the part of the `switch`
after it.  The three maps are total functions: an entry that was never written has the default
value, as `operator []` gives it.

`endptr` is left out: `ParseString` does not look at it.
-/

/-- `JsonReader::ParseStatus`. -/
inductive ParseStatus where
  | ok | badNumber | badString | badIdentifier | stackUnderflow | mismatchBracket
  | unexpectedCharacter | unquotedKey | breakingBad | allocError
  deriving DecidableEq, Repr

/-- `IsDelim`. -/
def isDelim (c : UInt8) : Bool :=
  isspace c || c == 0x2C || c == 0x3A || c == 0x5D || c == 0x7D || c == 0

/-- `CharToInt`. -/
def charToInt (c : UInt8) : Nat :=
  if 0x61 ≤ c then c.toNat - 0x61 + 10
  else if 0x41 ≤ c then c.toNat - 0x41 + 10
  else c.toNat - 0x30

/-- The character an escape stands for, `\u` apart. -/
def escapeChar (c : UInt8) : Option UInt8 :=
  if c = 0x5C ∨ c = 0x22 ∨ c = 0x2F then some c        -- '\\', '"', '/'
  else if c = 0x62 then some 0x08                      -- 'b'
  else if c = 0x66 then some 0x0C                      -- 'f'
  else if c = 0x6E then some 0x0A                      -- 'n'
  else if c = 0x72 then some 0x0D                      -- 'r'
  else if c = 0x74 then some 0x09                      -- 't'
  else none

/-- `*s`. -/
def deref : Bytes → Except Fault UInt8
  | [] => .error .pastTerminator
  | c :: _ => .ok c

/-! ### `StringToNumber` -/

/-- `*s - '0'`, as a `double`. -/
def digitToDouble (c : UInt8) : Double := .ofNat (c.toNat - 0x30)

/-- The digits before the point: `result = (result * 10) + (*s++ - '0')`. -/
def scanInt : Bytes → Double → Except Fault (Double × Bytes)
  | [], _ => .error .pastTerminator
  | c :: s, result =>
    if isdigit c then scanInt s ((result.mul (.ofNat 10)).add (digitToDouble c))
    else .ok (result, c :: s)

/-- The digits after the point: `fraction *= 0.1; result += (*s++ - '0') * fraction`. -/
def scanFraction : Bytes → Double → Double → Except Fault (Double × Bytes)
  | [], _, _ => .error .pastTerminator
  | c :: s, fraction, result =>
    if isdigit c then
      let fraction := fraction.mul .tenth
      scanFraction s fraction (result.add ((digitToDouble c).mul fraction))
    else .ok (result, c :: s)

/-- The digits of the exponent: `exponent = (exponent * 10) + (*s++ - '0')` on an `int`. -/
def scanExponent : Bytes → Int → Except Fault (Int × Bytes)
  | [], _ => .error .pastTerminator
  | c :: s, exponent =>
    if isdigit c then scanExponent s (int32 (exponent * 10 + (c.toNat - 0x30)))
    else .ok (exponent, c :: s)

/-- The loop over the bits of the exponent.  A negative `int` shifted right never becomes 0. -/
def powerLoop : Nat → Nat → Double → Double → Double
  | 0, _, _, power => power
  | fuel + 1, exponent, base, power =>
    if exponent = 0 then power
    else powerLoop fuel (exponent / 2) (base.mul base)
      (if exponent % 2 = 1 then power.mul base else power)

/-- `power`, once the loop has ended. -/
def powerOf (exponent : Int) (base : Double) : Except Fault Double :=
  if exponent < 0 then .error .endlessLoop
  else .ok (powerLoop 32 exponent.toNat base (.ofNat 1))

/-- The part from the point on: whether there is one, the result and the cursor. -/
def scanPoint (s : Bytes) (result : Double) : Except Fault (Bool × Double × Bytes) := do
  let c ← deref s
  if c = 0x2E then
    let (result, s) ← scanFraction s.tail (.ofNat 1) result
    return (true, result, s)
  else return (false, result, s)

/-- The sign of the exponent: `base`, and the cursor after it. -/
def scanExponentSign (s : Bytes) : Except Fault (Double × Bytes) := do
  let c ← deref s
  if c = 0x2B then return (.ofNat 10, s.tail)
  else if c = 0x2D then return (.tenth, s.tail)
  else return (.ofNat 10, s)

/-- The part from the exponent letter on. -/
def scanExp (s : Bytes) (result : Double) : Except Fault (Bool × Double × Bytes) := do
  let c ← deref s
  if c = 0x65 ∨ c = 0x45 then
    let (base, s) ← scanExponentSign s.tail
    let (exponent, s) ← scanExponent s 0
    let power ← powerOf exponent base
    return (true, result.mul power, s)
  else return (false, result, s)

/-- `JsonReader::StringToNumber`: the value, and the cursor after the number. -/
def stringToNumber (s : Bytes) : Except Fault (JsonValue × Bytes) := do
  let ch ← deref s
  let s := if ch = 0x2B ∨ ch = 0x2D then s.tail else s
  let (result, s) ← scanInt s (.ofNat 0)
  let (hasPoint, result, s) ← scanPoint s result
  let (hasExp, result, s) ← scanExp s result
  let result := if ch = 0x2D then result.neg else result
  return (if hasPoint || hasExp then .double result else .integer result.toInt64, s)

/-! ### The tokens of `Parse` -/

/-- What one turn of the loop finds: the NUL, a value that is not a container, one of the six
    punctuation characters, or an error. -/
inductive Token where
  | nul
  | scalar (o : JsonValue)
  | arrayBegin | arrayEnd | objectBegin | objectEnd | colon | comma
  | error (status : ParseStatus)
  deriving Repr

/-- `while (*s && isspace(*s)) ++s;` -/
def skipSpace : Bytes → Except Fault Bytes
  | [] => .error .pastTerminator
  | c :: s => if c ≠ 0 ∧ isspace c then skipSpace s else .ok (c :: s)

/-- The bytes pushed for a `\u` escape. -/
def unicodeBytes (c : Nat) : Bytes :=
  if c < 0x80 then [UInt8.ofNat c]
  else if c < 0x800 then [UInt8.ofNat (0xC0 ||| c >>> 6), UInt8.ofNat (0x80 ||| (c &&& 0x3F))]
  else [UInt8.ofNat (0xE0 ||| c >>> 12), UInt8.ofNat (0x80 ||| (c >>> 6 &&& 0x3F)),
    UInt8.ofNat (0x80 ||| (c &&& 0x3F))]

/-- Where the string loop stands: at a character, after a backslash, or before the hexadecimal
    digit `i` of a `\u` escape, `c` being the value of the digits so far. -/
inductive StringMode where
  | plain
  | escape
  | unicode (i c : Nat)
  deriving DecidableEq, Repr

/-- The string loop, after the opening quote: the string and the cursor after it, or none for
    `JSON_PARSE_BAD_STRING`.  The NUL ends the loop too. -/
def scanString : StringMode → Bytes → Bytes → Except Fault (Option (Bytes × Bytes))
  | _, _, [] => .error .pastTerminator
  | .plain, temp, c :: s =>
    -- The text ends inside the string, which is taken as it is.
    if c = 0 then .ok (some (temp, c :: s))
    else if c = 0x5C then scanString .escape temp s
    else if iscntrl c then .ok none
    else if c = 0x22 then .ok (some (temp, s))
    else scanString .plain (temp ++ [c]) s
  | .escape, temp, c :: s =>
    if c = 0x75 then scanString (.unicode 0 0) temp s
    else match escapeChar c with
      | some b => scanString .plain (temp ++ [b]) s
      -- An escape that is none of the eight.
      | none => .ok none
  | .unicode i u, temp, c :: s =>
    if isxdigit c then
      let u := u * 16 + charToInt c
      if i = 3 then scanString .plain (temp ++ unicodeBytes u) s
      else scanString (.unicode (i + 1) u) temp s
    else .ok none

/-- The loop of a literal: its remaining characters, one by one. -/
def scanLiteral : Bytes → Bytes → Except Fault (Option Bytes)
  | [], s => .ok (some s)
  | _, [] => .error .pastTerminator
  | l :: ls, c :: s => if l = c then scanLiteral ls s else .ok none

/-- A value that is not a container has to be followed by a delimiter. -/
def delimited (status : ParseStatus) (o : JsonValue) (s : Bytes) :
    Except Fault (Token × Bytes) := do
  let c ← deref s
  return (if isDelim c then .scalar o else .error status, s)

/-- A number, `first` being its first character. -/
def numberToken (first : UInt8) (s : Bytes) : Except Fault (Token × Bytes) := do
  let c ← deref s
  if first = 0x2D ∧ ¬ isdigit c ∧ c ≠ 0x2E then return (.error .badNumber, s)
  else
    let (o, s) ← stringToNumber (first :: s)
    delimited .badNumber o s

/-- A string, after its opening quote. -/
def stringToken (s : Bytes) : Except Fault (Token × Bytes) := do
  match ← scanString .plain [] s with
  | some (temp, s) => delimited .badString (.string temp) s
  | none => return (.error .badString, s)

/-- A literal, after its first character. -/
def literalToken (rest : Bytes) (o : JsonValue) (s : Bytes) : Except Fault (Token × Bytes) := do
  match ← scanLiteral rest s with
  | some s => delimited .badIdentifier o s
  | none => return (.error .badIdentifier, s)

/-- The `switch`, up to where the cursor has moved past the token. -/
def tokenOf (c : UInt8) (s : Bytes) : Except Fault (Token × Bytes) :=
  if c = 0 then .ok (.nul, s)
  else if c = 0x2D ∨ isdigit c then numberToken c s
  else if c = 0x22 then stringToken s                                 -- '"'
  else if c = 0x74 then literalToken (ascii "rue") (.boolean true) s      -- 't'
  else if c = 0x66 then literalToken (ascii "alse") (.boolean false) s    -- 'f'
  else if c = 0x6E then literalToken (ascii "ull") .null s                -- 'n'
  else if c = 0x5D then .ok (.arrayEnd, s)
  else if c = 0x7D then .ok (.objectEnd, s)
  else if c = 0x5B then .ok (.arrayBegin, s)
  else if c = 0x7B then .ok (.objectBegin, s)
  else if c = 0x3A then .ok (.colon, s)
  else if c = 0x2C then .ok (.comma, s)
  else .ok (.error .unexpectedCharacter, s)

/-- The next token, after white space. -/
def nextToken (s : Bytes) : Except Fault (Token × Bytes) := do
  match ← skipSpace s with
  | [] => .error .pastTerminator
  | c :: s => tokenOf c s

/-! ### The loop of `Parse` -/

/-- The variables of `Parse`, less the cursor. -/
structure ParserState where
  pos : Int
  tags : Int → Tag
  keys : Int → Bytes
  nodes : Int → JsonValue
  separator : Bool

/-- How `Parse` ends: its status and, once the document has been read, the value for `json`. -/
abbrev Outcome := ParseStatus × Option JsonValue

namespace ParserState

/-- The initial values. -/
def init : ParserState :=
  { pos := -1, tags := fun _ => .invalid, keys := fun _ => [], nodes := fun _ => .invalid
    separator := true }

/-- `'['` and `'{'`: a new level. -/
def open_ (st : ParserState) (tag : Tag) (node : JsonValue) : ParserState :=
  let pos := st.pos + 1
  { pos
    nodes := Function.update st.nodes pos node
    tags := Function.update st.tags pos tag
    keys := Function.update st.keys pos []
    separator := true }

/-- `']'` and `'}'`, once the bracket is known to match: the level goes into the one below. -/
def close (st : ParserState) : Turn ParserState Outcome :=
  if st.pos > 0 then
    let prev := st.pos - 1
    let node := st.nodes st.pos
    let nodes :=
      if st.tags prev = .object then
        Function.update st.nodes prev
          ((st.nodes prev).objectAddValue (st.keys prev) node)
      else Function.update st.nodes prev ((st.nodes prev).arrayAddValue node)
    .next { st with
      nodes := Function.update nodes st.pos .invalid
      pos := prev
      keys := Function.update st.keys prev []
      separator := false }
  else .stop (.ok, some (st.nodes 0))

/-- The part after the `switch`: a value that is not a container. -/
def addScalar (st : ParserState) (o : JsonValue) : Turn ParserState Outcome :=
  let st := { st with separator := false }
  if st.tags st.pos = .object then
    -- Where no name is waiting the string is one.
    if st.keys st.pos = [] then
      if o.getTag = .string then
        .next { st with keys := Function.update st.keys st.pos o.getString }
      else .stop (.unquotedKey, none)
    else if (st.nodes st.pos).getTag = .object then
      .next { st with
        nodes := Function.update st.nodes st.pos
          ((st.nodes st.pos).objectAddValue (st.keys st.pos) o)
        keys := Function.update st.keys st.pos [] }
    else .stop (.allocError, none)
  else if (st.nodes st.pos).getTag = .array then
    .next { st with
      nodes := Function.update st.nodes st.pos ((st.nodes st.pos).arrayAddValue o)
      keys := Function.update st.keys st.pos [] }
  else .stop (.allocError, none)

/-- The rest of the `switch`. -/
def act (st : ParserState) : Token → Turn ParserState Outcome
  | .nul => .next st
  | .error status => .stop (status, none)
  | .scalar o => st.addScalar o
  | .arrayBegin => .next (st.open_ .array (.array []))
  | .objectBegin => .next (st.open_ .object (.object []))
  | .arrayEnd =>
    if st.pos = -1 then .stop (.stackUnderflow, none)
    else if st.tags st.pos ≠ .array then .stop (.mismatchBracket, none)
    else st.close
  | .objectEnd =>
    if st.pos = -1 then .stop (.stackUnderflow, none)
    else if st.tags st.pos ≠ .object then .stop (.mismatchBracket, none)
    -- A name that has no value yet.
    else if st.keys st.pos ≠ [] then .stop (.unexpectedCharacter, none)
    else st.close
  | .colon =>
    if st.separator ∨ st.keys st.pos = [] then .stop (.unexpectedCharacter, none)
    else .next { st with separator := true }
  | .comma =>
    if st.separator ∨ st.keys st.pos ≠ [] then .stop (.unexpectedCharacter, none)
    else .next { st with separator := true }

end ParserState

/-- One evaluation of the loop condition and, if it holds, one turn of the loop: a token, and
    what `act` makes of it. -/
def tokenTurn {σ : Type} (act : σ → Token → Turn σ Outcome) (p : σ × Bytes) :
    Except Fault (Turn (σ × Bytes) Outcome) := do
  let c ← deref p.2
  -- The text ends before the root is closed.
  if c = 0 then return .stop (.breakingBad, none)
  else
    let (token, s) ← nextToken p.2
    return (act p.1 token).map fun st => (st, s)

/-- A turn of the loop of `Parse`. -/
def parseTurn : ParserState × Bytes → Except Fault (Turn (ParserState × Bytes) Outcome) :=
  tokenTurn ParserState.act

/-- `JsonReader::Parse`: the status, and `json` afterwards.  Each turn takes at least one byte,
    so that the bytes are fuel enough. -/
def parse (s : Bytes) (json : JsonValue) : Except Fault (ParseStatus × JsonValue) := do
  let (status, value) ← loop parseTurn (s.length + 1) (.init, s)
  return (status, value.getD json)

/-- `data.c_str()`: the string ends at its first NUL. -/
def cStr (data : Bytes) : Bytes := data.takeWhile (· ≠ 0) ++ [0]

/-- `JsonReader::ParseString`. -/
def parseString (json : JsonValue) (data : Bytes) : Except Fault (Bool × JsonValue) := do
  let (status, json) ← parse (cStr data) json
  return (status = .ok, json)

end Icl.Json
