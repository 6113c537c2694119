import Icl.Json.Safety

namespace Icl.Json

open Icl.Cxx Icl.Transition

/-!
# The open containers of `Parse`

`Parse` keeps one entry for each open container in each of three maps.  Seen from above this is
a stack of frames, each with what has been read of its container.

* `Frame`, `Machine` — the stack and what a token does to it;
* `Holds` — the maps hold the frames, level by level;
* `act_holds` — each token does the same to the maps and to the frames;
* `parseString_eq_ok_true` — `ParseString` accepts a text, and makes a value of it, exactly when
  the machine does.
-/

/-- An open container: its entries so far, and in an object the name that waits for its value. -/
inductive Frame where
  | array (elements : List JsonValue)
  | object (members : List (Bytes × JsonValue)) (key : Bytes)

namespace Frame

/-- The entry in `tags`. -/
def tag : Frame → Tag
  | .array _ => .array
  | .object _ _ => .object

/-- The entry in `nodes`. -/
def node : Frame → JsonValue
  | .array elements => .array elements
  | .object members _ => .object members

/-- The entry in `keys`. -/
def key : Frame → Bytes
  | .array _ => []
  | .object _ key => key

/-- An entry is added; in an object it takes the name that waits. -/
def add : Frame → JsonValue → Frame
  | .array elements, v => .array (elements ++ [v])
  | .object members key, v => .object (OrdMap.insertOrAssign key v members) []

end Frame

/-- The open containers, the innermost one first, and the separator flag. -/
structure Machine where
  stack : List Frame
  separator : Bool

namespace Machine

/-- No container is open. -/
def init : Machine := ⟨[], true⟩

/-- The name that waits in the innermost container. -/
def key (m : Machine) : Bytes := m.stack.head?.elim [] Frame.key

/-- A container is done: it goes into the one around it, or is the document. -/
def close : List Frame → JsonValue → Turn Machine Outcome
  | [], v => .stop (.ok, some v)
  | f :: fs, v => .next ⟨f.add v :: fs, false⟩

/-- A value that is no container: an entry, or the name of one. -/
def addScalar : List Frame → JsonValue → Turn Machine Outcome
  | [], _ => .stop (.allocError, none)
  | .object members [] :: fs, o =>
    if o.getTag = .string then .next ⟨.object members o.getString :: fs, false⟩
    else .stop (.unquotedKey, none)
  | f :: fs, o => .next ⟨f.add o :: fs, false⟩

/-- What a token does. -/
def act (m : Machine) : Token → Turn Machine Outcome
  | .nul => .next m
  | .error status => .stop (status, none)
  | .scalar o => addScalar m.stack o
  | .arrayBegin => .next ⟨.array [] :: m.stack, true⟩
  | .objectBegin => .next ⟨.object [] [] :: m.stack, true⟩
  | .arrayEnd =>
    match m.stack with
    | [] => .stop (.stackUnderflow, none)
    | .array elements :: fs => close fs (.array elements)
    | .object _ _ :: _ => .stop (.mismatchBracket, none)
  | .objectEnd =>
    match m.stack with
    | [] => .stop (.stackUnderflow, none)
    | .array _ :: _ => .stop (.mismatchBracket, none)
    | .object members key :: fs =>
      if key ≠ [] then .stop (.unexpectedCharacter, none) else close fs (.object members)
  | .colon =>
    if m.separator ∨ m.key = [] then .stop (.unexpectedCharacter, none)
    else .next { m with separator := true }
  | .comma =>
    if m.separator ∨ m.key ≠ [] then .stop (.unexpectedCharacter, none)
    else .next { m with separator := true }

end Machine

/-- A turn of the machine. -/
def machineTurn : Machine × Bytes → Except Fault (Turn (Machine × Bytes) Outcome) :=
  tokenTurn Machine.act

/-! ### The maps hold the frames -/

/-- The maps hold these frames, the innermost one at level `p`; below all of them is a level that
    was never written. -/
def Holds (st : ParserState) : List Frame → Int → Prop
  | [], p => p = -1 ∧ st.tags (-1) = .invalid ∧ st.nodes (-1) = .invalid ∧ st.keys (-1) = []
  | f :: fs, p => st.tags p = f.tag ∧ st.nodes p = f.node ∧ st.keys p = f.key ∧ Holds st fs (p - 1)

/-- The state of `Parse` and the machine are at the same point. -/
structure Represents (st : ParserState) (m : Machine) : Prop where
  frames : Holds st m.stack st.pos
  separator : st.separator = m.separator

theorem represents_init : Represents .init .init := ⟨⟨rfl, rfl, rfl, rfl⟩, rfl⟩

/-- The level counts the frames. -/
theorem Holds.level {st : ParserState} {fs : List Frame} {p : Int} (h : Holds st fs p) :
    p = fs.length - 1 := by
  induction fs generalizing p with
  | nil => exact h.1
  | cons f fs ih =>
    have := ih h.2.2.2
    simp only [List.length_cons, Nat.cast_add, Nat.cast_one]
    omega

/-- Only the levels up to `p` count. -/
theorem Holds.congr {st st' : ParserState} {fs : List Frame} {p : Int} (h : Holds st fs p)
    (htags : ∀ q ≤ p, st'.tags q = st.tags q) (hnodes : ∀ q ≤ p, st'.nodes q = st.nodes q)
    (hkeys : ∀ q ≤ p, st'.keys q = st.keys q) : Holds st' fs p := by
  induction fs generalizing p with
  | nil =>
    obtain ⟨rfl, htag, hnode, hkey⟩ := h
    exact ⟨rfl, (htags _ le_rfl).trans htag, (hnodes _ le_rfl).trans hnode,
      (hkeys _ le_rfl).trans hkey⟩
  | cons f fs ih =>
    obtain ⟨htag, hnode, hkey, hrest⟩ := h
    refine ⟨(htags _ le_rfl).trans htag, (hnodes _ le_rfl).trans hnode,
      (hkeys _ le_rfl).trans hkey, ih hrest ?_ ?_ ?_⟩
    · exact fun q hq => htags q (by omega)
    · exact fun q hq => hnodes q (by omega)
    · exact fun q hq => hkeys q (by omega)

/-- The innermost frame changes, the others stay. -/
theorem Holds.set {st st' : ParserState} {f f' : Frame} {fs : List Frame} {p : Int}
    (h : Holds st (f :: fs) p) (htag : st'.tags p = f'.tag) (hnode : st'.nodes p = f'.node)
    (hkey : st'.keys p = f'.key) (htags : ∀ q < p, st'.tags q = st.tags q)
    (hnodes : ∀ q < p, st'.nodes q = st.nodes q) (hkeys : ∀ q < p, st'.keys q = st.keys q) :
    Holds st' (f' :: fs) p :=
  ⟨htag, hnode, hkey, h.2.2.2.congr (fun q hq => htags q (by omega))
    (fun q hq => hnodes q (by omega)) fun q hq => hkeys q (by omega)⟩

/-! ### Each token does the same to both -/

section Act

variable {st : ParserState} {m : Machine}

/-- An opening bracket. -/
theorem open_holds (h : Represents st m) (f : Frame) (hkey : f.key = []) :
    Represents (st.open_ f.tag f.node) ⟨f :: m.stack, true⟩ := by
  refine ⟨⟨?_, ?_, ?_, ?_⟩, rfl⟩
  · simp [ParserState.open_]
  · simp [ParserState.open_]
  · simp [ParserState.open_, hkey]
  · have hframes : Holds st m.stack (st.pos + 1 - 1) := by simpa using h.frames
    refine hframes.congr ?_ ?_ ?_ <;>
      · intro q hq
        have hne : q ≠ st.pos + 1 := by omega
        simp [ParserState.open_, hne]

/-- A closing bracket that matches. -/
theorem close_holds {f : Frame} {fs : List Frame} (h : Holds st (f :: fs) st.pos) :
    TurnRel Represents (.ok st.close) (.ok (Machine.close fs f.node)) := by
  obtain ⟨htag, hnode, hkey, hrest⟩ := h
  have hlevel := hrest.level
  cases fs with
  | nil =>
    have hpos : st.pos = 0 := by simpa using hlevel
    rw [ParserState.close, if_neg (by omega), ← hpos, hnode]
    exact .stop _
  | cons f' fs =>
    have hpos : st.pos > 0 := by
      simp only [List.length_cons, Nat.cast_add, Nat.cast_one] at hlevel
      omega
    have hne : st.pos - 1 ≠ st.pos := by omega
    obtain ⟨htag', hnode', hkey', -⟩ := id hrest
    -- Only the level below is written, and the one left behind is not looked at any more.
    rw [ParserState.close, if_pos hpos]
    refine .next ⟨hrest.set ?_ ?_ ?_ ?_ ?_ ?_, rfl⟩
    · cases f' <;> simp [htag', Frame.add, Frame.tag]
    · -- The level below takes the entry.
      cases f' <;> simp [htag', hnode', hkey', hnode, hne, Frame.add, Frame.tag, Frame.node,
        Frame.key, JsonValue.objectAddValue, JsonValue.arrayAddValue]
    · cases f' <;> simp [Frame.add, Frame.key]
    · exact fun q hq => rfl
    · intro q hq
      have hq' : q ≠ st.pos := by omega
      have hq'' : q ≠ st.pos - 1 := by omega
      simp only [Function.update_of_ne hq']
      split_ifs <;> simp [hq'']
    · intro q hq
      have hq' : q ≠ st.pos - 1 := by omega
      simp [hq']

/-- A value that is no container. -/
theorem addScalar_holds (h : Represents st m) (o : JsonValue) :
    TurnRel Represents (.ok (st.addScalar o)) (.ok (Machine.addScalar m.stack o)) := by
  obtain ⟨stack, separator⟩ := m
  obtain ⟨hframes, -⟩ := h
  -- Below the level of the new entry nothing is written.
  have hbelow : ∀ {α : Type} (g : Int → α) (v : α), ∀ q < st.pos,
      Function.update g st.pos v q = g q := by
    intro α g v q hq
    exact Function.update_of_ne (by omega) _ _
  cases stack with
  | nil =>
    obtain ⟨hpos, htag, hnode, hkey⟩ := hframes
    have hscalar : st.addScalar o = .stop (.allocError, none) := by
      simp [ParserState.addScalar, hpos, htag, hnode, JsonValue.getTag]
    rw [hscalar]
    exact .stop _
  | cons f fs =>
    obtain ⟨htag, hnode, hkey, -⟩ := id hframes
    cases f with
    | array elements =>
      have hscalar : st.addScalar o = .next { st with
          separator := false
          nodes := Function.update st.nodes st.pos (.array (elements ++ [o]))
          keys := Function.update st.keys st.pos [] } := by
        simp [ParserState.addScalar, htag, hnode, Frame.tag, Frame.node, JsonValue.getTag,
          JsonValue.arrayAddValue]
      rw [hscalar]
      exact .next ⟨hframes.set htag (by simp [Frame.add, Frame.node])
        (by simp [Frame.add, Frame.key]) (fun _ _ => rfl) (hbelow _ _) (hbelow _ _), rfl⟩
    | object members key =>
      cases key with
      | nil =>
        by_cases ho : o.getTag = .string
        · have hscalar : st.addScalar o = .next { st with
              separator := false
              keys := Function.update st.keys st.pos o.getString } := by
            simp [ParserState.addScalar, htag, hkey, ho, Frame.tag, Frame.key]
          rw [hscalar, Machine.addScalar, if_pos ho]
          exact .next ⟨hframes.set htag hnode (by simp [Frame.key])
            (fun _ _ => rfl) (fun _ _ => rfl) (hbelow _ _), rfl⟩
        · have hscalar : st.addScalar o = .stop (.unquotedKey, none) := by
            simp [ParserState.addScalar, htag, hkey, ho, Frame.tag, Frame.key]
          rw [hscalar, Machine.addScalar, if_neg ho]
          exact .stop _
      | cons c key =>
        have hscalar : st.addScalar o = .next { st with
            separator := false
            nodes := Function.update st.nodes st.pos
              (.object (OrdMap.insertOrAssign (c :: key) o members))
            keys := Function.update st.keys st.pos [] } := by
          simp [ParserState.addScalar, htag, hkey, hnode, Frame.tag, Frame.key, Frame.node,
            JsonValue.getTag, JsonValue.objectAddValue]
        rw [hscalar]
        exact .next ⟨hframes.set htag (by simp [Frame.add, Frame.node])
          (by simp [Frame.add, Frame.key]) (fun _ _ => rfl) (hbelow _ _) (hbelow _ _), rfl⟩

/-- The name that waits. -/
theorem Represents.key (h : Represents st m) : st.keys st.pos = m.key := by
  obtain ⟨stack, separator⟩ := m
  obtain ⟨hframes, -⟩ := h
  cases stack with
  | nil =>
    obtain ⟨hpos, -, -, hkey⟩ := hframes
    rw [hpos, hkey]
    rfl
  | cons f fs => exact hframes.2.2.1

/-- At the lowest level no container is open. -/
theorem Represents.pos_eq (h : Represents st m) : st.pos = -1 ↔ m.stack = [] := by
  rw [h.frames.level, ← List.length_eq_zero_iff]
  omega

/-- **Each token does the same to the maps and to the frames.** -/
theorem act_holds (h : Represents st m) (t : Token) :
    TurnRel Represents (.ok (st.act t)) (.ok (m.act t)) := by
  have hkey := h.key
  have hseparator := h.separator
  have hpos := h.pos_eq
  cases t with
  | nul => exact .next h
  | error status => exact .stop _
  | scalar o => exact addScalar_holds h o
  | arrayBegin => exact .next (open_holds h (.array []) rfl)
  | objectBegin => exact .next (open_holds h (.object [] []) rfl)
  -- A closing bracket looks at the level, and then at the tag of the innermost container.
  | arrayEnd =>
    obtain ⟨stack, separator⟩ := m
    have hframes := h.frames
    cases stack with
    | nil =>
      rw [ParserState.act, if_pos (hpos.mpr rfl)]
      exact .stop _
    | cons f fs =>
      have htag := hframes.1
      rw [ParserState.act, if_neg (mt hpos.mp (List.cons_ne_nil f fs)), htag]
      cases f with
      | array elements => exact close_holds hframes
      | object members key => exact .stop _
  | objectEnd =>
    obtain ⟨stack, separator⟩ := m
    have hframes := h.frames
    cases stack with
    | nil =>
      rw [ParserState.act, if_pos (hpos.mpr rfl)]
      exact .stop _
    | cons f fs =>
      have htag := hframes.1
      rw [ParserState.act, if_neg (mt hpos.mp (List.cons_ne_nil f fs)), htag, hkey]
      cases f with
      | array elements => exact .stop _
      | object members key =>
        -- It fails on a name without a value.
        show TurnRel Represents (.ok (if key ≠ [] then _ else st.close))
          (.ok (if key ≠ [] then _ else Machine.close fs (.object members)))
        by_cases hempty : key ≠ []
        · rw [if_pos hempty, if_pos hempty]
          exact .stop _
        · rw [if_neg hempty, if_neg hempty]
          exact close_holds hframes
  | colon =>
    rw [ParserState.act, Machine.act, hkey, hseparator]
    split_ifs
    · exact .stop _
    · exact .next ⟨h.frames.congr (fun _ _ => rfl) (fun _ _ => rfl) fun _ _ => rfl, rfl⟩
  | comma =>
    rw [ParserState.act, Machine.act, hkey, hseparator]
    split_ifs
    · exact .stop _
    · exact .next ⟨h.frames.congr (fun _ _ => rfl) (fun _ _ => rfl) fun _ _ => rfl, rfl⟩

end Act

/-! ### `ParseString` and the machine -/

theorem machine_error (m : Machine) (status : ParseStatus) :
    m.act (.error status) = .stop (status, none) := rfl

/-- `Parse` ends as the machine does. -/
theorem parse_of_machine {s : Bytes} (hs : Terminated s) {json : JsonValue}
    {r : Except Fault Outcome} (h : Halts machineTurn (.init, s) r) :
    parse s json = r >>= fun o => .ok (o.1, o.2.getD json) :=
  parse_of_halts hs <| h.simulation
    (tokenTurn_rel fun _ _ t hst => act_holds hst t) ⟨represents_init, rfl⟩

/-- The machine ends on every text. -/
theorem machine_total {s : Bytes} (hs : Terminated s) (m : Machine) :
    ∃ r, Halts machineTurn (m, s) r := by
  have hon : OnText (m, s) := .inl hs
  exact halts_total (tokenTurn_measure machine_error) hon

/-! ### Everything a token can do -/

/-- What can come next in an open container. -/
inductive Place where
  /-- An element of an array. -/
  | element
  /-- The name of a member. -/
  | name
  /-- The value of a member whose name is known. -/
  | value
  deriving DecidableEq, Repr

/-- The place after an entry. -/
def Place.next : Place → Place
  | .element => .element
  | .name | .value => .name

namespace Frame

/-- What can come next; an empty name does not count as one. -/
def place : Frame → Place
  | .array _ => .element
  | .object _ [] => .name
  | .object _ (_ :: _) => .value

/-- The bracket that ends the container. -/
def closing : Frame → Token
  | .array _ => .arrayEnd
  | .object _ _ => .objectEnd

theorem key_eq_nil {f : Frame} : f.key = [] ↔ f.place ≠ .value := by
  rcases f with _ | ⟨_, _ | _⟩ <;> simp [key, place]

end Frame

/-- What a token can do when a container is open. -/
inductive Does (f : Frame) (fs : List Frame) (sep : Bool) :
    Token → Turn Machine Outcome → Prop where
  | nul : Does f fs sep .nul (.next ⟨f :: fs, sep⟩)
  | fail {t : Token} {status : ParseStatus} : status ≠ .ok → Does f fs sep t (.stop (status, none))
  | entry {o : JsonValue} : f.place ≠ .name →
      Does f fs sep (.scalar o) (.next ⟨f.add o :: fs, false⟩)
  | name {members : List (Bytes × JsonValue)} {s : Bytes} : f = .object members [] →
      Does f fs sep (.scalar (.string s)) (.next ⟨.object members s :: fs, false⟩)
  | beginArray : Does f fs sep .arrayBegin (.next ⟨.array [] :: f :: fs, true⟩)
  | beginObject : Does f fs sep .objectBegin (.next ⟨.object [] [] :: f :: fs, true⟩)
  | close : f.place ≠ .value → Does f fs sep f.closing (Machine.close fs f.node)
  | colon : f.place = .value → sep = false → Does f fs sep .colon (.next ⟨f :: fs, true⟩)
  | comma : f.place ≠ .value → sep = false → Does f fs sep .comma (.next ⟨f :: fs, true⟩)

/-- **Everything a token can do.** -/
theorem act_does (f : Frame) (fs : List Frame) (sep : Bool) {t : Token} (ht : t ≠ .error .ok) :
    Does f fs sep t (Machine.act ⟨f :: fs, sep⟩ t) := by
  cases t with
  | nul => exact .nul
  | error status => exact .fail (by rintro rfl; exact ht rfl)
  | scalar o =>
    -- An entry, unless the frame is an object without a name, where a string is one.
    rcases f with elements | ⟨members, _ | ⟨c, key⟩⟩
    · exact .entry (by simp [Frame.place])
    · show Does _ _ _ _ (if o.getTag = .string then _ else _)
      split_ifs with ho
      · cases o with
        | string s => exact .name rfl
        | _ => simp [JsonValue.getTag] at ho
      · exact .fail (by decide)
    · exact .entry (by simp [Frame.place])
  | arrayBegin => exact .beginArray
  | objectBegin => exact .beginObject
  | arrayEnd =>
    cases f with
    | array elements => exact .close (by simp [Frame.place])
    | object members key => exact .fail (by decide)
  | objectEnd =>
    rcases f with elements | ⟨members, _ | ⟨c, key⟩⟩
    · exact .fail (by decide)
    · exact .close (by simp [Frame.place])
    · exact .fail (by decide)
  | colon =>
    show Does _ _ _ _ (if sep = true ∨ f.key = [] then _ else _)
    split_ifs with hfail
    · exact .fail (by decide)
    · rw [not_or, Frame.key_eq_nil, not_not] at hfail
      exact .colon hfail.2 (by simpa using hfail.1)
  | comma =>
    show Does _ _ _ _ (if sep = true ∨ f.key ≠ [] then _ else _)
    split_ifs with hfail
    · exact .fail (by decide)
    · rw [not_or, not_not, Frame.key_eq_nil] at hfail
      exact .comma hfail.2 (by simpa using hfail.1)

/-- What a token can do before a container is open. -/
inductive Starts (sep : Bool) : Token → Turn Machine Outcome → Prop where
  | nul : Starts sep .nul (.next ⟨[], sep⟩)
  | fail {t : Token} {status : ParseStatus} : status ≠ .ok → Starts sep t (.stop (status, none))
  | beginArray : Starts sep .arrayBegin (.next ⟨[.array []], true⟩)
  | beginObject : Starts sep .objectBegin (.next ⟨[.object [] []], true⟩)
  | comma : sep = false → Starts sep .comma (.next ⟨[], true⟩)

theorem act_starts (sep : Bool) {t : Token} (ht : t ≠ .error .ok) :
    Starts sep t (Machine.act ⟨[], sep⟩ t) := by
  cases t with
  | nul => exact .nul
  | error status => exact .fail (by rintro rfl; exact ht rfl)
  | scalar o => exact .fail (by decide)
  | arrayBegin => exact .beginArray
  | objectBegin => exact .beginObject
  | arrayEnd => exact .fail (by decide)
  | objectEnd => exact .fail (by decide)
  | colon =>
    have hact : Machine.act ⟨[], sep⟩ .colon = .stop (.unexpectedCharacter, none) := by
      simp [Machine.act, Machine.key]
    rw [hact]
    exact .fail (by decide)
  | comma =>
    cases sep with
    | false => exact .comma rfl
    | true => exact .fail (by decide)

/-! ### Acceptance -/

/-- Only the end of the document is a success. -/
theorem machineTurn_stop_ok {p : Machine × Bytes} {o : Option JsonValue}
    (hp : OnText p) (h : machineTurn p = .ok (.stop (.ok, o))) :
    ∃ v, o = some v := by
  obtain ⟨⟨stack, sep⟩, s⟩ := p
  obtain hstop | ⟨t, s', -, hreads, hturn⟩ := tokenTurn_inv hp h
  · cases hstop
  have hstop := Turn.map_eq_stop.mp hturn.symm
  have ht := hreads.ne_error_ok
  -- Of the turns that stop, all but the closing of the root report an error.
  cases stack with
  | nil =>
    have hstarts := act_starts sep ht
    rw [hstop] at hstarts
    cases hstarts with
    | fail hstatus => exact absurd rfl hstatus
  | cons f fs =>
    have hdoes := act_does f fs sep ht
    rw [hstop] at hdoes
    generalize hturn : Turn.stop (ParseStatus.ok, o) = turn at hdoes
    cases hdoes with
    | fail hstatus =>
      cases hturn
      exact absurd rfl hstatus
    | close _ =>
      cases fs with
      | nil => exact ⟨f.node, by simpa [Machine.close] using hturn⟩
      | cons f' fs => simp [Machine.close] at hturn
    | _ => cases hturn

/-- **Acceptance**: `ParseString` returns true with a value exactly when the machine ends with
    it. -/
theorem parseString_eq_ok_true {json v : JsonValue} {data : Bytes} :
    parseString json data = .ok (true, v) ↔
      Halts machineTurn (.init, cStr data) (.ok (.ok, some v)) := by
  have hs := terminated_cStr data
  constructor
  · intro h
    obtain ⟨r, hr⟩ := machine_total hs .init
    rw [parseString, parse_of_machine hs hr] at h
    obtain ⟨⟨status, o⟩, rfl⟩ : ∃ o, r = .ok o := by
      cases r with
      | error e => simp at h
      | ok o => exact ⟨o, rfl⟩
    have hok : status = .ok ∧ o.getD json = v := by simpa using h
    obtain ⟨rfl, hv⟩ := hok
    -- A run that ends well ends with a value.
    have hsome : ∃ v, o = some v := by
      have hinv : ∀ {p : Machine × Bytes} {r : Except Fault Outcome}, Halts machineTurn p r →
          OnText p → r = .ok (.ok, o) → ∃ v, o = some v := by
        intro p r h
        induction h with
        | fault _ => rintro - ⟨⟩
        | stop hturn =>
          rintro hp ⟨⟩
          exact machineTurn_stop_ok hp hturn
        | next hturn _ ih =>
          intro hp hr
          exact ih (tokenTurn_measure machine_error _ _ hp hturn).1 hr
      exact hinv hr (.inl hs) rfl
    obtain ⟨v', rfl⟩ := hsome
    obtain rfl : v' = v := hv
    exact hr
  · intro h
    rw [parseString, parse_of_machine hs h]
    rfl

end Icl.Json
