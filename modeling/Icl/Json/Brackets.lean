import Icl.Format.Brackets
import Icl.Json.Frames
import Icl.Json.Nodes

namespace Icl.Json

open Icl.Cxx Icl.Format Icl.Transition

/-!
# What `ParseString` leaves behind

* `OpenBrackets` — the brackets read so far, seen from the open containers;
* `ReadTo` — the invariant: the nodes are set, and the brackets are those of the containers;
* `machineTurn_next`, `machineTurn_stop` — what one turn does to it;
* `parseString_shape` — a failure changes nothing, and a success comes from one container whose
  brackets are properly nested.
-/

/-! ### The brackets of the open containers -/

/-- A node that has a value. -/
def IsSet (v : JsonValue) : Prop := v.getTag ≠ .invalid

namespace Frame

/-- The bracket that opened the container. -/
def opening : Frame → UInt8
  | .array _ => 0x5B
  | .object _ _ => 0x7B

/-- The character of the bracket that ends it. -/
def closer : Frame → UInt8
  | .array _ => 0x5D
  | .object _ _ => 0x7D

theorem punctuation_closer (f : Frame) : punctuation f.closer = some f.closing := by
  cases f <;> rfl

theorem matching (f : Frame) : Matching f.opening f.closer := by
  cases f
  · exact .square
  · exact .curly

theorem yields_closer (f : Frame) : Yields [f.closer] [f.closer] :=
  yields_bracket (by cases f <;> rfl)

@[simp] theorem opening_add (f : Frame) (v : JsonValue) : (f.add v).opening = f.opening := by
  cases f <;> rfl

/-- An entry that is set keeps the node set. -/
theorem all_add {f : Frame} {v : JsonValue} (hf : f.node.All IsSet) (hv : v.All IsSet) :
    (f.add v).node.All IsSet := by
  cases f with
  | array elements =>
    refine all_array.mpr ⟨by simp [IsSet, JsonValue.getTag], fun e he => ?_⟩
    rcases List.mem_append.mp he with he | he
    · exact (all_array.mp hf).2 e he
    · obtain rfl : e = v := by simpa using he
      exact hv
  | object members key =>
    refine all_object.mpr ⟨by simp [IsSet, JsonValue.getTag], fun e he => ?_⟩
    rcases OrdMap.mem_insertOrAssign he with rfl | he
    · exact hv
    · exact (all_object.mp hf).2 e he

end Frame

/-- The brackets so far: for each open container, the innermost one first, its opening bracket and
    what is nested after it. -/
inductive OpenBrackets : List Frame → Bytes → Prop where
  | nil : OpenBrackets [] []
  | cons {f : Frame} {fs : List Frame} {bs inner : Bytes} : OpenBrackets fs bs → Nested inner →
      OpenBrackets (f :: fs) (bs ++ f.opening :: inner)

/-- The entries of the innermost container do not count. -/
theorem OpenBrackets.congr {f f' : Frame} {fs : List Frame} {bs : Bytes}
    (h : OpenBrackets (f :: fs) bs) (hf : f'.opening = f.opening) : OpenBrackets (f' :: fs) bs := by
  cases h with
  | cons hfs hinner =>
    rw [← hf]
    exact .cons hfs hinner

theorem OpenBrackets.open_ {fs : List Frame} {bs : Bytes} (h : OpenBrackets fs bs) (f : Frame) :
    OpenBrackets (f :: fs) (bs ++ [f.opening]) := .cons h .nil

/-- A closing bracket makes the container a part of what is nested in the one around it. -/
theorem OpenBrackets.close {f f' : Frame} {fs : List Frame} {bs : Bytes}
    (h : OpenBrackets (f :: f' :: fs) bs) : OpenBrackets (f' :: fs) (bs ++ [f.closer]) := by
  cases h with
  | cons hfs hinner =>
    cases hfs with
    | @cons _ _ bs outer hfs houter =>
      have hnested := Nested.append houter (.enclose f.matching hinner)
      simpa using OpenBrackets.cons (f := f') hfs hnested

/-- The closing bracket of the root closes the first bracket. -/
theorem OpenBrackets.enclosed {f : Frame} {bs : Bytes} (h : OpenBrackets [f] bs) :
    Enclosed (bs ++ [f.closer]) := by
  cases h with
  | cons hfs hinner =>
    cases hfs
    exact ⟨f.opening, _, f.closer, rfl, f.matching, hinner⟩

/-! ### The invariant -/

/-- The text has been read up to `s`: all nodes are set, and the brackets read are those of the
    open containers. -/
structure ReadTo (text : Bytes) (fs : List Frame) (s : Bytes) : Prop where
  nodes : ∀ f ∈ fs, f.node.All IsSet
  brackets : ∃ pre bs, text = pre ++ s ∧ Yields pre bs ∧ OpenBrackets fs bs

/-- One part more has been read. -/
theorem ReadTo.advance {text s s' new : Bytes} {fs fs' : List Frame} (part : Bytes)
    (h : ReadTo text fs s) (hs : s = part ++ s') (hpart : Yields part new)
    (hnodes : ∀ f ∈ fs', f.node.All IsSet)
    (hopen : ∀ bs, OpenBrackets fs bs → OpenBrackets fs' (bs ++ new)) : ReadTo text fs' s' := by
  obtain ⟨pre, bs, rfl, hpre, hbs⟩ := h.brackets
  exact ⟨hnodes, pre ++ part, bs ++ new, by simp [hs], hpre.append hpart, hopen bs hbs⟩

/-- A part without brackets, that changes the innermost container only. -/
theorem ReadTo.advance_nil {text s s' : Bytes} {f f' : Frame} {fs : List Frame} (part : Bytes)
    (h : ReadTo text (f :: fs) s) (hs : s = part ++ s') (hpart : Yields part [])
    (hf : f'.opening = f.opening) (hnode : f'.node.All IsSet) : ReadTo text (f' :: fs) s' := by
  refine h.advance part hs hpart (List.forall_mem_cons.mpr ⟨hnode, ?_⟩) fun bs hbs => ?_
  · exact (List.forall_mem_cons.mp h.nodes).2
  · rw [List.append_nil]
    exact hbs.congr hf

theorem yields_blank {w : Bytes} (hw : Blank w) : Yields w [] := by
  refine yields_nil_of_forall fun c hc => ?_
  have hbyte := forall_byte (p := fun c => !isspace c || (c != 0x22 && !isBracket c))
    (by decide +kernel) c
  simpa [hw c hc] using hbyte

/-- Blanks and a character that is no bracket. -/
theorem yields_separator {w : Bytes} (hw : Blank w) {c : UInt8} (hquote : c ≠ 0x22)
    (hc : isBracket c = false) : Yields (w ++ [c]) [] :=
  (yields_blank hw).append (yields_nil_of_forall (by simp [hquote, hc]))

/-- Blanks and a bracket. -/
theorem yields_blank_bracket {w : Bytes} (hw : Blank w) {c : UInt8} (h : Yields [c] [c]) :
    Yields (w ++ [c]) [c] := (yields_blank hw).append h

/-- A scalar has no brackets outside strings. -/
theorem yields_scalar {o : Option JsonValue} {b : Bytes} (h : ScalarText o b) : Yields b [] := by
  cases h with
  | null => exact yields_nil_of_forall (by decide +kernel)
  | bool b => cases b <;> exact yields_nil_of_forall (by decide +kernel)
  | number hshape _ => exact yields_number hshape
  | string hitems => exact yields_quoted hitems

/-- A number is an integer or a double. -/
theorem isSet_numberValue {n : NumText} {v : JsonValue} (h : numberValue n = .ok v) :
    v.All IsSet := by
  obtain ⟨result, -, h⟩ := bind_eq_ok.mp h
  simp only [pure_eq_ok, Except.ok.injEq] at h
  split_ifs at h <;> simp [← h, JsonValue.All, IsSet, JsonValue.getTag]

/-- A scalar is set. -/
theorem isSet_scalar {v : JsonValue} {b : Bytes} (h : ScalarText (some v) b) : v.All IsSet := by
  generalize ho : some v = o at h
  cases h with
  | null =>
    cases ho
    simp [JsonValue.All, IsSet, JsonValue.getTag]
  | bool b =>
    cases ho
    simp [JsonValue.All, IsSet, JsonValue.getTag]
  | @number n _ _ =>
    cases hn : numberValue n with
    | error e => simp [hn, Except.toOption] at ho
    | ok u =>
      obtain rfl : v = u := by simpa [hn, Except.toOption] using ho
      exact isSet_numberValue hn
  | string _ =>
    split_ifs at ho
    cases ho
    simp [JsonValue.All, IsSet, JsonValue.getTag]

/-! ### Turns of the machine -/

/-- The cursor is at the NUL or past it, where no document ends. -/
def AtEnd (s : Bytes) : Prop := s = [0] ∨ s = []

section ReadTo

variable {text s s' : Bytes} {f f' : Frame} {fs : List Frame} {t : Token}

/-- A bracket opens a container. -/
theorem ReadTo.openBracket (h : ReadTo text fs s) (hreads : Reads s (.ok (t, s')))
    (ht : punctuation f.opening = some t) (hbracket : isBracket f.opening = true)
    (hnode : f.node.All IsSet) : ReadTo text (f :: fs) s' := by
  obtain ⟨w, hw, rfl, -⟩ := hreads.punctuation_inv ht
  refine h.advance (w ++ [f.opening]) (by simp)
    (yields_blank_bracket hw (yields_bracket hbracket)) ?_ fun bs hbs => hbs.open_ f
  exact List.forall_mem_cons.mpr ⟨hnode, h.nodes⟩

/-- A bracket closes the innermost container, which goes into the one around it. -/
theorem ReadTo.closeBracket (h : ReadTo text (f :: f' :: fs) s)
    (hreads : Reads s (.ok (f.closing, s'))) : ReadTo text (f'.add f.node :: fs) s' := by
  obtain ⟨w, hw, rfl, -⟩ := hreads.punctuation_inv f.punctuation_closer
  obtain ⟨hnode, hnodes⟩ := List.forall_mem_cons.mp h.nodes
  obtain ⟨hnode', hnodes'⟩ := List.forall_mem_cons.mp hnodes
  refine h.advance (w ++ [f.closer]) (by simp) (yields_blank_bracket hw f.yields_closer) ?_
    fun bs hbs => ?_
  · exact List.forall_mem_cons.mpr ⟨Frame.all_add hnode' hnode, hnodes'⟩
  · exact hbs.close.congr (f'.opening_add _)

/-- A comma or a colon. -/
theorem ReadTo.separator (h : ReadTo text fs s) {c : UInt8} (hreads : Reads s (.ok (t, s')))
    (ht : punctuation c = some t) (hquote : c ≠ 0x22) (hc : isBracket c = false) :
    ReadTo text fs s' := by
  obtain ⟨w, hw, rfl, -⟩ := hreads.punctuation_inv ht
  refine h.advance (w ++ [c]) (by simp) (yields_separator hw hquote hc) h.nodes fun bs hbs => ?_
  rwa [List.append_nil]

/-- A scalar, which may change the innermost container. -/
theorem ReadTo.scalar (h : ReadTo text (f :: fs) s) {o : JsonValue}
    (hreads : Reads s (.ok (.scalar o, s'))) (hf : f'.opening = f.opening)
    (hnode : o.All IsSet → f'.node.All IsSet) : AtEnd s' ∨ ReadTo text (f' :: fs) s' := by
  by_cases hzero : s' = [0]
  · exact .inl (.inl hzero)
  · obtain ⟨w, b, hw, rfl, hb, -, -⟩ := hreads.scalar_inv hzero
    exact .inr (h.advance_nil (w ++ b) (List.append_assoc w b s').symm
      ((yields_blank hw).append_nil (yields_scalar hb)) hf (hnode (isSet_scalar hb)))

end ReadTo

/-- **The step lemma.** -/
theorem machineTurn_next {text s s' : Bytes} {m m' : Machine} (hs : OnText (m, s))
    (hread : ReadTo text m.stack s) (h : machineTurn (m, s) = .ok (.next (m', s'))) :
    AtEnd s' ∨ ReadTo text m'.stack s' := by
  obtain hstop | ⟨t, s₁, -, hreads, hturn⟩ := tokenTurn_inv hs h
  · cases hstop
  obtain ⟨m₁, hact, hnext⟩ := Turn.map_eq_next.mp hturn.symm
  obtain ⟨rfl, rfl⟩ := Prod.mk.inj hnext.symm
  obtain ⟨stack, sep⟩ := m
  have ht := hreads.ne_error_ok
  have harray : (JsonValue.array []).All IsSet := by
    simp [all_array, IsSet, JsonValue.getTag]
  have hobject : (JsonValue.object []).All IsSet := by
    simp [all_object, IsSet, JsonValue.getTag]
  -- At the root only a bracket can open; inside, a frame takes what comes.
  cases stack with
  | nil =>
    have hstarts := act_starts sep ht
    rw [hact] at hstarts
    generalize hturn : Turn.next m' = turn at hstarts
    cases hstarts with
    | nul =>
      cases hturn
      exact .inl (.inr hreads.nul_inv)
    | fail _ => cases hturn
    | beginArray =>
      cases hturn
      exact .inr (hread.openBracket hreads rfl rfl harray)
    | beginObject =>
      cases hturn
      exact .inr (hread.openBracket hreads rfl rfl hobject)
    | comma _ =>
      cases hturn
      exact .inr (hread.separator (c := 0x2C) hreads rfl (by decide) rfl)
  | cons f fs =>
    have hdoes := act_does f fs sep ht
    rw [hact] at hdoes
    have hnode := (List.forall_mem_cons.mp hread.nodes).1
    generalize hturn : Turn.next m' = turn at hdoes
    cases hdoes with
    | nul =>
      cases hturn
      exact .inl (.inr hreads.nul_inv)
    | fail _ => cases hturn
    | @entry o _ =>
      cases hturn
      exact hread.scalar hreads (f.opening_add o) fun ho => Frame.all_add hnode ho
    | @name members k hf =>
      cases hturn
      subst hf
      exact hread.scalar hreads rfl fun _ => hnode
    | beginArray =>
      cases hturn
      exact .inr (hread.openBracket hreads rfl rfl harray)
    | beginObject =>
      cases hturn
      exact .inr (hread.openBracket hreads rfl rfl hobject)
    | close _ =>
      -- The bracket that closes the root ends the run and is no turn that goes on.
      cases fs with
      | nil => cases hturn
      | cons f' fs =>
        cases hturn
        exact .inr (hread.closeBracket hreads)
    | colon _ _ =>
      cases hturn
      exact .inr (hread.separator (c := 0x3A) hreads rfl (by decide) rfl)
    | comma _ _ =>
      cases hturn
      exact .inr (hread.separator (c := 0x2C) hreads rfl (by decide) rfl)

/-- **The last turn**: it fails without a value, or closes the root. -/
theorem machineTurn_stop {text s : Bytes} {m : Machine} {status : ParseStatus}
    {o : Option JsonValue} (hs : OnText (m, s)) (hread : AtEnd s ∨ ReadTo text m.stack s)
    (h : machineTurn (m, s) = .ok (.stop (status, o))) :
    status ≠ .ok ∧ o = none ∨
      status = .ok ∧ ∃ (f : Frame) (t : Token) (rest pre : Bytes), o = some f.node ∧
        f.node.All IsSet ∧ nextToken s = .ok (t, rest) ∧ text = pre ++ rest ∧
        Enclosed (brackets .plain pre) := by
  obtain hstop | ⟨t, rest, htoken, hreads, hturn⟩ := tokenTurn_inv hs h
  · cases hstop
    exact .inl ⟨by decide, rfl⟩
  obtain ⟨stack, sep⟩ := m
  have hact := Turn.map_eq_stop.mp hturn.symm
  have ht := hreads.ne_error_ok
  cases stack with
  | nil =>
    have hstarts := act_starts sep ht
    rw [hact] at hstarts
    cases hstarts with
    | fail hstatus => exact .inl ⟨hstatus, rfl⟩
  | cons f fs =>
    have hdoes := act_does f fs sep ht
    rw [hact] at hdoes
    generalize hturn : Turn.stop (status, o) = turn at hdoes
    cases hdoes with
    | fail hstatus =>
      cases hturn
      exact .inl ⟨hstatus, rfl⟩
    | close _ =>
      obtain ⟨w, hw, rfl, hrest⟩ := hreads.punctuation_inv f.punctuation_closer
      cases fs with
      | cons f' fs => cases hturn
      | nil =>
        cases hturn
        rcases hread with hend | hread
        · -- A closing bracket is not at the end of the text.
          have hpos := List.length_pos_iff.mpr fun hnil => not_terminated_nil (hnil ▸ hrest)
          have hle : (w ++ f.closer :: rest).length ≤ 1 := by
            rcases hend with hend | hend <;> simp [hend]
          simp only [List.length_append, List.length_cons] at hle
          omega
        · obtain ⟨pre, bs, rfl, hpre, hbs⟩ := hread.brackets
          have hyields := hpre.append (yields_blank_bracket hw f.yields_closer)
          refine .inr ⟨rfl, f, f.closing, rest, pre ++ (w ++ [f.closer]), rfl, ?_, htoken,
            by simp, ?_⟩
          · exact hread.nodes f List.mem_cons_self
          · rw [hyields.eq]
            exact hbs.enclosed
    | _ => cases hturn

/-! ### `ParseString` -/

/-- The document ends, with this value, where the cursor of `Parse` is on `rest`. -/
def StopsAt (data : Bytes) (v : JsonValue) (rest : Bytes) : Prop :=
  ∃ st s t, Reaches parseTurn (.init, cStr data) (st, s) ∧ nextToken s = .ok (t, rest) ∧
    parseTurn (st, s) = .ok (.stop (.ok, some v))

/-- The state of `Parse` after some turns. -/
def ParseInv (text : Bytes) (p : ParserState × Bytes) : Prop :=
  OnText p ∧ ∃ m, Represents p.1 m ∧ (AtEnd p.2 ∨ ReadTo text m.stack p.2)

theorem parseInv_init (data : Bytes) : ParseInv (cStr data) (.init, cStr data) :=
  ⟨.inl (terminated_cStr data), .init, represents_init,
    .inr ⟨by simp [Machine.init], [], [], rfl, .nil, .nil⟩⟩

theorem parseInv_next {text : Bytes} {p p' : ParserState × Bytes}
    (hturn : parseTurn p = .ok (.next p')) (h : ParseInv text p) : ParseInv text p' := by
  obtain ⟨hon, m, hrep, hread⟩ := h
  have hon' := (tokenTurn_measure act_error p p' hon hturn).1
  obtain ⟨st, s⟩ := p
  obtain ⟨st', s'⟩ := p'
  have hrel : TurnRel _ (parseTurn (st, s)) (machineTurn (m, s)) :=
    tokenTurn_rel (fun _ _ t hst => act_holds hst t) (st, s) (m, s) ⟨hrep, rfl⟩
  rw [hturn] at hrel
  generalize hmachine : machineTurn (m, s) = turn at hrel
  cases hrel with
  | @next _ p' hp =>
    obtain ⟨m', _⟩ := p'
    obtain ⟨hrep', rfl⟩ := hp
    refine ⟨hon', m', hrep', ?_⟩
    rcases hread with hend | hread
    · -- There is no turn at the end of the text.
      rcases hend with rfl | rfl <;> cases hmachine
    · exact machineTurn_next hon hread hmachine

/-- What the last turn leaves. -/
theorem parseInv_stop {text s : Bytes} {st : ParserState} {status : ParseStatus}
    {o : Option JsonValue} (h : ParseInv text (st, s))
    (hturn : parseTurn (st, s) = .ok (.stop (status, o))) :
    status ≠ .ok ∧ o = none ∨
      status = .ok ∧ ∃ (f : Frame) (t : Token) (rest pre : Bytes), o = some f.node ∧
        f.node.All IsSet ∧ nextToken s = .ok (t, rest) ∧ text = pre ++ rest ∧
        Enclosed (brackets .plain pre) := by
  obtain ⟨hon, m, hrep, hread⟩ := h
  have hrel : TurnRel _ (parseTurn (st, s)) (machineTurn (m, s)) :=
    tokenTurn_rel (fun _ _ t hst => act_holds hst t) (st, s) (m, s) ⟨hrep, rfl⟩
  rw [hturn] at hrel
  generalize hmachine : machineTurn (m, s) = turn at hrel
  cases hrel with
  | stop _ => exact machineTurn_stop hon hread hmachine

/-- **What `ParseString` leaves behind.**  A failure leaves the value as it was.  After a success
    the value is an array or an object, none of its nodes is invalid, and the brackets outside
    strings in the text up to the cursor are properly nested, the last one closing the first. -/
theorem parseString_shape {json json' : JsonValue} {data : Bytes} {valid : Bool}
    (h : parseString json data = .ok (valid, json')) :
    (valid = false → json' = json) ∧
      (valid = true → (json'.getTag = .array ∨ json'.getTag = .object) ∧
        (json'.All fun v => v.getTag ≠ .invalid) ∧
        ∃ text rest, cStr data = text ++ rest ∧ StopsAt data json' rest ∧
          Enclosed (brackets .plain text)) := by
  have hterm := terminated_cStr data
  have hon : OnText (ParserState.init, cStr data) := .inl hterm
  obtain ⟨r, hr⟩ := halts_total (tokenTurn_measure act_error) hon
  rw [parseString, parse_of_halts hterm hr] at h
  cases r with
  | error e => cases h
  | ok result =>
    obtain ⟨status, o⟩ := result
    obtain ⟨⟨st, s⟩, hreach, hstop⟩ := Halts.leads hr
    -- The invariant holds at the last configuration before the stop.
    have hinv := hreach.invariant (fun _ _ hturn hp => parseInv_next hturn hp) (parseInv_init data)
    obtain ⟨rfl, rfl⟩ : (decide (status = .ok)) = valid ∧ o.getD json = json' := by simpa using h
    obtain ⟨hstatus, rfl⟩ | ⟨rfl, f, t, rest, pre, rfl, hset, htoken, htext, hbrackets⟩ :=
      parseInv_stop hinv hstop
    · simp [hstatus]
    · refine ⟨by simp, fun _ => ⟨?_, hset, pre, rest, htext, ?_, hbrackets⟩⟩
      · cases f
        · exact .inl rfl
        · exact .inr rfl
      · exact ⟨st, s, t, hreach, htoken, hstop⟩

/-- An array in an object, and a bracket in a string and one after the root. -/
theorem parseString_shape_nested :
    (JsonValue.object [(ascii "a", .array [.string (ascii "]")])]).All
        (fun v => v.getTag ≠ .invalid) ∧
      ∃ text rest, cStr (ascii "\x7b\"a\":[\"]\"]\x7d]") = text ++ rest ∧
        StopsAt (ascii "\x7b\"a\":[\"]\"]\x7d]")
          (.object [(ascii "a", .array [.string (ascii "]")])]) rest ∧
        Enclosed (brackets .plain text) := by
  have hparse : parseString .null (ascii "\x7b\"a\":[\"]\"]\x7d]")
      = .ok (true, .object [(ascii "a", .array [.string (ascii "]")])]) := rfl
  exact ((parseString_shape hparse).2 rfl).2

end Icl.Json
