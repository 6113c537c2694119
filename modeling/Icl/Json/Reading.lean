import Icl.Json.Frames

namespace Icl.Json

open Icl.Cxx Icl.Format Icl.Transition

/-!
# What the reader makes of a JSON text

The texts of the grammar are read in one pass, and the value is built on the way.

* `reading` — what becomes of a document; none when the reader fails on it;
* `Fine` — the documents it does not fail on: no raw DEL in a string, no member with an empty
  name, no exponent that turns negative;
* `Comes` — the machine comes to a turn, or accepts nothing;
* `derives_comes` — **the run lemma**: on a text of the grammar the machine comes to the
  reading of the document;
* `reading_isSome` — the reading is there exactly for the fine documents.
-/

/-! ### Readings -/

mutual

/-- What the reader makes of a document. -/
def reading : Json → Option JsonValue
  | .null => some .null
  | .bool b => some (.boolean b)
  | .number n => (numberValue n).toOption
  | .string items => if .raw 0x7F ∈ items then none else some (.string (stringBytes items))
  | .array js => (elementsReading js).map .array
  | .object ms => (membersReading ms []).map .object

/-- The elements of an array, in order. -/
def elementsReading : List Json → Option (List JsonValue)
  | [] => some []
  | j :: js => (reading j).bind fun v => (elementsReading js).map (v :: ·)

/-- The members of an object, one after the other into `acc`. -/
def membersReading : List (List StrItem × Json) → List (Bytes × JsonValue) →
    Option (List (Bytes × JsonValue))
  | [], acc => some acc
  | (name, j) :: ms, acc =>
    if .raw 0x7F ∈ name ∨ name = [] then none
    else (reading j).bind fun v =>
      membersReading ms (OrdMap.insertOrAssign (stringBytes name) v acc)

end

/-! ### Turns of the machine -/

section Turns

variable {m : Machine} {w rest : Bytes}

/-- The machine accepts nothing from here. -/
def Rejects (p : Machine × Bytes) : Prop := ∀ v, ¬ Halts machineTurn p (.ok (.ok, some v))

/-- The machine comes to this turn; without one, it accepts nothing. -/
def Comes (p : Machine × Bytes) : Option (Turn (Machine × Bytes) Outcome) → Prop
  | some t => Leads machineTurn p t
  | none => Rejects p

/-- Whatever is reached comes to the same turn. -/
theorem Comes.of_reaches {p p' : Machine × Bytes} {o : Option (Turn (Machine × Bytes) Outcome)}
    (hreach : Reaches machineTurn p p') (h : Comes p' o) : Comes p o := by
  cases o with
  | some t => exact hreach.leads h
  | none => exact fun v hv => h v (hreach.halts_from hv)

/-- A turn that goes on comes to what the next configuration comes to. -/
theorem Comes.of_next {p p' : Machine × Bytes} {o : Option (Turn (Machine × Bytes) Outcome)}
    (hturn : machineTurn p = .ok (.next p')) (h : Comes p' o) : Comes p o :=
  .of_reaches (.next hturn (.refl p')) h

/-- Runs are put together. -/
theorem Comes.trans {p p' : Machine × Bytes} {o : Option (Turn (Machine × Bytes) Outcome)}
    (h : Comes p (some (.next p'))) (h' : Comes p' o) : Comes p o :=
  .of_reaches (Leads.reaches h) h'

/-- A value is read, and what follows it depends on the value. -/
theorem Comes.bind {α : Type} {p : Machine × Bytes} {x : Option α} {g : α → Machine × Bytes}
    {k : α → Option (Turn (Machine × Bytes) Outcome)} (h : Comes p (x.map fun v => .next (g v)))
    (hk : ∀ v, Comes (g v) (k v)) : Comes p (x.bind k) := by
  cases x with
  | none => exact h
  | some v => exact Comes.trans h (hk v)

/-- A turn that ends the loop without success. -/
theorem rejects_of_stop {p : Machine × Bytes} {status : ParseStatus} {o : Option JsonValue}
    (hstatus : status ≠ .ok) (hturn : machineTurn p = .ok (.stop (status, o))) : Rejects p := by
  intro v hv
  have := hv.unique (.stop hturn)
  simp only [Except.ok.injEq, Prod.mk.injEq] at this
  exact hstatus this.1.symm

/-- A fault is no reading. -/
theorem rejects_of_fault {p : Machine × Bytes} {e : Fault} (hturn : machineTurn p = .error e) :
    Rejects p := fun _ hv => by simpa using hv.unique (.fault hturn)

/-- The text of a token is not the NUL alone. -/
theorem append_ne_zero {b : Bytes} (hb : b ≠ []) (hrest : Terminated rest) :
    w ++ (b ++ rest) ≠ [0] := by
  have hpos := List.length_pos_iff.mpr hb
  have hpos' := List.length_pos_iff.mpr fun hnil => not_terminated_nil (hnil ▸ hrest)
  intro heq
  have := congrArg List.length heq
  simp only [List.length_append, List.length_cons, List.length_nil] at this
  omega

/-- The text of a token, in a C string. -/
theorem terminated_token {b : Bytes} (hw : Blank w) (hb : 0 ∉ b) (hrest : Terminated rest) :
    Terminated (w ++ (b ++ rest)) :=
  (terminated_append hw.not_mem).mpr ((terminated_append hb).mpr hrest)

/-- There is no NUL in a scalar. -/
theorem ScalarText.zero_not_mem {o : Option JsonValue} {b : Bytes} (h : ScalarText o b) :
    0 ∉ b := by
  cases h with
  | null => decide
  | bool b => cases b <;> decide
  | number hshape _ => exact NumText.zero_not_mem hshape
  | string hitems => exact zero_not_mem_quoted hitems

/-- A punctuation character. -/
theorem turn_punctuation (hw : Blank w) {c : UInt8} {t : Token} (h : punctuation c = some t)
    (hrest : Terminated rest) :
    machineTurn (m, w ++ c :: rest) = .ok ((m.act t).map fun m => (m, rest)) := by
  have hzero : 0 ∉ [c] := by
    rcases punctuation_cases h with rfl | rfl | rfl | rfl | rfl | rfl <;> decide
  exact tokenTurn_of_nextToken (terminated_token (b := [c]) hw hzero hrest)
    (append_ne_zero (b := [c]) (by simp) hrest) (nextToken_punctuation hw h hrest) m

/-- A scalar before a delimiter. -/
theorem turn_scalar {v : JsonValue} {b : Bytes} (hw : Blank w) (h : ScalarText (some v) b)
    (hrest : Terminated rest) (hdelim : Delimited rest) :
    machineTurn (m, w ++ (b ++ rest)) = .ok ((m.act (.scalar v)).map fun m => (m, rest)) :=
  tokenTurn_of_nextToken (terminated_token hw h.zero_not_mem hrest)
    (append_ne_zero h.ne_nil hrest) ((nextToken_scalar hw h hrest hdelim).1 v rfl) m

/-- A scalar on which the reader fails. -/
theorem rejects_scalar {b : Bytes} (hw : Blank w) (h : ScalarText none b) (hrest : Terminated rest)
    (hdelim : Delimited rest) : Rejects (m, w ++ (b ++ rest)) := by
  have hs := terminated_token hw h.zero_not_mem hrest
  have hturn : machineTurn (m, w ++ (b ++ rest)) = nextToken (w ++ (b ++ rest)) >>= fun r =>
      .ok ((m.act r.1).map fun m => (m, r.2)) := tokenTurn_eq hs (append_ne_zero h.ne_nil hrest) m
  rcases (nextToken_scalar hw h hrest hdelim).2 rfl with ⟨e, htoken⟩ | ⟨status, s, htoken⟩
  · rw [htoken, error_bind] at hturn
    exact rejects_of_fault hturn
  · have hreads := nextToken_reads hs
    rw [htoken] at hreads hturn
    refine rejects_of_stop ?_ hturn
    rintro rfl
    exact hreads.ne_error_ok rfl

end Turns

/-- The turn that closes a container. -/
def closed (fs : List Frame) (v : JsonValue) (rest : Bytes) : Turn (Machine × Bytes) Outcome :=
  (Machine.close fs v).map fun m => (m, rest)

/-! ### Entries -/

section Entries

variable {f : Frame} {fs : List Frame} {sep : Bool} {w rest : Bytes}

/-- An entry of an array, or the value of a member. -/
theorem act_entry (hf : f.place ≠ .name) (o : JsonValue) :
    Machine.act ⟨f :: fs, sep⟩ (.scalar o) = .next ⟨f.add o :: fs, false⟩ := by
  rcases f with _ | ⟨_, _ | _⟩
  · rfl
  · exact absurd rfl hf
  · rfl

/-- The bracket that ends a container. -/
theorem act_closing (hf : f.place ≠ .value) :
    Machine.act ⟨f :: fs, sep⟩ f.closing = Machine.close fs f.node := by
  rcases f with _ | ⟨_, _ | _⟩
  · rfl
  · rfl
  · exact absurd rfl hf

/-- A comma after an entry. -/
theorem act_comma (hf : f.place ≠ .value) :
    Machine.act ⟨f :: fs, false⟩ .comma = .next ⟨f :: fs, true⟩ := by
  rcases f with _ | ⟨_, _ | _⟩
  · rfl
  · rfl
  · exact absurd rfl hf

/-- A colon after a name. -/
theorem act_colon (hf : f.place = .value) :
    Machine.act ⟨f :: fs, false⟩ .colon = .next ⟨f :: fs, true⟩ := by
  rcases f with _ | ⟨_, _ | _⟩
  · cases hf
  · cases hf
  · rfl

/-- After blanks, a bracket, a comma or a colon delimits what comes before. -/
theorem delimited_append (hw : Blank w) {c : UInt8} (hc : isDelim c = true) :
    Delimited (w ++ c :: rest) := by
  rcases w with _ | ⟨b, w⟩
  · exact ⟨c, rfl, hc⟩
  · exact ⟨b, rfl, by simp [isDelim, hw b (by simp)]⟩

/-- Blanks and a character in front do not terminate the text. -/
theorem terminated_append_cons (hw : Blank w) {c : UInt8} (hc : c ≠ 0) (hrest : Terminated rest) :
    Terminated (w ++ c :: rest) :=
  (terminated_append hw.not_mem).mpr (terminated_cons.mpr (.inr ⟨hc, hrest⟩))

/-- A scalar as an entry. -/
theorem comes_scalar {o : Option JsonValue} {b : Bytes} (h : ScalarText o b)
    (hf : f.place ≠ .name) (hw : Blank w) (hrest : Terminated rest) (hdelim : Delimited rest) :
    Comes (⟨f :: fs, sep⟩, w ++ (b ++ rest))
      (o.map fun v => .next (⟨f.add v :: fs, false⟩, rest)) := by
  cases o with
  | none => exact rejects_scalar hw h hrest hdelim
  | some v =>
    refine .of_turn ?_
    rw [turn_scalar hw h hrest hdelim, act_entry hf]
    rfl

/-- The end of a container. -/
theorem comes_closing {c : UInt8} (hf : f.place ≠ .value) (hc : punctuation c = some f.closing)
    (hw : Blank w) (hrest : Terminated rest) :
    Comes (⟨f :: fs, sep⟩, w ++ c :: rest)
      (some (closed fs f.node rest)) := by
  refine .of_turn ?_
  rw [turn_punctuation hw hc hrest, act_closing hf, closed]

/-- A comma. -/
theorem Comes.comma {o : Option (Turn (Machine × Bytes) Outcome)} (hf : f.place ≠ .value)
    (hw : Blank w) (hrest : Terminated rest) (h : Comes (⟨f :: fs, true⟩, rest) o) :
    Comes (⟨f :: fs, false⟩, w ++ 0x2C :: rest) o := by
  refine .of_next ?_ h
  rw [turn_punctuation hw (t := .comma) rfl hrest, act_comma hf]
  rfl

/-- What the string loop makes of an item is not empty. -/
theorem itemBytes_ne_nil {i : StrItem} (h : i.Valid) : itemBytes i ≠ [] := by
  cases i with
  | raw b => simp [itemBytes]
  | escape c =>
    obtain ⟨b, hb⟩ := Option.isSome_iff_exists.mp h
    rw [← escapeChar_eq] at hb
    simp [itemBytes, hb]
  | unicode h₁ h₂ h₃ h₄ =>
    simp only [itemBytes, unicodeBytes]
    split_ifs <;> simp

/-- Only the empty string stands for no bytes. -/
theorem stringBytes_eq_nil {items : List StrItem} (h : ∀ i ∈ items, i.Valid) :
    stringBytes items = [] ↔ items = [] := by
  constructor
  · intro hnil
    rcases items with _ | ⟨i, items⟩
    · rfl
    · have : itemBytes i = [] := by
        simp only [stringBytes, List.flatMap_cons, List.append_eq_nil_iff] at hnil
        exact hnil.1
      exact absurd this (itemBytes_ne_nil (h i (by simp)))
  · rintro rfl
    rfl

/-- After a name that is not empty its value is awaited. -/
theorem place_name {name : List StrItem} (h : ∀ i ∈ name, i.Valid) (hne : name ≠ [])
    (members : List (Bytes × JsonValue)) :
    (Frame.object members (stringBytes name)).place = .value := by
  by_contra hplace
  exact hne ((stringBytes_eq_nil h).mp (Frame.key_eq_nil.mpr hplace))

/-- A name and the colon after it.  The empty name is taken for none, so that the colon is
    unexpected. -/
theorem comes_name {members : List (Bytes × JsonValue)} {name : List StrItem} {w' : Bytes}
    {o : Option (Turn (Machine × Bytes) Outcome)} (hname : ∀ i ∈ name, i.Valid) (hw : Blank w)
    (hw' : Blank w') (hrest : Terminated rest)
    (h : ¬ (.raw 0x7F ∈ name ∨ name = []) →
      Comes (⟨.object members (stringBytes name) :: fs, true⟩, rest) o) :
    Comes (⟨.object members [] :: fs, sep⟩, w ++ (quoted name ++ (w' ++ 0x3A :: rest)))
      (if .raw 0x7F ∈ name ∨ name = [] then none else o) := by
  have htext := ScalarText.string hname
  have hcolon : Terminated (w' ++ 0x3A :: rest) := terminated_append_cons hw' (by decide) hrest
  have hdelim : Delimited (w' ++ 0x3A :: rest) := delimited_append hw' (by decide)
  by_cases hdel : .raw 0x7F ∈ name
  · rw [if_pos hdel] at htext
    rw [if_pos (.inl hdel)]
    exact rejects_scalar hw htext hcolon hdelim
  · -- The first turn stores the name, the second one takes the colon.
    rw [if_neg hdel] at htext
    have hturn : machineTurn
        (⟨.object members [] :: fs, sep⟩, w ++ (quoted name ++ (w' ++ 0x3A :: rest)))
        = .ok (.next (⟨.object members (stringBytes name) :: fs, false⟩, w' ++ 0x3A :: rest)) :=
      turn_scalar hw htext hcolon hdelim
    refine .of_next hturn ?_
    -- The colon is only taken where the frame has a name.
    have hturn' := turn_punctuation (m := ⟨.object members (stringBytes name) :: fs, false⟩) hw'
      (c := 0x3A) (t := .colon) rfl hrest
    by_cases hnil : name = []
    · -- The frame still looks as if no name had come.
      subst hnil
      rw [if_pos (.inr rfl)]
      have hstatus : ParseStatus.unexpectedCharacter ≠ .ok := by decide
      exact rejects_of_stop hstatus hturn'
    · rw [if_neg (by tauto)]
      rw [act_colon (place_name hname hnil members)] at hturn'
      exact .of_next hturn' (h (by tauto))

end Entries

/-! ### Texts of the grammar -/

/-- The white space of the standard is blanks. -/
theorem Blank.of_isWs {w : Bytes} (h : IsWs w) : Blank w := by
  intro c hc
  rcases h c hc with rfl | rfl | rfl | rfl <;> decide

/-- A text is read as an entry, wherever one can stand. -/
def EntryRuns (o : Option JsonValue) (b : Bytes) : Prop :=
  ∀ f fs sep w rest, Frame.place f ≠ .name → Blank w → Terminated rest → Delimited rest →
    Comes (⟨f :: fs, sep⟩, w ++ (b ++ rest)) (o.map fun v => .next (⟨f.add v :: fs, false⟩, rest))

/-- A text is read as a container, whatever is open around it. -/
def ContainerRuns (o : Option JsonValue) (b : Bytes) : Prop :=
  ∀ m w rest, Blank w → Terminated rest →
    Comes (m, w ++ (b ++ rest)) (o.map fun v => closed m.stack v rest)

/-- A container can be an entry. -/
theorem ContainerRuns.entry {o : Option JsonValue} {b : Bytes} (h : ContainerRuns o b) :
    EntryRuns o b :=
  fun f fs sep w rest _ hw hrest _ => h ⟨f :: fs, sep⟩ w rest hw hrest

/-- **A scalar is an entry**: it is read in one turn. -/
theorem entryRuns_scalar {o : Option JsonValue} {b : Bytes} (h : ScalarText o b) : EntryRuns o b :=
  fun _ _ _ _ _ hf hw hrest hdelim => comes_scalar h hf hw hrest hdelim

/-- A container, by its opening bracket and what comes after it. -/
theorem containerRuns_of_open {o : Option JsonValue} {b : Bytes} {c : UInt8} {t : Token} {f : Frame}
    (hc : punctuation c = some t) (hopen : ∀ m, Machine.act m t = .next ⟨f :: m.stack, true⟩)
    (hbody : ∀ fs rest, Terminated rest → Terminated (b ++ rest) ∧
      Comes (⟨f :: fs, true⟩, b ++ rest) (o.map fun v => closed fs v rest)) :
    ContainerRuns o (c :: b) := by
  intro m w rest hw hrest
  obtain ⟨hb, hcomes⟩ := hbody m.stack rest hrest
  refine .of_next ?_ hcomes
  rw [List.cons_append, turn_punctuation hw hc hb, hopen]
  rfl

/-- A member, up to the end of its value. -/
theorem comes_member {acc : List (Bytes × JsonValue)} {fs : List Frame} {sep : Bool}
    {name : List StrItem} {o : Option JsonValue} {w₁ w₂ w₃ b rest : Bytes}
    {k : JsonValue → Option (Turn (Machine × Bytes) Outcome)} (hname : ∀ i ∈ name, i.Valid)
    (h₁ : Blank w₁) (h₂ : Blank w₂) (h₃ : Blank w₃) (hvalue : EntryRuns o b) (hb : 0 ∉ b)
    (hrest : Terminated rest) (hdelim : Delimited rest)
    (hk : ∀ v, Comes (⟨.object (OrdMap.insertOrAssign (stringBytes name) v acc) [] :: fs, false⟩,
      rest) (k v)) :
    Comes (⟨.object acc [] :: fs, sep⟩, w₁ ++ (quoted name ++ (w₂ ++ 0x3A :: (w₃ ++ (b ++ rest)))))
      (if .raw 0x7F ∈ name ∨ name = [] then none else o.bind k) := by
  refine comes_name hname h₁ h₂ (terminated_token h₃ hb hrest) fun hgood => ?_
  have hplace := place_name hname (fun hnil => hgood (.inr hnil)) acc
  exact (hvalue _ fs true w₃ rest (by simp [hplace]) h₃ hrest hdelim).bind hk

/-- What the run lemma says of a part of a text. -/
def Runs : JsonSym → Bytes → Prop
  | .value j, b => EntryRuns (reading j) b ∧ (j.IsContainer → ContainerRuns (reading j) b)
  | .elements js, b => ∀ vs fs sep rest, Terminated rest →
      Comes (⟨.array vs :: fs, sep⟩, b ++ 0x5D :: rest)
        ((elementsReading js).map fun vs' => closed fs (.array (vs ++ vs')) rest)
  | .members ms, b => ∀ acc fs sep rest, Terminated rest →
      Comes (⟨.object acc [] :: fs, sep⟩, b ++ 0x7D :: rest)
        ((membersReading ms acc).map fun acc' => closed fs (.object acc') rest)

/-- A scalar. -/
theorem runs_scalar {j : Json} {b : Bytes} (h : ScalarText (reading j) b) (hj : ¬ j.IsContainer) :
    Runs (.value j) b :=
  ⟨entryRuns_scalar h, fun hcontainer => absurd hcontainer hj⟩

/-- A container. -/
theorem runs_container {j : Json} {b : Bytes} (h : ContainerRuns (reading j) b) :
    Runs (.value j) b :=
  ⟨h.entry, fun _ => h⟩

/-- There is no NUL in a text of the grammar. -/
theorem zero_not_mem_of_derives {sym : JsonSym} {b : Bytes} (h : Derives sym b) : 0 ∉ b := by
  have hws : ∀ {w}, IsWs w → 0 ∉ w := fun hw => (Blank.of_isWs hw).not_mem
  -- One case for each production of the grammar.
  induction h with
  | null => decide
  | true => decide
  | false => decide
  | number hn => exact NumText.zero_not_mem hn.toShape
  | string hitems => exact zero_not_mem_quoted hitems
  | emptyArray hw => simp [hws hw]
  | array _ ih => simp [ih]
  | lastElement hw _ hw' ih => simp [hws hw, hws hw', ih]
  | nextElement hw _ hw' _ ih ih' => simp [hws hw, hws hw', ih, ih']
  | emptyObject hw => simp [hws hw]
  | object _ ih => simp [ih]
  | lastMember h₁ hname h₂ h₃ _ h₄ ih =>
    simp [hws h₁, hws h₂, hws h₃, hws h₄, zero_not_mem_quoted hname, ih]
  | nextMember h₁ hname h₂ h₃ _ h₄ _ ih ih' =>
    simp [hws h₁, hws h₂, hws h₃, hws h₄, zero_not_mem_quoted hname, ih, ih']

/-- A text of the grammar, a closing character and more, in a C string. -/
theorem terminated_derives {sym : JsonSym} {b rest : Bytes} {c : UInt8} (h : Derives sym b)
    (hc : c ≠ 0) (hrest : Terminated rest) : Terminated (b ++ c :: rest) :=
  (terminated_append (zero_not_mem_of_derives h)).mpr (terminated_cons.mpr (.inr ⟨hc, hrest⟩))

/-- **The run lemma.** -/
theorem derives_runs {sym : JsonSym} {b : Bytes} (h : Derives sym b) : Runs sym b := by
  -- On the derivation.  Of elements and members the statement says that they are added to those
  -- which the open frame holds already, so that it goes through for the rest of a list.
  induction h with
  | null => exact runs_scalar .null (by simp [Json.IsContainer])
  | true => exact runs_scalar (.bool true) (by simp [Json.IsContainer])
  | false => exact runs_scalar (.bool false) (by simp [Json.IsContainer])
  | number hn =>
    exact runs_scalar (.number hn.toShape ⟨fun _ => hn.int_ne_nil, fun _ => .inl hn.int_ne_nil⟩)
      (by simp [Json.IsContainer])
  | string hitems => exact runs_scalar (.string hitems) (by simp [Json.IsContainer])
  | @emptyArray w hw =>
    refine runs_container (containerRuns_of_open (t := .arrayBegin) rfl (fun _ => rfl) ?_)
    intro fs rest hrest
    rw [List.append_assoc, List.singleton_append]
    exact ⟨terminated_append_cons (.of_isWs hw) (by decide) hrest,
      comes_closing (by simp [Frame.place]) rfl (.of_isWs hw) hrest⟩
  | @array js b hb ih =>
    refine runs_container (containerRuns_of_open (t := .arrayBegin) rfl (fun _ => rfl) ?_)
    intro fs rest hrest
    rw [List.append_assoc, List.singleton_append]
    refine ⟨terminated_derives hb (by decide) hrest, ?_⟩
    have := ih [] fs true rest hrest
    simpa [reading, Function.comp_def] using this
  | @lastElement j w w' b hw hb hw' ih =>
    intro vs fs sep rest hrest
    have hend : Terminated (w' ++ 0x5D :: rest) :=
      terminated_append_cons (.of_isWs hw') (by decide) hrest
    have hassoc : w ++ b ++ w' ++ 0x5D :: rest = w ++ (b ++ (w' ++ 0x5D :: rest)) := by simp
    -- The value first; the bracket then closes the frame.
    have hreading : ((elementsReading [j]).map fun vs' => closed fs (.array (vs ++ vs')) rest)
        = (reading j).bind fun v => some (closed fs (.array (vs ++ [v])) rest) := by
      cases hj : reading j <;> simp [elementsReading, hj]
    rw [hassoc, hreading]
    have hvalue := ih.1 (.array vs) fs sep w _ (by simp [Frame.place]) (.of_isWs hw) hend
      (delimited_append (.of_isWs hw') (by decide))
    refine hvalue.bind fun v => ?_
    exact comes_closing (f := .array (vs ++ [v])) (by simp [Frame.place]) rfl (.of_isWs hw') hrest
  | @nextElement j js w w' b bs hw hb hw' hbs ih ih' =>
    intro vs fs sep rest hrest
    have hmore : Terminated (bs ++ 0x5D :: rest) := terminated_derives hbs (by decide) hrest
    have hcomma : Terminated (w' ++ 0x2C :: (bs ++ 0x5D :: rest)) :=
      terminated_append_cons (.of_isWs hw') (by decide) hmore
    have hassoc : w ++ b ++ w' ++ 0x2C :: bs ++ 0x5D :: rest
        = w ++ (b ++ (w' ++ 0x2C :: (bs ++ 0x5D :: rest))) := by simp
    -- The value, the comma, and the elements after it.
    have hreading : ((elementsReading (j :: js)).map fun vs' => closed fs (.array (vs ++ vs')) rest)
        = (reading j).bind fun v =>
          (elementsReading js).map fun vs' => closed fs (.array (vs ++ [v] ++ vs')) rest := by
      cases hj : reading j <;> simp [elementsReading, hj, Function.comp_def]
    rw [hassoc, hreading]
    have hvalue := ih.1 (.array vs) fs sep w _ (by simp [Frame.place]) (.of_isWs hw) hcomma
      (delimited_append (.of_isWs hw') (by decide))
    refine hvalue.bind fun v => ?_
    exact .comma (f := .array (vs ++ [v])) (by simp [Frame.place]) (.of_isWs hw') hmore
      (ih' (vs ++ [v]) fs true rest hrest)
  | @emptyObject w hw =>
    refine runs_container (containerRuns_of_open (t := .objectBegin) rfl (fun _ => rfl) ?_)
    intro fs rest hrest
    rw [List.append_assoc, List.singleton_append]
    exact ⟨terminated_append_cons (.of_isWs hw) (by decide) hrest,
      comes_closing (by simp [Frame.place]) rfl (.of_isWs hw) hrest⟩
  | @object ms b hb ih =>
    refine runs_container (containerRuns_of_open (t := .objectBegin) rfl (fun _ => rfl) ?_)
    intro fs rest hrest
    rw [List.append_assoc, List.singleton_append]
    refine ⟨terminated_derives hb (by decide) hrest, ?_⟩
    have := ih [] fs true rest hrest
    simpa [reading, Function.comp_def] using this
  | @lastMember name j w₁ w₂ w₃ w₄ b h₁ hname h₂ h₃ hb h₄ ih =>
    intro acc fs sep rest hrest
    have hend : Terminated (w₄ ++ 0x7D :: rest) :=
      terminated_append_cons (.of_isWs h₄) (by decide) hrest
    have hassoc : w₁ ++ quoted name ++ w₂ ++ 0x3A :: (w₃ ++ b ++ w₄) ++ 0x7D :: rest
        = w₁ ++ (quoted name ++ (w₂ ++ 0x3A :: (w₃ ++ (b ++ (w₄ ++ 0x7D :: rest))))) := by simp
    rw [hassoc, membersReading, apply_ite (Option.map _), Option.map_bind]
    refine comes_member hname (.of_isWs h₁) (.of_isWs h₂) (.of_isWs h₃) ih.1
      (zero_not_mem_of_derives hb) hend (delimited_append (.of_isWs h₄) (by decide)) fun v => ?_
    exact comes_closing (f := .object _ []) (by simp [Frame.place]) rfl (.of_isWs h₄) hrest
  | @nextMember name j ms w₁ w₂ w₃ w₄ b bs h₁ hname h₂ h₃ hb h₄ hbs ih ih' =>
    intro acc fs sep rest hrest
    have hmore : Terminated (bs ++ 0x7D :: rest) := terminated_derives hbs (by decide) hrest
    have hcomma : Terminated (w₄ ++ 0x2C :: (bs ++ 0x7D :: rest)) :=
      terminated_append_cons (.of_isWs h₄) (by decide) hmore
    have hassoc : w₁ ++ quoted name ++ w₂ ++ 0x3A :: (w₃ ++ b ++ w₄ ++ 0x2C :: bs) ++ 0x7D :: rest
        = w₁ ++ (quoted name ++ (w₂ ++ 0x3A
          :: (w₃ ++ (b ++ (w₄ ++ 0x2C :: (bs ++ 0x7D :: rest)))))) := by simp
    rw [hassoc, membersReading, apply_ite (Option.map _), Option.map_bind]
    refine comes_member hname (.of_isWs h₁) (.of_isWs h₂) (.of_isWs h₃) ih.1
      (zero_not_mem_of_derives hb) hcomma (delimited_append (.of_isWs h₄) (by decide)) fun v => ?_
    exact .comma (f := .object _ []) (by simp [Frame.place]) (.of_isWs h₄) hmore
      (ih' _ fs true rest hrest)

/-- A text without a zero is terminated by the one `c_str` adds. -/
theorem cStr_of_not_mem {s : Bytes} (h : 0 ∉ s) : cStr s = s ++ [0] := by
  have hall : ∀ c ∈ s, (c ≠ 0 : Bool) = true := fun c hc => by
    simpa using fun (hzero : c = 0) => h (hzero ▸ hc)
  rw [cStr, List.takeWhile_eq_self_iff.mpr hall]

/-- What `ParseString` makes of a text that is read as a container. -/
theorem ContainerRuns.parseString {o : Option JsonValue} {w b w' : Bytes} (h : ContainerRuns o b)
    (hw : Blank w) (hw' : Blank w') (hb : 0 ∉ b) (json v : JsonValue) :
    parseString json (w ++ (b ++ w')) = .ok (true, v) ↔ o = some v := by
  have hrun := h .init w (w' ++ [0]) hw ((terminated_append hw'.not_mem).mpr terminated_zero)
  have htext : cStr (w ++ (b ++ w')) = w ++ (b ++ (w' ++ [0])) := by
    rw [cStr_of_not_mem (by simp [hw.not_mem, hb, hw'.not_mem])]
    simp
  -- Runs are deterministic: there is no other value than that of this one.
  rw [parseString_eq_ok_true, htext]
  cases o with
  | none => exact iff_of_false (hrun v) (by simp)
  | some v' =>
    have hhalts : Halts machineTurn (.init, w ++ (b ++ (w' ++ [0]))) (.ok (.ok, some v')) :=
      Leads.halts hrun
    constructor
    · intro hv
      simpa using hhalts.unique hv
    · rintro ⟨rfl⟩
      exact hhalts

/-- **What `ParseString` makes of a JSON text** with a container at its root: the reading of the
    document. -/
theorem parseString_jsonText {j : Json} {s : Bytes} (h : JsonText j s) (hj : j.IsContainer)
    (json v : JsonValue) : parseString json s = .ok (true, v) ↔ reading j = some v := by
  obtain ⟨-, w, b, w', rfl, hw, hb, hw'⟩ := h
  rw [List.append_assoc]
  exact ((derives_runs hb).2 hj).parseString (.of_isWs hw) (.of_isWs hw')
    (zero_not_mem_of_derives hb) json v

/-! ### Fine documents -/

mutual

/-- The documents on which the reader does not fail. -/
def Fine : Json → Prop
  | .null | .bool _ => True
  | .number n => ∀ e ∈ n.exp, 0 ≤ exponentValue 0 e.digits
  | .string items => .raw 0x7F ∉ items
  | .array js => FineElements js
  | .object ms => FineMembers ms

/-- The elements of an array. -/
def FineElements : List Json → Prop
  | [] => True
  | j :: js => Fine j ∧ FineElements js

/-- The members of an object: no name is empty. -/
def FineMembers : List (List StrItem × Json) → Prop
  | [] => True
  | (name, j) :: ms => .raw 0x7F ∉ name ∧ name ≠ [] ∧ Fine j ∧ FineMembers ms

end

/-- A number has a value when its exponent has not run over to a negative one. -/
theorem numberValue_isSome (n : NumText) :
    (numberValue n).toOption.isSome = true ↔ ∀ e ∈ n.exp, 0 ≤ exponentValue 0 e.digits := by
  obtain ⟨neg, int, frac, exp⟩ := n
  cases exp with
  | none => simp [numberValue, Except.toOption]
  | some e =>
    by_cases hneg : exponentValue 0 e.digits < 0
    · simp [numberValue, powerOf, hneg, Except.toOption]
    · simp [numberValue, powerOf, hneg, Except.toOption, not_lt.mp hneg]

/-- Two steps give a value when both do. -/
theorem option_bind_isSome {α β : Type} {x : Option α} {f : α → Option β} {P : Prop}
    (hf : ∀ a, x = some a → ((f a).isSome = true ↔ P)) :
    (x.bind f).isSome = true ↔ x.isSome = true ∧ P := by
  cases x with
  | none => simp
  | some a => simp [hf a rfl]

mutual

/-- **A document has a reading exactly when it is fine.** -/
theorem reading_isSome : ∀ j, (reading j).isSome = true ↔ Fine j
  | .null => by simp [reading, Fine]
  | .bool _ => by simp [reading, Fine]
  | .number n => by simpa [reading, Fine] using numberValue_isSome n
  | .string items => by
    rw [reading, Fine]
    split_ifs with hdel <;> simp [hdel]
  | .array js => by simpa [reading, Fine] using elementsReading_isSome js
  | .object ms => by simpa [reading, Fine] using membersReading_isSome ms []

/-- The elements of an array are read when each of them is. -/
theorem elementsReading_isSome : ∀ js, (elementsReading js).isSome = true ↔ FineElements js
  | [] => by simp [elementsReading, FineElements]
  | j :: js => by
    rw [elementsReading, FineElements, ← reading_isSome j]
    exact option_bind_isSome fun v _ => by simpa using elementsReading_isSome js

/-- The members of an object are read when each of them is. -/
theorem membersReading_isSome : ∀ ms acc, (membersReading ms acc).isSome = true ↔ FineMembers ms
  | [], _ => by simp [membersReading, FineMembers]
  | (name, j) :: ms, acc => by
    rw [membersReading, FineMembers, ← reading_isSome j]
    split_ifs with hname
    · simp only [Option.isSome_none, Bool.false_eq_true, false_iff]
      tauto
    · have := option_bind_isSome (x := reading j) fun v _ =>
        membersReading_isSome ms (OrdMap.insertOrAssign (stringBytes name) v acc)
      rw [this]
      tauto

end

end Icl.Json
