import Icl.Json.DigitSum
import Icl.Json.Weight

namespace Icl.Json

open Icl.Cxx Icl.Format Icl.Transition

/-!
# Writing and reading back

The text that `ToString` writes for a quiet tree is read token by token as it was written.  A
comma may stand after the last entry, when a container has 2^32 entries or more; the reader
does not mind.

* `reread` — what a quiet tree becomes: an integer is the sum of its digits, and a member with
  an empty name ends the reading;
* `written_runs` — **the run lemma**, by induction on the tree;
* `reread_eq_self` — which trees come back as they are;
* `parseString_toString_iff` — **`ParseString` gives back the tree that `ToString` wrote exactly
  when the tree is quiet and exact**.
-/

/-! ### What a quiet tree becomes -/

mutual

/-- What becomes of a value. -/
def reread : JsonValue → Option JsonValue
  | .integer n => some (.integer (rereadInt n))
  | .array vs => (rereadElements vs).map .array
  | .object ms => (rereadMembers ms).map fun ms =>
      .object (ms.foldl (fun m e => OrdMap.insertOrAssign e.1 e.2 m) [])
  | v => some v

/-- What becomes of the elements of an array. -/
def rereadElements : List JsonValue → Option (List JsonValue)
  | [] => some []
  | v :: vs => (reread v).bind fun v => (rereadElements vs).map (v :: ·)

/-- What becomes of the members of an object. -/
def rereadMembers : List (Bytes × JsonValue) → Option (List (Bytes × JsonValue))
  | [] => some []
  | (name, v) :: ms =>
    if name = [] then none
    else (reread v).bind fun v => (rereadMembers ms).map ((name, v) :: ·)

end

/-! ### Scalars -/

/-- The items that the writer makes of a string. -/
def escapeItems (s : Bytes) : List StrItem :=
  s.map fun c => if c = 0x5C then .escape c else .raw c

/-- The items that the writer makes of a name. -/
def rawItems (s : Bytes) : List StrItem := s.map .raw

/-- A quiet character that is no backslash stands for itself. -/
theorem readable_raw {c : UInt8} (h : IsQuiet c) (hback : c ≠ 0x5C) : Readable (.raw c) := by
  obtain ⟨hquote, hcntrl⟩ := h
  have hle : 0x20 ≤ c := by
    by_contra hlt
    simp [iscntrl, not_le.mp hlt] at hcntrl
  refine ⟨⟨hle, hquote, hback⟩, ?_⟩
  rintro ⟨rfl⟩
  simp [iscntrl] at hcntrl

/-- Characters that are neither quotation mark, backslash nor control are read back as they
    stand. -/
theorem readable_rawItems {s : Bytes} (h : ∀ c ∈ s, IsQuiet c ∧ c ≠ 0x5C) :
    ∀ i ∈ rawItems s, Readable i := by
  intro i hi
  obtain ⟨c, hc, rfl⟩ := List.mem_map.mp hi
  exact readable_raw (h c hc).1 (h c hc).2

/-- Escaped, the backslash and the quotation mark are read back as well. -/
theorem readable_escapeItems {s : Bytes} (h : ∀ c ∈ s, IsQuiet c) :
    ∀ i ∈ escapeItems s, Readable i := by
  intro i hi
  obtain ⟨c, hc, rfl⟩ := List.mem_map.mp hi
  by_cases hback : c = 0x5C
  · rw [if_pos hback, hback]
    exact ⟨by simp [StrItem.Valid, unescape], by simp⟩
  · rw [if_neg hback]
    exact readable_raw (h c hc) hback

/-- A name is written without escapes. -/
theorem quoted_rawItems (s : Bytes) : quoted (rawItems s) = 0x22 :: (s ++ [0x22]) := by
  have htext : (rawItems s).flatMap StrItem.text = s := by
    induction s with
    | nil => rfl
    | cons c s ih => simpa [rawItems, StrItem.text] using ih
  rw [quoted, htext]

/-- And stands for itself. -/
theorem stringBytes_rawItems (s : Bytes) : stringBytes (rawItems s) = s := by
  induction s with
  | nil => rfl
  | cons c s ih => simpa [rawItems, stringBytes, itemBytes] using ih

/-- A string is written with `EscapeString`. -/
theorem quoted_escapeItems (s : Bytes) :
    quoted (escapeItems s) = 0x22 :: (escapeString s ++ [0x22]) := by
  have htext : (escapeItems s).flatMap StrItem.text = escapeString s := by
    induction s with
    | nil => rfl
    | cons c s ih =>
      rw [escapeItems] at ih
      rw [escapeItems, escapeString, List.map_cons, List.flatMap_cons, List.flatMap_cons, ih,
        escapeString]
      split_ifs with hback
      · simp [StrItem.text, hback]
      · simp [StrItem.text]
  rw [quoted, htext]

/-- **What `EscapeString` writes stands for the string.** -/
theorem stringBytes_escapeItems (s : Bytes) : stringBytes (escapeItems s) = s := by
  induction s with
  | nil => rfl
  | cons c s ih =>
    rw [escapeItems, stringBytes] at ih
    rw [escapeItems, stringBytes, List.map_cons, List.flatMap_cons, ih]
    split_ifs with hback
    · simp [itemBytes, escapeChar, hback]
    · simp [itemBytes]

/-- The text of an integer, as a number of the grammar. -/
def intText (n : Int) : NumText := ⟨decide (n < 0), decimal n.natAbs, none, none⟩

/-- An integer is written as a number text. -/
theorem intText_text (n : Int) : (intText n).text = intToString n := by
  simp [intText, NumText.text, NumText.fracText, NumText.expText, intToString]

/-- This text has the value the digits add up to. -/
theorem numberValue_intText (n : Int) : numberValue (intText n) = .ok (.integer (rereadInt n)) := by
  by_cases hneg : n < 0 <;> simp [numberValue, intText, rereadInt, hneg]

/-- What is written for a leaf is the text of a scalar. -/
theorem scalarText_leaf {v : JsonValue} (hleaf : v.IsLeaf) (hv : IsTreeNode v)
    (hquiet : QuietNode v) (level : Int) : ScalarText (reread v) (v.toString level) := by
  cases v with
  | invalid => cases hv
  | double _ => cases hv
  | array _ => cases hleaf
  | object _ => cases hleaf
  | null => exact .null
  | boolean b => exact .bool b
  | integer n =>
    have htext := ScalarText.number (n := intText n)
      ⟨digits_decimal _, by simp [intText], by simp [intText]⟩
      ⟨fun _ => decimal_ne_nil _, fun _ => .inl (decimal_ne_nil _)⟩
    rw [intText_text, numberValue_intText] at htext
    exact htext
  | string s =>
    have hitems := readable_escapeItems hquiet
    have htext := ScalarText.string fun i hi => (hitems i hi).1
    rw [if_neg fun hdel => (hitems _ hdel).2 rfl, stringBytes_escapeItems, quoted_escapeItems]
      at htext
    simpa [reread, JsonValue.toString] using htext

/-! ### Layout -/

/-- Blanks and blanks are blanks. -/
theorem Blank.append {w w' : Bytes} (h : Blank w) (h' : Blank w') : Blank (w ++ w') := by
  intro c hc
  rcases List.mem_append.mp hc with hc | hc
  · exact h c hc
  · exact h' c hc

/-- What the writer puts in for the layout is blanks. -/
theorem blank_layout (level : Int) : Blank (layout level).crlf ∧ Blank (layout level).indent := by
  unfold layout
  split_ifs
  · refine ⟨by simp [Blank, isspace], fun c hc => ?_⟩
    obtain rfl := List.eq_of_mem_replicate hc
    rfl
  · exact ⟨.nil, .nil⟩

/-- There is no NUL in a separator. -/
theorem zero_not_mem_separatorAfter (level : Int) (index size : Nat) :
    0 ∉ separatorAfter (layout level) index size := by
  unfold separatorAfter
  split_ifs
  · simp [(blank_layout level).1.not_mem]
  · simp

/-- Only after the last entry there may be no comma. -/
theorem delimited_separatorAfter {l : Layout} {index size : Nat} {rest : Bytes}
    (h : size ≤ index → Delimited rest) : Delimited (separatorAfter l index size ++ rest) := by
  unfold separatorAfter
  split_ifs with hcomma
  · exact ⟨0x2C, rfl, by decide⟩
  · have := Nat.mod_le index (2 ^ 32)
    exact h (by omega)

/-- A comma, or nothing. -/
theorem comes_separator {f : Frame} {fs : List Frame} {level : Int} {index size : Nat}
    {rest : Bytes} {o : Option (Turn (Machine × Bytes) Outcome)} (hf : f.place ≠ .value)
    (hrest : Terminated rest) (h : ∀ w sep, Blank w → Comes (⟨f :: fs, sep⟩, w ++ rest) o) :
    Comes (⟨f :: fs, false⟩, separatorAfter (layout level) index size ++ rest) o := by
  have hcrlf := (blank_layout level).1
  unfold separatorAfter
  split_ifs
  · exact Comes.comma (w := []) hf .nil ((terminated_append hcrlf.not_mem).mpr hrest)
      (h _ true hcrlf)
  · exact h [] false .nil

/-! ### Containers -/

/-- What the run lemma says of a tree. -/
structure Written (v : JsonValue) (level : Int) : Prop where
  zero_not_mem : 0 ∉ v.toString level
  entry : EntryRuns (reread v) (v.toString level)
  container : v.IsContainer → ContainerRuns (reread v) (v.toString level)

/-- The end of a container: its layout and its bracket. -/
def ending (l : Layout) (c : UInt8) (rest : Bytes) : Bytes := l.crlf ++ (l.indent ++ c :: rest)

/-- A closing bracket does not end the text. -/
theorem terminated_ending {level : Int} {c : UInt8} {rest : Bytes} (hc : c ≠ 0)
    (hrest : Terminated rest) : Terminated (ending (layout level) c rest) :=
  (terminated_append (blank_layout level).1.not_mem).mpr
    (terminated_append_cons (blank_layout level).2 hc hrest)

/-- It delimits what stands before it. -/
theorem delimited_ending {level : Int} {c : UInt8} {rest : Bytes} (hc : isDelim c = true) :
    Delimited (ending (layout level) c rest) := by
  rw [ending, ← List.append_assoc]
  exact delimited_append ((blank_layout level).1.append (blank_layout level).2) hc

/-- The bracket after its layout. -/
theorem comes_ending {f : Frame} {fs : List Frame} {sep : Bool} {level : Int} {c : UInt8}
    {w rest : Bytes} (hf : f.place ≠ .value) (hc : punctuation c = some f.closing) (hw : Blank w)
    (hrest : Terminated rest) :
    Comes (⟨f :: fs, sep⟩, w ++ ending (layout level) c rest) (some (closed fs f.node rest)) := by
  rw [ending, ← List.append_assoc, ← List.append_assoc]
  exact comes_closing hf hc ((hw.append (blank_layout level).1).append (blank_layout level).2) hrest

/-- What follows an entry: the text of the entries after it, if there are any, and the end. -/
theorem follows_entry (level : Int) {index size : Nat} {c : UInt8} {text rest : Bytes}
    (htext : 0 ∉ text) (hlast : size ≤ index → text = []) (hzero : c ≠ 0)
    (hdelim : isDelim c = true) (hrest : Terminated rest) :
    Terminated (text ++ ending (layout level) c rest) ∧
    Terminated (separatorAfter (layout level) index size
      ++ (text ++ ending (layout level) c rest)) ∧
    Delimited (separatorAfter (layout level) index size
      ++ (text ++ ending (layout level) c rest)) := by
  have hmore := (terminated_append htext).mpr (@terminated_ending level c rest hzero hrest)
  refine ⟨hmore, (terminated_append (zero_not_mem_separatorAfter level index size)).mpr hmore,
    delimited_separatorAfter fun hle => ?_⟩
  -- There is no comma, but there is no entry either.
  rw [hlast hle]
  exact delimited_ending hdelim

/-- No terminating zero is written among the elements of an array. -/
theorem zero_not_mem_elements {vs : List JsonValue} (h : ∀ v ∈ vs, ∀ level, Written v level)
    (level : Int) (size index : Nat) :
    0 ∉ elementsToString (layout level) size vs index := by
  induction vs generalizing index with
  | nil => simp [elementsToString]
  | cons v vs ih =>
    obtain ⟨hv, hvs⟩ := List.forall_mem_cons.mp h
    simp [elementsToString, (blank_layout level).2.not_mem, (hv _).zero_not_mem,
      zero_not_mem_separatorAfter, ih hvs]

/-- **The elements of an array**, from the next one up to the bracket. -/
theorem comes_elements {vs : List JsonValue} (h : ∀ v ∈ vs, ∀ level, Written v level)
    (level : Int) {size index : Nat} (hsize : index + vs.length = size)
    (acc : List JsonValue) (fs : List Frame) (sep : Bool) {w rest : Bytes} (hw : Blank w)
    (hrest : Terminated rest) :
    Comes (⟨.array acc :: fs, sep⟩, w ++
        (elementsToString (layout level) size vs index ++ ending (layout level) 0x5D rest))
      ((rereadElements vs).map fun vs' => closed fs (.array (acc ++ vs')) rest) := by
  induction vs generalizing index acc sep w with
  | nil =>
    rw [elementsToString, List.nil_append, rereadElements, Option.map_some, List.append_nil]
    exact comes_ending (f := .array acc) (by simp [Frame.place]) rfl hw hrest
  | cons v vs ih =>
    obtain ⟨hv, hvs⟩ := List.forall_mem_cons.mp h
    rw [List.length_cons] at hsize
    have hlast : size ≤ index + 1 → elementsToString (layout level) size vs (index + 1) = [] := by
      intro hle
      obtain rfl := List.length_eq_zero_iff.mp (show vs.length = 0 by omega)
      rfl
    obtain ⟨hmore, hafter, hdelim⟩ := follows_entry level (c := 0x5D)
      (zero_not_mem_elements hvs level size (index + 1)) hlast (by decide) (by decide) hrest
    have hassoc : w ++ (elementsToString (layout level) size (v :: vs) index
          ++ ending (layout level) 0x5D rest)
        = (w ++ (layout level).indent) ++ (v.toString (layout level).nextLevel
          ++ (separatorAfter (layout level) (index + 1) size
            ++ (elementsToString (layout level) size vs (index + 1)
              ++ ending (layout level) 0x5D rest))) := by
      simp [elementsToString]
    -- The element, what separates it from the next one, and then the rest of the loop.
    have hreread : ((rereadElements (v :: vs)).map fun vs' => closed fs (.array (acc ++ vs')) rest)
        = (reread v).bind fun v' =>
          (rereadElements vs).map fun vs' => closed fs (.array (acc ++ [v'] ++ vs')) rest := by
      cases hv : reread v <;> simp [rereadElements, hv, Function.comp_def]
    rw [hassoc, hreread]
    have hvalue := (hv (layout level).nextLevel).entry (.array acc) fs sep _ _
      (by simp [Frame.place]) (hw.append (blank_layout level).2) hafter hdelim
    refine hvalue.bind fun v' => ?_
    refine comes_separator (f := .array (acc ++ [v'])) (by simp [Frame.place]) hmore ?_
    intro w sep hw
    exact ih hvs (by omega) (acc ++ [v']) sep hw

/-- Nor among the members of an object. -/
theorem zero_not_mem_members {ms : List (Bytes × JsonValue)}
    (hnames : ∀ e ∈ ms, ∀ c ∈ e.1, IsQuiet c ∧ c ≠ 0x5C)
    (h : ∀ e ∈ ms, ∀ level, Written e.2 level) (level : Int) (size index : Nat) :
    0 ∉ membersToString (layout level) size ms index := by
  induction ms generalizing index with
  | nil => simp [membersToString]
  | cons e ms ih =>
    obtain ⟨name, v⟩ := e
    obtain ⟨hv, hms⟩ := List.forall_mem_cons.mp h
    obtain ⟨hname, hnames⟩ := List.forall_mem_cons.mp hnames
    have hzero : 0 ∉ name := fun hzero => by simpa [iscntrl] using (hname 0 hzero).1.2
    simp [membersToString, (blank_layout level).2.not_mem, (hv _).zero_not_mem, hzero,
      zero_not_mem_separatorAfter, ih hnames hms]

/-- **The members of an object**, from the next one up to the bracket. -/
theorem comes_members {ms : List (Bytes × JsonValue)}
    (hnames : ∀ e ∈ ms, ∀ c ∈ e.1, IsQuiet c ∧ c ≠ 0x5C)
    (h : ∀ e ∈ ms, ∀ level, Written e.2 level) (level : Int) {size index : Nat}
    (hsize : index + ms.length = size)
    (acc : List (Bytes × JsonValue)) (fs : List Frame) (sep : Bool) {w rest : Bytes} (hw : Blank w)
    (hrest : Terminated rest) :
    Comes (⟨.object acc [] :: fs, sep⟩, w ++
        (membersToString (layout level) size ms index ++ ending (layout level) 0x7D rest))
      ((rereadMembers ms).map fun ms' =>
        closed fs (.object (ms'.foldl (fun m e => OrdMap.insertOrAssign e.1 e.2 m) acc)) rest) := by
  induction ms generalizing index acc sep w with
  | nil =>
    rw [membersToString, List.nil_append, rereadMembers, Option.map_some, List.foldl_nil]
    exact comes_ending (f := .object acc []) (by simp [Frame.place]) rfl hw hrest
  | cons e ms ih =>
    obtain ⟨name, v⟩ := e
    obtain ⟨hv, hms⟩ := List.forall_mem_cons.mp h
    obtain ⟨hname, hnames⟩ := List.forall_mem_cons.mp hnames
    rw [List.length_cons] at hsize
    have hlast : size ≤ index + 1 → membersToString (layout level) size ms (index + 1) = [] := by
      intro hle
      obtain rfl := List.length_eq_zero_iff.mp (show ms.length = 0 by omega)
      rfl
    obtain ⟨hmore, hafter, hdelim⟩ := follows_entry level (c := 0x7D)
      (zero_not_mem_members hnames hms level size (index + 1)) hlast (by decide) (by decide) hrest
    have hassoc : w ++ (membersToString (layout level) size ((name, v) :: ms) index
          ++ ending (layout level) 0x7D rest)
        = (w ++ (layout level).indent) ++ (quoted (rawItems name) ++ ([] ++ 0x3A
          :: ([] ++ (v.toString (layout level).nextLevel
            ++ (separatorAfter (layout level) (index + 1) size
              ++ (membersToString (layout level) size ms (index + 1)
                ++ ending (layout level) 0x7D rest)))))) := by
      simp [membersToString, quoted_rawItems]
    -- The reader refuses an empty name, and names hold no DEL.
    have hreread : ((rereadMembers ((name, v) :: ms)).map fun ms' =>
          closed fs (.object (ms'.foldl (fun m e => OrdMap.insertOrAssign e.1 e.2 m) acc)) rest)
        = if .raw 0x7F ∈ rawItems name ∨ rawItems name = [] then none
          else (reread v).bind fun v' => (rereadMembers ms).map fun ms' =>
            closed fs (.object (ms'.foldl (fun m e => OrdMap.insertOrAssign e.1 e.2 m)
              (OrdMap.insertOrAssign (stringBytes (rawItems name)) v' acc))) rest := by
      have hdel : .raw 0x7F ∉ rawItems name := fun hdel => (readable_rawItems hname _ hdel).2 rfl
      have hnil : rawItems name = [] ↔ name = [] := List.map_eq_nil_iff
      rw [rereadMembers, stringBytes_rawItems]
      by_cases hempty : name = []
      · simp [hempty, rawItems]
      · simp only [hdel, hnil, hempty, or_self, if_false]
        cases hv : reread v <;> simp [Function.comp_def]
    rw [hassoc, hreread]
    refine comes_member (fun i hi => (readable_rawItems hname i hi).1)
      (hw.append (blank_layout level).2) .nil .nil (hv (layout level).nextLevel).entry
      (hv _).zero_not_mem hafter hdelim fun v' => ?_
    refine comes_separator (f := .object _ []) (by simp [Frame.place]) hmore ?_
    intro w sep hw
    exact ih hnames hms (by omega) _ sep hw

/-- A container, by its opening bracket, its entries and its end. -/
theorem written_of_body {v : JsonValue} {level : Int} {c d : UInt8} {t : Token} {f : Frame}
    {body : Bytes} (hc : punctuation c = some t) (hd : d ≠ 0)
    (hopen : ∀ m, Machine.act m t = .next ⟨f :: m.stack, true⟩)
    (htext : v.toString level
      = c :: ((layout level).crlf ++ (body ++ ending (layout level) d [])))
    (hbody : 0 ∉ body)
    (hrun : ∀ fs rest, Terminated rest →
      Comes (⟨f :: fs, true⟩, (layout level).crlf ++ (body ++ ending (layout level) d rest))
        ((reread v).map fun v' => closed fs v' rest)) : Written v level := by
  have hcrlf := (blank_layout level).1
  have hindent := (blank_layout level).2
  have hzero : 0 ≠ c := by
    rcases punctuation_cases hc with rfl | rfl | rfl | rfl | rfl | rfl <;> decide
  have hcontainer : ContainerRuns (reread v) (v.toString level) := by
    rw [htext]
    refine containerRuns_of_open hc hopen fun fs rest hrest => ?_
    have hassoc : (layout level).crlf ++ (body ++ ending (layout level) d []) ++ rest
        = (layout level).crlf ++ (body ++ ending (layout level) d rest) := by simp [ending]
    rw [hassoc]
    exact ⟨terminated_token hcrlf hbody (terminated_ending hd hrest), hrun fs rest hrest⟩
  refine ⟨?_, hcontainer.entry, fun _ => hcontainer⟩
  rw [htext]
  simp [ending, hzero, hd.symm, hcrlf.not_mem, hindent.not_mem, hbody]

/-- **The run lemma.** -/
theorem written_runs (v : JsonValue) (hv : IsTree v) (hquiet : Quiet v) (level : Int) :
    Written v level := by
  -- On the tree, for every level: the entries of a container are written one level deeper.
  induction v using JsonValue.ind generalizing level with
  | leaf v hleaf =>
    have htext := scalarText_leaf hleaf ((all_leaf hleaf).mp hv) ((all_leaf hleaf).mp hquiet) level
    exact ⟨htext.zero_not_mem, entryRuns_scalar htext, fun hcontainer => absurd hleaf hcontainer⟩
  | array vs ih =>
    obtain ⟨-, hvs⟩ := all_array.mp hv
    obtain ⟨-, hquiets⟩ := all_array.mp hquiet
    have hwritten : ∀ v ∈ vs, ∀ level, Written v level :=
      fun v hmem level => ih v hmem (hvs v hmem) (hquiets v hmem) level
    refine written_of_body (c := 0x5B) (d := 0x5D) (t := .arrayBegin) (f := .array []) rfl
      (by decide) (fun _ => rfl) ?_ (zero_not_mem_elements hwritten level vs.length 0) ?_
    · simp [JsonValue.toString, ending]
    · intro fs rest hrest
      have hrun := comes_elements hwritten level (Nat.zero_add _) [] fs true
        (blank_layout level).1 hrest
      simpa [reread, Function.comp_def] using hrun
  | object ms ih =>
    obtain ⟨-, hms⟩ := all_object.mp hv
    obtain ⟨hnames, hquiets⟩ := all_object.mp hquiet
    have hwritten : ∀ e ∈ ms, ∀ level, Written e.2 level :=
      fun e hmem level => ih e hmem (hms e hmem) (hquiets e hmem) level
    refine written_of_body (c := 0x7B) (d := 0x7D) (t := .objectBegin) (f := .object [] []) rfl
      (by decide) (fun _ => rfl) ?_ (zero_not_mem_members hnames hwritten level ms.length 0) ?_
    · simp [JsonValue.toString, ending]
    · intro fs rest hrest
      have hrun := comes_members hnames hwritten level (Nat.zero_add _) [] fs true
        (blank_layout level).1 hrest
      simpa [reread, Function.comp_def] using hrun

/-! ### What comes back -/

/-- An array comes back unchanged when its elements do. -/
theorem rereadElements_eq_self {vs : List JsonValue} :
    rereadElements vs = some vs ↔ ∀ v ∈ vs, reread v = some v := by
  induction vs with
  | nil => simp [rereadElements]
  | cons v vs ih =>
    rw [rereadElements, List.forall_mem_cons, ← ih]
    cases reread v with
    | none => simp
    | some v' =>
      cases rereadElements vs with
      | none => simp
      | some vs' => simp

/-- An object does when its members do and none has the empty name. -/
theorem rereadMembers_eq_self {ms : List (Bytes × JsonValue)} :
    rereadMembers ms = some ms ↔ ∀ e ∈ ms, e.1 ≠ [] ∧ reread e.2 = some e.2 := by
  induction ms with
  | nil => simp [rereadMembers]
  | cons e ms ih =>
    obtain ⟨name, v⟩ := e
    rw [rereadMembers, List.forall_mem_cons, ← ih]
    by_cases hempty : name = []
    · simp [hempty]
    · cases reread v with
      | none => simp [hempty]
      | some v' =>
        cases rereadMembers ms with
        | none => simp [hempty]
        | some ms' => simp [hempty]

/-- The names stay. -/
theorem rereadMembers_names {ms ms' : List (Bytes × JsonValue)} (h : rereadMembers ms = some ms') :
    ms'.map Prod.fst = ms.map Prod.fst := by
  induction ms generalizing ms' with
  | nil =>
    obtain rfl : [] = ms' := by simpa [rereadMembers] using h
    rfl
  | cons e ms ih =>
    obtain ⟨name, v⟩ := e
    rw [rereadMembers] at h
    split_ifs at h
    obtain ⟨v', -, h⟩ := Option.bind_eq_some_iff.mp h
    obtain ⟨ms'', hms, rfl⟩ := Option.map_eq_some_iff.mp h
    simp [ih hms]

/-- **The trees that come back** as they are. -/
theorem reread_eq_self (v : JsonValue) (hv : IsTree v) : reread v = some v ↔ Exact v := by
  induction v using JsonValue.ind with
  | leaf v hleaf =>
    rw [Exact, all_leaf hleaf]
    cases v with
    | array _ => cases hleaf
    | object _ => cases hleaf
    | integer n => simp [reread, ExactNode, SumsUp]
    | _ => simp [reread, ExactNode]
  | array vs ih =>
    obtain ⟨-, hvs⟩ := all_array.mp hv
    have hreread : reread (.array vs) = some (.array vs) ↔ rereadElements vs = some vs := by
      rw [reread]
      cases rereadElements vs <;> simp
    rw [hreread, rereadElements_eq_self, Exact, all_array]
    constructor
    · intro h
      exact ⟨trivial, fun v hmem => (ih v hmem (hvs v hmem)).mp (h v hmem)⟩
    · rintro ⟨-, h⟩ v hmem
      exact (ih v hmem (hvs v hmem)).mpr (h v hmem)
  | object ms ih =>
    obtain ⟨hsorted, hms⟩ := all_object.mp hv
    -- The names are still in order, so that each member is appended.
    have hreread : reread (.object ms) = some (.object ms) ↔ rereadMembers ms = some ms := by
      rw [reread]
      cases hms' : rereadMembers ms with
      | none => simp
      | some ms' =>
        have hsorted' : OrdMap.Sorted ms' := by
          have := List.pairwise_map (f := Prod.fst) (R := (· < ·)).mpr hsorted
          rw [← rereadMembers_names hms'] at this
          exact List.pairwise_map.mp this
        simp [OrdMap.foldl_insertOrAssign hsorted']
    rw [hreread, rereadMembers_eq_self, Exact, all_object]
    constructor
    · intro h
      exact ⟨fun e he => (h e he).1, fun e he => (ih e he (hms e he)).mp (h e he).2⟩
    · rintro ⟨hnames, h⟩ e he
      exact ⟨hnames e he, (ih e he (hms e he)).mpr (h e he)⟩

/-! ### The round trip -/

/-- **The round trip.**  For a tree with an object or an array at its root, `ParseString` gives back
    what `ToString` wrote exactly when no string or name holds a quote or a control character,
    no name is empty or holds a backslash, and every integer is the sum of its digits in a
    `double`. -/
theorem parseString_toString_iff {v : JsonValue} (hv : IsTree v) (hroot : v.IsContainer)
    (level : Int) (json : JsonValue) :
    parseString json (v.toString level) = .ok (true, v) ↔ Quiet v ∧ Exact v := by
  have hrun : Quiet v →
      (parseString json (v.toString level) = .ok (true, v) ↔ reread v = some v) := by
    intro hquiet
    obtain ⟨hzero, -, hcontainer⟩ := written_runs v hv hquiet level
    have := (hcontainer hroot).parseString .nil .nil hzero json v
    simpa using this
  constructor
  · intro h
    have hquiet := quiet_of_parseString hv h
    exact ⟨hquiet, (reread_eq_self v hv).mp ((hrun hquiet).mp h)⟩
  · rintro ⟨hquiet, hexact⟩
    exact (hrun hquiet).mpr ((reread_eq_self v hv).mpr hexact)

/-- An array of a number and an object, whose string holds a backslash. -/
theorem parseString_toString_nested :
    parseString .null ((JsonValue.array [.integer (-12),
        .object [(ascii "k", .string (ascii "a\\b"))]]).toString 0)
      = .ok (true, .array [.integer (-12), .object [(ascii "k", .string (ascii "a\\b"))]]) := by
  have htree : IsTree (.array [.integer (-12), .object [(ascii "k", .string (ascii "a\\b"))]]) := by
    simp [IsTree, JsonValue.All, AllElements, AllMembers, IsTreeNode, OrdMap.Sorted]
  have hstring : ∀ c ∈ ascii "a\\b", IsQuiet c := by
    have hall : (ascii "a\\b").all (fun c => decide (IsQuiet c)) = true := by decide
    exact fun c hc => of_decide_eq_true (List.all_eq_true.mp hall c hc)
  have hname : ∀ c ∈ ascii "k", IsQuiet c ∧ c ≠ 0x5C := by
    have hall : (ascii "k").all (fun c => decide (IsQuiet c ∧ c ≠ 0x5C)) = true := by decide
    exact fun c hc => of_decide_eq_true (List.all_eq_true.mp hall c hc)
  have hquiet : Quiet (.array [.integer (-12), .object [(ascii "k", .string (ascii "a\\b"))]]) :=
    ⟨trivial, trivial, ⟨by simpa [QuietNode] using hname, hstring, trivial⟩, trivial⟩
  have hexact : Exact (.array [.integer (-12), .object [(ascii "k", .string (ascii "a\\b"))]]) :=
    ⟨trivial, sumsUp_of_readExactly (by decide) (by decide) (readExactly_of_le (by decide)),
      ⟨by simp [ExactNode, ascii], trivial, trivial⟩, trivial⟩
  have hroot : JsonValue.IsContainer
      (.array [.integer (-12), .object [(ascii "k", .string (ascii "a\\b"))]]) := fun h => h
  exact (parseString_toString_iff htree hroot 0 .null).mpr ⟨hquiet, hexact⟩

/-- A string with a quote in it does not come back: nothing is escaped but the backslash. -/
theorem not_round_trip_quote :
    IsTree (.array [.string [0x22]]) ∧ JsonValue.IsContainer (.array [.string [0x22]]) ∧
    parseString .null ((JsonValue.array [.string [0x22]]).toString (-1))
      ≠ .ok (true, .array [.string [0x22]]) := by
  have hparse : parseString .null ((JsonValue.array [.string [0x22]]).toString (-1))
      = .ok (false, .null) := rfl
  refine ⟨⟨trivial, trivial, trivial⟩, fun h => h, ?_⟩
  rw [hparse]
  simp

end Icl.Json
