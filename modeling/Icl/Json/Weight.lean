import Icl.Json.Lax
import Icl.Json.Nodes

namespace Icl.Json

open Icl.Cxx Icl.Format Icl.Transition

/-!
# What a tree costs in its text

A quote, a backslash or a control character comes into a value only through an escape, and every
escape has a backslash, a second one or a `u`.  So the backslashes and the letters `u` of a text
bound what can be in the tree that is read from it.  The writer pays too little for quotes and
control characters, and in names for backslashes.

* `treeCost_le` — a tree that is read costs at most the marks of its text;
* `quiet_of_cost` — a text with marks enough is the one of a quiet tree.
-/

/-! ### Marks and costs -/

/-- A backslash, or the letter of a `\u` escape. -/
def isMark (c : UInt8) : Bool := c == 0x5C || c == 0x75

/-- The number of marks. -/
def marks (s : Bytes) : Nat := s.countP isMark

/-- What a character of a value costs at least. -/
def charCost (c : UInt8) : Nat :=
  if c = 0x5C then 2 else if c = 0x75 ∨ c = 0x22 ∨ iscntrl c = true then 1 else 0

/-- What a string costs. -/
def cost (s : Bytes) : Nat := (s.map charCost).sum

mutual

/-- What a value costs: there is a `u` in `true` and in `null`. -/
def treeCost : JsonValue → Nat
  | .string s => cost s
  | .boolean b => if b then 1 else 0
  | .null => 1
  | .array vs => elementsCost vs
  | .object ms => membersCost ms
  | _ => 0

/-- What the elements of an array cost. -/
def elementsCost : List JsonValue → Nat
  | [] => 0
  | v :: vs => treeCost v + elementsCost vs

/-- What the members of an object cost. -/
def membersCost : List (Bytes × JsonValue) → Nat
  | [] => 0
  | (name, v) :: ms => cost name + treeCost v + membersCost ms

end

@[simp] theorem marks_nil : marks [] = 0 := rfl

/-- Marks are counted piece by piece. -/
@[simp] theorem marks_append (s t : Bytes) : marks (s ++ t) = marks s + marks t :=
  List.countP_append

/-- And character by character. -/
@[simp] theorem marks_cons (c : UInt8) (s : Bytes) :
    marks (c :: s) = (if isMark c then 1 else 0) + marks s := by
  rw [marks, List.countP_cons, Nat.add_comm, marks]

@[simp] theorem cost_nil : cost [] = 0 := rfl

/-- The cost of a string is that of its characters. -/
@[simp] theorem cost_cons (c : UInt8) (s : Bytes) : cost (c :: s) = charCost c + cost s := by
  simp [cost]

/-- It adds up. -/
@[simp] theorem cost_append (s t : Bytes) : cost (s ++ t) = cost s + cost t := by
  simp [cost]

/-- One more element costs what its tree costs. -/
theorem elementsCost_append (vs : List JsonValue) (v : JsonValue) :
    elementsCost (vs ++ [v]) = elementsCost vs + treeCost v := by
  induction vs with
  | nil => simp [elementsCost]
  | cons u vs ih => rw [List.cons_append, elementsCost, ih, elementsCost]; omega

/-- An assignment may take a value away. -/
theorem membersCost_insert (name : Bytes) (v : JsonValue) (ms : List (Bytes × JsonValue)) :
    membersCost (OrdMap.insertOrAssign name v ms) ≤ membersCost ms + (cost name + treeCost v) := by
  induction ms with
  | nil => simp [OrdMap.insertOrAssign, membersCost]
  | cons e ms ih =>
    obtain ⟨name', v'⟩ := e
    rw [OrdMap.insertOrAssign]
    split_ifs <;> simp only [membersCost] at ih ⊢ <;> omega

/-! ### Reading -/

/-- The bytes of a `\u` escape cost no more than its backslash and its letter. -/
theorem cost_unicodeBytes (n : Nat) : cost (unicodeBytes n) ≤ 2 := by
  have hle : ∀ c, charCost c ≤ 2 := by
    intro c
    unfold charCost
    split_ifs <;> omega
  -- Two or three bytes are all above the characters that cost something.
  have hhigh : ∀ b c : UInt8, b = 0x80 ∨ b = 0xC0 ∨ b = 0xE0 → charCost (b ||| c) = 0 := by
    intro b c hb
    have hall := forall_byte (p := fun c => charCost (0x80 ||| c) == 0 && charCost (0xC0 ||| c) == 0
      && charCost (0xE0 ||| c) == 0) (by decide +kernel) c
    simp only [Bool.and_eq_true, beq_iff_eq] at hall
    rcases hb with rfl | rfl | rfl
    · exact hall.1.1
    · exact hall.1.2
    · exact hall.2
  unfold unicodeBytes
  split_ifs with h₁ h₂
  · simpa using hle (UInt8.ofNat n)
  · simp only [UInt8.ofNat_or, cost_cons, cost_nil]
    rw [hhigh _ _ (by decide), hhigh _ _ (by decide)]
    omega
  · simp only [UInt8.ofNat_or, cost_cons, cost_nil]
    rw [hhigh _ _ (by decide), hhigh _ _ (by decide), hhigh _ _ (by decide)]
    omega

/-- An item costs no more than its marks. -/
theorem cost_itemBytes {i : StrItem} (h : Readable i) : cost (itemBytes i) ≤ marks i.text := by
  obtain ⟨hvalid, hdel⟩ := h
  cases i with
  | raw b =>
    have hcntrl : iscntrl b = false := by
      rw [Bool.eq_false_iff, ne_eq, iscntrl_raw hvalid]
      simpa using hdel
    simp [itemBytes, StrItem.text, charCost, isMark, hcntrl, hvalid.2.1, hvalid.2.2]
  | escape c =>
    have hall := forall_byte
      (p := fun c => cost (escapeChar c).toList ≤ marks [0x5C, c]) (by decide +kernel) c
    simpa [itemBytes, StrItem.text] using hall
  | unicode h₁ h₂ h₃ h₄ =>
    refine (cost_unicodeBytes _).trans ?_
    simp [StrItem.text, isMark]
    omega

/-- **A string costs no more than the marks it was read from.** -/
theorem cost_stringBytes {items : List StrItem} (h : ∀ i ∈ items, Readable i) :
    cost (stringBytes items) ≤ marks (items.flatMap StrItem.text) := by
  induction items with
  | nil => simp [stringBytes]
  | cons i items ih =>
    obtain ⟨hi, hitems⟩ := List.forall_mem_cons.mp h
    have hitem := cost_itemBytes hi
    have hrest := ih hitems
    rw [stringBytes] at hrest
    rw [stringBytes, List.flatMap_cons, List.flatMap_cons, cost_append, marks_append]
    omega

/-- A scalar costs no more than the marks of its text. -/
theorem treeCost_scalar {v : JsonValue} {b : Bytes} (h : ScalarText (some v) b) :
    treeCost v ≤ marks b := by
  generalize ho : some v = o at h
  -- One case for each kind of scalar text.
  cases h with
  | null => cases ho; decide
  | bool b => cases ho; cases b <;> decide
  | @number n _ _ =>
    cases hn : numberValue n with
    | error e => simp [hn, Except.toOption] at ho
    | ok u =>
      obtain rfl : v = u := by simpa [hn, Except.toOption] using ho
      cases v with
      | integer _ => simp [treeCost]
      | double _ => simp [treeCost]
      | _ =>
        obtain ⟨result, -, h⟩ := bind_eq_ok.mp hn
        simp only [pure_eq_ok, Except.ok.injEq] at h
        split_ifs at h
  | @string items hitems =>
    split_ifs at ho with hdel
    cases ho
    have hread : ∀ i ∈ items, Readable i := fun i hi => ⟨hitems i hi, fun heq => hdel (heq ▸ hi)⟩
    have := cost_stringBytes hread
    simp only [treeCost, quoted, marks_cons, marks_append]
    omega

/-- What an open container costs. -/
def frameCost : Frame → Nat
  | .array elements => elementsCost elements
  | .object members key => membersCost members + cost key

/-- What all open containers cost. -/
def stackCost (fs : List Frame) : Nat := (fs.map frameCost).sum

/-- The open frames cost one by one. -/
@[simp] theorem stackCost_cons (f : Frame) (fs : List Frame) :
    stackCost (f :: fs) = frameCost f + stackCost fs := by simp [stackCost]

/-- A value put into a frame costs no more there. -/
theorem frameCost_add (f : Frame) (v : JsonValue) :
    frameCost (f.add v) ≤ frameCost f + treeCost v := by
  cases f with
  | array elements => rw [Frame.add, frameCost, frameCost, elementsCost_append]
  | object members key =>
    have := membersCost_insert key v members
    simp only [Frame.add, frameCost, cost_nil]
    omega

/-- Closing a frame makes it no dearer. -/
theorem treeCost_node (f : Frame) : treeCost f.node ≤ frameCost f := by
  cases f with
  | array elements => exact le_rfl
  | object members key => exact Nat.le_add_right _ _

/-- A punctuation character takes no mark from the text that is not its own. -/
theorem Reads.marks_le {s s' : Bytes} {c : UInt8} {t : Token} (h : Reads s (.ok (t, s')))
    (hc : Icl.Json.punctuation c = some t) : marks s' ≤ marks s := by
  obtain ⟨w, -, rfl, -⟩ := h.punctuation_inv hc
  simp only [marks_append, marks_cons]
  omega

/-- **The step lemma**: a token brings no more than the marks that it takes from the text. -/
theorem does_cost {f : Frame} {fs : List Frame} {sep : Bool} {t : Token} {s s' : Bytes}
    {turn : Turn Machine Outcome} (hdoes : Does f fs sep t turn) (hreads : Reads s (.ok (t, s'))) :
    (∀ m, turn = .next m → s' ≠ [0] → s' ≠ [] →
      stackCost m.stack + marks s' ≤ stackCost (f :: fs) + marks s) ∧
    (∀ v, turn = .stop (.ok, some v) → treeCost v ≤ stackCost (f :: fs)) := by
  -- A scalar is paid for by its own text.
  have hscalar : ∀ o, t = .scalar o → s' ≠ [0] → treeCost o + marks s' ≤ marks s := by
    rintro o rfl hne
    obtain ⟨w, b, -, rfl, hb, -, -⟩ := hreads.scalar_inv hne
    have := treeCost_scalar hb
    simp only [marks_append]
    omega
  cases hdoes with
  | nul =>
    refine ⟨?_, by simp⟩
    rintro m - - hne
    exact absurd hreads.nul_inv hne
  | fail _ => simp
  | @entry o _ =>
    refine ⟨?_, by simp⟩
    rintro m ⟨rfl⟩ hne -
    have := hscalar o rfl hne
    have := frameCost_add f o
    simp only [stackCost_cons]
    omega
  | @name members k hf =>
    subst hf
    refine ⟨?_, by simp⟩
    rintro m ⟨rfl⟩ hne -
    have := hscalar _ rfl hne
    simp only [treeCost] at this
    simp only [stackCost_cons, frameCost, cost_nil]
    omega
  -- The punctuation costs nothing: no entry comes with it.
  | beginArray =>
    refine ⟨?_, by simp⟩
    rintro m ⟨rfl⟩ - -
    have := hreads.marks_le (c := 0x5B) rfl
    simp only [stackCost_cons, frameCost, elementsCost]
    omega
  | beginObject =>
    refine ⟨?_, by simp⟩
    rintro m ⟨rfl⟩ - -
    have := hreads.marks_le (c := 0x7B) rfl
    simp only [stackCost_cons, frameCost, membersCost, cost_nil]
    omega
  | close hplace =>
    have hnode := treeCost_node f
    cases fs with
    | nil =>
      refine ⟨by simp [Machine.close], ?_⟩
      intro v hv
      obtain rfl : f.node = v := by simpa [Machine.close] using hv
      simpa [stackCost] using hnode
    | cons f' fs =>
      -- What the container has cost is now the cost of an entry of the frame below.
      refine ⟨?_, by simp [Machine.close]⟩
      rintro m ⟨rfl⟩ - -
      have hmarks : marks s' ≤ marks s := by
        rcases f with elements | ⟨members, _ | _⟩
        · exact hreads.marks_le (c := 0x5D) rfl
        · exact hreads.marks_le (c := 0x7D) rfl
        · exact absurd rfl hplace
      have := frameCost_add f' f.node
      simp only [stackCost_cons]
      omega
  | colon _ _ =>
    refine ⟨?_, by simp⟩
    rintro m ⟨rfl⟩ - -
    have := hreads.marks_le (c := 0x3A) rfl
    dsimp only
    omega
  | comma _ _ =>
    refine ⟨?_, by simp⟩
    rintro m ⟨rfl⟩ - -
    have := hreads.marks_le (c := 0x2C) rfl
    dsimp only
    omega

/-- The same before a container is open. -/
theorem starts_cost {sep : Bool} {t : Token} {s s' : Bytes} {turn : Turn Machine Outcome}
    (hstarts : Starts sep t turn) (hreads : Reads s (.ok (t, s'))) :
    (∀ m, turn = .next m → s' ≠ [] → stackCost m.stack + marks s' ≤ marks s) ∧
    (∀ v, turn ≠ .stop (.ok, some v)) := by
  -- A turn that goes on either takes a comma or opens a bracket, whose mark it pays with.
  cases hstarts with
  | nul =>
    refine ⟨?_, by simp⟩
    rintro m - hne
    exact absurd hreads.nul_inv hne
  | fail _ => simp
  | beginArray =>
    refine ⟨?_, by simp⟩
    rintro m ⟨rfl⟩ -
    simpa [stackCost, frameCost, elementsCost] using hreads.marks_le (c := 0x5B) rfl
  | beginObject =>
    refine ⟨?_, by simp⟩
    rintro m ⟨rfl⟩ -
    simpa [stackCost, frameCost, membersCost] using hreads.marks_le (c := 0x7B) rfl
  | comma _ =>
    refine ⟨?_, by simp⟩
    rintro m ⟨rfl⟩ -
    simpa [stackCost] using hreads.marks_le (c := 0x2C) rfl

/-- **The run lemma**: what is read costs no more than the marks of the text. -/
theorem halts_cost {m : Machine} {s : Bytes} {v : JsonValue} (hs : Terminated s)
    (h : Halts machineTurn (m, s) (.ok (.ok, some v))) :
    treeCost v ≤ stackCost m.stack + marks s := by
  -- On the length of the text that is left, a turn at a time.
  induction hn : s.length using Nat.strong_induction_on generalizing m s with
  | h n ih =>
    obtain ⟨t, s', hreads, ht, hact⟩ := accepting_turn hs h
    obtain ⟨stack, sep⟩ := m
    cases stack with
    | nil =>
      obtain ⟨hnext, hstop⟩ := starts_cost (act_starts sep ht) hreads
      rcases hact with hact | ⟨m', hact, h', hs', -, hlt⟩
      · exact absurd hact (hstop v)
      · have hrest := ih s'.length (hn ▸ hlt) hs' h' rfl
        have hmarks := hnext m' hact fun hnil => not_terminated_nil (hnil ▸ hs')
        exact hrest.trans (hmarks.trans (Nat.le_add_left _ _))
    | cons f fs =>
      have hdoes := act_does f fs sep ht
      obtain ⟨hnext, hstop⟩ := does_cost hdoes hreads
      rcases hact with hact | ⟨m', hact, h', hs', hne, hlt⟩
      · exact (hstop v hact).trans (Nat.le_add_right _ _)
      · have hrest := ih s'.length (hn ▸ hlt) hs' h' rfl
        exact hrest.trans (hnext m' hact hne fun hnil => not_terminated_nil (hnil ▸ hs'))

/-- **A tree that is read** costs no more than the marks of the text. -/
theorem parseString_cost {json v : JsonValue} {s : Bytes} (h : parseString json s = .ok (true, v)) :
    treeCost v ≤ marks s := by
  have hcost := halts_cost (terminated_cStr s) (parseString_eq_ok_true.mp h)
  have hle : marks (cStr s) ≤ marks s := by
    rw [cStr, marks_append]
    exact (List.takeWhile_sublist _).countP_le
  exact (Nat.le_trans hcost (by simpa [Machine.init, stackCost] using hle))

/-! ### Writing -/

/-- Neither white space nor a comma has a mark. -/
theorem marks_layout (level : Int) :
    marks (layout level).crlf = 0 ∧ marks (layout level).indent = 0 ∧
    ∀ index size, marks (separatorAfter (layout level) index size) = 0 := by
  have hindent : ∀ n, marks (List.replicate n 0x20) = 0 := by
    intro n
    rw [marks, List.countP_replicate]
    simp [isMark]
  have hcrlf : marks (layout level).crlf = 0 := by
    unfold layout
    split_ifs <;> simp [isMark]
  refine ⟨hcrlf, ?_, ?_⟩
  · unfold layout createIndent
    split_ifs
    · exact hindent _
    · rfl
  · intro index size
    unfold separatorAfter
    split_ifs
    · simp [hcrlf, isMark]
    · rfl

/-- What is written character by character pays as each character does. -/
theorem marks_flatMap {f : UInt8 → Bytes} {P : UInt8 → Prop}
    (h : ∀ c, marks (f c) ≤ charCost c ∧ (charCost c ≤ marks (f c) → P c)) (s : Bytes) :
    marks (s.flatMap f) ≤ cost s ∧ (cost s ≤ marks (s.flatMap f) → ∀ c ∈ s, P c) := by
  induction s with
  | nil => simp
  | cons c s ih =>
    obtain ⟨hle, hall⟩ := ih
    obtain ⟨hchar, hgood⟩ := h c
    rw [List.flatMap_cons, marks_append, cost_cons]
    -- No character makes up for another one that pays too little.
    refine ⟨by omega, fun hcost => List.forall_mem_cons.mpr ⟨hgood ?_, hall ?_⟩⟩
    · omega
    · omega

/-- A string pays for its backslashes and for the letters `u`, and for nothing else. -/
theorem marks_escapeString (s : Bytes) : marks (escapeString s) ≤ cost s ∧
    (cost s ≤ marks (escapeString s) → ∀ c ∈ s, IsQuiet c) := by
  refine marks_flatMap (fun c => ?_) s
  by_cases hback : c = 0x5C
  · subst hback
    exact ⟨by decide, fun _ => by decide⟩
  · by_cases hu : c = 0x75
    · subst hu
      exact ⟨by decide, fun _ => by decide⟩
    · by_cases hbad : c = 0x22 ∨ iscntrl c = true <;>
        simp_all [charCost, isMark, IsQuiet]

/-- A name pays for each backslash and each letter `u` once. -/
theorem marks_name (s : Bytes) : marks s ≤ cost s ∧
    (cost s ≤ marks s → ∀ c ∈ s, IsQuiet c ∧ c ≠ 0x5C) := by
  have hname := marks_flatMap (f := fun c => [c]) (P := fun c => IsQuiet c ∧ c ≠ 0x5C)
    (fun c => by
      by_cases hback : c = 0x5C
      · subst hback
        exact ⟨by decide, fun h => absurd h (by decide)⟩
      · by_cases hu : c = 0x75
        · subst hu
          exact ⟨by decide, fun _ => by decide⟩
        · by_cases hbad : c = 0x22 ∨ iscntrl c = true <;>
            simp_all [charCost, isMark, IsQuiet]) s
  rwa [List.flatMap_singleton'] at hname

/-- A number has no mark. -/
theorem marks_intToString (n : Int) : marks (intToString n) = 0 := by
  have hdigit : ∀ c, isdigit c = true → isMark c = false := by
    intro c hc
    have := forall_byte (p := fun c => !isdigit c || !isMark c) (by decide +kernel) c
    simpa [hc] using this
  have hdecimal : marks (decimal n.natAbs) = 0 :=
    List.countP_eq_zero.mpr fun c hc => by simp [hdigit c (digits_decimal _ c hc)]
  rw [intToString]
  split_ifs <;> simp [hdecimal, isMark]

/-- What the writer does for a value: it pays for no more than there is, and enough only for a
    quiet one. -/
def Pays (v : JsonValue) : Prop := ∀ level,
  marks (v.toString level) ≤ treeCost v ∧ (treeCost v ≤ marks (v.toString level) → Quiet v)

/-- **The elements are written with no more marks than they cost**, with as many only if they are
    quiet. -/
theorem pays_elements {vs : List JsonValue} (h : ∀ v ∈ vs, Pays v) (level : Int)
    (size index : Nat) :
    marks (elementsToString (layout level) size vs index) ≤ elementsCost vs ∧
    (elementsCost vs ≤ marks (elementsToString (layout level) size vs index) →
      ∀ v ∈ vs, Quiet v) := by
  obtain ⟨-, hindent, hsep⟩ := marks_layout level
  induction vs generalizing index with
  | nil => simp [elementsToString, elementsCost]
  | cons v vs ih =>
    obtain ⟨hv, hvs⟩ := List.forall_mem_cons.mp h
    obtain ⟨hle, hquiet⟩ := hv (layout level).nextLevel
    obtain ⟨hle', hquiet'⟩ := ih hvs (index + 1)
    simp only [elementsToString, elementsCost, marks_append, hindent, hsep]
    refine ⟨by omega, fun hcost => List.forall_mem_cons.mpr ⟨hquiet ?_, hquiet' ?_⟩⟩
    · omega
    · omega

/-- **So are the members**, with as many only if their names are quiet too. -/
theorem pays_members {ms : List (Bytes × JsonValue)} (h : ∀ e ∈ ms, Pays e.2) (level : Int)
    (size index : Nat) :
    marks (membersToString (layout level) size ms index) ≤ membersCost ms ∧
    (membersCost ms ≤ marks (membersToString (layout level) size ms index) →
      ∀ e ∈ ms, (∀ c ∈ e.1, IsQuiet c ∧ c ≠ 0x5C) ∧ Quiet e.2) := by
  obtain ⟨-, hindent, hsep⟩ := marks_layout level
  induction ms generalizing index with
  | nil => simp [membersToString, membersCost]
  | cons e ms ih =>
    obtain ⟨name, v⟩ := e
    obtain ⟨hv, hms⟩ : Pays v ∧ ∀ e ∈ ms, Pays e.2 := List.forall_mem_cons.mp h
    obtain ⟨hle, hquiet⟩ := hv (layout level).nextLevel
    obtain ⟨hle', hquiet'⟩ := ih hms (index + 1)
    obtain ⟨hname, hquietName⟩ := marks_name name
    have hquote : marks [0x22] = 0 ∧ marks [0x22, 0x3A] = 0 := by decide
    simp only [membersToString, membersCost, marks_append, hindent, hsep, hquote]
    -- If all the marks are spent, none of the parts has saved any.
    refine ⟨by omega, fun hcost => List.forall_mem_cons.mpr
      ⟨⟨hquietName ?_, hquiet ?_⟩, hquiet' ?_⟩⟩
    · omega
    · omega
    · omega

/-- A scalar, by its text. -/
theorem pays_leaf {v : JsonValue} (hleaf : v.IsLeaf) (hv : IsTreeNode v) : Pays v := by
  intro level
  -- Only the string can save marks, and it does so by its escapes.
  cases v with
  | invalid => cases hv
  | double _ => cases hv
  | array _ => cases hleaf
  | object _ => cases hleaf
  | integer n => simp [JsonValue.toString, marks_intToString, Quiet, JsonValue.All, QuietNode]
  | boolean b =>
    have hmarks : marks (boolToString b) = if b then 1 else 0 := by cases b <;> decide
    simp [JsonValue.toString, treeCost, hmarks, Quiet, JsonValue.All, QuietNode]
  | null =>
    have hmarks : marks (ascii "null") = 1 := by decide
    simp [JsonValue.toString, treeCost, hmarks, Quiet, JsonValue.All, QuietNode]
  | string s =>
    have hquote : marks [0x22] = 0 := by decide
    simp only [JsonValue.toString, treeCost, marks_append, hquote, Nat.zero_add, Nat.add_zero]
    exact marks_escapeString s

/-- **The writer pays enough only for quiet trees.** -/
theorem pays_tree (v : JsonValue) (hv : IsTree v) : Pays v := by
  -- The brackets, the layout and the commas have no mark.
  induction v using JsonValue.ind with
  | leaf v hleaf => exact pays_leaf hleaf ((all_leaf hleaf).mp hv)
  | array vs ih =>
    intro level
    obtain ⟨-, hvs⟩ := all_array.mp hv
    obtain ⟨hcrlf, hindent, -⟩ := marks_layout level
    have hbracket : marks [0x5B] = 0 ∧ marks [0x5D] = 0 := by decide
    simp only [JsonValue.toString, treeCost, marks_append, hcrlf, hindent, hbracket, Nat.zero_add,
      Nat.add_zero]
    obtain ⟨hle, hquiet⟩ := pays_elements (fun v hmem => ih v hmem (hvs v hmem)) level vs.length 0
    exact ⟨hle, fun hcost => all_array.mpr ⟨trivial, hquiet hcost⟩⟩
  | object ms ih =>
    intro level
    obtain ⟨-, hms⟩ := all_object.mp hv
    obtain ⟨hcrlf, hindent, -⟩ := marks_layout level
    have hbracket : marks [0x7B] = 0 ∧ marks [0x7D] = 0 := by decide
    simp only [JsonValue.toString, treeCost, marks_append, hcrlf, hindent, hbracket, Nat.zero_add,
      Nat.add_zero]
    obtain ⟨hle, hquiet⟩ := pays_members (fun e hmem => ih e hmem (hms e hmem)) level ms.length 0
    exact ⟨hle, fun hcost => all_object.mpr
      ⟨fun e he => (hquiet hcost e he).1, fun e he => (hquiet hcost e he).2⟩⟩

/-- **A tree that is read back** is quiet. -/
theorem quiet_of_parseString {json v : JsonValue} {level : Int} (hv : IsTree v)
    (h : parseString json (v.toString level) = .ok (true, v)) : Quiet v :=
  (pays_tree v hv level).2 (parseString_cost h)

end Icl.Json
