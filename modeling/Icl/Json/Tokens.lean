import Icl.Json.Scan

namespace Icl.Json

open Icl.Cxx Icl.Format Icl.Transition

/-!
# The tokens of `JsonReader`

* `ScalarText` — the texts of values that are no containers, as the reader knows them: the
  numbers are laxer than those of the grammar;
* `nextToken_scalar`, `nextToken_punctuation` — from the text to the token;
* `nextToken_reads` — from the token to the text: everything `nextToken` can do;
* `tokenTurn_measure` — each turn of a loop over tokens moves the cursor.
-/

/-! ### Scalars -/

/-- The text of a scalar and its value; none when the reader fails on it, because of a raw DEL
    in a string or an exponent that turns negative. -/
inductive ScalarText : Option JsonValue → Bytes → Prop where
  | null : ScalarText (some .null) (ascii "null")
  | bool (b : Bool) : ScalarText (some (.boolean b)) (boolToString b)
  | number {n : NumText} : n.Shape → Begins n → ScalarText (numberValue n).toOption n.text
  | string {items : List StrItem} : (∀ i ∈ items, i.Valid) →
      ScalarText (if .raw 0x7F ∈ items then none else some (.string (stringBytes items)))
        (quoted items)

/-- White space for the reader. -/
def Blank (w : Bytes) : Prop := ∀ c ∈ w, isspace c = true

/-- A delimiter comes next. -/
def Delimited (s : Bytes) : Prop := ∃ c ∈ s.head?, isDelim c = true

/-- No character at all is blank. -/
theorem Blank.nil : Blank [] := by simp [Blank]

/-- The terminating zero is no blank. -/
theorem Blank.not_mem {w : Bytes} (h : Blank w) : 0 ∉ w := fun h0 => by simpa [isspace] using h 0 h0

/-- No delimiter goes on a number. -/
theorem Delimited.headNot {s : Bytes} (h : Delimited s) : HeadNot isNumberChar s := by
  obtain ⟨c, hc, hdelim⟩ := h
  intro d hd
  obtain rfl : c = d := Option.mem_unique hc hd
  have := forall_byte (p := fun c => !isDelim c || !isNumberChar c) (by decide +kernel) c
  simpa [hdelim] using this

/-- The value a delimiter lets through. -/
theorem delimited_eq {s : Bytes} (h : Delimited s) (status : ParseStatus) (o : JsonValue) :
    delimited status o s = .ok (.scalar o, s) := by
  obtain ⟨c, hc, hdelim⟩ := h
  rcases s with _ | ⟨d, s⟩
  · simp at hc
  · obtain rfl : d = c := by simpa using hc
    simp [delimited, deref, hdelim]

/-- The first character of a token, after white space. -/
theorem nextToken_blank {w : Bytes} (hw : Blank w) {c : UInt8} {s : Bytes}
    (hs : Terminated (c :: s)) (hc : isspace c = false) :
    nextToken (w ++ c :: s) = tokenOf c s := by
  have hdrop : (w ++ c :: s).dropWhile isspace = c :: s :=
    dropWhile_append_of_headNot hw fun d hd => by
      obtain rfl : c = d := by simpa using hd
      exact hc
  rw [nextToken, skipSpace_eq ((terminated_append hw.not_mem).mpr hs), hdrop]
  rfl

/-- How the reader fails on a text. -/
def Fails (r : Except Fault (Token × Bytes)) : Prop :=
  (∃ e, r = .error e) ∨ ∃ status s, r = .ok (.error status, s)

/-- The first character of a number, and what has to come after a minus. -/
theorem text_begins {n : NumText} (hshape : n.Shape) (hbegins : Begins n) :
    ∃ c t, n.text = c :: t ∧
      (isdigit c = true ∨ c = 0x2D ∧ ∃ d ∈ t.head?, isdigit d = true ∨ d = 0x2E) := by
  obtain ⟨neg, int, frac, exp⟩ := n
  have hdigit : ∀ d ds, int = d :: ds → isdigit d = true := by
    rintro d ds rfl
    exact hshape.int d (by simp)
  cases neg with
  | false =>
    rcases int with _ | ⟨d, ds⟩
    · exact absurd rfl (hbegins.pos rfl)
    · exact ⟨d, _, rfl, .inl (hdigit d ds rfl)⟩
  | true =>
    refine ⟨0x2D, int ++ NumText.fracText ⟨true, int, frac, exp⟩
      ++ NumText.expText ⟨true, int, frac, exp⟩, by simp [NumText.text], .inr ⟨rfl, ?_⟩⟩
    -- Behind the minus stands a digit, or the point of a fraction.
    rcases int with _ | ⟨d, ds⟩
    · rcases hbegins.neg rfl with h | h
      · exact absurd rfl h
      · obtain ⟨ds, rfl⟩ := Option.isSome_iff_exists.mp h
        exact ⟨0x2E, rfl, .inr rfl⟩
    · exact ⟨d, rfl, .inl (hdigit d ds rfl)⟩

/-- The token of a number is looked for where a number can begin. -/
theorem tokenOf_number {c : UInt8} {s : Bytes}
    (h : isdigit c = true ∨ c = 0x2D ∧ ∃ d ∈ s.head?, isdigit d = true ∨ d = 0x2E) (hs : s ≠ []) :
    tokenOf c s = stringToNumber (c :: s) >>= fun r => delimited .badNumber r.1 r.2 := by
  rcases s with _ | ⟨d, s⟩
  · exact absurd rfl hs
  · have hzero : c ≠ 0 := by
      rintro rfl
      rcases h with h | ⟨h, -⟩
      · simp [isdigit] at h
      · simp at h
    have hnumber : c = 0x2D ∨ isdigit c = true := h.elim .inr fun h => .inl h.1
    -- A minus is only refused where neither a digit nor a point follows.
    have hfirst : ¬ (c = 0x2D ∧ ¬ isdigit d = true ∧ d ≠ 0x2E) := by
      rintro ⟨rfl, hd, hpoint⟩
      rcases h with h | ⟨-, d', hd', h⟩
      · simp [isdigit] at h
      · obtain rfl : d = d' := by simpa using hd'
        exact h.elim hd hpoint
    rw [tokenOf, if_neg hzero, if_pos hnumber, numberToken]
    simp only [deref, ok_bind, if_neg hfirst]

/-- No blank begins a number. -/
theorem not_isspace_number {c : UInt8} (h : isdigit c = true ∨ c = 0x2D) : isspace c = false := by
  have := forall_byte (p := fun c => !(isdigit c || c == 0x2D) || !isspace c) (by decide +kernel) c
  rcases h with h | h <;> simpa [h] using this

/-- The token of a literal. -/
theorem nextToken_literal {first : UInt8} {ls : Bytes} {o : JsonValue} {w rest : Bytes}
    (hw : Blank w) (hfirst : isspace first = false) (hzero : 0 ∉ first :: ls)
    (htoken : ∀ s, tokenOf first s = literalToken ls o s) (hrest : Terminated rest)
    (hdelim : Delimited rest) :
    nextToken (w ++ (first :: ls ++ rest)) = .ok (.scalar o, rest) := by
  have hs : Terminated (first :: (ls ++ rest)) := (terminated_append hzero).mpr hrest
  rw [List.cons_append, nextToken_blank hw hs hfirst, htoken, literalToken, scanLiteral_append]
  exact delimited_eq hdelim _ _

/-- The token of a number, once it is known where the number ends. -/
theorem nextToken_number {n : NumText} {w rest : Bytes} (hw : Blank w) (hshape : n.Shape)
    (hbegins : Begins n) (hrest : Terminated rest) (hends : Ends n.exp rest) :
    nextToken (w ++ (n.text ++ rest))
      = numberValue n >>= fun v => delimited .badNumber v rest := by
  obtain ⟨c, t, htext, hc⟩ := text_begins hshape hbegins
  -- The first character decides that a number is read.
  have hhead : isdigit c = true ∨ c = 0x2D ∧ ∃ d ∈ (t ++ rest).head?,
      isdigit d = true ∨ d = 0x2E :=
    hc.imp_right fun ⟨hm, d, hd, h⟩ => ⟨hm, d, by
      rcases t with _ | ⟨e, t⟩
      · simp at hd
      · simpa using hd, h⟩
  have hnonempty : t ++ rest ≠ [] := fun h => not_terminated_nil
    ((List.append_eq_nil_iff.mp h).2 ▸ hrest)
  have hspace := not_isspace_number (hc.imp_right And.left)
  have hvalue := stringToNumber_text hshape hbegins hrest hends
  have hs : Terminated (c :: (t ++ rest)) := by
    have : 0 ∉ n.text := n.zero_not_mem hshape
    rw [htext] at this
    exact (terminated_append this).mpr hrest
  rw [htext, List.cons_append] at hvalue
  rw [htext, List.cons_append, nextToken_blank hw hs hspace, tokenOf_number hhead hnonempty, hvalue]
  cases numberValue n <;> rfl

/-- **The token of a scalar**, if a delimiter follows. -/
theorem nextToken_scalar {o : Option JsonValue} {w b rest : Bytes} (hw : Blank w)
    (h : ScalarText o b) (hrest : Terminated rest) (hdelim : Delimited rest) :
    (∀ v, o = some v → nextToken (w ++ (b ++ rest)) = .ok (.scalar v, rest)) ∧
    (o = none → Fails (nextToken (w ++ (b ++ rest)))) := by
  cases h with
  | null =>
    refine ⟨?_, by simp⟩
    rintro v ⟨rfl⟩
    exact nextToken_literal hw (by decide) (by decide) (fun _ => rfl) hrest hdelim
  | bool b =>
    refine ⟨?_, by simp⟩
    rintro v ⟨rfl⟩
    cases b with
    | true => exact nextToken_literal hw (by decide) (by decide) (fun _ => rfl) hrest hdelim
    | false => exact nextToken_literal hw (by decide) (by decide) (fun _ => rfl) hrest hdelim
  | @number n hshape hbegins =>
    have htoken := nextToken_number hw hshape hbegins hrest (.of_headNot hdelim.headNot)
    -- The number is looked up first, and then what follows it; a delimiter is no reason to fail.
    have hdelimited : (numberValue n >>= fun v => delimited .badNumber v rest)
        = numberValue n >>= fun v => .ok (.scalar v, rest) := by
      cases numberValue n with
      | error e => rfl
      | ok v => exact delimited_eq hdelim _ _
    rw [hdelimited] at htoken
    rw [htoken]
    cases numberValue n with
    | error e => exact ⟨by simp [Except.toOption], fun _ => .inl ⟨e, rfl⟩⟩
    | ok v => exact ⟨by simp [Except.toOption], by simp [Except.toOption]⟩
  | @string items hitems =>
    have hquoted : quoted items ++ rest = 0x22 :: (items.flatMap StrItem.text ++ 0x22 :: rest) := by
      simp [quoted]
    have hs : Terminated (0x22 :: (items.flatMap StrItem.text ++ 0x22 :: rest)) := by
      rw [← hquoted]
      exact (terminated_append (zero_not_mem_quoted hitems)).mpr hrest
    rw [hquoted, nextToken_blank hw hs (by decide)]
    show (∀ v, _ → stringToken _ = _) ∧ (_ → Fails (stringToken _))
    rw [stringToken, scanString_text hitems]
    split_ifs with hdel
    · exact ⟨by simp, fun _ => .inr ⟨_, _, rfl⟩⟩
    · refine ⟨?_, by simp⟩
      rintro v ⟨rfl⟩
      exact delimited_eq hdelim _ _

/-! ### Punctuation -/

/-- The six punctuation characters. -/
def punctuation (c : UInt8) : Option Token :=
  if c = 0x5B then some .arrayBegin
  else if c = 0x5D then some .arrayEnd
  else if c = 0x7B then some .objectBegin
  else if c = 0x7D then some .objectEnd
  else if c = 0x3A then some .colon
  else if c = 0x2C then some .comma
  else none

/-- There are six punctuation characters. -/
theorem punctuation_cases {c : UInt8} {t : Token} (h : punctuation c = some t) :
    c = 0x5B ∨ c = 0x5D ∨ c = 0x7B ∨ c = 0x7D ∨ c = 0x3A ∨ c = 0x2C := by
  unfold punctuation at h
  split_ifs at h <;> simp_all

/-- Punctuation is neither the NUL nor a value nor an error. -/
theorem punctuation_ne {c : UInt8} {t : Token} (h : punctuation c = some t) :
    t ≠ .nul ∧ (∀ o, t ≠ .scalar o) ∧ ∀ status, t ≠ .error status := by
  rcases punctuation_cases h with rfl | rfl | rfl | rfl | rfl | rfl <;> cases h <;> simp

/-- Each makes a token of its own. -/
theorem punctuation_inj {c c' : UInt8} {t : Token} (h : punctuation c = some t)
    (h' : punctuation c' = some t) : c = c' := by
  rcases punctuation_cases h with rfl | rfl | rfl | rfl | rfl | rfl <;>
    rcases punctuation_cases h' with rfl | rfl | rfl | rfl | rfl | rfl <;>
      cases h <;> cases h' <;> rfl

/-- A punctuation character is a token at once. -/
theorem tokenOf_punctuation {c : UInt8} {t : Token} (h : punctuation c = some t) (s : Bytes) :
    tokenOf c s = .ok (t, s) := by
  rcases punctuation_cases h with rfl | rfl | rfl | rfl | rfl | rfl <;> cases h <;> rfl

/-- **The token of a punctuation character.** -/
theorem nextToken_punctuation {w rest : Bytes} (hw : Blank w) {c : UInt8} {t : Token}
    (h : punctuation c = some t) (hrest : Terminated rest) :
    nextToken (w ++ c :: rest) = .ok (t, rest) := by
  have hc : c ≠ 0 ∧ isspace c = false := by
    rcases punctuation_cases h with rfl | rfl | rfl | rfl | rfl | rfl <;> decide
  rw [nextToken_blank hw (terminated_cons.mpr (.inr ⟨hc.1, hrest⟩)) hc.2, tokenOf_punctuation h]

/-! ### Everything a turn can read -/

/-- What `nextToken` can do on a C string. -/
inductive Reads (s : Bytes) : Except Fault (Token × Bytes) → Prop where
  /-- Nothing but blanks before the terminator, which is passed. -/
  | blank {w : Bytes} : Blank w → s = w ++ [0] → Reads s (.ok (.nul, []))
  | scalar {w b rest : Bytes} {o : JsonValue} : Blank w → s = w ++ (b ++ rest) →
      ScalarText (some o) b → Terminated rest → Delimited rest → Reads s (.ok (.scalar o, rest))
  /-- A string without its closing quote. -/
  | unterminated {o : JsonValue} : 1 < s.length → Reads s (.ok (.scalar o, [0]))
  | punctuation {w rest : Bytes} {c : UInt8} {t : Token} : Blank w → s = w ++ c :: rest →
      punctuation c = some t → Terminated rest → Reads s (.ok (t, rest))
  | error {status : ParseStatus} (hstatus : status ≠ .ok) (rest : Bytes) :
      Reads s (.ok (.error status, rest))
  /-- A number whose exponent turns negative. -/
  | endless {w rest : Bytes} {n : NumText} : Blank w → s = w ++ (n.text ++ rest) → n.Shape →
      Begins n → Ends n.exp rest → Terminated rest → numberValue n = .error .endlessLoop →
      Reads s (.error .endlessLoop)

/-- What is left after a token that is read in full has the right form. -/
theorem delimited_cases {s : Bytes} (h : Terminated s) (status : ParseStatus) (o : JsonValue) :
    Delimited s ∧ delimited status o s = .ok (.scalar o, s) ∨
      delimited status o s = .ok (.error status, s) := by
  by_cases hdelim : Delimited s
  · exact .inl ⟨hdelim, delimited_eq hdelim status o⟩
  · right
    obtain ⟨c, t, rfl⟩ : ∃ c t, s = c :: t := by
      rcases h.cases with rfl | ⟨c, t, rfl, -⟩
      · exact ⟨0, [], rfl⟩
      · exact ⟨c, t, rfl⟩
    have hc : isDelim c = false := by
      by_contra hc
      exact hdelim ⟨c, rfl, by simpa using hc⟩
    simp [delimited, deref, hc]

/-- **A literal is read as its token**, or as an error. -/
theorem reads_literal {first : UInt8} {ls : Bytes} {o : JsonValue} {w s : Bytes} (hw : Blank w)
    (hls : 0 ∉ ls) (ho : ScalarText (some o) (first :: ls)) (hs : Terminated s) :
    Reads (w ++ first :: s) (literalToken ls o s) := by
  rw [literalToken]
  rcases scanLiteral_split hls hs with hbad | ⟨rest, rfl, hrest, hscan⟩
  · rw [hbad]
    exact .error (by decide) _
  · rw [hscan]
    show Reads _ (delimited .badIdentifier o rest)
    rcases delimited_cases hrest .badIdentifier o with ⟨hdelim, htoken⟩ | htoken
    · rw [htoken]
      exact .scalar hw (by simp) ho hrest hdelim
    · rw [htoken]
      exact .error (by decide) _

/-- **A string is read as its token**, or as an error. -/
theorem reads_string {w s : Bytes} (hw : Blank w) (hs : Terminated s) :
    Reads (w ++ 0x22 :: s) (stringToken s) := by
  rw [stringToken]
  rcases scanString_split hs [] with hbad | ⟨items, rest, hitems, hscan, hsplit⟩
  · rw [hbad]
    exact .error (by decide) _
  · rw [hscan, List.nil_append]
    show Reads _ (delimited .badString (.string (stringBytes items)) rest)
    rcases hsplit with ⟨rfl, hrest⟩ | ⟨-, rfl⟩
    · have htext := ScalarText.string fun i hi => (hitems i hi).1
      rw [if_neg fun hdel => (hitems _ hdel).2 rfl] at htext
      rcases delimited_cases hrest .badString (.string (stringBytes items)) with
        ⟨hdelim, htoken⟩ | htoken
      · rw [htoken]
        exact .scalar hw (by simp [quoted]) htext hrest hdelim
      · rw [htoken]
        exact .error (by decide) _
    · have hlt : 0 < s.length := List.length_pos_iff.mpr fun h => not_terminated_nil (h ▸ hs)
      exact .unterminated (by simp; omega)

/-- **A number is read as its token**, or as an error. -/
theorem reads_number {w s : Bytes} {c : UInt8} (hw : Blank w) (hs : Terminated (c :: s))
    (hc : c = 0x2D ∨ isdigit c = true) : Reads (w ++ c :: s) (numberToken c s) := by
  rcases s with _ | ⟨d, s⟩
  · rcases terminated_cons.mp hs with ⟨rfl, -⟩ | ⟨-, hs⟩
    · simp [isdigit] at hc
    · exact absurd hs not_terminated_nil
  -- A minus sign asks for a digit or a point after it.
  by_cases hminus : c = 0x2D ∧ ¬ isdigit d = true ∧ d ≠ 0x2E
  · have htoken : numberToken c (d :: s) = .ok (.error .badNumber, d :: s) := by
      simp only [numberToken, deref, ok_bind, if_pos hminus, pure_eq_ok]
    rw [htoken]
    exact .error (by decide) _
  · have hstart : isdigit c = true ∨ c = 0x2D ∧ ∃ d' ∈ (d :: s).head?, isdigit d' ∨ d' = 0x2E := by
      rcases hc with rfl | hc
      · right
        refine ⟨rfl, d, rfl, ?_⟩
        by_contra hd
        rw [not_or] at hd
        exact hminus ⟨rfl, hd⟩
      · exact .inl hc
    obtain ⟨n, rest, htext, hshape, hbegins, hrest, hexp, hvalue⟩ := stringToNumber_split hs hstart
    have htoken : numberToken c (d :: s)
        = numberValue n >>= fun v => delimited .badNumber v rest := by
      simp only [numberToken, deref, ok_bind, if_neg hminus, hvalue]
      cases numberValue n <;> rfl
    rw [htoken, htext]
    cases hn : numberValue n with
    | error e =>
      obtain ⟨rfl, x, hx, hneg⟩ := numberValue_error hn
      have hdigits : x.digits ≠ [] := by
        intro hnil
        simp [hnil, exponentValue] at hneg
      exact .endless hw rfl hshape hbegins
        ⟨hexp x hx, fun hall => absurd (hall x hx) hdigits⟩ hrest hn
    | ok v =>
      rw [ok_bind]
      rcases delimited_cases hrest .badNumber v with ⟨hdelim, htoken⟩ | htoken
      · have hscalar := ScalarText.number hshape hbegins
        rw [hn] at hscalar
        rw [htoken]
        exact .scalar hw rfl hscalar hrest hdelim
      · rw [htoken]
        exact .error (by decide) _

/-- **What a token is**: everything `nextToken` can do on a C string. -/
theorem nextToken_reads {s : Bytes} (h : Terminated s) : Reads s (nextToken s) := by
  have hsplit : s = s.takeWhile isspace ++ s.dropWhile isspace :=
    List.takeWhile_append_dropWhile.symm
  have hw : Blank (s.takeWhile isspace) := fun c hc => List.mem_takeWhile_imp hc
  have hhead := headNot_dropWhile isspace s
  have hrest := h.dropWhile (p := isspace) rfl
  -- The blanks, and what follows them: the NUL, or the first character of the token.
  generalize s.takeWhile isspace = w at hsplit hw
  generalize s.dropWhile isspace = t at hsplit hhead hrest
  subst hsplit
  rcases hrest.cases with rfl | ⟨c, t, rfl, hc, ht⟩
  · rw [nextToken_blank hw terminated_zero rfl]
    exact .blank hw rfl
  · rw [nextToken_blank hw hrest (hhead c rfl)]
    by_cases hnumber : c = 0x2D ∨ isdigit c = true
    · rw [tokenOf, if_neg hc, if_pos hnumber]
      exact reads_number hw hrest hnumber
    by_cases hquote : c = 0x22
    · subst hquote
      exact reads_string hw ht
    by_cases htrue : c = 0x74
    · subst htrue
      exact reads_literal hw (by decide) (.bool true) ht
    by_cases hfalse : c = 0x66
    · subst hfalse
      exact reads_literal hw (by decide) (.bool false) ht
    by_cases hnull : c = 0x6E
    · subst hnull
      exact reads_literal hw (by decide) .null ht
    -- No token but the punctuation is left.
    cases hpunct : punctuation c with
    | some tok =>
      rw [tokenOf_punctuation hpunct]
      exact .punctuation hw rfl hpunct ht
    | none =>
      have herror : tokenOf c t = .ok (.error .unexpectedCharacter, t) := by
        unfold punctuation at hpunct
        rw [tokenOf, if_neg hc, if_neg hnumber, if_neg hquote, if_neg htrue, if_neg hfalse,
          if_neg hnull]
        split_ifs at hpunct
        simp_all
      rw [herror]
      exact .error (by decide) _

/-! ### Turns -/

/-- A scalar takes at least one byte. -/
theorem ScalarText.ne_nil {o : Option JsonValue} {b : Bytes} (h : ScalarText o b) : b ≠ [] := by
  cases h with
  | null => decide
  | bool b => cases b <;> decide
  | number hshape hbegins =>
    obtain ⟨c, t, htext, -⟩ := text_begins hshape hbegins
    simp [htext]
  | string _ => simp [quoted]

/-- An error says which one. -/
theorem Reads.ne_error_ok {s s' : Bytes} {t : Token} (h : Reads s (.ok (t, s'))) :
    t ≠ .error .ok := by
  rintro rfl
  cases h with
  | error hstatus _ => exact hstatus rfl
  | punctuation _ _ hpunct _ => exact (punctuation_ne hpunct).2.2 _ rfl

/-- The NUL is read as a token at the end of the text only. -/
theorem Reads.nul_inv {s s' : Bytes} (h : Reads s (.ok (.nul, s'))) : s' = [] := by
  cases h with
  | blank _ _ => rfl
  | punctuation _ _ hpunct _ => exact absurd rfl (punctuation_ne hpunct).1

/-- A punctuation token comes from its character. -/
theorem Reads.punctuation_inv {s s' : Bytes} {c : UInt8} {t : Token} (h : Reads s (.ok (t, s')))
    (hc : Icl.Json.punctuation c = some t) :
    ∃ w, Blank w ∧ s = w ++ c :: s' ∧ Terminated s' := by
  obtain ⟨hnul, hscalar, herror⟩ := punctuation_ne hc
  cases h with
  | blank _ _ => exact absurd rfl hnul
  | scalar _ _ _ _ _ => exact absurd rfl (hscalar _)
  | unterminated _ => exact absurd rfl (hscalar _)
  | punctuation hw hs hc' hrest =>
    rw [punctuation_inj hc hc']
    exact ⟨_, hw, hs, hrest⟩
  | error _ _ => exact absurd rfl (herror _)

/-- A value that leaves more than the NUL comes from its text. -/
theorem Reads.scalar_inv {s s' : Bytes} {o : JsonValue} (h : Reads s (.ok (.scalar o, s')))
    (hne : s' ≠ [0]) : ∃ w b, Blank w ∧ s = w ++ (b ++ s') ∧ ScalarText (some o) b ∧
      Terminated s' ∧ Delimited s' := by
  cases h with
  | scalar hw hs hb hrest hdelim => exact ⟨_, _, hw, hs, hb, hrest, hdelim⟩
  | unterminated _ => exact absurd rfl hne
  | punctuation _ _ hpunct _ => exact absurd rfl ((punctuation_ne hpunct).2.1 o)

/-- A token takes at least one byte, and leaves a C string unless it is the NUL itself. -/
theorem Reads.lt {s s' : Bytes} {t : Token} (h : Reads s (.ok (t, s')))
    (ht : ∀ status, t ≠ .error status) :
    (Terminated s' ∨ s' = []) ∧ s'.length < s.length := by
  cases h with
  | blank _ hs => exact ⟨.inr rfl, by simp [hs]⟩
  | scalar _ hs hb hrest _ =>
    have := List.length_pos_iff.mpr hb.ne_nil
    refine ⟨.inl hrest, ?_⟩
    simp only [hs, List.length_append]
    omega
  | unterminated hlt => exact ⟨.inl terminated_zero, hlt⟩
  | punctuation _ hs _ hrest =>
    refine ⟨.inl hrest, ?_⟩
    simp only [hs, List.length_append, List.length_cons]
    omega
  | error _ _ => exact absurd rfl (ht _)

/-- The cursor is on the text, or past its end. -/
def OnText {σ : Type} (p : σ × Bytes) : Prop := Terminated p.2 ∨ p.2 = []

section Turns

variable {σ : Type} {act : σ → Token → Turn σ Outcome}

@[simp] theorem tokenTurn_nil (st : σ) : tokenTurn act (st, []) = .error .pastTerminator := rfl

@[simp] theorem tokenTurn_zero (st : σ) :
    tokenTurn act (st, [0]) = .ok (.stop (.breakingBad, none)) := rfl

/-- Before the NUL there is a token. -/
theorem tokenTurn_eq {s : Bytes} (hs : Terminated s) (hne : s ≠ [0]) (st : σ) :
    tokenTurn act (st, s)
      = nextToken s >>= fun r => .ok ((act st r.1).map fun st => (st, r.2)) := by
  rcases hs.cases with rfl | ⟨c, s, rfl, hc, -⟩
  · exact absurd rfl hne
  · simp only [tokenTurn, deref, ok_bind, if_neg hc]
    rfl

/-- A token and what is made of it. -/
theorem tokenTurn_of_nextToken {s s' : Bytes} {t : Token} (hs : Terminated s) (hne : s ≠ [0])
    (h : nextToken s = .ok (t, s')) (st : σ) :
    tokenTurn act (st, s) = .ok ((act st t).map fun st => (st, s')) := by
  rw [tokenTurn_eq hs hne, h, ok_bind]

/-- **Everything a turn can do**: it is at the NUL, or it takes a token. -/
theorem tokenTurn_inv {st : σ} {s : Bytes} {turn : Turn (σ × Bytes) Outcome}
    (hp : OnText (st, s)) (h : tokenTurn act (st, s) = .ok turn) :
    turn = .stop (.breakingBad, none) ∨ ∃ t s', nextToken s = .ok (t, s') ∧
      Reads s (.ok (t, s')) ∧ turn = (act st t).map fun st => (st, s') := by
  rcases hp with hs | hnil
  · by_cases hne : s = [0]
    · subst hne
      exact .inl (Except.ok.inj h).symm
    · rw [tokenTurn_eq hs hne] at h
      obtain ⟨⟨t, s'⟩, htoken, hact⟩ := bind_eq_ok.mp h
      have hreads := nextToken_reads hs
      rw [htoken] at hreads
      exact .inr ⟨t, s', htoken, hreads, (Except.ok.inj hact).symm⟩
  · obtain rfl : s = [] := hnil
    cases h

/-- **Every turn moves the cursor**, on a C string or past its end. -/
theorem tokenTurn_measure (herror : ∀ st status, act st (.error status) = .stop (status, none))
    (p p' : σ × Bytes) (hp : OnText p) (hturn : tokenTurn act p = .ok (.next p')) :
    OnText p' ∧ p'.2.length < p.2.length := by
  obtain ⟨st, s⟩ := p
  obtain hstop | ⟨t, s', -, hreads, hturn⟩ := tokenTurn_inv hp hturn
  · cases hstop
  obtain ⟨st', hact, rfl⟩ := Turn.map_eq_next.mp hturn.symm
  -- A token that the parser does not stop at takes at least one character.
  refine hreads.lt fun status hstatus => ?_
  rw [hstatus, herror] at hact
  cases hact

/-- Loops over tokens end alike when what is made of each token is alike. -/
theorem tokenTurn_rel {τ : Type} {act' : τ → Token → Turn τ Outcome} {R : σ → τ → Prop}
    (hact : ∀ st st' t, R st st' → TurnRel R (.ok (act st t)) (.ok (act' st' t)))
    (p : σ × Bytes) (p' : τ × Bytes) (hp : R p.1 p'.1 ∧ p.2 = p'.2) :
    TurnRel (fun p p' => R p.1 p'.1 ∧ p.2 = p'.2) (tokenTurn act p) (tokenTurn act' p') := by
  obtain ⟨st, s⟩ := p
  obtain ⟨st', _⟩ := p'
  obtain ⟨hst, rfl⟩ := hp
  rw [tokenTurn, tokenTurn]
  cases deref s with
  | error e => exact .fault e
  | ok c =>
    simp only [ok_bind]
    split_ifs
    · exact .stop _
    · cases nextToken s with
      | error e => exact .fault e
      | ok r =>
        obtain ⟨t, s'⟩ := r
        -- The same token for both; what they make of it is related.
        have hrel := hact st st' t hst
        simp only [ok_bind, pure_eq_ok]
        revert hrel
        generalize act st t = a
        generalize act' st' t = a'
        intro hrel
        cases hrel with
        | stop result => exact .stop result
        | next h => exact .next ⟨h, rfl⟩

end Turns

end Icl.Json
