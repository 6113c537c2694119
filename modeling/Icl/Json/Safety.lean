import Icl.Json.Tokens

namespace Icl.Json

open Icl.Cxx Icl.Format Icl.Transition

/-!
# When `Parse` stays inside its text

The cursor of `Parse` passes the NUL in one case only: blanks before the NUL are skipped, the NUL
is taken for a token and the loop goes on with the character after it.  The other way not to
end is a number whose exponent has become negative: the loop over its bits never ends.

* `BlankEnd`, `EndlessNumber` — what the cursor stands before when a turn goes wrong;
* `terminated_next`, `terminated_reaches` — along a run the cursor stays on the text until a
  `BlankEnd`;
* `parse_defined_iff` — `Parse` ends without a read past the NUL exactly when no turn of its
  run starts before one of the two.
-/

/-- Nothing but blanks before the NUL, and at least one. -/
def BlankEnd (s : Bytes) : Prop := ∃ w, w ≠ [] ∧ Blank w ∧ s = w ++ [0]

/-- A number whose exponent, added up in 32 bits, is negative. -/
def EndlessNumber (s : Bytes) : Prop :=
  ∃ w n rest, Blank w ∧ s = w ++ (NumText.text n ++ rest) ∧ n.Shape ∧ Begins n ∧ Ends n.exp rest ∧
    ∃ e ∈ n.exp, exponentValue 0 e.digits < 0

/-! ### The two ways to go wrong -/

/-- The NUL is read as a token, and then the character after it. -/
theorem BlankEnd.halts {s : Bytes} (h : BlankEnd s) (st : ParserState) :
    Halts parseTurn (st, s) (.error .pastTerminator) := by
  obtain ⟨w, hne, hw, rfl⟩ := h
  have hs : Terminated (w ++ [0]) := (terminated_append hw.not_mem).mpr terminated_zero
  have hzero : w ++ [0] ≠ [0] := by simpa using hne
  have htoken : nextToken (w ++ [0]) = .ok (.nul, []) := by
    rw [nextToken_blank hw terminated_zero rfl]
    rfl
  exact .next (tokenTurn_of_nextToken hs hzero htoken st) (.fault (tokenTurn_nil st))

/-- Only a loop over a negative exponent goes on for ever. -/
theorem numberValue_of_neg {n : NumText} {e : ExpText} (he : e ∈ n.exp)
    (hneg : exponentValue 0 e.digits < 0) : numberValue n = .error .endlessLoop := by
  obtain ⟨neg, int, frac, exp⟩ := n
  obtain rfl : exp = some e := he
  simp [numberValue, powerOf, hneg]

/-- The number is looked for and its value never found. -/
theorem EndlessNumber.halts {s : Bytes} (hs : Terminated s) (h : EndlessNumber s)
    (st : ParserState) : Halts parseTurn (st, s) (.error .endlessLoop) := by
  obtain ⟨w, n, rest, hw, rfl, hshape, hbegins, hends, e, he, hneg⟩ := h
  have hnumber := (terminated_append hw.not_mem).mp hs
  have hrest : Terminated rest := (terminated_append (NumText.zero_not_mem hshape)).mp hnumber
  have hne : w ++ (n.text ++ rest) ≠ [0] := by
    obtain ⟨c, t, htext, -⟩ := text_begins hshape hbegins
    intro heq
    have := congrArg List.length heq
    have := List.length_pos_iff.mpr fun hnil => not_terminated_nil (hnil ▸ hrest)
    simp only [htext, List.length_append, List.length_cons, List.length_nil] at *
    omega
  refine .fault ?_
  rw [parseTurn, tokenTurn_eq hs hne, nextToken_number hw hshape hbegins hrest hends,
    numberValue_of_neg he hneg]
  rfl

/-! ### Along a run -/

/-- An error token ends the loop. -/
theorem act_error (st : ParserState) (status : ParseStatus) :
    st.act (.error status) = .stop (status, none) := rfl

/-- **The step lemma**: a turn that starts on the text, and before no blank end, ends on it. -/
theorem terminated_next {st st' : ParserState} {s s' : Bytes} (hs : Terminated s)
    (hblank : ¬ BlankEnd s) (h : parseTurn (st, s) = .ok (.next (st', s'))) : Terminated s' := by
  rcases (tokenTurn_measure act_error _ _ (.inl hs) h).1 with hs' | hnil
  · exact hs'
  · -- Only the NUL is read as a token up to the end of the text.
    exfalso
    dsimp only at hnil
    subst hnil
    have hne : s ≠ [0] := by
      rintro rfl
      simp [parseTurn] at h
    obtain hstop | ⟨t, s'', -, hreads, hturn⟩ := tokenTurn_inv (.inl hs) h
    · cases hstop
    obtain ⟨st'', hact, hnext⟩ := Turn.map_eq_next.mp hturn.symm
    cases hnext
    -- Every other token leaves the NUL behind it, or stops the parser.
    cases hreads with
    | blank hw heq =>
      rename_i w
      refine hblank ⟨w, ?_, hw, heq⟩
      rintro rfl
      exact hne heq
    | scalar _ _ _ hrest _ => exact not_terminated_nil hrest
    | punctuation _ _ _ hrest => exact not_terminated_nil hrest
    | error _ _ =>
      rw [act_error] at hact
      cases hact

/-- **The run lemma.** -/
theorem terminated_reaches {p p' : ParserState × Bytes} (hreach : Reaches parseTurn p p')
    (hp : Terminated p.2)
    (hblank : ∀ st s, Reaches parseTurn p (st, s) → ¬ BlankEnd s) : Terminated p'.2 := by
  induction hreach with
  | refl _ => exact hp
  | next hturn _ ih =>
    exact ih (terminated_next hp (hblank _ _ (.refl _)) hturn)
      fun st s hst => hblank st s (.next hturn hst)

/-- A turn that starts on the text faults only before an endless number. -/
theorem parseTurn_error {st : ParserState} {s : Bytes} {e : Fault} (hs : Terminated s)
    (h : parseTurn (st, s) = .error e) : EndlessNumber s := by
  by_cases hne : s = [0]
  · subst hne
    simp [parseTurn] at h
  · have hreads := nextToken_reads hs
    rw [parseTurn, tokenTurn_eq hs hne] at h
    cases htoken : nextToken s with
    | ok r => simp [htoken] at h
    | error e' =>
      rw [htoken] at hreads
      cases hreads with
      | endless hw hsplit hshape hbegins hends _ hvalue =>
        exact ⟨_, _, _, hw, hsplit, hshape, hbegins, hends, (numberValue_error hvalue).2⟩

/-- The fuel of `parse` is enough. -/
theorem parse_of_halts {s : Bytes} {json : JsonValue} {r : Except Fault Outcome}
    (hs : Terminated s) (h : Halts parseTurn (.init, s) r) :
    parse s json = r >>= fun o => .ok (o.1, o.2.getD json) := by
  have hon : OnText (ParserState.init, s) := .inl hs
  have hloop := loop_of_halts (tokenTurn_measure act_error) hon h (Nat.lt_succ_self _)
  rw [parse, ← hloop]
  rfl

/-- **Safety of `Parse`.**  It ends, and reads no character after the NUL, exactly when no turn of
    its run starts before blanks that end at the NUL, or before a number with an exponent that
    has become negative. -/
theorem parse_defined_iff (data : Bytes) (json : JsonValue) :
    Defined (parse (cStr data) json) ↔
      ∀ st s, Reaches parseTurn (.init, cStr data) (st, s) →
        ¬ BlankEnd s ∧ ¬ EndlessNumber s := by
  have hs := terminated_cStr data
  constructor
  · intro hdefined
    -- First the blanks: without them every turn starts on the text, where the numbers are found.
    have hblank : ∀ st s, Reaches parseTurn (.init, cStr data) (st, s) → ¬ BlankEnd s := by
      intro st s hreach hend
      rw [parse_of_halts hs (hreach.halts (hend.halts st))] at hdefined
      exact not_defined_error _ hdefined
    intro st s hreach
    refine ⟨hblank st s hreach, fun hend => ?_⟩
    have hs' : Terminated s := terminated_reaches hreach hs hblank
    rw [parse_of_halts hs (hreach.halts (hend.halts hs' st))] at hdefined
    exact not_defined_error _ hdefined
  · intro hgood
    -- The run ends, and no turn of it can fault.
    have hon : OnText (ParserState.init, cStr data) := .inl hs
    obtain ⟨r, hr⟩ := halts_total (tokenTurn_measure act_error) hon
    have hr' : Defined r := by
      refine hr.defined fun ⟨st, s⟩ hreach e hturn => ?_
      have hs' : Terminated s := terminated_reaches hreach hs fun st s h => (hgood st s h).1
      exact (hgood st s hreach).2 (parseTurn_error hs' hturn)
    obtain ⟨o, rfl⟩ := hr'
    rw [parse_of_halts hs hr]
    exact defined_ok _

/-- One blank is enough: the character after the NUL is read. -/
theorem not_defined_parse_blank : ¬ Defined (parse (cStr (ascii " ")) .null) := by
  have hparse : parse (cStr (ascii " ")) .null = .error .pastTerminator := rfl
  rw [hparse]
  exact not_defined_error _

end Icl.Json
