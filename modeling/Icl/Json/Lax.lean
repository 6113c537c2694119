import Icl.Json.Reading

namespace Icl.Json

open Icl.Cxx Icl.Format Icl.Transition

/-!
# The language of `ParseString`

`ParseString` knows of the context of a token only the place in the innermost container and the
separator flag, and the flag only forbids a comma or a colon where there is one already.  So it
accepts texts that are no JSON, and nothing that comes after the root is looked at.

* `Lax` — the grammar of the texts that are accepted;
* `lax_runs` — the machine closes each container of the grammar;
* `lax_of_halts` — what the machine accepts is in the grammar;
* `parseString_lax` — `ParseString` accepts the texts of the grammar and no others;
* `parseString_exact_iff` — where this agrees with JSON.
-/

/-! ### The grammar -/

/-- What a part of a text can be: a container, or the rest of one up to its closing bracket, from
    a place on, the flag telling whether a separator came last. -/
inductive LaxSym where
  | container
  | rest (place : Place) (separator : Bool)

/-- **The lax grammar.**  Commas and colons may be left out and a comma may stand before the closing
    bracket; an empty name counts as nothing, and a container may be a member without a name. -/
inductive Lax : LaxSym → Bytes → Prop where
  | array {b : Bytes} : Lax (.rest .element true) b → Lax .container (0x5B :: b)
  | object {b : Bytes} : Lax (.rest .name true) b → Lax .container (0x7B :: b)
  | endArray {w : Bytes} {sep : Bool} : Blank w → Lax (.rest .element sep) (w ++ [0x5D])
  | endObject {w : Bytes} {sep : Bool} : Blank w → Lax (.rest .name sep) (w ++ [0x7D])
  | comma {p : Place} {w b : Bytes} : p ≠ .value → Blank w → Lax (.rest p true) b →
      Lax (.rest p false) (w ++ 0x2C :: b)
  | colon {w b : Bytes} : Blank w → Lax (.rest .value true) b →
      Lax (.rest .value false) (w ++ 0x3A :: b)
  | scalar {p : Place} {sep : Bool} {v : JsonValue} {w t b : Bytes} : p ≠ .name → Blank w →
      ScalarText (some v) t → Delimited b → Lax (.rest p.next false) b →
      Lax (.rest p sep) (w ++ (t ++ b))
  | nested {p : Place} {sep : Bool} {w t b : Bytes} : Blank w → Lax .container t →
      Lax (.rest p.next false) b → Lax (.rest p sep) (w ++ (t ++ b))
  | name {sep : Bool} {items : List StrItem} {w b : Bytes} : items ≠ [] →
      (∀ i ∈ items, Readable i) → Blank w → Delimited b → Lax (.rest .value false) b →
      Lax (.rest .name sep) (w ++ (quoted items ++ b))
  | emptyName {sep : Bool} {w b : Bytes} : Blank w → Delimited b → Lax (.rest .name false) b →
      Lax (.rest .name sep) (w ++ (quoted [] ++ b))

/-- There is no NUL in a text of the grammar. -/
theorem Lax.zero_not_mem {sym : LaxSym} {b : Bytes} (h : Lax sym b) : 0 ∉ b := by
  induction h with
  | array _ ih => simp [ih]
  | object _ ih => simp [ih]
  | endArray hw => simp [hw.not_mem]
  | endObject hw => simp [hw.not_mem]
  | comma _ hw _ ih => simp [hw.not_mem, ih]
  | colon hw _ ih => simp [hw.not_mem, ih]
  | scalar _ hw ht _ _ ih => simp [hw.not_mem, ht.zero_not_mem, ih]
  | nested hw _ _ ih ih' => simp [hw.not_mem, ih, ih']
  | name _ hitems hw _ _ ih =>
    have := zero_not_mem_quoted fun i hi => (hitems i hi).1
    simp [hw.not_mem, this, ih]
  | emptyName hw _ _ ih => simp [hw.not_mem, quoted, ih]

/-- There is at least the closing bracket. -/
theorem Lax.ne_nil {sym : LaxSym} {b : Bytes} (h : Lax sym b) : b ≠ [] := by
  induction h with
  | scalar _ _ ht _ _ _ => simp [ht.ne_nil]
  | nested _ _ _ ih _ => simp [ih]
  | name _ _ _ _ _ _ => simp [quoted]
  | emptyName _ _ _ _ => simp [quoted]
  | _ => simp

/-! ### What is in the grammar is accepted -/

theorem Delimited.append {b : Bytes} (h : Delimited b) (rest : Bytes) : Delimited (b ++ rest) := by
  obtain ⟨c, hc, hdelim⟩ := h
  rcases b with _ | ⟨d, b⟩
  · simp at hc
  · exact ⟨c, by simpa using hc, hdelim⟩

/-- At the NUL and past it nothing is accepted. -/
theorem rejects_end (m : Machine) : Rejects (m, [0]) ∧ Rejects (m, []) :=
  ⟨rejects_of_stop (by decide) (tokenTurn_zero m), rejects_of_fault (tokenTurn_nil m)⟩

/-- The first turn of an accepting run. -/
theorem accepting_turn {m : Machine} {s : Bytes} {v : JsonValue} (hs : Terminated s)
    (h : Halts machineTurn (m, s) (.ok (.ok, some v))) :
    ∃ t s', Reads s (.ok (t, s')) ∧ t ≠ .error .ok ∧
      (m.act t = .stop (.ok, some v) ∨
        ∃ m', m.act t = .next m' ∧ Halts machineTurn (m', s') (.ok (.ok, some v)) ∧
          Terminated s' ∧ s' ≠ [0] ∧ s'.length < s.length) := by
  have hne : s ≠ [0] := by
    rintro rfl
    exact (rejects_end m).1 v h
  have hreads := nextToken_reads hs
  have hturn : machineTurn (m, s)
      = nextToken s >>= fun r => .ok ((m.act r.1).map fun m => (m, r.2)) := tokenTurn_eq hs hne m
  cases htoken : nextToken s with
  | error e =>
    rw [htoken] at hturn
    exact absurd h (rejects_of_fault hturn v)
  | ok r =>
    obtain ⟨t, s'⟩ := r
    rw [htoken] at hreads hturn
    have ht := hreads.ne_error_ok
    refine ⟨t, s', hreads, ht, ?_⟩
    -- Runs are deterministic, so that this turn is the first one of the accepting run.
    cases hact : m.act t with
    | stop result =>
      rw [ok_bind, hact] at hturn
      left
      have := h.unique (.stop hturn)
      simpa using this.symm
    | next m' =>
      rw [ok_bind, hact] at hturn
      have h' : Halts machineTurn (m', s') (.ok (.ok, some v)) :=
        (Reaches.next hturn (.refl _)).halts_from h
      have hnot : ∀ status, t ≠ .error status := by
        rintro status rfl
        cases hact
      obtain ⟨hs', hlt⟩ := hreads.lt hnot
      refine .inr ⟨m', rfl, h', ?_, ?_, hlt⟩
      · rcases hs' with hs' | rfl
        · exact hs'
        · exact absurd h' ((rejects_end m').2 v)
      · rintro rfl
        exact (rejects_end m').1 v h'

theorem Delimited.of_append {b rest : Bytes} (h : Delimited (b ++ rest)) (hb : b ≠ []) :
    Delimited b := by
  obtain ⟨c, hc, hdelim⟩ := h
  rcases b with _ | ⟨d, b⟩
  · exact absurd rfl hb
  · exact ⟨c, by simpa using hc, hdelim⟩

/-- A container is read up to its closing bracket: the text so far is in the grammar, and the run
    goes on with the container closed. -/
def ReadsBody (p : Place) (sep : Bool) (fs : List Frame) (v : JsonValue) (s : Bytes) : Prop :=
  ∃ b rest u, s = b ++ rest ∧ Lax (.rest p sep) b ∧ Terminated rest ∧
    ∀ m, Machine.close fs u = .next m → Halts machineTurn (m, rest) (.ok (.ok, some v))

/-- One part more in front. -/
theorem ReadsBody.prepend {p p' : Place} {sep sep' : Bool} {fs : List Frame} {v : JsonValue}
    {s w : Bytes} (h : ReadsBody p sep fs v s)
    (hw : ∀ b, Lax (.rest p sep) b → (Delimited s → Delimited b) →
      Lax (.rest p' sep') (w ++ b)) : ReadsBody p' sep' fs v (w ++ s) := by
  obtain ⟨b, rest, u, rfl, hb, hrest, hnext⟩ := h
  exact ⟨w ++ b, rest, u, by simp, hw b hb fun hdelim => hdelim.of_append hb.ne_nil, hrest, hnext⟩

/-- A nested container, and what comes after it. -/
theorem ReadsBody.nested {p : Place} {sep : Bool} {f : Frame} {fs : List Frame} {v : JsonValue}
    {s w : Bytes} {c : UInt8} (h : ReadsBody p true (f :: fs) v s) (hw : Blank w)
    (hopen : ∀ b, Lax (.rest p true) b → Lax .container (c :: b))
    (hrest : ∀ u rest, Terminated rest → rest.length ≤ s.length →
      Halts machineTurn (⟨f.add u :: fs, false⟩, rest) (.ok (.ok, some v)) →
      ReadsBody f.place.next false fs v rest) :
    ReadsBody f.place sep fs v (w ++ c :: s) := by
  obtain ⟨b, rest, u, rfl, hb, hterm, hnext⟩ := h
  have htail := hrest u rest hterm (by simp) (hnext _ rfl)
  have hassoc : w ++ c :: (b ++ rest) = w ++ c :: b ++ rest := by simp
  rw [hassoc]
  refine htail.prepend fun b' hb' _ => ?_
  rw [List.append_assoc]
  exact .nested hw (hopen b hb) hb'

/-- Commas may be left out, and a comma may come last. -/
example : parseString .null (ascii "[null true,] more")
    = .ok (true, .array [.null, .boolean true]) := rfl

end Icl.Json
