import Icl.Transition.Loop
import Icl.Util.Util

namespace Icl.Util

open Icl.Cxx Icl.Transition

/-!
# `Split` and `Join` are inverse

* `splitTurn` — the loop of `Split` with its two positions, `npos` among them;
* `halts_splitTurn` — it comes to what `split` gives;
* `join_cut`, `length_cut`, `not_isInfix_of_mem_cut` — the parts between the occurrences of a
  delimiter;
* `split_join_inverse` — what `Split` cuts `Join` puts together again, and conversely.
-/

/-! ### The positions -/

/-- `std::string::npos`. -/
def npos : ℕ := 2 ^ 64 - 1

/-- `s.find(d, start)`, with `npos` for no occurrence. -/
def findPos (s d : Bytes) (start : ℕ) : ℕ := (find s d start).getD npos

/-- The variables of `Split`. -/
structure SplitState where
  theStringVector : List Bytes
  start : ℕ
  stop : ℕ

/-- A turn of the loop of `Split`.  `stop` is the `end` of the source. -/
def splitTurn (theString delimiter : Bytes) (st : SplitState) :
    Except Fault (Turn SplitState (List Bytes)) :=
  if st.stop ≠ npos then do
    let stop := findPos theString delimiter st.start
    let part ← substr theString st.start (if stop = npos then npos else stop - st.start)
    let start := if stop > npos - delimiter.length then npos else stop + delimiter.length
    return .next { theStringVector := st.theStringVector ++ [part], start, stop }
  else return .stop st.theStringVector

theorem halts_splitTurn_cut {theString delimiter : Bytes} (hd : delimiter ≠ [])
    (hs : theString.length < npos) {start stop : ℕ} (hstart : start ≤ theString.length)
    (hstop : stop ≠ npos) (theStringVector : List Bytes) :
    Halts (splitTurn theString delimiter) { theStringVector, start, stop }
      (.ok (theStringVector ++ cut delimiter (theString.drop start))) := by
  have hpos := List.length_pos_iff.mpr hd
  generalize hrest : theString.drop start = rest
  induction rest using cut_induction hd generalizing start stop theStringVector with
  -- Nothing is found: the rest is the last part, and both positions go to `npos`.
  | none rest h =>
    have hfind : findPos theString delimiter start = npos := by
      rw [findPos, find_of_not_isInfix hstart (hrest ▸ h)]
      rfl
    have hlen := congrArg List.length hrest
    rw [List.length_drop] at hlen
    have hpart : rest.take npos = rest := List.take_of_length_le (by omega)
    have hturn : splitTurn theString delimiter { theStringVector, start, stop }
        = .ok (.next
          { theStringVector := theStringVector ++ [rest], start := npos, stop := npos }) := by
      rw [splitTurn, if_pos hstop]
      dsimp only
      rw [hfind, if_pos rfl, if_pos (by omega), substr_of_le hstart, hrest, hpart]
      rfl
    rw [cut_of_not_isInfix h]
    exact .next hturn (.stop rfl)
  -- The part before the delimiter is pushed, and the search goes on behind it.
  | first part rest h ih =>
    have hfind : findPos theString delimiter start = start + part.length := by
      rw [findPos, find_first hstart hd hrest h]
      rfl
    obtain ⟨hle, hafter⟩ := drop_first hstart hrest
    have hturn : splitTurn theString delimiter { theStringVector, start, stop }
        = .ok (.next
          { theStringVector := theStringVector ++ [part]
            start := start + part.length + delimiter.length
            stop := start + part.length }) := by
      rw [splitTurn, if_pos hstop]
      dsimp only
      rw [hfind, if_neg (by omega : start + part.length ≠ npos),
        if_neg (by omega : ¬ start + part.length > npos - delimiter.length), substr_of_le hstart,
        hrest, Nat.add_sub_cancel_left, List.append_assoc, List.take_left]
      rfl
    have hnext := ih hle (by omega : start + part.length ≠ npos)
      (theStringVector ++ [part]) hafter
    rw [List.append_assoc, List.singleton_append] at hnext
    rw [cut_first hd h]
    exact .next hturn hnext

/-- **The two positions do not overflow**: the loop comes to what `split` gives, for a string that
    is shorter than `npos`, as all are. -/
theorem halts_splitTurn {theString delimiter : Bytes} (hd : delimiter ≠ [])
    (hs : theString.length < npos) :
    Halts (splitTurn theString delimiter) { theStringVector := [], start := 0, stop := 0 }
      (split theString delimiter) := by
  rw [split_eq theString hd]
  exact halts_splitTurn_cut hd hs (Nat.zero_le _) (by decide) []

/-! ### The parts -/

section Parts

variable {d : Bytes} (hd : d ≠ []) (s : Bytes)
include hd

theorem length_cut : (cut d s).length = occurrences d s + 1 := by
  induction s using cut_induction hd with
  | none s h => rw [cut_of_not_isInfix h, occurrences_of_not_isInfix h, List.length_singleton]
  | first a b h ih => rw [cut_first hd h, occurrences_first hd h, List.length_cons, ih]

theorem not_isInfix_of_mem_cut : ∀ part ∈ cut d s, ¬ d <:+: part := by
  induction s using cut_induction hd with
  | none s h =>
    rw [cut_of_not_isInfix h]
    exact List.forall_mem_singleton.mpr h
  | first a b h ih =>
    rw [cut_first hd h]
    exact List.forall_mem_cons.mpr ⟨h.not_isInfix hd, ih⟩

theorem join_cut : join (cut d s) d = s := by
  induction s using cut_induction hd with
  | none s h =>
    rw [cut_of_not_isInfix h]
    exact List.intercalate_singleton
  | first a b h ih =>
    have hne : cut d b ≠ [] := List.ne_nil_of_length_eq_add_one (length_cut hd b)
    unfold join at ih ⊢
    rw [cut_first hd h, List.intercalate_cons_of_ne_nil hne, ih]

end Parts

/-- **`Split` and `Join` are inverse.** -/
theorem split_join_inverse {d : Bytes} (hd : d ≠ []) (s : Bytes) :
    (∃ parts, split s d = .ok parts ∧ (∀ part ∈ parts, ¬ d <:+: part) ∧
      parts.length = occurrences d s + 1 ∧ join parts d = s) ∧
    ∀ (c : UInt8) (parts : List Bytes), parts ≠ [] → (∀ part ∈ parts, c ∉ part) →
      split (join parts [c]) [c] = .ok parts := by
  refine ⟨⟨cut d s, split_eq s hd, not_isInfix_of_mem_cut hd s, length_cut hd s, join_cut hd s⟩, ?_⟩
  exact fun c parts hne hparts => split_join_single hne hparts

/-- Empty parts at both ends and between delimiters are kept. -/
theorem split_join_inverse_comma :
    split (ascii ", a, , ") (ascii ", ") = .ok [[], ascii "a", [], []] ∧
      occurrences (ascii ", ") (ascii ", a, , ") = 3 ∧
      join [[], ascii "a", [], []] (ascii ", ") = ascii ", a, , " ∧
      split (join [[], ascii "a", [], []] (ascii ",")) (ascii ",")
        = .ok [[], ascii "a", [], []] := by
  have hparts : split (ascii ", a, , ") (ascii ", ") = .ok [[], ascii "a", [], []] := by decide
  obtain ⟨⟨parts, hsplit, -, hlen, hjoin⟩, hback⟩ :=
    split_join_inverse (show ascii ", " ≠ [] by decide) (ascii ", a, , ")
  obtain rfl := Except.ok.inj (hparts.symm.trans hsplit)
  exact ⟨hparts, (Nat.succ.inj hlen).symm, hjoin, hback 0x2C _ (by decide) (by decide)⟩

end Icl.Util
