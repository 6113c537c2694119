import Icl.Cxx.Occurrences
import Icl.Transition.Loop

namespace Icl.Util

open Icl.Cxx Icl.Transition

/-!
# `ReplaceCharacter` and `EscapeChar`

`ReplaceCharacter` of `util/Util.cpp` looks for a string from the start again after each edit, and
an edit takes one character away, however long the string that is found.

* `replaceCharacter`, `escapeChar` — the two functions, with fuel for the loops;
* `ReplaceWorks` — when every occurrence is replaced as a whole;
* `halts_replaceAll` — the loop goes over the string once when its edits bring no new occurrence;
* `notMem_of_halts`, `growth`, `count_of_halts` — what is known when it ends;
* `exists_halts_replicate` — a string of one repeated character that is taken away;
* `escapeChar_eq` — the four passes of `EscapeChar`;
* `replaceCharacter_iff` — when `ReplaceCharacter` and `EscapeChar` do what they should.
-/

/-! ### The functions -/

/-- `s.replace(pos, count, r)`. -/
def replaceAt (s : Bytes) (pos count : ℕ) (r : Bytes) : Except Fault Bytes :=
  if pos ≤ s.length then .ok (s.take pos ++ r ++ s.drop (pos + count))
  else .error (.outOfRange pos s.length)

/-- A turn of the loop of `ReplaceCharacter`. -/
def replaceTurn (toFind toReplace theString : Bytes) : Except Fault (Turn Bytes Bytes) :=
  match find theString toFind 0 with
  | some found => do
    let theString ← replaceAt theString found 1 toReplace
    return .next theString
  | none => return .stop theString

/-- `Util::ReplaceCharacter`. -/
def replaceCharacter (fuel : ℕ) (theString toFind toReplace : Bytes) : Except Fault Bytes :=
  loop (replaceTurn toFind toReplace) fuel theString

/-- `Util::EscapeChar`. -/
def escapeChar (fuel : ℕ) (str : Bytes) : Except Fault Bytes := do
  let escaped ← replaceCharacter fuel str (ascii "\\") (ascii "/")
  let escaped ← replaceCharacter fuel escaped (ascii "\r\n") (ascii "\\n")
  let escaped ← replaceCharacter fuel escaped (ascii "\n") (ascii "\\n")
  replaceCharacter fuel escaped (ascii "\t") (ascii "\\t")

/-! ### What they should do -/

/-- `ReplaceCharacter` ends, with `toReplace` in the place of each `toFind`. -/
def ReplacesAll (theString toFind toReplace : Bytes) : Prop :=
  Returns (fun fuel => replaceCharacter fuel theString toFind toReplace)
    (replaceAll toFind toReplace theString)

/-- A character other than the end of a line of two characters. -/
def escapedByte (c : UInt8) : Bytes :=
  if c = 0x0A then ascii "\\n" else if c = 0x09 then ascii "\\t"
  else if c = 0x5C then ascii "/" else [c]

/-- CR LF and LF become `\n`, a tab `\t` and a backslash `/`. -/
def escaped : Bytes → Bytes
  | [] => []
  | 0x0D :: 0x0A :: str => ascii "\\n" ++ escaped str
  | c :: str => escapedByte c ++ escaped str

/-- `EscapeChar` ends, with every such character escaped. -/
def Escapes (str : Bytes) : Prop := Returns (fun fuel => escapeChar fuel str) (escaped str)

/-- **The strings that are replaced as a whole**: one that does not occur, one character that does
    not come back, and a character that is repeated, if it goes away and each run of it is shorter
    or leaves one less than what is looked for. -/
def ReplaceWorks (theString toFind toReplace : Bytes) : Prop :=
  ¬ toFind <:+: theString ∨ (∃ c, toFind = [c] ∧ c ∉ toReplace) ∨
    toReplace = [] ∧ ∃ c, toFind = List.replicate toFind.length c ∧
      ∀ run ∈ theString.splitOnP (· != c),
        run.length < toFind.length ∨ run.length % toFind.length = toFind.length - 1

/-! ### The turns -/

section Turns

variable {toFind toReplace : Bytes}

/-- The first character of the first occurrence is replaced. -/
theorem replaceTurn_first (toReplace : Bytes) {a b : Bytes} (hfind : toFind ≠ [])
    (h : First toFind a b) :
    replaceTurn toFind toReplace (a ++ toFind ++ b)
      = .ok (.next (a ++ toReplace ++ (toFind.tail ++ b))) := by
  have hfound : find (a ++ toFind ++ b) toFind 0 = some (0 + a.length) :=
    find_first (Nat.zero_le _) hfind rfl h
  rw [Nat.zero_add] at hfound
  obtain ⟨x, g, rfl⟩ := List.exists_cons_of_ne_nil hfind
  have hdrop : (a ++ x :: g ++ b).drop (a.length + 1) = g ++ b := by simp
  have htake : (a ++ x :: g ++ b).take a.length = a := by simp
  have hle : a.length ≤ (a ++ x :: g ++ b).length := by simp
  rw [replaceTurn, hfound]
  dsimp only
  rw [replaceAt, if_pos hle, hdrop, htake]
  rfl

/-- Where nothing is found the loop ends. -/
theorem replaceTurn_of_not_isInfix {theString : Bytes} (h : ¬ toFind <:+: theString) :
    replaceTurn toFind toReplace theString = .ok (.stop theString) := by
  rw [replaceTurn, find_of_not_isInfix (Nat.zero_le _) h]
  rfl

/-- The loop ends where the string does not occur any more. -/
theorem reaches_of_halts {theString result : Bytes} (hfind : toFind ≠ [])
    (h : Halts (replaceTurn toFind toReplace) theString (.ok result)) :
    Reaches (replaceTurn toFind toReplace) theString result ∧ ¬ toFind <:+: result := by
  obtain ⟨last, hreach, hturn⟩ := h.leads
  by_cases hin : toFind <:+: last
  · obtain ⟨a, b, rfl, hfirst⟩ := exists_first hin
    rw [replaceTurn_first toReplace hfind hfirst] at hturn
    cases hturn
  · rw [replaceTurn_of_not_isInfix hin] at hturn
    cases hturn
    exact ⟨hreach, hin⟩

/-- **The invariant rule** of the loop: an edit at the first occurrence preserves the invariant. -/
theorem invariant_of_halts (Inv : Bytes → Prop) {theString result : Bytes} (hfind : toFind ≠ [])
    (hedit : ∀ a b, First toFind a b → Inv (a ++ toFind ++ b) →
      Inv (a ++ toReplace ++ (toFind.tail ++ b)))
    (h : Halts (replaceTurn toFind toReplace) theString (.ok result)) (hstart : Inv theString) :
    Inv result := by
  refine (reaches_of_halts hfind h).1.invariant (fun st st' hturn hinv => ?_) hstart
  by_cases hin : toFind <:+: st
  · obtain ⟨a, b, rfl, hfirst⟩ := exists_first hin
    rw [replaceTurn_first toReplace hfind hfirst] at hturn
    cases hturn
    exact hedit a b hfirst hinv
  · rw [replaceTurn_of_not_isInfix hin] at hturn
    cases hturn

/-! ### What is known when it ends -/

variable {theString result : Bytes}

/-- A character that comes back is found forever. -/
theorem notMem_of_halts {c : UInt8} (hc : c ∈ toReplace)
    (h : Halts (replaceTurn [c] toReplace) theString (.ok result)) : c ∉ theString := by
  intro hmem
  have hne := List.cons_ne_nil c []
  have hlast : c ∈ result :=
    invariant_of_halts (c ∈ ·) hne (fun a b _ _ => by simp [hc]) h hmem
  exact (reaches_of_halts hne h).2 ((List.singleton_infix_iff c result).mpr hlast)

/-- Each edit spoils one occurrence at most and makes the string longer by what it puts in, less
    one. -/
theorem growth {n : ℕ} (hfind : toFind ≠ []) (hreplace : toReplace ≠ [])
    (h : Halts (replaceTurn toFind toReplace) theString (.ok result))
    (hn : Holds toFind n theString) :
    theString.length + n * (toReplace.length - 1) ≤ result.length := by
  have hpos := List.length_pos_iff.mpr hreplace
  have hfindPos := List.length_pos_iff.mpr hfind
  let Inv (s : Bytes) : Prop := ∃ m, Holds toFind m s ∧
    theString.length + n * (toReplace.length - 1) ≤ s.length + m * (toReplace.length - 1)
  obtain ⟨m, hm, hle⟩ : Inv result := by
    refine invariant_of_halts Inv hfind (fun a b hfirst hinv => ?_) h ⟨n, hn, le_rfl⟩
    obtain ⟨m, hm, hle⟩ := hinv
    simp only [List.length_append] at hle
    cases m with
    | zero =>
      refine ⟨0, .zero _, ?_⟩
      simp only [List.length_append, List.length_tail]
      omega
    | succ m =>
      refine ⟨m, ((hm.of_first hfirst).append toFind.tail).append _, ?_⟩
      simp only [List.length_append, List.length_tail]
      rw [Nat.succ_mul] at hle
      omega
  -- No occurrence is left.
  cases m with
  | zero => simpa using hle
  | succ m => exact absurd hm.isInfix (reaches_of_halts hfind h).2

/-- When nothing is put in, only the first character of the string that is found goes away. -/
theorem count_of_halts {x c : UInt8} {g : Bytes} (hc : x ≠ c)
    (h : Halts (replaceTurn (c :: g) []) theString (.ok result)) :
    result.count x = theString.count x := by
  refine invariant_of_halts (fun s => s.count x = theString.count x) (List.cons_ne_nil c g)
    (fun a b _ hcount => ?_) h rfl
  rw [← hcount]
  simp [List.count_append, Ne.symm hc]

/-! ### One pass -/

/-- **The loop goes over the string once**, when `toFind` overlaps neither itself nor what an edit
    leaves in its place. -/
theorem halts_replaceAll {x : UInt8} {g : Bytes} (hx : x ∉ g)
    (hfree : ∀ a b, ¬ x :: g <:+: a → ¬ x :: g <:+: b → ¬ x :: g <:+: a ++ (toReplace ++ g) ++ b)
    (theString : Bytes) :
    Halts (replaceTurn (x :: g) toReplace) theString
      (.ok (replaceAll (x :: g) (toReplace ++ g) theString)) := by
  have hne := List.cons_ne_nil x g
  -- `done` is what the loop has gone over.
  have key : ∀ done, (∀ b, ¬ x :: g <:+: b → ¬ x :: g <:+: done ++ b) →
      Halts (replaceTurn (x :: g) toReplace) (done ++ theString)
        (.ok (done ++ replaceAll (x :: g) (toReplace ++ g) theString)) := by
    induction theString using cut_induction hne with
    | none s h =>
      intro done hdone
      rw [replaceAll_of_not_isInfix h]
      exact .stop (replaceTurn_of_not_isInfix (hdone s h))
    | first a b h ih =>
      intro done hdone
      have ha := hdone a (h.not_isInfix hne)
      have hturn := replaceTurn_first toReplace hne
        (first_of_notMem_tail (b := b) hx ha)
      have hrest := ih (done ++ a ++ (toReplace ++ g)) fun b hb => hfree _ b ha hb
      rw [replaceAll_first hne h]
      rw [← List.append_assoc, ← List.append_assoc]
      refine .next hturn ?_
      simpa using hrest
  exact key [] fun b hb => hb

/-- A character that does not come back is replaced everywhere. -/
theorem halts_single {c : UInt8} (hc : c ∉ toReplace) (theString : Bytes) :
    Halts (replaceTurn [c] toReplace) theString (.ok (replaceAll [c] toReplace theString)) := by
  have hfree : ∀ a b, ¬ [c] <:+: a → ¬ [c] <:+: b → ¬ [c] <:+: a ++ (toReplace ++ []) ++ b := by
    intro a b ha hb
    rw [List.singleton_infix_iff] at ha hb ⊢
    simp [ha, hb, hc]
  simpa using halts_replaceAll List.not_mem_nil hfree theString

end Turns

/-! ### A repeated character -/

/-- **Induction on the runs** of a character. -/
theorem runs_induction {P : Bytes → Prop} (c : UInt8) (last : ∀ n, P (List.replicate n c))
    (run : ∀ n x s, x ≠ c → P s → P (List.replicate n c ++ x :: s)) (s : Bytes) : P s := by
  have key : ∀ n, P (List.replicate n c ++ s) := by
    induction s with
    | nil =>
      intro n
      rw [List.append_nil]
      exact last n
    | cons x s ih =>
      intro n
      by_cases hx : x = c
      · have hrest := ih (n + 1)
        rw [List.replicate_succ', List.append_assoc] at hrest
        rw [hx]
        exact hrest
      · exact run n x s hx (ih 0)
  exact key 0

section Replicate

variable {c : UInt8} {k : ℕ}

/-- A run is not found in a shorter one. -/
theorem not_isInfix_replicate {n : ℕ} (h : n < k) :
    ¬ List.replicate k c <:+: List.replicate n c := by
  intro hin
  have hlen := hin.length_le
  simp only [List.length_replicate] at hlen
  omega

/-- Nor behind a text where the longer run is not found. -/
theorem not_isInfix_append_replicate {f done : Bytes} (h : ¬ f <:+: done ++ List.replicate k c)
    {n : ℕ} (hn : n ≤ k) : ¬ f <:+: done ++ List.replicate n c := by
  refine fun hin => h (hin.trans (List.IsPrefix.isInfix ?_))
  refine (List.prefix_append_right_inj done).mpr ⟨List.replicate (k - n) c, ?_⟩
  rw [List.replicate_append_replicate, Nat.add_sub_cancel' hn]

/-- What is left of a run of `n` characters that is taken away `k` by `k`. -/
theorem replaceAll_replicate_append (hk : 0 < k) {rest left : Bytes}
    (hrest : ∀ n < k, replaceAll (List.replicate k c) [] (List.replicate n c ++ rest)
      = List.replicate n c ++ left) (n : ℕ) :
    replaceAll (List.replicate k c) [] (List.replicate n c ++ rest)
      = List.replicate (n % k) c ++ left := by
  have hne : List.replicate k c ≠ [] := by simpa using hk.ne'
  induction n using Nat.strong_induction_on with
  | h n ih =>
    by_cases hn : n < k
    · rw [Nat.mod_eq_of_lt hn]
      exact hrest n hn
    · have hsplit : List.replicate n c ++ rest
          = [] ++ List.replicate k c ++ (List.replicate (n - k) c ++ rest) := by
        rw [List.nil_append, ← List.append_assoc, List.replicate_append_replicate,
          Nat.add_sub_cancel' (not_lt.mp hn)]
      have hfirst : First (List.replicate k c) [] (List.replicate (n - k) c ++ rest) :=
        fun _ _ _ => Nat.zero_le _
      rw [hsplit, replaceAll_first hne hfirst, ih (n - k) (by omega),
        Nat.mod_eq_sub_mod (not_lt.mp hn)]
      rfl

/-- Of a run what does not make a whole number of the searched runs is left. -/
theorem replaceAll_replicate (hk : 0 < k) (n : ℕ) :
    replaceAll (List.replicate k c) [] (List.replicate n c) = List.replicate (n % k) c := by
  have hrest : ∀ n < k, replaceAll (List.replicate k c) [] (List.replicate n c ++ [])
      = List.replicate n c ++ [] := by
    intro n hn
    rw [List.append_nil]
    exact replaceAll_of_not_isInfix (not_isInfix_replicate hn) []
  simpa using replaceAll_replicate_append hk hrest n

/-- So it is run by run. -/
theorem replaceAll_run (hk : 0 < k) (n : ℕ) {x : UInt8} (hx : x ≠ c) (s : Bytes) :
    replaceAll (List.replicate k c) [] (List.replicate n c ++ x :: s)
      = List.replicate (n % k) c ++ x :: replaceAll (List.replicate k c) [] s := by
  have hmem : x ∉ List.replicate k c := fun hmem => hx (List.eq_of_mem_replicate hmem)
  exact replaceAll_replicate_append hk
    (fun n hn => replaceAll_append_cons hmem (not_isInfix_replicate hn) []) n

/-- The code leaves a run that is too long one character shorter than what it looks for. -/
theorem reaches_run {done : Bytes}
    (hdone : ¬ List.replicate (k + 1) c <:+: done ++ List.replicate k c) (n : ℕ) (rest : Bytes) :
    Reaches (replaceTurn (List.replicate (k + 1) c) []) (done ++ (List.replicate n c ++ rest))
      (done ++ (List.replicate (min n k) c ++ rest)) := by
  have hne : List.replicate (k + 1) c ≠ [] := by simp
  induction n with
  | zero => exact Nat.zero_min k ▸ .refl _
  | succ n ih =>
    by_cases hn : n < k
    · rw [Nat.min_eq_left hn]
      exact .refl _
    · have hfirst : First (List.replicate (k + 1) c) done (List.replicate (n - k) c ++ rest) :=
        first_of_not_isInfix (by simpa using hdone)
      have hsplit : done ++ (List.replicate (n + 1) c ++ rest)
          = done ++ List.replicate (k + 1) c ++ (List.replicate (n - k) c ++ rest) := by
        rw [List.append_assoc, ← List.append_assoc (List.replicate (k + 1) c),
          List.replicate_append_replicate, show k + 1 + (n - k) = n + 1 by omega]
      have hturn := replaceTurn_first [] hne hfirst
      -- One character of the run goes away.
      have hafter : done ++ [] ++ ((List.replicate (k + 1) c).tail
          ++ (List.replicate (n - k) c ++ rest)) = done ++ (List.replicate n c ++ rest) := by
        rw [List.append_nil, List.tail_replicate, ← List.append_assoc (List.replicate _ c),
          List.replicate_append_replicate, show k + 1 - 1 + (n - k) = n by omega]
      rw [← hsplit, hafter] at hturn
      rw [Nat.min_eq_right (not_lt.mp hn)] at ih
      rw [Nat.min_eq_right (by omega)]
      exact .next hturn ih

/-- A run that ends is told by its length and what follows. -/
theorem replicate_append_cons_inj {x : UInt8} (hx : x ≠ c) {n n' : ℕ} {s s' : Bytes} :
    List.replicate n c ++ x :: s = List.replicate n' c ++ x :: s' ↔ n = n' ∧ s = s' := by
  induction n generalizing n' with
  | zero => cases n' <;> simp [List.replicate_succ, hx]
  | succ n ih =>
    cases n' with
    | zero => simp [List.replicate_succ, Ne.symm hx]
    | succ n' => simp [List.replicate_succ, ih]

/-- The loop leaves the shorter of a run and the searched one, which is the remainder in two
    cases. -/
theorem min_eq_mod_iff (n : ℕ) : min n k = n % (k + 1) ↔ n < k + 1 ∨ n % (k + 1) = k := by
  by_cases hn : n < k + 1
  · rw [Nat.mod_eq_of_lt hn, Nat.min_eq_left (Nat.le_of_lt_succ hn)]
    exact iff_of_true rfl (.inl hn)
  · rw [Nat.min_eq_right (by omega)]
    exact ⟨fun h => .inr h.symm, fun h => (h.resolve_left hn).symm⟩

/-- **A repeated character that goes away**: the loop ends, and every occurrence has been taken away
    when each run was short or leaves one character less than what is looked for. -/
theorem exists_halts_replicate (s done : Bytes)
    (hdone : ¬ List.replicate (k + 1) c <:+: done ++ List.replicate k c) :
    ∃ t, Halts (replaceTurn (List.replicate (k + 1) c) []) (done ++ s) (.ok (done ++ t)) ∧
      (t = replaceAll (List.replicate (k + 1) c) [] s ↔
        ∀ run ∈ s.splitOnP (· != c), run.length < k + 1 ∨ run.length % (k + 1) = k) := by
  have hk : 0 < k + 1 := Nat.succ_pos k
  have hreplicate : ∀ n, ∀ x ∈ List.replicate n c, (x != c) = false := by
    intro n x hx
    simp [List.eq_of_mem_replicate hx]
  induction s using runs_induction c generalizing done with
  | last n =>
    refine ⟨List.replicate (min n k) c, ?_, ?_⟩
    · have hend := not_isInfix_append_replicate hdone (Nat.min_le_right n k)
      have hreach := reaches_run hdone n []
      rw [List.append_nil, List.append_nil] at hreach
      exact hreach.halts (.stop (replaceTurn_of_not_isInfix hend))
    · rw [replaceAll_replicate hk, List.splitOnP_eq_singleton (hreplicate n),
        List.forall_mem_singleton, List.length_replicate, ← min_eq_mod_iff,
        List.replicate_left_inj]
  | run n x s hx ih =>
    have hmem : x ∉ List.replicate (k + 1) c := fun hmem => hx (List.eq_of_mem_replicate hmem)
    -- The character that ends the run is none of the searched one, so nothing is found across it.
    have hdone' : ¬ List.replicate (k + 1) c
        <:+: done ++ List.replicate (min n k) c ++ [x] ++ List.replicate k c := by
      rw [List.append_assoc, List.singleton_append, isInfix_append_cons_iff hmem]
      exact not_or.mpr ⟨not_isInfix_append_replicate hdone (Nat.min_le_right n k),
        not_isInfix_replicate (Nat.lt_succ_self k)⟩
    obtain ⟨t, hhalts, hiff⟩ := ih _ hdone'
    refine ⟨List.replicate (min n k) c ++ x :: t, ?_, ?_⟩
    · have hreach := reaches_run hdone n (x :: s)
      refine hreach.halts ?_
      simpa using hhalts
    · have hsplit : (List.replicate n c ++ x :: s).splitOnP (· != c)
          = List.replicate n c :: s.splitOnP (· != c) :=
        List.splitOnP_append_cons_of_forall_mem (hreplicate n) x (by simpa using hx) s
      rw [replaceAll_run hk n hx, hsplit, List.forall_mem_cons, ← hiff,
        replicate_append_cons_inj hx, min_eq_mod_iff, List.length_replicate]

end Replicate

/-! ### When every occurrence is replaced -/

section Exact

variable {theString toFind toReplace : Bytes}

/-- To replace all is to halt with the text in which all is replaced. -/
theorem replacesAll_iff_halts : ReplacesAll theString toFind toReplace ↔
    Halts (replaceTurn toFind toReplace) theString (.ok (replaceAll toFind toReplace theString)) :=
  returns_loop

/-- What a repeated character comes to when it goes away. -/
theorem replacesAll_replicate_iff (c : UInt8) (k : ℕ) :
    ReplacesAll theString (List.replicate (k + 1) c) [] ↔
      ∀ run ∈ theString.splitOnP (· != c), run.length < k + 1 ∨ run.length % (k + 1) = k := by
  rw [replacesAll_iff_halts]
  obtain ⟨t, hhalts, hiff⟩ := exists_halts_replicate theString []
    (not_isInfix_replicate (c := c) (Nat.lt_succ_self k))
  rw [← hiff]
  constructor
  · exact fun h => Except.ok.inj (hhalts.unique h)
  · exact fun h => h ▸ hhalts

/-- Nothing but one repeated character goes away as a whole. -/
theorem eq_replicate_of_halts {c : UInt8} {g : Bytes} (hin : c :: g <:+: theString)
    (h : Halts (replaceTurn (c :: g) []) theString (.ok (replaceAll (c :: g) [] theString))) :
    c :: g = List.replicate (g.length + 1) c := by
  have hne := List.cons_ne_nil c g
  refine List.eq_replicate_of_mem fun x hx => ?_
  by_contra hxc
  have hcount := count_replaceAll hne [] theString x
  rw [count_of_halts hxc h, List.count_nil, Nat.mul_zero, Nat.add_zero] at hcount
  have hpos : 0 < occurrences (c :: g) theString * (c :: g).count x :=
    Nat.mul_pos (occurrences_pos hne hin) (List.count_pos_iff.mpr hx)
  omega

/-- Where something is put in, one character is looked for. -/
theorem length_eq_one_of_halts (hfind : toFind ≠ []) (hreplace : toReplace ≠ [])
    (hin : toFind <:+: theString)
    (h : Halts (replaceTurn toFind toReplace) theString
      (.ok (replaceAll toFind toReplace theString))) : toFind.length = 1 := by
  have hlen := length_replaceAll hfind toReplace theString
  have hgrowth := growth hfind hreplace h (holds_occurrences hfind theString)
  have hpos := occurrences_pos hfind hin
  have hfindPos := List.length_pos_iff.mpr hfind
  obtain ⟨m, hm⟩ := Nat.exists_eq_add_of_lt (List.length_pos_iff.mpr hreplace)
  rw [hm, Nat.zero_add] at hlen hgrowth
  rw [Nat.add_sub_cancel] at hgrowth
  rw [Nat.mul_succ] at hlen
  have hle : occurrences toFind theString * toFind.length ≤ occurrences toFind theString * 1 := by
    omega
  have := Nat.le_of_mul_le_mul_left hle hpos
  omega

/-- **`ReplaceCharacter` replaces every occurrence** exactly in these cases. -/
theorem replacesAll_iff (hfind : toFind ≠ []) :
    ReplacesAll theString toFind toReplace ↔ ReplaceWorks theString toFind toReplace := by
  constructor
  · intro h
    have hhalts := replacesAll_iff_halts.mp h
    by_cases hin : toFind <:+: theString
    · right
      -- With a replacement the loop only ends if this does not bring in what is searched; without
      -- one all is run by run.
      by_cases hreplace : toReplace = []
      · subst hreplace
        obtain ⟨c, g, rfl⟩ := List.exists_cons_of_ne_nil hfind
        have heq := eq_replicate_of_halts hin hhalts
        rw [heq, replacesAll_replicate_iff] at h
        exact .inr ⟨rfl, c, heq, h⟩
      · have hlen := length_eq_one_of_halts hfind hreplace hin hhalts
        obtain ⟨c, rfl⟩ := List.length_eq_one_iff.mp hlen
        have hmem := (List.singleton_infix_iff c theString).mp hin
        exact .inl ⟨c, rfl, fun hc => notMem_of_halts hc hhalts hmem⟩
    · exact .inl hin
  · rintro (hin | ⟨c, rfl, hc⟩ | ⟨rfl, c, heq, hruns⟩)
    · refine replacesAll_iff_halts.mpr ?_
      rw [replaceAll_of_not_isInfix hin]
      exact .stop (replaceTurn_of_not_isInfix hin)
    · exact replacesAll_iff_halts.mpr (halts_single hc theString)
    · obtain ⟨k, hk⟩ := Nat.exists_eq_succ_of_ne_zero (mt List.length_eq_zero_iff.mp hfind)
      rw [hk] at heq hruns
      rw [heq, replacesAll_replicate_iff]
      exact hruns

end Exact

/-! ### `EscapeChar` -/

/-- What the four passes leave. -/
def passes (str : Bytes) : Bytes :=
  replaceAll [0x09] (ascii "\\t") (replaceAll [0x0A] (ascii "\\n")
    (replaceAll [0x0D, 0x0A] (ascii "\\n\n") (replaceAll [0x5C] (ascii "/") str)))

/-- The second pass ends: what it leaves of CR LF is LF. -/
theorem halts_crlf (str : Bytes) :
    Halts (replaceTurn (ascii "\r\n") (ascii "\\n")) str
      (.ok (replaceAll [0x0D, 0x0A] (ascii "\\n\n") str)) := by
  -- No occurrence reaches over the two characters that are put in.
  have hfree : ∀ a b, ¬ [0x0D, 0x0A] <:+: a → ¬ [0x0D, 0x0A] <:+: b →
      ¬ [0x0D, 0x0A] <:+: a ++ (ascii "\\n" ++ [0x0A]) ++ b := by
    intro a b ha hb
    have hslash : (0x5C : UInt8) ∉ [0x0D, 0x0A] := by decide
    have hn : (0x6E : UInt8) ∉ [0x0D, 0x0A] := by decide
    have hlf : ¬ [0x0D, 0x0A] <:+: 0x0A :: b := by
      rw [List.infix_cons_iff, not_or]
      exact ⟨fun hpre => absurd (List.cons_prefix_cons.mp hpre).1 (by decide), hb⟩
    have hsplit : a ++ (ascii "\\n" ++ [0x0A]) ++ b = a ++ 0x5C :: ([] ++ 0x6E :: 0x0A :: b) := by
      rw [List.append_assoc]
      rfl
    rw [hsplit, isInfix_append_cons_iff hslash, isInfix_append_cons_iff hn, not_or, not_or]
    exact ⟨ha, by decide, hlf⟩
  exact halts_replaceAll (by decide) hfree str

/-- `EscapeChar` returns what its passes make. -/
theorem returns_escapeChar (str : Bytes) :
    Returns (fun fuel => escapeChar fuel str) (passes str) := by
  refine Returns.bind (returns_loop.mpr (halts_single (by decide) str)) ?_
  refine Returns.bind (returns_loop.mpr (halts_crlf _)) ?_
  refine Returns.bind (returns_loop.mpr (halts_single (by decide) _)) ?_
  exact returns_loop.mpr (halts_single (by decide) _)

/-- A pass that replaces one character. -/
theorem replaceAll_single_cons (c : UInt8) (r : Bytes) (x : UInt8) (s : Bytes) :
    replaceAll [c] r (x :: s) = (if x = c then r else [x]) ++ replaceAll [c] r s := by
  rw [replaceAll, walk]
  by_cases hx : x = c
  · rw [if_pos (by simp [hx]), if_pos hx]
    rfl
  · rw [if_neg (by simp [Ne.symm hx]), if_neg hx]
    rfl

/-- Two characters are looked for, at another place. -/
theorem walk_pair_cons {β : Type} {hit : β → β} {other : UInt8 → β → β} {stop : β} {c c' x : UInt8}
    {s : Bytes} (h : x = c → s.head? ≠ some c') :
    walk [c, c'] hit other stop 0 (x :: s) = other x (walk [c, c'] hit other stop 0 s) := by
  have hpre : ¬ [c, c'].isPrefixOf (x :: s) := by
    intro hpre
    obtain ⟨hx, t, ht⟩ := List.cons_prefix_cons.mp (List.isPrefixOf_iff_prefix.mp hpre)
    exact h hx.symm (by simp [← ht])
  exact if_neg hpre

/-- A character that does not begin the pair is passed. -/
theorem replaceAll_pair_cons {c c' x : UInt8} (r : Bytes) {s : Bytes}
    (h : x = c → s.head? ≠ some c') :
    replaceAll [c, c'] r (x :: s) = x :: replaceAll [c, c'] r s :=
  walk_pair_cons h

/-- It is no occurrence. -/
theorem occurrences_pair_cons {c c' x : UInt8} {s : Bytes} (h : x = c → s.head? ≠ some c') :
    occurrences [c, c'] (x :: s) = occurrences [c, c'] s :=
  walk_pair_cons h

/-- The passes escape CR LF as two line feeds. -/
theorem passes_crlf (str : Bytes) :
    passes (0x0D :: 0x0A :: str) = ascii "\\n\\n" ++ passes str := rfl

/-- Any other character they escape on its own. -/
theorem passes_cons {c : UInt8} {str : Bytes} (h : c = 0x0D → str.head? ≠ some 0x0A) :
    passes (c :: str) = escapedByte c ++ passes str := by
  -- The first pass neither takes a LF away nor brings one.
  have hhead : c = 0x0D → (replaceAll [0x5C] (ascii "/") str).head? ≠ some 0x0A := by
    intro hc
    cases str with
    | nil => exact nofun
    | cons y str =>
      rw [replaceAll_single_cons]
      by_cases hy : y = 0x5C
      · rw [if_pos hy]
        exact fun heq => absurd (Option.some.inj heq) (by decide)
      · rw [if_neg hy]
        exact h hc
  unfold passes
  rw [replaceAll_single_cons]
  by_cases hslash : c = 0x5C
  · subst hslash
    rfl
  · rw [if_neg hslash, List.singleton_append, replaceAll_pair_cons _ hhead, replaceAll_single_cons,
      escapedByte]
    by_cases hlf : c = 0x0A
    · rw [if_pos hlf, if_pos hlf]
      rfl
    · rw [if_neg hlf, if_neg hlf, List.singleton_append, replaceAll_single_cons]
      by_cases htab : c = 0x09
      · rw [if_pos htab, if_pos htab]
      · rw [if_neg htab, if_neg htab, if_neg hslash]

/-- The case of one character, as the conditions of `escaped` have it. -/
theorem head?_ne_of_forall {c : UInt8} {str : Bytes}
    (h : ∀ rest, c = 0x0D → str = 0x0A :: rest → False) : c = 0x0D → str.head? ≠ some 0x0A := by
  intro hc hhead
  obtain ⟨rest, hrest⟩ := List.head?_eq_some_iff.mp hhead
  exact h rest hc hrest

/-- **Each CR LF is written twice.** -/
theorem length_passes (str : Bytes) :
    (passes str).length = (escaped str).length + 2 * occurrences (ascii "\r\n") str := by
  show _ = _ + 2 * occurrences [0x0D, 0x0A] str
  induction str using escaped.induct with
  | case1 => rfl
  | case2 str ih =>
    have hcount : occurrences [0x0D, 0x0A] (0x0D :: 0x0A :: str)
        = occurrences [0x0D, 0x0A] str + 1 := rfl
    have htwo : (ascii "\\n").length = 2 := rfl
    have hfour : (ascii "\\n\\n").length = 4 := rfl
    rw [passes_crlf, escaped, hcount, List.length_append, List.length_append, ih]
    omega
  | case3 c str h ih =>
    have hhead := head?_ne_of_forall h
    rw [passes_cons hhead, escaped, occurrences_pair_cons hhead, List.length_append,
      List.length_append, ih, Nat.add_assoc]
    exact h

/-- Without CR LF, every character is escaped. -/
theorem passes_of_occurrences {str : Bytes} (h : occurrences [0x0D, 0x0A] str = 0) :
    passes str = escaped str := by
  induction str using escaped.induct with
  | case1 => rfl
  | case2 str ih => exact absurd h (Nat.succ_ne_zero _)
  | case3 c str hc ih =>
    have hhead := head?_ne_of_forall hc
    rw [occurrences_pair_cons hhead] at h
    rw [passes_cons hhead, escaped, ih h]
    exact hc

/-- **`EscapeChar` escapes each character** exactly when the text has no CR LF. -/
theorem escapes_iff (str : Bytes) : Escapes str ↔ ¬ ascii "\r\n" <:+: str := by
  have hne : ascii "\r\n" ≠ [] := by decide
  constructor
  · intro h hin
    have hlen := length_passes str
    rw [(returns_escapeChar str).unique h] at hlen
    have hpos := occurrences_pos hne hin
    omega
  · intro h
    have hreturns := returns_escapeChar str
    rwa [passes_of_occurrences (occurrences_of_not_isInfix h)] at hreturns

/-- **When every occurrence is replaced**: `ReplaceCharacter` replaces every occurrence just when
    `ReplaceWorks`, and `EscapeChar` escapes what it should just when no line ends in CR LF. -/
theorem replaceCharacter_iff (theString : Bytes) {toFind : Bytes} (toReplace : Bytes)
    (hfind : toFind ≠ []) :
    (ReplacesAll theString toFind toReplace ↔ ReplaceWorks theString toFind toReplace) ∧
      ∀ str, Escapes str ↔ ¬ ascii "\r\n" <:+: str :=
  ⟨replacesAll_iff hfind, escapes_iff⟩

theorem replaceCharacter_iff_tab :
    ReplacesAll (ascii "a\tb\n") (ascii "\t") (ascii "\\t") ∧ Escapes (ascii "a\tb\n") := by
  have hworks : ReplaceWorks (ascii "a\tb\n") (ascii "\t") (ascii "\\t") :=
    .inr (.inl ⟨0x09, rfl, by decide⟩)
  obtain ⟨hreplaces, hescapes⟩ :=
    replaceCharacter_iff (ascii "a\tb\n") (ascii "\\t") (show ascii "\t" ≠ [] by decide)
  exact ⟨hreplaces.mpr hworks, (hescapes _).mpr (by decide)⟩

/-- CR LF is escaped twice, since its LF stays; and a character that is replaced by itself is
    replaced forever. -/
theorem crlf_escaped_twice :
    Returns (fun fuel => escapeChar fuel (ascii "\r\n")) (ascii "\\n\\n") ∧
      ¬ Escapes (ascii "\r\n") ∧
      ¬ ReplacesAll (ascii "\r\n") (ascii "\r\n") (ascii "\\n") ∧
      ∀ result, ¬ Returns (fun fuel => replaceCharacter fuel (ascii "a") (ascii "a") (ascii "a"))
        result := by
  have htwice : Returns (fun fuel => escapeChar fuel (ascii "\r\n")) (ascii "\\n\\n") :=
    returns_escapeChar (ascii "\r\n")
  have hlf : Returns (fun fuel => replaceCharacter fuel (ascii "\r\n") (ascii "\r\n") (ascii "\\n"))
      (ascii "\\n\n") := returns_loop.mpr (halts_crlf (ascii "\r\n"))
  refine ⟨htwice, fun h => ?_, fun h => ?_, fun result h => ?_⟩
  · exact absurd (htwice.unique h) (by decide)
  · exact absurd (hlf.unique h) (by decide)
  · exact notMem_of_halts (c := 0x61) (by decide) (returns_loop.mp h) (by decide)

end Icl.Util
