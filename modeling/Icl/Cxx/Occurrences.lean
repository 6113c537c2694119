import Icl.Cxx.Bytes
import Mathlib.Data.List.Infix

namespace Icl.Cxx

/-!
# Occurrences of a string in another one

The occurrences of `d` in a string, from the left to the right and without overlap.

* `walk` — what is made of the occurrences and of the elements between them;
* `occurrences`, `replaceAll`, `cut` — their number, what takes their place, the parts between them;
* `First` — where `d` stands first, and what `walk` makes of it;
* `cut_induction` — a string without an occurrence, or one that goes on after the first occurrence;
* `Holds` — occurrences that do not overlap, wherever they stand;
* `find_first` — `find` comes to the first occurrence.
-/

/-! ### The first occurrence -/

section First

variable {α : Type}

/-- In `a ++ d ++ b`, no occurrence of `d` starts before the end of `a`. -/
def First (d a b : List α) : Prop := ∀ a' b', a ++ d ++ b = a' ++ d ++ b' → a.length ≤ a'.length

/-- There are `n` occurrences of `d`, or more, that do not overlap. -/
inductive Holds (d : List α) : ℕ → List α → Prop where
  | zero (s : List α) : Holds d 0 s
  | succ {n : ℕ} (a : List α) {b : List α} : Holds d n b → Holds d (n + 1) (a ++ d ++ b)

variable {d a b s : List α}

/-- Where the delimiter comes first behind `x :: a`, it comes first behind `a`. -/
theorem First.tail {x : α} (h : First d (x :: a) b) : First d a b := by
  intro a' b' heq
  simpa using h (x :: a') b' (congrArg (x :: ·) heq)

/-- What stands before the first occurrence has none in it. -/
theorem First.not_isInfix (h : First d a b) (hd : d ≠ []) : ¬ d <:+: a := by
  rintro ⟨a₁, a₂, rfl⟩
  have hlen := h a₁ (a₂ ++ d ++ b) (by simp)
  have hpos := List.length_pos_iff.mpr hd
  simp only [List.length_append] at hlen
  omega

/-- An occurrence that starts in `a` would end before the last element of `d`. -/
theorem first_of_not_isInfix (h : ¬ d <:+: a ++ d.dropLast) : First d a b := by
  intro a' b' heq
  by_contra hlt
  refine h (List.IsInfix.trans (List.suffix_append a' d).isInfix ?_)
  have hpre : a ++ d.dropLast <+: a' ++ d ++ b' := by
    rw [← heq, List.append_assoc]
    exact List.prefix_append_right_inj a |>.mpr
      ((List.dropLast_prefix d).trans (List.prefix_append d b))
  refine (List.prefix_of_prefix_length_le (List.prefix_append _ _) hpre ?_).isInfix
  simp only [List.length_append, List.length_dropLast]
  omega

/-- No occurrence overlaps another one when the first element of `d` is nowhere else in it. -/
theorem first_of_notMem_tail {x : α} {g : List α} (hx : x ∉ g) (h : ¬ x :: g <:+: a) :
    First (x :: g) a b := by
  refine first_of_not_isInfix fun hin => ?_
  have hpre := List.dropLast_prefix (x :: g)
  rcases List.infix_append_iff_ne_nil.mp hin with hin | hin | ⟨l, l', hl, hl', heq, -, hin⟩
  · exact h hin
  · have hlen := hin.length_le
    rw [List.length_dropLast, List.length_cons] at hlen
    omega
  · obtain ⟨y, l, rfl⟩ := List.exists_cons_of_ne_nil hl
    obtain ⟨z, l', rfl⟩ := List.exists_cons_of_ne_nil hl'
    -- The second part of the occurrence starts like the whole.
    obtain ⟨t, ht⟩ := hin.trans hpre
    obtain rfl : z = x := (List.cons.inj ht).1
    have hg : g = l ++ z :: l' := (List.cons.inj heq).2
    exact hx (by simp [hg])

/-- A single character comes first behind a text that does not hold it. -/
theorem first_single {c : α} (h : c ∉ a) : First [c] a b :=
  first_of_notMem_tail List.not_mem_nil (mt (List.singleton_infix_iff c a).mp h)

/-- An occurrence does not reach over an element that is not in it. -/
theorem isInfix_append_cons_iff {y : α} (hy : y ∉ d) :
    d <:+: a ++ y :: b ↔ d <:+: a ∨ d <:+: b := by
  constructor
  · intro h
    -- An occurrence lies in the front, behind it, or across the border; the last would take in the
    -- character.
    rcases List.infix_append_iff_ne_nil.mp h with h | h | ⟨l, l', -, hl', rfl, -, hpre⟩
    · exact .inl h
    · rcases List.infix_cons_iff.mp h with hpre | h
      · cases d with
        | nil => exact .inl (List.nil_infix)
        | cons z d =>
          obtain ⟨t, ht⟩ := hpre
          exact absurd (by simp [(List.cons.inj ht).1]) hy
      · exact .inr h
    · obtain ⟨z, l', rfl⟩ := List.exists_cons_of_ne_nil hl'
      obtain ⟨t, ht⟩ := hpre
      exact absurd (by simp [(List.cons.inj ht).1]) hy
  · rintro (h | h)
    · exact h.trans (List.prefix_append _ _).isInfix
    · exact (List.infix_cons h).trans (List.suffix_append _ _).isInfix

/-- A delimiter in front of the text ends before such a character. -/
theorem isPrefix_append_cons {y : α} (hy : y ∉ d) (h : d <+: a ++ y :: b) : d <+: a := by
  have ha : a ++ [y] <+: a ++ y :: b := ⟨b, by simp⟩
  rcases List.prefix_or_prefix_of_prefix h ha with hpre | hpre
  · rcases List.prefix_concat_iff.mp hpre with rfl | hpre
    · simp at hy
    · exact hpre
  · exact absurd (hpre.subset (by simp)) hy

/-- There is a first occurrence. -/
theorem exists_first (h : d <:+: s) : ∃ a b, s = a ++ d ++ b ∧ First d a b := by
  induction s with
  | nil => exact ⟨[], [], by simp [List.eq_nil_of_infix_nil h], fun _ _ _ => Nat.zero_le _⟩
  | cons c s ih =>
    by_cases hpre : d <+: c :: s
    · obtain ⟨b, hb⟩ := hpre
      exact ⟨[], b, hb.symm, fun _ _ _ => Nat.zero_le _⟩
    · obtain ⟨a, b, rfl, hfirst⟩ := ih ((List.infix_cons_iff.mp h).resolve_left hpre)
      refine ⟨c :: a, b, rfl, fun a' b' heq => ?_⟩
      cases a' with
      | nil => exact absurd ⟨b', heq.symm⟩ hpre
      | cons x a' =>
        exact Nat.succ_le_succ (hfirst a' b' (List.cons.inj heq).2)

/-- **Induction from one occurrence to the next.** -/
theorem cut_induction {P : List α → Prop} (hd : d ≠ []) (none : ∀ s, ¬ d <:+: s → P s)
    (first : ∀ a b, First d a b → P b → P (a ++ d ++ b)) (s : List α) : P s := by
  induction hn : s.length using Nat.strong_induction_on generalizing s with
  | h n ih =>
    by_cases h : d <:+: s
    · obtain ⟨a, b, rfl, hfirst⟩ := exists_first h
      have hpos := List.length_pos_iff.mpr hd
      refine first a b hfirst (ih b.length ?_ b rfl)
      simp only [List.length_append] at hn
      omega
    · exact none s h

/-- What stands before makes no difference. -/
theorem Holds.append {n : ℕ} (h : Holds d n s) (a : List α) : Holds d n (a ++ s) := by
  cases h with
  | zero => exact .zero _
  | succ a' h =>
    rw [← List.append_assoc, ← List.append_assoc]
    exact .succ (a ++ a') h

/-- After the first occurrence there is one occurrence less. -/
theorem Holds.of_first {n : ℕ} (h : Holds d (n + 1) (a ++ d ++ b)) (hfirst : First d a b) :
    Holds d n b := by
  generalize hs : a ++ d ++ b = s at h
  cases h with
  | @succ _ a' b' h =>
    -- The occurrence that is counted starts where the first one does or later.
    obtain ⟨c, hc⟩ : b' <:+ b := by
      have hb' : b' <:+ a ++ d ++ b := hs ▸ List.suffix_append _ _
      refine List.suffix_of_suffix_length_le hb' (List.suffix_append _ _) ?_
      have hle := hfirst a' b' hs
      have hlen := congrArg List.length hs
      simp only [List.length_append] at hlen
      omega
    rw [← hc]
    exact h.append c

/-- A text that holds the delimiter at least once holds it somewhere. -/
theorem Holds.isInfix {n : ℕ} (h : Holds d (n + 1) s) : d <:+: s := by
  cases h with
  | succ a h => exact ⟨a, _, rfl⟩

end First

/-! ### The walk -/

/-- Characters taken one by one into the first part go in front of it as a whole. -/
theorem foldr_modifyHead {α : Type} (a part : List α) (parts : List (List α)) :
    a.foldr (fun c => List.modifyHead (c :: ·)) (part :: parts) = (a ++ part) :: parts := by
  induction a with
  | nil => rfl
  | cons c a ih =>
    rw [List.foldr_cons, ih]
    rfl

section Walk

variable {α β : Type} [DecidableEq α]

/-- From the left to the right, past the first `skip` elements: `hit` for an occurrence of `d`,
    `other` for an element outside of them. -/
def walk (d : List α) (hit : β → β) (other : α → β → β) (stop : β) : ℕ → List α → β
  | _, [] => stop
  | skip + 1, _ :: s => walk d hit other stop skip s
  | 0, c :: s =>
    if d.isPrefixOf (c :: s) then hit (walk d hit other stop (d.length - 1) s)
    else other c (walk d hit other stop 0 s)

/-- How often `d` occurs. -/
def occurrences (d s : List α) : ℕ := walk d (· + 1) (fun _ n => n) 0 0 s

/-- `r` in the place of each occurrence of `d`. -/
def replaceAll (d r s : List α) : List α := walk d (r ++ ·) List.cons [] 0 s

/-- The parts before, between and after the occurrences of `d`. -/
def cut (d s : List α) : List (List α) :=
  walk d ([] :: ·) (fun c => List.modifyHead (c :: ·)) [[]] 0 s

variable {d a b s : List α} {hit : β → β} {other : α → β → β} {stop : β}

/-- Before its first occurrence the delimiter is not found. -/
theorem First.not_isPrefixOf {x : α} (h : First d (x :: a) b) :
    ¬ d.isPrefixOf (x :: (a ++ d ++ b)) := by
  intro hpre
  obtain ⟨b', hb'⟩ := List.isPrefixOf_iff_prefix.mp hpre
  exact absurd (h [] b' hb'.symm) (Nat.not_succ_le_zero _)

/-- The characters to be skipped are dropped. -/
theorem walk_skip (skip : ℕ) (s : List α) :
    walk d hit other stop skip s = walk d hit other stop 0 (s.drop skip) := by
  induction s generalizing skip with
  | nil => cases skip <;> rfl
  | cons c s ih =>
    cases skip with
    | zero => rfl
    | succ skip => exact ih skip

/-- **Without an occurrence** the walk treats every character as one of the text. -/
theorem walk_of_not_isInfix (h : ¬ d <:+: s) :
    walk d hit other stop 0 s = s.foldr other stop := by
  induction s with
  | nil => rfl
  | cons c s ih =>
    rw [List.infix_cons_iff, not_or] at h
    rw [walk, if_neg fun hpre => h.1 (List.isPrefixOf_iff_prefix.mp hpre), ih h.2, List.foldr_cons]

/-- **At the first occurrence** the walk treats what stands before as text and goes on behind it. -/
theorem walk_first (hd : d ≠ []) (h : First d a b) :
    walk d hit other stop 0 (a ++ d ++ b) = a.foldr other (hit (walk d hit other stop 0 b)) := by
  -- The induction is on the text before the occurrence, no part of which is one.
  induction a with
  | nil =>
    obtain ⟨x, d', rfl⟩ := List.exists_cons_of_ne_nil hd
    have hpre : (x :: d').isPrefixOf (x :: (d' ++ b)) :=
      List.isPrefixOf_iff_prefix.mpr (List.prefix_append _ _)
    show walk (x :: d') hit other stop 0 (x :: (d' ++ b)) = _
    rw [walk, if_pos hpre, walk_skip]
    simp
  | cons c a ih =>
    show walk d hit other stop 0 (c :: (a ++ d ++ b)) = _
    rw [walk, if_neg h.not_isPrefixOf, ih h.tail, List.foldr_cons]

/-- An element that is not in `d` ends the part before it. -/
theorem walk_append_cons {y : α} (hy : y ∉ d) (h : ¬ d <:+: a) :
    walk d hit other stop 0 (a ++ y :: b)
      = a.foldr other (other y (walk d hit other stop 0 b)) := by
  induction a with
  | nil =>
    have hpre : ¬ d.isPrefixOf (y :: b) := fun hpre =>
      h (isPrefix_append_cons hy (List.isPrefixOf_iff_prefix.mp hpre)).isInfix
    exact if_neg hpre
  | cons c a ih =>
    have hpre : ¬ d.isPrefixOf (c :: (a ++ y :: b)) := fun hpre =>
      h (isPrefix_append_cons hy (List.isPrefixOf_iff_prefix.mp hpre)).isInfix
    rw [List.infix_cons_iff, not_or] at h
    rw [List.cons_append, walk, if_neg hpre, ih h.2, List.foldr_cons]

/-- Where the delimiter does not stand it is not counted. -/
theorem occurrences_of_not_isInfix (h : ¬ d <:+: s) : occurrences d s = 0 := by
  rw [occurrences, walk_of_not_isInfix h]
  exact List.foldr_fixed' (fun _ => rfl) s

/-- The first occurrence counts for one, and counting goes on behind it. -/
theorem occurrences_first (hd : d ≠ []) (h : First d a b) :
    occurrences d (a ++ d ++ b) = occurrences d b + 1 := by
  rw [occurrences, walk_first hd h]
  exact List.foldr_fixed' (fun _ => rfl) a

/-- A delimiter that stands somewhere is counted. -/
theorem occurrences_pos (hd : d ≠ []) (h : d <:+: s) : 0 < occurrences d s := by
  obtain ⟨a, b, rfl, hfirst⟩ := exists_first h
  rw [occurrences_first hd hfirst]
  exact Nat.succ_pos _

/-- Where the delimiter does not stand nothing is replaced. -/
theorem replaceAll_of_not_isInfix (h : ¬ d <:+: s) (r : List α) : replaceAll d r s = s := by
  rw [replaceAll, walk_of_not_isInfix h]
  exact List.foldr_cons_nil

/-- The first occurrence is replaced, and replacing goes on behind it, not inside the
    replacement. -/
theorem replaceAll_first (hd : d ≠ []) (h : First d a b) (r : List α) :
    replaceAll d r (a ++ d ++ b) = a ++ r ++ replaceAll d r b := by
  rw [replaceAll, walk_first hd h, List.append_assoc]
  exact List.foldr_cons_eq_append'

/-- Nothing is replaced in front of a character the delimiter does not hold. -/
theorem replaceAll_append_cons {y : α} (hy : y ∉ d) (h : ¬ d <:+: a) (r : List α) :
    replaceAll d r (a ++ y :: b) = a ++ y :: replaceAll d r b := by
  rw [replaceAll, walk_append_cons hy h]
  exact List.foldr_cons_eq_append'

/-- **Each replacement** trades the length of the delimiter for that of the replacement. -/
theorem length_replaceAll (hd : d ≠ []) (r s : List α) :
    (replaceAll d r s).length + occurrences d s * d.length
      = s.length + occurrences d s * r.length := by
  induction s using cut_induction hd with
  | none s h => simp [replaceAll_of_not_isInfix h, occurrences_of_not_isInfix h]
  | first a b h ih =>
    rw [replaceAll_first hd h, occurrences_first hd h, Nat.succ_mul, Nat.succ_mul]
    simp only [List.length_append]
    omega

/-- The same trade of the number of times a character stands in the text. -/
theorem count_replaceAll (hd : d ≠ []) (r s : List α) (c : α) :
    (replaceAll d r s).count c + occurrences d s * d.count c
      = s.count c + occurrences d s * r.count c := by
  induction s using cut_induction hd with
  | none s h => simp [replaceAll_of_not_isInfix h, occurrences_of_not_isInfix h]
  | first a b h ih =>
    rw [replaceAll_first hd h, occurrences_first hd h, Nat.succ_mul, Nat.succ_mul]
    simp only [List.count_append]
    omega

/-- Where the delimiter does not stand the text is one part. -/
theorem cut_of_not_isInfix (h : ¬ d <:+: s) : cut d s = [s] := by
  rw [cut, walk_of_not_isInfix h, foldr_modifyHead, List.append_nil]

/-- The text up to the first occurrence is the first part. -/
theorem cut_first (hd : d ≠ []) (h : First d a b) : cut d (a ++ d ++ b) = a :: cut d b := by
  rw [cut, walk_first hd h, foldr_modifyHead, List.append_nil]
  rfl

/-- The number counted is the number of occurrences the text holds. -/
theorem holds_occurrences (hd : d ≠ []) (s : List α) : Holds d (occurrences d s) s := by
  induction s using cut_induction hd with
  | none s h =>
    rw [occurrences_of_not_isInfix h]
    exact .zero s
  | first a b h ih =>
    rw [occurrences_first hd h]
    exact .succ a ih

end Walk

/-! ### `find` -/

/-- Nothing is found where the delimiter does not stand. -/
theorem findSub_of_not_isInfix {d s : Bytes} (h : ¬ d <:+: s) : findSub d s = none := by
  induction s with
  | nil =>
    have hd : d ≠ [] := fun hd => h (by rw [hd])
    exact if_neg hd
  | cons c s ih =>
    rw [List.infix_cons_iff, not_or] at h
    rw [findSub, if_neg fun hpre => h.1 (List.isPrefixOf_iff_prefix.mp hpre), ih h.2]
    rfl

/-- The place found is where the first occurrence starts. -/
theorem findSub_first {d a b : Bytes} (hd : d ≠ []) (h : First d a b) :
    findSub d (a ++ d ++ b) = some a.length := by
  induction a with
  | nil =>
    obtain ⟨x, d', rfl⟩ := List.exists_cons_of_ne_nil hd
    exact if_pos (List.isPrefixOf_iff_prefix.mpr (List.prefix_append _ _))
  | cons c a ih =>
    show findSub d (c :: (a ++ d ++ b)) = _
    rw [findSub, if_neg h.not_isPrefixOf, ih h.tail]
    rfl

section Find

variable {s d a b : Bytes} {start : ℕ} (hstart : start ≤ s.length)
include hstart

/-- `find` from `start` on gives `npos` where the delimiter does not stand behind `start`. -/
theorem find_of_not_isInfix (h : ¬ d <:+: s.drop start) : find s d start = none := by
  rw [find, if_pos hstart, findSub_of_not_isInfix h]
  rfl

/-- `find` from `start` on gives the first occurrence behind `start`, counted from the beginning of
    the text. -/
theorem find_first (hd : d ≠ []) (hdrop : s.drop start = a ++ d ++ b) (h : First d a b) :
    find s d start = some (start + a.length) := by
  rw [find, if_pos hstart, hdrop, findSub_first hd h]
  rfl

/-- What follows the occurrence. -/
theorem drop_first (hdrop : s.drop start = a ++ d ++ b) :
    start + a.length + d.length ≤ s.length ∧ s.drop (start + a.length + d.length) = b := by
  constructor
  · have hlen := congrArg List.length hdrop
    simp only [List.length_drop, List.length_append] at hlen
    omega
  · rw [Nat.add_assoc, ← List.drop_drop, hdrop, ← List.length_append]
    exact List.drop_left

end Find

end Icl.Cxx
