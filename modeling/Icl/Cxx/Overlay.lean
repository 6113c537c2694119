import Mathlib.Data.List.Basic

namespace Icl.Cxx

/-!
# Overwriting a part of a sequence

`overlay s pos e` is `s` with `e` written over it from `pos` on; what passes the end is appended.

* `overlay_append` — one piece after the other is the two together;
* `getElem?_overlay_of_outside`, `length_overlay` — what stays, and how far the sequence grows.
-/

section Overlay

variable {α : Type} {s e : List α} {pos : Nat}

def overlay (s : List α) (pos : Nat) (e : List α) : List α :=
  s.take pos ++ (e ++ s.drop (pos + e.length))

theorem overlay_nil (s : List α) (pos : Nat) : overlay s pos [] = s := by
  unfold overlay
  rw [List.length_nil, Nat.add_zero, List.nil_append, List.take_append_drop]

/-- The sequence grows only as far as the piece passes its end. -/
theorem length_overlay (hpos : pos ≤ s.length) :
    (overlay s pos e).length = max s.length (pos + e.length) := by
  unfold overlay
  rw [List.length_append, List.length_append, List.length_take, List.length_drop]
  omega

/-- **Frame.**  The elements in front of the piece and behind it stay. -/
theorem getElem?_overlay_of_outside (hpos : pos ≤ s.length) {k : Nat}
    (hk : k < pos ∨ pos + e.length ≤ k) : (overlay s pos e)[k]? = s[k]? := by
  have htake : (s.take pos).length = pos := List.length_take_of_le hpos
  unfold overlay
  cases hk with
  | inl hlt => rw [List.getElem?_append_left (by omega), List.getElem?_take_of_lt hlt]
  | inr hle =>
    rw [List.getElem?_append_right (by omega), List.getElem?_append_right (by omega),
      List.getElem?_drop, htake]
    congr 1
    omega

/-- **One piece after the other.** -/
theorem overlay_append (hpos : pos ≤ s.length) (e' : List α) :
    overlay (overlay s pos e) (pos + e.length) e' = overlay s pos (e ++ e') := by
  have htake : (s.take pos ++ e).length = pos + e.length := by
    rw [List.length_append, List.length_take_of_le hpos]
  have hbehind : (overlay s pos e).drop (pos + e.length) = s.drop (pos + e.length) := by
    unfold overlay
    rw [← List.append_assoc, List.drop_left' htake]
  have hfront : (overlay s pos e).take (pos + e.length) = s.take pos ++ e := by
    unfold overlay
    rw [← List.append_assoc, List.take_left' htake]
  calc overlay (overlay s pos e) (pos + e.length) e'
      = s.take pos ++ e ++ (e' ++ s.drop (pos + e.length + e'.length)) := by
        rw [overlay, hfront, ← List.drop_drop, hbehind, List.drop_drop]
    _ = overlay s pos (e ++ e') := by
        rw [overlay, List.length_append, List.append_assoc, List.append_assoc, Nat.add_assoc]

/-- One element, in the sequence. -/
theorem overlay_singleton_of_lt (h : pos < s.length) (a : α) :
    overlay s pos [a] = s.set pos a := by
  unfold overlay
  rw [List.set_eq_take_append_cons_drop, if_pos h]
  rfl

/-- Behind the last element. -/
theorem overlay_length (s e : List α) : overlay s s.length e = s ++ e := by
  unfold overlay
  rw [List.take_length, List.drop_of_length_le (by omega), List.append_nil]

end Overlay

end Icl.Cxx
