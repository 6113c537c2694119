import Icl.Cxx.Bytes

namespace Icl.Format

open Icl.Cxx

/-!
# Pathnames

How a pathname is resolved where there are no symbolic links.  A directory is the list of the
names on the way to it.

* `walk`, `resolve` — the way along a pathname;
* `stays` — a way that never leaves the directory it starts in;
* `prefix_walk` — then it ends inside;
* `not_mem_walk_of_not_stays` — otherwise it ends outside, where no name comes back.
-/

/-- The way through one component: nothing and `.` stay, `..` goes up, but not above the root. -/
def enter (dir : List Bytes) (part : Bytes) : List Bytes :=
  if part = [] ∨ part = ascii "." then dir
  else if part = ascii ".." then dir.dropLast
  else dir ++ [part]

/-- The way through several components. -/
def walk (dir : List Bytes) (parts : List Bytes) : List Bytes := parts.foldl enter dir

/-- Where a pathname leads to, from the current directory. -/
def resolve (cwd : List Bytes) (path : Bytes) : List Bytes :=
  walk (if path.head? = some 0x2F then [] else cwd) (path.splitOn 0x2F)

/-- No beginning of the way goes up more often than down, from this depth on. -/
def stays : ℕ → List Bytes → Bool
  | _, [] => true
  | depth, part :: parts =>
    if part = [] ∨ part = ascii "." then stays depth parts
    else if part = ascii ".." then 0 < depth && stays (depth - 1) parts
    else stays (depth + 1) parts

example : resolve [ascii "home"] (ascii "/srv/www/./a/../../b.txt")
    = [ascii "srv", ascii "b.txt"] := by
  decide

@[simp] theorem walk_cons (dir : List Bytes) (part : Bytes) (parts : List Bytes) :
    walk dir (part :: parts) = walk (enter dir part) parts := rfl

theorem walk_append (dir parts parts' : List Bytes) :
    walk dir (parts ++ parts') = walk (walk dir parts) parts' := List.foldl_append

@[simp] theorem enter_nil (dir : List Bytes) : enter dir [] = dir := rfl

/-- **A way that stays inside ends inside.** -/
theorem prefix_walk {dir inner parts : List Bytes} (h : stays inner.length parts = true) :
    dir <+: walk (dir ++ inner) parts := by
  induction parts generalizing inner with
  | nil => exact List.prefix_append dir inner
  | cons part parts ih =>
    rw [stays] at h
    rw [walk_cons, enter]
    split_ifs at h ⊢ with hsame hup
    · exact ih h
    · -- Up, inside the directory.
      rcases inner.eq_nil_or_concat with rfl | ⟨inner, name, rfl⟩
      · cases h
      · rw [List.concat_eq_append, ← List.append_assoc, List.dropLast_concat]
        exact ih (by simpa using h)
    · rw [List.append_assoc]
      exact ih (by simpa using h)

/-- No name comes from elsewhere. -/
theorem not_mem_walk {dir parts : List Bytes} {name : Bytes} (hdir : name ∉ dir)
    (hparts : name ∉ parts) : name ∉ walk dir parts := by
  induction parts generalizing dir with
  | nil => exact hdir
  | cons part parts ih =>
    obtain ⟨hpart, hparts⟩ := not_or.mp (mt List.mem_cons.mpr hparts)
    rw [walk_cons]
    refine ih ?_ hparts
    rw [enter]
    split_ifs
    · exact hdir
    · exact fun hmem => hdir (List.dropLast_subset _ hmem)
    · simpa using ⟨hdir, hpart⟩

/-- **A way that goes up above a directory ends outside**, if no other directory has its name. -/
theorem not_mem_walk_of_not_stays {inner parts : List Bytes} {name : Bytes} (hinner : name ∉ inner)
    (hparts : name ∉ parts) (h : stays inner.length parts = false) :
    name ∉ walk (name :: inner) parts := by
  induction parts generalizing inner with
  | nil => cases h
  | cons part parts ih =>
    obtain ⟨hpart, hparts'⟩ := not_or.mp (mt List.mem_cons.mpr hparts)
    rw [stays] at h
    rw [walk_cons, enter]
    split_ifs at h ⊢ with hsame hup
    · exact ih hinner hparts' h
    · rcases inner.eq_nil_or_concat with rfl | ⟨inner, last, rfl⟩
      · exact not_mem_walk (by simp) hparts'
      · rw [List.concat_eq_append] at hinner ⊢
        rw [← List.cons_append, List.dropLast_concat]
        exact ih (fun hmem => hinner (List.mem_append_left _ hmem)) hparts' (by simpa using h)
    · rw [List.cons_append]
      exact ih (by simpa using ⟨hinner, hpart⟩) hparts' (by simpa using h)

/-- After a directory and a slash the way goes on from that directory. -/
theorem resolve_append_slash (cwd : List Bytes) (dir rest : Bytes) :
    resolve cwd (dir ++ 0x2F :: rest)
      = walk (resolve cwd (dir ++ [0x2F])) (rest.splitOn 0x2F) := by
  have hhead : ∀ rest : Bytes, (dir ++ 0x2F :: rest).head? = dir.head?.or (some 0x2F) := by
    intro rest
    cases dir <;> rfl
  rw [resolve, resolve, hhead, hhead, List.splitOn_append_cons_self, List.splitOn_append_cons_self,
    walk_append, walk_append]
  rfl

/-- A slash at the end does not lead out. -/
theorem resolve_slash_prefix (cwd : List Bytes) (dir : Bytes) :
    resolve cwd (dir ++ [0x2F]) <+: resolve cwd dir := by
  cases dir with
  | nil => exact List.nil_prefix
  | cons c dir =>
    have hsplit := List.splitOn_append_cons_self (a := (0x2F : UInt8)) (c :: dir) []
    rw [resolve, resolve, hsplit, walk_append]
    exact List.prefix_rfl

/-! ### The parts of a pathname -/

/-- A part is no longer than the whole. -/
theorem length_le_of_mem_splitOn {c : UInt8} {s part : Bytes} (h : part ∈ s.splitOn c) :
    part.length ≤ s.length := by
  induction s generalizing part with
  | nil => simp_all
  | cons x s ih =>
    rw [List.splitOn_cons_eq_if_modifyHead] at h
    obtain ⟨first, rest, hsplit⟩ := List.exists_cons_of_ne_nil (List.splitOn_ne_nil c s)
    rw [hsplit] at h ih
    rw [List.length_cons]
    split_ifs at h
    · rcases List.mem_cons.mp h with rfl | h
      · simp
      · have := ih h
        omega
    · rcases List.mem_cons.mp h with rfl | h
      · have := ih List.mem_cons_self
        simpa using this
      · have := ih (List.mem_cons_of_mem _ h)
        omega

/-- A prefix without a separator goes to the first part. -/
theorem splitOn_append {c : UInt8} {w s first : Bytes} {rest : List Bytes} (hw : c ∉ w)
    (hs : s.splitOn c = first :: rest) : (w ++ s).splitOn c = (w ++ first) :: rest := by
  induction w with
  | nil => exact hs
  | cons x w ih =>
    obtain ⟨hx, hw⟩ : c ≠ x ∧ c ∉ w := by simpa using hw
    rw [List.cons_append, List.splitOn_cons_eq_if_modifyHead, ih hw,
      if_neg (by simpa using Ne.symm hx)]
    rfl

/-- Before an empty first part there is nothing, or a separator comes first. -/
theorem splitOn_nil_cons {c : UInt8} {s : Bytes} {rest : List Bytes}
    (h : s.splitOn c = [] :: rest) (hs : s ≠ []) :
    ∃ tail, s = c :: tail ∧ rest = tail.splitOn c := by
  cases s with
  | nil => exact absurd rfl hs
  | cons x s =>
    obtain ⟨first, tail, hsplit⟩ := List.exists_cons_of_ne_nil (List.splitOn_ne_nil c s)
    rw [List.splitOn_cons_eq_if_modifyHead] at h
    split_ifs at h with hx
    · exact ⟨s, by rw [beq_iff_eq.mp hx], (List.cons.inj h).2.symm⟩
    · rw [hsplit] at h
      cases h

end Icl.Format
