import Mathlib.Data.List.Basic
import Mathlib.Order.Lattice
import Mathlib.Tactic.SplitIfs

namespace Icl.Cxx

/-!
# `std::map` as a sorted list of pairs

A map is the list of its entries in the order in which an iterator meets them.  The
operations keep the keys strictly increasing (`Sorted`), so two maps with the same
entries are the same list.

* `insertOrAssign` — `m[k] = v`, the last value wins;
* `insertNew` — `m.insert({k, v})`, the first value wins;
* `assign` — `m.find(k)->second = v`, where there is an entry;
* `find?` — `m.find(k)`, `m.count(k)`, `m.at(k)`.
-/

namespace OrdMap

variable {κ α : Type} [LinearOrder κ]

/-- `m[k] = v`. -/
def insertOrAssign (k : κ) (v : α) : List (κ × α) → List (κ × α)
  | [] => [(k, v)]
  | (k', v') :: m =>
    if k < k' then (k, v) :: (k', v') :: m
    else if k = k' then (k, v) :: m
    else (k', v') :: insertOrAssign k v m

/-- `m.insert(std::make_pair(k, v))`. -/
def insertNew (k : κ) (v : α) : List (κ × α) → List (κ × α)
  | [] => [(k, v)]
  | (k', v') :: m =>
    if k < k' then (k, v) :: (k', v') :: m
    else if k = k' then (k', v') :: m
    else (k', v') :: insertNew k v m

/-- `it->second = v`, `it` being the iterator at the key `k`. -/
def assign (k : κ) (v : α) : List (κ × α) → List (κ × α)
  | [] => []
  | (k', v') :: m => if k = k' then (k', v) :: m else (k', v') :: assign k v m

/-- The value at a key. -/
def find? (k : κ) : List (κ × α) → Option α
  | [] => none
  | (k', v') :: m => if k = k' then some v' else find? k m

/-- The keys are strictly increasing. -/
def Sorted (m : List (κ × α)) : Prop := m.Pairwise (fun a b => a.1 < b.1)

/-- The empty map is in order. -/
theorem sorted_nil : Sorted ([] : List (κ × α)) := List.Pairwise.nil

/-- A map is in order when its first key is below all the others and these are in order. -/
theorem sorted_cons {e : κ × α} {m : List (κ × α)} :
    Sorted (e :: m) ↔ (∀ e' ∈ m, e.1 < e'.1) ∧ Sorted m := List.pairwise_cons

/-- An assignment at a key above all the others appends. -/
theorem insertOrAssign_append (k : κ) (v : α) {m : List (κ × α)} (h : ∀ e ∈ m, e.1 < k) :
    insertOrAssign k v m = m ++ [(k, v)] := by
  induction m with
  | nil => rfl
  | cons e m ih =>
    obtain ⟨he, hm⟩ := List.forall_mem_cons.mp h
    rw [insertOrAssign, if_neg (not_lt.mpr (le_of_lt he)), if_neg (ne_of_gt he), ih hm]
    rfl

/-- An assignment leaves no entry but the old ones and its own. -/
theorem mem_insertOrAssign {k : κ} {v : α} {m : List (κ × α)} {e : κ × α}
    (h : e ∈ insertOrAssign k v m) : e = (k, v) ∨ e ∈ m := by
  induction m with
  | nil => simpa [insertOrAssign] using h
  | cons e' m ih =>
    rw [insertOrAssign] at h
    split_ifs at h
    · simpa using h
    · exact (List.mem_cons.mp h).imp_right (List.mem_cons_of_mem _)
    · rcases List.mem_cons.mp h with h | h
      · exact .inr (h ▸ List.mem_cons_self)
      · exact (ih h).imp_right (List.mem_cons_of_mem _)

/-- **Assigning keeps the order of the keys.** -/
theorem sorted_insertOrAssign (k : κ) (v : α) {m : List (κ × α)} (h : Sorted m) :
    Sorted (insertOrAssign k v m) := by
  induction m with
  | nil => simp [insertOrAssign, Sorted]
  | cons e m ih =>
    obtain ⟨hhead, htail⟩ := sorted_cons.mp h
    rw [insertOrAssign]
    -- The new key goes in front, replaces an equal one, or goes further back.
    split_ifs with hlt heq
    · refine sorted_cons.mpr ⟨fun e' he' => ?_, h⟩
      rcases List.mem_cons.mp he' with rfl | he'
      · exact hlt
      · exact lt_trans hlt (hhead e' he')
    · exact sorted_cons.mpr ⟨heq ▸ hhead, htail⟩
    · refine sorted_cons.mpr ⟨fun e' he' => ?_, ih htail⟩
      rcases mem_insertOrAssign he' with rfl | he'
      · exact lt_of_le_of_ne (not_lt.mp hlt) (Ne.symm heq)
      · exact hhead e' he'

/-- So do any number of assignments. -/
theorem sorted_foldl_insertOrAssign (entries : List (κ × α)) {m : List (κ × α)} (h : Sorted m) :
    Sorted (entries.foldl (fun m e => insertOrAssign e.1 e.2 m) m) := by
  induction entries generalizing m with
  | nil => exact h
  | cons e entries ih => exact ih (sorted_insertOrAssign e.1 e.2 h)

/-- The keys of a map are distinct. -/
theorem Sorted.nodup {m : List (κ × α)} (h : Sorted m) : (m.map Prod.fst).Nodup :=
  List.pairwise_map.mpr (h.imp fun hlt => ne_of_lt hlt)

/-- Assigning the entries of a sorted list one after the other gives the list. -/
theorem foldl_insertOrAssign {m : List (κ × α)} (h : Sorted m) :
    m.foldl (fun m e => insertOrAssign e.1 e.2 m) [] = m := by
  have key : ∀ pre, Sorted (pre ++ m) →
      m.foldl (fun m e => insertOrAssign e.1 e.2 m) pre = pre ++ m := by
    induction m with
    | nil => simp
    | cons e m ih =>
      intro pre hpre
      obtain ⟨-, -, hlt⟩ := List.pairwise_append.mp hpre
      rw [List.foldl_cons, insertOrAssign_append _ _ (fun e' he' => hlt e' he' e (by simp)),
        ih (sorted_cons.mp h).2 _ (by simpa using hpre)]
      simp
  exact key [] h

/-- An insertion leaves no key but the old ones and its own. -/
theorem mem_insertNew {k : κ} {v : α} {m : List (κ × α)} {e : κ × α} (h : e ∈ insertNew k v m) :
    e = (k, v) ∨ e ∈ m := by
  induction m with
  | nil => simpa [insertNew] using h
  | cons e' m ih =>
    rw [insertNew] at h
    split_ifs at h
    · simpa using h
    · exact .inr h
    · rcases List.mem_cons.mp h with h | h
      · exact .inr (h ▸ List.mem_cons_self)
      · exact (ih h).imp_right (List.mem_cons_of_mem _)

/-- An insertion adds its key. -/
theorem map_fst_insertNew (k : κ) (v : α) (m : List (κ × α)) (k' : κ) :
    k' ∈ (insertNew k v m).map Prod.fst ↔ k' = k ∨ k' ∈ m.map Prod.fst := by
  induction m with
  | nil => simp [insertNew]
  | cons e m ih =>
    rw [insertNew]
    split_ifs with hlt heq
    · simp
    · simp [heq]
    · rw [List.map_cons, List.mem_cons, ih, List.map_cons, List.mem_cons]
      tauto

/-- **Inserting keeps the order of the keys**, whether the key was there or not. -/
theorem sorted_insertNew (k : κ) (v : α) {m : List (κ × α)} (h : Sorted m) :
    Sorted (insertNew k v m) := by
  induction m with
  | nil => simp [insertNew, Sorted]
  | cons e m ih =>
    obtain ⟨hhead, htail⟩ := sorted_cons.mp h
    rw [insertNew]
    -- The new key goes in front, is refused as an equal one is there, or goes further back.
    split_ifs with hlt heq
    · refine sorted_cons.mpr ⟨fun e' he' => ?_, h⟩
      rcases List.mem_cons.mp he' with rfl | he'
      · exact hlt
      · exact lt_trans hlt (hhead e' he')
    · exact h
    · refine sorted_cons.mpr ⟨fun e' he' => ?_, ih htail⟩
      rcases mem_insertNew he' with rfl | he'
      · exact lt_of_le_of_ne (not_lt.mp hlt) (Ne.symm heq)
      · exact hhead e' he'

/-- An insertion at a key that is there changes nothing. -/
theorem insertNew_of_mem {k : κ} (v : α) {m : List (κ × α)} (h : Sorted m)
    (hk : k ∈ m.map Prod.fst) : insertNew k v m = m := by
  induction m with
  | nil => cases hk
  | cons e m ih =>
    obtain ⟨hhead, htail⟩ := sorted_cons.mp h
    rw [insertNew]
    rcases List.mem_cons.mp hk with rfl | hk
    · rw [if_neg (lt_irrefl _), if_pos rfl]
    · obtain ⟨e', he', rfl⟩ := List.mem_map.mp hk
      have hlt := hhead e' he'
      rw [if_neg (lt_asymm hlt), if_neg (ne_of_gt hlt), ih htail hk]

/-- A new key is added to the entries. -/
theorem perm_insertNew {k : κ} (v : α) {m : List (κ × α)} (h : k ∉ m.map Prod.fst) :
    (insertNew k v m).Perm ((k, v) :: m) := by
  induction m with
  | nil => exact List.Perm.refl _
  | cons e m ih =>
    obtain ⟨hne, hm⟩ : k ≠ e.1 ∧ k ∉ m.map Prod.fst := by simpa using h
    rw [insertNew]
    split_ifs with hlt
    · exact List.Perm.refl _
    · exact ((ih hm).cons e).trans (List.Perm.swap _ _ _)

/-- What is found is an entry. -/
theorem mem_of_find? {k : κ} {v : α} {m : List (κ × α)} (h : find? k m = some v) : (k, v) ∈ m := by
  induction m with
  | nil => cases h
  | cons e m ih =>
    rw [find?] at h
    split_ifs at h with hk
    · cases h
      rw [hk]
      exact List.mem_cons_self
    · exact List.mem_cons_of_mem _ (ih h)

/-- There is something at a key that is among the keys. -/
theorem exists_find? {k : κ} {m : List (κ × α)} (h : k ∈ m.map Prod.fst) :
    ∃ v, find? k m = some v := by
  induction m with
  | nil => cases h
  | cons e m ih =>
    rw [find?]
    split_ifs with hk
    · exact ⟨e.2, rfl⟩
    · exact ih ((List.mem_cons.mp h).resolve_left hk)

/-- Where keys are distinct, every entry is found. -/
theorem find?_eq_some_iff {m : List (κ × α)} (h : (m.map Prod.fst).Nodup) {k : κ} {v : α} :
    find? k m = some v ↔ (k, v) ∈ m := by
  refine ⟨mem_of_find?, fun hmem => ?_⟩
  induction m with
  | nil => cases hmem
  | cons e m ih =>
    rw [List.map_cons, List.nodup_cons] at h
    rw [find?]
    rcases List.mem_cons.mp hmem with rfl | hmem
    · exact if_pos rfl
    · have hne : k ≠ e.1 := fun heq => h.1 (heq ▸ List.mem_map_of_mem (f := Prod.fst) hmem)
      rw [if_neg hne, ih h.2 hmem]

/-- There is nothing at a key that is not among the keys. -/
theorem find?_of_ne {k : κ} {m : List (κ × α)} (h : ∀ e ∈ m, e.1 ≠ k) : find? k m = none := by
  induction m with
  | nil => rfl
  | cons e m ih =>
    obtain ⟨he, hm⟩ := List.forall_mem_cons.mp h
    rw [find?, if_neg (Ne.symm he), ih hm]

/-- An insertion is read back unless there was an entry, and changes no other key. -/
theorem find?_insertNew (k k' : κ) (v : α) {m : List (κ × α)} (h : Sorted m) :
    find? k' (insertNew k v m) = if k' = k then some ((find? k m).getD v) else find? k' m := by
  induction m with
  | nil => rfl
  | cons e m ih =>
    obtain ⟨hhead, htail⟩ := sorted_cons.mp h
    rw [insertNew]
    by_cases hlt : k < e.1
    · -- The key is below all the others, so that it was not there.
      have hnone : find? k (e :: m) = none := by
        refine find?_of_ne fun e' he' => ne_of_gt ?_
        rcases List.mem_cons.mp he' with rfl | he'
        · exact hlt
        · exact lt_trans hlt (hhead e' he')
      rw [if_pos hlt, find?, hnone]
      rfl
    · rw [if_neg hlt]
      by_cases heq : k = e.1
      · rw [if_pos heq, find?, find?, if_pos heq]
        by_cases hk' : k' = k <;> simp [hk', ← heq]
      · rw [if_neg heq, find?, find?, find?, if_neg heq, ih htail]
        by_cases hk' : k' = k
        · rw [if_neg (hk' ▸ heq), if_pos hk', if_pos hk']
        · rw [if_neg hk', if_neg hk']

/-- The entries, inserted one after the other: the first of several equal keys wins. -/
def insertAll (entries m : List (κ × α)) : List (κ × α) :=
  entries.foldl (fun m e => insertNew e.1 e.2 m) m

@[simp] theorem insertAll_nil (m : List (κ × α)) : insertAll [] m = m := rfl

@[simp] theorem insertAll_cons (e : κ × α) (entries m : List (κ × α)) :
    insertAll (e :: entries) m = insertAll entries (insertNew e.1 e.2 m) := rfl

/-- So do any number of insertions. -/
theorem sorted_insertAll (entries : List (κ × α)) {m : List (κ × α)} (h : Sorted m) :
    Sorted (insertAll entries m) := by
  induction entries generalizing m with
  | nil => exact h
  | cons e entries ih => exact ih (sorted_insertNew _ _ h)

/-- No entry comes from elsewhere. -/
theorem mem_insertAll {entries m : List (κ × α)} {e : κ × α} (h : e ∈ insertAll entries m) :
    e ∈ entries ++ m := by
  induction entries generalizing m with
  | nil => exact h
  | cons first entries ih =>
    rcases List.mem_append.mp (ih h) with he | he
    · exact List.mem_append_left _ (List.mem_cons_of_mem _ he)
    · rcases mem_insertNew he with rfl | he
      · exact List.mem_cons_self
      · exact List.mem_append_right _ he

/-- Entries with distinct keys, none of them there yet, are all kept. -/
theorem perm_insertAll (entries m : List (κ × α))
    (hnodup : ((entries ++ m).map Prod.fst).Nodup) : (insertAll entries m).Perm (entries ++ m) := by
  induction entries generalizing m with
  | nil => exact List.Perm.refl _
  | cons e entries ih =>
    rw [List.cons_append, List.map_cons, List.nodup_cons] at hnodup
    have hnew : e.1 ∉ m.map Prod.fst := by
      intro hmem
      refine hnodup.1 ?_
      rw [List.map_append]
      exact List.mem_append_right _ hmem
    -- The new entry may go anywhere among the old ones.
    have hmiddle : (entries ++ insertNew e.1 e.2 m).Perm (e :: (entries ++ m)) :=
      ((perm_insertNew e.2 hnew).append_left _).trans List.perm_middle
    refine (ih _ ?_).trans hmiddle
    refine (hmiddle.map Prod.fst).nodup_iff.mpr ?_
    rw [List.map_cons, List.nodup_cons]
    exact hnodup

/-- The value at a key is the old one, if any, or else that of the first entry. -/
theorem find?_insertAll (k : κ) (entries : List (κ × α)) {m : List (κ × α)} (h : Sorted m) :
    find? k (insertAll entries m) = (find? k m).or (find? k entries) := by
  induction entries generalizing m with
  | nil => simp [insertAll, find?]
  | cons e entries ih =>
    rw [insertAll_cons]
    refine (ih (sorted_insertNew e.1 e.2 h)).trans ?_
    rw [find?_insertNew _ _ _ h, find?]
    by_cases hk : k = e.1
    · rw [if_pos hk, if_pos hk, hk]
      cases find? e.1 m <;> rfl
    · rw [if_neg hk, if_neg hk]

/-- What is not in the first part is looked up in the second one. -/
theorem find?_append (k : κ) (m m' : List (κ × α)) :
    find? k (m ++ m') = (find? k m).or (find? k m') := by
  induction m with
  | nil => simp [find?]
  | cons e m ih =>
    rw [List.cons_append, find?, find?, ih]
    split_ifs <;> rfl

/-- Entries of other keys are skipped. -/
theorem find?_append_of_ne {k : κ} {m : List (κ × α)} (h : ∀ e ∈ m, e.1 ≠ k) (m' : List (κ × α)) :
    find? k (m ++ m') = find? k m' := by
  rw [find?_append, find?_of_ne h, Option.none_or]

/-- An assignment is read back, and changes no other key. -/
theorem find?_insertOrAssign (k k' : κ) (v : α) (m : List (κ × α)) :
    find? k' (insertOrAssign k v m) = if k' = k then some v else find? k' m := by
  induction m with
  | nil => rfl
  | cons e m ih =>
    rw [insertOrAssign]
    -- As in the code of the map: the key is below the first one, equal to it, or above it.
    by_cases hlt : k < e.1
    · rw [if_pos hlt, find?]
    · rw [if_neg hlt]
      by_cases heq : k = e.1
      · rw [if_pos heq, find?, find?, ← heq]
        by_cases hk' : k' = k <;> simp [hk']
      · rw [if_neg heq, find?, find?, ih]
        by_cases hk' : k' = k
        · simp [hk', heq]
        · simp [hk']

/-- The value of an entry changes, and nothing else does. -/
theorem find?_assign (k k' : κ) (v : α) (m : List (κ × α)) :
    find? k' (assign k v m) = if k' = k then (find? k m).map (fun _ => v) else find? k' m := by
  induction m with
  | nil => simp [assign, find?]
  | cons e m ih =>
    by_cases hk : k = e.1
    · rw [assign, if_pos hk, find?, find?, find?, if_pos hk, ← hk]
      split_ifs <;> rfl
    · rw [assign, if_neg hk, find?, find?, find?, if_neg hk, ih]
      by_cases hk' : k' = k
      · rw [if_neg (hk' ▸ hk), if_pos hk', if_pos hk']
      · rw [if_neg hk', if_neg hk']

/-- Assigning to a key that is there changes no key. -/
@[simp] theorem map_fst_assign (k : κ) (v : α) (m : List (κ × α)) :
    (assign k v m).map Prod.fst = m.map Prod.fst := by
  induction m with
  | nil => rfl
  | cons e m ih =>
    rw [assign]
    split_ifs
    · rfl
    · rw [List.map_cons, ih, List.map_cons]

/-- An assignment finds its entry. -/
theorem assign_append {k : κ} {m : List (κ × α)} (h : k ∉ m.map Prod.fst) (v v' : α)
    (m' : List (κ × α)) : assign k v (m ++ (k, v') :: m') = m ++ (k, v) :: m' := by
  induction m with
  | nil => exact if_pos rfl
  | cons e m ih =>
    obtain ⟨hne, hm⟩ : k ≠ e.1 ∧ k ∉ m.map Prod.fst := by simpa using h
    rw [List.cons_append, assign, if_neg hne, ih hm, List.cons_append]

/-- Where keys are distinct, an assignment leaves no other entry at its key. -/
theorem mem_assign {k : κ} {v : α} {m : List (κ × α)} (h : (m.map Prod.fst).Nodup) {e : κ × α}
    (he : e ∈ assign k v m) : e = (k, v) ∨ e.1 ≠ k ∧ e ∈ m := by
  induction m with
  | nil => cases he
  | cons e' m ih =>
    rw [List.map_cons, List.nodup_cons] at h
    rw [assign] at he
    -- The keys are distinct, so only the entry of `k` itself can be the new one.
    split_ifs at he with hk
    · rcases List.mem_cons.mp he with rfl | he
      · exact .inl (by rw [hk])
      · refine .inr ⟨fun heq => h.1 ?_, List.mem_cons_of_mem _ he⟩
        rw [← hk, ← heq]
        exact List.mem_map_of_mem he
    · rcases List.mem_cons.mp he with rfl | he
      · exact .inr ⟨Ne.symm hk, List.mem_cons_self⟩
      · exact (ih h.2 he).imp_right fun ⟨hne, hmem⟩ => ⟨hne, List.mem_cons_of_mem _ hmem⟩

/-- The value that is there may be assigned again. -/
theorem assign_of_find? {k : κ} {v : α} {m : List (κ × α)} (h : find? k m = some v) :
    assign k v m = m := by
  induction m with
  | nil => rfl
  | cons e m ih =>
    rw [find?] at h
    rw [assign]
    split_ifs at h ⊢
    · cases h
      rfl
    · rw [ih h]

/-- Of several assignments to a key, the last one counts. -/
theorem find?_foldl_insertOrAssign (k : κ) (entries m : List (κ × α)) :
    find? k (entries.foldl (fun m e => insertOrAssign e.1 e.2 m) m)
      = (find? k entries.reverse).or (find? k m) := by
  induction entries generalizing m with
  | nil => rfl
  | cons e entries ih =>
    rw [List.foldl_cons, ih, find?_insertOrAssign, List.reverse_cons, find?_append, Option.or_assoc]
    congr 1
    rw [find?, find?]
    split_ifs <;> rfl

/-- A lookup among the images is the image of a lookup. -/
theorem find?_map [BEq κ] [LawfulBEq κ] {β : Type} {key : β → κ} (value : β → α) (k : κ)
    (entries : List β) : find? k (entries.map fun e => (key e, value e))
      = (entries.find? fun e => key e == k).map value := by
  induction entries with
  | nil => rfl
  | cons e entries ih =>
    rw [List.map_cons, find?, List.find?_cons, ih]
    by_cases h : key e = k
    · rw [if_pos h.symm, beq_iff_eq.mpr h]
      rfl
    · rw [if_neg (Ne.symm h), beq_eq_false_iff_ne.mpr h]

end OrdMap

end Icl.Cxx
