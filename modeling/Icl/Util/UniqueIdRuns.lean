import Icl.Util.UniqueId

namespace Icl.Util

open Icl.Cxx Icl.Transition

/-!
# `UniqueId`, call by call

What each call returns and what it does to the other ids, in every sequence of calls.  The ids that
are added or released may lie outside the range.

* `IdOp.Right` — a call returns what it should, and touches no other id;
* `right_of_distinct` — every call is right as long as the ids in use are distinct;
* `bookkeeping` — every sequence of calls.
-/

/-- A call, `FindId` among them. -/
inductive IdOp where
  | takeId
  | findId
  | addId (id : UInt32)
  | releaseId (id : UInt32)
  | clear
  deriving DecidableEq, Repr

/-- What a call does. -/
def IdOp.step (u : UniqueId) : IdOp → Except Fault UniqueId
  | .takeId => IdCall.takeId.step u
  | .findId => do
    let _ ← u.findId
    return u
  | .addId id => IdCall.step u (.addId id)
  | .releaseId id => IdCall.step u (.releaseId id)
  | .clear => IdCall.clear.step u

/-- A call and the ids that it is not about: whether they are taken does not change. -/
def KeepsOthers (u u' : UniqueId) (id : UInt32) : Prop :=
  ∀ other, other ≠ id → u'.isTaken other = u.isTaken other

/-- `TakeId` takes the id it returns, which was free, or returns 0 and changes nothing. -/
def Takes (u u' : UniqueId) (id : UInt32) : Prop :=
  u.isTaken id = false ∧ u'.isTaken id = true ∨ id = cInvalidId ∧ u' = u

/-- **The call is right.**  `TakeId` returns what `FindId` returns and takes it, `AddId` takes its
    id, `ReleaseId` tells whether the id was taken and frees it, `Clear` frees every id, and no
    other call changes whether another id is taken. -/
def IdOp.Right (u : UniqueId) : IdOp → Prop
  | .takeId => ∃ id u', u.findId = .ok id ∧ u.takeId = .ok (id, u') ∧ Takes u u' id ∧
    KeepsOthers u u' id
  | .findId => ∃ id, u.findId = .ok id
  | .addId id => (u.addId id).isTaken id = true ∧ KeepsOthers u (u.addId id) id
  | .releaseId id =>
    (u.releaseId id).1 = u.isTaken id ∧ (u.releaseId id).2.isTaken id = false ∧
      KeepsOthers u (u.releaseId id).2 id
  | .clear => ∀ id, u.clear.isTaken id = false

namespace UniqueId

variable {u : UniqueId}

/-! ### The id of a call, and the other ids -/

theorem isTaken_append (u : UniqueId) (id : UInt32) :
    isTaken { u with mUsedIds := u.mUsedIds ++ [id] } id = true := by
  simp [isTaken]

theorem KeepsOthers.refl (u : UniqueId) (id : UInt32) : KeepsOthers u u id := fun _ _ => rfl

theorem keepsOthers_append (u : UniqueId) (id : UInt32) :
    KeepsOthers u { u with mUsedIds := u.mUsedIds ++ [id] } id := by
  intro other hother
  simp [isTaken, hother]

theorem keepsOthers_erase (u : UniqueId) (id : UInt32) :
    KeepsOthers u { u with mUsedIds := u.mUsedIds.erase id } id := by
  intro other hother
  unfold isTaken
  rw [Bool.eq_iff_iff, List.contains_iff_mem, List.contains_iff_mem]
  exact List.mem_erase_of_ne hother

/-! ### One call -/

/-- When there is an id after the range, the scan ends. -/
theorem exists_scan (hmax : u.mMax ≠ 0xFFFFFFFF) : ∃ found, u.scan = .ok found := by
  by_cases hfull : u.Full
  · exact ⟨none, scan_of_full hfull hmax⟩
  · obtain ⟨id, hscan, -, -⟩ := scan_of_not_full hfull
    exact ⟨some id, hscan⟩

/-- `TakeId` and `FindId`, whatever the scan finds. -/
theorem right_takeId (hmax : u.mMax ≠ 0xFFFFFFFF) : IdOp.takeId.Right u := by
  obtain ⟨found, hscan⟩ := exists_scan hmax
  unfold IdOp.Right findId takeId
  rw [hscan]
  cases found with
  | none => exact ⟨cInvalidId, u, rfl, rfl, .inr ⟨rfl, rfl⟩, KeepsOthers.refl u _⟩
  | some id =>
    exact ⟨id, _, rfl, rfl, .inl ⟨isTaken_of_scan hscan, isTaken_append u id⟩,
      keepsOthers_append u id⟩

/-- **Every call is right** as long as the ids in use are distinct. -/
theorem right_of_distinct (hmax : u.mMax ≠ 0xFFFFFFFF) (hu : u.Distinct) (op : IdOp) :
    op.Right u := by
  cases op with
  | takeId => exact right_takeId hmax
  | findId =>
    obtain ⟨id, -, hfind, -⟩ := right_takeId hmax
    exact ⟨id, hfind⟩
  | addId id =>
    show (u.addId id).isTaken id = true ∧ KeepsOthers u (u.addId id) id
    unfold addId
    -- An id that is taken already is not put in again.
    split_ifs with htaken
    · exact ⟨htaken, KeepsOthers.refl u id⟩
    · exact ⟨isTaken_append u id, keepsOthers_append u id⟩
  | releaseId id =>
    obtain ⟨hresult, hfree⟩ := releaseId_spec hu id
    refine ⟨hresult, hfree, ?_⟩
    unfold releaseId
    split_ifs
    · exact keepsOthers_erase u id
    · exact KeepsOthers.refl u id
  | clear => exact fun _ => rfl

/-! ### Every sequence of calls -/

/-- The ids in use are distinct, and there is an id after the range. -/
structure Kept (u : UniqueId) : Prop where
  distinct : u.Distinct
  below : u.mMax ≠ 0xFFFFFFFF

/-- **The step lemma.** -/
theorem Kept.step (h : u.Kept) (op : IdOp) : ∃ u', op.step u = .ok u' ∧ u'.Kept := by
  have hcall : ∀ (call : IdCall) u', call.step u = .ok u' → u'.Kept := fun call u' hu' =>
    ⟨step_distinct u call u' hu' h.distinct, by
      rw [(step_range hu').2]
      exact h.below⟩
  cases op with
  | takeId =>
    obtain ⟨id, u', -, htake, -⟩ := right_takeId h.below
    have hstep : IdCall.takeId.step u = .ok u' := by
      unfold IdCall.step
      rw [htake]
      rfl
    exact ⟨u', hstep, hcall _ u' hstep⟩
  | findId =>
    -- `FindId` makes the same scan and changes nothing.
    obtain ⟨id, -, hfind, -⟩ := right_takeId h.below
    refine ⟨u, ?_, h⟩
    unfold IdOp.step
    rw [hfind]
    rfl
  | addId id => exact ⟨u.addId id, rfl, hcall (.addId id) _ rfl⟩
  | releaseId id => exact ⟨(u.releaseId id).2, rfl, hcall (.releaseId id) _ rfl⟩
  | clear => exact ⟨u.clear, rfl, hcall .clear _ rfl⟩

/-- **The bookkeeping of ids.**  When there is an id after the range, every sequence of calls ends,
    the ids in use are distinct all along, and every call is right. -/
theorem bookkeeping {min max : UInt32} (hmax : (new min max).mMax < 0xFFFFFFFF)
    (ops : List IdOp) :
    Defined (run IdOp.step (new min max) ops) ∧
      Throughout IdOp.step Distinct (new min max) ops ∧
      Along IdOp.step (fun u op => op.Right u) (new min max) ops := by
  have hne : (new min max).mMax ≠ 0xFFFFFFFF := by
    intro heq
    rw [heq] at hmax
    exact absurd hmax (by decide)
  have hkept : (new min max).Kept := ⟨distinct_new min max, hne⟩
  have hstep : ∀ (u : UniqueId) op u', IdOp.step u op = .ok u' → u.Kept → u'.Kept := by
    intro u op u' hu' h
    obtain ⟨u₁, hu₁, hkept₁⟩ := h.step op
    rw [hu'] at hu₁
    exact Except.ok.inj hu₁ ▸ hkept₁
  have hall : Along IdOp.step (fun _ _ => True) (new min max) ops :=
    along_run hstep (fun _ _ _ => trivial) hkept ops
  obtain ⟨hdefined, hthroughout⟩ := throughout_along (fun _ op _ h => Kept.step h op) hall hkept
  exact ⟨hdefined, hthroughout.mono fun _ h => h.distinct,
    along_run hstep (fun _ op h => right_of_distinct h.below h.distinct op) hkept ops⟩

/-- A range of two ids, both taken, and an id outside it. -/
theorem bookkeeping_outside :
    let ops : List IdOp := [.takeId, .addId 7, .takeId, .takeId, .releaseId 7, .releaseId 7, .clear]
    Defined (run IdOp.step (new 1 2) ops) ∧ Throughout IdOp.step Distinct (new 1 2) ops ∧
      Along IdOp.step (fun u op => op.Right u) (new 1 2) ops :=
  bookkeeping (by decide) _

end UniqueId

end Icl.Util
