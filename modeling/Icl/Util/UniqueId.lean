import Mathlib.Data.List.Nodup
import Icl.Transition.Loop
import Icl.Transition.Run

namespace Icl.Util

open Icl.Cxx Icl.Transition

/-!
# `UniqueId`

The model of `util/UniqueId.cpp`: a pool of ids in a range, some of them taken.

* `takeId` and the other operations;
* `Roomy` — the counter of the scan cannot leave the range unseen;
* `takesRight_iff` — when `TakeId` does what it has to;
* `throughout_distinct` — no id is taken twice;
* `takes_right_iff` — when `TakeId` does what it has to, along a run.
-/

/-- The class. -/
structure UniqueId where
  mMin : UInt32
  mMax : UInt32
  mUsedIds : List UInt32
  deriving DecidableEq, Repr

/-- `cInvalidId`. -/
def cInvalidId : UInt32 := 0

namespace UniqueId

/-- The constructor. -/
def new (min max : UInt32) : UniqueId :=
  let mMin := if min = 0 then 1 else min
  { mMin, mMax := if max ≤ mMin then mMin + 1 else max, mUsedIds := [] }

/-- `IsTaken`. -/
def isTaken (u : UniqueId) (id : UInt32) : Bool := u.mUsedIds.contains id

/-- A turn of the loop of `TakeId` and `FindId`: the id that is not used, or none at the end of the
    range. -/
def scanTurn (u : UniqueId) (i : UInt32) : Except Fault (Turn UInt32 (Option UInt32)) :=
  if i ≤ u.mMax then
    if u.isTaken i then .ok (.next (i + 1)) else .ok (.stop (some i))
  else .ok (.stop none)

/-- The loop.  There are no more than 2^32 values of the counter, so that a loop with more turns
    goes on for ever. -/
def scan (u : UniqueId) : Except Fault (Option UInt32) := loop u.scanTurn (2 ^ 32) u.mMin

/-- `FindId`. -/
def findId (u : UniqueId) : Except Fault UInt32 := do
  let found ← u.scan
  return found.getD cInvalidId

/-- `TakeId`. -/
def takeId (u : UniqueId) : Except Fault (UInt32 × UniqueId) := do
  match ← u.scan with
  | some i => return (i, { u with mUsedIds := u.mUsedIds ++ [i] })
  | none => return (cInvalidId, u)

/-- `AddId`. -/
def addId (u : UniqueId) (id : UInt32) : UniqueId :=
  if u.isTaken id then u else { u with mUsedIds := u.mUsedIds ++ [id] }

/-- `ReleaseId`. -/
def releaseId (u : UniqueId) (id : UInt32) : Bool × UniqueId :=
  if u.isTaken id then
    let u := { u with mUsedIds := u.mUsedIds.erase id }
    (!u.isTaken id, u)
  else (false, u)

/-- `Clear`. -/
def clear (u : UniqueId) : UniqueId := { u with mUsedIds := [] }

end UniqueId

/-- A call. -/
inductive IdCall where
  | takeId
  | addId (id : UInt32)
  | releaseId (id : UInt32)
  | clear
  deriving DecidableEq, Repr

/-- What a call does. -/
def IdCall.step (u : UniqueId) : IdCall → Except Fault UniqueId
  | .takeId => do
    let (_, u) ← u.takeId
    return u
  | .addId id => .ok (u.addId id)
  | .releaseId id => .ok (u.releaseId id).2
  | .clear => .ok u.clear

namespace UniqueId

variable {u : UniqueId}

/-! ### What is asked of the pool -/

/-- The range is one, without the invalid id. -/
def RangeOk (u : UniqueId) : Prop := 1 ≤ u.mMin ∧ u.mMin < u.mMax

/-- An id of the range. -/
def InRange (u : UniqueId) (id : UInt32) : Prop := u.mMin ≤ id ∧ id ≤ u.mMax

/-- Every id of the range is taken. -/
def Full (u : UniqueId) : Prop := ∀ id, u.InRange id → u.isTaken id = true

/-- `TakeId` ends, and takes an id of the range that was free, or returns 0 and changes nothing;
    the latter exactly when every id of the range is taken. -/
def TakesRight (u : UniqueId) : Prop :=
  ∃ id u', u.takeId = .ok (id, u') ∧
    (u.InRange id ∧ u.isTaken id = false ∧ u'.isTaken id = true ∨ id = cInvalidId ∧ u' = u) ∧
    (id = cInvalidId ∧ u' = u ↔ u.Full)

/-- The counter can go past the end of the range, or does not come there. -/
def Roomy (u : UniqueId) : Prop := u.mMax ≠ 0xFFFFFFFF ∨ ¬ u.Full

/-! ### The scan -/

/-- The counter after some turns. -/
theorem toNat_iterate (i : UInt32) (k : Nat) :
    ((· + 1)^[k] i).toNat = (i.toNat + k) % 2 ^ 32 := by
  induction k with
  | zero => exact (Nat.mod_eq_of_lt i.toNat_lt).symm
  | succ k ih =>
    rw [Function.iterate_succ_apply', UInt32.toNat_add, ih]
    simp [Nat.add_assoc]

/-- The counter stays in the range until its end. -/
theorem toNat_iterate_of_le {i m : UInt32} {k : Nat} (hk : i.toNat + k ≤ m.toNat) :
    ((· + 1)^[k] i).toNat = i.toNat + k := by
  have := m.toNat_lt
  rw [toNat_iterate, Nat.mod_eq_of_lt (by omega)]

/-- A turn at an id of the range. -/
theorem scanTurn_taken {i : UInt32} (hle : i ≤ u.mMax) (htaken : u.isTaken i = true) :
    u.scanTurn i = .ok (.next (i + 1)) := by
  rw [scanTurn, if_pos hle, if_pos htaken]

/-- The counter, in the range. -/
theorem inRange_iterate {k : Nat} (hk : u.mMin.toNat + k ≤ u.mMax.toNat) :
    u.InRange ((· + 1)^[k] u.mMin) := by
  simp only [InRange, UInt32.le_iff_toNat_le, toNat_iterate_of_le hk]
  omega

/-- An id of the range is a value of the counter. -/
theorem exists_iterate {id : UInt32} (h : u.InRange id) :
    ∃ k, u.mMin.toNat + k ≤ u.mMax.toNat ∧ (· + 1)^[k] u.mMin = id := by
  obtain ⟨hmin, hmax⟩ := h
  rw [UInt32.le_iff_toNat_le] at hmin hmax
  refine ⟨id.toNat - u.mMin.toNat, by omega, UInt32.toNat_inj.mp ?_⟩
  rw [toNat_iterate_of_le (m := u.mMax) (by omega)]
  omega

/-- **A free id**: the scan stops at the first one. -/
theorem scan_of_not_full (h : ¬ u.Full) :
    ∃ id, u.scan = .ok (some id) ∧ u.InRange id ∧ u.isTaken id = false := by
  -- The first turn at an id that is not taken.
  have hfree : ∃ k, u.mMin.toNat + k ≤ u.mMax.toNat ∧
      u.isTaken ((· + 1)^[k] u.mMin) = false := by
    simp only [Full, not_forall, Bool.not_eq_true] at h
    obtain ⟨id, hid, hfree⟩ := h
    obtain ⟨k, hk, rfl⟩ := exists_iterate hid
    exact ⟨k, hk, hfree⟩
  obtain ⟨hle, hnot⟩ := Nat.find_spec hfree
  refine ⟨_, loop_iterate (f := (· + 1)) (n := Nat.find hfree) ?_ ?_ ?_,
    inRange_iterate hle, hnot⟩
  · intro k hk
    have hk' : u.mMin.toNat + k ≤ u.mMax.toNat := by omega
    have htaken : u.isTaken ((· + 1)^[k] u.mMin) = true := by
      by_contra hnot
      exact Nat.find_min hfree hk ⟨hk', Bool.eq_false_of_not_eq_true hnot⟩
    rw [Function.iterate_succ_apply']
    exact scanTurn_taken (inRange_iterate hk').2 htaken
  · rw [scanTurn, if_pos (inRange_iterate hle).2, if_neg (by rw [hnot]; exact Bool.false_ne_true)]
  · have := u.mMax.toNat_lt
    omega

/-- **No free id**: the scan stops after the end of the range, when there is an id after it. -/
theorem scan_of_full (h : u.Full) (hmax : u.mMax ≠ 0xFFFFFFFF) : u.scan = .ok none := by
  have hlt : u.mMax.toNat < 2 ^ 32 - 1 := by
    have := u.mMax.toNat_lt
    have hne : u.mMax.toNat ≠ 2 ^ 32 - 1 := fun heq => hmax (UInt32.toNat_inj.mp heq)
    omega
  have hmin := u.mMin.toNat_lt
  refine loop_iterate (f := (· + 1)) (n := u.mMax.toNat + 1 - u.mMin.toNat) ?_ ?_ (by omega)
  · intro k hk
    have hin : u.InRange ((· + 1)^[k] u.mMin) := inRange_iterate (by omega)
    rw [Function.iterate_succ_apply']
    exact scanTurn_taken hin.2 (h _ hin)
  · rw [scanTurn, if_neg]
    rw [UInt32.le_iff_toNat_le, toNat_iterate]
    omega

/-- Without an id after the range, the scan never sees its end. -/
theorem scan_ne_none (hmax : u.mMax = 0xFFFFFFFF) : u.scan ≠ .ok none := by
  intro h
  obtain ⟨i, hi⟩ := stops_of_loop h
  have hle : i ≤ u.mMax := by
    have := i.toNat_lt
    rw [hmax, UInt32.le_iff_toNat_le]
    show i.toNat ≤ 2 ^ 32 - 1
    omega
  rw [scanTurn, if_pos hle] at hi
  split_ifs at hi <;> cases hi

/-- What the scan finds is free. -/
theorem isTaken_of_scan {id : UInt32} (h : u.scan = .ok (some id)) : u.isTaken id = false := by
  obtain ⟨i, hi⟩ := stops_of_loop h
  rw [scanTurn] at hi
  split_ifs at hi with hle htaken
  · cases hi
  · cases hi
    simpa using htaken
  · cases hi

/-! ### `TakeId` -/

/-- **When `TakeId` does what it has to.** -/
theorem takesRight_iff (hrange : u.RangeOk) : u.TakesRight ↔ u.Roomy := by
  constructor
  · rintro ⟨id, u', htake, hresult, -⟩
    by_contra hnot
    obtain ⟨hmax, hfull⟩ : u.mMax = 0xFFFFFFFF ∧ u.Full := by
      simpa [Roomy, not_or] using hnot
    -- Some id is found, and none in the range is free.
    obtain ⟨found, hscan, htake⟩ := bind_eq_ok.mp htake
    cases found with
    | none => exact scan_ne_none hmax hscan
    | some i =>
      cases htake
      rcases hresult with ⟨hin, hfree, -⟩ | ⟨-, hsame⟩
      · rw [hfull _ hin] at hfree
        cases hfree
      · have := congrArg (fun u => u.mUsedIds.length) hsame
        simp at this
  · intro hroomy
    by_cases hfull : u.Full
    · have hmax : u.mMax ≠ 0xFFFFFFFF := hroomy.resolve_right (not_not.mpr hfull)
      refine ⟨cInvalidId, u, ?_, .inr ⟨rfl, rfl⟩, iff_of_true ⟨rfl, rfl⟩ hfull⟩
      rw [takeId, scan_of_full hfull hmax]
      rfl
    · obtain ⟨id, hscan, hin, hfree⟩ := scan_of_not_full hfull
      have hvalid : id ≠ cInvalidId := by
        rintro rfl
        exact absurd (UInt32.le_trans hrange.1 hin.1) (by decide)
      refine ⟨id, { u with mUsedIds := u.mUsedIds ++ [id] }, ?_, .inl ⟨hin, hfree, ?_⟩,
        iff_of_false (fun h => hvalid h.1) hfull⟩
      · rw [takeId, hscan]
        rfl
      · simp [isTaken]

/-- `FindId` tells the id that `TakeId` would take. -/
theorem findId_eq (u : UniqueId) : u.findId = Prod.fst <$> u.takeId := by
  rw [findId, takeId]
  cases u.scan with
  | error e => rfl
  | ok found => cases found <;> rfl

/-! ### The ids in use -/

/-- The ids in use are distinct. -/
def Distinct (u : UniqueId) : Prop := u.mUsedIds.Nodup

theorem distinct_new (min max : UInt32) : (new min max).Distinct := List.nodup_nil

/-- A free id is added. -/
theorem Distinct.append {id : UInt32} (h : u.Distinct) (hfree : u.isTaken id = false) :
    (u.mUsedIds ++ [id]).Nodup := by
  have hnot : id ∉ u.mUsedIds := by simpa [isTaken] using hfree
  rw [← List.concat_eq_append]
  exact List.Nodup.concat hnot h

theorem step_distinct (u : UniqueId) (call : IdCall) (u' : UniqueId) (h : call.step u = .ok u')
    (hu : u.Distinct) : u'.Distinct := by
  cases call with
  | takeId =>
    obtain ⟨⟨id, u₁⟩, htake, h⟩ := bind_eq_ok.mp h
    obtain ⟨found, hscan, htake⟩ := bind_eq_ok.mp htake
    cases h
    -- The scan gives an id that is not taken, or none.
    cases found with
    | none =>
      cases htake
      exact hu
    | some i =>
      cases htake
      exact hu.append (isTaken_of_scan hscan)
  | addId id =>
    cases h
    rw [addId]
    split_ifs with htaken
    · exact hu
    · exact hu.append (by simpa using htaken)
  | releaseId id =>
    cases h
    rw [releaseId]
    split_ifs
    · exact List.Nodup.erase _ hu
    · exact hu
  | clear =>
    cases h
    exact List.nodup_nil

/-- **The ids in use are distinct**, in every run. -/
theorem throughout_distinct (min max : UInt32) (calls : List IdCall) :
    Throughout IdCall.step Distinct (new min max) calls :=
  throughout_run step_distinct (distinct_new min max) calls

/-- A release succeeds exactly when the id was taken, and frees it. -/
theorem releaseId_spec (hu : u.Distinct) (id : UInt32) :
    (u.releaseId id).1 = u.isTaken id ∧ (u.releaseId id).2.isTaken id = false := by
  rw [releaseId]
  split_ifs with htaken
  · have hfree : id ∉ u.mUsedIds.erase id := fun h => (hu.mem_erase_iff.mp h).1 rfl
    rw [htaken]
    simp [isTaken, hfree]
  · simp [htaken]

/-! ### Along a run -/

/-- The constructor corrects every minimum but the greatest one. -/
theorem rangeOk_new {min max : UInt32} : (new min max).RangeOk ↔ min ≠ 0xFFFFFFFF := by
  have htop : min = 0xFFFFFFFF ↔ min.toNat = 2 ^ 32 - 1 := UInt32.toNat_inj.symm
  have hzero : min = 0 ↔ min.toNat = 0 := UInt32.toNat_inj.symm
  have := min.toNat_lt
  have := max.toNat_lt
  rw [Ne, htop]
  simp only [new, RangeOk, UInt32.le_iff_toNat_le, UInt32.lt_iff_toNat_lt]
  split_ifs with h h' h' <;> simp only [UInt32.toNat_add, UInt32.toNat_one, hzero] at * <;> omega

/-- No call changes the range. -/
theorem step_range {u' : UniqueId} {call : IdCall} (h : call.step u = .ok u') :
    u'.mMin = u.mMin ∧ u'.mMax = u.mMax := by
  cases call with
  | takeId =>
    obtain ⟨⟨id, u₁⟩, htake, h⟩ := bind_eq_ok.mp h
    obtain ⟨found, -, htake⟩ := bind_eq_ok.mp htake
    cases h
    cases found <;> cases htake <;> exact ⟨rfl, rfl⟩
  | addId id =>
    cases h
    rw [addId]
    split_ifs <;> exact ⟨rfl, rfl⟩
  | releaseId id =>
    cases h
    rw [releaseId]
    split_ifs <;> exact ⟨rfl, rfl⟩
  | clear =>
    cases h
    exact ⟨rfl, rfl⟩

theorem step_rangeOk (u : UniqueId) (call : IdCall) (u' : UniqueId) (h : call.step u = .ok u')
    (hrange : u.RangeOk) : u'.RangeOk := by
  obtain ⟨hmin, hmax⟩ := step_range h
  rwa [RangeOk, hmin, hmax]

/-- **When the pool hands out ids of its range only**: the minimum is not the greatest number, and
    `TakeId` is not called with the whole range taken when the range goes up to the greatest
    number. -/
theorem takes_right_iff (min max : UInt32) (calls : List IdCall) :
    (Throughout IdCall.step RangeOk (new min max) calls ∧
        Along IdCall.step (fun u call => call = .takeId → u.TakesRight) (new min max) calls) ↔
      min ≠ 0xFFFFFFFF ∧
        Along IdCall.step (fun u call => call = .takeId → u.Roomy) (new min max) calls := by
  have halong : (new min max).RangeOk → (Along IdCall.step (fun u call => call = .takeId →
        u.TakesRight) (new min max) calls ↔
      Along IdCall.step (fun u call => call = .takeId → u.Roomy) (new min max) calls) := by
    intro hrange
    refine along_congr step_rangeOk (fun u call hu => ?_) hrange calls
    rw [takesRight_iff hu]
  constructor
  · rintro ⟨hrange, hright⟩
    exact ⟨rangeOk_new.mp hrange.head, (halong hrange.head).mp hright⟩
  · rintro ⟨hmin, hroomy⟩
    have hrange : (new min max).RangeOk := rangeOk_new.mpr hmin
    exact ⟨throughout_run step_rangeOk hrange calls, (halong hrange).mpr hroomy⟩

/-- In a range of two ids that goes up to the greatest number, the third call returns 0 and takes
    it, and the fourth one returns 1. -/
theorem not_takes_right_top :
    ¬ (Throughout IdCall.step RangeOk (new 0xFFFFFFFE 0xFFFFFFFF)
        [.takeId, .takeId, .takeId, .takeId] ∧
      Along IdCall.step (fun u call => call = .takeId → u.TakesRight)
        (new 0xFFFFFFFE 0xFFFFFFFF) [.takeId, .takeId, .takeId, .takeId]) := by
  let pool (taken : List UInt32) : UniqueId := ⟨0xFFFFFFFE, 0xFFFFFFFF, taken⟩
  have hfirst : IdCall.takeId.step (pool []) = .ok (pool [0xFFFFFFFE]) := by decide +kernel
  have hsecond : IdCall.takeId.step (pool [0xFFFFFFFE])
      = .ok (pool [0xFFFFFFFE, 0xFFFFFFFF]) := by decide +kernel
  have hthird : IdCall.takeId.step (pool [0xFFFFFFFE, 0xFFFFFFFF])
      = .ok (pool [0xFFFFFFFE, 0xFFFFFFFF, 0]) := by decide +kernel
  have hfourth : (pool [0xFFFFFFFE, 0xFFFFFFFF, 0]).takeId
      = .ok (1, pool [0xFFFFFFFE, 0xFFFFFFFF, 0, 1]) := by decide +kernel
  rintro ⟨-, halong⟩
  obtain ⟨id, u', htake, hresult, -⟩ :=
    (((halong.2 _ hfirst).2 _ hsecond).2 _ hthird).1 rfl
  rw [hfourth] at htake
  cases htake
  rcases hresult with ⟨hin, -, -⟩ | ⟨hid, -⟩
  · exact absurd hin.1 (by decide)
  · exact absurd hid (by decide)

end UniqueId

end Icl.Util
