import Icl.Cxx.Buffer
import Icl.Network.TcpServer
import Icl.Transition.Loop

namespace Icl.Network

open Icl.Cxx Icl.Transition

/-!
# `TcpSocket::Write`, call by call

The loop of `Write` with its pointer, its remaining size and its counter, and with each `::send`:
what is offered to the socket, what the call returns and the `errno` it leaves.

* `Accounted` — the invariant: each offer is what remains of the input, the bytes accepted are a
  beginning of it, and the counter is their number;
* `turn_cases` — what one turn leads to;
* `writeCalls_ends` — how the loop ends, for every input and every sequence of results;
* `writeCalls_refines` — the loop is the one of `write`, in which the calls are left out;
* `sending_accounts` — `Write` and `Send`.
-/

/-! ### The functions -/

/-- The values of `errno` that are told apart. -/
inductive Errno where
  | eagain | einprogress | eintr | other (e : Nat)
  deriving DecidableEq, Repr

/-- `TcpSocket::AnalyzeSocketError`: whether to try again later. -/
def analyzeSocketError : Errno → Bool
  | .eagain | .einprogress | .eintr => true
  | .other _ => false

/-- What one `::send` returns, and the `errno` that it leaves. -/
structure SendResult where
  n : Int
  errno : Errno
  deriving DecidableEq, Repr

/-- A `::send` as the socket sees it. -/
structure SendCall where
  offered : Bytes
  n : Int
  deriving DecidableEq, Repr

/-- The bytes that the socket accepts. -/
def SendCall.taken (call : SendCall) : Bytes := call.offered.take call.n.toNat

/-- All the bytes that the socket has accepted. -/
def accepted (calls : List SendCall) : Bytes := calls.flatMap SendCall.taken

/-- The loop of `Write`.  `buf` is an offset into the input; the calls are not in the source. -/
structure Writing where
  size : UInt64
  buf : Nat
  written : UInt32
  calls : List SendCall
  deriving DecidableEq, Repr

/-- The result of `Write`, its `written` argument and the calls made. -/
structure WriteResult where
  ret : Bool
  written : UInt32
  calls : List SendCall
  deriving DecidableEq, Repr

/-- The loop of `Write` at its start. -/
def Writing.start (input : Bytes) : Writing :=
  { size := .ofNat input.length, buf := 0, written := 0, calls := [] }

/-- One turn of the loop; `results i` is the `i`-th `::send`. -/
def writeTurn (input : Bytes) (results : Nat → SendResult) (st : Writing) :
    Except Fault (Turn Writing WriteResult) :=
  if st.size > 0 then do
    let offered ← readBytes input st.buf st.size.toNat
    let result := results st.calls.length
    let calls := st.calls ++ [⟨offered, result.n⟩]
    -- `int n`, of a call that returns an `ssize_t`.
    let n := Int32.ofInt result.n
    if n < 0 then
      return .stop { ret := analyzeSocketError result.errno, written := st.written, calls }
    else
      return .next
        { size := st.size - .ofNat n.toInt.toNat
          buf := st.buf + n.toInt.toNat
          written := st.written + .ofNat n.toInt.toNat
          calls }
  else return .stop { ret := true, written := st.written, calls := st.calls }

/-- `TcpSocket::Write`.  A turn that goes on takes a byte off the size, unless a call returns 0. -/
def writeCalls (input : Bytes) (results : Nat → SendResult) : Except Fault WriteResult :=
  loop (writeTurn input results) (input.length + 1) (.start input)

/-- `req` of `TcpSocket::Send`. -/
def message (input : Bytes) (peer : Peer) : Bytes :=
  if peer.isWebSocket then buildWsFrame websocketOpcodeText input else input

/-- `TcpSocket::Send`, and the calls made. -/
def sendCalls (input : Bytes) (peer : Peer) (results : Nat → SendResult) :
    Except Fault (Bool × List SendCall) :=
  if peer.isValid then do
    let r ← writeCalls (message input peer) results
    return (r.ret && (message input peer).length == r.written.toNat, r.calls)
  else return (false, [])

/-! ### What `::send` may return -/

/-- For an offer of `size` bytes: a negative number, or between 1 and `size`, and an `int`. -/
def SendResult.Fits (r : SendResult) (size : Nat) : Prop :=
  -2 ^ 31 ≤ r.n ∧ r.n < 2 ^ 31 ∧ (r.n < 0 ∨ 1 ≤ r.n ∧ r.n ≤ size)

/-- Each result fits what it is offered. -/
def FitsAlong (input : Bytes) (results : Nat → SendResult) : Prop :=
  ∀ st, Reaches (writeTurn input results) (.start input) st → 0 < st.size →
    (results st.calls.length).Fits st.size.toNat

/-! ### The invariant -/

/-- **Every byte is accounted for.** -/
structure Accounted (input : Bytes) (written : UInt32) (calls : List SendCall) : Prop where
  /-- Each offer is what remains of the input. -/
  offers : ∀ i (h : i < calls.length),
    calls[i].offered = input.drop (accepted (calls.take i)).length
  /-- The bytes accepted are a beginning of the input. -/
  sent : accepted calls <+: input
  written : written = .ofNat (accepted calls).length

/-- The pointer and the size are those of what remains. -/
structure Writing.Kept (input : Bytes) (st : Writing) : Prop where
  accounted : Accounted input st.written st.calls
  buf : st.buf = (accepted st.calls).length
  size : st.buf + st.size.toNat = input.length

/-- A further call adds the bytes it has taken. -/
theorem accepted_append (calls : List SendCall) (call : SendCall) :
    accepted (calls ++ [call]) = accepted calls ++ call.taken := by
  unfold accepted
  rw [List.flatMap_append, List.flatMap_singleton]

/-- **One more call**, which offers what remains. -/
theorem Accounted.call {input : Bytes} {written : UInt32} {calls : List SendCall}
    (h : Accounted input written calls) (n : Int) :
    Accounted input (written + .ofNat (min n.toNat (input.length - (accepted calls).length)))
      (calls ++ [⟨input.drop (accepted calls).length, n⟩]) := by
  have htaken : accepted (calls ++ [⟨input.drop (accepted calls).length, n⟩])
      = accepted calls ++ (input.drop (accepted calls).length).take n.toNat :=
    accepted_append calls _
  refine ⟨?_, ?_, ?_⟩
  · intro i hi
    rw [List.length_append, List.length_singleton] at hi
    -- The calls there were offer what they offered; the new one offers what has not been accepted.
    by_cases hlast : i < calls.length
    · rw [List.getElem_append_left hlast, List.take_append_of_le_length (by omega)]
      exact h.offers i hlast
    · obtain rfl : i = calls.length := by omega
      rw [List.getElem_append_right (le_refl _), List.take_left' rfl]
      simp only [Nat.sub_self, List.getElem_cons_zero]
  · rw [htaken]
    obtain ⟨rest, hrest⟩ := h.sent
    rw [← hrest, List.drop_left' rfl, List.prefix_append_right_inj]
    exact List.take_prefix _ _
  · rw [htaken, List.length_append, List.length_take, List.length_drop, h.written,
      UInt32.ofNat_add]

/-! ### One turn -/

section Write

variable {input : Bytes} {results : Nat → SendResult} {st : Writing}

/-- At the start nothing is written and the whole buffer is left. -/
theorem kept_start (hlen : input.length < 2 ^ 64) : (Writing.start input).Kept input := by
  refine ⟨⟨nofun, List.nil_prefix, rfl⟩, rfl, ?_⟩
  show 0 + (UInt64.ofNat input.length).toNat = _
  rw [UInt64.toNat_ofNat', Nat.mod_eq_of_lt hlen, Nat.zero_add]

/-- The call that a turn makes. -/
def nextCall (input : Bytes) (results : Nat → SendResult) (st : Writing) : SendCall :=
  { offered := input.drop (accepted st.calls).length, n := (results st.calls.length).n }

/-- A call that fails takes nothing. -/
theorem taken_nextCall_of_neg (hn : (results st.calls.length).n < 0) :
    (nextCall input results st).taken = [] := by
  unfold SendCall.taken nextCall
  rw [Int.toNat_of_nonpos hn.le, List.take_zero]

/-- What remains is offered. -/
theorem Writing.Kept.offer (h : st.Kept input) :
    readBytes input st.buf st.size.toNat = .ok (input.drop (accepted st.calls).length) := by
  have hsize := h.size
  rw [readBytes_of_le (by omega), h.buf, List.take_of_length_le]
  rw [List.length_drop, ← h.buf]
  omega

/-- Everything is out. -/
theorem writeTurn_done (hsize : st.size.toNat = 0) :
    writeTurn input results st
      = .ok (.stop { ret := true, written := st.written, calls := st.calls }) := by
  have hzero : ¬ st.size > 0 := by
    rw [gt_iff_lt, UInt64.lt_iff_toNat_lt, hsize]
    exact lt_irrefl 0
  exact if_neg hzero

/-- A call fails. -/
theorem writeTurn_failed (h : st.Kept input) (hsize : 0 < st.size)
    (hfit : (results st.calls.length).Fits st.size.toNat)
    (hn : (results st.calls.length).n < 0) :
    writeTurn input results st
      = .ok (.stop { ret := analyzeSocketError (results st.calls.length).errno
                     written := st.written
                     calls := st.calls ++ [nextCall input results st] }) := by
  have hneg : Int32.ofInt (results st.calls.length).n < 0 := by
    rw [Int32.lt_iff_toInt_lt, Int32.toInt_ofInt_of_le hfit.1 hfit.2.1]
    exact hn
  unfold writeTurn
  rw [if_pos hsize, h.offer]
  simp only [ok_bind, pure_eq_ok, if_pos hneg]
  rfl

/-- The state after a call that accepts `m` bytes. -/
def Writing.after (input : Bytes) (results : Nat → SendResult) (st : Writing) (m : Nat) : Writing :=
  { size := st.size - .ofNat m
    buf := st.buf + m
    written := st.written + .ofNat m
    calls := st.calls ++ [nextCall input results st] }

/-- A call accepts a part of what it is offered. -/
theorem writeTurn_goes_on (h : st.Kept input) (hsize : 0 < st.size)
    (hfit : (results st.calls.length).Fits st.size.toNat)
    (hn : ¬ (results st.calls.length).n < 0) :
    writeTurn input results st
      = .ok (.next (st.after input results (results st.calls.length).n.toNat)) := by
  have hint : (Int32.ofInt (results st.calls.length).n).toInt = (results st.calls.length).n :=
    Int32.toInt_ofInt_of_le hfit.1 hfit.2.1
  have hnonneg : ¬ Int32.ofInt (results st.calls.length).n < 0 := by
    rw [Int32.lt_iff_toInt_lt, hint]
    exact hn
  unfold writeTurn
  rw [if_pos hsize, h.offer]
  simp only [ok_bind, pure_eq_ok, if_neg hnonneg, hint]
  rfl

/-- **The step lemma.** -/
theorem Writing.Kept.after (h : st.Kept input)
    (hfit : (results st.calls.length).Fits st.size.toNat)
    (hn : ¬ (results st.calls.length).n < 0) :
    (st.after input results (results st.calls.length).n.toNat).Kept input ∧
      (st.after input results (results st.calls.length).n.toNat).size.toNat < st.size.toNat := by
  obtain ⟨-, -, hbetween⟩ := hfit
  -- The call accepts `m` of the bytes that it is offered, at least one of them.
  obtain ⟨m, hm⟩ := Int.eq_ofNat_of_zero_le (not_lt.mp hn)
  have hbounds : 1 ≤ m ∧ m ≤ st.size.toNat := by omega
  have hsum := h.size
  have hbuf := h.buf
  have htaken : accepted (st.calls ++ [nextCall input results st])
      = accepted st.calls ++ (input.drop (accepted st.calls).length).take m := by
    rw [accepted_append, SendCall.taken, nextCall, hm, Int.toNat_natCast]
  have hcount : (accepted (st.calls ++ [nextCall input results st])).length = st.buf + m := by
    rw [htaken, List.length_append, List.length_take, List.length_drop]
    omega
  rw [hm, Int.toNat_natCast]
  have hsub : (st.after input results m).size.toNat = st.size.toNat - m := by
    have hm64 : (UInt64.ofNat m).toNat = m := by
      have := st.size.toNat_lt
      rw [UInt64.toNat_ofNat', Nat.mod_eq_of_lt (by omega)]
    show (st.size - UInt64.ofNat m).toNat = _
    rw [UInt64.toNat_sub_of_le _ _ (by rw [UInt64.le_iff_toNat_le, hm64]; omega), hm64]
  refine ⟨⟨?_, hcount.symm, ?_⟩, ?_⟩
  · have hcall := h.accounted.call (results st.calls.length).n
    rw [hm, Int.toNat_natCast, Nat.min_eq_left (by omega), ← hm] at hcall
    exact hcall
  · rw [hsub]
    show st.buf + m + _ = _
    omega
  · rw [hsub]
    omega

/-- **What a turn leads to.** -/
theorem turn_cases (h : st.Kept input)
    (hfit : 0 < st.size → (results st.calls.length).Fits st.size.toNat) :
    (st.size.toNat = 0 ∧ writeTurn input results st
      = .ok (.stop { ret := true, written := st.written, calls := st.calls })) ∨
    (0 < st.size.toNat ∧ writeTurn input results st
      = .ok (.stop { ret := analyzeSocketError (results st.calls.length).errno
                     written := st.written
                     calls := st.calls ++ [nextCall input results st] }) ∧
      (results st.calls.length).n < 0) ∨
    (0 < st.size ∧ ¬ (results st.calls.length).n < 0 ∧ writeTurn input results st
      = .ok (.next (st.after input results (results st.calls.length).n.toNat))) := by
  -- As the source tests them: something is left, then the result of the call.
  by_cases hsize : 0 < st.size
  · by_cases hn : (results st.calls.length).n < 0
    · exact .inr (.inl ⟨UInt64.lt_iff_toNat_lt.mp hsize,
        writeTurn_failed h hsize (hfit hsize) hn, hn⟩)
    · exact .inr (.inr ⟨hsize, hn, writeTurn_goes_on h hsize (hfit hsize) hn⟩)
  · have hzero : st.size.toNat = 0 := by
      rw [UInt64.lt_iff_toNat_lt] at hsize
      exact Nat.eq_zero_of_not_pos hsize
    exact .inl ⟨hzero, writeTurn_done hzero⟩

/-! ### The whole loop -/

/-- The number of bytes that the first `k` results make, all of them being numbers of bytes. -/
def sumFirst (results : Nat → SendResult) (k : Nat) : Nat :=
  ((List.range k).map fun i => (results i).n.toNat).sum

/-- The sum of one result more. -/
theorem sumFirst_succ (results : Nat → SendResult) (k : Nat) :
    sumFirst results (k + 1) = sumFirst results k + (results k).n.toNat := by
  unfold sumFirst
  rw [List.range_succ, List.map_append, List.sum_append, List.map_singleton, List.sum_singleton]

/-- The invariant of a run: the state is one that the loop comes to, by calls that do not fail. -/
structure OnRun (input : Bytes) (results : Nat → SendResult) (st : Writing) : Prop where
  kept : st.Kept input
  reaches : Reaches (writeTurn input results) (.start input) st
  succeed : ∀ i < st.calls.length, 0 ≤ (results i).n
  total : (accepted st.calls).length = sumFirst results st.calls.length

/-- Before the first call no result has been used. -/
theorem onRun_start (results : Nat → SendResult) (hlen : input.length < 2 ^ 64) :
    OnRun input results (.start input) :=
  ⟨kept_start hlen, .refl _, nofun, rfl⟩

/-- A turn that goes on keeps the invariant and takes bytes off the size. -/
theorem OnRun.next (hfits : FitsAlong input results) (st st' : Writing)
    (h : OnRun input results st) (hturn : writeTurn input results st = .ok (.next st')) :
    OnRun input results st' ∧ st'.size.toNat < st.size.toNat := by
  have hreach := h.reaches.trans (.next hturn (.refl st'))
  obtain ⟨-, hstop⟩ | ⟨-, hstop, -⟩ | ⟨hsize, hn, hnext⟩ :=
    turn_cases h.kept (hfits st h.reaches)
  · rw [hstop] at hturn
    cases hturn
  · rw [hstop] at hturn
    cases hturn
  · rw [hnext] at hturn
    cases hturn
    -- A turn that goes on has used one more result and left that much less.
    obtain ⟨hkept, hlt⟩ := h.kept.after (hfits st h.reaches hsize) hn
    have hcalls : (st.after input results (results st.calls.length).n.toNat).calls.length
        = st.calls.length + 1 := by
      show (st.calls ++ [nextCall input results st]).length = _
      rw [List.length_append, List.length_singleton]
    refine ⟨⟨hkept, hreach, ?_, ?_⟩, hlt⟩
    · intro i hi
      rw [hcalls] at hi
      obtain hlt | rfl := Nat.lt_succ_iff_lt_or_eq.mp hi
      · exact h.succeed i hlt
      · exact not_lt.mp hn
    · rw [hcalls, sumFirst_succ, ← h.total, ← h.kept.buf, ← hkept.buf]
      rfl

/-- Calls that accept `size` bytes together, or fewer and then fail: the `k` first ones succeed. -/
structure StopsAt (results : Nat → SendResult) (size k : Nat) : Prop where
  succeed : ∀ i < k, 0 ≤ (results i).n
  stop : sumFirst results k = size ∨
    sumFirst results k < size ∧ (results k).n < 0

/-- Whether everything is out then, or the call may be tried again. -/
def stopsWell (results : Nat → SendResult) (size k : Nat) : Bool :=
  sumFirst results k == size || analyzeSocketError (results k).errno

/-- A turn that stops. -/
theorem OnRun.stop (hfits : FitsAlong input results) {r : WriteResult} (h : OnRun input results st)
    (hturn : writeTurn input results st = .ok (.stop r)) :
    Accounted input r.written r.calls ∧ ∃ k, StopsAt results input.length k ∧
      (accepted r.calls).length = sumFirst results k ∧
      r.ret = stopsWell results input.length k := by
  have hbuf := h.kept.buf
  have hsum := h.kept.size
  have htotal := h.total
  obtain ⟨hsize, hstop⟩ | ⟨hsize, hstop, hn⟩ | ⟨-, -, hnext⟩ :=
    turn_cases h.kept (hfits st h.reaches)
  · rw [hstop] at hturn
    cases hturn
    have hall : sumFirst results st.calls.length = input.length := by omega
    refine ⟨h.kept.accounted, st.calls.length, ⟨h.succeed, .inl hall⟩, htotal, ?_⟩
    unfold stopsWell
    rw [hall, beq_self_eq_true, Bool.true_or]
  · rw [hstop] at hturn
    cases hturn
    -- The call that fails has accepted nothing, and bytes remain.
    have hless : sumFirst results st.calls.length < input.length := by omega
    have hcall := h.kept.accounted.call (results st.calls.length).n
    rw [Int.toNat_of_nonpos hn.le, Nat.zero_min, show UInt32.ofNat 0 = 0 from rfl,
      UInt32.add_zero] at hcall
    refine ⟨hcall, st.calls.length, ⟨h.succeed, .inr ⟨hless, hn⟩⟩, ?_, ?_⟩
    · rw [accepted_append, taken_nextCall_of_neg hn, List.append_nil, htotal]
    · unfold stopsWell
      rw [beq_eq_false_iff_ne.mpr hless.ne, Bool.false_or]
  · rw [hnext] at hturn
    cases hturn

/-- **How `Write` ends**, for every input. -/
theorem writeCalls_ends (hlen : input.length < 2 ^ 64) (hfits : FitsAlong input results) :
    ∃ r, writeCalls input results = .ok r ∧ Halts (writeTurn input results) (.start input) (.ok r) ∧
      Accounted input r.written r.calls ∧ ∃ k, StopsAt results input.length k ∧
        (accepted r.calls).length = sumFirst results k ∧
        r.ret = stopsWell results input.length k := by
  have hstart := onRun_start results hlen
  have hrun : ∀ st, Reaches (writeTurn input results) (.start input) st → OnRun input results st :=
    fun st hst => hst.invariant
      (fun st st' hturn h => (OnRun.next hfits st st' h hturn).1) hstart
  obtain ⟨r, hr⟩ := halts_total (OnRun.next hfits) hstart
  obtain ⟨result, rfl⟩ : Defined r := hr.defined fun st hst e hfault => by
    obtain ⟨-, hturn⟩ | ⟨-, hturn, -⟩ | ⟨-, -, hturn⟩ :=
      turn_cases (hrun st hst).kept (hfits st hst)
    all_goals
      rw [hturn] at hfault
      cases hfault
  obtain ⟨st, hst, hturn⟩ := hr.leads
  -- The size falls by one at least in every turn, so the fuel is enough.
  have hfuel : (Writing.start input).size.toNat < input.length + 1 := by
    have hsize := hstart.kept.size
    omega
  exact ⟨result, loop_of_halts (OnRun.next hfits) hstart hr hfuel, hr,
    (hrun st hst).stop hfits hturn⟩

/-- The counter of an input that it can count. -/
theorem Accounted.toNat_written {written : UInt32} {calls : List SendCall}
    (h : Accounted input written calls) (hlen : input.length < 2 ^ 32) :
    written.toNat = (accepted calls).length := by
  have hle := h.sent.length_le
  rw [h.written, UInt32.toNat_ofNat', Nat.mod_eq_of_lt (by omega)]

/-- **What `Write` does with an input and a sequence of results.** -/
structure Accounts (input : Bytes) (results : Nat → SendResult) : Prop where
  /-- All along, the bytes accepted are accounted for, and `written` is their number. -/
  along : ∀ st, Reaches (writeTurn input results) (.start input) st →
    Accounted input st.written st.calls ∧ st.written.toNat = (accepted st.calls).length
  /-- The loop ends, and they are then: it has gone on until everything was accepted or a call
      failed, and it returns which. -/
  ends : ∃ r, writeCalls input results = .ok r ∧ Accounted input r.written r.calls ∧
    r.written.toNat = (accepted r.calls).length ∧
    ∃ k, StopsAt results input.length k ∧ (accepted r.calls).length = sumFirst results k ∧
      r.ret = stopsWell results input.length k

/-- **`Write` accounts for every byte**: what it offers, what was accepted, and where it stops. -/
theorem write_accounts (hlen : input.length < 2 ^ 32) (hfits : FitsAlong input results) :
    Accounts input results := by
  constructor
  case along =>
    intro st hst
    have hrun : OnRun input results st := hst.invariant
      (fun st st' hturn h => (OnRun.next hfits st st' h hturn).1) (onRun_start results (by omega))
    exact ⟨hrun.kept.accounted, hrun.kept.accounted.toNat_written hlen⟩
  case ends =>
    obtain ⟨r, hr, -, haccounted, hstop⟩ := writeCalls_ends (by omega) hfits
    exact ⟨r, hr, haccounted, haccounted.toNat_written hlen, hstop⟩

/-! ### The loop without the calls -/

/-- What the result of a call tells to `write`. -/
def SendResult.answer (r : SendResult) : SendAnswer :=
  if r.n < 0 then .error (analyzeSocketError r.errno) else .accepted (r.n.toNat - 1)

/-- What `write` has come to. -/
def Writing.view (st : Writing) : Written :=
  { ret := true, written := st.written.toNat, sent := accepted st.calls }

/-- What `write` returns. -/
def WriteResult.view (r : WriteResult) : Written :=
  { ret := r.ret, written := r.written.toNat, sent := accepted r.calls }

/-- A turn that fails is the end of `write`, too. -/
theorem writeLoop_failed (h : st.Kept input) (hsize : 0 < st.size.toNat)
    (hn : (results st.calls.length).n < 0) (fuel : Nat) :
    writeLoop (fun i => (results i).answer) (fuel + 1) st.calls.length (input.drop st.buf) st.view
      = WriteResult.view { ret := analyzeSocketError (results st.calls.length).errno
                           written := st.written
                           calls := st.calls ++ [nextCall input results st] } := by
  have hsum := h.size
  have hmore : (input.drop st.buf).length > 0 := by
    rw [List.length_drop]
    omega
  have hanswer : (results st.calls.length).answer
      = .error (analyzeSocketError (results st.calls.length).errno) := if_pos hn
  unfold writeLoop WriteResult.view
  rw [if_pos hmore, hanswer, accepted_append, taken_nextCall_of_neg hn, List.append_nil]
  rfl

/-- A turn that goes on is one of `write`, too. -/
theorem writeLoop_after (h : st.Kept input)
    (hfit : (results st.calls.length).Fits st.size.toNat) (hsize : 0 < st.size.toNat)
    (hn : ¬ (results st.calls.length).n < 0) (fuel : Nat) :
    writeLoop (fun i => (results i).answer) (fuel + 1) st.calls.length (input.drop st.buf) st.view
      = writeLoop (fun i => (results i).answer) fuel
          (st.after input results (results st.calls.length).n.toNat).calls.length
          (input.drop (st.after input results (results st.calls.length).n.toNat).buf)
          (st.after input results (results st.calls.length).n.toNat).view := by
  obtain ⟨-, -, hbetween⟩ := hfit
  obtain ⟨m, hm⟩ := Int.eq_ofNat_of_zero_le (not_lt.mp hn)
  have hbounds : 1 ≤ m ∧ m ≤ st.size.toNat := by omega
  have hsum := h.size
  have hwritten := h.accounted.written
  have hbuf := h.buf
  have hlength : (input.drop st.buf).length = st.size.toNat := by
    rw [List.length_drop]
    omega
  have hanswer : (results st.calls.length).answer = .accepted (m - 1) := by
    unfold SendResult.answer
    rw [if_neg hn, hm, Int.toNat_natCast]
  -- `write` counts an answer from 0 on, since a call that goes well accepts at least one byte.
  have hmin : min (m - 1 + 1) (input.drop st.buf).length = m := by omega
  have hview : (st.after input results m).view
      = { st.view with
          written := (st.view.written + m) % 2 ^ 32
          sent := st.view.sent ++ (input.drop st.buf).take m } := by
    unfold Writing.view Writing.after
    simp only [accepted_append, SendCall.taken, nextCall, hm, Int.toNat_natCast, hbuf,
      UInt32.toNat_add, UInt32.toNat_ofNat', Nat.add_mod_mod]
  rw [hm, Int.toNat_natCast, writeLoop, if_pos (by omega), hanswer]
  dsimp only
  rw [hmin, List.drop_drop, hview]
  simp only [Writing.after, List.length_append, List.length_singleton]

/-- From a state of a run on. -/
theorem writeLoop_of_halts (hfits : FitsAlong input results)
    {result : WriteResult} (h : Halts (writeTurn input results) st (.ok result))
    (hst : OnRun input results st) {fuel : Nat} (hfuel : st.size.toNat ≤ fuel) :
    writeLoop (fun i => (results i).answer) fuel st.calls.length (input.drop st.buf) st.view
      = result.view := by
  generalize hr : Except.ok result = r at h
  induction h generalizing fuel with
  | fault _ => cases hr
  | @stop st last hturn =>
    cases hr
    obtain ⟨hsize, hstop⟩ | ⟨hsize, hstop, hn⟩ | ⟨-, -, hnext⟩ :=
      turn_cases hst.kept (hfits st hst.reaches)
    · rw [hstop] at hturn
      cases hturn
      -- No byte is left.
      have hnil : input.drop st.buf = [] := List.drop_of_length_le (by have := hst.kept.size; omega)
      rw [hnil]
      cases fuel with
      | zero => rfl
      | succ fuel => rfl
    · rw [hstop] at hturn
      cases hturn
      obtain ⟨fuel, rfl⟩ := Nat.exists_eq_succ_of_ne_zero (by omega : fuel ≠ 0)
      exact writeLoop_failed hst.kept hsize hn fuel
    · rw [hnext] at hturn
      cases hturn
  | @next st st' r hturn _ ih =>
    obtain ⟨hst', hlt⟩ := OnRun.next hfits st st' hst hturn
    obtain ⟨-, hstop⟩ | ⟨-, hstop, -⟩ | ⟨hsize, hn, hnext⟩ :=
      turn_cases hst.kept (hfits st hst.reaches)
    · rw [hstop] at hturn
      cases hturn
    · rw [hstop] at hturn
      cases hturn
    · rw [hnext] at hturn
      cases hturn
      obtain ⟨fuel, rfl⟩ := Nat.exists_eq_succ_of_ne_zero (by omega : fuel ≠ 0)
      rw [writeLoop_after hst.kept (hfits st hst.reaches hsize) (by omega) hn]
      exact ih hst' (by omega) hr

/-- **Refinement.**  Where the results fit, the loop is the one of `write`. -/
theorem writeCalls_refines (hlen : input.length < 2 ^ 64) (hfits : FitsAlong input results) :
    ∃ r, writeCalls input results = .ok r ∧
      write input (fun i => (results i).answer) = r.view := by
  have hstart := onRun_start results hlen
  have hsize : (Writing.start input).size.toNat = input.length := by
    have hsum := hstart.kept.size
    rwa [show (Writing.start input).buf = 0 from rfl, Nat.zero_add] at hsum
  obtain ⟨r, hr, hhalts, -⟩ := writeCalls_ends hlen hfits
  exact ⟨r, hr, writeLoop_of_halts hfits hhalts hstart hsize.le⟩

end Write

/-! ### `Send` -/

/-- A frame has at most ten bytes more than its data. -/
theorem length_message_le (input : Bytes) (peer : Peer) :
    (message input peer).length ≤ input.length + 10 := by
  unfold message buildWsFrame
  dsimp only
  split_ifs <;> simp

/-- **Sending accounts for every byte.**  `Write` offers what remains of its input, call after call,
    until everything is accepted or a call fails, and counts what is accepted; `Send` tells whether
    the whole message was. -/
theorem sending_accounts {input : Bytes} (hinput : input.length < 2 ^ 31) {peer : Peer}
    (hpeer : peer.isValid = true) :
    (∀ results, FitsAlong input results → Accounts input results) ∧
      ∀ results, FitsAlong (message input peer) results →
        Accounts (message input peer) results ∧
          ∃ success calls, sendCalls input peer results = .ok (success, calls) ∧
            (success = true ↔ accepted calls = message input peer) := by
  have hlen : (message input peer).length < 2 ^ 32 := by
    have hle := length_message_le input peer
    omega
  refine ⟨fun results hfits => write_accounts (by omega) hfits, fun results hfits => ?_⟩
  refine ⟨write_accounts hlen hfits, ?_⟩
  obtain ⟨r, hr, -, haccounted, k, -, hcount, hret⟩ := writeCalls_ends (by omega) hfits
  refine ⟨r.ret && (message input peer).length == r.written.toNat, r.calls, ?_, ?_⟩
  · unfold sendCalls
    rw [if_pos hpeer, hr]
    rfl
  · rw [Bool.and_eq_true, beq_iff_eq, haccounted.toNat_written hlen]
    -- Send says yes when the loop went well and all is written: both are the case when everything
    -- was accepted.
    constructor
    · rintro ⟨-, hall⟩
      exact haccounted.sent.eq_of_length hall.symm
    · intro hall
      rw [hall] at hcount
      refine ⟨?_, by rw [hall]⟩
      rw [hret, stopsWell, ← hcount, beq_self_eq_true, Bool.true_or]

/-- One byte, and then the socket takes no more. -/
def oneByte (i : Nat) : SendResult :=
  if i = 0 then { n := 1, errno := .other 0 } else { n := -1, errno := .eagain }

/-- A system that takes one byte at a time takes no more than it is offered. -/
theorem fitsAlong_oneByte (input : Bytes) : FitsAlong input oneByte := by
  intro st _ hsize
  have hpos : 1 ≤ st.size.toNat := UInt64.lt_iff_toNat_lt.mp hsize
  unfold oneByte SendResult.Fits
  split_ifs <;> dsimp only <;> omega

theorem sending_accounts_one_byte :
    Accounts [0x68, 0x69] oneByte ∧
      ∃ success calls, sendCalls [0x68, 0x69] ⟨7, true⟩ oneByte = .ok (success, calls) ∧
        (success = true ↔ accepted calls = message [0x68, 0x69] ⟨7, true⟩) := by
  have hpeer : Peer.isValid ⟨7, true⟩ = true := by decide
  have hinput : ([0x68, 0x69] : Bytes).length < 2 ^ 31 := by decide
  obtain ⟨hwrite, hsend⟩ := sending_accounts hinput hpeer
  exact ⟨hwrite oneByte (fitsAlong_oneByte _), (hsend oneByte (fitsAlong_oneByte _)).2⟩

end Icl.Network
