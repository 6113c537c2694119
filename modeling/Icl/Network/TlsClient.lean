import Icl.Network.Sending

namespace Icl.Network

open Icl.Cxx Icl.Transition

/-!
# `TlsClient`: the send callback

`send_cb` of `network/TlsClient.cpp`, and the loop of the TLS library that writes a record through
it.  The callback returns the whole length as soon as one byte has been accepted.

* `ReportsRight` — a positive result is the number of bytes accepted;
* `reportsRight_iff` — the sequences of results for which it is;
* `flush_sent` — a record written over several such callbacks is sent without a gap;
* `send_cb_reports` — the two together.
-/

/-! ### The functions -/

def mbedtlsErrSslWantWrite : Int32 := -0x6880
def mbedtlsErrSslInternalError : Int32 := -0x6C00

/-- `send_cb`, and the calls made.  The length, a `size_t`, is returned as an `int`. -/
def sendCb (buf : Bytes) (results : Nat → SendResult) : Except Fault (Int32 × List SendCall) := do
  let r ← writeCalls buf results
  let value :=
    if r.ret then
      if r.written > 0 then Int32.ofInt buf.length else mbedtlsErrSslWantWrite
    else mbedtlsErrSslInternalError
  return (value, r.calls)

/-- The loop that writes a record: `out_left`, the callbacks made, and what they have sent. -/
structure Flush where
  outLeft : Nat
  callbacks : Nat
  sent : Bytes
  deriving DecidableEq, Repr

/-- Nothing is written yet. -/
def Flush.start (record : Bytes) : Flush := { outLeft := record.length, callbacks := 0, sent := [] }

/-- `out_hdr - out_left`: what remains of the record. -/
def Flush.rest (record : Bytes) (st : Flush) : Bytes := record.drop (record.length - st.outLeft)

/-- One turn of the loop of `mbedtls_ssl_flush_output`; `answers j` are the results under the `j`-th
    callback.  When the socket takes nothing, `TlsClient::Write` calls again. -/
def flushTurn (record : Bytes) (answers : Nat → Nat → SendResult) (st : Flush) :
    Except Fault (Turn Flush (Int32 × Bytes)) :=
  if st.outLeft > 0 then do
    let r ← sendCb (st.rest record) (answers st.callbacks)
    let ret := r.1
    let sent := st.sent ++ accepted r.2
    if ret = mbedtlsErrSslWantWrite then
      return .next { st with callbacks := st.callbacks + 1, sent }
    else if ret ≤ 0 then
      return .stop (ret, sent)
    else if ret.toInt.toNat > st.outLeft then
      return .stop (mbedtlsErrSslInternalError, sent)
    else
      return .next { outLeft := st.outLeft - ret.toInt.toNat, callbacks := st.callbacks + 1, sent }
  else return .stop (0, st.sent)

/-! ### One callback -/

/-- **The callback does not over-report.**  A positive result is the number of bytes accepted. -/
def ReportsRight (buf : Bytes) (results : Nat → SendResult) : Prop :=
  ∃ value calls, sendCb buf results = .ok (value, calls) ∧
    (0 < value.toInt → accepted calls = buf.take value.toInt.toNat ∧
      value.toInt.toNat ≤ buf.length)

/-- Where the calls stop without an error, all of the `len` bytes are accepted, or none are.  The
    counter has 32 bits and the result is an `int`: a multiple of 2^32 counts as nothing, and a
    length that is no positive `int` reports nothing. -/
def Reportable (results : Nat → SendResult) (len : Nat) : Prop :=
  ∀ k, StopsAt results len k → stopsWell results len k = true →
    sumFirst results k % 2 ^ 32 = 0 ∨ (Int32.ofInt len).toInt ≤ 0 ∨
      (sumFirst results k : Int) = (Int32.ofInt len).toInt

section Callback

variable {buf : Bytes} {results : Nat → SendResult}

theorem sumFirst_mono {k k' : Nat} (h : k ≤ k') : sumFirst results k ≤ sumFirst results k' := by
  induction h with
  | refl => exact le_refl _
  | step _ ih => exact ih.trans (by rw [sumFirst_succ]; exact Nat.le_add_right _ _)

/-- The calls stop in one way. -/
theorem StopsAt.unique {size k k' : Nat} (h : StopsAt results size k)
    (h' : StopsAt results size k') :
    sumFirst results k = sumFirst results k' ∧
      stopsWell results size k = stopsWell results size k' := by
  have key : ∀ {i j}, StopsAt results size i → StopsAt results size j → i < j →
      sumFirst results i = size ∧ sumFirst results j = size := by
    intro i j hi hj hlt
    have hmono : sumFirst results i ≤ sumFirst results j := sumFirst_mono hlt.le
    have hsucceed := hj.succeed i hlt
    -- The calls go on behind `i`, so call `i` did not fail: nothing was left to send.
    obtain hall | ⟨-, hn⟩ := hi.stop
    · obtain hall' | ⟨hless, -⟩ := hj.stop
      · exact ⟨hall, hall'⟩
      · omega
    · omega
  unfold stopsWell
  obtain hlt | rfl | hlt := Nat.lt_trichotomy k k'
  · obtain ⟨hk, hk'⟩ := key h h' hlt
    simp [hk, hk']
  · exact ⟨rfl, rfl⟩
  · obtain ⟨hk', hk⟩ := key h' h hlt
    simp [hk, hk']

/-- **What the callback returns.** -/
theorem sendCb_eq (hlen : buf.length < 2 ^ 64) (hfits : FitsAlong buf results) :
    ∃ k calls, StopsAt results buf.length k ∧ accepted calls = buf.take (sumFirst results k) ∧
      sumFirst results k ≤ buf.length ∧
      sendCb buf results = .ok
        (if stopsWell results buf.length k then
          if sumFirst results k % 2 ^ 32 = 0 then mbedtlsErrSslWantWrite else Int32.ofInt buf.length
        else mbedtlsErrSslInternalError, calls) := by
  obtain ⟨r, hr, -, haccounted, k, hstops, hcount, hret⟩ := writeCalls_ends hlen hfits
  refine ⟨k, r.calls, hstops, ?_, ?_, ?_⟩
  · rw [← hcount]
    exact List.prefix_iff_eq_take.mp haccounted.sent
  · rw [← hcount]
    exact haccounted.sent.length_le
  · have hwritten : r.written > 0 ↔ ¬ sumFirst results k % 2 ^ 32 = 0 := by
      rw [gt_iff_lt, UInt32.lt_iff_toNat_lt, haccounted.written, UInt32.toNat_ofNat', hcount]
      exact Nat.pos_iff_ne_zero
    unfold sendCb
    rw [hr, ok_bind, hret]
    simp only [hwritten, ite_not]
    rfl

/-- Whether a callback reports right is a matter of what it returned. -/
theorem reportsRight_of_sendCb {value : Int32} {calls : List SendCall}
    (h : sendCb buf results = .ok (value, calls)) :
    ReportsRight buf results ↔ (0 < value.toInt →
      accepted calls = buf.take value.toInt.toNat ∧ value.toInt.toNat ≤ buf.length) := by
  unfold ReportsRight
  rw [h]
  constructor
  · rintro ⟨value', calls', heq, hright⟩
    cases heq
    exact hright
  · exact fun hright => ⟨value, calls, rfl, hright⟩

/-- The calls stop in one way, so one way is enough. -/
theorem reportable_at {len k : Nat} (hstops : StopsAt results len k) :
    Reportable results len ↔ (stopsWell results len k = true →
      sumFirst results k % 2 ^ 32 = 0 ∨ (Int32.ofInt len).toInt ≤ 0 ∨
        (sumFirst results k : Int) = (Int32.ofInt len).toInt) := by
  refine ⟨fun h => h k hstops, fun h k' hstops' hwell => ?_⟩
  obtain ⟨hsum, hwell'⟩ := hstops'.unique hstops
  rw [hsum]
  exact h (hwell' ▸ hwell)

/-- **One callback.** -/
theorem reportsRight_iff (hlen : buf.length < 2 ^ 64) (hfits : FitsAlong buf results) :
    ReportsRight buf results ↔ Reportable results buf.length := by
  obtain ⟨k, calls, hstops, haccepted, hle, hvalue⟩ := sendCb_eq hlen hfits
  rw [reportsRight_of_sendCb hvalue, reportable_at hstops, haccepted]
  by_cases hwell : stopsWell results buf.length k = true
  · by_cases hzero : sumFirst results k % 2 ^ 32 = 0
    · rw [if_pos hwell, if_pos hzero]
      exact iff_of_true (fun hpos => absurd hpos (by decide)) fun _ => .inl hzero
    · rw [if_pos hwell, if_neg hzero]
      constructor
      · intro h _
        refine .inr (or_iff_not_imp_left.mpr fun hpos => ?_)
        obtain ⟨htake, hbound⟩ := h (not_le.mp hpos)
        -- Both are parts of `buf`, so they are the same one only if they are as long.
        have hcount := congrArg List.length htake
        rw [List.length_take_of_le hle, List.length_take_of_le hbound] at hcount
        omega
      · intro h hpos
        obtain hzero' | hneg | hall := h hwell
        · exact absurd hzero' hzero
        · exact absurd hpos (not_lt.mpr hneg)
        · rw [← hall, Int.toNat_natCast]
          exact ⟨rfl, hle⟩
  · rw [if_neg hwell]
    exact iff_of_true (fun hpos => absurd hpos (by decide)) fun h => absurd h hwell

/-- A callback that reports nothing has sent nothing. -/
theorem sendCb_wantWrite (hlen : buf.length < 2 ^ 31) (hfits : FitsAlong buf results)
    {calls : List SendCall} (h : sendCb buf results = .ok (mbedtlsErrSslWantWrite, calls)) :
    accepted calls = [] := by
  obtain ⟨k, calls', hstops, haccepted, hle, hvalue⟩ := sendCb_eq (by omega) hfits
  rw [h] at hvalue
  obtain ⟨hv, hcalls⟩ := Prod.mk.inj (Except.ok.inj hvalue)
  have hint : (Int32.ofInt buf.length).toInt = buf.length :=
    Int32.toInt_ofInt_of_le (by omega) (by omega)
  rw [hcalls, haccepted]
  split_ifs at hv with hwell hzero
  · rw [Nat.mod_eq_of_lt (by omega)] at hzero
    rw [hzero, List.take_zero]
  · have hneg := congrArg Int32.toInt hv
    rw [hint] at hneg
    exact absurd hneg.symm (Int.natCast_nonneg _ |>.trans_lt' (by decide)).ne'
  · exact absurd hv (by decide)

end Callback

/-! ### A record -/

section Record

variable {record : Bytes} {answers : Nat → Nat → SendResult} {st : Flush}

/-- What has been sent is the beginning of the record, up to what is left. -/
structure Flush.Kept (record : Bytes) (st : Flush) : Prop where
  left : st.outLeft ≤ record.length
  sent : st.sent = record.take (record.length - st.outLeft)

theorem Flush.Kept.length_rest (h : st.Kept record) : (st.rest record).length = st.outLeft := by
  have hleft := h.left
  unfold Flush.rest
  rw [List.length_drop]
  omega

/-- Nothing is added to what is left. -/
theorem flush_left (hst : Reaches (flushTurn record answers) (.start record) st) :
    st.outLeft ≤ record.length := by
  have hstep : ∀ st st', flushTurn record answers st = .ok (.next st') →
      st.outLeft ≤ record.length → st'.outLeft ≤ record.length := by
    intro st st' hturn hleft
    unfold flushTurn at hturn
    split_ifs at hturn with hmore
    · obtain ⟨r, -, hturn⟩ := bind_eq_ok.mp hturn
      dsimp only at hturn
      split_ifs at hturn
      · cases hturn
        exact hleft
      · cases hturn
      · cases hturn
      · cases hturn
        exact (Nat.sub_le _ _).trans hleft
    · cases hturn
  exact hst.invariant hstep (le_refl _)

/-- **The step lemma.** -/
theorem Flush.Kept.step (hlen : record.length < 2 ^ 31) (h : st.Kept record)
    (hfits : FitsAlong (st.rest record) (answers st.callbacks))
    (hreport : Reportable (answers st.callbacks) st.outLeft) {st' : Flush}
    (hturn : flushTurn record answers st = .ok (.next st')) : st'.Kept record := by
  have hleft := h.left
  have hrest := h.length_rest
  rw [← hrest] at hreport
  obtain ⟨value, calls, hvalue, hright⟩ :=
    (reportsRight_iff (by omega) hfits).mpr hreport
  unfold flushTurn at hturn
  split_ifs at hturn with hmore
  · rw [hvalue, ok_bind] at hturn
    dsimp only at hturn
    split_ifs at hturn with hwant hneg htoo
    · -- The socket took nothing.
      rw [hwant] at hvalue
      cases hturn
      refine ⟨hleft, ?_⟩
      show st.sent ++ accepted calls = _
      rw [sendCb_wantWrite (by omega) hfits hvalue, List.append_nil]
      exact h.sent
    · cases hturn
    · cases hturn
    · have hpos : 0 < value.toInt := by
        rw [Int32.le_iff_toInt_le] at hneg
        exact not_le.mp hneg
      obtain ⟨haccepted, hbound⟩ := hright hpos
      cases hturn
      refine ⟨(Nat.sub_le _ _).trans hleft, ?_⟩
      show st.sent ++ accepted calls = record.take (record.length - (st.outLeft - _))
      rw [h.sent, haccepted, Flush.rest, ← List.take_add]
      congr 1
      omega
  · cases hturn

/-- The callbacks under which a record is written all report right. -/
def ReportableAlong (record : Bytes) (answers : Nat → Nat → SendResult) : Prop :=
  ∀ st, Reaches (flushTurn record answers) (.start record) st →
    Reportable (answers st.callbacks) st.outLeft

/-- The results under each of them fit. -/
def FitsRecord (record : Bytes) (answers : Nat → Nat → SendResult) : Prop :=
  ∀ st, Reaches (flushTurn record answers) (.start record) st →
    FitsAlong (st.rest record) (answers st.callbacks)

/-- **A record**, all along: what is not left has been sent. -/
theorem flush_kept (hlen : record.length < 2 ^ 31) (hfits : FitsRecord record answers)
    (hreport : ReportableAlong record answers)
    (hst : Reaches (flushTurn record answers) (.start record) st) : st.Kept record := by
  have hstart : (Flush.start record).Kept record := by
    refine ⟨le_refl _, ?_⟩
    show [] = record.take (record.length - record.length)
    rw [Nat.sub_self, List.take_zero]
  have hstep : ∀ st st', flushTurn record answers st = .ok (.next st') →
      st.Kept record ∧ Reaches (flushTurn record answers) (.start record) st →
      st'.Kept record ∧ Reaches (flushTurn record answers) (.start record) st' := by
    rintro st st' hturn ⟨hkept, hreach⟩
    exact ⟨hkept.step hlen (hfits st hreach) (hreport st hreach) hturn,
      hreach.trans (.next hturn (.refl st'))⟩
  exact (hst.invariant hstep ⟨hstart, .refl _⟩).1

end Record

/-! ### The callback and the record -/

/-- **The send callback.**  It reports right exactly where the calls stop before any byte or behind
    the last one, and a record that is written over such callbacks only is sent without a gap. -/
theorem send_cb_reports {buf : Bytes} {results : Nat → SendResult} (hlen : buf.length < 2 ^ 64)
    (hfits : FitsAlong buf results) :
    (ReportsRight buf results ↔ Reportable results buf.length) ∧
      ∀ record answers, record.length < 2 ^ 31 → FitsRecord record answers →
        ReportableAlong record answers →
        ∀ st, Reaches (flushTurn record answers) (.start record) st →
          st.sent = record.take (record.length - st.outLeft) :=
  ⟨reportsRight_iff hlen hfits, fun _ _ hlen hfits hreport _ hst =>
    (flush_kept hlen hfits hreport hst).sent⟩

/-- The socket takes nothing under the first callback, and then one byte at a time. -/
def byteByByte (j _ : Nat) : SendResult :=
  if j = 0 then { n := -1, errno := .eagain } else { n := 1, errno := .other 0 }

theorem fitsAlong_byteByByte (buf : Bytes) (j : Nat) : FitsAlong buf (byteByByte j) := by
  intro st _ hsize
  have hpos : 1 ≤ st.size.toNat := UInt64.lt_iff_toNat_lt.mp hsize
  unfold byteByByte SendResult.Fits
  split_ifs <;> dsimp only <;> omega

theorem reportable_byteByByte (j : Nat) {len : Nat} (hlen : len < 2 ^ 31) :
    Reportable (byteByByte j) len := by
  intro k hstops _
  have hint : (Int32.ofInt len).toInt = len := Int32.toInt_ofInt_of_le (by omega) (by omega)
  obtain hall | ⟨-, hn⟩ := hstops.stop
  · exact .inr (.inr (by rw [hall, hint]))
  · by_cases hj : j = 0
    · -- The first call fails already.
      obtain rfl : k = 0 := by
        by_contra hk
        have hfirst := hstops.succeed 0 (Nat.pos_of_ne_zero hk)
        rw [byteByByte, if_pos hj] at hfirst
        exact absurd hfirst (by decide)
      exact .inl rfl
    · rw [byteByByte, if_neg hj] at hn
      exact absurd hn (by decide)

theorem send_cb_reports_byte_by_byte :
    ReportsRight [0x61, 0x62] (byteByByte 1) ∧
      ∀ st, Reaches (flushTurn [0x61, 0x62] byteByByte) (.start [0x61, 0x62]) st →
        st.sent = ([0x61, 0x62] : Bytes).take (2 - st.outLeft) := by
  have hlen : ([0x61, 0x62] : Bytes).length < 2 ^ 31 := by decide
  obtain ⟨hiff, hrecord⟩ := send_cb_reports (Nat.lt_trans hlen (by decide))
    (fitsAlong_byteByByte [0x61, 0x62] 1)
  refine ⟨hiff.mpr (reportable_byteByByte 1 hlen), ?_⟩
  refine hrecord _ byteByByte hlen (fun st _ => fitsAlong_byteByByte _ _) fun st hst => ?_
  exact reportable_byteByByte _ (lt_of_le_of_lt (flush_left hst) hlen)

/-- Two bytes, of which the socket takes one: the callback reports both. -/
theorem not_reportsRight :
    ¬ ∀ buf results, FitsAlong buf results → ReportsRight buf results := by
  intro h
  obtain ⟨value, calls, hvalue, hright⟩ := h [0x61, 0x62] oneByte (fitsAlong_oneByte _)
  have hcb : sendCb [0x61, 0x62] oneByte
      = .ok (2, [⟨[0x61, 0x62], 1⟩, ⟨[0x62], -1⟩]) := by decide
  rw [hcb] at hvalue
  obtain ⟨rfl, rfl⟩ := Prod.mk.inj (Except.ok.inj hvalue)
  exact absurd (hright (by decide)).1 (by decide)

end Icl.Network
