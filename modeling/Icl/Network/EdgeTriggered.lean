import Icl.Network.Deliveries

namespace Icl.Network

open Icl.Cxx Icl.Transition

/-!
# Input under edge-triggered `epoll`

The clients are registered with `EPOLLET`: an event is reported when bytes have arrived since the
last report, and never for bytes that were left behind.  `IncommingData` reads once for each event,
and at most `MAXRECV` bytes.

* `Channel.step` — one step of a plain TCP connection: bytes arrive, the event is reported, the
  server handles it;
* `NothingStranded` — what the server should keep up;
* `nothing_stranded_iff` — it does in exactly the runs in which each read takes all there is, or
  the event will be reported again.
-/

/-- A plain TCP connection, as the system and the server see it. -/
structure Channel where
  conn : Conn
  log : List Effect
  /-- The bytes that have arrived and that no `recv` has taken. -/
  pending : Bytes
  /-- Bytes have arrived since the last report. -/
  unreported : Bool
  /-- `epoll_wait` has reported the event, and the server has not handled it yet. -/
  reported : Bool
  /-- Not in the source: all the bytes that have arrived. -/
  arrived : Bytes

/-- What can happen to the connection. -/
inductive ChannelAct where
  | arrive (b : UInt8) (bs : Bytes)
  /-- `epoll_wait` returns the event.  The system looks first whether there is anything to read. -/
  | report
  | incommingData
  deriving DecidableEq, Repr

namespace Channel

/-- A connection that has just been accepted. -/
def start (serial socket : Nat) : Channel :=
  { conn := .new serial socket false, log := [], pending := [], unreported := false
    reported := false, arrived := [] }

/-- The event would be reported by `epoll_wait`. -/
def ready (c : Channel) : Bool := c.unreported && !c.pending.isEmpty

/-- One step of the connection.  `recv` returns as many bytes as it is asked for. -/
def step (c : Channel) : ChannelAct → Except Fault Channel
  | .arrive b bs =>
    return { c with
      pending := c.pending ++ b :: bs
      unreported := true
      arrived := c.arrived ++ b :: bs }
  | .report =>
    return if c.ready && !c.reported then { c with unreported := false, reported := true } else c
  | .incommingData =>
    if c.reported then do
      let answers := wholeRecv c.pending
      let (conn, effects) ← Network.incommingData c.conn answers
      return { c with
        conn
        log := c.log ++ effects
        pending := c.pending.drop (recv [] 0 answers.recv).2.length
        reported := false }
    else return c

/-- The bytes that have been handed over to `ReadData` jobs. -/
def handedOver (c : Channel) : Bytes := (deliveredPayloads c.log).flatten

end Channel

/-- **Nothing is stranded**: when the server waits and `epoll_wait` has nothing to report, all that
    has arrived has been handed over. -/
def NothingStranded (c : Channel) : Prop :=
  c.reported = false → c.ready = false → c.handedOver = c.arrived

/-- A read takes all there is, or more bytes have arrived since the event was reported. -/
def ReadsEnough (c : Channel) : ChannelAct → Prop
  | .incommingData => c.reported = true → c.pending.length ≤ maxRecv ∨ c.unreported = true
  | _ => True

/-- What one `Recv` takes when `recv` returns what it is asked for. -/
theorem recv_wholeRecv {bytes : Bytes} (hne : bytes ≠ []) :
    recv [] 0 (wholeRecv bytes).recv = (true, bytes.take maxRecv) := by
  obtain ⟨b, bs, rfl⟩ := List.exists_cons_of_ne_nil hne
  have hcap : (if (b :: bs).length > maxRecv then maxRecv else (b :: bs).length)
      = min maxRecv (b :: bs).length := by
    split_ifs <;> omega
  have htake : (b :: bs).take (min maxRecv (b :: bs).length) = (b :: bs).take maxRecv := by
    rw [List.take_eq_take_min, Nat.min_assoc, Nat.min_self, ← List.take_eq_take_min]
  -- The one `::recv` gives all that is asked for, so that the loop ends there.
  have hcount : min maxRecv (b :: bs).length - ((b :: bs).take maxRecv).length = 0 := by
    rw [List.length_take]
    omega
  have hresults : (wholeRecv (b :: bs)).recv.results = [.data b bs] := rfl
  have havail : (wholeRecv (b :: bs)).recv.available = (b :: bs).length := rfl
  rw [recv, havail, hresults, if_pos (by simp), hcap]
  simp only [gt_iff_lt, lt_self_iff_false, if_false, recvLoop, htake, hcount, List.nil_append]

/-- What holds of the connection after every step that reads enough. -/
structure ChannelInv (c : Channel) : Prop where
  plain : c.conn.peer.isWebSocket = false
  /-- Every byte has been handed over or is pending. -/
  kept : c.handedOver ++ c.pending = c.arrived
  /-- Only what is there is reported. -/
  reported : c.reported = true → c.pending ≠ []
  /-- What is pending has been reported, or will be. -/
  noticed : c.pending ≠ [] → c.reported = true ∨ c.unreported = true

theorem channelInv_start (serial socket : Nat) : ChannelInv (.start serial socket) where
  plain := rfl
  kept := rfl
  reported := by simp [Channel.start]
  noticed := by simp [Channel.start]

theorem ChannelInv.nothingStranded {c : Channel} (h : ChannelInv c) : NothingStranded c := by
  intro hreported hready
  have hempty : c.pending = [] := by
    by_contra hne
    rcases h.noticed hne with hr | hu
    · rw [hreported] at hr
      cases hr
    · simp [Channel.ready, hu, hne] at hready
  rw [← h.kept, hempty, List.append_nil]

/-- What one `IncommingData` does to the connection. -/
theorem Channel.step_incommingData {c : Channel} (h : ChannelInv c)
    (hreported : c.reported = true) : c.step .incommingData = .ok { c with
      conn := { c.conn with payload := c.pending.take maxRecv }
      log := c.log ++ [.enqueue (.readData { c.conn with payload := c.pending.take maxRecv })]
      pending := c.pending.drop maxRecv
      reported := false } := by
  have hrecv := recv_wholeRecv (h.reported hreported)
  have hdrop : c.pending.drop (c.pending.take maxRecv).length = c.pending.drop maxRecv := by
    rw [List.length_take]
    rcases Nat.le_total maxRecv c.pending.length with hle | hle
    · rw [Nat.min_eq_left hle]
    · rw [Nat.min_eq_right hle, List.drop_length, List.drop_eq_nil_of_le hle]
  simp only [Channel.step, hreported, if_true, Network.incommingData, hrecv, h.plain,
    Bool.false_eq_true, if_false, deliverData, ok_bind, hdrop]
  rfl

/-- One step that reads enough. -/
theorem ChannelInv.step {c c' : Channel} {a : ChannelAct} (h : ChannelInv c)
    (henough : ReadsEnough c a) (hstep : c.step a = .ok c') : ChannelInv c' := by
  cases a with
  | arrive b bs =>
    cases hstep
    refine ⟨h.plain, ?_, by simp, fun _ => .inr rfl⟩
    show c.handedOver ++ (c.pending ++ b :: bs) = c.arrived ++ b :: bs
    rw [← List.append_assoc, h.kept]
  | report =>
    cases hstep
    split_ifs with hready
    · have hne : c.pending ≠ [] := by
        simp only [Channel.ready, Bool.and_eq_true, Bool.not_eq_true', List.isEmpty_eq_false_iff]
          at hready
        exact hready.1.2
      exact ⟨h.plain, h.kept, fun _ => hne, fun _ => .inl rfl⟩
    · exact h
  | incommingData =>
    by_cases hreported : c.reported = true
    · rw [Channel.step_incommingData h hreported] at hstep
      cases hstep
      refine ⟨h.plain, ?_, by simp, fun hne => ?_⟩
      · -- What has been taken is handed over; the rest stays.
        have hhanded : Channel.handedOver { c with
            conn := { c.conn with payload := c.pending.take maxRecv }
            log := c.log ++ [.enqueue (.readData { c.conn with
              payload := c.pending.take maxRecv })]
            pending := c.pending.drop maxRecv
            reported := false } = c.handedOver ++ c.pending.take maxRecv := by
          simp [Channel.handedOver]
        rw [hhanded, List.append_assoc, List.take_append_drop, h.kept]
      · rcases henough hreported with hle | hunreported
        · exact absurd (List.drop_eq_nil_of_le hle) hne
        · exact .inr hunreported
    · rw [Channel.step, if_neg hreported] at hstep
      cases hstep
      exact h

/-- A read that leaves something behind, of which nothing more will be heard. -/
theorem ChannelInv.stranded {c : Channel} {a : ChannelAct} (h : ChannelInv c)
    (hnot : ¬ ReadsEnough c a) : ∃ c', c.step a = .ok c' ∧ ¬ NothingStranded c' := by
  cases a with
  | arrive b bs => exact absurd trivial hnot
  | report => exact absurd trivial hnot
  | incommingData =>
    simp only [ReadsEnough, not_forall, not_or, not_le, Bool.not_eq_true] at hnot
    obtain ⟨hreported, hmore, hunreported⟩ := hnot
    refine ⟨_, Channel.step_incommingData h hreported, fun hall => ?_⟩
    have hlost := hall rfl (by simp [Channel.ready, hunreported])
    -- All but the bytes that were left behind has been handed over.
    have hkept := h.kept
    simp only [Channel.handedOver, deliveredPayloads_append, deliveredPayloads_readData,
      List.flatten_append, List.flatten_singleton] at hlost hkept
    rw [← hkept, List.append_cancel_left_eq] at hlost
    have hlength := congrArg List.length hlost
    rw [List.length_take] at hlength
    omega

/-- **Input that is left behind.**  Nothing is stranded in any state of a run if and only if each
    read of the run takes all there is or leaves an event that has not been reported. -/
theorem nothing_stranded_iff (serial socket : Nat) (acts : List ChannelAct) :
    Throughout Channel.step NothingStranded (.start serial socket) acts ↔
      Along Channel.step ReadsEnough (.start serial socket) acts :=
  throughout_iff_along (fun _ h => h.nothingStranded) (fun _ _ _ h henough => h.step henough)
    (fun _ _ h hnot => h.stranded hnot) (channelInv_start serial socket) acts

/-- A connection on which more has arrived, and been reported, than one `Recv` takes. -/
def Channel.longArrival : Channel :=
  { conn := .new 0 8 false, log := [], pending := 0 :: List.replicate maxRecv 0, unreported := false
    reported := true, arrived := 0 :: List.replicate maxRecv 0 }

/-- A single arrival that is one byte too long. -/
theorem long_arrival_stranded :
    ¬ ∀ (serial socket : Nat) (acts : List ChannelAct),
      Throughout Channel.step NothingStranded (.start serial socket) acts := by
  intro h
  obtain ⟨-, h₁⟩ := h 0 8 [.arrive 0 (List.replicate maxRecv 0), .report, .incommingData]
  obtain ⟨-, h₂⟩ := h₁ _ rfl
  obtain ⟨-, h₃⟩ := h₂ Channel.longArrival rfl
  have hinv : ChannelInv .longArrival :=
    ⟨rfl, rfl, by simp [Channel.longArrival], by simp [Channel.longArrival]⟩
  have hnot : ¬ ReadsEnough .longArrival .incommingData := fun henough =>
    (henough rfl).elim (by simp [Channel.longArrival]) (by simp [Channel.longArrival])
  obtain ⟨c, hc, hstranded⟩ := hinv.stranded hnot
  exact hstranded (h₃ c hc)

end Icl.Network
