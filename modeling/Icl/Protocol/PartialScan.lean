import Icl.Protocol.HttpFileServer

namespace Icl.Protocol

open Icl.Cxx Icl.Network

/-!
# The scan of the partial requests

`ReadData` looks for the partial request of a connection with a range-based `for` over `mPartials`,
and `DeletePartialConn` erases from `mPartials` inside that loop.

* `partialLoop_pending` — as long as no partial request is completed, each one of the connection
  gets the segment, and the others stay as they are;
* `not_defined_partialLoop` — after an element has been erased, the loop stays inside `mPartials`
  only if it is over;
* `scansRight_iff` — when the scan does what it is for.
-/

variable {conn : Conn}

/-! ### What the scan is for -/

/-- A partial request of the connection gets the segment. -/
def withSegment (conn : Conn) (el : ChunkedData) : ChunkedData :=
  if sameConn conn el then appendSegment conn.payload el else el

/-- The segment completes the partial request, which is one of the connection. -/
def completes (conn : Conn) (el : ChunkedData) : Bool :=
  sameConn conn el && decide (el.totalSize ≤ (el.currentSize + conn.payload.length) % 2 ^ 32)

/-- What a segment makes of a partial request; one that is complete is taken out. -/
def afterSegment (conn : Conn) (el : ChunkedData) : Option ChunkedData :=
  if completes conn el then none else some (withSegment conn el)

/-- All accesses are to elements that are there, and each partial request gets what is its own. -/
def ScansRight (conn : Conn) (scan : PartialScan) : Prop :=
  ∃ scan', partialLoop conn scan.mPartials.length 0 scan = .ok scan' ∧
    scan'.mPartials = scan.mPartials.filterMap (afterSegment conn)

theorem withSegment_own {el : ChunkedData} (h : sameConn conn el = true) :
    withSegment conn el = appendSegment conn.payload el :=
  if_pos h

theorem withSegment_other {el : ChunkedData} (h : sameConn conn el = false) :
    withSegment conn el = el :=
  if_neg (by rw [h]; decide)

theorem map_withSegment_other {l : List ChunkedData} (h : ∀ el ∈ l, sameConn conn el = false) :
    l.map (withSegment conn) = l :=
  (List.map_congr_left fun el hel => withSegment_other (h el hel)).trans l.map_id'

theorem completes_other {el : ChunkedData} (h : sameConn conn el = false) :
    completes conn el = false := by
  rw [completes, h, Bool.false_and]

theorem completes_own {el : ChunkedData} (h : sameConn conn el = true) :
    completes conn el = true ↔
      el.totalSize ≤ (appendSegment conn.payload el).currentSize := by
  rw [completes, h, Bool.true_and, decide_eq_true_iff]
  rfl

theorem filterMap_pending {l : List ChunkedData} (h : ∀ el ∈ l, completes conn el = false) :
    l.filterMap (afterSegment conn) = l.map (withSegment conn) := by
  rw [← List.filterMap_eq_map]
  refine List.filterMap_congr fun el hel => ?_
  rw [afterSegment, if_neg (by rw [h el hel]; decide), Function.comp_apply]

/-! ### One turn of the loop -/

/-- A partial request that is not completed. -/
theorem partialLoop_step {scan : PartialScan} {front back : List ChunkedData} {el : ChunkedData}
    (n : Nat) (hparts : scan.mPartials = front ++ el :: back) (hel : completes conn el = false) :
    partialLoop conn (n + 1) front.length scan
      = partialLoop conn n (front.length + 1)
        { scan with mPartials := front ++ withSegment conn el :: back } := by
  have hget : scan.mPartials[front.length]? = some el := by simp [hparts]
  rw [partialLoop, hget]
  cases hsame : sameConn conn el with
  | false =>
    rw [withSegment_other hsame, ← hparts]
    simp only [hsame, Bool.false_eq_true, if_false]
  | true =>
    have hset : scan.mPartials.set front.length (appendSegment conn.payload el)
        = front ++ appendSegment conn.payload el :: back := by simp [hparts]
    have hless : ¬ (appendSegment conn.payload el).currentSize
        ≥ (appendSegment conn.payload el).totalSize := by
      intro hge
      rw [(completes_own hsame).mpr hge] at hel
      cases hel
    simp only [hsame, if_true, hset, if_neg hless, withSegment_own hsame]

/-- A partial request that is completed: the last one of the connection is erased. -/
theorem partialLoop_completed {scan : PartialScan} {front back : List ChunkedData}
    {el : ChunkedData} (n : Nat) (hparts : scan.mPartials = front ++ el :: back)
    (hel : completes conn el = true) :
    partialLoop conn (n + 1) front.length scan
      = partialLoop conn n (front.length + 1)
        { mPartials := deletePartialConn conn (front ++ appendSegment conn.payload el :: back)
          process := true
          request := { el.request with body := (appendSegment conn.payload el).data } } := by
  have hget : scan.mPartials[front.length]? = some el := by simp [hparts]
  have hset : scan.mPartials.set front.length (appendSegment conn.payload el)
      = front ++ appendSegment conn.payload el :: back := by simp [hparts]
  have hsame : sameConn conn el = true := (Bool.and_eq_true_iff.mp hel).1
  have hge : (appendSegment conn.payload el).currentSize
      ≥ (appendSegment conn.payload el).totalSize := (completes_own hsame).mp hel
  rw [partialLoop, hget]
  simp only [hsame, if_true, hset, if_pos hge]
  rfl

theorem length_deletePartialConn_le (l : List ChunkedData) :
    (deletePartialConn conn l).length ≤ l.length := by
  rw [deletePartialConn, List.length_reverse, ← @List.length_reverse _ l]
  exact List.length_eraseP_le

/-- One element is erased. -/
theorem length_deletePartialConn {l : List ChunkedData} {el : ChunkedData} (hmem : el ∈ l)
    (hel : sameConn conn el = true) : (deletePartialConn conn l).length = l.length - 1 := by
  rw [deletePartialConn, List.length_reverse,
    List.length_eraseP_of_mem (List.mem_reverse.mpr hmem) hel, List.length_reverse]

/-- The last element is erased, if it is one of the connection. -/
theorem deletePartialConn_concat (l : List ChunkedData) {el : ChunkedData}
    (hel : sameConn conn el = true) : deletePartialConn conn (l ++ [el]) = l := by
  rw [deletePartialConn, List.reverse_concat, List.eraseP_cons_of_pos hel, List.reverse_reverse]

/-! ### Runs of the loop -/

/-- **As long as nothing is completed**, the loop only adds the segment. -/
theorem partialLoop_pending (n : Nat) {scan : PartialScan} (front : List ChunkedData)
    {mid back : List ChunkedData} (hparts : scan.mPartials = front ++ (mid ++ back))
    (hmid : ∀ el ∈ mid, completes conn el = false) :
    partialLoop conn (mid.length + n) front.length scan
      = partialLoop conn n (front.length + mid.length)
        { scan with mPartials := front ++ (mid.map (withSegment conn) ++ back) } := by
  induction mid generalizing front scan with
  | nil =>
    rw [List.nil_append] at hparts
    rw [List.map_nil, List.nil_append, ← hparts, List.length_nil, Nat.zero_add, Nat.add_zero]
  | cons el mid ih =>
    obtain ⟨hel, hmid⟩ := List.forall_mem_cons.mp hmid
    have hfront : ({ scan with
        mPartials := front ++ withSegment conn el :: (mid ++ back) } : PartialScan).mPartials
        = (front ++ [withSegment conn el]) ++ (mid ++ back) := by simp
    have hrest := ih _ hfront hmid
    rw [List.length_append, List.length_singleton] at hrest
    rw [List.cons_append] at hparts
    rw [List.length_cons, Nat.add_right_comm, partialLoop_step _ hparts hel, hrest, List.map_cons,
      List.append_assoc, List.singleton_append, List.cons_append, Nat.add_assoc,
      Nat.add_comm 1 mid.length]

/-- A loop that has lost an element runs into the end. -/
theorem not_defined_partialLoop (n i : Nat) (scan : PartialScan)
    (hlength : scan.mPartials.length ≤ i + n) : ¬ Defined (partialLoop conn (n + 1) i scan) := by
  induction n generalizing i scan with
  | zero =>
    rw [partialLoop, List.getElem?_eq_none (by omega)]
    exact not_defined_error _
  | succ n ih =>
    cases hget : scan.mPartials[i]? with
    | none =>
      rw [partialLoop, hget]
      exact not_defined_error _
    | some el =>
      obtain ⟨hi, rfl⟩ := List.getElem?_eq_some_iff.mp hget
      have hsplit : scan.mPartials
          = scan.mPartials.take i ++ scan.mPartials[i] :: scan.mPartials.drop (i + 1) := by
        rw [List.getElem_cons_drop, List.take_append_drop]
      have hfront : (scan.mPartials.take i).length = i := List.length_take_of_le (by omega)
      have hsize (el : ChunkedData) :
          (scan.mPartials.take i ++ el :: scan.mPartials.drop (i + 1)).length ≤ i + 1 + n := by
        rw [List.length_append, hfront, List.length_cons, List.length_drop]
        omega
      -- A completed request shortens the list but never stops the loop, so it runs past the end all
      -- the same.
      cases hel : completes conn scan.mPartials[i] with
      | false =>
        have hstep := partialLoop_step (n + 1) hsplit hel
        rw [hfront] at hstep
        rw [hstep]
        exact ih _ _ (hsize _)
      | true =>
        have hstep := partialLoop_completed (n + 1) hsplit hel
        rw [hfront] at hstep
        rw [hstep]
        exact ih _ _ ((length_deletePartialConn_le _).trans (hsize _))

/-- A scan without a completed request, or up to the first one. -/
theorem pending_or_completed (conn : Conn) (l : List ChunkedData) :
    (∀ el ∈ l, completes conn el = false) ∨ ∃ mid el back, l = mid ++ el :: back ∧
      (∀ el ∈ mid, completes conn el = false) ∧ completes conn el = true := by
  cases hfind : l.find? (completes conn) with
  | none =>
    refine .inl fun el hel => ?_
    exact Bool.eq_false_iff.mpr (List.find?_eq_none.mp hfind el hel)
  | some el =>
    obtain ⟨hel, mid, back, rfl, hmid⟩ := List.find?_eq_some_iff_append.mp hfind
    refine .inr ⟨mid, el, back, rfl, fun el hmem => ?_, hel⟩
    rw [← Bool.not_eq_true', hmid el hmem]

/-- The whole scan, if no partial request is completed. -/
theorem partialLoop_none (scan : PartialScan)
    (h : ∀ el ∈ scan.mPartials, completes conn el = false) :
    partialLoop conn scan.mPartials.length 0 scan
      = .ok { scan with mPartials := scan.mPartials.map (withSegment conn) } := by
  have hrun := partialLoop_pending 0 [] (List.append_nil scan.mPartials).symm h
  rw [List.append_nil, List.nil_append] at hrun
  exact hrun

/-- The scan up to the first partial request that is completed. -/
theorem partialLoop_first {scan : PartialScan} {mid back : List ChunkedData} {el : ChunkedData}
    (hparts : scan.mPartials = mid ++ el :: back) (hmid : ∀ el ∈ mid, completes conn el = false)
    (hel : completes conn el = true) :
    partialLoop conn scan.mPartials.length 0 scan
      = partialLoop conn back.length (mid.length + 1)
        { mPartials := deletePartialConn conn
            (mid.map (withSegment conn) ++ appendSegment conn.payload el :: back)
          process := true
          request := { el.request with body := (appendSegment conn.payload el).data } } := by
  have hrun := partialLoop_pending (back.length + 1) [] hparts hmid
  rw [List.length_nil, Nat.zero_add, List.nil_append] at hrun
  have hlength : scan.mPartials.length = mid.length + (back.length + 1) := by simp [hparts]
  have hreached : ({ scan with
      mPartials := mid.map (withSegment conn) ++ el :: back } : PartialScan).mPartials
      = mid.map (withSegment conn) ++ el :: back := rfl
  have hturn := partialLoop_completed back.length hreached hel
  rw [List.length_map] at hturn
  rw [hlength, hrun, hturn]

/-- **The scan is right** exactly when the segment completes no partial request that stands before
    the last element of `mPartials`. -/
theorem scansRight_iff (conn : Conn) (scan : PartialScan) :
    ScansRight conn scan ↔ ∀ el ∈ scan.mPartials.dropLast, sameConn conn el = true →
      (el.currentSize + conn.payload.length) % 2 ^ 32 < el.totalSize := by
  have hcompletes (el : ChunkedData) : (sameConn conn el = true →
      (el.currentSize + conn.payload.length) % 2 ^ 32 < el.totalSize) ↔
        completes conn el = false := by
    rw [completes, Bool.and_eq_false_imp, decide_eq_false_iff_not, not_le]
  simp only [hcompletes]
  rcases pending_or_completed conn scan.mPartials with hnone | ⟨mid, el, back, hparts, hmid, hel⟩
  · refine ⟨fun _ el hmem => hnone el (List.dropLast_subset _ hmem), fun _ => ?_⟩
    exact ⟨_, partialLoop_none scan hnone, (filterMap_pending hnone).symm⟩
  · have hsame : sameConn conn el = true := (Bool.and_eq_true_iff.mp hel).1
    rw [ScansRight, partialLoop_first hparts hmid hel]
    cases back with
    | nil =>
      -- The loop is over when the last element has been erased.
      rw [hparts, List.dropLast_concat]
      refine ⟨fun _ => hmid, fun _ => ⟨_, rfl, ?_⟩⟩
      have hlast : afterSegment conn el = none := if_pos hel
      show deletePartialConn conn _ = _
      rw [deletePartialConn_concat _ (show sameConn conn (appendSegment conn.payload el) = true
        from hsame), List.filterMap_append, filterMap_pending hmid, List.filterMap_cons_none hlast,
        List.filterMap_nil, List.append_nil]
    | cons next back =>
      constructor
      · rintro ⟨scan', hloop, -⟩
        refine absurd ⟨scan', hloop⟩ (not_defined_partialLoop back.length (mid.length + 1) _ ?_)
        rw [length_deletePartialConn (List.mem_append_right _ (List.mem_cons_self ..))
          (show sameConn conn (appendSegment conn.payload el) = true from hsame)]
        simp only [List.length_append, List.length_map, List.length_cons]
        omega
      · intro h
        have hmem : el ∈ scan.mPartials.dropLast := by
          rw [hparts, List.dropLast_append_of_ne_nil (List.cons_ne_nil _ _)]
          exact List.mem_append_right _ (List.mem_cons_self ..)
        rw [h el hmem] at hel
        cases hel

/-- A partial request of which nothing has come yet. -/
def pendingOf (socket : Int) (totalSize : Nat) : ChunkedData where
  request := .new
  conn := Conn.new 0 socket false
  data := []
  currentSize := 0
  totalSize
  counter := 1

/-- Two partial requests are pending, and the first one is completed: the scan then reads the second
    place of `mPartials`, which has only one left. -/
theorem not_scansRight_first :
    ¬ ScansRight { Conn.new 0 3 false with payload := ascii "x" }
      { mPartials := [pendingOf 3 1, pendingOf 4 1], process := false, request := .new } := by
  rintro ⟨scan', hloop, -⟩
  cases hloop

end Icl.Protocol
