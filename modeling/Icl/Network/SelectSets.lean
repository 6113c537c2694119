import Icl.Network.SelectRuns
import Mathlib.Data.List.Perm.Subperm

namespace Icl.Network.SelectServer

open Icl.Cxx Icl.Transition

/-!
# What `select` waits for

A set of descriptors holds `FD_SETSIZE` of them, and `FD_SET` leaves out those that come later.

* `Sets` — the invariant of the master set: what it holds is a listening socket or a client;
* `AllWatched` — the listening sockets and the clients are all in it;
* `HasRoom` — a turn of `select` after which there are not too many of them;
* `select_watches` — the invariant in every run, and all of them in the runs of such turns; no
  descriptor is closed in any of them.
-/

/-! ### The sets -/

/-- The listening sockets and the clients. -/
def watchable (s : SelectServer) : List Int :=
  listening s.tcpServer s.wsServer ++ s.clients.map (·.peer.socket)

/-- **The invariant** of the master set. -/
structure Sets (s : SelectServer) : Prop where
  nodup : s.mMasterSet.Nodup
  few : s.mMasterSet.length ≤ fdSetSize
  only : ∀ fd ∈ s.mMasterSet, fd ∈ s.watchable

/-- No listening socket and no client is left out. -/
def AllWatched (s : SelectServer) : Prop := ∀ fd ∈ s.watchable, fd ∈ s.mMasterSet

/-- `FD_SET` puts in no other descriptor than its own. -/
theorem mem_of_mem_fdSet {fd fd' : Int} {set : List Int} (h : fd ∈ fdSet fd' set) :
    fd = fd' ∨ fd ∈ set := by
  rw [fdSet] at h
  split_ifs at h
  · exact .inr h
  · exact List.mem_cons.mp h
  · exact .inr h

/-- `FD_SET` takes nothing out. -/
theorem subset_fdSet (fd : Int) (set : List Int) : set ⊆ fdSet fd set := by
  rw [fdSet]
  split_ifs
  · exact fun _ => id
  · exact fun _ => List.mem_cons_of_mem fd
  · exact fun _ => id

/-- With room in the set the descriptor is there. -/
theorem mem_fdSet_self {fd : Int} {set : List Int} (h : set.length < fdSetSize) :
    fd ∈ fdSet fd set := by
  rw [fdSet]
  split_ifs with hmem
  · exact hmem
  · exact List.mem_cons_self

/-- A descriptor that is in the set is not put in again. -/
theorem nodup_fdSet {fd : Int} {set : List Int} (h : set.Nodup) : (fdSet fd set).Nodup := by
  rw [fdSet]
  split_ifs with hmem
  · exact h
  · exact List.nodup_cons.mpr ⟨hmem, h⟩
  · exact h

/-- The set never holds more than `FD_SETSIZE` descriptors. -/
theorem length_fdSet {fd : Int} {set : List Int} (h : set.length ≤ fdSetSize) :
    (fdSet fd set).length ≤ fdSetSize := by
  rw [fdSet]
  split_ifs with hmem hroom
  · exact h
  · exact hroom
  · exact h

/-- `FD_CLR` takes out its own descriptor and no other. -/
theorem mem_fdClr {fd fd' : Int} {set : List Int} : fd ∈ fdClr fd' set ↔ fd ∈ set ∧ fd ≠ fd' := by
  rw [fdClr, List.mem_filter, decide_eq_true_eq]

/-- A set that holds nothing else is no longer than the table. -/
theorem Sets.length_le {s : SelectServer} (h : Sets s) :
    s.mMasterSet.length ≤ (listening s.tcpServer s.wsServer).length + s.clients.length := by
  have hle := (List.subperm_of_subset h.nodup h.only).length_le
  rwa [watchable, List.length_append, List.length_map] at hle

/-- There are at most two listening sockets. -/
theorem listening_length (tcpServer wsServer : Peer) :
    (listening tcpServer wsServer).length ≤ 2 := by
  rw [listening, List.length_map]
  exact List.length_filter_le _ _

/-- **The sets at the start.** -/
theorem sets_start (tcpServer wsServer : Peer) :
    Sets (start tcpServer wsServer) ∧ AllWatched (start tcpServer wsServer) := by
  -- The listening sockets are put in one after the other, with room left for those to come.
  have hfold : ∀ (fds set : List Int), set.Nodup → set.length + fds.length ≤ fdSetSize →
      (fds.foldl (fun set fd => fdSet fd set) set).Nodup ∧
        (fds.foldl (fun set fd => fdSet fd set) set).length ≤ fdSetSize ∧
        ∀ fd, fd ∈ fds.foldl (fun set fd => fdSet fd set) set ↔ fd ∈ fds ∨ fd ∈ set := by
    intro fds
    induction fds with
    | nil => exact fun set hnodup hle => ⟨hnodup, hle, by simp⟩
    | cons fd fds ih =>
      intro set hnodup hle
      rw [List.length_cons] at hle
      have hlength : (fdSet fd set).length ≤ set.length + 1 := by
        rw [fdSet]
        split_ifs
        · exact Nat.le_succ _
        · exact le_rfl
        · exact Nat.le_succ _
      obtain ⟨hnodup', hle', hmem⟩ := ih (fdSet fd set) (nodup_fdSet hnodup) (by omega)
      refine ⟨hnodup', hle', fun fd' => ?_⟩
      rw [List.foldl_cons, hmem, List.mem_cons, or_assoc, or_left_comm]
      refine or_congr_right ⟨mem_of_mem_fdSet, ?_⟩
      rintro (rfl | hset)
      · exact mem_fdSet_self (by omega)
      · exact subset_fdSet fd set hset
  have htwo := listening_length tcpServer wsServer
  obtain ⟨hnodup, hle, hmem⟩ := hfold (listening tcpServer wsServer) [] List.nodup_nil
    (by rw [fdSetSize]; simpa using by omega)
  have hwatchable : (start tcpServer wsServer).watchable = listening tcpServer wsServer :=
    List.append_nil _
  refine ⟨⟨hnodup, hle, fun fd hfd => ?_⟩, fun fd hfd => ?_⟩
  · rw [hwatchable]
    simpa using (hmem fd).mp hfd
  · rw [hwatchable] at hfd
    exact (hmem fd).mpr (.inl hfd)

/-! ### Accepting -/

/-- A new client adds its own socket to those the server wants to watch. -/
theorem mem_watchable_withClient {s : SelectServer} {newPeer : Conn} {fd : Int} :
    fd ∈ (s.withClient newPeer).watchable ↔ fd ∈ s.watchable ∨ fd = newPeer.peer.socket := by
  show fd ∈ listening s.tcpServer s.wsServer ++ (s.clients ++ [newPeer]).map (·.peer.socket) ↔ _
  rw [List.map_append, ← List.append_assoc, List.mem_append, List.map_singleton,
    List.mem_singleton]
  rfl

/-- **A new client keeps the bounds of the set**, whether there is room for it or not. -/
theorem withClient_sets {s : SelectServer} (newPeer : Conn) (h : Sets s) :
    Sets (s.withClient newPeer) where
  nodup := nodup_fdSet h.nodup
  few := length_fdSet h.few
  only fd hfd := mem_watchable_withClient.mpr
    ((mem_of_mem_fdSet hfd).symm.imp_left (h.only fd))

/-- With room, the new client is watched. -/
theorem withClient_all {s : SelectServer} (newPeer : Conn) (h : Sets s) (hall : AllWatched s)
    (hroom : (listening s.tcpServer s.wsServer).length + s.clients.length < fdSetSize) :
    AllWatched (s.withClient newPeer) := by
  intro fd hfd
  rcases mem_watchable_withClient.mp hfd with hfd | rfl
  · exact subset_fdSet _ _ (hall fd hfd)
  · exact mem_fdSet_self (lt_of_le_of_lt h.length_le hroom)

/-- So do all the clients of one `IncommingConnection`. -/
theorem incommingConnection_sets {isWebSocket : Bool} (accepted : List Nat) {s : SelectServer}
    (h : Sets s) : Sets (s.incommingConnection isWebSocket accepted) := by
  induction accepted generalizing s with
  | nil => exact h
  | cons newSd accepted ih =>
    rw [incommingConnection_cons]
    exact ih (withClient_sets _ h)

/-- `IncommingConnection` adds one client for each socket it accepts. -/
theorem incommingConnection_length (isWebSocket : Bool) (accepted : List Nat) (s : SelectServer) :
    (s.incommingConnection isWebSocket accepted).clients.length
      = s.clients.length + accepted.length := by
  induction accepted generalizing s with
  | nil => rfl
  | cons newSd accepted ih =>
    rw [incommingConnection_cons, ih]
    show (s.clients ++ [_]).length + _ = _
    rw [List.length_append, List.length_singleton, List.length_cons]
    omega

/-- **While there is room, every new client is watched.** -/
theorem incommingConnection_all {isWebSocket : Bool} {accepted : List Nat} {s : SelectServer}
    (h : Sets s) (hall : AllWatched s)
    (hroom : (listening s.tcpServer s.wsServer).length + s.clients.length + accepted.length
      ≤ fdSetSize) : AllWatched (s.incommingConnection isWebSocket accepted) := by
  induction accepted generalizing s with
  | nil => exact hall
  | cons newSd accepted ih =>
    rw [List.length_cons] at hroom
    have hlength : (s.withClient (.new s.nextSerial newSd isWebSocket)).clients.length
        = s.clients.length + 1 := List.length_append
    have hroom' : (listening s.tcpServer s.wsServer).length
        + (s.withClient (.new s.nextSerial newSd isWebSocket)).clients.length + accepted.length
        ≤ fdSetSize := by omega
    rw [incommingConnection_cons]
    exact ih (withClient_sets _ h) (withClient_all _ h hall (by omega)) hroom'

/-! ### Turns -/

/-- How many connections are accepted in a turn, at most. -/
def arrivals (answers : PassAnswers) : Nat :=
  answers.tcpAccepted.length + answers.wsAccepted.length

/-- One listening socket of a pass: the bounds, the number of clients and, while there is room, that
    all are watched. -/
theorem listenOn_sets {s : SelectServer} (h : Sets s) (ready : List Int) (isWebSocket : Bool)
    (accepted : List Nat) : Sets (s.listenOn ready isWebSocket accepted) ∧
      (s.listenOn ready isWebSocket accepted).clients.length
        ≤ s.clients.length + accepted.length ∧
      (AllWatched s → (listening s.tcpServer s.wsServer).length + s.clients.length
        + accepted.length ≤ fdSetSize → AllWatched (s.listenOn ready isWebSocket accepted)) := by
  rw [listenOn]
  split_ifs
  all_goals first
    | exact ⟨incommingConnection_sets accepted h,
        le_of_eq (incommingConnection_length _ accepted s), incommingConnection_all h⟩
    | exact ⟨h, Nat.le_add_right _ _, fun hall _ => hall⟩

/-- The same of both listening sockets of a pass. -/
theorem listened_sets {s : SelectServer} (h : Sets s) (ready : List Int) (answers : PassAnswers) :
    Sets (s.listened ready answers) ∧
      (s.listened ready answers).clients.length ≤ s.clients.length + arrivals answers ∧
      (AllWatched s → (listening s.tcpServer s.wsServer).length + s.clients.length
        + arrivals answers ≤ fdSetSize → AllWatched (s.listened ready answers)) := by
  obtain ⟨htcp, hlength, hall⟩ := listenOn_sets h ready false answers.tcpAccepted
  obtain ⟨hws, hlength', hall'⟩ := listenOn_sets htcp ready true answers.wsAccepted
  have hgrows := listenOn_grows ready false answers.tcpAccepted s
  rw [hgrows.tcpServer, hgrows.wsServer] at hall'
  refine ⟨hws, ?_, fun hwatched hroom => ?_⟩
  · rw [listened, arrivals]
    omega
  · rw [arrivals] at hroom
    exact hall' (hall hwatched (by omega)) (by omega)

/-- Clients that have been handled sit where they did. -/
theorem handled_watchable {s : SelectServer} {clients : List Conn} {effects : List SelectEffect}
    (hsame : clients.map Conn.ident = s.clients.map Conn.ident) :
    (s.handled clients effects).watchable = s.watchable := by
  have hsockets : clients.map (·.peer.socket) = s.clients.map (·.peer.socket) := by
    have := congrArg (List.map Prod.snd) hsame
    rwa [List.map_map, List.map_map] at this
  show listening s.tcpServer s.wsServer ++ clients.map (·.peer.socket) = _
  rw [hsockets]
  rfl

/-! ### Erasing -/

/-- A descriptor is left after several `FD_CLR` if it was in the set and none of them names it. -/
theorem mem_foldl_fdClr {fd : Int} {conns : List Conn} {set : List Int} :
    fd ∈ conns.foldl (fun set c => fdClr c.peer.socket set) set
      ↔ fd ∈ set ∧ ∀ c ∈ conns, fd ≠ c.peer.socket := by
  induction conns generalizing set with
  | nil => simp
  | cons conn conns ih =>
    rw [List.foldl_cons, ih, mem_fdClr, List.forall_mem_cons, and_assoc]

/-- `UpdateClients` takes the clients that it erases out of the set, and no others. -/
theorem mem_updateClients_master {s : SelectServer} (hwatching : Watching s) (hfresh : Fresh s)
    {fd : Int} (hfd : fd ∈ s.watchable) :
    (∀ c ∈ s.clients.filter mustErase, fd ≠ c.peer.socket) ↔ fd ∈ s.updateClients.watchable := by
  have hwatchable : s.updateClients.watchable = listening s.tcpServer s.wsServer
      ++ (s.clients.filter fun c => !mustErase c).map (·.peer.socket) := by
    rw [updateClients_eq]
    rfl
  rw [hwatchable, List.mem_append]
  rcases List.mem_append.mp hfd with hlistening | hclient
  · -- No client sits on a listening socket.
    refine iff_of_true (fun c hc heq => ?_) (.inl hlistening)
    have hknown := hwatching.known c (List.mem_filter.mp hc).1
    exact (List.nodup_append.mp hfresh).2.2 fd hlistening _ hknown heq
  · obtain ⟨c, hc, rfl⟩ := List.mem_map.mp hclient
    constructor
    · intro hnot
      refine .inr (List.mem_map.mpr ⟨c, List.mem_filter.mpr ⟨hc, ?_⟩, rfl⟩)
      cases herase : mustErase c with
      | false => rfl
      | true => exact absurd rfl (hnot c (List.mem_filter.mpr ⟨hc, herase⟩))
    · rintro (hlistening | hkept) c' hc' heq
      · have hknown := hwatching.known c hc
        exact (List.nodup_append.mp hfresh).2.2 _ hlistening _ hknown rfl
      · obtain ⟨c₁, hc₁, hsocket⟩ := List.mem_map.mp hkept
        obtain ⟨hc₁, hkeep⟩ := List.mem_filter.mp hc₁
        obtain ⟨hc', herase⟩ := List.mem_filter.mp hc'
        -- No two clients sit on one descriptor.
        rw [List.inj_on_of_nodup_map hwatching.sockets hc₁ hc' (hsocket.trans heq), herase] at hkeep
        cases hkeep

/-- **`UpdateClients` keeps the bounds of the set**, and those who stay are still watched. -/
theorem updateClients_sets {s : SelectServer} (hwatching : Watching s) (hfresh : Fresh s)
    (h : Sets s) : Sets s.updateClients ∧ (AllWatched s → AllWatched s.updateClients) := by
  have hmaster : s.updateClients.mMasterSet
      = (s.clients.filter mustErase).foldl (fun set c => fdClr c.peer.socket set) s.mMasterSet := by
    rw [updateClients_eq]
    rfl
  -- `FD_CLR` never makes the set longer or repeats a descriptor.
  have hsub : ∀ (conns : List Conn) (set : List Int),
      (conns.foldl (fun set c => fdClr c.peer.socket set) set).Sublist set := by
    intro conns
    induction conns with
    | nil => exact fun set => .refl set
    | cons conn conns ih => exact fun set => (ih _).trans List.filter_sublist
  refine ⟨⟨?_, ?_, fun fd hfd => ?_⟩, fun hall fd hfd => ?_⟩
  · rw [hmaster]
    exact h.nodup.sublist (hsub _ _)
  · rw [hmaster]
    exact (hsub _ _).length_le.trans h.few
  · rw [hmaster, mem_foldl_fdClr] at hfd
    exact (mem_updateClients_master hwatching hfresh (h.only fd hfd.1)).mp hfd.2
  · have hsubset : fd ∈ s.watchable := by
      rw [watchable, updateClients_eq] at hfd
      rcases List.mem_append.mp hfd with hfd | hfd
      · exact List.mem_append_left _ hfd
      · exact List.mem_append_right _ ((List.filter_sublist.map _).subset hfd)
    rw [hmaster, mem_foldl_fdClr]
    exact ⟨hall fd hsubset, (mem_updateClients_master hwatching hfresh hsubset).mpr hfd⟩

/-! ### Runs -/

/-- **One turn over the descriptors.** -/
theorem pass_sets {s s' : SelectServer} (hwatching : Watching s) (h : Sets s) {ready : List Int}
    {answers : PassAnswers} (hpass : s.pass ready answers = .ok s') (hfresh : Fresh s') :
    Sets s' ∧ s'.clients.length ≤ s.clients.length + arrivals answers ∧
      (AllWatched s → (listening s.tcpServer s.wsServer).length + s.clients.length
        + arrivals answers ≤ fdSetSize → AllWatched s') := by
  obtain ⟨clients, effects, hscan, rfl⟩ := pass_parts hpass
  obtain ⟨hsame, hquiet⟩ := scanClients_keeps hscan
  obtain ⟨hsets, hlength, hall⟩ := listened_sets h ready answers
  have hhandled := hfresh.of_grows (updateClients_grows _)
  have hlistened := listened_watching hwatching
    (hhandled.of_grows (handled_grows _ clients effects))
  have hscanned := scanClients_watching hlistened hsame hquiet
  -- Reading from the clients changes none of their sockets, so the same ones want to be watched.
  have hwatchable : ((s.listened ready answers).handled clients effects).watchable
      = (s.listened ready answers).watchable := handled_watchable hsame
  have hsets' : Sets ((s.listened ready answers).handled clients effects) :=
    ⟨hsets.nodup, hsets.few, fun fd hfd => hwatchable ▸ hsets.only fd hfd⟩
  -- What is left is the erasing, which needs the invariant of the state before it.
  obtain ⟨hupdated, hupdated'⟩ := updateClients_sets hscanned hhandled hsets'
  refine ⟨hupdated, ?_, fun hwatched hroom => hupdated' fun fd hfd => ?_⟩
  · rw [updateClients_eq]
    have hscanlength : clients.length = (s.listened ready answers).clients.length := by
      simpa using congrArg List.length hsame
    have hle : (clients.filter fun c => !mustErase c).length ≤ clients.length :=
      List.length_filter_le _ _
    show (clients.filter fun c => !mustErase c).length ≤ _
    omega
  · have hmem : fd ∈ ((s.listened ready answers).handled clients effects).watchable := hfd
    rw [hwatchable] at hmem
    exact hall hwatched hroom fd hmem

/-- The connections accepted in the turns from the `i`-th on, of which there are `n`. -/
def arrivalsFrom (answers : Nat → PassAnswers) : Nat → Nat → Nat
  | 0, _ => 0
  | n + 1, i => arrivals (answers i) + arrivalsFrom answers n (i + 1)

/-- **The turns over the descriptors.** -/
theorem passes_sets {n i : Nat} {s s' : SelectServer} (hwatching : Watching s) (h : Sets s)
    {ready : List Int} {answers : Nat → PassAnswers}
    (hpasses : passes ready answers n i s = .ok s') (hfresh : Fresh s') :
    s'.endServer = true ∨ Sets s' ∧
      (AllWatched s → (listening s.tcpServer s.wsServer).length + s.clients.length
        + arrivalsFrom answers n i ≤ fdSetSize → AllWatched s') := by
  induction n generalizing i s with
  | zero =>
    cases hpasses
    exact .inr ⟨h, fun hall _ => hall⟩
  | succ n ih =>
    rw [passes] at hpasses
    split_ifs at hpasses
    · cases hpasses
      exact .inl rfl
    · obtain ⟨s₁, hpass, hpasses⟩ := bind_eq_ok.mp hpasses
      have hfresh₁ := hfresh.of_grows (passes_grows hpasses)
      have hgrows := pass_grows hpass
      obtain ⟨hsets, hlength, hall⟩ := pass_sets hwatching h hpass hfresh₁
      -- The clients of the later passes come on top of those of the first one.
      refine (ih (pass_watching hwatching hpass hfresh₁) hsets hpasses).imp_right ?_
      rintro ⟨hsets', hall'⟩
      refine ⟨hsets', fun hwatched hroom => ?_⟩
      rw [hgrows.tcpServer, hgrows.wsServer] at hall'
      rw [arrivalsFrom] at hroom
      exact hall' (hall hwatched (by omega)) (by omega)

/-- **A turn of `select` after which there is room**: the listening sockets, the clients and those
    that are accepted in the turn fit into a set. -/
def HasRoom (s : SelectServer) : Action → Prop
  | .ready fds answers => (listening s.tcpServer s.wsServer).length + s.clients.length
      + arrivalsFrom answers fds.length 0 ≤ fdSetSize
  | .failed _ | .expired _ => True

instance (s : SelectServer) : (action : Action) → Decidable (s.HasRoom action)
  | .ready fds answers =>
    inferInstanceAs (Decidable (_ + _ + arrivalsFrom answers fds.length 0 ≤ _))
  | .failed _ | .expired _ => isTrue trivial

/-- **What holds of a server that runs.** -/
structure Watches (s : SelectServer) : Prop where
  watching : Watching s
  alive : Alive s
  mReceiveFd : s.mReceiveFd = -1
  sets : Sets s

/-- **The step lemma.** -/
theorem step_watches {s s' : SelectServer} {action : Action} (hstep : s.step action = .ok s')
    (hfresh : Fresh s') (h : s.endServer = true ∨ Watches s) :
    s'.endServer = true ∨
      Watches s' ∧ (AllWatched s → s.HasRoom action → AllWatched s') := by
  have hwatching := step_watching hstep hfresh
    (h.imp_right fun h => ⟨h.watching, h.alive, h.mReceiveFd⟩)
  have hsame : s' = s → s'.endServer = true ∨
      Watches s' ∧ (AllWatched s → s.HasRoom action → AllWatched s') := by
    rintro rfl
    exact h.imp_right fun h => ⟨h, fun hall _ => hall⟩
  cases action with
  | ready fds answers =>
    rw [step] at hstep
    split_ifs at hstep with hend
    · exact hsame (Except.ok.inj hstep).symm
    · obtain ⟨s₁, hpasses, hstep⟩ := bind_eq_ok.mp hstep
      cases hstep
      have h := h.resolve_left hend
      rcases hwatching with hend' | ⟨hwatching', halive, hreceive⟩
      · exact .inl hend'
      -- The server has not ended in one of the turns.
      · cases hend₁ : s₁.endServer with
        | true => exact .inl ((endTurn_endServer s₁).trans hend₁)
        | false =>
          have hturn : s₁.endTurn = s₁ := by rw [endTurn, hend₁, if_neg Bool.false_ne_true]
          rw [hturn] at hfresh hwatching' halive hreceive ⊢
          refine .inr ?_
          rcases passes_sets h.watching h.sets hpasses hfresh with hend' | ⟨hsets, hall⟩
          · rw [hend₁] at hend'
            cases hend'
          · exact ⟨⟨hwatching', halive, hreceive, hsets⟩, hall⟩
  | failed retry | expired retry =>
    cases hstep
    split_ifs at hsame ⊢
    · exact hsame rfl
    · exact .inl (endTurn_endServer _)

/-- The invariant holds before the first turn. -/
theorem watches_start (tcpServer wsServer : Peer) : Watches (start tcpServer wsServer) where
  watching := watching_start tcpServer wsServer
  alive _ hc := absurd hc List.not_mem_nil
  mReceiveFd := rfl
  sets := (sets_start tcpServer wsServer).1

/-- **The run lemma.** -/
theorem watches_run {tcpServer wsServer : Peer} {actions : List Action} {s : SelectServer}
    (hrun : run step (start tcpServer wsServer) actions = .ok s) (hfresh : Fresh s)
    (hrunning : s.endServer = false) : Watches s := by
  have hback : ∀ (s : SelectServer) action s', s.step action = .ok s' → Fresh s' → Fresh s :=
    fun _ _ _ hstep hfresh => hfresh.of_grows (step_grows hstep)
  have hstep : ∀ (s : SelectServer) action s', s.step action = .ok s' → Fresh s' →
      (s.endServer = true ∨ Watches s) → (s'.endServer = true ∨ Watches s') :=
    fun _ _ _ hstep hfresh h => (step_watches hstep hfresh h).imp_right And.left
  rcases invariant_promised hback hstep hrun hfresh (.inr (watches_start _ _)) with hend | h
  · rw [hrunning] at hend
    cases hend
  · exact h

/-- The same for a run in which there always is room. -/
theorem allWatched_run {tcpServer wsServer : Peer} {actions : List Action} {s : SelectServer}
    (hrun : run step (start tcpServer wsServer) actions = .ok s) (hfresh : Fresh s)
    (hrunning : s.endServer = false)
    (hroom : Along step HasRoom (start tcpServer wsServer) actions) : AllWatched s := by
  have hstep : ∀ (s : SelectServer) action s', s.HasRoom action → s.step action = .ok s' →
      (Fresh s → s.endServer = true ∨ Watches s ∧ AllWatched s) →
      Fresh s' → s'.endServer = true ∨ Watches s' ∧ AllWatched s' := by
    intro s action s' hroom hstep h hfresh
    have h := h (hfresh.of_grows (step_grows hstep))
    -- Once the server has ended it stays so; until then the set goes on from the one before.
    rcases step_watches hstep hfresh (h.imp_right And.left) with hend | ⟨hwatches, hall⟩
    · exact .inl hend
    · rcases h with hend | ⟨-, hwatched⟩
      · exact .inl (step_ended hstep hend)
      · exact .inr ⟨hwatches, hall hwatched hroom⟩
  have hstart : Fresh (start tcpServer wsServer) → (start tcpServer wsServer).endServer = true ∨
      Watches (start tcpServer wsServer) ∧ AllWatched (start tcpServer wsServer) :=
    fun _ => .inr ⟨watches_start _ _, (sets_start _ _).2⟩
  rcases invariant_along hstep hroom hrun hstart hfresh with hend | h
  · rw [hrunning] at hend
    cases hend
  · exact h.2

/-- The maximum is one. -/
theorem le_maxSocket (tcpServer wsServer : Peer) (clients : List Conn) :
    tcpServer.socket ≤ maxSocket tcpServer wsServer clients ∧
      wsServer.socket ≤ maxSocket tcpServer wsServer clients ∧
      ∀ fd ∈ clients.map (·.peer.socket), fd ≤ maxSocket tcpServer wsServer clients := by
  rw [maxSocket]
  -- Without clients it is the greater of the two listening sockets, with clients the greatest of
  -- all.
  cases hmax : (clients.map (·.peer.socket)).max? with
  | none =>
    rw [List.max?_eq_none_iff.mp hmax]
    refine ⟨?_, ?_, by simp⟩
    · dsimp only
      split_ifs <;> omega
    · dsimp only
      split_ifs <;> omega
  | some pos =>
    have hle := (List.max?_eq_some_iff.mp hmax).2
    refine ⟨?_, ?_, fun fd hfd => ?_⟩
    · dsimp only
      split_ifs <;> omega
    · dsimp only
      split_ifs <;> omega
    · have hfd := hle fd hfd
      dsimp only
      split_ifs <;> omega

/-- **What `select` waits for**, in every run: only listening sockets and clients of the table, no
    more than a set holds; and all of them, if there is room for them in each turn.  No descriptor
    is closed while the server runs, so that those of the clients it has removed stay open. -/
theorem select_watches {tcpServer wsServer : Peer} {actions : List Action} {s : SelectServer}
    (hrun : run step (start tcpServer wsServer) actions = .ok s) (hfresh : Fresh s)
    (hrunning : s.endServer = false) :
    (∀ fd ∈ s.mMasterSet, fd ≤ s.mMaxSd ∧
      (fd ∈ listening s.tcpServer s.wsServer ∨ ∃ c ∈ s.clients, c.peer.socket = fd)) ∧
    s.mMasterSet.length ≤ fdSetSize ∧
    (Along step HasRoom (start tcpServer wsServer) actions → ∀ fd,
      (fd ∈ listening s.tcpServer s.wsServer ∨ ∃ c ∈ s.clients, c.peer.socket = fd) →
        fd ∈ s.mMasterSet) ∧
    ∀ fd, .close fd ∉ s.log := by
  have h := watches_run hrun hfresh hrunning
  have hwatchable : ∀ fd, fd ∈ s.watchable ↔
      fd ∈ listening s.tcpServer s.wsServer ∨ ∃ c ∈ s.clients, c.peer.socket = fd := fun fd => by
    rw [watchable, List.mem_append, List.mem_map]
  obtain ⟨htcp, hws, hclients⟩ := le_maxSocket s.tcpServer s.wsServer s.clients
  refine ⟨fun fd hfd => ⟨?_, (hwatchable fd).mp (h.sets.only fd hfd)⟩, h.sets.few,
    fun hroom fd hfd => ?_, h.watching.kept⟩
  · rw [h.watching.max]
    -- A watched descriptor is a listening socket or the socket of a client.
    rcases List.mem_append.mp (h.sets.only fd hfd) with hfd | hfd
    · obtain ⟨peer, hpeer, rfl⟩ := List.mem_map.mp hfd
      rcases List.mem_cons.mp (List.mem_filter.mp hpeer).1 with rfl | hpeer
      · exact htcp
      · rw [List.mem_singleton.mp hpeer]
        exact hws
    · exact hclients fd hfd
  · exact allWatched_run hrun hfresh hrunning hroom fd ((hwatchable fd).mpr hfd)

theorem select_watches_client :
    (∀ fd ∈ oneClient.mMasterSet, fd ≤ oneClient.mMaxSd) ∧
    (∀ fd, (fd ∈ listening oneClient.tcpServer oneClient.wsServer ∨
      ∃ c ∈ oneClient.clients, c.peer.socket = fd) → fd ∈ oneClient.mMasterSet) ∧
    ∀ fd, .close fd ∉ oneClient.log := by
  have hroom : Along step HasRoom (start ⟨3, false⟩ ⟨-1, true⟩)
      [.ready [3] fun _ => ⟨[5], [], fun _ => wholeRecv []⟩] := by decide
  obtain ⟨honly, -, hall, hkept⟩ := select_watches run_oneClient (by decide) rfl
  exact ⟨fun fd hfd => (honly fd hfd).1, hall hroom, hkept⟩

end Icl.Network.SelectServer
