import MatchingEngine.Gateway.Outgoing

/-! # Every client is sent its own stream

    The handlers of the gateway, one by one, and then whole runs. A handler queues
    packets for one client and leaves the others alone (`Concerns`), or goes through
    several clients in turn. Either way, what it does for any one client is a
    `Progress` of the packets that `Event.queued` says (`InOrder.progress`). Over a
    run these add up to `queuedBy`, and the outgoing stream of every open connection
    is exactly theirs (`outgoing_exact`).
-/

namespace MatchingEngine

open Soup (ServerSession Served deliverable framing)

namespace Gateway

/-! ## Section 1: Steps -/

/-- From `g` to `g'`, the packets `fresh` were queued for `id`. A closed connection
    stays closed and is sent nothing. -/
structure Progress (id : Nat) (fresh : List Outgoing) (g g' : Gateway) : Prop where
  settled : ∀ queued, Settled g id queued → Settled g' id (queued ++ fresh)
  closed : g.conns.lookup id = none → Unchanged id g g'

section handlers

variable {clock : Clock} {g g₁ g' : Gateway} {id i : Nat} {conn : Conn}
  {fresh fresh' : List Outgoing}

variable {send : SendResult} {s : ServerSession} {chunks : List (List UInt8)} {stop : ReadEnd}
  {toClose : List Nat}

theorem Unchanged.progress (h : Unchanged i g g') : Progress i [] g g' where
  settled := by
    intro queued hsettled
    rw [List.append_nil]
    exact hsettled.unchanged h
  closed := fun _ => h

theorem Progress.trans (h : Progress i fresh g g₁) (h' : Progress i fresh' g₁ g') :
    Progress i (fresh ++ fresh') g g' where
  settled := by
    intro queued hsettled
    rw [← List.append_assoc]
    exact h'.settled _ (h.settled _ hsettled)
  closed := by
    intro hnone
    have hfirst := h.closed hnone
    exact hfirst.trans (h'.closed (hfirst.1.trans hnone))

/-- What counts for an open connection only. -/
theorem progress_of_some (hconn : g.conns.lookup id = some conn)
    (h : ∀ queued, Settled g id queued → Settled g' id (queued ++ fresh)) :
    Progress id fresh g g' where
  settled := h
  closed := by
    intro hnone
    cases hconn.symm.trans hnone

/-- For a closed connection it does not matter what is queued. -/
theorem Progress.of_none (h : Progress i fresh g g') (hnone : g.conns.lookup i = none) :
    Progress i fresh' g g' where
  settled := by
    intro queued hsettled
    have hsame := h.closed hnone
    exact (hsettled.unchanged hsame).more (hsame.1.trans hnone) fresh'
  closed := h.closed

/-- A step that concerns the client `id` only. -/
structure Concerns (id : Nat) (fresh : List Outgoing) (g g' : Gateway) : Prop
    extends Progress id fresh g g' where
  others : ∀ i, i ≠ id → Unchanged i g g'

theorem Concerns.trans (h : Concerns id fresh g g₁) (h' : Concerns id fresh' g₁ g') :
    Concerns id (fresh ++ fresh') g g' :=
  ⟨h.toProgress.trans h'.toProgress, fun i hi => (h.others i hi).trans (h'.others i hi)⟩

theorem closeConn_concerns (hclose : g.closeConn id = some g') : Concerns id [] g g' := by
  obtain ⟨conn, hconn, -⟩ := Option.bind_eq_some_iff.mp hclose
  obtain ⟨hnone, hsent, hothers⟩ := closeConn_line hclose
  refine ⟨progress_of_some hconn (fun queued h => ?_), hothers⟩
  rw [List.append_nil]
  exact h.toOwes.close hnone (by rw [hsent])

theorem closeIfDone_concerns
    (h : (if conn.session.state = .closed ∧ conn.outbuf = [] then g.closeConn id else some g) =
      some g') :
    Concerns id [] g g' := by
  split at h
  · exact closeConn_concerns h
  · cases h
    exact ⟨Unchanged.progress ⟨rfl, rfl⟩, fun i _ => ⟨rfl, rfl⟩⟩

/-- The session of a connection queues packets, and the connection is flushed. -/
theorem flush_concerns (hconn : g.conns.lookup id = some conn)
    (hout : s.out = conn.session.out ++ fresh.flatMap Outgoing.bytes)
    (hconn₁ : g₁.conns.lookup id = some { conn with session := s }) (hsent : g₁.sent id = g.sent id)
    (hothers : ∀ i, i ≠ id → Unchanged i g g₁) (hflush : g₁.flush id send = some g') :
    Concerns id fresh g g' := by
  obtain ⟨hothers', hsettles⟩ := flush_line hconn₁ hflush
  refine ⟨progress_of_some hconn (fun queued h => ?_),
    fun i hi => (hothers i hi).trans (hothers' i hi)⟩
  exact hsettles _ (h.queue hconn hout hconn₁ hsent)

/-! ## Section 2: Handlers

    ### Reading -/

/-- The connection `conn` after a part of its dialogue. -/
structure Heard (conn : Conn) (p : Dialogue × List UInt8) (id : Nat) (s : ServerSession)
    (g : Gateway) : Prop where
  lookup : g.conns.lookup id = some { conn with session := s }
  state : s.state = p.1.state
  readings : g.backend.readings = p.1.readings
  out : s.out = conn.session.out ++ p.1.queued.flatMap Outgoing.bytes
  rest : s.state ≠ .closed → s.parser.rest = p.2 ∧ framing.split p.2 = none

theorem Heard.receive {p : Dialogue × List UInt8} (h : Heard conn p id s g) {data : List UInt8}
    (hreceive : g.receive clock id data = some g') :
    (∃ s', Heard conn (Dialogue.receive clock p data) id s' g' ∧ g'.sent = g.sent ∧
      ∀ i, i ≠ id → Unchanged i g g') ∧
    g'.backend.toEngine = g.backend.toEngine ++
      ((deliverable p.1.state (framing.frames (p.2 ++ data))).filterMap admitted).map
        (Command.mk id) := by
  unfold Gateway.receive at hreceive
  rw [h.lookup, Option.bind_eq_bind, Option.bind_some] at hreceive
  obtain ⟨w, hw⟩ : ∃ w : Served Backend, w =
      ⟨s, { g.backend with readings := g.backend.readings + 1 }, [], []⟩ := ⟨_, rfl⟩
  dsimp only at hreceive
  rw [← hw] at hreceive
  -- the session has absorbed what its parser holds, which completes no frame
  have hstart : Served.Absorbed (connListener clock id) w.view p.2 w := by
    by_cases hclosed : s.state = .closed
    · have hview : w.view.state = .closed := by rw [hw]; exact hclosed
      exact ⟨(Soup.View.foldl_absorb_closed hview _).symm,
        fun hopen => absurd (by rw [hw]; exact hclosed) hopen⟩
    · obtain ⟨hrest, hsplit⟩ := h.rest hclosed
      exact ⟨by rw [Framing.frames_of_none hsplit]; rfl,
        fun _ => by rw [Framing.leftover_of_none hsplit, hw, hrest]⟩
  have hspeaks : Speaks conn.session.out w.view { p.1 with readings := p.1.readings + 1 } := by
    rw [hw]
    exact ⟨h.state, congrArg (· + 1) h.readings, h.out⟩
  have hend := hstart.onBytes (connListener_acceptsLogins clock id) data (clock g.backend.readings)
  have hview : Speaks conn.session.out
      ((framing.frames (p.2 ++ data)).foldl (Soup.View.absorb (connListener clock id)) w.view)
      (Dialogue.receive clock p data).1 := hspeaks.absorbAll _
  rw [← hend.view_eq] at hview
  have htoEngine := congrArg (fun v => v.listener.toEngine) hend.view_eq
  have hbefore : w.view.listener.toEngine = g.backend.toEngine := by rw [hw]; rfl
  rw [toEngine_absorbAll, hspeaks.state, hbefore] at htoEngine
  have htaken : (w.onBytes (connListener clock id) data (clock g.backend.readings)).taken = [] := by
    rw [Served.onBytes, Served.taken_converse, hw]
  generalize w.onBytes (connListener clock id) data (clock g.backend.readings) = w'
    at hend hview htaken htoEngine hreceive
  cases hreceive
  refine ⟨⟨w'.session, ⟨lookup_setConn_self, hview.state, hview.readings, ?_, ?_⟩, rfl, ?_⟩,
    htoEngine⟩
  · have hout : w'.session.out = w'.view.sent := by
      show _ = w'.taken ++ _
      rw [htaken, List.nil_append]
    rw [hout]
    exact hview.sent
  · intro hopen
    exact ⟨hend.rest_eq hopen, Framing.split_leftover _⟩
  · intro i hi
    exact ⟨lookup_setConn_ne hi, rfl⟩

theorem Heard.receiveAll {p : Dialogue × List UInt8} (h : Heard conn p id s g)
    (hreceive : chunks.foldlM (fun g data => g.receive clock id data) g = some g') :
    ∃ s', Heard conn (chunks.foldl (Dialogue.receive clock) p) id s' g' ∧ g'.sent = g.sent ∧
      ∀ i, i ≠ id → Unchanged i g g' := by
  induction chunks generalizing g p s with
  | nil =>
    cases hreceive
    exact ⟨s, h, rfl, fun i _ => ⟨rfl, rfl⟩⟩
  | cons data chunks ih =>
    obtain ⟨g₁, hone, hrest⟩ := Option.bind_eq_some_iff.mp hreceive
    obtain ⟨⟨s₁, h₁, hsent₁, hothers₁⟩, -⟩ := h.receive hone
    obtain ⟨s', h', hsent', hothers'⟩ := ih h₁ hrest
    exact ⟨s', h', hsent'.trans hsent₁, fun i hi => (hothers₁ i hi).trans (hothers' i hi)⟩

/-- The dialogue begins. -/
theorem heard_start (hconn : g.conns.lookup id = some conn)
    (hrest : conn.session.state ≠ .closed → framing.split conn.session.parser.rest = none) :
    Heard conn (g.dialogue conn) id conn.session g :=
  ⟨hconn, rfl, rfl, by simp [dialogue], fun hopen => ⟨rfl, hrest hopen⟩⟩

theorem handleReadable_concerns (hconn : g.conns.lookup id = some conn)
    (hrest : conn.session.state ≠ .closed → framing.split conn.session.parser.rest = none)
    (hhandle : g.handleReadable clock id chunks stop send = some g') :
    Concerns id (chunks.foldl (Dialogue.receive clock) (g.dialogue conn)).1.queued g g' := by
  obtain ⟨g₁, hchunks, hhandle⟩ := Option.bind_eq_some_iff.mp hhandle
  obtain ⟨s, h, hsent, hothers⟩ := (heard_start hconn hrest).receiveAll hchunks
  have hsent' : g₁.sent id = g.sent id := by rw [hsent]
  -- at the end of the stream the connection is closed, and what was queued last is not sent
  have hclosed : g₁.closeConn id = some g' →
      Concerns id (chunks.foldl (Dialogue.receive clock) (g.dialogue conn)).1.queued g g' := by
    intro hclose
    obtain ⟨hnone, hkept, hothers'⟩ := closeConn_line hclose
    refine ⟨progress_of_some hconn (fun queued hsettled => ?_),
      fun i hi => (hothers i hi).trans (hothers' i hi)⟩
    exact (hsettled.queue hconn h.out h.lookup hsent').close hnone (by rw [hkept])
  cases stop with
  | endOfFile => exact hclosed hhandle
  | error => exact hclosed hhandle
  | wouldBlock =>
    obtain ⟨g₂, hflush, hhandle⟩ := Option.bind_eq_some_iff.mp hhandle
    obtain ⟨conn₂, hconn₂, hhandle⟩ := Option.bind_eq_some_iff.mp hhandle
    have hall := (flush_concerns hconn h.out h.lookup hsent' hothers hflush).trans
      (closeIfDone_concerns hhandle)
    rwa [List.append_nil] at hall

/-- A connection is flushed when its socket has room again. -/
theorem handleWritable_concerns (hconn : g.conns.lookup id = some conn)
    (hhandle : g.handleWritable id send = some g') : Concerns id [] g g' :=
  flush_concerns hconn (by simp) hconn rfl (fun i _ => ⟨rfl, rfl⟩) hhandle

/-! ### Responses -/

theorem pumpResponse_concerns {resp : ClientResponse} (hpump : g.pumpResponse resp send = some g') :
    Concerns resp.clientId [.response resp.msg] g g' := by
  unfold pumpResponse at hpump
  cases hconn : g.conns.lookup resp.clientId with
  | none =>
    -- the client is gone, and its response is dropped
    rw [hconn] at hpump
    cases hpump
    have hsame : Unchanged resp.clientId g g := ⟨rfl, rfl⟩
    exact ⟨hsame.progress.of_none hconn, fun i _ => ⟨rfl, rfl⟩⟩
  | some conn =>
    rw [hconn] at hpump
    obtain ⟨bytes, hbytes, hflush⟩ := Option.bind_eq_some_iff.mp hpump
    refine flush_concerns hconn ?_ lookup_setConn_self rfl (fun i hi => unchanged_setConn hi) hflush
    simp [ServerSession.sendSequenced, ServerSession.queue, Outgoing.bytes,
        Outgoing.packet, Soup.Packet.bytes, hbytes]

/-- What a step that concerns `id` is for another client, or for itself. -/
theorem Concerns.progress (h : Concerns id fresh g g') (i : Nat) :
    Progress i (if id = i then fresh else []) g g' := by
  by_cases hi : id = i
  · subst hi
    rw [if_pos rfl]
    exact h.toProgress
  · rw [if_neg hi]
    exact (h.others i (Ne.symm hi)).progress

/-- All responses, in order: each goes to its own client. -/
theorem pumpResponses_progress {resps : List (ClientResponse × SendResult)}
    (hpump : g.pumpResponses resps = some g') (i : Nat) :
    Progress i ((resps.filter (fun r => r.1.clientId = i)).map (fun r => .response r.1.msg))
      g g' := by
  induction resps generalizing g with
  | nil =>
    cases hpump
    exact Unchanged.progress ⟨rfl, rfl⟩
  | cons r resps ih =>
    -- a response for another client is no progress of this one
    obtain ⟨g₁, hone, hrest⟩ := Option.bind_eq_some_iff.mp hpump
    have hall := ((pumpResponse_concerns hone).progress i).trans (ih hrest)
    by_cases hi : r.1.clientId = i
    · simpa [hi] using hall
    · simpa [hi] using hall

/-! ### Ticking -/

theorem tickSession_concerns (hconn : g.conns.lookup id = some conn) {now : UInt64}
    {toClose' : List Nat}
    (htick : tickSession clock now (g, toClose) (id, send) = some (g', toClose')) :
    Concerns id (heartbeats conn.session now) g g' := by
  rw [tickSession_eq clock hconn] at htick
  obtain ⟨g₂, hflush, htick⟩ := Option.bind_eq_some_iff.mp htick
  obtain ⟨conn₂, -, htick⟩ := Option.bind_eq_some_iff.mp htick
  have hflushed : Concerns id (heartbeats conn.session now) g g₂ :=
    flush_concerns hconn (out_tick conn.session now) lookup_setConn_self rfl
      (fun i hi => unchanged_setConn hi) hflush
  split at htick
  · cases htick
    exact hflushed
  · cases htick
    exact hflushed

/-- The first loop of `tick_sessions`. A connection that is ticked was not touched
    before. -/
theorem tickLoop_progress {now : UInt64} {order : List (Nat × SendResult)}
    (hnodup : (order.map Prod.fst).Nodup) {r : Gateway × List Nat}
    (hthere : ∀ id ∈ order.map Prod.fst, ∃ conn, g.conns.lookup id = some conn)
    (hloop : order.foldlM (tickSession clock now) (g, toClose) = some r) (i : Nat) :
    (i ∉ order.map Prod.fst → Unchanged i g r.1) ∧
    ∀ conn, g.conns.lookup i = some conn → i ∈ order.map Prod.fst →
      Progress i (heartbeats conn.session now) g r.1 := by
  induction order generalizing g toClose with
  | nil =>
    cases hloop
    exact ⟨fun _ => ⟨rfl, rfl⟩, fun conn _ hi => by cases hi⟩
  | cons entry order ih =>
    obtain ⟨id, send⟩ := entry
    rw [List.map_cons, List.nodup_cons] at hnodup
    obtain ⟨⟨g₁, toClose₁⟩, hone, hrest⟩ := Option.bind_eq_some_iff.mp hloop
    obtain ⟨connId, hconnId⟩ := hthere id List.mem_cons_self
    have hstep := tickSession_concerns hconnId hone
    have hthere₁ : ∀ id' ∈ order.map Prod.fst, ∃ conn, g₁.conns.lookup id' = some conn := by
      intro id' hid'
      obtain ⟨conn, hconn⟩ := hthere id' (List.mem_cons_of_mem _ hid')
      have hne : id' ≠ id := fun heq => hnodup.1 (heq ▸ hid')
      exact ⟨conn, (hstep.others id' hne).1.trans hconn⟩
    obtain ⟨hsame, hticked⟩ := ih hnodup.2 hthere₁ hrest
    refine ⟨?_, ?_⟩
    · intro hi
      rw [List.map_cons, List.mem_cons, not_or] at hi
      exact (hstep.others i hi.1).trans (hsame hi.2)
    · intro conn hconn hi
      by_cases hid : i = id
      · -- this is its turn
        subst hid
        cases hconnId.symm.trans hconn
        have hall := hstep.toProgress.trans (hsame hnodup.1).progress
        rwa [List.append_nil] at hall
      · have hother := hstep.others i hid
        exact hother.progress.trans (hticked conn (hother.1.trans hconn)
          ((List.mem_cons.mp hi).resolve_left hid))

/-- The second loop of `tick_sessions`. -/
theorem closeLoop_progress
    (hloop : toClose.foldlM (fun g id =>
      match g.conns.lookup id with
      | none => some g
      | some _ => g.closeConn id) g = some g') (i : Nat) : Progress i [] g g' := by
  induction toClose generalizing g with
  | nil =>
    cases hloop
    exact Unchanged.progress ⟨rfl, rfl⟩
  | cons id toClose ih =>
    obtain ⟨g₁, hone, hrest⟩ := Option.bind_eq_some_iff.mp hloop
    dsimp only at hone
    have hstep : Progress i [] g g₁ := by
      cases hconn : g.conns.lookup id with
      | none =>
        rw [hconn] at hone
        cases hone
        exact Unchanged.progress ⟨rfl, rfl⟩
      | some conn =>
        rw [hconn] at hone
        have h := (closeConn_concerns hone).progress i
        rwa [ite_self] at h
    exact hstep.trans (ih hrest)

theorem tickSessions_progress {order : List (Nat × SendResult)}
    (hpossible : (Event.tick order).Possible g) (htick : g.tickSessions clock order = some g')
    (i : Nat) : Progress i ((Event.tick order).queued clock g i) g g' := by
  obtain ⟨hnodup, hmem⟩ := hpossible
  -- the clock is read first
  let g₀ : Gateway := { g with backend := { g.backend with readings := g.backend.readings + 1 } }
  have hfirst : Unchanged i g g₀ := ⟨rfl, rfl⟩
  obtain ⟨⟨g₂, toClose⟩, hloop, hclose⟩ := Option.bind_eq_some_iff.mp htick
  obtain ⟨hsame, hticked⟩ := tickLoop_progress hnodup
    (fun id hid => show ∃ conn, g₀.conns.lookup id = some conn from
      Finmap.mem_iff.mp ((hmem id).mp hid)) hloop i
  have hlast := closeLoop_progress hclose i
  unfold Event.queued
  cases hconn : g.conns.lookup i with
  | none =>
    have hnot : i ∉ order.map Prod.fst := by
      intro hi
      obtain ⟨conn, hsome⟩ := Finmap.mem_iff.mp ((hmem i).mp hi)
      cases hconn.symm.trans hsome
    exact (hfirst.trans (hsame hnot)).progress.trans hlast
  | some conn =>
    have hall := (hticked conn hconn ((hmem i).mpr (Finmap.mem_iff.mpr ⟨conn, hconn⟩))).trans hlast
    rw [List.append_nil] at hall
    exact hfirst.progress.trans hall

/-! ### Any event -/

/-- The connection that an event is not about. -/
theorem queued_readable_ne {fd : Nat} (h : ∀ conn, g.conns.lookup i = some conn → conn.fd ≠ fd) :
    (Event.readable fd chunks stop send).queued clock g i = [] := by
  unfold Event.queued
  cases hconn : g.conns.lookup i with
  | none => rfl
  | some conn => exact if_neg (h conn hconn)

/-- Accepting and flushing queue nothing. -/
theorem queued_quiet {ev : Event}
    (h : (∃ fd, ev = .accept fd) ∨ ∃ fd send, ev = .writable fd send) :
    ev.queued clock g i = [] := by
  unfold Event.queued
  cases g.conns.lookup i with
  | none => rfl
  | some conn =>
    rcases h with ⟨fd, rfl⟩ | ⟨fd, send, rfl⟩
    · rfl
    · rfl

/-- Between handlers, a parser holds no whole frame. -/
theorem InOrder.split_rest (h : InOrder g) (hconn : g.conns.lookup id = some conn)
    (hopen : conn.session.state ≠ .closed) : framing.split conn.session.parser.rest = none := by
  obtain ⟨fs, -, -, hstands⟩ := h.follows id
  rw [(hstands conn hconn hopen).2.1]
  exact Framing.split_leftover _

theorem InOrder.readable_progress (h : InOrder g) {fd : Nat}
    (hhandle : g.handle clock (.readable fd chunks stop send) = some g') (i : Nat) :
    Progress i ((Event.readable fd chunks stop send).queued clock g i) g g' := by
  simp only [Gateway.handle] at hhandle
  cases hfd : g.byFd.lookup fd with
  | none =>
    rw [hfd] at hhandle
    cases hhandle
    rw [queued_readable_ne]
    · exact Unchanged.progress ⟨rfl, rfl⟩
    · -- its descriptor would be registered
      intro conn hconn heq
      cases hfd.symm.trans ((h.tracked.byFd_iff fd i).mpr ⟨conn, hconn, heq⟩)
  | some id =>
    rw [hfd] at hhandle
    obtain ⟨conn, hconn, hconnFd⟩ := (h.tracked.byFd_iff fd id).mp hfd
    have hall := handleReadable_concerns hconn (h.split_rest hconn) hhandle
    by_cases hid : i = id
    · subst hid
      have hqueued : (Event.readable fd chunks stop send).queued clock g i =
          (chunks.foldl (Dialogue.receive clock) (g.dialogue conn)).1.queued := by
        unfold Event.queued
        rw [hconn]
        exact if_pos hconnFd
      rw [hqueued]
      exact hall.toProgress
    · rw [queued_readable_ne]
      · exact (hall.others i hid).progress
      · intro c hc heq
        exact hid (h.tracked.fd_inj hc hconn (heq.trans hconnFd.symm))

/-- **Step lemma.** Every handler queues for every client what `Event.queued` says.
    Only `accept` opens a connection, the one with the next id. -/
theorem InOrder.progress (h : InOrder g) {ev : Event} (hpossible : ev.Possible g)
    (hhandle : g.handle clock ev = some g') (hi : ∀ fd, ev = .accept fd → i ≠ g.nextClientId) :
    Progress i (ev.queued clock g i) g g' := by
  cases ev with
  | accept fd =>
    cases hhandle
    have hne := hi fd rfl
    have hsame : Unchanged i g (g.handleAccept clock fd) := ⟨Finmap.lookup_insert_of_ne _ hne, rfl⟩
    rw [queued_quiet (.inl ⟨fd, rfl⟩)]
    exact hsame.progress
  | readable fd chunks stop send => exact h.readable_progress hhandle i
  | writable fd send =>
    simp only [Gateway.handle] at hhandle
    rw [queued_quiet (.inr ⟨fd, send, rfl⟩)]
    cases hfd : g.byFd.lookup fd with
    | none =>
      rw [hfd] at hhandle
      cases hhandle
      exact Unchanged.progress ⟨rfl, rfl⟩
    | some id =>
      rw [hfd] at hhandle
      obtain ⟨conn, hconn, -⟩ := (h.tracked.byFd_iff fd id).mp hfd
      have hall := (handleWritable_concerns hconn hhandle).progress i
      rwa [ite_self] at hall
  | responses resps =>
    have hall := pumpResponses_progress hhandle i
    unfold Event.queued
    cases hconn : g.conns.lookup i with
    | none => exact hall.of_none hconn
    | some conn => exact hall
  | tick order => exact tickSessions_progress hpossible hhandle i

end handlers

/-! ## Section 3: Runs -/

/-- What `::send` returns while an event is handled. -/
def Event.sends : Event → List SendResult
  | .accept _ => []
  | .readable _ _ _ send => [send]
  | .writable _ send => [send]
  | .responses resps => resps.map Prod.snd
  | .tick order => order.map Prod.snd

/-- The handlers of the events, one after the other. -/
def run (clock : Clock) (g : Gateway) (evs : List Event) : Option Gateway :=
  evs.foldlM (fun g ev => g.handle clock ev) g

/-- Each event is possible when its turn comes. -/
def AllPossible (clock : Clock) : Gateway → List Event → Prop
  | _, [] => True
  | g, ev :: evs => ev.Possible g ∧ ∀ g', g.handle clock ev = some g' → AllPossible clock g' evs

/-- What the handlers of the events queue for the connection `id`. -/
def queuedBy (clock : Clock) (id : Nat) : Gateway → List Event → List Outgoing
  | _, [] => []
  | g, ev :: evs =>
    ev.queued clock g id ++ (g.handle clock ev).elim [] (fun g' => queuedBy clock id g' evs)

/-- All connections, with what was queued for them. -/
structure Exact (g : Gateway) (queued : Nat → List Outgoing) : Prop where
  inOrder : InOrder g
  settled : ∀ id, Settled g id (queued id)
  unopened : ∀ id, g.nextClientId ≤ id → queued id = []

section runs

variable {clock : Clock} {g g' : Gateway} {queued : Nat → List Outgoing} {id : Nat}

variable {ev : Event}

theorem exact_start : Exact {} (fun _ => []) where
  inOrder := (show Reachable (fun _ => 0) {} from .start).inOrder
  settled := fun _ => settled_of_none rfl List.nil_prefix
  unopened := fun _ _ => rfl

theorem lookup_unopened (h : InOrder g) (hid : g.nextClientId ≤ id) : g.conns.lookup id = none := by
  cases hconn : g.conns.lookup id with
  | none => rfl
  | some conn => exact absurd (h.tracked.fresh id conn hconn) (Nat.not_lt.mpr hid)

theorem queued_of_none (hnone : g.conns.lookup id = none) (ev : Event) :
    ev.queued clock g id = [] := by
  rw [Event.queued, hnone]

/-- What was read is logged, and no id is given out. -/
theorem receiveAll_frame {conn : Conn} (hconn : g.conns.lookup id = some conn)
    {chunks : List (List UInt8)}
    (hreceive : chunks.foldlM (fun g data => g.receive clock id data) g = some g') :
    g'.nextClientId = g.nextClientId ∧
      g'.received = Function.update g.received id (g.received id ++ chunks.flatten) := by
  induction chunks generalizing g conn with
  | nil =>
    cases hreceive
    simp
  | cons data chunks ih =>
    obtain ⟨g₁, hone, hrest⟩ := Option.bind_eq_some_iff.mp hreceive
    obtain ⟨conn₁, hconns, -, -, hnext, hreceived, -⟩ := receive_cases hconn hone
    have hconn₁ : g₁.conns.lookup id = some conn₁ := by rw [hconns, Finmap.lookup_insert]
    obtain ⟨hnext', hreceived'⟩ := ih hconn₁ hrest
    refine ⟨hnext'.trans hnext, ?_⟩
    rw [hreceived', hreceived, Function.update_self, Function.update_idem, List.flatten_cons,
      List.append_assoc]

/-- Ids are given out in increasing order. -/
theorem InOrder.nextClientId_le (h : InOrder g) (hpossible : ev.Possible g)
    (hhandle : g.handle clock ev = some g') : g.nextClientId ≤ g'.nextClientId := by
  rcases h.tracked.handle_cases clock hpossible hhandle with
    ⟨fd, -, rfl⟩ | hkeeps | ⟨id, conn, chunks, g₁, hconn, hchunks, hkeeps⟩
  · exact Nat.le_succ _
  · exact Nat.le_of_eq hkeeps.nextClientId.symm
  · rw [hkeeps.nextClientId, (receiveAll_frame hconn hchunks).1]

/-- The new connection has sent nothing and nothing is queued for it. -/
theorem Exact.handleAccept (h : Exact g queued) (fd : Nat) :
    Settled (g.handleAccept clock fd) g.nextClientId (queued g.nextClientId) := by
  have hqueued := h.unopened g.nextClientId (Nat.le_refl _)
  -- nothing was ever sent under an id that was not given out
  have hsent : g.sent g.nextClientId = [] := by
    have hpart := (h.settled g.nextClientId).closed (lookup_unopened h.inOrder (Nat.le_refl _))
    rw [hqueued] at hpart
    exact List.prefix_nil.mp hpart
  refine settled_of_some (Finmap.lookup_insert _) rfl ?_ (by simp)
  rw [hqueued]
  show g.sent g.nextClientId ++ [] = []
  rw [hsent]
  rfl

/-- **Step lemma.** -/
theorem Exact.handle (h : Exact g queued) (hpossible : ev.Possible g)
    (hhandle : g.handle clock ev = some g') :
    Exact g' (fun id => queued id ++ ev.queued clock g id) where
  inOrder := h.inOrder.handle hpossible hhandle
  settled := by
    intro id
    -- the one connection that is opened starts afresh
    by_cases hnew : ∀ fd, ev = .accept fd → id ≠ g.nextClientId
    · exact (h.inOrder.progress hpossible hhandle hnew).settled _ (h.settled id)
    · obtain ⟨fd, rfl, rfl⟩ : ∃ fd, ev = .accept fd ∧ id = g.nextClientId := by
        simpa only [not_forall, exists_prop, not_not] using hnew
      cases hhandle
      rw [queued_quiet (.inl ⟨fd, rfl⟩), List.append_nil]
      exact h.handleAccept fd
  unopened := by
    intro id hid
    have hid' := Nat.le_trans (h.inOrder.nextClientId_le hpossible hhandle) hid
    rw [h.unopened id hid', queued_of_none (lookup_unopened h.inOrder hid')]
    rfl

/-- Without a send error, every handler is defined. -/
theorem not_sendFails (h : .error ∉ ev.sends) : ¬ ev.SendFails clock g := by
  cases ev with
  | accept fd => exact fun hfails => hfails
  | readable fd chunks stop send =>
    rintro ⟨-, hsend, -⟩
    exact h (hsend ▸ List.mem_singleton_self _)
  | writable fd send => exact fun hfails => hfails
  | responses resps => exact fun hfails => hfails
  | tick order =>
    rintro ⟨id, conn, hmem, -⟩
    exact h (List.mem_map_of_mem (f := Prod.snd) hmem)

/-- **Run lemma.** -/
theorem Exact.run (h : Exact g queued) {evs : List Event} (hpossible : AllPossible clock g evs)
    (hsends : ∀ ev ∈ evs, .error ∉ ev.sends) :
    ∃ g', g.run clock evs = some g' ∧
      Exact g' (fun id => queued id ++ queuedBy clock id g evs) := by
  induction evs generalizing g queued with
  | nil => exact ⟨g, rfl, by simpa [queuedBy] using h⟩
  | cons ev evs ih =>
    obtain ⟨hfirst, hrest⟩ := hpossible
    have hdefined : g.handle clock ev ≠ none := by
      rw [Ne, (h.inOrder.tracked.handle clock hfirst).1]
      exact not_sendFails (hsends ev List.mem_cons_self)
    obtain ⟨g₁, hg₁⟩ := Option.ne_none_iff_exists'.mp hdefined
    obtain ⟨g', hrun, hexact⟩ := ih (h.handle hfirst hg₁) (hrest g₁ hg₁)
      (fun ev' hev' => hsends ev' (List.mem_cons_of_mem _ hev'))
    refine ⟨g', ?_, ?_⟩
    · rw [Gateway.run, List.foldlM_cons, hg₁]
      exact hrun
    · have hqueued : ∀ id, queuedBy clock id g (ev :: evs) =
          ev.queued clock g id ++ queuedBy clock id g₁ evs := by
        intro id
        rw [queuedBy, hg₁]
        rfl
      simpa only [hqueued, List.append_assoc] using hexact

/-- A closed connection stays closed, whatever happens later, and is sent nothing
    more. -/
theorem InOrder.stays_closed (h : InOrder g) {evs : List Event}
    (hpossible : AllPossible clock g evs)
    (hrun : g.run clock evs = some g') (hid : id < g.nextClientId)
    (hnone : g.conns.lookup id = none) : Unchanged id g g' ∧ queuedBy clock id g evs = [] := by
  induction evs generalizing g with
  | nil =>
    cases hrun
    exact ⟨⟨rfl, rfl⟩, rfl⟩
  | cons ev evs ih =>
    obtain ⟨hfirst, hrest⟩ := hpossible
    obtain ⟨g₁, hg₁, hrun⟩ := Option.bind_eq_some_iff.mp hrun
    dsimp only at hg₁
    have hsame : Unchanged id g g₁ :=
      (h.progress hfirst hg₁ (fun _ _ => Nat.ne_of_lt hid)).closed hnone
    obtain ⟨hlater, hqueued⟩ := ih (h.handle hfirst hg₁) (hrest g₁ hg₁) hrun
      (Nat.lt_of_lt_of_le hid (h.nextClientId_le hfirst hg₁)) (hsame.1.trans hnone)
    refine ⟨hsame.trans hlater, ?_⟩
    rw [queuedBy, hg₁, queued_of_none hnone]
    exact hqueued

/-- **Outgoing streams are exact.** For every sequence of events, whatever the
    sockets take and whenever they block, as long as no send fails:

    - what the socket of an open connection took, followed by `outbuf`, is what was
      queued for the connection; its session has handed over all of its output, and
      the write interest is on exactly when something is left in `outbuf`;
    - what the socket of a closed connection took is a part of what was queued for
      it, from the front;
    - ids are not used again: an id not yet given out is new, and a closed
      connection stays closed in every later run, in which nothing is queued for it
      or sent to it. -/
theorem outgoing_exact (clock : Clock) (evs : List Event) (hpossible : AllPossible clock {} evs)
    (hsends : ∀ ev ∈ evs, .error ∉ ev.sends) :
    ∃ g, ({} : Gateway).run clock evs = some g ∧
      (∀ id conn, g.conns.lookup id = some conn →
        g.sent id ++ conn.outbuf = (queuedBy clock id {} evs).flatMap Outgoing.bytes ∧
        conn.session.out = [] ∧ (conn.writeEnabled = true ↔ conn.outbuf ≠ [])) ∧
      (∀ id, g.conns.lookup id = none →
        g.sent id <+: (queuedBy clock id {} evs).flatMap Outgoing.bytes) ∧
      (∀ id, g.nextClientId ≤ id → g.conns.lookup id = none ∧ g.sent id = []) ∧
      ∀ id, id < g.nextClientId → g.conns.lookup id = none → ∀ later g',
        AllPossible clock g later → g.run clock later = some g' →
        g'.conns.lookup id = none ∧ g'.sent id = g.sent id ∧ queuedBy clock id g later = [] := by
  obtain ⟨g, hrun, h⟩ := exact_start.run hpossible hsends
  refine ⟨g, hrun, ?_, ?_, ?_, ?_⟩
  · intro id conn hconn
    have hsettled := h.settled id
    obtain ⟨hsent, hflag⟩ := hsettled.opened conn hconn
    have hout := hsettled.collected conn hconn
    rw [Conn.pending, hout, List.append_nil] at hsent
    exact ⟨hsent, hout, hflag⟩
  · intro id hnone
    exact (h.settled id).closed hnone
  · intro id hid
    have hnone := lookup_unopened h.inOrder hid
    have hpart := (h.settled id).closed hnone
    rw [h.unopened id hid] at hpart
    exact ⟨hnone, List.prefix_nil.mp hpart⟩
  · intro id hid hnone later g' hlater hrun'
    obtain ⟨⟨hlookup, hsent⟩, hqueued⟩ := h.inOrder.stays_closed hlater hrun' hid hnone
    exact ⟨hlookup.trans hnone, hsent, hqueued⟩

end runs

/-! ### A login, of whose answer the socket takes ten bytes -/

def loginBlocks : List Event := [.accept 5, loginArrives (.accepted 10)]

theorem outgoing_exact_login : ∃ g conn, ({} : Gateway).run (fun _ => 0) loginBlocks = some g ∧
    g.conns.lookup 1 = some conn ∧ g.sent 1 ++ conn.outbuf = Outgoing.loginAccepted.bytes ∧
    g.sent 1 = Outgoing.loginAccepted.bytes.take 10 ∧ conn.writeEnabled = true := by
  have hpossible : AllPossible (fun _ => 0) {} loginBlocks :=
    ⟨by simp [Event.Possible], fun _ _ => ⟨trivial, fun _ _ => trivial⟩⟩
  have hsends : ∀ ev ∈ loginBlocks, .error ∉ ev.sends := by decide
  have hqueued : (queuedBy (fun _ => 0) 1 {} loginBlocks).flatMap Outgoing.bytes =
      Outgoing.loginAccepted.bytes := by decide
  have hresult : ((({} : Gateway).run (fun _ => 0) loginBlocks).bind (fun g =>
      (g.conns.lookup 1).map (fun conn => (g.sent 1, conn.outbuf.length)))) =
      some (Outgoing.loginAccepted.bytes.take 10, 23) := by decide
  obtain ⟨g, hrun, hexact, -⟩ := outgoing_exact (fun _ => 0) loginBlocks hpossible hsends
  rw [hrun, Option.bind_some] at hresult
  obtain ⟨conn, hconn, hpair⟩ := Option.map_eq_some_iff.mp hresult
  obtain ⟨hsent, hleft⟩ := Prod.mk.inj hpair
  obtain ⟨hstream, -, hflag⟩ := hexact 1 conn hconn
  refine ⟨g, conn, hrun, hconn, hstream.trans hqueued, hsent, hflag.mpr ?_⟩
  intro hempty
  rw [hempty] at hleft
  cases hleft

end Gateway

end MatchingEngine
