import MatchingEngine.Gateway.Gateway

/-! # Connections that are closed while in use

    `flush` may destroy the connection it is called for. `pump_responses` and
    `handle_writable` do not look at the connection again. `handle_readable` and
    `tick_sessions` do: they read its session and its output buffer, and
    `tick_sessions` goes on from its entry in the map.

    The handlers are therefore defined exactly when no send fails in one of these
    two handlers while there is output to send (`SendFails`). In every state
    between handlers, `conns` and `byFd` hold the same connections (`Tracked`).
-/

namespace MatchingEngine

open Soup (ServerSession Served)

/-- What the next `flush` offers to the socket. -/
def Conn.pending (conn : Conn) : List UInt8 := conn.outbuf ++ conn.session.out

/-- The output of the session moves to the connection. -/
def Conn.collect (conn : Conn) : Conn :=
  { conn with session := { conn.session with out := [] }, outbuf := conn.pending }

namespace Gateway

/-! ## Section 1: Both maps hold the same connections -/

structure Tracked (g : Gateway) : Prop where
  byFd_iff : ∀ fd id, g.byFd.lookup fd = some id ↔ ∃ conn, g.conns.lookup id = some conn ∧
    conn.fd = fd
  fresh : ∀ id conn, g.conns.lookup id = some conn → id < g.nextClientId

section lookups

variable {g g' : Gateway} {id id' : Nat} {conn conn' : Conn}

@[simp] theorem lookup_setConn_self : (g.setConn id conn).conns.lookup id = some conn :=
  Finmap.lookup_insert _

theorem lookup_setConn_ne (h : id' ≠ id) :
    (g.setConn id conn).conns.lookup id' = g.conns.lookup id' :=
  Finmap.lookup_insert_of_ne _ h

/-- Two connections never share a descriptor. -/
theorem Tracked.fd_inj (h : Tracked g) (hconn : g.conns.lookup id = some conn)
    (hconn' : g.conns.lookup id' = some conn') (hfd : conn.fd = conn'.fd) : id = id' := by
  have hid := (h.byFd_iff conn.fd id).mpr ⟨conn, hconn, rfl⟩
  have hid' := (h.byFd_iff conn.fd id').mpr ⟨conn', hconn', hfd.symm⟩
  exact Option.some.inj (hid.symm.trans hid')

theorem Tracked.setConn (h : Tracked g) (hconn : g.conns.lookup id = some conn)
    (hfd : conn'.fd = conn.fd) : Tracked (g.setConn id conn') where
  byFd_iff := by
    intro fd i
    show g.byFd.lookup fd = some i ↔ _
    rw [h.byFd_iff]
    by_cases hi : i = id
    · subst hi
      simp [hconn, hfd]
    · rw [lookup_setConn_ne hi]
  fresh := by
    intro i c hc
    by_cases hi : i = id
    · subst hi
      exact h.fresh i conn hconn
    · rw [lookup_setConn_ne hi] at hc
      exact h.fresh i c hc

theorem Tracked.closeConn (h : Tracked g) (hclose : g.closeConn id = some g') : Tracked g' := by
  obtain ⟨conn, hconn, hg'⟩ := Option.bind_eq_some_iff.mp hclose
  cases hg'
  constructor
  · intro fd i
    show (g.byFd.erase conn.fd).lookup fd = some i ↔
      ∃ c, (g.conns.erase id).lookup i = some c ∧ c.fd = fd
    by_cases hfd : fd = conn.fd
    · -- the descriptor is free, and its connection is gone
      subst hfd
      rw [Finmap.lookup_erase]
      constructor
      · intro h'
        cases h'
      · rintro ⟨c, hc, hcfd⟩
        by_cases hi : i = id
        · rw [hi, Finmap.lookup_erase] at hc
          cases hc
        · rw [Finmap.lookup_erase_ne hi] at hc
          exact absurd (h.fd_inj hc hconn hcfd) hi
    · rw [Finmap.lookup_erase_ne hfd, h.byFd_iff]
      by_cases hi : i = id
      · rw [hi, Finmap.lookup_erase, hconn]
        constructor
        · rintro ⟨c, hc, hcfd⟩
          cases hc
          exact absurd hcfd.symm hfd
        · rintro ⟨c, hc, -⟩
          cases hc
      · rw [Finmap.lookup_erase_ne hi]
  · intro i c hc
    have hc' : (g.conns.erase id).lookup i = some c := hc
    by_cases hi : i = id
    · rw [hi, Finmap.lookup_erase] at hc'
      cases hc'
    · rw [Finmap.lookup_erase_ne hi] at hc'
      exact h.fresh i c hc'

theorem Tracked.congr (h : Tracked g) (hconns : g'.conns = g.conns) (hbyFd : g'.byFd = g.byFd)
    (hnext : g'.nextClientId = g.nextClientId) : Tracked g' :=
  ⟨by rw [hconns, hbyFd]; exact h.byFd_iff, by rw [hconns, hnext]; exact h.fresh⟩

end lookups

/-- What every step but reading and accepting keeps: nothing is received or
    queued, and no connection is opened. -/
structure Keeps (g g' : Gateway) : Prop where
  tracked : Tracked g → Tracked g'
  received : g'.received = g.received
  toEngine : g'.backend.toEngine = g.backend.toEngine
  nextClientId : g'.nextClientId = g.nextClientId
  /-- A session reads nothing, and is as it was or closed. -/
  session : ∀ id conn', g'.conns.lookup id = some conn' → ∃ conn, g.conns.lookup id = some conn ∧
    conn'.session.parser = conn.session.parser ∧
    (conn'.session.state = conn.session.state ∨ conn'.session.state = .closed)

theorem Keeps.refl (g : Gateway) : Keeps g g :=
  ⟨fun ht => ht, rfl, rfl, rfl, fun _ conn hconn => ⟨conn, hconn, rfl, .inl rfl⟩⟩

theorem Keeps.trans {g g₁ g₂ : Gateway} (h : Keeps g g₁) (h' : Keeps g₁ g₂) : Keeps g g₂ where
  tracked := fun ht => h'.tracked (h.tracked ht)
  received := h'.received.trans h.received
  toEngine := h'.toEngine.trans h.toEngine
  nextClientId := h'.nextClientId.trans h.nextClientId
  session := by
    intro id conn₂ hconn₂
    obtain ⟨conn₁, hconn₁, hparser₁, hstate₁⟩ := h'.session id conn₂ hconn₂
    obtain ⟨conn, hconn, hparser, hstate⟩ := h.session id conn₁ hconn₁
    refine ⟨conn, hconn, hparser₁.trans hparser, ?_⟩
    rcases hstate₁ with hstate₁ | hstate₁
    · rw [hstate₁]
      exact hstate
    · exact .inr hstate₁

theorem keeps_setConn {g : Gateway} {id : Nat} {conn conn' : Conn}
    (hconn : g.conns.lookup id = some conn) (hfd : conn'.fd = conn.fd)
    (hparser : conn'.session.parser = conn.session.parser)
    (hstate : conn'.session.state = conn.session.state ∨ conn'.session.state = .closed) :
    Keeps g (g.setConn id conn') where
  tracked := fun ht => ht.setConn hconn hfd
  received := rfl
  toEngine := rfl
  nextClientId := rfl
  session := by
    intro i c hc
    by_cases hi : i = id
    · subst hi
      cases lookup_setConn_self.symm.trans hc
      exact ⟨conn, hconn, hparser, hstate⟩
    · rw [lookup_setConn_ne hi] at hc
      exact ⟨c, hc, rfl, .inl rfl⟩

theorem closeConn_spec {g : Gateway} {id : Nat} {conn : Conn}
    (hconn : g.conns.lookup id = some conn) :
    ∃ g', g.closeConn id = some g' ∧ g'.conns.lookup id = none ∧
      (∀ id', id' ≠ id → g'.conns.lookup id' = g.conns.lookup id') ∧ Keeps g g' := by
  obtain ⟨g', hg'⟩ : ∃ g',
      g' = { g with byFd := g.byFd.erase conn.fd, conns := g.conns.erase id } :=
    ⟨_, rfl⟩
  have hclose : g.closeConn id = some g' := by
    rw [closeConn, hconn, hg']
    rfl
  have hnone : g'.conns.lookup id = none := by
    rw [hg']
    exact Finmap.lookup_erase _ _
  have hothers : ∀ id', id' ≠ id → g'.conns.lookup id' = g.conns.lookup id' := by
    intro id' hid
    rw [hg']
    exact Finmap.lookup_erase_ne hid
  refine ⟨g', hclose, hnone, hothers, fun ht => ht.closeConn hclose, by rw [hg'], by rw [hg'],
    by rw [hg'], ?_⟩
  intro i c hc
  by_cases hi : i = id
  · rw [hi, hnone] at hc
    cases hc
  · rw [hothers i hi] at hc
    exact ⟨c, hc, rfl, .inl rfl⟩

/-! ## Section 2: Flushing -/

/-- From `g` to `g'` only the connection `id` changed: it is closed, or its output
    was moved on. -/
structure Flushed (id : Nat) (g g' : Gateway) : Prop extends Keeps g g' where
  others : ∀ id', id' ≠ id → g'.conns.lookup id' = g.conns.lookup id'

section flush

variable {g g₁ : Gateway} {id : Nat} {conn conn₁ : Conn}

theorem Flushed.setConn (h : Flushed id g g₁) (hconn : g₁.conns.lookup id = some conn₁)
    {conn₂ : Conn} (hsession : conn₂.session = conn₁.session) (hfd : conn₂.fd = conn₁.fd) :
    Flushed id g (g₁.setConn id conn₂) where
  toKeeps := h.toKeeps.trans (keeps_setConn hconn hfd (by rw [hsession]) (.inl (by rw [hsession])))
  others := fun id' hid => (lookup_setConn_ne hid).trans (h.others id' hid)

theorem Flushed.putOnWire (h : Flushed id g g₁) (bytes : List UInt8) :
    Flushed id g (g₁.putOnWire id bytes) :=
  ⟨⟨fun ht => (h.tracked ht).congr rfl rfl rfl, h.received, h.toEngine, h.nextClientId, h.session⟩,
    h.others⟩

theorem Flushed.updateWriteFilter (h : Flushed id g g₁) (hconn : g₁.conns.lookup id = some conn₁)
    (enable : Bool) :
    ∃ g₂ conn₂, g₁.updateWriteFilter id enable = some g₂ ∧ Flushed id g g₂ ∧
      g₂.conns.lookup id = some conn₂ := by
  unfold Gateway.updateWriteFilter
  rw [hconn, Option.bind_eq_bind, Option.bind_some]
  split
  · exact ⟨g₁, conn₁, rfl, h, hconn⟩
  · exact ⟨_, _, rfl, h.setConn hconn rfl rfl, lookup_setConn_self⟩

/-! ### How `flush` goes on, by what there is to send and what the socket does -/

theorem flush_empty (hconn : g.conns.lookup id = some conn) (hempty : conn.pending = [])
    (send : SendResult) : g.flush id send = some (g.setConn id conn.collect) := by
  unfold flush
  rw [hconn]
  exact if_pos hempty

theorem flush_accepted (hconn : g.conns.lookup id = some conn) (hpending : conn.pending ≠ [])
    (n : Nat) : g.flush id (.accepted n) =
      (((g.setConn id conn.collect).putOnWire id (conn.pending.take n)).setConn id
        { conn.collect with outbuf := conn.pending.drop n }).updateWriteFilter id
          (!(conn.pending.drop n).isEmpty) := by
  unfold flush
  rw [hconn]
  exact if_neg hpending

theorem flush_wouldBlock (hconn : g.conns.lookup id = some conn) (hpending : conn.pending ≠ []) :
    g.flush id .wouldBlock =
      (g.setConn id conn.collect).updateWriteFilter id (!conn.pending.isEmpty) := by
  unfold flush
  rw [hconn]
  exact if_neg hpending

theorem flush_error (hconn : g.conns.lookup id = some conn) (hpending : conn.pending ≠ []) :
    g.flush id .error = (g.setConn id conn.collect).closeConn id := by
  unfold flush
  rw [hconn]
  exact if_neg hpending

/-- `flush` is defined for an open connection, and closes it exactly when a send
    fails. -/
theorem flush_spec (hconn : g.conns.lookup id = some conn) (send : SendResult) :
    ∃ g', g.flush id send = some g' ∧ Flushed id g g' ∧
      (g'.conns.lookup id = none ↔ send = .error ∧ conn.pending ≠ []) := by
  have hfirst : Flushed id g (g.setConn id conn.collect) :=
    ⟨keeps_setConn hconn rfl rfl (.inl rfl), fun id' hid => lookup_setConn_ne hid⟩
  have hconn₁ : (g.setConn id conn.collect).conns.lookup id = some conn.collect :=
    lookup_setConn_self
  by_cases hempty : conn.pending = []
  · exact ⟨_, flush_empty hconn hempty send, hfirst, by simp [hempty]⟩
  cases send with
  | accepted n =>
    rw [flush_accepted hconn hempty]
    have hsecond : Flushed id g
        (((g.setConn id conn.collect).putOnWire id (conn.pending.take n)).setConn
        id { conn.collect with outbuf := conn.pending.drop n }) :=
      (hfirst.putOnWire _).setConn hconn₁ rfl rfl
    obtain ⟨g₂, conn₂, hfilter, hflushed, hthere⟩ :=
      hsecond.updateWriteFilter lookup_setConn_self (!(conn.pending.drop n).isEmpty)
    exact ⟨g₂, hfilter, hflushed, by simp [hthere]⟩
  | wouldBlock =>
    rw [flush_wouldBlock hconn hempty]
    obtain ⟨g₂, conn₂, hfilter, hflushed, hthere⟩ :=
      hfirst.updateWriteFilter hconn₁ (!conn.pending.isEmpty)
    exact ⟨g₂, hfilter, hflushed, by simp [hthere]⟩
  | error =>
    rw [flush_error hconn hempty]
    obtain ⟨g₂, hclose, hnone, hothers, hkeeps⟩ := closeConn_spec hconn₁
    exact ⟨g₂, hclose, ⟨hfirst.toKeeps.trans hkeeps, fun id' hid => (hothers id' hid).trans
      (hfirst.others id' hid)⟩, by simp [hnone, hempty]⟩

end flush

/-! ## Section 3: Reading -/

section receive

variable (clock : Clock) {g : Gateway} {id : Nat} {conn : Conn}

/-- Reading keeps the connection. -/
theorem receive_spec (hconn : g.conns.lookup id = some conn) (data : List UInt8) :
    ∃ g' conn', g.receive clock id data = some g' ∧ g'.conns.lookup id = some conn' ∧
      (Tracked g → Tracked g') := by
  unfold receive
  rw [hconn, Option.bind_eq_bind, Option.bind_some]
  dsimp only
  generalize Served.onBytes _ _ data _ = w
  refine ⟨_, _, rfl, lookup_setConn_self, fun ht => ?_⟩
  exact Tracked.congr (g := g.setConn id { conn with session := w.session }) (ht.setConn hconn rfl)
    rfl rfl rfl

theorem receiveAll_spec (hconn : g.conns.lookup id = some conn) (chunks : List (List UInt8)) :
    ∃ g' conn', chunks.foldlM (fun g data => g.receive clock id data) g = some g' ∧
      g'.conns.lookup id = some conn' ∧ (Tracked g → Tracked g') := by
  induction chunks generalizing g conn with
  | nil => exact ⟨g, conn, rfl, hconn, fun ht => ht⟩
  | cons data chunks ih =>
    obtain ⟨g₁, conn₁, hreceive, hconn₁, htracked⟩ := receive_spec clock hconn data
    obtain ⟨g', conn', hrest, hconn', htracked'⟩ := ih hconn₁
    refine ⟨g', conn', ?_, hconn', fun ht => htracked' (htracked ht)⟩
    rw [List.foldlM_cons, hreceive]
    exact hrest

end receive

/-! ## Section 4: Handlers -/

/-- A send fails in a handler that looks at the connection again. -/
def Event.SendFails (clock : Clock) (g : Gateway) : Event → Prop
  | .readable fd chunks stop send =>
    stop = .wouldBlock ∧ send = .error ∧ ∃ id g' conn, g.byFd.lookup fd = some id ∧
      chunks.foldlM (fun g data => g.receive clock id data) g = some g' ∧
      g'.conns.lookup id = some conn ∧ conn.pending ≠ []
  | .tick order =>
    ∃ id conn, (id, .error) ∈ order ∧ g.conns.lookup id = some conn ∧
      conn.outbuf ++ (conn.session.tick (clock g.backend.readings)).1.out ≠ []
  | .accept _ | .writable _ _ | .responses _ => False

section handlers

variable (clock : Clock) {g g' : Gateway} {id : Nat} {conn : Conn}

/-- Close the connection when it has nothing more to do. -/
theorem closeIfDone_spec (hconn : g.conns.lookup id = some conn) :
    ∃ g', (if conn.session.state = .closed ∧ conn.outbuf = [] then g.closeConn id else some g) =
      some g' ∧ Keeps g g' := by
  split
  · obtain ⟨g', hclose, -, -, hkeeps⟩ := closeConn_spec hconn
    exact ⟨g', hclose, hkeeps⟩
  · exact ⟨g, rfl, .refl g⟩

theorem handleReadable_spec (hconn : g.conns.lookup id = some conn) (chunks : List (List UInt8))
    (stop : ReadEnd) (send : SendResult) :
    (g.handleReadable clock id chunks stop send = none ↔
      stop = .wouldBlock ∧ send = .error ∧ ∃ g' conn,
        chunks.foldlM (fun g data => g.receive clock id data) g = some g' ∧
        g'.conns.lookup id = some conn ∧ conn.pending ≠ []) ∧
    ∀ g', g.handleReadable clock id chunks stop send = some g' → ∃ g₁,
      chunks.foldlM (fun g data => g.receive clock id data) g = some g₁ ∧ Keeps g₁ g' := by
  obtain ⟨g₁, conn₁, hchunks, hconn₁, -⟩ := receiveAll_spec clock hconn chunks
  simp only [handleReadable, hchunks, Option.bind_eq_bind, Option.bind_some, Option.some.injEq]
  cases stop with
  | endOfFile | error =>
    obtain ⟨g₂, hclose, -, -, hkeeps⟩ := closeConn_spec hconn₁
    simp only [hclose]
    refine ⟨by simp, fun g' hg' => ?_⟩
    cases hg'
    exact ⟨g₁, rfl, hkeeps⟩
  | wouldBlock =>
    obtain ⟨g₂, hflush, hflushed, hclosed⟩ := flush_spec hconn₁ send
    simp only [hflush, Option.bind_some]
    cases hconn₂ : g₂.conns.lookup id with
    | none =>
      -- the flush closed the connection, which is then read
      obtain ⟨hsend, hpending⟩ := hclosed.mp hconn₂
      simp only [Option.bind_none, true_and, true_iff]
      exact ⟨⟨hsend, g₁, conn₁, rfl, hconn₁, hpending⟩, fun g' h => by cases h⟩
    | some conn₂ =>
      obtain ⟨g₃, hdone, hkeeps⟩ := closeIfDone_spec hconn₂
      simp only [Option.bind_some, hdone, true_and]
      constructor
      · constructor
        · intro h
          cases h
        · rintro ⟨hsend, g', conn', hg', hconn', hpending⟩
          cases hg'
          cases hconn₁.symm.trans hconn'
          rw [hclosed.mpr ⟨hsend, hpending⟩] at hconn₂
          cases hconn₂
      · intro g' hg'
        cases hg'
        exact ⟨g₁, rfl, hflushed.toKeeps.trans hkeeps⟩

/-- Responses to connections that are gone are dropped. -/
theorem pumpResponse_spec (g : Gateway) (resp : ClientResponse) (send : SendResult) :
    ∃ g', g.pumpResponse resp send = some g' ∧ Keeps g g' := by
  unfold pumpResponse
  cases hconn : g.conns.lookup resp.clientId with
  | none => exact ⟨g, rfl, .refl g⟩
  | some conn =>
    obtain ⟨bytes, hencode, -⟩ := Ouch.encode_response resp.msg
    simp only [hencode, Option.bind_eq_bind, Option.bind_some]
    obtain ⟨conn₁, hconn₁⟩ : ∃ conn₁ : Conn, conn₁ =
        { conn with session := conn.session.sendSequenced bytes } := ⟨_, rfl⟩
    have hkeeps : Keeps g (g.setConn resp.clientId conn₁) :=
      keeps_setConn hconn (by rw [hconn₁]) (by rw [hconn₁]; rfl) (.inl (by rw [hconn₁]; rfl))
    obtain ⟨g', hflush, hflushed, -⟩ :=
      flush_spec (g := g.setConn resp.clientId conn₁) lookup_setConn_self send
    rw [← hconn₁]
    exact ⟨g', hflush, hkeeps.trans hflushed.toKeeps⟩

theorem pumpResponses_spec (g : Gateway) (resps : List (ClientResponse × SendResult)) :
    ∃ g', g.pumpResponses resps = some g' ∧ Keeps g g' := by
  induction resps generalizing g with
  | nil => exact ⟨g, rfl, .refl g⟩
  | cons r resps ih =>
    obtain ⟨g₁, hone, hkeeps₁⟩ := g.pumpResponse_spec r.1 r.2
    obtain ⟨g', hrest, hkeeps⟩ := ih g₁
    refine ⟨g', ?_, hkeeps₁.trans hkeeps⟩
    unfold pumpResponses at hrest ⊢
    rw [List.foldlM_cons, hone]
    exact hrest

/-! ### Ticking -/

/-- A connection does nothing when its session times out. -/
theorem tick_conn (id : Nat) (w : Served Backend) (now : UInt64) :
    (w.tick (connListener clock id) now).session = (w.session.tick now).1 ∧
      (w.tick (connListener clock id) now).listener = w.listener := by
  have hcallback : (w.session.tick now).2 = none ∨ (w.session.tick now).2 = some .timeout := by
    unfold ServerSession.tick
    split
    · exact .inl rfl
    · split
      · exact .inr rfl
      · split
        · exact .inl rfl
        · exact .inl rfl
  unfold Served.tick
  generalize w.session.tick now = r at hcallback ⊢
  obtain ⟨s, c⟩ := r
  rcases hcallback with rfl | rfl
  · exact ⟨rfl, rfl⟩
  · exact ⟨rfl, rfl⟩

theorem parser_tick (s : ServerSession) (now : UInt64) : (s.tick now).1.parser = s.parser := by
  unfold ServerSession.tick
  split
  · rfl
  · split
    · rfl
    · split <;> rfl

theorem tick_state (s : ServerSession) (now : UInt64) :
    (s.tick now).1.state = s.state ∨ (s.tick now).1.state = .closed := by
  unfold ServerSession.tick
  split
  · exact .inl rfl
  · split
    · exact .inr rfl
    · split
      · exact .inl rfl
      · exact .inl rfl

/-- What the tick at `now` leaves a connection with to send. -/
def pendingAt (now : UInt64) (conn : Conn) : List UInt8 :=
  conn.outbuf ++ (conn.session.tick now).1.out

/-- One entry: the session is ticked and the connection flushed. -/
theorem tickSession_eq (hconn : g.conns.lookup id = some conn) (now : UInt64) (toClose : List Nat)
    (send : SendResult) :
    tickSession clock now (g, toClose) (id, send) = (do
      let g ← (g.setConn id { conn with session := (conn.session.tick now).1 }).flush id send
      let conn ← g.conns.lookup id
      if conn.session.state = .closed ∧ conn.outbuf = [] then some (g, toClose ++ [id])
      else some (g, toClose)) := by
  obtain ⟨hsession, hbackend⟩ :=
    tick_conn clock id { session := conn.session, listener := g.backend } now
  simp only [tickSession, hconn, Option.bind_eq_bind, Option.bind_some, hsession, hbackend]
  rfl

/-- The other connections are as before. -/
theorem tickSession_spec (hconn : g.conns.lookup id = some conn) (now : UInt64) (toClose : List Nat)
    (send : SendResult) :
    (send = .error ∧ pendingAt now conn ≠ [] ∧
      tickSession clock now (g, toClose) (id, send) = none) ∨
    (¬ (send = .error ∧ pendingAt now conn ≠ []) ∧ ∃ g' toClose',
      tickSession clock now (g, toClose) (id, send) = some (g', toClose') ∧
      (∀ id', id' ≠ id → g'.conns.lookup id' = g.conns.lookup id') ∧ Keeps g g') := by
  -- the connection after the tick, before the flush
  let conn₁ : Conn := { conn with session := (conn.session.tick now).1 }
  have htick := tickSession_eq clock hconn now toClose send
  obtain ⟨g₁, hflush, hflushed, hclosed⟩ :=
    flush_spec (g := g.setConn id conn₁) lookup_setConn_self send
  rw [htick, hflush, Option.bind_eq_bind, Option.bind_some]
  cases hconn₁ : g₁.conns.lookup id with
  | none =>
    obtain ⟨hsend, hpending⟩ := hclosed.mp hconn₁
    exact .inl ⟨hsend, hpending, rfl⟩
  | some conn₂ =>
    refine .inr ⟨?_, ?_⟩
    · intro hfails
      rw [hclosed.mpr hfails] at hconn₁
      cases hconn₁
    · have hothers : ∀ id', id' ≠ id → g₁.conns.lookup id' = g.conns.lookup id' :=
        fun id' hid => (hflushed.others id' hid).trans (lookup_setConn_ne hid)
      have hfirst : Keeps g (g.setConn id conn₁) :=
        keeps_setConn hconn rfl (parser_tick conn.session now) (tick_state conn.session now)
      have hkeeps : Keeps g g₁ := hfirst.trans hflushed.toKeeps
      rw [Option.bind_eq_bind, Option.bind_some]
      split
      · exact ⟨g₁, _, rfl, hothers, hkeeps⟩
      · exact ⟨g₁, _, rfl, hothers, hkeeps⟩

/-- The first loop of `tick_sessions`. -/
theorem tickLoop_spec (now : UInt64) (order : List (Nat × SendResult))
    (hnodup : (order.map Prod.fst).Nodup) (g : Gateway)
    (hthere : ∀ id ∈ order.map Prod.fst, ∃ conn, g.conns.lookup id = some conn)
    (toClose : List Nat) : (order.foldlM (tickSession clock now) (g, toClose) = none ↔
      ∃ id conn, (id, .error) ∈ order ∧ g.conns.lookup id = some conn ∧ pendingAt now conn ≠ []) ∧
    ∀ r, order.foldlM (tickSession clock now) (g, toClose) = some r → Keeps g r.1 := by
  induction order generalizing g toClose with
  | nil =>
    refine ⟨by simp, fun r hr => ?_⟩
    cases hr
    exact .refl g
  | cons entry order ih =>
    obtain ⟨id, send⟩ := entry
    rw [List.map_cons, List.nodup_cons] at hnodup
    obtain ⟨conn, hconn⟩ := hthere id List.mem_cons_self
    rw [List.foldlM_cons]
    rcases tickSession_spec clock hconn now toClose send with
      ⟨rfl, hpending, hone⟩ | ⟨hholds, g₁, toClose₁, hone, hothers, hkeeps⟩
    · rw [hone]
      refine ⟨⟨fun _ => ⟨id, conn, List.mem_cons_self, hconn, hpending⟩, fun _ => rfl⟩,
        fun r hr => ?_⟩
      cases hr
    · rw [hone, Option.bind_eq_bind, Option.bind_some]
      -- the entries that follow are as before
      have hsame : ∀ id' ∈ order.map Prod.fst, g₁.conns.lookup id' = g.conns.lookup id' := by
        intro id' hid'
        apply hothers
        rintro rfl
        exact hnodup.1 hid'
      obtain ⟨hnone, hsome⟩ := ih hnodup.2 g₁ (fun id' hid' => by
        obtain ⟨conn', hconn'⟩ := hthere id' (List.mem_cons_of_mem _ hid')
        exact ⟨conn', (hsame id' hid').trans hconn'⟩) toClose₁
      refine ⟨hnone.trans ?_, fun r hr => hkeeps.trans (hsome r hr)⟩
      constructor
      · rintro ⟨id', conn', hmem, hconn', hpending⟩
        rw [hsame id' (List.mem_map_of_mem hmem)] at hconn'
        exact ⟨id', conn', List.mem_cons_of_mem _ hmem, hconn', hpending⟩
      · rintro ⟨id', conn', hmem, hconn', hpending⟩
        rcases List.mem_cons.mp hmem with heq | hmem
        · cases heq
          cases hconn.symm.trans hconn'
          exact absurd ⟨rfl, hpending⟩ hholds
        · rw [← hsame id' (List.mem_map_of_mem hmem)] at hconn'
          exact ⟨id', conn', hmem, hconn', hpending⟩

/-- The second loop of `tick_sessions`. -/
theorem closeLoop_spec (g : Gateway) (toClose : List Nat) :
    ∃ g', toClose.foldlM (fun g id =>
        match g.conns.lookup id with
        | none => some g
        | some _ => g.closeConn id) g = some g' ∧ Keeps g g' := by
  induction toClose generalizing g with
  | nil => exact ⟨g, rfl, .refl g⟩
  | cons id toClose ih =>
    rw [List.foldlM_cons]
    cases hconn : g.conns.lookup id with
    | none => exact ih g
    | some conn =>
      obtain ⟨g₁, hclose, -, -, hkeeps₁⟩ := closeConn_spec hconn
      obtain ⟨g', hrest, hkeeps⟩ := ih g₁
      refine ⟨g', ?_, hkeeps₁.trans hkeeps⟩
      simp only [hclose]
      exact hrest

theorem tickSessions_spec (g : Gateway) {order : List (Nat × SendResult)}
    (hpossible : (Event.tick order).Possible g) :
    (g.tickSessions clock order = none ↔ (Event.tick order).SendFails clock g) ∧
    ∀ g', g.tickSessions clock order = some g' → Keeps g g' := by
  obtain ⟨hnodup, hmem⟩ := hpossible
  have hthere : ∀ id ∈ order.map Prod.fst, ∃ conn, g.conns.lookup id = some conn :=
    fun id hid => Finmap.mem_iff.mp ((hmem id).mp hid)
  let g₀ : Gateway := { g with backend := { g.backend with readings := g.backend.readings + 1 } }
  obtain ⟨hnone, hsome⟩ :=
    tickLoop_spec clock (clock g.backend.readings) order hnodup g₀ hthere []
  cases hloop : order.foldlM (tickSession clock (clock g.backend.readings)) (g₀, []) with
  | none =>
    have hall : g.tickSessions clock order = none := by
      simp only [tickSessions, Option.bind_eq_bind]
      rw [hloop]
      rfl
    rw [hall]
    exact ⟨⟨fun _ => hnone.mp hloop, fun _ => rfl⟩, fun g' h => by cases h⟩
  | some r =>
    obtain ⟨g₁, toClose⟩ := r
    obtain ⟨g₂, hclose, hkeeps⟩ := closeLoop_spec g₁ toClose
    have hall : g.tickSessions clock order = some g₂ := by
      simp only [tickSessions, Option.bind_eq_bind]
      rw [hloop]
      exact hclose
    rw [hall]
    constructor
    · constructor
      · intro h
        cases h
      · intro hfails
        rw [hnone.mpr hfails] at hloop
        cases hloop
    · intro g' hg'
      cases hg'
      have hfirst : Keeps g g₀ :=
        ⟨fun ht => ht.congr rfl rfl rfl, rfl, rfl, rfl, (Keeps.refl g).session⟩
      exact (hfirst.trans (hsome _ hloop)).trans hkeeps

theorem Tracked.handleAccept (h : Tracked g) {fd : Nat} (hpossible : (Event.accept fd).Possible g) :
    Tracked (g.handleAccept clock fd) := by
  have hnew : g.conns.lookup g.nextClientId = none := by
    cases hconn : g.conns.lookup g.nextClientId with
    | none => rfl
    | some conn => exact absurd (h.fresh _ conn hconn) (Nat.lt_irrefl _)
  constructor
  · intro fd' id
    show (g.byFd.insert fd g.nextClientId).lookup fd' = some id ↔
      ∃ conn, (g.conns.insert g.nextClientId _).lookup id = some conn ∧ conn.fd = fd'
    by_cases hid : id = g.nextClientId
    · -- the new connection has the new descriptor, and no other
      subst hid
      rw [Finmap.lookup_insert]
      by_cases hfd : fd' = fd
      · subst hfd
        simp [Finmap.lookup_insert]
      · rw [Finmap.lookup_insert_of_ne _ hfd, h.byFd_iff, hnew]
        simp [Ne.symm hfd]
    · rw [Finmap.lookup_insert_of_ne _ hid]
      by_cases hfd : fd' = fd
      · subst hfd
        rw [Finmap.lookup_insert]
        constructor
        · intro heq
          exact absurd (Option.some.inj heq).symm hid
        · rintro ⟨conn, hconn, hfd⟩
          exact absurd hfd (hpossible id conn hconn)
      · rw [Finmap.lookup_insert_of_ne _ hfd, h.byFd_iff]
  · intro id conn hconn
    have hconn' : (g.conns.insert g.nextClientId _).lookup id = some conn := hconn
    show id < g.nextClientId + 1
    by_cases hid : id = g.nextClientId
    · omega
    · rw [Finmap.lookup_insert_of_ne _ hid] at hconn'
      exact Nat.lt_succ_of_lt (h.fresh id conn hconn')

/-- What a handler can do: accept a connection, read from one, or neither. -/
theorem Tracked.handle_cases (h : Tracked g) {ev : Event} (hpossible : ev.Possible g)
    (hhandle : g.handle clock ev = some g') :
    (∃ fd, ev = .accept fd ∧ g' = g.handleAccept clock fd) ∨ Keeps g g' ∨
      ∃ (id : Nat) (conn : Conn) (chunks : List (List UInt8)) (g₁ : Gateway),
        g.conns.lookup id = some conn ∧
        chunks.foldlM (fun g data => g.receive clock id data) g = some g₁ ∧ Keeps g₁ g' := by
  cases ev with
  | accept fd =>
    cases hhandle
    exact .inl ⟨fd, rfl, rfl⟩
  | readable fd chunks stop send =>
    simp only [Gateway.handle] at hhandle
    cases hfd : g.byFd.lookup fd with
    | none =>
      rw [hfd] at hhandle
      cases hhandle
      exact .inr (.inl (.refl g))
    | some id =>
      rw [hfd] at hhandle
      obtain ⟨conn, hconn, -⟩ := (h.byFd_iff fd id).mp hfd
      obtain ⟨g₁, hchunks, hkeeps⟩ :=
        (handleReadable_spec clock hconn chunks stop send).2 g' hhandle
      exact .inr (.inr ⟨id, conn, chunks, g₁, hconn, hchunks, hkeeps⟩)
  | writable fd send =>
    simp only [Gateway.handle] at hhandle
    cases hfd : g.byFd.lookup fd with
    | none =>
      rw [hfd] at hhandle
      cases hhandle
      exact .inr (.inl (.refl g))
    | some id =>
      rw [hfd] at hhandle
      obtain ⟨conn, hconn, -⟩ := (h.byFd_iff fd id).mp hfd
      obtain ⟨g₁, hflush, hflushed, -⟩ := flush_spec hconn send
      cases hflush.symm.trans hhandle
      exact .inr (.inl hflushed.toKeeps)
  | responses resps =>
    obtain ⟨g₁, hall, hkeeps⟩ := g.pumpResponses_spec resps
    cases hall.symm.trans hhandle
    exact .inr (.inl hkeeps)
  | tick order => exact .inr (.inl ((tickSessions_spec clock g hpossible).2 g' hhandle))

/-- **Step lemma.** -/
theorem Tracked.handle (h : Tracked g) {ev : Event} (hpossible : ev.Possible g) :
    (g.handle clock ev = none ↔ ev.SendFails clock g) ∧
    ∀ g', g.handle clock ev = some g' → Tracked g' := by
  constructor
  · cases ev with
    | accept fd => simp [Gateway.handle, Event.SendFails]
    | readable fd chunks stop send =>
      simp only [Gateway.handle, Event.SendFails]
      cases hfd : g.byFd.lookup fd with
      | none => simp
      | some id =>
        obtain ⟨conn, hconn, -⟩ := (h.byFd_iff fd id).mp hfd
        refine (handleReadable_spec clock hconn chunks stop send).1.trans ?_
        simp only [Option.some.injEq, exists_and_left, exists_eq_left']
    | writable fd send =>
      simp only [Gateway.handle, Event.SendFails]
      cases hfd : g.byFd.lookup fd with
      | none => simp
      | some id =>
        obtain ⟨conn, hconn, -⟩ := (h.byFd_iff fd id).mp hfd
        obtain ⟨g₁, hflush, -⟩ := flush_spec hconn send
        simp [handleWritable, hflush]
    | responses resps =>
      obtain ⟨g₁, hall, -⟩ := g.pumpResponses_spec resps
      simp [Gateway.handle, Event.SendFails, hall]
    | tick order => exact (tickSessions_spec clock g hpossible).1
  · intro g' hhandle
    rcases h.handle_cases clock hpossible hhandle with
      ⟨fd, rfl, rfl⟩ | hkeeps | ⟨id, conn, chunks, g₁, hconn, hchunks, hkeeps⟩
    · exact h.handleAccept clock hpossible
    · exact hkeeps.tracked h
    · obtain ⟨g₂, conn₂, hchunks₂, -, htracked⟩ := receiveAll_spec clock hconn chunks
      cases hchunks.symm.trans hchunks₂
      exact hkeeps.tracked (htracked h)

variable {clock}

theorem Reachable.tracked (h : Reachable clock g) : Tracked g := by
  induction h with
  | start => exact ⟨by simp, by simp⟩
  | step reach ev possible handled ih => exact (ih.handle clock possible).2 _ handled

/-- In every reachable state and for every event: the handler uses only open
    connections, unless a send fails in `handle_readable` or `tick_sessions` with
    output to send, and both maps hold the same connections. -/
theorem handlers_use_open_conns (h : Reachable clock g) {ev : Event} (hpossible : ev.Possible g) :
    (g.handle clock ev = none ↔ ev.SendFails clock g) ∧
    ∀ fd id, g.byFd.lookup fd = some id ↔ ∃ conn, g.conns.lookup id = some conn ∧ conn.fd = fd :=
  ⟨(h.tracked.handle clock hpossible).1, h.tracked.byFd_iff⟩

end handlers

/-! ### A client that goes away while it logs in -/

/-- One connection, on descriptor 5. -/
def oneConn : Gateway := ({} : Gateway).handleAccept (fun _ => 0) 5

theorem reachable_oneConn : Reachable (fun _ => 0) oneConn :=
  .step .start (.accept 5) (by simp [Event.Possible]) rfl

/-- A login request arrives. -/
def loginArrives (send : SendResult) : Event :=
  .readable 5 [Soup.packet Soup.kLoginRequest (List.replicate 46 (ch ' '))] .wouldBlock send

/-- The login is answered. -/
theorem handlers_use_open_conns_login :
    oneConn.handle (fun _ => 0) (loginArrives (.accepted 33)) ≠ none := by
  have hpossible : (loginArrives (.accepted 33)).Possible oneConn := trivial
  have h := (handlers_use_open_conns reachable_oneConn hpossible).1
  rw [Ne, h]
  rintro ⟨-, hsend, -⟩
  cases hsend

/-- The answer cannot be sent: the handler reads the connection it has closed. -/
theorem closed_conn_used :
    Reachable (fun _ => 0) oneConn ∧ (loginArrives .error).Possible oneConn ∧
      oneConn.handle (fun _ => 0) (loginArrives .error) = none := by
  refine ⟨reachable_oneConn, trivial, ?_⟩
  apply Option.isNone_iff_eq_none.mp
  decide

end Gateway

end MatchingEngine
