import MatchingEngine.Gateway.Risk
import MatchingEngine.Soup.Frames

/-! # What a client is sent

    Output for a client goes through three buffers: its session, the `outbuf` of
    its connection and its socket. `flush` moves it on from four handlers, and the
    socket takes as much as it likes.

    `Event.queued` says which packets a handler queues for a client: answers to
    the frames that arrive, heartbeats, and the engine's responses to it. It looks
    at no output buffer. Between handlers, the bytes that the socket took, followed
    by `outbuf`, are the bytes of all packets queued so far; the session has handed
    over its output, and the write interest is on exactly when `outbuf` is not empty
    (`Settled`). Here is what a session queues and what `flush` does for one
    connection. `Delivery` has the handlers and the runs.
-/

namespace MatchingEngine

open Soup (ServerSession Served State framing)

/-! ## Section 1: The packets queued for a client -/

/-- A packet for a client: an answer to a login, a heartbeat, a rejection by the
    gateway itself, or a response of the engine. -/
inductive Outgoing where
  | loginAccepted
  | loginRejected
  | heartbeat
  | riskReject (time : UInt64) (token : Ouch.Token)
  | response (msg : Ouch.Response)
  deriving DecidableEq

def Outgoing.packet : Outgoing → Soup.Packet
  | .loginAccepted =>
    ⟨Soup.kLoginAccepted, Soup.appendAlpha ("SIM01".toList.map ch) 10 ++ Soup.appendSeq 1 20⟩
  | .loginRejected => ⟨Soup.kLoginRejected, [ch 'A']⟩
  | .heartbeat => ⟨Soup.kServerHeartbeat, []⟩
  | .riskReject time token =>
    ⟨Soup.kSequenced, (Ouch.Response.rejected ⟨time.toNat, token, ch 'R'⟩).encode.getD []⟩
  | .response msg => ⟨Soup.kSequenced, msg.encode.getD []⟩

def Outgoing.bytes (o : Outgoing) : List UInt8 := o.packet.bytes

/-- The token in the rejection of an order that is not within the caps. -/
def refused (data : List UInt8) : Option Ouch.Token :=
  (decodeCommand data).bind (fun msg => if msg.WithinCaps then none else some msg.rejectedToken)

/-- A client's frames and the answers to them: where its login stands, how often
    the clock was read, and what was queued. -/
structure Dialogue where
  state : State
  readings : Nat
  queued : List Outgoing := []

namespace Dialogue

variable (clock : Clock)

def say (d : Dialogue) (o : Outgoing) : Dialogue := { d with queued := d.queued ++ [o] }

/-- One frame. -/
def answer (d : Dialogue) (pkt : Soup.Packet) : Dialogue :=
  match d.state with
  | .awaitingLogin =>
    if pkt.type = Soup.kLoginRequest then
      match Soup.decodeLoginRequest pkt.payload with
      | some _ => { d.say .loginAccepted with state := .loggedIn }
      | none => { d.say .loginRejected with state := .closed }
    else d
  | .loggedIn =>
    if pkt.type = Soup.kUnsequenced then
      match refused pkt.payload with
      | some token =>
        { d.say (.riskReject (clock d.readings) token) with readings := d.readings + 1 }
      | none => d
    else if pkt.type = Soup.kLogoutRequest then { d with state := .closed }
    else d
  | .closed => d

/-- One read. The bytes behind the last whole frame wait for the next one. -/
def receive (p : Dialogue × List UInt8) (data : List UInt8) : Dialogue × List UInt8 :=
  ((framing.frames (p.2 ++ data)).foldl (answer clock) { p.1 with readings := p.1.readings + 1 },
    framing.leftover (p.2 ++ data))

end Dialogue

/-- A heartbeat, when the client is logged in, not silent for too long, and was
    sent none for a second. -/
def heartbeats (s : ServerSession) (now : UInt64) : List Outgoing :=
  if s.state = .loggedIn ∧ now - s.lastRecvNs < Soup.kSessionTimeoutNs ∧
      now - s.lastSendNs ≥ Soup.kHeartbeatIntervalNs then [.heartbeat]
  else []

namespace Gateway

/-- The dialogue with a client when its connection becomes readable. -/
def dialogue (g : Gateway) (conn : Conn) : Dialogue × List UInt8 :=
  (⟨conn.session.state, g.backend.readings, []⟩, conn.session.parser.rest)

/-- What the handler of an event queues for the connection `id`. -/
def Event.queued (clock : Clock) (g : Gateway) (id : Nat) (ev : Event) : List Outgoing :=
  match g.conns.lookup id with
  | none => []
  | some conn =>
    match ev with
    | .accept _ => []
    | .writable _ _ => []
    | .readable fd chunks _ _ =>
      if conn.fd = fd then (chunks.foldl (Dialogue.receive clock) (g.dialogue conn)).1.queued
        else []
    | .responses resps =>
      (resps.filter (fun r => r.1.clientId = id)).map (fun r => .response r.1.msg)
    | .tick _ => heartbeats conn.session (clock g.backend.readings)

end Gateway

/-! ## Section 2: A session keeps to its dialogue -/

/-- A session seen from outside, and its dialogue. It had sent `before` when the
    dialogue began. -/
structure Speaks (before : List UInt8) (v : Soup.View Backend) (d : Dialogue) : Prop where
  state : v.state = d.state
  readings : v.listener.readings = d.readings
  sent : v.sent = before ++ d.queued.flatMap Outgoing.bytes

section speaks

variable {clock : Clock} {id : Nat} {before : List UInt8} {v : Soup.View Backend} {d : Dialogue}

theorem Speaks.absorb (h : Speaks before v d) (pkt : Soup.Packet) :
    Speaks before (v.absorb (connListener clock id) pkt) (d.answer clock pkt) := by
  unfold Soup.View.absorb Dialogue.answer
  rw [h.state]
  cases hstate : d.state with
  | closed => exact h
  | awaitingLogin =>
    dsimp only
    by_cases htype : pkt.type = Soup.kLoginRequest
    · rw [if_pos htype, if_pos htype]
      cases Soup.decodeLoginRequest pkt.payload with
      | some req =>
        refine ⟨rfl, h.readings, ?_⟩
        simp [Soup.View.answer, connListener, Soup.View.reply, Dialogue.say, h.sent,
          Outgoing.bytes, Outgoing.packet, Soup.Packet.bytes]
      | none =>
        refine ⟨rfl, h.readings, ?_⟩
        simp [Soup.View.reply, Dialogue.say, h.sent,
          Outgoing.bytes, Outgoing.packet, Soup.Packet.bytes]
    · rw [if_neg htype, if_neg htype]
      exact h
  | loggedIn =>
    dsimp only
    by_cases htype : pkt.type = Soup.kUnsequenced
    · rw [if_pos htype, if_pos htype]
      have hanswer : v.answer (connListener clock id) (.unsequenced pkt.payload) =
          (v.listener.handleOuch clock id pkt.payload).2.foldl Soup.View.reply { v with
            listener := (v.listener.handleOuch clock id pkt.payload).1
            calls := v.calls ++ [.unsequenced pkt.payload] } := rfl
      rw [hanswer, handleOuch_eq, refused]
      cases decodeCommand pkt.payload with
      | none => exact ⟨h.state, h.readings, h.sent⟩
      | some msg =>
        by_cases hcaps : msg.WithinCaps
        · -- the command is queued for the engine, and nothing for the client
          simp only [Option.elim_some, Backend.submit, if_pos hcaps, Option.bind_some]
          exact ⟨h.state, h.readings, h.sent⟩
        · simp only [Option.elim_some, Backend.submit, if_neg hcaps, Option.bind_some]
          refine ⟨h.state, ?_, ?_⟩
          · show v.listener.readings + 1 = _
            rw [h.readings]
          · simp [Backend.reject, Soup.View.reply, Dialogue.say, h.sent, h.readings,
              Outgoing.bytes, Outgoing.packet, Soup.Packet.bytes]
    · rw [if_neg htype, if_neg htype]
      by_cases hlogout : pkt.type = Soup.kLogoutRequest
      · rw [if_pos hlogout, if_pos hlogout]
        exact ⟨rfl, h.readings, h.sent⟩
      · rw [if_neg hlogout, if_neg hlogout]
        exact h

theorem Speaks.absorbAll (h : Speaks before v d) (fs : List Soup.Packet) :
    Speaks before (fs.foldl (Soup.View.absorb (connListener clock id)) v)
      (fs.foldl (Dialogue.answer clock) d) := by
  induction fs generalizing v d with
  | nil => exact h
  | cons pkt fs ih => exact ih (h.absorb pkt)

end speaks

theorem out_tick (s : ServerSession) (now : UInt64) :
    (s.tick now).1.out = s.out ++ (heartbeats s now).flatMap Outgoing.bytes := by
  unfold ServerSession.tick heartbeats
  by_cases hclosed : s.state = .closed
  · simp [hclosed]
  · rw [if_neg hclosed]
    by_cases hsilent : now - s.lastRecvNs ≥ Soup.kSessionTimeoutNs
    · rw [if_pos hsilent, if_neg (fun h => absurd h.2.1 (UInt64.not_lt.mpr hsilent))]
      simp
    · rw [if_neg hsilent]
      by_cases hdue : s.state = .loggedIn ∧ now - s.lastSendNs ≥ Soup.kHeartbeatIntervalNs
      · rw [if_pos hdue, if_pos ⟨hdue.1, UInt64.not_le.mp hsilent, hdue.2⟩]
        simp [ServerSession.queue, Outgoing.bytes, Outgoing.packet, Soup.Packet.bytes]
      · rw [if_neg hdue, if_neg (fun h => hdue ⟨h.1, h.2.2⟩)]
        simp

namespace Gateway

/-! ## Section 3: One connection -/

/-- Everything queued for `id` was sent or waits to be sent. What a closed
    connection sent is a part of it, from the front. -/
structure Owes (g : Gateway) (id : Nat) (queued : List Outgoing) : Prop where
  opened : ∀ conn, g.conns.lookup id = some conn →
    g.sent id ++ conn.pending = queued.flatMap Outgoing.bytes ∧
    (conn.writeEnabled = true ↔ conn.outbuf ≠ [])
  closed : g.conns.lookup id = none → g.sent id <+: queued.flatMap Outgoing.bytes

/-- Between handlers, the session has handed over its output. -/
structure Settled (g : Gateway) (id : Nat) (queued : List Outgoing) :
    Prop extends Owes g id queued where
  collected : ∀ conn, g.conns.lookup id = some conn → conn.session.out = []

/-- Nothing changes for the client `id`. -/
def Unchanged (id : Nat) (g g' : Gateway) : Prop :=
  g'.conns.lookup id = g.conns.lookup id ∧ g'.sent id = g.sent id

section line

variable {g g₁ g' : Gateway} {id i : Nat} {conn : Conn} {queued fresh : List Outgoing}

theorem Unchanged.trans (h : Unchanged i g g₁) (h' : Unchanged i g₁ g') : Unchanged i g g' :=
  ⟨h'.1.trans h.1, h'.2.trans h.2⟩

theorem Settled.unchanged (h : Settled g i queued) (hsame : Unchanged i g g') :
    Settled g' i queued := by
  obtain ⟨hlookup, hsent⟩ := hsame
  refine ⟨⟨?_, ?_⟩, ?_⟩
  · rw [hlookup, hsent]
    exact h.opened
  · rw [hlookup, hsent]
    exact h.closed
  · rw [hlookup]
    exact h.collected

theorem owes_of_some (hconn : g.conns.lookup id = some conn)
    (hsent : g.sent id ++ conn.pending = queued.flatMap Outgoing.bytes)
    (hflag : conn.writeEnabled = true ↔ conn.outbuf ≠ []) : Owes g id queued where
  opened := by
    intro c hc
    cases hconn.symm.trans hc
    exact ⟨hsent, hflag⟩
  closed := by
    intro hnone
    cases hconn.symm.trans hnone

theorem settled_of_some (hconn : g.conns.lookup id = some conn) (hout : conn.session.out = [])
    (hsent : g.sent id ++ conn.outbuf = queued.flatMap Outgoing.bytes)
    (hflag : conn.writeEnabled = true ↔ conn.outbuf ≠ []) : Settled g id queued where
  toOwes := owes_of_some hconn (by rw [Conn.pending, hout, List.append_nil, hsent]) hflag
  collected := by
    intro c hc
    cases hconn.symm.trans hc
    exact hout

theorem settled_of_none (hnone : g.conns.lookup id = none)
    (hsent : g.sent id <+: queued.flatMap Outgoing.bytes) : Settled g id queued := by
  have hnever : ∀ {P : Conn → Prop} conn, g.conns.lookup id = some conn → P conn := by
    intro P conn hconn
    cases hnone.symm.trans hconn
  exact ⟨⟨hnever, fun _ => hsent⟩, hnever⟩

/-- A closed connection gets none of what is queued later. -/
theorem Settled.more (h : Settled g id queued) (hnone : g.conns.lookup id = none)
    (fresh : List Outgoing) : Settled g id (queued ++ fresh) := by
  apply settled_of_none hnone
  rw [List.flatMap_append]
  exact (h.closed hnone).trans (List.prefix_append _ _)

/-- The session queues packets. -/
theorem Settled.queue (h : Settled g id queued) (hconn : g.conns.lookup id = some conn)
    {s : ServerSession} (hout : s.out = conn.session.out ++ fresh.flatMap Outgoing.bytes)
    (hconn' : g'.conns.lookup id = some { conn with session := s })
    (hsent' : g'.sent id = g.sent id) : Owes g' id (queued ++ fresh) := by
  obtain ⟨hsent, hflag⟩ := h.opened conn hconn
  refine owes_of_some hconn' ?_ hflag
  -- the new bytes come behind all that waits
  rw [hsent', List.flatMap_append, ← hsent, List.append_assoc]
  show _ ++ (conn.outbuf ++ s.out) = _
  rw [hout, Conn.pending, List.append_assoc]

/-- The connection is closed. -/
theorem Owes.close (h : Owes g id queued) (hnone : g'.conns.lookup id = none)
    (hsent : g'.sent id = g.sent id) : Settled g' id queued := by
  apply settled_of_none hnone
  rw [hsent]
  cases hconn : g.conns.lookup id with
  | none => exact h.closed hconn
  | some conn => exact (h.opened conn hconn).1 ▸ List.prefix_append _ _

theorem closeConn_line (hclose : g.closeConn id = some g') :
    g'.conns.lookup id = none ∧ g'.sent = g.sent ∧ ∀ i, i ≠ id → Unchanged i g g' := by
  obtain ⟨conn, -, hg'⟩ := Option.bind_eq_some_iff.mp hclose
  cases hg'
  exact ⟨Finmap.lookup_erase _ _, rfl, fun i hi => ⟨Finmap.lookup_erase_ne hi, rfl⟩⟩

theorem updateWriteFilter_line (hconn : g.conns.lookup id = some conn) {enable : Bool}
    (h : g.updateWriteFilter id enable = some g') :
    g'.conns.lookup id = some { conn with writeEnabled := enable } ∧ g'.sent = g.sent ∧
      ∀ i, i ≠ id → Unchanged i g g' := by
  unfold updateWriteFilter at h
  rw [hconn, Option.bind_eq_bind, Option.bind_some] at h
  split at h
  · rename_i henable
    cases h
    subst henable
    exact ⟨hconn, rfl, fun i _ => ⟨rfl, rfl⟩⟩
  · cases h
    exact ⟨lookup_setConn_self, rfl, fun i hi => ⟨lookup_setConn_ne hi, rfl⟩⟩

theorem unchanged_setConn (hi : i ≠ id) : Unchanged i g (g.setConn id conn) :=
  ⟨lookup_setConn_ne hi, rfl⟩

theorem unchanged_putOnWire (hi : i ≠ id) (bytes : List UInt8) :
    Unchanged i g (g.putOnWire id bytes) :=
  ⟨rfl, Function.update_of_ne hi _ _⟩

/-- **Flushing.** Whatever the socket takes, nothing is lost, sent twice or left
    behind in the session, and the write interest follows `outbuf`. -/
theorem flush_line (hconn : g.conns.lookup id = some conn) {send : SendResult}
    (hflush : g.flush id send = some g') :
    (∀ i, i ≠ id → Unchanged i g g') ∧ ∀ queued, Owes g id queued → Settled g' id queued := by
  by_cases hempty : conn.pending = []
  · rw [flush_empty hconn hempty] at hflush
    cases hflush
    refine ⟨fun i hi => unchanged_setConn hi, fun queued h => ?_⟩
    obtain ⟨hsent, hflag⟩ := h.opened conn hconn
    -- the interest was off, as there was nothing left over
    have hoff : conn.writeEnabled = true ↔ conn.pending ≠ [] := by
      rw [hflag]
      simp [hempty, (List.append_eq_nil_iff.mp hempty).1]
    exact settled_of_some lookup_setConn_self rfl hsent hoff
  cases send with
  | accepted n =>
    rw [flush_accepted hconn hempty] at hflush
    obtain ⟨hconn', hsent', hothers⟩ := updateWriteFilter_line lookup_setConn_self hflush
    refine ⟨fun i hi => ?_, fun queued h => ?_⟩
    · exact ((unchanged_setConn hi).trans
        ((unchanged_putOnWire hi _).trans (unchanged_setConn hi))).trans (hothers i hi)
    · -- what the socket took is at the end of what was sent, the rest is still there
      refine settled_of_some hconn' rfl ?_ (by simp)
      have htaken : g'.sent id = g.sent id ++ conn.pending.take n := by
        rw [hsent']
        exact Function.update_self _ _ _
      show g'.sent id ++ conn.pending.drop n = _
      rw [htaken, List.append_assoc, List.take_append_drop]
      exact (h.opened conn hconn).1
  | wouldBlock =>
    rw [flush_wouldBlock hconn hempty] at hflush
    obtain ⟨hconn', hsent', hothers⟩ := updateWriteFilter_line lookup_setConn_self hflush
    refine ⟨fun i hi => (unchanged_setConn hi).trans (hothers i hi), fun queued h => ?_⟩
    refine settled_of_some hconn' rfl ?_ (by simp [Conn.collect])
    rw [hsent']
    exact (h.opened conn hconn).1
  | error =>
    rw [flush_error hconn hempty] at hflush
    obtain ⟨hnone, hsent', hothers⟩ := closeConn_line hflush
    refine ⟨fun i hi => (unchanged_setConn hi).trans (hothers i hi), fun queued h => ?_⟩
    exact h.close hnone (by rw [hsent']; rfl)

end line

end Gateway

end MatchingEngine
