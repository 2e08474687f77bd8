import MatchingEngine.Client.OuchClient
import MatchingEngine.Exchange.Mailroom

/-! # From a client to the engine and back

    A client that is connected to the exchange by TCP: the gateway has received
    a front part of what the client has written, and the client has heard a front
    part of what the gateway has sent. The threads of the exchange, the pieces in
    which bytes arrive and the calls of the client are arbitrary.

    What reaches the engine are the messages of the client's calls, in order and
    as they were made, without those beyond the caps. What the handler is told is
    what the exchange has queued for the client, in order; it concerns orders of
    this client only. And when nothing is under way, nothing is missing
    (`round_trip`).
-/

namespace MatchingEngine

open Soup (Packet framing deliverable)
open Client (OuchClient Call Meets Notice said noticeOf)

/-! ## Section 1: What goes up -/

namespace Client

/-- The client has logged in and has made these calls. -/
def Ran (login : Meets) (calls : List (Call × Meets)) (c : OuchClient) : Prop :=
  ∃ username password logout reads c₀,
    OuchClient.connect {} username password login logout reads = (c₀, true) ∧ c = c₀.run calls

/-- The socket took every packet that the client has sent, each in one piece. The client
    does not look at the result of `send`. -/
def AllTaken (login : Meets) (calls : List (Call × Meets)) : Prop :=
  login.Roomy ∧ ∀ s ∈ calls, s.2.Roomy

/-- What is delivered of a session, up to its logout. -/
theorem deliverable_spoken {msgs : List CommandMsg} {pkts : List Packet} (h : Spoken msgs pkts) :
    deliverable .loggedIn pkts = msgs.map encoded := by
  obtain ⟨data, last, rfl, hdata, hmsgs, hlast⟩ := h.parts
  rw [← hmsgs]
  clear hmsgs h
  induction data with
  | nil =>
    cases last with
    | nil => rfl
    | cons pkt last =>
      rw [hlast pkt List.mem_cons_self]
      exact Soup.deliverable_closed last
  | cons pkt data ih =>
    have hstays : Soup.State.next .loggedIn pkt = .loggedIn := if_neg (hdata pkt List.mem_cons_self)
    have hrest := ih (fun p hp => hdata p (List.mem_cons_of_mem _ hp))
    rw [List.cons_append, deliverable, hstays, hrest]
    by_cases htype : pkt.type = Soup.kUnsequenced
    · rw [if_pos ⟨rfl, htype⟩,
        List.filterMap_cons_some (b := pkt.payload) (by simp [payload?, htype])]
    · rw [if_neg (fun hboth => htype hboth.2), List.filterMap_cons_none (by simp [payload?, htype])]

/-- The bytes of a client that has logged in. -/
theorem Ran.written {login : Meets} {calls : List (Call × Meets)} {c : OuchClient}
    (h : Ran login calls c) (htaken : AllTaken login calls) :
    ∃ first pkts, c.wire = (first :: pkts).flatMap Packet.bytes ∧
      (∀ pkt ∈ first :: pkts, pkt.Fits) ∧ Soup.State.next .awaitingLogin first = .loggedIn ∧
      first.type ≠ Soup.kUnsequenced ∧ Spoken (said calls) pkts := by
  obtain ⟨username, password, logout, reads, c₀, hconnect, rfl⟩ := h
  obtain ⟨hopen, hwire, -⟩ := connect_spec htaken.1 hconnect
  obtain ⟨pkts, hpkts, hspoken⟩ := OuchClient.wire_run hopen htaken.2
  obtain ⟨hlogin, hlength⟩ := loginPacket_accepted username password
  refine ⟨loginPacket username password, pkts, by rw [hpkts, hwire]; rfl, ?_, ?_,
    show Soup.kLoginRequest ≠ Soup.kUnsequenced by decide, hspoken⟩
  · rintro pkt (_ | ⟨_, hpkt⟩)
    · show (loginPacket username password).payload.length ≤ 65534
      rw [hlength]
      decide
    · exact hspoken.fits pkt hpkt
  · have htype : (loginPacket username password).type = Soup.kLoginRequest := rfl
    rw [Soup.State.next, if_pos htype, if_pos hlogin]

/-- What is delivered of the bytes that have arrived. -/
theorem Ran.delivered {login : Meets} {calls : List (Call × Meets)} {c : OuchClient}
    (h : Ran login calls c) (htaken : AllTaken login calls) {received : List UInt8}
    (hup : received <+: c.wire) :
    deliverable .awaitingLogin (framing.frames received) <+: (said calls).map encoded ∧
      (received = c.wire →
        deliverable .awaitingLogin (framing.frames received) = (said calls).map encoded) := by
  obtain ⟨first, pkts, hwire, hfits, hlogin, htype, hspoken⟩ := h.written htaken
  have hall : deliverable .awaitingLogin (first :: pkts) = (said calls).map encoded := by
    rw [deliverable, if_neg (fun hboth => htype hboth.2), hlogin, deliverable_spoken hspoken]
  rw [hwire] at hup ⊢
  rw [Soup.framing_encodes.frames_of_isPrefix hfits hup, ← hall]
  constructor
  · have hpart : Framing.whole Packet.bytes received.length (first :: pkts) <+: first :: pkts :=
      Framing.whole_isPrefix _ _
    obtain ⟨more, hmore⟩ := hpart
    conv => rhs; rw [← hmore, Soup.deliverable_append]
    exact List.prefix_append _ _
  · rintro rfl
    rw [Framing.whole_flatMap]

theorem decode_said {calls : List (Call × Meets)} {msg : CommandMsg} (h : msg ∈ said calls) :
    decodeCommand (encoded msg) = some msg := by
  induction calls with
  | nil => cases h
  | cons s calls ih =>
    obtain ⟨call, env⟩ := s
    by_cases hcall : call = .close
    · subst hcall
      cases h
    · rw [said_cons hcall] at h
      rcases List.mem_append.mp h with h | h
      · exact (decodeCommand_encoded (Option.mem_toList.mp h)).1
      · exact ih h

/-- The gateway forwards the messages that are within the caps. -/
theorem admitted_said (calls : List (Call × Meets)) :
    ((said calls).map encoded).filterMap admitted =
      (said calls).filter (fun msg => msg.WithinCaps) := by
  rw [List.filterMap_map, ← List.filterMap_eq_filter]
  apply List.filterMap_congr
  intro msg hmsg
  show (decodeCommand (encoded msg)).bind _ = _
  rw [decode_said hmsg, Option.bind_some, Option.guard]
  simp

end Client

/-! ## Section 2: What comes down -/

/-- What a packet says to the handler. -/
def Outgoing.notice : Outgoing → Option Notice
  | .riskReject time token => some (.rejected ⟨time, token, ch 'R'⟩)
  | .response msg => some (noticeOf msg)
  | .loginAccepted | .loginRejected | .heartbeat => none

theorem Outgoing.packet_fits (o : Outgoing) : o.packet.Fits := by
  have hresponse : ∀ r : Ouch.Response, (r.encode.getD []).length ≤ 80 := by
    intro r
    obtain ⟨bytes, hencode, hlength⟩ := Ouch.encode_response r
    rw [hencode, Option.getD_some, hlength]
    cases r <;> exact Nat.le_of_ble_eq_true rfl
  show o.packet.payload.length ≤ 65534
  cases o with
  | loginAccepted => simp [Outgoing.packet]
  | loginRejected | heartbeat => simp [Outgoing.packet]
  | riskReject time token => exact Nat.le_trans (hresponse _) (by decide)
  | response msg => exact Nat.le_trans (hresponse _) (by decide)

theorem Outgoing.told_packet (o : Outgoing) : Client.told o.packet = o.notice := by
  cases o with
  | loginAccepted | loginRejected | heartbeat => rfl
  | response msg => exact (if_pos rfl).trans (Client.dispatch_encode msg)
  | riskReject time token =>
    have hnotice : noticeOf (.rejected ⟨time.toNat, token, ch 'R'⟩) =
        .rejected ⟨time, token, ch 'R'⟩ := by
      simp [noticeOf, Ouch.Rejected.toWire]
    rw [Outgoing.notice, ← hnotice]
    exact (if_pos rfl).trans (Client.dispatch_encode _)

namespace Client

/-- After a poll, no whole packet is left to read. -/
theorem OuchClient.frames_poll {c : OuchClient} (hc : c.connected = true)
    (chunks : List (List UInt8))
    (env : Meets) : framing.frames (c.call (.poll chunks, env)).parser.rest = [] := by
  have hread : framing.frames (c.receiveAll chunks).parser.rest = [] := by
    rw [(c.receiveAll_spec chunks).1]
    exact Framing.frames_of_none (Framing.split_leftover _)
  rw [OuchClient.call, OuchClient.poll, if_pos hc]
  dsimp only
  split
  · unfold OuchClient.sendRaw
    split
    · exact hread
    · exact hread
  · exact hread

/-- The answer to the login was the first packet that was queued. -/
theorem login_first {queued : List Outgoing} (hsaid : Said .closed queued)
    {skipped taken : List Packet} {pkt : Packet} (hskipped : ∀ p ∈ skipped, OuchClient.Skipped p)
    (haccepted : pkt.type = Soup.kLoginAccepted)
    (hpart : skipped ++ pkt :: taken <+: queued.map Outgoing.packet) :
    ∃ rest, queued = .loginAccepted :: rest ∧ skipped = [] ∧
      taken <+: rest.map Outgoing.packet := by
  obtain rfl | rfl | ⟨rest, rfl, -⟩ := hsaid
  · cases skipped <;> cases List.prefix_nil.mp hpart
  · cases skipped with
    | nil =>
      obtain ⟨rfl, -⟩ := List.cons_prefix_cons.mp hpart
      exact absurd haccepted (by decide)
    | cons p skipped =>
      obtain ⟨rfl, -⟩ := List.cons_prefix_cons.mp hpart
      exact absurd rfl (hskipped _ List.mem_cons_self).2.2
  · cases skipped with
    | nil => exact ⟨rest, rfl, rfl, (List.cons_prefix_cons.mp hpart).2⟩
    | cons p skipped =>
      obtain ⟨rfl, -⟩ := List.cons_prefix_cons.mp hpart
      exact absurd rfl (hskipped _ List.mem_cons_self).2.1

theorem told_packets (os : List Outgoing) :
    (os.map Outgoing.packet).filterMap told = os.filterMap Outgoing.notice := by
  rw [List.filterMap_map]
  exact congrArg (fun f => os.filterMap f) (funext fun o => o.told_packet)

/-- The handler was told what was queued, from the front. -/
theorem Ran.notices {login : Meets} {calls : List (Call × Meets)} {c : OuchClient}
    (h : Ran login calls c) (htaken : AllTaken login calls) {queued : List Outgoing}
    (hsaid : Said .closed queued) (hdown : c.heard <+: queued.flatMap Outgoing.bytes) :
    c.notices <+: queued.filterMap Outgoing.notice ∧
      (c.heard = queued.flatMap Outgoing.bytes → framing.frames c.parser.rest = [] →
        c.notices = queued.filterMap Outgoing.notice) := by
  obtain ⟨username, password, logout, reads, c₀, hconnect, rfl⟩ := h
  obtain ⟨-, -, skipped, pkt, hskipped, haccepted, htold⟩ := connect_spec htaken.1 hconnect
  obtain ⟨taken, hfits, hheard, hnotices⟩ := (OuchClient.Told.run htold calls).heard
  have hbytes : queued.flatMap Outgoing.bytes =
      (queued.map Outgoing.packet).flatMap Packet.bytes := by
    rw [List.flatMap_map]
    rfl
  have hvalid : ∀ p ∈ queued.map Outgoing.packet, p.Fits := by
    intro p hp
    obtain ⟨o, -, rfl⟩ := List.mem_map.mp hp
    exact o.packet_fits
  rw [hbytes] at hdown ⊢
  -- the packets that were taken out, then those that are left to read
  have hread : framing.frames (c₀.run calls).heard =
      skipped ++ pkt :: taken ++ framing.frames (c₀.run calls).parser.rest := by
    rw [hheard, Soup.framing_encodes.frames_flatMap hfits]
    simp
  have hwhole : framing.frames (c₀.run calls).heard <+: queued.map Outgoing.packet := by
    rw [Soup.framing_encodes.frames_of_isPrefix hvalid hdown]
    exact Framing.whole_isPrefix _ _
  have hpart : skipped ++ pkt :: taken <+: queued.map Outgoing.packet :=
    (hread ▸ List.prefix_append _ _).trans hwhole
  obtain ⟨rest, rfl, rfl, htaken⟩ := login_first hsaid hskipped haccepted hpart
  have hlogin : (Outgoing.loginAccepted :: rest).filterMap Outgoing.notice =
      rest.filterMap Outgoing.notice :=
    rfl
  rw [hlogin, hnotices, ← told_packets]
  refine ⟨htaken.filterMap told, fun hall hnone => ?_⟩
  have hframes := Soup.framing_encodes.frames_flatMap hvalid []
  rw [List.append_nil, ← hall, hread, hnone, Framing.frames_of_none rfl, List.append_nil,
    List.append_nil] at hframes
  rw [(List.cons.inj hframes).2]

end Client

/-! ## Section 3: Both ways -/

/-- The tokens that the handler reads. -/
def Client.Notice.tokens : Notice → List Ouch.Token
  | .accepted m => [m.token]
  | .executed m => [m.token]
  | .canceled m => [m.token]
  | .replaced m => [m.replacementToken, m.previousToken]
  | .rejected m => [m.token]
  | .systemEvent _ => []

theorem Outgoing.tokens_notice {o : Outgoing} {n : Notice} (h : o.notice = some n) :
    n.tokens = o.tokens := by
  cases o with
  | loginAccepted | loginRejected | heartbeat => cases h
  | riskReject time token =>
    cases h
    rfl
  | response msg =>
    cases h
    cases msg <;> rfl

namespace Exchange

variable {cfg : ExchangeConfig} {x : Exchange}

/-- **The round trip of orders.** A client has logged in and made some calls, and its
    socket took every packet in one piece; the gateway has received a front part of
    what the client has written, and the client has heard a front part of what the
    gateway has sent.

    - The engine was given the first of the client's messages within the caps, and
      all of them if everything has arrived on a connection that is open.
    - The handler was told the first of what was queued for the client, and all of
      it if everything was heard and the last call was a poll.
    - Every token that the handler was told is one that the client sent. -/
theorem round_trip (h : Reachable cfg x) (id : Nat) {login : Meets}
    {calls : List (Call × Meets)} {c : OuchClient} (hran : Client.Ran login calls c)
    (htaken : Client.AllTaken login calls) (hup : x.gateway.received id <+: c.wire)
    (hdown : c.heard <+: x.gateway.sent id) :
    (x.gateway.commandsOf id <+: (said calls).filter (fun msg => msg.WithinCaps) ∧
      (x.gateway.received id = c.wire → (∃ conn, x.gateway.conns.lookup id = some conn ∧
          conn.session.state ≠ .closed) →
        x.gateway.commandsOf id = (said calls).filter (fun msg => msg.WithinCaps))) ∧
    (c.notices <+: (x.queued id).filterMap Outgoing.notice ∧
      (c.heard = (x.queued id).flatMap Outgoing.bytes →
        (∃ chunks env, calls.getLast? = some (.poll chunks, env)) → c.connected = true →
        c.notices = (x.queued id).filterMap Outgoing.notice)) ∧
    ∀ n ∈ c.notices, ∀ t ∈ n.tokens, ∃ msg ∈ said calls, msg.brings = some t := by
  have hconversed := h.mailed.conversed
  obtain ⟨hdelivered, hall⟩ := hran.delivered htaken hup
  obtain ⟨fs, ⟨more, hmore⟩, hcommands, -, -, hopen⟩ := hconversed.answered id
  obtain ⟨htold, hfull⟩ :=
    hran.notices htaken (hconversed.said id) (hdown.trans (h.working.gateway.settled id).sent_part)
  refine ⟨⟨?_, ?_⟩, ⟨htold, ?_⟩, ?_⟩
  · -- a session that was closed has answered the first frames only
    rw [hcommands, ← Client.admitted_said]
    have hpart : deliverable .awaitingLogin fs <+:
        deliverable .awaitingLogin (framing.frames (x.gateway.received id)) := by
      rw [← hmore, Soup.deliverable_append]
      exact List.prefix_append _ _
    exact (hpart.trans hdelivered).filterMap admitted
  · rintro hreceived ⟨conn, hconn, hlive⟩
    rw [hcommands, hopen conn hconn hlive, hall hreceived, Client.admitted_said]
  · rintro hheard ⟨chunks, env, hlast⟩ hconnected
    apply hfull hheard
    -- the last call has read everything
    obtain ⟨username, password, logout, reads, c₀, -, rfl⟩ := hran
    obtain ⟨first, rfl⟩ := List.getLast?_eq_some_iff.mp hlast
    have hrun : c₀.run (first ++ [(.poll chunks, env)]) =
        (c₀.run first).call (.poll chunks, env) := by
      simp [OuchClient.run]
    rw [hrun] at hconnected ⊢
    have hpoll : Call.poll chunks ≠ .close := by
      intro h
      cases h
    rw [OuchClient.connected_call hpoll] at hconnected
    exact OuchClient.frames_poll hconnected chunks env
  · intro n hn t ht
    obtain ⟨o, ho, hnotice⟩ := List.mem_filterMap.mp (htold.subset hn)
    rw [Outgoing.tokens_notice hnotice] at ht
    -- the token came with a message delivered on this connection, which the client said
    obtain ⟨data, hdata, msg, hdecode, hbrings⟩ := h.tokens_brought id o ho t ht
    obtain ⟨msg', hmsg', rfl⟩ := List.mem_map.mp (hdelivered.subset hdata)
    cases (Client.decode_said hmsg').symm.trans hdecode
    exact ⟨msg, hmsg', hbrings⟩

section empty

/-- Calls at midnight, over a socket that takes everything. -/
def atMidnight : Meets := ⟨0, 0, .accepted 100⟩

/-- A client enters an order for no shares and is told that it was rejected. -/
def emptyCalls : List (Call × Meets) :=
  [(.enter (text "a") .buy (text "S") 1 0, atMidnight),
    (.poll [(Outgoing.response (.rejected ⟨0, Ouch.makeToken (text "a"), ch 'Z'⟩)).bytes],
      atMidnight)]

def emptyLogin : OuchClient × Bool :=
  OuchClient.connect {} (text "u") (text "p") atMidnight atMidnight [Outgoing.loginAccepted.bytes]

def emptyClient : OuchClient := emptyLogin.1.run emptyCalls

theorem ran_emptyClient : Client.Ran atMidnight emptyCalls emptyClient := by
  have haccepted : emptyLogin.2 = true := by decide +kernel
  exact ⟨text "u", text "p", atMidnight, [Outgoing.loginAccepted.bytes], emptyLogin.1,
    Prod.ext rfl haccepted, rfl⟩

theorem allTaken_emptyClient : Client.AllTaken atMidnight emptyCalls := by
  have hroomy : atMidnight.Roomy := ⟨100, rfl, by decide⟩
  refine ⟨hroomy, fun s hs => ?_⟩
  rcases List.mem_pair.mp hs with rfl | rfl
  · exact hroomy
  · exact hroomy

/-- The bytes of the client arrive in one piece. -/
theorem reachable_emptyTrip : ∃ x, Reachable demoConfig x ∧
    (x.gateway.received 1, x.gateway.sent 1) = (emptyClient.wire, emptyClient.heard) :=
  reachable_rejection emptyClient.wire (by decide +kernel) (by decide +kernel)

/-- The handler has heard of the order that the client has entered. -/
theorem round_trip_empty : ∃ x, Reachable demoConfig x ∧ x.gateway.sent 1 = emptyClient.heard ∧
    emptyClient.notices ≠ [] ∧
    ∀ n ∈ emptyClient.notices, ∀ t ∈ n.tokens, ∃ msg ∈ said emptyCalls, msg.brings = some t := by
  obtain ⟨x, hx, hbytes⟩ := reachable_emptyTrip
  obtain ⟨hreceived, hsent⟩ := Prod.mk.inj hbytes
  refine ⟨x, hx, hsent, by decide +kernel, ?_⟩
  exact (round_trip hx 1 ran_emptyClient allTaken_emptyClient (hreceived ▸ List.prefix_rfl)
    (hsent ▸ List.prefix_rfl)).2.2

end empty

end Exchange

end MatchingEngine
