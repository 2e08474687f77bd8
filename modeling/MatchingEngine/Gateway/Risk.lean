import MatchingEngine.Engine.Origins
import MatchingEngine.Gateway.Connections
import MatchingEngine.Itch.Codec
import MatchingEngine.Ouch.Wire
import MatchingEngine.Soup.Stream

/-! # From the bytes of clients to the books

    The gateway checks the size and the price of an order, and the engine relies
    on it. Here the check is followed through the whole way: the bytes that
    arrive on a connection, its frames, the login, the decoded commands, the
    queue, the engine and its books.

    `Follows` is the invariant of one connection. It says that the commands it
    has queued are those of the unsequenced packets delivered to it so far, in
    order, and where its session stands in the stream.
-/

namespace MatchingEngine

open Soup (ServerSession Served State framing deliverable LoginAccepted)

/-! ## Section 1: One packet -/

/-- The message in the payload of an unsequenced packet. -/
def decodeCommand (data : List UInt8) : Option CommandMsg :=
  match data with
  | [] => none
  | type :: _ =>
    if type = ch 'O' then (Ouch.decodeEnterOrder data).map .enter
    else if type = ch 'X' then (Ouch.decodeCancelOrder data).map .cancel
    else if type = ch 'U' then (Ouch.decodeReplaceOrder data).map .replace
    else none

/-- The caps on size and price. A market order has no price to check. -/
def CommandMsg.WithinCaps : CommandMsg → Prop
  | .enter m => m.shares ≤ kMaxOrderShares ∧
      (m.price = Ouch.kMarketPrice ∨ m.price ≤ kMaxOrderPrice)
  | .cancel _ => True
  | .replace m => m.shares ≤ kMaxOrderShares ∧ m.price ≤ kMaxOrderPrice

instance : DecidablePred CommandMsg.WithinCaps
  | .enter _ => inferInstanceAs (Decidable (_ ∧ _))
  | .cancel _ => inferInstanceAs (Decidable True)
  | .replace _ => inferInstanceAs (Decidable (_ ∧ _))

/-- The command that is queued for a payload. -/
def admitted (data : List UInt8) : Option CommandMsg :=
  (decodeCommand data).bind (fun msg => if msg.WithinCaps then some msg else none)

theorem admitted_some {data : List UInt8} {msg : CommandMsg} (h : admitted data = some msg) :
    decodeCommand data = some msg ∧ msg.WithinCaps := by
  obtain ⟨msg', hdecode, h⟩ := Option.bind_eq_some_iff.mp h
  split at h
  · rename_i hcaps
    cases h
    exact ⟨hdecode, hcaps⟩
  · cases h

/-- The token that a rejection of the command names. -/
def CommandMsg.rejectedToken : CommandMsg → Ouch.Token
  | .enter m => m.token
  | .cancel m => m.token
  | .replace m => m.replacementToken

/-- A command is queued, or rejected when it is not within the caps. -/
def Backend.submit (clock : Clock) (id : Nat) (b : Backend) (msg : CommandMsg) :
    Backend × List Soup.Reply :=
  if msg.WithinCaps then (b.push ⟨id, msg⟩, []) else b.reject clock msg.rejectedToken

/-- The check of an Enter Order message. -/
theorem enter_withinCaps_iff (m : Ouch.EnterOrder) : (CommandMsg.enter m).WithinCaps ↔
    ¬ (m.shares > kMaxOrderShares ∨ (m.price ≠ Ouch.kMarketPrice ∧ m.price > kMaxOrderPrice)) := by
  show _ ≤ _ ∧ (_ ∨ _ ≤ _) ↔ _
  rw [not_or, not_and_or, not_not, gt_iff_lt, UInt32.not_lt, gt_iff_lt, Int.not_lt]

theorem replace_withinCaps_iff (m : Ouch.ReplaceOrder) : (CommandMsg.replace m).WithinCaps ↔
    ¬ (m.shares > kMaxOrderShares ∨ m.price > kMaxOrderPrice) := by
  show _ ≤ _ ∧ _ ≤ _ ↔ _
  rw [not_or, gt_iff_lt, UInt32.not_lt, gt_iff_lt, Int.not_lt]

/-- `handle_ouch` submits the message it decodes. -/
theorem handleOuch_eq (clock : Clock) (id : Nat) (b : Backend) (data : List UInt8) :
    b.handleOuch clock id data = (decodeCommand data).elim (b, []) (b.submit clock id) := by
  unfold Backend.handleOuch decodeCommand
  cases data with
  | nil => rfl
  | cons type rest =>
    dsimp only
    split
    · cases Ouch.decodeEnterOrder (type :: rest) with
      | none => rfl
      | some m =>
        show _ = Backend.submit clock id b (.enter m)
        rw [Backend.submit, ite_cond_congr (propext (enter_withinCaps_iff m)), ite_not]
        rfl
    · split
      · cases Ouch.decodeCancelOrder (type :: rest) with
        | none => rfl
        | some m =>
          -- a cancel is never checked
          show _ = Backend.submit clock id b (.cancel m)
          rw [Backend.submit, if_pos (show (CommandMsg.cancel m).WithinCaps from trivial)]
      · split
        · cases Ouch.decodeReplaceOrder (type :: rest) with
          | none => rfl
          | some m =>
            show _ = Backend.submit clock id b (.replace m)
            rw [Backend.submit, ite_cond_congr (propext (replace_withinCaps_iff m)), ite_not]
            rfl
        · rfl

/-- `handle_ouch` queues the admitted command, and nothing else. -/
theorem toEngine_handleOuch (clock : Clock) (id : Nat) (b : Backend) (data : List UInt8) :
    (b.handleOuch clock id data).1.toEngine =
      b.toEngine ++ ((admitted data).map (Command.mk id)).toList := by
  rw [handleOuch_eq, admitted]
  cases decodeCommand data with
  | none => simp
  | some msg =>
    by_cases hcaps : msg.WithinCaps
    · simp [Backend.submit, hcaps, Backend.push]
    · simp [Backend.submit, hcaps, Backend.reject]

/-- A price that was decoded has 32 bits. -/
theorem price_of_decodeCommand {data : List UInt8} {msg : CommandMsg}
    (h : decodeCommand data = some msg) {p : Price} (hp : msg.price = some p) : 0 ≤ p ∧
      p < 2 ^ 32 := by
  unfold decodeCommand at h
  split at h
  · cases h
  · split at h
    · obtain ⟨m, hm, rfl⟩ := Option.map_eq_some_iff.mp h
      cases hp
      exact (Ouch.enterOrder_exact.back _ _ hm).1
    · split at h
      · obtain ⟨m, hm, rfl⟩ := Option.map_eq_some_iff.mp h
        cases hp
      · split at h
        · obtain ⟨m, hm, rfl⟩ := Option.map_eq_some_iff.mp h
          cases hp
          exact (Ouch.replaceOrder_exact.back _ _ hm).1
        · cases h

/-! ## Section 2: One connection -/

theorem sends_handleOuch (clock : Clock) (id : Nat) (b : Backend) (data : List UInt8) :
    ∀ r ∈ (b.handleOuch clock id data).2, r.Sends := by
  intro r hr
  rw [handleOuch_eq] at hr
  cases hmsg : decodeCommand data with
  | none =>
    rw [hmsg] at hr
    cases hr
  | some msg =>
    rw [hmsg] at hr
    have hr' : r ∈ (b.submit clock id msg).2 := hr
    by_cases hcaps : msg.WithinCaps
    · rw [Backend.submit, if_pos hcaps] at hr'
      cases hr'
    · rw [Backend.submit, if_neg hcaps] at hr'
      cases List.mem_singleton.mp hr'
      trivial

theorem connListener_acceptsLogins (clock : Clock) (id : Nat) :
    (connListener clock id).AcceptsLogins where
  accepts := fun _ _ => ⟨_, _, List.mem_singleton_self _⟩
  keeps := by
    intro b req reason h
    simp [connListener] at h
  sends := by
    intro b c hc r hr
    cases c with
    | loginRequest req => exact absurd rfl (hc req)
    | unsequenced data => exact sends_handleOuch clock id b data r hr
    | logout => cases hr
    | timeout => cases hr

/-- What a connection queues while it absorbs a frame. -/
theorem toEngine_absorb (clock : Clock) (id : Nat) (v : Soup.View Backend) (pkt : Soup.Packet) :
    (v.absorb (connListener clock id) pkt).listener.toEngine = v.listener.toEngine ++
      ((deliverable v.state [pkt]).filterMap admitted).map (Command.mk id) := by
  unfold Soup.View.absorb
  cases hstate : v.state with
  | closed => simp [deliverable]
  | awaitingLogin =>
    dsimp only
    split
    · cases Soup.decodeLoginRequest pkt.payload with
      | none => simp [deliverable, Soup.View.reply]
      | some req =>
        dsimp only
        rw [Soup.View.answer_listener]
        simp [deliverable, connListener]
    · simp [deliverable]
  | loggedIn =>
    dsimp only
    by_cases htype : pkt.type = Soup.kUnsequenced
    · rw [if_pos htype, Soup.View.answer_listener]
      show (v.listener.handleOuch clock id pkt.payload).1.toEngine = _
      rw [toEngine_handleOuch]
      cases hmsg : admitted pkt.payload <;> simp [deliverable, htype, hmsg]
    · rw [if_neg htype]
      split
      · rw [Soup.View.answer_listener]
        simp [deliverable, htype, connListener]
      · simp [deliverable, htype]

theorem toEngine_absorbAll (clock : Clock) (id : Nat) (v : Soup.View Backend)
    (fs : List Soup.Packet) :
    (fs.foldl (Soup.View.absorb (connListener clock id)) v).listener.toEngine =
      v.listener.toEngine ++ ((deliverable v.state fs).filterMap admitted).map (Command.mk id) := by
  induction fs generalizing v with
  | nil => simp [deliverable]
  | cons pkt fs ih =>
    have hsplit : deliverable v.state (pkt :: fs) =
        deliverable v.state [pkt] ++ deliverable (v.state.next pkt) fs :=
      Soup.deliverable_append v.state [pkt] fs
    rw [List.foldl_cons, ih, toEngine_absorb,
      Soup.View.absorb_state (connListener_acceptsLogins clock id), hsplit, List.filterMap_append,
      List.map_append, List.append_assoc]

namespace Gateway

/-- The commands that a connection has queued. -/
def commandsOf (g : Gateway) (id : Nat) : List CommandMsg :=
  (g.backend.toEngine.filter (fun cmd => cmd.clientId = id)).map Command.msg

/-- The commands of a connection are those of the packets delivered to it. While
    its session is open, these are all the packets received, and the session
    stands behind them. -/
def Follows (g : Gateway) (id : Nat) : Prop :=
  ∃ fs, fs <+: framing.frames (g.received id) ∧
    g.commandsOf id = (deliverable .awaitingLogin fs).filterMap admitted ∧
    ∀ conn, g.conns.lookup id = some conn → conn.session.state ≠ .closed →
      fs = framing.frames (g.received id) ∧
      conn.session.parser.rest = framing.leftover (g.received id) ∧
      conn.session.state = fs.foldl State.next .awaitingLogin

/-- The connections of a gateway, also those that are closed or not yet open. -/
structure InOrder (g : Gateway) : Prop where
  tracked : Tracked g
  follows : ∀ id, g.Follows id
  unopened : ∀ id, g.nextClientId ≤ id → g.received id = [] ∧ g.commandsOf id = []

section steps

variable {clock : Clock} {g g' : Gateway}

theorem InOrder.keeps (h : InOrder g) (hkeeps : Keeps g g') : InOrder g' where
  tracked := hkeeps.tracked h.tracked
  follows := by
    intro id
    obtain ⟨fs, hpart, hcommands, hopen⟩ := h.follows id
    unfold Follows commandsOf
    rw [hkeeps.received, hkeeps.toEngine]
    refine ⟨fs, hpart, hcommands, ?_⟩
    intro conn' hconn' hstate'
    obtain ⟨conn, hconn, hparser, hstate⟩ := hkeeps.session id conn' hconn'
    rcases hstate with hstate | hstate
    · rw [hparser, hstate]
      exact hopen conn hconn (hstate ▸ hstate')
    · exact absurd hstate hstate'
  unopened := by
    intro id hid
    unfold commandsOf
    rw [hkeeps.received, hkeeps.toEngine]
    exact h.unopened id (hkeeps.nextClientId ▸ hid)

theorem InOrder.handleAccept (h : InOrder g) {fd : Nat} (hpossible : (Event.accept fd).Possible g) :
    InOrder (g.handleAccept clock fd) where
  tracked := h.tracked.handleAccept clock hpossible
  follows := by
    intro id
    by_cases hid : id = g.nextClientId
    · -- the new connection has received nothing
      subst hid
      obtain ⟨hreceived, hcommands⟩ := h.unopened _ (Nat.le_refl g.nextClientId)
      refine ⟨[], List.nil_prefix, hcommands, ?_⟩
      intro conn hconn _
      have hconn' : (g.conns.insert g.nextClientId _).lookup g.nextClientId = some conn := hconn
      rw [Finmap.lookup_insert] at hconn'
      cases hconn'
      show [] = framing.frames (g.received g.nextClientId) ∧
        [] = framing.leftover (g.received g.nextClientId) ∧ _
      rw [hreceived]
      exact ⟨rfl, rfl, rfl⟩
    · obtain ⟨fs, hpart, hcommands, hopen⟩ := h.follows id
      refine ⟨fs, hpart, hcommands, ?_⟩
      intro conn hconn
      have hconn' : (g.conns.insert g.nextClientId _).lookup id = some conn := hconn
      rw [Finmap.lookup_insert_of_ne _ hid] at hconn'
      exact hopen conn hconn'
  unopened := by
    intro id hid
    exact h.unopened id (Nat.le_of_succ_le hid)

/-- One read. A closed session drops the bytes, an open one absorbs the frames
    that they complete. -/
theorem receive_cases {id : Nat} {conn : Conn} (hconn : g.conns.lookup id = some conn)
    {data : List UInt8} (hreceive : g.receive clock id data = some g') :
    ∃ conn', g'.conns = g.conns.insert id conn' ∧ conn'.fd = conn.fd ∧ g'.byFd = g.byFd ∧
      g'.nextClientId = g.nextClientId ∧
      g'.received = Function.update g.received id (g.received id ++ data) ∧
      ((conn'.session.state = .closed ∧ g'.backend.toEngine = g.backend.toEngine) ∨
        conn.session.state ≠ .closed ∧
        ∀ xs, conn.session.parser.rest = framing.leftover xs →
          let fresh := framing.frames (framing.leftover xs ++ data)
          g'.backend.toEngine = g.backend.toEngine ++
            ((deliverable conn.session.state fresh).filterMap admitted).map (Command.mk id) ∧
          conn'.session.state = fresh.foldl State.next conn.session.state ∧
          (conn'.session.state ≠ .closed → conn'.session.parser.rest =
            framing.leftover (xs ++ data))) := by
  have hL := connListener_acceptsLogins clock id
  unfold Gateway.receive at hreceive
  rw [hconn, Option.bind_eq_bind, Option.bind_some] at hreceive
  dsimp only at hreceive
  obtain ⟨w, hw⟩ : ∃ w : Served Backend, w =
      ⟨conn.session, { g.backend with readings := g.backend.readings + 1 }, [], []⟩ := ⟨_, rfl⟩
  have hsession : w.session = conn.session := by rw [hw]
  have htoEngine : w.view.listener.toEngine = g.backend.toEngine := by rw [hw]; rfl
  rw [← hw] at hreceive
  cases hreceive
  refine ⟨_, rfl, rfl, rfl, rfl, rfl, ?_⟩
  dsimp only
  by_cases hclosed : conn.session.state = .closed
  · left
    have hdrop : w.onBytes (connListener clock id) data (clock g.backend.readings) = w := by
      unfold Served.onBytes ServerSession.onBytes
      rw [hsession, if_pos hclosed, Served.converse_none, ← hsession]
    rw [hdrop, hsession]
    exact ⟨hclosed, htoEngine⟩
  · right
    refine ⟨hclosed, fun xs hxs => ?_⟩
    -- the session has absorbed what its parser holds, which completes no frame
    have hsplit := Framing.split_leftover (F := framing) xs
    have hstart : Served.Absorbed (connListener clock id) w.view (framing.leftover xs) w :=
      ⟨by rw [Framing.frames_of_none hsplit]; rfl,
        fun _ => by rw [Framing.leftover_of_none hsplit, hsession, hxs]⟩
    have hend := hstart.onBytes hL data (clock g.backend.readings)
    generalize w.onBytes (connListener clock id) data (clock g.backend.readings) = w' at hend ⊢
    have hstate : w.view.state = conn.session.state := congrArg ServerSession.state hsession
    refine ⟨?_, ?_, ?_⟩
    · show w'.view.listener.toEngine = _
      rw [hend.view_eq, toEngine_absorbAll, htoEngine, hstate]
    · show w'.view.state = _
      rw [hend.view_eq, Soup.View.foldl_absorb_state hL, hstate]
    · intro hopen
      rw [Framing.leftover_append]
      exact hend.rest_eq hopen

theorem InOrder.receive (h : InOrder g) {id : Nat} {conn : Conn}
    (hconn : g.conns.lookup id = some conn) {data : List UInt8}
    (hreceive : g.receive clock id data = some g') : InOrder g' := by
  obtain ⟨conn', hconns, hfd, hbyFd, hnext, hreceived, hread⟩ := receive_cases hconn hreceive
  have hself : g'.received id = g.received id ++ data := by rw [hreceived, Function.update_self]
  have hopened : id < g.nextClientId := h.tracked.fresh id conn hconn
  -- only commands of `id` are queued
  obtain ⟨queued, hqueued⟩ : ∃ msgs : List CommandMsg, g'.backend.toEngine =
      g.backend.toEngine ++ msgs.map (Command.mk id) := by
    obtain ⟨fs, -, -, hopen⟩ := h.follows id
    rcases hread with ⟨-, hsame⟩ | ⟨hlive, hread⟩
    · exact ⟨[], by rw [hsame]; simp⟩
    · exact ⟨_, (hread _ (hopen conn hconn hlive).2.1).1⟩
  have hothers : ∀ i, i ≠ id → g'.received i = g.received i ∧ g'.commandsOf i = g.commandsOf i ∧
      g'.conns.lookup i = g.conns.lookup i := by
    intro i hi
    refine ⟨by rw [hreceived, Function.update_of_ne hi], ?_, ?_⟩
    · unfold commandsOf
      rw [hqueued, List.filter_append, List.filter_map]
      simp [Function.comp_def, Ne.symm hi]
    · rw [hconns, Finmap.lookup_insert_of_ne _ hi]
  constructor
  · exact Tracked.congr (g := g.setConn id conn') (h.tracked.setConn hconn hfd) hconns hbyFd hnext
  · intro i
    by_cases hi : i = id
    · subst hi
      obtain ⟨fs, hpart, hcommands, hopen⟩ := h.follows i
      have hframes : framing.frames (g'.received i) = framing.frames (g.received i) ++
          framing.frames (framing.leftover (g.received i) ++ data) := by
        rw [hself, Framing.frames_append]
      have hconn' : g'.conns.lookup i = some conn' := by rw [hconns, Finmap.lookup_insert]
      rcases hread with ⟨hclosed, hsame⟩ | ⟨hlive, hread⟩
      · refine ⟨fs, hpart.trans (hframes ▸ List.prefix_append _ _), ?_, ?_⟩
        · unfold commandsOf
          rw [hsame]
          exact hcommands
        · intro c hc hstate
          cases hconn'.symm.trans hc
          exact absurd hclosed hstate
      · obtain ⟨rfl, hrest, hstate⟩ := hopen conn hconn hlive
        obtain ⟨htoEngine, hstate', hrest'⟩ := hread _ hrest
        refine ⟨framing.frames (g'.received i), List.prefix_rfl, ?_, ?_⟩
        · rw [hframes, Soup.deliverable_append, ← hstate, List.filterMap_append, ← hcommands]
          unfold commandsOf
          rw [htoEngine, List.filter_append, List.map_append, List.filter_map]
          simp [Function.comp_def]
        · intro c hc hlive'
          cases hconn'.symm.trans hc
          refine ⟨rfl, ?_, ?_⟩
          · rw [hself]
            exact hrest' hlive'
          · rw [hframes, List.foldl_append, ← hstate, hstate']
    · obtain ⟨hreceived', hcommands', hconn'⟩ := hothers i hi
      unfold Follows
      rw [hreceived', hcommands', hconn']
      exact h.follows i
  · intro i hi
    have hne : i ≠ id := by omega
    obtain ⟨hreceived', hcommands', -⟩ := hothers i hne
    rw [hreceived', hcommands']
    exact h.unopened i (hnext ▸ hi)

/-- A connection is read to the end. -/
theorem InOrder.receiveAll (h : InOrder g) {id : Nat} {conn : Conn}
    (hconn : g.conns.lookup id = some conn) {chunks : List (List UInt8)}
    (hreceive : chunks.foldlM (fun g data => g.receive clock id data) g = some g') :
      InOrder g' := by
  induction chunks generalizing g conn with
  | nil =>
    cases hreceive
    exact h
  | cons data chunks ih =>
    obtain ⟨g₁, conn₁, hreceive₁, hconn₁, -⟩ := receive_spec clock hconn data
    rw [List.foldlM_cons, hreceive₁] at hreceive
    exact ih (h.receive hconn hreceive₁) hconn₁ hreceive

/-- **Step lemma.** -/
theorem InOrder.handle (h : InOrder g) {ev : Event} (hpossible : ev.Possible g)
    (hhandle : g.handle clock ev = some g') : InOrder g' := by
  rcases h.tracked.handle_cases clock hpossible hhandle with
    ⟨fd, rfl, rfl⟩ | hkeeps | ⟨id, conn, chunks, g₁, hconn, hchunks, hkeeps⟩
  · exact h.handleAccept hpossible
  · exact h.keeps hkeeps
  · exact (h.receiveAll hconn hchunks).keeps hkeeps

/-- **Run lemma.** -/
theorem Reachable.inOrder (h : Reachable clock g) : InOrder g := by
  induction h with
  | start =>
    refine ⟨⟨by simp, by simp⟩, fun id => ⟨[], List.nil_prefix, rfl, ?_⟩, fun id _ => ⟨rfl, rfl⟩⟩
    intro conn hconn
    cases hconn
  | step reach ev possible handled ih => exact ih.handle possible handled

end steps

/-! ## Section 3: The queue and the engine -/

section queue

variable {clock : Clock} {g : Gateway} (h : Reachable clock g)

include h

/-- What a connection has queued comes from the packets delivered on it. -/
theorem Reachable.commandsOf (id : Nat) :
    ∃ payloads, payloads <+: deliverable .awaitingLogin (framing.frames (g.received id)) ∧
      g.commandsOf id = payloads.filterMap admitted := by
  obtain ⟨fs, ⟨more, hmore⟩, hcommands, -⟩ := h.inOrder.follows id
  refine ⟨deliverable .awaitingLogin fs, ?_, hcommands⟩
  rw [← hmore, Soup.deliverable_append]
  exact List.prefix_append _ _

/-- A queued command was admitted, and its connection had logged in. -/
theorem Reachable.queued {cmd : Command} (hcmd : cmd ∈ g.backend.toEngine) :
    LoginAccepted (framing.frames (g.received cmd.clientId)) ∧
      ∃ data ∈ deliverable .awaitingLogin (framing.frames (g.received cmd.clientId)),
        decodeCommand data = some cmd.msg ∧ cmd.msg.WithinCaps := by
  obtain ⟨payloads, hpart, hcommands⟩ := h.commandsOf cmd.clientId
  have hmem : cmd.msg ∈ g.commandsOf cmd.clientId :=
    List.mem_map_of_mem (List.mem_filter.mpr ⟨hcmd, by simp⟩)
  rw [hcommands] at hmem
  obtain ⟨data, hdata, hadmitted⟩ := List.mem_filterMap.mp hmem
  have hdelivered := hpart.subset hdata
  exact ⟨Soup.loginAccepted_of_deliverable (List.ne_nil_of_mem hdelivered), data, hdelivered,
    admitted_some hadmitted⟩

end queue

/-- What the engine makes of the commands `cmds`, against the bytes that the
    gateway received. -/
structure RiskCapped (g : Gateway) (cmds : List (Nat × Command)) (e : Engine FastBook) : Prop where
  /-- What rests is within the caps, and its owner has logged in. -/
  resting : ∀ symbol, ∃ snap, e.bookSnapshot symbol = some snap ∧
    ∀ side, ∀ o ∈ PriorityBook.entries snap side,
      (0 < o.price ∧ o.price ≤ kMaxOrderPrice) ∧ (0 < o.openQty ∧ o.openQty ≤ kMaxOrderShares) ∧
      ∃ info, e.orders.lookup o.id = some info ∧
        LoginAccepted (framing.frames (g.received info.clientId))
  /-- Four bytes are enough for every price that is sent. -/
  prices : ∀ o ∈ e.out, ∀ p, o.price = some p → Itch.priceOnWire p = p
  /-- Each command is that of one packet, in the order of the packets. -/
  packets : ∀ client, ∃ payloads,
    payloads <+: deliverable .awaitingLogin (framing.frames (g.received client)) ∧
      ((cmds.map Prod.snd).filter (fun cmd => cmd.clientId = client)).map Command.msg =
        payloads.filterMap admitted

/-- An order that a command within the caps may rest is within the caps. -/
theorem within_of_offers {msg : CommandMsg} {r : Resting} (hoffers : msg.Offers r)
    (hcaps : msg.WithinCaps) : r.price ≤ kMaxOrderPrice ∧ r.openQty ≤ kMaxOrderShares := by
  cases msg with
  | enter m =>
    obtain ⟨hmarket, -, hprice, hqty⟩ := hoffers
    -- a market order never rests, so its price was checked
    exact ⟨hprice ▸ hcaps.2.resolve_left hmarket, UInt32.le_trans hqty hcaps.1⟩
  | replace m => exact ⟨hoffers.1 ▸ hcaps.2, UInt32.le_trans hoffers.2 hcaps.1⟩
  | cancel m => exact hoffers.elim

/-- **The caps hold end to end.** Whatever arrives on any connections, in whatever
    pieces and order, whenever the engine takes the commands from the queue. -/
theorem risk_caps_hold {clock : Clock} {g : Gateway} (h : Reachable clock g)
    (cmds : List (Nat × Command)) (hcmds : cmds.map Prod.snd <+: g.backend.toEngine) :
    ∃ e, Engine.run ({} : Engine FastBook) cmds = some e ∧ RiskCapped g cmds e := by
  obtain ⟨e, v, hrun, hv, hreal, htape, hchart⟩ := Engine.run_tape cmds
  obtain ⟨e', hrun', howners, hprices⟩ := Engine.run_sourced cmds
  cases hrun.symm.trans hrun'
  have hmirror := (hv.inv inv_fresh).mirror
  have hqueued : ∀ c ∈ cmds, c.2 ∈ g.backend.toEngine := fun c hc =>
    hcmds.subset (List.mem_map_of_mem hc)
  refine ⟨e, hrun, ?_, ?_, ?_⟩
  · intro symbol
    refine ⟨_, hreal.bookSnapshot symbol, fun side o ho => ?_⟩
    rw [(hmirror.wf symbol).entries_snapshot] at ho
    have hwf := (hmirror.wf symbol).sides side
    -- the command that introduced the order
    obtain ⟨m, hm, -, r, hr, -, hprice, hqty⟩ := htape.introduced ho
    obtain ⟨-, c, hc, hoffers⟩ := hchart.introduced m hm r hr
    obtain ⟨-, data, -, -, hcaps⟩ := h.queued (hqueued c hc)
    obtain ⟨hmaxPrice, hmaxQty⟩ := within_of_offers hoffers hcaps
    refine ⟨⟨hwf.price_pos o ho, hprice ▸ hmaxPrice⟩, ⟨UInt32.pos_iff_ne_zero.mpr (hwf.pos o ho),
      UInt32.le_trans hqty hmaxQty⟩, ?_⟩
    obtain ⟨info, hinfo, -⟩ := hmirror.resting ho
    have hlookup := (hreal.records.orders o.id).trans hinfo
    obtain ⟨c', hc', hclient⟩ := howners o.id info hlookup
    exact ⟨info, hlookup, hclient ▸ (h.queued (hqueued c' hc')).1⟩
  · intro o ho p hp
    obtain ⟨c, hc, hprice⟩ := hprices o ho p hp
    obtain ⟨-, data, -, hdecode, -⟩ := h.queued (hqueued c hc)
    obtain ⟨hnonneg, hlt⟩ := price_of_decodeCommand hdecode hprice
    exact Itch.priceOnWire_of_fits hnonneg hlt
  · intro client
    obtain ⟨payloads, hpart, hcommands⟩ := h.commandsOf client
    have htaken : ((cmds.map Prod.snd).filter (fun cmd => cmd.clientId = client)).map Command.msg
        <+: payloads.filterMap admitted := by
      rw [← hcommands]
      exact (hcmds.filter _).map _
    obtain ⟨taken, htakenPrefix, heq⟩ := List.prefix_filterMap_iff.mp htaken
    exact ⟨taken, htakenPrefix.trans hpart, heq⟩

/-! ### One order -/

/-- A buy of 100 shares at 1.00, as an Enter Order message. -/
def buyMessage : List UInt8 :=
  [ch 'O'] ++ List.replicate 14 (ch 'a') ++ [ch 'B'] ++ [0, 0, 0, 100] ++ List.replicate 8
    (ch 'S') ++ [0, 0, 0x27, 0x10] ++ [0, 1, 0x86, 0x9F] ++ List.replicate 13 (ch ' ')

/-- A login, and a packet with the order behind it. -/
def orderArrives : Event :=
  .readable 5 [Soup.packet Soup.kLoginRequest (List.replicate 46 (ch ' ')) ++
    Soup.packet Soup.kUnsequenced buyMessage] .wouldBlock (.accepted 33)

/-- The order reaches the engine. -/
theorem risk_caps_hold_buy : ∃ g cmd e, Reachable (fun _ => 0) g ∧ g.backend.toEngine = [cmd] ∧
    Engine.run ({} : Engine FastBook) [(0, cmd)] = some e ∧ RiskCapped g [(0, cmd)] e := by
  have hone : ((oneConn.handle (fun _ => 0) orderArrives).map
      (fun g => g.backend.toEngine.length)) = some 1 := by decide
  obtain ⟨g, hhandle, hlength⟩ := Option.map_eq_some_iff.mp hone
  obtain ⟨cmd, hcmd⟩ := List.length_eq_one_iff.mp hlength
  have hreach : Reachable (fun _ => 0) g := .step reachable_oneConn orderArrives trivial hhandle
  obtain ⟨e, hrun, hcapped⟩ := risk_caps_hold hreach [(0, cmd)] (by simp [hcmd])
  exact ⟨g, cmd, e, hreach, hcmd, hrun, hcapped⟩

end Gateway

end MatchingEngine
