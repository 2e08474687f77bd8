import MatchingEngine.Exchange.Exchange

/-! # What the exchange tells its clients

    Whatever the threads do and whatever arrives on the connections, the packets
    for a client tell of its own orders only (`own_mail_only`), keep to the
    grammar of the protocol (`stream_well_formed`) and answer each of its orders
    once (`orders_answered`).

    The link between the two ends is `Mailed`: the responses queued for an open
    connection are exactly those that the engine made for it, as far as the
    gateway has taken them out of the queue.
-/

namespace MatchingEngine

open Soup (framing deliverable)
open Engine (Brought)

/-- The messages to one client. -/
def mailFor (id : Nat) (rs : List ClientResponse) : List Ouch.Response :=
  (rs.filter (fun r => r.clientId = id)).map ClientResponse.msg

theorem mailFor_append (id : Nat) (rs rs' : List ClientResponse) :
    mailFor id (rs ++ rs') = mailFor id rs ++ mailFor id rs' := by
  simp [mailFor]

/-- The tokens that a packet names. -/
def Outgoing.tokens : Outgoing → List Ouch.Token
  | .riskReject _ token => [token]
  | .response msg => msg.tokens
  | .loginAccepted | .loginRejected | .heartbeat => []

/-- The token of the Enter Order message that the engine answers. -/
def Outgoing.answers (o : Outgoing) : Option Ouch.Token := o.fromEngine.bind Ouch.Response.answers

namespace Exchange

variable {cfg : ExchangeConfig} {x x' : Exchange} {id : Nat}

/-! ## Section 1: From the engine to the connections -/

/-- The responses queued for a client. -/
def letters (x : Exchange) (id : Nat) : List Ouch.Response :=
  (x.queued id).filterMap Outgoing.fromEngine

/-- The responses that the gateway has taken out of the queue. -/
def taken (x : Exchange) : List ClientResponse := x.engine.responses.take x.pumped

structure Mailed (x : Exchange) : Prop where
  conversed : Gateway.Conversed x.gateway x.queued
  mail : ∀ id, x.letters id <+: mailFor id x.taken
  /-- A connection that is open has missed nothing. -/
  delivered : ∀ id conn, x.gateway.conns.lookup id = some conn → x.letters id = mailFor id x.taken

theorem mailed_start (cfg : ExchangeConfig) : Mailed (start cfg) where
  conversed := Gateway.conversed_start
  mail := fun _ => List.nil_prefix
  delivered := by
    intro id conn hconn
    cases hconn

theorem responsesOf_pushed_part (x : Exchange) : responsesOf x.pushed <+: x.engine.responses := by
  have hsplit : x.engine.responses = responsesOf x.pushed ++
      responsesOf (x.engine.out.drop x.shipped) := by
    rw [pushed, ← responsesOf_append, List.take_append_drop]
    rfl
  rw [hsplit]
  exact List.prefix_append _ _

theorem Working.taken_eq (h : Working x) : x.taken = (responsesOf x.pushed).take x.pumped := by
  obtain ⟨more, hmore⟩ := responsesOf_pushed_part x
  rw [taken, ← hmore, List.take_append_of_le_length h.pumped]

/-- A client that the engine writes to has sent a command. -/
theorem Working.commandsOf_ne_nil (h : Working x) {r : ClientResponse}
    (hr : r ∈ x.engine.responses) : x.gateway.commandsOf r.clientId ≠ [] := by
  obtain ⟨-, htokens, -⟩ := Engine.run_replies x.processed h.engine
  obtain ⟨t, ht⟩ : ∃ t, t ∈ r.msg.tokens := by
    cases r.msg <;> exact ⟨_, List.mem_cons_self⟩
  obtain ⟨c, hc, hclient, -⟩ := htokens r hr t ht
  have hmem : c.msg ∈ x.gateway.commandsOf r.clientId :=
    List.mem_map_of_mem (List.mem_filter.mpr ⟨h.processed.subset hc, by simpa using hclient⟩)
  exact List.ne_nil_of_mem hmem

/-- There is no mail under an id that was not given out. -/
theorem Working.mailFor_unopened (h : Working x) (hid : x.gateway.nextClientId ≤ id) :
    mailFor id x.taken = [] := by
  rw [mailFor, List.map_eq_nil_iff, List.filter_eq_nil_iff]
  intro r hr hclient
  have hid' : r.clientId = id := by simpa using hclient
  apply h.commandsOf_ne_nil (List.mem_of_mem_take hr)
  rw [hid']
  exact (h.gateway.inOrder.unopened id hid).2

theorem Mailed.handle (h : Mailed x) (hwork : Working x) {ev : Gateway.Event}
    (hpossible : ev.Possible x.gateway) (hev : ∀ resps, ev ≠ .responses resps)
    (hhandle : x.handle cfg ev = some x') : Mailed x' := by
  obtain ⟨g, hg, rfl⟩ := Option.map_eq_some_iff.mp hhandle
  have hletters : ∀ i, (x.queued i ++ ev.queued cfg.clock x.gateway i).filterMap
      Outgoing.fromEngine = x.letters i := by
    intro i
    rw [List.filterMap_append, Gateway.fromEngine_queued hev i, List.append_nil]
    rfl
  refine ⟨h.conversed.handle hwork.gateway hpossible hg (fun resps heq => absurd heq (hev resps)),
    fun i => ?_, fun i conn hconn => ?_⟩
  · rw [letters, hletters]
    exact h.mail i
  · rw [letters, hletters]
    rcases hwork.gateway.inOrder.lookup_handle hpossible hg hconn with ⟨-, rfl⟩ | ⟨conn', hconn'⟩
    · -- the new connection
      have hnone : x.letters x.gateway.nextClientId = [] := by
        rw [letters, hwork.gateway.unopened _ (Nat.le_refl _)]
        rfl
      rw [hnone]
      exact (hwork.mailFor_unopened (Nat.le_refl _)).symm
    · exact h.delivered i conn' hconn'

theorem Mailed.pump (h : Mailed x) (hwork : Working x) {sends : List SendResult}
    (hsends : sends.length = x.toGateway.length)
    (hpump : x.pump cfg sends = some x') : Mailed x' := by
  obtain ⟨g, hg, rfl⟩ := Option.map_eq_some_iff.mp hpump
  have hpossible : (Gateway.Event.responses (x.toGateway.zip sends)).Possible x.gateway := trivial
  have hwelcomed : ∀ r ∈ x.toGateway.zip sends, Welcomed (x.queued r.1.clientId) := by
    intro r hr
    apply h.conversed.welcomed
    apply hwork.commandsOf_ne_nil
    exact (responsesOf_pushed_part x).subset (List.mem_of_mem_drop (List.of_mem_zip hr).1)
  -- the queue is taken as a whole
  have htaken : x.engine.responses.take (x.pumped + x.toGateway.length) = x.taken ++
      x.toGateway := by
    have hall : x.pumped + x.toGateway.length = (responsesOf x.pushed).length := by
      rw [toGateway, List.length_drop, Nat.add_sub_cancel' hwork.pumped]
    rw [hall, ← List.prefix_iff_eq_take.mp (responsesOf_pushed_part x), hwork.taken_eq, toGateway,
      List.take_append_drop]
  have hfresh : ∀ i, ((Gateway.Event.responses (x.toGateway.zip sends)).queued
      cfg.clock x.gateway i).filterMap Outgoing.fromEngine =
        (x.gateway.conns.lookup i).elim [] (fun _ => mailFor i x.toGateway) := by
    intro i
    unfold Gateway.Event.queued
    cases hconn : x.gateway.conns.lookup i with
    | none => rfl
    | some conn =>
      have hzip : (x.toGateway.zip sends).map Prod.fst = x.toGateway :=
        List.map_fst_zip (Nat.le_of_eq hsends.symm)
      have hmail : mailFor i x.toGateway =
          ((x.toGateway.zip sends).filter (fun r => r.1.clientId = i)).map (fun r => r.1.msg) := by
        conv_lhs => rw [← hzip]
        rw [mailFor, List.filter_map, List.map_map]
        rfl
      show _ = mailFor i x.toGateway
      rw [hmail, List.filterMap_map]
      exact congrFun List.filterMap_eq_map' _
  have hletters : ∀ i, (x.queued i ++ (Gateway.Event.responses (x.toGateway.zip sends)).queued
      cfg.clock x.gateway i).filterMap Outgoing.fromEngine =
        x.letters i ++ (x.gateway.conns.lookup i).elim [] (fun _ => mailFor i x.toGateway) := by
    intro i
    rw [List.filterMap_append, hfresh]
    rfl
  refine ⟨h.conversed.handle hwork.gateway hpossible hg ?_, fun i => ?_, fun i conn hconn => ?_⟩
  · intro resps heq r hr
    cases heq
    exact hwelcomed r hr
  · rw [letters, hletters, taken, htaken, mailFor_append]
    cases hconn : x.gateway.conns.lookup i with
    | none =>
      rw [Option.elim_none, List.append_nil]
      exact (h.mail i).trans (List.prefix_append _ _)
    | some conn =>
      rw [Option.elim_some, h.delivered i conn hconn]
  · rw [letters, hletters, taken, htaken, mailFor_append]
    rcases hwork.gateway.inOrder.lookup_handle hpossible hg
      hconn with ⟨⟨fd, hev⟩, -⟩ | ⟨conn', hconn'⟩
    · cases hev
    · rw [hconn', Option.elim_some, h.delivered i conn' hconn']

/-- The mail does not depend on where the other threads stand. -/
theorem Mailed.congr (h : Mailed x) (hgateway : x'.gateway = x.gateway)
    (hqueued : x'.queued = x.queued) (htaken : x'.taken = x.taken) : Mailed x' where
  conversed := by
    rw [hgateway, hqueued]
    exact h.conversed
  mail := by
    intro i
    rw [letters, hqueued, htaken]
    exact h.mail i
  delivered := by
    intro i conn hconn
    rw [letters, hqueued, htaken]
    exact h.delivered i conn (hgateway ▸ hconn)

/-- A command adds to the responses behind those that were taken. -/
theorem Working.taken_process (h : Working x) {y : Exchange} {now : Nat} {cmd : Command}
    (hprocess : y.process now cmd = some x') (hengine : y.engine = x.engine)
    (hpumped : y.pumped = x.pumped) : x'.taken = x.taken := by
  obtain ⟨e, outs, -, houts, rfl⟩ := process_cases hprocess
  have hlength : x.pumped ≤ x.engine.responses.length :=
    Nat.le_trans h.pumped (responsesOf_pushed_part x).length_le
  show (responsesOf e.out).take y.pumped = x.engine.responses.take x.pumped
  rw [houts, hengine, hpumped, responsesOf_append]
  exact List.take_append_of_le_length hlength

theorem Mailed.runEngine (h : Mailed x) (hwork : Working x) {now : Nat}
    (hrun : x.runEngine cfg now = some x') : Mailed x' := by
  cases engineStep_of_runEngine hrun with
  | ship o _ =>
    cases o with
    | response r => exact h.congr rfl rfl rfl
    | market ev => exact h.congr rfl rfl rfl
  | pop _ _ _ _ _ _ result | next _ _ _ _ result =>
    have htaken := hwork.taken_process result rfl rfl
    obtain ⟨e, outs, -, -, rfl⟩ := process_cases result
    exact h.congr rfl rfl htaken
  | drain | miss | leave | resume => exact h.congr rfl rfl rfl

theorem Mailed.runMain (h : Mailed x) (hrun : x.runMain = some x') : Mailed x' := by
  unfold Exchange.runMain at hrun
  cases hclosing : x.closing with
  | serving =>
    rw [hclosing] at hrun
    cases hrun
    refine ⟨h.conversed.quiet x.gateway.keeps_closeAll, h.mail, fun i conn hconn => ?_⟩
    cases hconn
  | gatewayStopped | engineStopped =>
    rw [hclosing] at hrun
    cases hrun
    exact h.congr rfl rfl rfl
  | engineStopping | feedStopping =>
    rw [hclosing] at hrun
    dsimp only at hrun
    split at hrun
    · cases hrun
      exact h.congr rfl rfl rfl
    · cases hrun
  | done =>
    rw [hclosing] at hrun
    cases hrun

/-- **Step lemma.** -/
theorem Mailed.step (h : Mailed x) (hwork : Working x) {a : Action} (hpossible : a.Possible x)
    (hstep : x.step cfg a = some x') : Mailed x' := by
  cases a with
  | gateway ev => exact h.handle hwork hpossible.2.1 hpossible.2.2 hstep
  | pump sends => exact h.pump hwork hpossible.2 hstep
  | engine now => exact h.runEngine hwork hstep
  | feed =>
    obtain ⟨t, -, rfl⟩ := Option.map_eq_some_iff.mp hstep
    exact h.congr rfl rfl rfl
  | main => exact h.runMain hstep

/-- **Run lemma.** -/
theorem Reachable.mailed (h : Reachable cfg x) : Mailed x := by
  induction h with
  | start => exact mailed_start cfg
  | step reach a possible stepped ih => exact ih.step reach.working possible stepped

/-! ### An order for no shares -/

def demoConfig : ExchangeConfig := { clock := fun _ => 0, session := Vector.replicate 10 (ch ' ') }

/-- A client connects and sends these bytes. -/
def arrival (bytes : List UInt8) : List Action :=
  [.gateway (.accept 5), .gateway (.readable 5 [bytes] .wouldBlock (.accepted 33))]

theorem allPossible_arrival (bytes : List UInt8) {rest : List Action}
    (hrest : ∀ y, AllPossible demoConfig y rest) :
    AllPossible demoConfig (start demoConfig) (arrival bytes ++ rest) := by
  refine ⟨⟨rfl, ?_, by simp⟩,
    fun y hy => ⟨⟨closing_handle hy, trivial, by simp⟩, fun z _ => hrest z⟩⟩
  intro id conn hconn
  cases hconn

/-- The engine fetches what has arrived, rejects it and pushes the rejection. -/
def rejection (bytes : List UInt8) : List Action :=
  arrival bytes ++ [.engine 0, .engine 0, .engine 0]

/-- The gateway takes the rejection and sends it. -/
theorem reachable_rejection {α : Type} (bytes : List UInt8) {f : Exchange → α} {v : α}
    (hpushed : ((start demoConfig).run demoConfig (rejection bytes)).map
      (fun x => (x.closing, x.toGateway.length)) = some (.serving, 1))
    (hall : ((start demoConfig).run demoConfig (rejection bytes ++ [.pump [.accepted 27]])).map f =
      some v) : ∃ x, Reachable demoConfig x ∧ f x = v := by
  obtain ⟨y, hy, hqueue⟩ := Option.map_eq_some_iff.mp hpushed
  obtain ⟨x, hx, hvalue⟩ := Option.map_eq_some_iff.mp hall
  obtain ⟨hserving, hlength⟩ := Prod.mk.inj hqueue
  rw [run_append, hy, Option.bind_some] at hx
  have hreach : Reachable demoConfig y :=
    Reachable.start.run (allPossible_arrival bytes (by simp [AllPossible, Action.Possible])) hy
  have hpossible : AllPossible demoConfig y [.pump [.accepted 27]] :=
    ⟨⟨hserving, hlength.symm⟩, fun _ _ => trivial⟩
  exact ⟨x, hreach.run hpossible hx, hvalue⟩

/-- A login, and an order for no shares behind it. -/
def emptyOrder : List UInt8 :=
  Soup.packet Soup.kLoginRequest (List.replicate 46 (ch ' ')) ++
    Soup.packet Soup.kUnsequenced (Gateway.buyMessage.set 19 0)

/-- The rejection is queued for the client. -/
theorem reachable_emptyOrder : ∃ x, Reachable demoConfig x ∧ x.queued 1 =
    [.loginAccepted, .response (.rejected ⟨0, Vector.replicate 14 (ch 'a'), ch 'Z'⟩)] :=
  reachable_rejection emptyOrder (by decide +kernel) (by decide +kernel)

/-! ## Section 2: What is sent -/

/-- What the gateway refuses, the command brought in. -/
theorem refused_brings {data : List UInt8} {t : Ouch.Token} (h : refused data = some t) :
    ∃ msg, decodeCommand data = some msg ∧ msg.brings = some t := by
  obtain ⟨msg, hdecode, h⟩ := Option.bind_eq_some_iff.mp h
  refine ⟨msg, hdecode, ?_⟩
  split at h
  · cases h
  · rename_i hcaps
    cases h
    cases msg with
    | enter m => rfl
    | replace m => rfl
    | cancel m => exact absurd trivial hcaps

/-- Every token in the packets queued for a client was brought in by the client. -/
theorem Reachable.tokens_brought (h : Reachable cfg x) (id : Nat) :
    ∀ o ∈ x.queued id, ∀ t ∈ o.tokens,
      ∃ data ∈ deliverable .awaitingLogin (framing.frames (x.gateway.received id)),
        ∃ msg, decodeCommand data = some msg ∧ msg.brings = some t := by
  have hwork := h.working
  have hmail := h.mailed
  obtain ⟨fs, ⟨more, hmore⟩, hcommands, hrefusals, -⟩ := hmail.conversed.answered id
  -- what was delivered up to some frame was delivered
  have hdelivered : ∀ data ∈ deliverable .awaitingLogin fs,
      data ∈ deliverable .awaitingLogin (framing.frames (x.gateway.received id)) := by
    intro data hdata
    rw [← hmore, Soup.deliverable_append]
    exact List.mem_append_left _ hdata
  intro o ho t ht
  cases o with
  | loginAccepted | loginRejected | heartbeat => cases ht
  | riskReject time token =>
    rw [List.mem_singleton.mp ht]
    have hmem : token ∈ (x.queued id).filterMap Outgoing.refusal :=
      List.mem_filterMap.mpr ⟨_, ho, rfl⟩
    rw [hrefusals] at hmem
    obtain ⟨data, hdata, hrefused⟩ := List.mem_filterMap.mp hmem
    exact ⟨data, hdelivered data hdata, refused_brings hrefused⟩
  | response msg =>
    -- a response of the engine to this client
    have hletter : msg ∈ x.letters id := List.mem_filterMap.mpr ⟨_, ho, rfl⟩
    obtain ⟨r, hr, rfl⟩ := List.mem_map.mp ((hmail.mail id).subset hletter)
    obtain ⟨hr, hclient⟩ := List.mem_filter.mp hr
    have hclient : r.clientId = id := by simpa using hclient
    obtain ⟨-, htokens, -⟩ := Engine.run_replies x.processed hwork.engine
    obtain ⟨c, hc, hfrom, hbrings⟩ := htokens r (List.mem_of_mem_take hr) t ht
    have hcommand : c.msg ∈ x.gateway.commandsOf id :=
      List.mem_map_of_mem (List.mem_filter.mpr
        ⟨hwork.processed.subset hc, by simp [hfrom, hclient]⟩)
    rw [hcommands] at hcommand
    obtain ⟨data, hdata, hadmitted⟩ := List.mem_filterMap.mp hcommand
    exact ⟨data, hdelivered data hdata, c.msg, (admitted_some hadmitted).1, hbrings⟩

/-- **Own mail only.** In every state of the exchange, whatever was sent to a
    client is part of the packets queued for it, and every token in these packets
    is one that the client itself brought in, with an Enter or Replace message
    that was delivered on its connection after its login. -/
theorem own_mail_only (h : Reachable cfg x) (id : Nat) :
    x.gateway.sent id <+: (x.queued id).flatMap Outgoing.bytes ∧
      ∀ o ∈ x.queued id, ∀ t ∈ o.tokens,
        ∃ data ∈ deliverable .awaitingLogin (framing.frames (x.gateway.received id)),
          ∃ msg, decodeCommand data = some msg ∧ msg.brings = some t :=
  ⟨(h.working.gateway.settled id).sent_part, h.tokens_brought id⟩

/-- The rejection names the token of the order. -/
theorem own_mail_only_empty : ∃ x, Reachable demoConfig x ∧
    ∃ data ∈ deliverable .awaitingLogin (framing.frames (x.gateway.received 1)),
      ∃ msg, decodeCommand data = some msg ∧ msg.brings = some (Vector.replicate 14 (ch 'a')) := by
  obtain ⟨x, hx, hqueued⟩ := reachable_emptyOrder
  refine ⟨x, hx, (own_mail_only hx 1).2
    (.response (.rejected ⟨0, Vector.replicate 14 (ch 'a'), ch 'Z'⟩)) ?_ _ ?_⟩
  · simp [hqueued]
  · exact List.mem_singleton_self _

/-- **The stream of a client is well formed.** What was sent to a client is part
    of the packets queued for it. These are none, or the rejection of its login
    alone, or first the acceptance of its login and then heartbeats and sequenced
    data only. A client whose session awaits the login was sent nothing. -/
theorem stream_well_formed (h : Reachable cfg x) (id : Nat) :
    x.gateway.sent id <+: (x.queued id).flatMap Outgoing.bytes ∧
      (x.queued id = [] ∨ x.queued id = [.loginRejected] ∨
        ∃ rest, x.queued id = .loginAccepted :: rest ∧ ∀ o ∈ rest, o.Later) ∧
      ∀ conn, x.gateway.conns.lookup id = some conn → conn.session.state = .awaitingLogin →
        x.gateway.sent id = [] := by
  have hconversed := h.mailed.conversed
  have hsent := (h.working.gateway.settled id).sent_part
  refine ⟨hsent, hconversed.said id, fun conn hconn hstate => ?_⟩
  have hnone := hconversed.stands id conn hconn
  rw [hstate] at hnone
  rw [show x.queued id = [] from hnone] at hsent
  exact List.prefix_nil.mp hsent

/-- The client was sent its login first. -/
theorem stream_well_formed_empty : ∃ x, Reachable demoConfig x ∧
    x.gateway.sent 1 <+: (x.queued 1).flatMap Outgoing.bytes ∧ x.queued 1 ≠ [] := by
  obtain ⟨x, hx, hqueued⟩ := reachable_emptyOrder
  exact ⟨x, hx, (stream_well_formed hx 1).1, by simp [hqueued]⟩

/-! ## Section 3: Answers -/

/-- What was filed under one key. -/
theorem filterMap_keyed {α β : Type} (key : α → Nat) (f : α → Option β) (l : List α) (k : Nat) :
    ((l.filterMap (fun a => (f a).map (Prod.mk (key a)))).filter (fun p => p.1 = k)).map Prod.snd =
      (l.filter (fun a => key a = k)).filterMap f := by
  induction l with
  | nil => rfl
  | cons a l ih =>
    cases hf : f a with
    | none =>
      by_cases hk : key a = k <;> simp [hf, hk, ih]
    | some b =>
      by_cases hk : key a = k <;> simp [hf, hk, ih]

theorem answers_mailFor (id : Nat) (rs : List ClientResponse) :
    (mailFor id rs).filterMap Ouch.Response.answers =
      ((answersIn rs).filter (fun p => p.1 = id)).map Prod.snd := by
  rw [answersIn, filterMap_keyed, mailFor, List.filterMap_map]
  rfl

theorem enters_commandsOf (g : Gateway) (id : Nat) :
    (g.commandsOf id).filterMap CommandMsg.enters =
      ((entriesIn g.backend.toEngine).filter (fun p => p.1 = id)).map Prod.snd := by
  rw [entriesIn, filterMap_keyed, Gateway.commandsOf, List.filterMap_map]
  rfl

theorem answers_queued (x : Exchange) (id : Nat) :
    (x.queued id).filterMap Outgoing.answers = (x.letters id).filterMap Ouch.Response.answers :=
  List.filterMap_filterMap.symm

/-- Nothing is under way between the threads. -/
structure Idle (x : Exchange) : Prop where
  pending : x.pending = []
  batch : Threads.inBatch x.phase = []
  shipped : x.engine.out.length ≤ x.shipped
  toGateway : x.toGateway = []

theorem Idle.taken (h : Idle x) (hwork : Working x) : x.taken = x.engine.responses := by
  have hpushed : responsesOf x.pushed = x.engine.responses := by
    rw [pushed, List.take_of_length_le h.shipped]
    rfl
  have hlength := List.drop_eq_nil_iff.mp (show (responsesOf x.pushed).drop x.pumped =
    [] from h.toGateway)
  rw [hwork.taken_eq, List.take_of_length_le hlength, hpushed]

theorem Idle.processed (h : Idle x) (hwork : Working x) :
    x.processed.map Prod.snd = x.gateway.backend.toEngine := by
  have hlength := List.drop_eq_nil_iff.mp
    (show x.gateway.backend.toEngine.drop x.fetched = [] from h.pending)
  have hfetched := hwork.fetched
  rw [h.batch, List.append_nil, List.take_of_length_le hlength] at hfetched
  exact hfetched.symm

/-- **Every order is answered once, in order.** Take the messages delivered on a
    connection so far. Those beyond the caps were refused by the gateway, one for
    one. The engine has answered the first of the other Enter Order messages, each
    with one Accepted or Rejected, and it has answered all of them to an open
    connection when nothing is under way between the threads. -/
theorem orders_answered (h : Reachable cfg x) (id : Nat) :
    ∃ payloads, payloads <+: deliverable .awaitingLogin (framing.frames (x.gateway.received id)) ∧
      (x.queued id).filterMap Outgoing.refusal = payloads.filterMap refused ∧
      (x.queued id).filterMap Outgoing.answers <+: (payloads.filterMap admitted).filterMap
        CommandMsg.enters ∧
      ∀ conn, x.gateway.conns.lookup id = some conn →
        (conn.session.state ≠ .closed →
          payloads = deliverable .awaitingLogin (framing.frames (x.gateway.received id))) ∧
        (Idle x → (x.queued id).filterMap Outgoing.answers =
          (payloads.filterMap admitted).filterMap CommandMsg.enters) := by
  have hwork := h.working
  have hmail := h.mailed
  obtain ⟨fs, ⟨more, hmore⟩, hcommands, hrefusals, -, hopen⟩ := hmail.conversed.answered id
  obtain ⟨-, -, hanswers⟩ := Engine.run_replies x.processed hwork.engine
  refine ⟨deliverable .awaitingLogin fs, ?_, hrefusals, ?_,
    fun conn hconn => ⟨fun hlive => ?_, fun hidle => ?_⟩⟩
  · rw [← hmore, Soup.deliverable_append]
    exact List.prefix_append _ _
  · -- what was taken of the responses answers the first of the commands processed
    rw [← hcommands, enters_commandsOf, answers_queued]
    have hpart : x.taken <+: x.engine.responses := List.take_prefix _ _
    have htaken : answersIn x.taken <+: entriesIn x.gateway.backend.toEngine :=
      calc answersIn x.taken <+: answersIn x.engine.responses := hpart.filterMap _
        _ = entriesIn (x.processed.map Prod.snd) := hanswers
        _ <+: entriesIn x.gateway.backend.toEngine := hwork.processed.filterMap _
    have hletters := (hmail.mail id).filterMap Ouch.Response.answers
    rw [answers_mailFor] at hletters
    exact hletters.trans ((htaken.filter _).map _)
  · rw [hopen conn hconn hlive]
  · rw [← hcommands, enters_commandsOf, answers_queued, hmail.delivered id conn hconn,
      answers_mailFor, hidle.taken hwork, hanswers, hidle.processed hwork]

/-- The order is answered. -/
theorem orders_answered_empty : ∃ x, Reachable demoConfig x ∧ ∃ payloads,
    payloads <+: deliverable .awaitingLogin (framing.frames (x.gateway.received 1)) ∧
      Vector.replicate 14 (ch 'a') ∈ (payloads.filterMap admitted).filterMap CommandMsg.enters := by
  obtain ⟨x, hx, hqueued⟩ := reachable_emptyOrder
  obtain ⟨payloads, hpart, -, hanswers, -⟩ := orders_answered hx 1
  refine ⟨x, hx, payloads, hpart, hanswers.subset ?_⟩
  simp [hqueued, Outgoing.answers, Outgoing.fromEngine, Ouch.Response.answers]

end Exchange

end MatchingEngine
