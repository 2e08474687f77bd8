import MatchingEngine.Engine.Mail
import MatchingEngine.Feed.Shutdown
import MatchingEngine.Gateway.Conversation

/-! # The exchange

    `apps/exchanged.cpp`: the gateway, the engine and the feed, each on its own
    thread, and the main thread that stops them in this order. The threads share
    three queues only: commands go from the gateway to the engine, responses back,
    and market events from the engine to the feed.

    * A queue is a log and a position in it. The gateway logs the commands it has
      pushed, of which the engine has fetched the first `fetched`. The engine logs
      what it sends in `out`, of which it has pushed the first `shipped`, one by
      one; the gateway has taken the first `pumped` of the responses among them.
      That the queues between are such logs is what `Channel`, `Ring` and
      `Shutdown` prove of them.
    * A handler of the gateway and `process` are one step each. They touch a queue
      by appending to it, so that the steps of other threads between their pushes
      could as well come before or after them; but the feed may drain its queue
      between two events of one command.
    * `processed` and `queued` are ghosts: the commands with the times at which
      they were processed, and the packets queued for each client.
-/

namespace MatchingEngine

open Engine (Brought Owned LiveOwner)

/-! ## Section 1: The threads -/

/-- How far `main` has got. -/
inductive Closing where
  | serving
  | gatewayStopped
  | engineStopping
  | engineStopped
  | feedStopping
  | done
  deriving DecidableEq, Repr

/-- How the daemon is started, and what its clock reads. -/
structure ExchangeConfig where
  clock : Clock
  lockFree : Bool := false
  session : Mold.Session
  mtu : Nat := 1400

structure Exchange where
  gateway : Gateway := {}
  fetched : Nat := 0
  phase : Phase := .polling
  engine : Engine FastBook := {}
  shipped : Nat := 0
  pumped : Nat := 0
  feed : Feed.Threads
  closing : Closing := .serving
  processed : List (Nat × Command) := []
  queued : Nat → List Outgoing := fun _ => []

/-- At the end of `Gateway::run`, all connections are closed. -/
def Gateway.closeAll (g : Gateway) : Gateway := { g with conns := ∅, byFd := ∅ }

theorem Gateway.keeps_closeAll (g : Gateway) : Keeps g g.closeAll where
  tracked := fun _ => ⟨by simp [closeAll], by simp [closeAll]⟩
  received := rfl
  toEngine := rfl
  nextClientId := rfl
  session := by
    intro id conn hconn
    simp [closeAll] at hconn

theorem Gateway.Exact.closeAll {g : Gateway} {queued : Nat → List Outgoing} (h : Exact g queued) :
    Exact g.closeAll queued where
  inOrder := h.inOrder.keeps g.keeps_closeAll
  settled := fun id => (h.settled id).toOwes.close (Finmap.lookup_empty id) rfl
  unopened := h.unopened

namespace Exchange

variable {now : Nat} {cmd : Command}

/-- The feed gets its events from the engine, so that it has none of its own. -/
def start (cfg : ExchangeConfig) : Exchange := { feed := .start cfg.session cfg.mtu [] }

/-- The commands in the queue. -/
def pending (x : Exchange) : List Command := x.gateway.backend.toEngine.drop x.fetched

/-- What the engine has pushed. -/
def pushed (x : Exchange) : List Output := x.engine.out.take x.shipped

/-- The responses in the queue. -/
def toGateway (x : Exchange) : List ClientResponse := (responsesOf x.pushed).drop x.pumped

/-- `CommandChannel::stop` was called. -/
def channelStopped (x : Exchange) : Bool :=
  match x.closing with
  | .serving | .gatewayStopped => false
  | .engineStopping | .engineStopped | .feedStopping | .done => true

/-- What a handler of the gateway does. -/
def handle (cfg : ExchangeConfig) (x : Exchange) (ev : Gateway.Event) : Option Exchange :=
  (x.gateway.handle cfg.clock ev).map (fun g => { x with
    gateway := g
    queued := fun id => x.queued id ++ ev.queued cfg.clock x.gateway id })

/-- `pump_responses`, with a send result for each response in the queue. -/
def pump (cfg : ExchangeConfig) (x : Exchange) (sends : List SendResult) : Option Exchange :=
  { x with pumped := x.pumped + x.toGateway.length }.handle cfg (.responses (x.toGateway.zip sends))

/-- The engine pushes the next output. -/
def ship (x : Exchange) (o : Output) : Exchange :=
  match o with
  | .response _ => { x with shipped := x.shipped + 1 }
  | .market ev =>
    { x with shipped := x.shipped + 1, feed := { x.feed with queue := x.feed.queue.push ev } }

def process (x : Exchange) (now : Nat) (cmd : Command) : Option Exchange :=
  (x.engine.process now cmd).map (fun e => { x with
    engine := e
    processed := x.processed ++ [(now, cmd)] })

/-- The next access of `run_loop`. Everything that a command sends is pushed
    before the next access to the command queue. -/
def runEngine (cfg : ExchangeConfig) (x : Exchange) (now : Nat) : Option Exchange :=
  match x.engine.out[x.shipped]? with
  | some o => some (x.ship o)
  | none =>
    match x.phase with
    | .polling =>
      match x.pending with
      | [] =>
        if cfg.lockFree then some { x with phase := .checking }
        else if x.channelStopped then some { x with phase := .returned }
        else none
      | cmd :: cmds =>
        if cfg.lockFree then { x with fetched := x.fetched + 1 }.process now cmd
        else some { x with fetched := x.fetched + (cmds.length + 1), phase := .batch (cmd :: cmds) }
    | .checking => some { x with phase := if x.channelStopped then .returned else .polling }
    | .batch [] => some { x with phase := .polling }
    | .batch (cmd :: cmds) => { x with phase := .batch cmds }.process now cmd
    | .returned => none

def runFeed (x : Exchange) : Option Exchange := x.feed.publish.map (fun t => { x with feed := t })

/-- What `main` does once it was interrupted. A `join` waits for its thread. -/
def runMain (x : Exchange) : Option Exchange :=
  match x.closing with
  | .serving => some { x with closing := .gatewayStopped, gateway := x.gateway.closeAll }
  | .gatewayStopped => some { x with closing := .engineStopping }
  | .engineStopping =>
    match x.phase with
    | .returned => some { x with closing := .engineStopped }
    | _ => none
  | .engineStopped =>
    some { x with
      closing := .feedStopping
      feed := { x.feed with queue := x.feed.queue.stop, stopCalled := true } }
  | .feedStopping =>
    match x.feed.stage with
    | .returned => some { x with closing := .done }
    | _ => none
  | .done => none

/-! ## Section 2: Runs -/

/-- Whose step is next. -/
inductive Action where
  | gateway (ev : Gateway.Event)
  | pump (sends : List SendResult)
  | engine (now : Nat)
  | feed
  | main

/-- The gateway's handlers run until it is stopped. Responses come out of the
    queue only. -/
def Action.Possible (x : Exchange) : Action → Prop
  | .gateway ev => x.closing = .serving ∧ ev.Possible x.gateway ∧ ∀ resps, ev ≠ .responses resps
  | .pump sends => x.closing = .serving ∧ sends.length = x.toGateway.length
  | .engine _ | .feed | .main => True

def step (cfg : ExchangeConfig) (x : Exchange) : Action → Option Exchange
  | .gateway ev => x.handle cfg ev
  | .pump sends => x.pump cfg sends
  | .engine now => x.runEngine cfg now
  | .feed => x.runFeed
  | .main => x.runMain

/-- The states of the exchange, under every interleaving. Runs in which the gateway uses
    a connection that it has closed are left out: `handle_readable` and `tick_sessions`
    do so when a `::send` fails hard (`Event.SendFails`), and have no next state then. -/
inductive Reachable (cfg : ExchangeConfig) : Exchange → Prop where
  | start : Reachable cfg (start cfg)
  | step {x x' : Exchange} (reach : Reachable cfg x) (a : Action) (possible : a.Possible x)
      (stepped : x.step cfg a = some x') : Reachable cfg x'

/-- The steps, one after the other. -/
def run (cfg : ExchangeConfig) (x : Exchange) (as : List Action) : Option Exchange :=
  as.foldlM (step cfg) x

variable {cfg : ExchangeConfig} {x x' : Exchange}

theorem run_append (x : Exchange) (as bs : List Action) :
    x.run cfg (as ++ bs) = (x.run cfg as).bind (fun y => y.run cfg bs) :=
  List.foldlM_append

/-- Every step is possible when its turn comes. -/
def AllPossible (cfg : ExchangeConfig) : Exchange → List Action → Prop
  | _, [] => True
  | x, a :: as => a.Possible x ∧ ∀ y, x.step cfg a = some y → AllPossible cfg y as

theorem Reachable.run (h : Reachable cfg x) {as : List Action} (hpossible : AllPossible cfg x as)
    (hrun : x.run cfg as = some x') : Reachable cfg x' := by
  induction as generalizing x with
  | nil =>
    cases hrun
    exact h
  | cons a as ih =>
    obtain ⟨y, hstep, hrest⟩ := Option.bind_eq_some_iff.mp hrun
    exact ih (.step h a hpossible.1 hstep) (hpossible.2 y hstep) hrest

theorem closing_handle {ev : Gateway.Event} (h : x.handle cfg ev = some x') :
    x'.closing = x.closing := by
  obtain ⟨g, -, rfl⟩ := Option.map_eq_some_iff.mp h
  rfl

/-- What the engine's thread can do. Before anything else it pushes what the last
    command sends. -/
inductive EngineStep (cfg : ExchangeConfig) (now : Nat) (x : Exchange) : Exchange → Prop where
  | ship (o : Output) (next : x.engine.out[x.shipped]? = some o) : EngineStep cfg now x (x.ship o)
  | pop (cmd : Command) (cmds : List Command) (idle : x.engine.out.length ≤ x.shipped)
      (mode : cfg.lockFree = true) (phase : x.phase = .polling) (head : x.pending = cmd :: cmds)
      {x' : Exchange} (result : { x with fetched := x.fetched + 1 }.process now cmd = some x') :
      EngineStep cfg now x x'
  | next (cmd : Command) (cmds : List Command) (idle : x.engine.out.length ≤ x.shipped)
      (phase : x.phase = .batch (cmd :: cmds)) {x' : Exchange}
      (result : { x with phase := .batch cmds }.process now cmd = some x') : EngineStep cfg now x x'
  | drain (idle : x.engine.out.length ≤ x.shipped) (mode : cfg.lockFree = false)
      (phase : x.phase = .polling) (some : x.pending ≠ []) :
      EngineStep cfg now x
        { x with fetched := x.fetched + x.pending.length, phase := .batch x.pending }
  | miss (idle : x.engine.out.length ≤ x.shipped) (mode : cfg.lockFree = true)
      (phase : x.phase = .polling) (empty : x.pending = []) :
      EngineStep cfg now x { x with phase := .checking }
  | leave (idle : x.engine.out.length ≤ x.shipped) (stopped : x.channelStopped = true)
      (phase : cfg.lockFree = false ∧ x.phase = .polling ∧ x.pending = [] ∨ x.phase = .checking) :
      EngineStep cfg now x { x with phase := .returned }
  | resume (idle : x.engine.out.length ≤ x.shipped)
      (phase : x.phase = .batch [] ∨ x.phase = .checking ∧ x.channelStopped = false) :
      EngineStep cfg now x { x with phase := .polling }

theorem engineStep_of_runEngine (h : x.runEngine cfg now = some x') : EngineStep cfg now x x' := by
  unfold runEngine at h
  cases hout : x.engine.out[x.shipped]? with
  | some o =>
    rw [hout] at h
    cases h
    exact .ship o hout
  | none =>
    rw [hout] at h
    have hidle := List.getElem?_eq_none_iff.mp hout
    dsimp only at h
    cases hphase : x.phase with
    | polling =>
      rw [hphase] at h
      cases hpending : x.pending with
      | nil =>
        rw [hpending] at h
        cases hmode : cfg.lockFree with
        | true =>
          simp only [hmode, if_true, Option.some.injEq] at h
          exact h ▸ .miss hidle hmode hphase hpending
        | false =>
          cases hstopped : x.channelStopped with
          | true =>
            simp only [hmode, hstopped, Bool.false_eq_true, if_false, if_true,
              Option.some.injEq] at h
            exact h ▸ .leave hidle hstopped (.inl ⟨hmode, hphase, hpending⟩)
          | false => simp [hmode, hstopped] at h
      | cons cmd cmds =>
        rw [hpending] at h
        cases hmode : cfg.lockFree with
        | true =>
          simp only [hmode, if_true] at h
          exact .pop cmd cmds hidle hmode hphase hpending (by rw [hphase]; exact h)
        | false =>
          simp only [hmode, Bool.false_eq_true, if_false, Option.some.injEq] at h
          have hdrain : EngineStep cfg now x _ := .drain hidle hmode hphase (by simp [hpending])
          rw [hpending] at hdrain
          exact h ▸ hdrain
    | checking =>
      rw [hphase] at h
      cases hstopped : x.channelStopped with
      | true =>
        simp only [hstopped, if_true, Option.some.injEq] at h
        exact h ▸ .leave hidle hstopped (.inr hphase)
      | false =>
        simp only [hstopped, Bool.false_eq_true, if_false, Option.some.injEq] at h
        exact h ▸ .resume hidle (.inr ⟨hphase, hstopped⟩)
    | batch cmds =>
      rw [hphase] at h
      cases cmds with
      | nil =>
        cases h
        exact .resume hidle (.inl hphase)
      | cons cmd cmds => exact .next cmd cmds hidle hphase h
    | returned =>
      rw [hphase] at h
      cases h

/-! ## Section 3: The queues -/

/-- The logs and the positions in them. -/
structure Working (x : Exchange) : Prop where
  gateway : Gateway.Exact x.gateway x.queued
  engine : Engine.run ({} : Engine FastBook) x.processed = some x.engine
  /-- What was fetched was processed or is in the engine's batch. -/
  fetched : x.gateway.backend.toEngine.take x.fetched = x.processed.map Prod.snd ++
    Threads.inBatch x.phase
  within : x.fetched ≤ x.gateway.backend.toEngine.length
  shipped : x.shipped ≤ x.engine.out.length
  pumped : x.pumped ≤ (responsesOf x.pushed).length

theorem working_start (cfg : ExchangeConfig) : Working (start cfg) :=
  ⟨Gateway.exact_start, rfl, rfl, Nat.le_refl _, Nat.le_refl _, Nat.le_refl _⟩

/-- The commands that were processed came from the gateway, in order. -/
theorem Working.processed (h : Working x) :
    x.processed.map Prod.snd <+: x.gateway.backend.toEngine := by
  have hfirst : x.processed.map Prod.snd <+: x.gateway.backend.toEngine.take x.fetched := by
    rw [h.fetched]
    exact List.prefix_append _ _
  exact hfirst.trans <| List.take_prefix _ _

theorem Working.handle (h : Working x) {ev : Gateway.Event} (hpossible : ev.Possible x.gateway)
    (hhandle : x.handle cfg ev = some x') : Working x' := by
  obtain ⟨g, hg, rfl⟩ := Option.map_eq_some_iff.mp hhandle
  obtain ⟨more, hmore⟩ := h.gateway.inOrder.toEngine_handle hpossible hg
  refine ⟨h.gateway.handle hpossible hg, h.engine, ?_, ?_, h.shipped, h.pumped⟩
  · show g.backend.toEngine.take x.fetched = _
    rw [← hmore, List.take_append_of_le_length h.within]
    exact h.fetched
  · show x.fetched ≤ g.backend.toEngine.length
    rw [← hmore, List.length_append]
    exact Nat.le_add_right_of_le h.within

theorem Working.pump (h : Working x) {sends : List SendResult}
    (hpump : x.pump cfg sends = some x') : Working x' := by
  have hall : x.pumped + x.toGateway.length = (responsesOf x.pushed).length := by
    rw [toGateway, List.length_drop, Nat.add_sub_cancel' h.pumped]
  have htaken : Working { x with pumped := x.pumped + x.toGateway.length } :=
    { h with pumped := Nat.le_of_eq hall }
  have hpossible : (Gateway.Event.responses (x.toGateway.zip sends)).Possible x.gateway := trivial
  exact htaken.handle hpossible hpump

/-- A command adds to the log of the engine. -/
theorem process_cases (h : x.process now cmd = some x') :
    ∃ e outs, x.engine.process now cmd = some e ∧ e.out = x.engine.out ++ outs ∧
      x' = { x with engine := e, processed := x.processed ++ [(now, cmd)] } := by
  obtain ⟨e, he, rfl⟩ := Option.map_eq_some_iff.mp h
  obtain ⟨outs, houts, -⟩ := Engine.sends_process he
  exact ⟨e, outs, he, houts, rfl⟩

theorem pushed_process (hshipped : x.shipped ≤ x.engine.out.length)
    (h : x.process now cmd = some x') : x'.pushed = x.pushed := by
  obtain ⟨e, outs, -, houts, rfl⟩ := process_cases h
  show e.out.take x.shipped = _
  rw [houts, List.take_append_of_le_length hshipped]
  rfl

/-- The next command of a batch is processed. -/
theorem Working.process (h : Working { x with phase := .batch (cmd :: Threads.inBatch x.phase) })
    (hprocess : x.process now cmd = some x') : Working x' := by
  have hshipped : x.shipped ≤ x.engine.out.length := h.shipped
  have hpushed := pushed_process hshipped hprocess
  obtain ⟨e, outs, he, houts, rfl⟩ := process_cases hprocess
  refine ⟨h.gateway, ?_, ?_, h.within, ?_, by rw [hpushed]; exact h.pumped⟩
  · show Engine.run _ (x.processed ++ [(now, cmd)]) = some e
    rw [Engine.run_snoc, show Engine.run _ x.processed = _ from h.engine]
    exact he
  · show x.gateway.backend.toEngine.take x.fetched = (x.processed ++ [(now, cmd)]).map Prod.snd ++ _
    rw [show x.gateway.backend.toEngine.take x.fetched = _ from h.fetched, List.map_append,
      List.append_assoc]
    rfl
  · show x.shipped ≤ e.out.length
    rw [houts, List.length_append]
    exact Nat.le_add_right_of_le hshipped

theorem pushed_ship {o : Output} (hnext : x.engine.out[x.shipped]? = some o) :
    (x.ship o).pushed = x.pushed ++ [o] := by
  have htake : x.engine.out.take (x.shipped + 1) = x.pushed ++ [o] := by
    rw [List.take_add_one, hnext]
    rfl
  cases o <;> exact htake

theorem Working.ship (h : Working x) {o : Output} (hnext : x.engine.out[x.shipped]? = some o) :
    Working (x.ship o) := by
  have hlt := (List.getElem?_eq_some_iff.mp hnext).1
  have hpumped : x.pumped ≤ (responsesOf (x.ship o).pushed).length := by
    rw [pushed_ship hnext, responsesOf_append, List.length_append]
    exact Nat.le_add_right_of_le h.pumped
  cases o with
  | response r => exact { h with shipped := hlt, pumped := hpumped }
  | market ev => exact { h with shipped := hlt, pumped := hpumped }

/-- The engine gets to another place of its loop, with the same batch. -/
theorem Working.moves (h : Working x) {phase : Phase}
    (hbatch : Threads.inBatch x.phase = Threads.inBatch phase) : Working
      { x with phase := phase } :=
  { h with fetched := hbatch ▸ h.fetched }

theorem Working.runEngine (h : Working x) (hrun : x.runEngine cfg now = some x') : Working x' := by
  have hfetched := h.fetched
  cases engineStep_of_runEngine hrun with
  | ship o hnext => exact h.ship hnext
  | pop cmd cmds _ _ hphase hhead result =>
    have hlength : x.pending.length = cmds.length + 1 := by rw [hhead]; rfl
    rw [pending, List.length_drop] at hlength
    have hcmd : x.gateway.backend.toEngine[x.fetched]? = some cmd := by
      rw [← List.head?_drop, show x.gateway.backend.toEngine.drop x.fetched = _ from hhead]
      rfl
    -- a batch of one command
    rw [hphase] at hfetched
    have hone : Working
        { x with fetched := x.fetched + 1, phase := .batch (cmd :: Threads.inBatch x.phase) } := by
      refine ⟨h.gateway, h.engine, ?_, show x.fetched + 1 ≤
        x.gateway.backend.toEngine.length by omega, h.shipped, h.pumped⟩
      show x.gateway.backend.toEngine.take (x.fetched + 1) = x.processed.map Prod.snd ++ cmd ::
        Threads.inBatch x.phase
      rw [List.take_add_one, hcmd, hfetched, hphase]
      simp [Threads.inBatch]
    exact process (x := { x with fetched := x.fetched + 1 }) hone result
  | next cmd cmds _ hphase result =>
    have hbatch : Working { x with phase := .batch (cmd :: cmds) } := by
      rw [← hphase]
      exact h
    exact process (x := { x with phase := .batch cmds }) hbatch result
  | drain _ _ hphase _ =>
    rw [hphase] at hfetched
    have hall : x.fetched + x.pending.length = x.gateway.backend.toEngine.length := by
      rw [pending, List.length_drop, Nat.add_sub_cancel' h.within]
    refine ⟨h.gateway, h.engine, ?_, Nat.le_of_eq hall, h.shipped, h.pumped⟩
    show x.gateway.backend.toEngine.take (x.fetched + x.pending.length) = _ ++ x.pending
    rw [hall, List.take_length, ← List.take_append_drop x.fetched x.gateway.backend.toEngine,
      hfetched]
    simp [Threads.inBatch, pending]
  | miss _ _ hphase _ => exact h.moves (by rw [hphase]; rfl)
  | leave _ _ hphase =>
      exact h.moves (by rcases hphase with ⟨-, hphase, -⟩ | hphase <;> rw [hphase] <;> rfl)
  | resume _ hphase =>
    exact h.moves (by rcases hphase with hphase | ⟨hphase, -⟩ <;> rw [hphase] <;> rfl)

theorem Working.runMain (h : Working x) (hrun : x.runMain = some x') : Working x' := by
  unfold Exchange.runMain at hrun
  cases hclosing : x.closing with
  | serving =>
    rw [hclosing] at hrun
    cases hrun
    exact { h with gateway := h.gateway.closeAll }
  | gatewayStopped | engineStopped =>
    rw [hclosing] at hrun
    cases hrun
    exact { h with }
  | engineStopping | feedStopping =>
    rw [hclosing] at hrun
    dsimp only at hrun
    split at hrun
    · cases hrun
      exact { h with }
    · cases hrun
  | done =>
    rw [hclosing] at hrun
    cases hrun

/-- **Step lemma.** -/
theorem Working.step (h : Working x) {a : Action} (hpossible : a.Possible x)
    (hstep : x.step cfg a = some x') : Working x' := by
  cases a with
  | gateway ev => exact h.handle hpossible.2.1 hstep
  | pump sends => exact h.pump hstep
  | engine now => exact h.runEngine hstep
  | feed =>
    obtain ⟨t, -, rfl⟩ := Option.map_eq_some_iff.mp hstep
    exact { h with }
  | main => exact h.runMain hstep

/-- **Run lemma.** -/
theorem Reachable.working (h : Reachable cfg x) : Working x := by
  induction h with
  | start => exact working_start cfg
  | step reach a possible stepped ih => exact ih.step possible stepped

end Exchange

end MatchingEngine
