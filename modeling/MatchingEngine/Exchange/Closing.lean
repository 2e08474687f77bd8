import MatchingEngine.Client.Listener
import MatchingEngine.Exchange.Mailroom

/-! # What the exchange publishes, and how it is shut down

    The feed carries what the engine has pushed, and nothing else (`Fed`), and what
    was pushed fits into messages: other prices never pass the gateway.

    `main` stops the gateway, then the engine, then the feed. When it is done, the
    engine has pushed everything and the feed has published everything
    (`Reachable.sent_done`).
-/

namespace MatchingEngine

open Feed (Flowing Stage)

/-! ## Section 1: The feed as part of the exchange -/

namespace Feed

open Mold

section flowing

variable {session : Session} {mtu : Nat} {evs : List MarketEvent} {drains : List (List MarketEvent)}
  {t t' : Threads}

/-- The engine pushes an event. -/
theorem Flowing.push (h : Flowing session mtu evs drains t) (htodo : t.todo = [])
    (hgoing : t.stopCalled = false) (ev : MarketEvent) :
    Flowing session mtu (evs ++ [ev]) drains { t with queue := t.queue.push ev } where
  published := h.published
  split := by
    rw [h.split, htodo]
    simp [MpscQueue.push]
  stopped := h.stopped
  last := h.last
  left := h.left
  emptied := by
    intro hemptied
    have hcalled := h.left (Stage.left_of_emptied hemptied)
    rw [hgoing] at hcalled
    cases hcalled

/-- `main` stops the queue. -/
theorem Flowing.stop (h : Flowing session mtu evs drains t) (htodo : t.todo = []) :
    Flowing session mtu evs drains { t with queue := t.queue.stop, stopCalled := true } where
  published := h.published
  split := h.split
  stopped := rfl
  last := fun _ => htodo
  left := fun _ => rfl
  emptied := h.emptied

/-- The publisher pushes nothing and stops nothing. -/
theorem publish_frame (h : t.publish = some t') :
    t'.todo = t.todo ∧ t'.stopCalled = t.stopCalled ∧ (t.stage = .returned → t' = t) := by
  unfold Threads.publish at h
  cases hstage : t.stage with
  | waiting | leaving =>
    rw [hstage] at h
    cases h
    exact ⟨rfl, rfl, nofun⟩
  | drained batch =>
    rw [hstage] at h
    cases batch with
    | nil =>
      dsimp only at h
      split at h
      · cases h
        exact ⟨rfl, rfl, nofun⟩
      · cases h
        exact ⟨rfl, rfl, nofun⟩
    | cons ev batch =>
      obtain ⟨p, -, rfl⟩ := Option.map_eq_some_iff.mp h
      exact ⟨rfl, rfl, nofun⟩
  | closing last =>
    rw [hstage] at h
    obtain ⟨p, -, rfl⟩ := Option.map_eq_some_iff.mp h
    exact ⟨rfl, rfl, nofun⟩
  | returned =>
    rw [hstage] at h
    cases h
    exact ⟨rfl, rfl, fun _ => rfl⟩

end flowing

end Feed

/-- How many of the stages of `main` are behind it. -/
def Closing.rank : Closing → Nat
  | .serving => 0
  | .gatewayStopped => 1
  | .engineStopping => 2
  | .engineStopped => 3
  | .feedStopping => 4
  | .done => 5

namespace Exchange

variable {cfg : ExchangeConfig} {x x' : Exchange}

/-- Where the engine and the feed stand while `main` stops them. -/
structure Fed (cfg : ExchangeConfig) (x : Exchange) : Prop where
  flowing : ∃ drains, Flowing cfg.session cfg.mtu (marketEventsOf x.pushed) drains x.feed
  todo : x.feed.todo = []
  stopCalled : x.feed.stopCalled = true ↔ 4 ≤ x.closing.rank
  joined : 3 ≤ x.closing.rank → x.phase = .returned
  checking : x.phase = .checking → cfg.lockFree = true
  ended : x.closing = .done → x.feed.stage = .returned
  /-- The engine returns when it was told to, with nothing left to push. With the
      mutex queue it has then processed everything. -/
  returned : x.phase = .returned → 2 ≤ x.closing.rank ∧ x.engine.out.length ≤ x.shipped ∧
    (cfg.lockFree = false → x.pending = [])

theorem channelStopped_iff (x : Exchange) : x.channelStopped = true ↔ 2 ≤ x.closing.rank := by
  unfold channelStopped
  cases x.closing <;> simp [Closing.rank]

theorem fed_start (cfg : ExchangeConfig) : Fed cfg (start cfg) where
  flowing := ⟨[], Feed.flowing_start cfg.session cfg.mtu []⟩
  todo := rfl
  stopCalled := by simp [start, Feed.Threads.start, Closing.rank]
  joined := by simp [start, Closing.rank]
  checking := by simp [start]
  ended := by simp [start]
  returned := by simp [start]

/-- A handler of the gateway runs while `main` serves. -/
theorem Fed.handle (h : Fed cfg x) (hserving : x.closing = .serving) {ev : Gateway.Event}
    (hhandle : x.handle cfg ev = some x') : Fed cfg x' := by
  obtain ⟨g, -, rfl⟩ := Option.map_eq_some_iff.mp hhandle
  refine { h with returned := fun hphase => ?_ }
  have hrank := (h.returned hphase).1
  rw [hserving] at hrank
  exact absurd hrank (by decide)

theorem Fed.pump (h : Fed cfg x) (hserving : x.closing = .serving) {sends : List SendResult}
    (hpump : x.pump cfg sends = some x') : Fed cfg x' := by
  have htaken : Fed cfg { x with pumped := x.pumped + x.toGateway.length } :=
    { h with }
  exact htaken.handle hserving hpump

/-- An engine that still runs was not joined. -/
theorem Fed.running (h : Fed cfg x) (hphase : x.phase ≠ .returned) :
    ¬ 3 ≤ x.closing.rank ∧ x.feed.stopCalled = false := by
  have hrank : ¬ 3 ≤ x.closing.rank := fun hrank => hphase (h.joined hrank)
  refine ⟨hrank, ?_⟩
  cases hcalled : x.feed.stopCalled with
  | false => rfl
  | true => exact absurd (Nat.le_of_succ_le (h.stopCalled.mp hcalled)) hrank

theorem Fed.ship (h : Fed cfg x) {o : Output} (hnext : x.engine.out[x.shipped]? = some o) :
    Fed cfg (x.ship o) := by
  have hlt := (List.getElem?_eq_some_iff.mp hnext).1
  have hphase : x.phase ≠ .returned := by
    intro hphase
    exact absurd (h.returned hphase).2.1 (by omega)
  obtain ⟨hrank, hgoing⟩ := h.running hphase
  obtain ⟨drains, hflowing⟩ := h.flowing
  have hpushed := pushed_ship hnext
  have hdone : x.closing ≠ .done := fun hdone => hrank (by rw [hdone]; decide)
  cases o with
  | response r =>
    refine { h with flowing := ⟨drains, ?_⟩, returned := fun hret => absurd hret hphase }
    rw [hpushed, marketEventsOf_append]
    simpa [Exchange.ship] using hflowing
  | market ev =>
    refine { h with
      flowing := ⟨drains, ?_⟩
      ended := fun hend => absurd hend hdone
      returned := fun hret => absurd hret hphase }
    rw [hpushed, marketEventsOf_append]
    exact hflowing.push h.todo hgoing ev

/-- A command is processed by an engine that runs. -/
theorem Fed.process {y : Exchange} (h : Fed cfg y) (hshipped : y.shipped ≤ y.engine.out.length)
    (hphase : y.phase ≠ .returned) {now : Nat} {cmd : Command}
    (hprocess : y.process now cmd = some x') : Fed cfg x' := by
  have hpushed := pushed_process hshipped hprocess
  obtain ⟨e, outs, -, -, rfl⟩ := process_cases hprocess
  refine { h with flowing := ?_, returned := fun hret => absurd hret hphase }
  rw [hpushed]
  exact h.flowing

/-- The engine moves on without pushing anything. -/
theorem Fed.moves (h : Fed cfg x) (hphase : x.phase ≠ .returned) {fetched : Nat} {phase : Phase}
    (hchecking : phase = .checking → cfg.lockFree = true)
    (hreturned : phase = .returned → 2 ≤ x.closing.rank ∧ x.engine.out.length ≤ x.shipped ∧
      (cfg.lockFree = false → x.gateway.backend.toEngine.drop fetched = [])) :
    Fed cfg { x with fetched := fetched, phase := phase } :=
  { h with
    joined := fun hrank => absurd hrank (h.running hphase).1
    checking := hchecking
    returned := hreturned }

theorem Fed.runEngine (h : Fed cfg x) (hwork : Working x) {now : Nat}
    (hrun : x.runEngine cfg now = some x') : Fed cfg x' := by
  cases engineStep_of_runEngine hrun with
  | ship o hnext => exact h.ship hnext
  | pop cmd cmds _ _ hphase _ result =>
    have hgoing : x.phase ≠ .returned := by rw [hphase]; nofun
    have hmoved : Fed cfg { x with fetched := x.fetched + 1 } :=
      h.moves hgoing h.checking (fun hret => absurd hret hgoing)
    exact hmoved.process hwork.shipped hgoing result
  | next cmd cmds _ hphase result =>
    have hgoing : x.phase ≠ .returned := by rw [hphase]; nofun
    have hmoved : Fed cfg { x with phase := .batch cmds } := h.moves hgoing nofun nofun
    exact hmoved.process hwork.shipped nofun result
  | drain _ _ hphase _ => exact h.moves (by rw [hphase]; nofun) nofun nofun
  | miss _ hmode hphase _ => exact h.moves (by rw [hphase]; nofun) (fun _ => hmode) nofun
  | resume _ hphase =>
    refine h.moves ?_ nofun nofun
    rcases hphase with hphase | ⟨hphase, -⟩ <;> rw [hphase] <;> nofun
  | leave hidle hstopped hphase =>
    have hrank := (channelStopped_iff x).mp hstopped
    rcases hphase with ⟨-, hphase, hempty⟩ | hphase
    · exact h.moves (by rw [hphase]; nofun) nofun (fun _ => ⟨hrank, hidle, fun _ => hempty⟩)
    · -- the ring may hold something that was pushed since the engine has looked
      refine h.moves (by rw [hphase]; nofun) nofun (fun _ => ⟨hrank, hidle, fun hmode => ?_⟩)
      exact absurd (h.checking hphase) (by simp [hmode])

/-- `main` moves on without touching the feed. -/
theorem Fed.advance (h : Fed cfg x) {c : Closing} {g : Gateway}
    (hqueue : g.backend.toEngine = x.gateway.backend.toEngine) (hrank : x.closing.rank ≤ c.rank)
    (hstop : 4 ≤ c.rank → 4 ≤ x.closing.rank) (hjoined : 3 ≤ c.rank → x.phase = .returned)
    (hended : c = .done → x.feed.stage = .returned) : Fed cfg
      { x with closing := c, gateway := g } where
  flowing := h.flowing
  todo := h.todo
  stopCalled := h.stopCalled.trans ⟨fun hlater => Nat.le_trans hlater hrank, hstop⟩
  joined := hjoined
  checking := h.checking
  ended := hended
  returned := by
    intro hphase
    obtain ⟨hstopped, hidle, hempty⟩ := h.returned hphase
    refine ⟨Nat.le_trans hstopped hrank, hidle, fun hmode => ?_⟩
    show g.backend.toEngine.drop x.fetched = []
    rw [hqueue]
    exact hempty hmode

theorem Fed.runMain (h : Fed cfg x) (hrun : x.runMain = some x') : Fed cfg x' := by
  unfold Exchange.runMain at hrun
  cases hclosing : x.closing with
  | serving | gatewayStopped =>
    rw [hclosing] at hrun
    cases hrun
    exact h.advance rfl (by rw [hclosing]; decide) (by rw [hclosing]; decide)
      (fun hlate => absurd hlate (by decide)) nofun
  | engineStopping =>
    rw [hclosing] at hrun
    dsimp only at hrun
    split at hrun
    · rename_i hphase
      cases hrun
      exact h.advance rfl (by rw [hclosing]; decide) (by rw [hclosing]; decide)
        (fun _ => hphase) nofun
    · cases hrun
  | engineStopped =>
    have hphase := h.joined (by rw [hclosing]; decide)
    obtain ⟨-, hreturned⟩ := h.returned hphase
    obtain ⟨drains, hflowing⟩ := h.flowing
    rw [hclosing] at hrun
    cases hrun
    exact ⟨⟨drains, hflowing.stop h.todo⟩, h.todo, by simp [Closing.rank], fun _ => hphase,
      h.checking, nofun, fun _ => ⟨show 2 ≤ Closing.feedStopping.rank by decide, hreturned⟩⟩
  | feedStopping =>
    have hphase := h.joined (by rw [hclosing]; decide)
    rw [hclosing] at hrun
    dsimp only at hrun
    split at hrun
    · rename_i hstage
      cases hrun
      exact h.advance rfl (by rw [hclosing]; decide) (by rw [hclosing]; decide) (fun _ => hphase)
        (fun _ => hstage)
    · cases hrun
  | done =>
    rw [hclosing] at hrun
    cases hrun

theorem Fed.runFeed (h : Fed cfg x) (hrun : x.runFeed = some x') : Fed cfg x' := by
  obtain ⟨t, ht, rfl⟩ := Option.map_eq_some_iff.mp hrun
  obtain ⟨drains, hflowing⟩ := h.flowing
  obtain ⟨t', drains', ht', hflowing'⟩ := hflowing.publish
  cases ht.symm.trans ht'
  obtain ⟨htodo, hcalled, hstays⟩ := Feed.publish_frame ht
  refine ⟨⟨drains', hflowing'⟩, htodo.trans h.todo, ?_, h.joined, h.checking,
    fun hdone => ?_, h.returned⟩
  · show t.stopCalled = true ↔ _
    rw [hcalled]
    exact h.stopCalled
  · have hstage := h.ended hdone
    show t.stage = .returned
    rw [hstays hstage, hstage]

/-- **Step lemma.** -/
theorem Fed.step (h : Fed cfg x) (hwork : Working x) {a : Action} (hpossible : a.Possible x)
    (hstep : x.step cfg a = some x') : Fed cfg x' := by
  cases a with
  | gateway ev => exact h.handle hpossible.1 hstep
  | pump sends => exact h.pump hpossible.1 hstep
  | engine now => exact h.runEngine hwork hstep
  | feed => exact h.runFeed hstep
  | main => exact h.runMain hstep

/-- **Run lemma.** -/
theorem Reachable.fed (h : Reachable cfg x) : Fed cfg x := by
  induction h with
  | start => exact fed_start cfg
  | step reach a possible stepped ih => exact ih.step reach.working possible stepped

/-! ## Section 2: Shutdown -/

/-- What was sent when `main` is done. -/
theorem Reachable.sent_done (h : Reachable cfg x) (hdone : x.closing = .done) :
    ∃ fs, x.feed.publisher.sent = Mold.broadcast cfg.session fs ∧
      List.Forall₂ Feed.Carried fs.flatten x.engine.marketEvents ∧
      ∀ f ∈ fs, f ≠ [] → Mold.Whole cfg.mtu f := by
  have hfed := h.fed
  obtain ⟨-, hidle, -⟩ := hfed.returned (hfed.joined (by rw [hdone]; decide))
  have hpushed : marketEventsOf x.pushed = x.engine.marketEvents := by
    rw [pushed, List.take_of_length_le hidle]
    rfl
  obtain ⟨drains, hflowing⟩ := hfed.flowing
  rw [hpushed] at hflowing
  exact hflowing.sent_returned (hfed.ended hdone)

/-- With the mutex queue, everything was processed. -/
theorem Reachable.processed_done (h : Reachable cfg x) (hdone : x.closing = .done)
    (hmode : cfg.lockFree = false) : x.processed.map Prod.snd = x.gateway.backend.toEngine := by
  have hphase := h.fed.joined (by rw [hdone]; decide)
  obtain ⟨-, -, hempty⟩ := h.fed.returned hphase
  have hlength := List.drop_eq_nil_iff.mp
    (show x.gateway.backend.toEngine.drop x.fetched = [] from hempty hmode)
  have hfetched := h.working.fetched
  rw [hphase, List.take_of_length_le hlength] at hfetched
  simpa [Threads.inBatch] using hfetched.symm

/-! ## Section 3: What a listener hears -/

/-- A command that was forwarded was decoded, so that its price has 32 bits. -/
theorem priceOnWire_of_forwarded {g : Gateway} (h : Gateway.InOrder g) {cmd : Command}
    (hcmd : cmd ∈ g.backend.toEngine) : Client.PriceOnWire cmd.msg := by
  obtain ⟨fs, -, hcommands, -⟩ := h.follows cmd.clientId
  have hmem : cmd.msg ∈ g.commandsOf cmd.clientId :=
    List.mem_map_of_mem (List.mem_filter.mpr ⟨hcmd, by simp⟩)
  rw [hcommands] at hmem
  obtain ⟨data, -, hadmitted⟩ := List.mem_filterMap.mp hmem
  have hdecode := (admitted_some hadmitted).1
  cases hmsg : cmd.msg with
  | enter m => exact price_of_decodeCommand hdecode (by rw [hmsg]; rfl)
  | replace m => exact price_of_decodeCommand hdecode (by rw [hmsg]; rfl)
  | cancel m => trivial

/-- Every datagram is accepted: those with several messages keep to the MTU. -/
theorem readable_of_whole {mtu : Nat} (hmtu : mtu ≤ 65507) {fs : List (List Mold.Payload)}
    {evs : List MarketEvent} (hcarried : List.Forall₂ Feed.Carried fs.flatten evs)
    (hwhole : ∀ f ∈ fs, f ≠ [] → Mold.Whole mtu f)
    (i : Nat) : Mold.Readable (Mold.frameAt fs i) := by
  rw [Mold.frameAt]
  cases hf : fs[i]? with
  | none => exact ⟨by decide, fun m hm => absurd hm List.not_mem_nil⟩
  | some f =>
    have hmem := List.mem_of_getElem? hf
    by_cases hempty : f = []
    · rw [hempty]
      exact ⟨by decide, fun m hm => absurd hm List.not_mem_nil⟩
    · refine (hwhole f hmem hempty).readable hmtu (fun m hm => ?_)
      obtain ⟨k, hk, rfl⟩ := List.mem_iff_getElem.mp (List.mem_flatten.mpr ⟨f, hmem, hm⟩)
      have hshort := (hcarried.get hk (by rw [← hcarried.length_eq]; exact hk)).1
      exact Nat.le_trans hshort (by decide)

/-- What was sent carries the first of the events that the engine has pushed, and
    all of them when the feed has nothing left to publish. -/
theorem Fed.sent (h : Fed cfg x) :
    ∃ fs evs n, x.feed.publisher.sent = (Mold.broadcast cfg.session fs).take n ∧
      fs.length ≤ n ∧ n ≤ fs.length + 1 ∧
      List.Forall₂ Feed.Carried fs.flatten evs ∧ (∀ f ∈ fs, f ≠ [] → Mold.Whole cfg.mtu f) ∧
      evs <+: marketEventsOf x.pushed ∧
      (x.feed.queue.items = [] → x.feed.stage.inHand = [] → evs = marketEventsOf x.pushed) := by
  obtain ⟨drains, hflowing⟩ := h.flowing
  by_cases hstage : x.feed.stage = .returned
  · obtain ⟨fs, hsent, hcarried, hwhole⟩ := hflowing.sent_returned hstage
    refine ⟨fs, _, fs.length + 1, ?_, Nat.le_succ _, Nat.le_refl _, hcarried, hwhole,
      List.prefix_rfl, fun _ _ => rfl⟩
    rw [hsent, List.take_of_length_le (Nat.le_of_eq (Mold.length_broadcast _ _))]
  · obtain ⟨fs, hsent, hcarried, hwhole⟩ := hflowing.sent_so_far hstage
    refine ⟨fs, _, fs.length, ?_, Nat.le_refl _, Nat.le_succ _, hcarried, hwhole, ?_, ?_⟩
    · rw [hsent, Mold.broadcast, List.take_left' (Mold.length_stamped _ _ _)]
    · rw [hflowing.split, List.append_assoc, List.append_assoc]
      exact List.prefix_append _ _
    · intro hqueue hhand
      have hsplit := hflowing.split
      rw [hqueue, hhand, h.todo] at hsplit
      simpa using hsplit.symm

/-- What a listener has to know of the engine's events. -/
theorem Reachable.tape_done (h : Reachable cfg x) (hcount : x.processed.length < 2 ^ 64) :
    ∃ v : Venue, Tape x.engine.marketEvents v.book ∧
      (∀ m ∈ x.engine.marketEvents, Client.OnWire m) ∧
      ∀ symbol, x.engine.bookSnapshot symbol = some (v.book symbol).snapshot := by
  have hwork := h.working
  obtain ⟨e, v, hrun, -, hreal, htape, hchart⟩ := Engine.run_tape x.processed
  cases hwork.engine.symm.trans hrun
  have hprice : ∀ c ∈ x.processed, Client.PriceOnWire c.2.msg := fun c hc =>
    priceOnWire_of_forwarded hwork.gateway.inOrder
      (hwork.processed.subset (List.mem_map_of_mem hc))
  exact ⟨v, htape, Client.onWire_of_charted hchart hprice hcount, hreal.bookSnapshot⟩

end Exchange

end MatchingEngine
