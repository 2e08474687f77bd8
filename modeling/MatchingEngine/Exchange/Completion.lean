import Mathlib.Order.Lex
import Mathlib.Data.Prod.Lex
import MatchingEngine.Exchange.Closing
import MatchingEngine.Lib.Fairness

/-! # The shutdown completes

    A thread whose turn it is may be unable to act: it waits for a queue or for
    another thread, or it has returned. Its turn then passes. Under a scheduler
    that gives the main thread, the engine and the feed a turn again and again,
    the exchange that was interrupted comes to its end (`shutdown_completes`).

    `main` waits twice. While it waits for the engine, the commands that are left
    become fewer, or else the outputs of the last one, with a stage of the loop
    for each access that finds nothing. While it waits for the feed, `rank` of the
    feed decreases.
-/

namespace MatchingEngine

/-- How far the loop of the engine is from its end, when there is nothing to
    fetch. -/
def Phase.rank : Phase → Nat
  | .batch _ => 3
  | .polling => 2
  | .checking => 1
  | .returned => 0

namespace Exchange

variable {cfg : ExchangeConfig} {x x' : Exchange}

/-! ## Section 1: Turns -/

/-- What comes of a turn. -/
inductive Turn (cfg : ExchangeConfig) (x : Exchange) (a : Action) : Exchange → Prop where
  | acts {x' : Exchange} (possible : a.Possible x) (stepped : x.step cfg a = some x') :
      Turn cfg x a x'
  | passes (blocked : a.Possible x → x.step cfg a = none) : Turn cfg x a x

theorem exists_turn (cfg : ExchangeConfig) (x : Exchange) (a : Action) : ∃ x', Turn cfg x a x' := by
  by_cases hpossible : a.Possible x
  · cases hstep : x.step cfg a with
    | some x' => exact ⟨x', .acts hpossible hstep⟩
    | none => exact ⟨x, .passes (fun _ => hstep)⟩
  · exact ⟨x, .passes (fun h => absurd h hpossible)⟩

theorem Reachable.turn (h : Reachable cfg x) {a : Action} (hturn : Turn cfg x a x') :
    Reachable cfg x' := by
  cases hturn with
  | acts possible stepped => exact .step h a possible stepped
  | passes => exact h

/-- A thread that can act does. -/
theorem Turn.eq_of_step {a : Action} {y : Exchange} (h : Turn cfg x a x') (hpossible : a.Possible x)
    (hstep : x.step cfg a = some y) : x' = y := by
  cases h with
  | acts _ stepped => exact Option.some.inj (stepped.symm.trans hstep)
  | passes blocked => cases (blocked hpossible).symm.trans hstep

/-- After the gateway is stopped, three threads are left. -/
theorem turn_cases (hstopped : x.closing ≠ .serving) {a : Action} (hturn : Turn cfg x a x') :
    x' = x ∨ (∃ now, a = .engine now ∧ x.runEngine cfg now = some x') ∨
      (a = .feed ∧ ∃ t, x.feed.publish = some t ∧ x' = { x with feed := t }) ∨
      (a = .main ∧ x.runMain = some x') := by
  cases hturn with
  | passes => exact .inl rfl
  | acts possible stepped =>
    cases a with
    | gateway ev => exact absurd possible.1 hstopped
    | pump sends => exact absurd possible.1 hstopped
    | engine now => exact .inr (.inl ⟨now, rfl, stepped⟩)
    | feed =>
      obtain ⟨t, ht, rfl⟩ := Option.map_eq_some_iff.mp stepped
      exact .inr (.inr (.inl ⟨rfl, t, ht, rfl⟩))
    | main => exact .inr (.inr (.inr ⟨rfl, stepped⟩))

theorem closing_runEngine {now : Nat} (h : x.runEngine cfg now = some x') :
    x'.closing = x.closing := by
  cases engineStep_of_runEngine h with
  | ship o _ => cases o <;> rfl
  | pop cmd cmds _ _ _ _ result =>
    obtain ⟨e, outs, -, -, rfl⟩ := process_cases result
    rfl
  | next cmd cmds _ _ result =>
    obtain ⟨e, outs, -, -, rfl⟩ := process_cases result
    rfl
  | drain | miss | leave | resume => rfl

/-- The engine never fails on a command. -/
theorem Working.process_total (h : Working x) (now : Nat) (cmd : Command) :
    ∃ e, x.engine.process now cmd = some e := by
  obtain ⟨e, -, hrun, -⟩ := Engine.run_tape (x.processed ++ [(now, cmd)])
  rw [Engine.run_snoc, h.engine] at hrun
  exact ⟨e, hrun⟩

/-! ## Section 2: The engine returns -/

/-- The commands that are left to fetch, and those that are left to process. -/
def commandsLeft (x : Exchange) : Nat :=
  (x.gateway.backend.toEngine.length - x.fetched) +
    (x.gateway.backend.toEngine.length - x.processed.length)

/-- The outputs that are left to push, and the stages of the loop. -/
def outputsLeft (x : Exchange) : Nat := x.engine.out.length - x.shipped + x.phase.rank

/-- What is left to do for the engine. A command comes before any number of
    outputs, as it may cause that many. -/
def toDo (x : Exchange) : Nat ×ₗ Nat := toLex (x.commandsLeft, x.outputsLeft)

theorem toDo_lt_iff : x'.toDo < x.toDo ↔ x'.commandsLeft < x.commandsLeft ∨
    x'.commandsLeft = x.commandsLeft ∧ x'.outputsLeft < x.outputsLeft :=
  Prod.Lex.toLex_lt_toLex

/-- Commands are processed after they were fetched. -/
theorem Working.processed_le (h : Working x) :
    x.processed.length + (Threads.inBatch x.phase).length = x.fetched := by
  have hlength := congrArg List.length h.fetched
  rw [List.length_take, Nat.min_eq_left h.within, List.length_append, List.length_map] at hlength
  exact hlength.symm

/-- Once the channel is stopped, whatever the engine does leaves less to do. -/
theorem Working.toDo_runEngine (h : Working x) (hstopped : x.channelStopped = true) {now : Nat}
    (hrun : x.runEngine cfg now = some x') : x'.toDo < x.toDo := by
  have hwithin := h.within
  have hprocessed := h.processed_le
  rw [toDo_lt_iff]
  cases engineStep_of_runEngine hrun with
  | ship o hnext =>
    have hlt := (List.getElem?_eq_some_iff.mp hnext).1
    right
    cases o with
    | response r => exact ⟨rfl, by simp only [outputsLeft, Exchange.ship]; omega⟩
    | market ev => exact ⟨rfl, by simp only [outputsLeft, Exchange.ship]; omega⟩
  | pop cmd cmds _ _ _ hhead result =>
    obtain ⟨e, outs, -, -, rfl⟩ := process_cases result
    have hpos : 0 < x.pending.length := by simp [hhead]
    rw [pending, List.length_drop] at hpos
    left
    simp only [commandsLeft, List.length_append, List.length_singleton]
    omega
  | next cmd cmds _ hphase result =>
    obtain ⟨e, outs, -, -, rfl⟩ := process_cases result
    rw [hphase, Threads.inBatch, List.length_cons] at hprocessed
    left
    simp only [commandsLeft, List.length_append, List.length_singleton]
    omega
  | drain _ _ _ hsome =>
    have hpos := List.length_pos_iff.mpr hsome
    left
    simp only [commandsLeft, pending, List.length_drop] at hpos ⊢
    omega
  | miss _ _ hphase _ => exact .inr ⟨rfl, by simp [outputsLeft, hphase, Phase.rank]⟩
  | leave _ _ hphase =>
    refine .inr ⟨rfl, ?_⟩
    rcases hphase with ⟨-, hphase, -⟩ | hphase <;> simp [outputsLeft, hphase, Phase.rank]
  | resume _ hphase =>
    rcases hphase with hphase | ⟨-, hgoing⟩
    · exact .inr ⟨rfl, by simp [outputsLeft, hphase, Phase.rank]⟩
    · rw [hstopped] at hgoing
      cases hgoing

/-- An engine that was stopped and has not returned can act. -/
theorem Working.runEngine_total (h : Working x) (hstopped : x.channelStopped = true)
    (hphase : x.phase ≠ .returned) (now : Nat) : ∃ x', x.runEngine cfg now = some x' := by
  unfold Exchange.runEngine
  cases x.engine.out[x.shipped]? with
  | some o => exact ⟨_, rfl⟩
  | none =>
    cases hp : x.phase with
    | polling =>
      cases x.pending with
      | nil =>
        cases cfg.lockFree with
        | true => exact ⟨_, rfl⟩
        | false => exact ⟨_, if_pos hstopped⟩
      | cons cmd cmds =>
        obtain ⟨e, he⟩ := h.process_total now cmd
        cases cfg.lockFree with
        | true => simp [Exchange.process, he]
        | false => exact ⟨_, rfl⟩
    | checking => exact ⟨_, rfl⟩
    | batch cmds =>
      cases cmds with
      | nil => exact ⟨_, rfl⟩
      | cons cmd cmds =>
        obtain ⟨e, he⟩ := h.process_total now cmd
        simp [Exchange.process, he]
    | returned => exact absurd hp hphase

/-- An engine that has returned does nothing. -/
theorem Fed.runEngine_returned (h : Fed cfg x) (hphase : x.phase = .returned) (now : Nat) :
    x.runEngine cfg now = none := by
  obtain ⟨-, hidle, -⟩ := h.returned hphase
  rw [Exchange.runEngine, List.getElem?_eq_none hidle, hphase]

/-! ## Section 3: The stages of `main` -/

/-- The exchange is at this stage. -/
def At (cfg : ExchangeConfig) (c : Closing) (x : Exchange) : Prop := Reachable cfg x ∧ x.closing = c

/-- Only `main` changes the stage. -/
theorem At.turn {c : Closing} (h : At cfg c x) (hstopped : c ≠ .serving) {a : Action}
    (hturn : Turn cfg x a x') : At cfg c x' ∨ x.runMain = some x' := by
  obtain ⟨hreach, rfl⟩ := h
  have hreach' := hreach.turn hturn
  obtain rfl | ⟨now, -, hrun⟩ | ⟨-, t, -, rfl⟩ | ⟨-, hrun⟩ := turn_cases hstopped hturn
  · exact .inl ⟨hreach', rfl⟩
  · exact .inl ⟨hreach', closing_runEngine hrun⟩
  · exact .inl ⟨hreach', rfl⟩
  · exact .inr hrun

/-- `main` waits for the engine. -/
theorem runMain_engineStopping (hclosing : x.closing = .engineStopping)
    (hphase : x.phase ≠ .returned) : x.runMain = none := by
  unfold runMain
  rw [hclosing]
  cases hp : x.phase with
  | returned => exact absurd hp hphase
  | _ => rfl

/-- `main` waits for the feed. -/
theorem runMain_feedStopping (hclosing : x.closing = .feedStopping)
    (hstage : x.feed.stage ≠ .returned) : x.runMain = none := by
  unfold runMain
  rw [hclosing]
  cases hs : x.feed.stage with
  | returned => exact absurd hs hstage
  | _ => rfl

section stages

variable (r : Fairness.Run (Turn cfg))

/-- `main` moves on where nothing holds it back, which the other threads do not change. -/
theorem leadsTo_main (hmain : r.Often (· = .main)) {c c' : Closing} (hstopped : c ≠ .serving)
    {F : Exchange → Prop}
    (hengine : ∀ {x now x'}, At cfg c x → F x → x.runEngine cfg now = some x' → F x')
    (hfeed : ∀ {x t}, F x → x.feed.publish = some t → F { x with feed := t })
    (hfree : ∀ {x}, x.closing = c → F x → ∃ y, x.runMain = some y ∧ y.closing = c') :
    r.LeadsTo (fun x => At cfg c x ∧ F x) (At cfg c') := by
  have hmoves : ∀ {x x'}, At cfg c x → F x → x.runMain = some x' → At cfg c' x' := by
    intro x x' hat hx hrun
    obtain ⟨y, hy, hclosing⟩ := hfree hat.2 hx
    cases hy.symm.trans hrun
    exact ⟨.step hat.1 .main trivial hrun, hclosing⟩
  apply r.leadsTo_of_step hmain.oftenIn
  · rintro x a x' ⟨hat, hx⟩ _ hturn
    have hstays := (hat.turn hstopped hturn).symm
    obtain rfl | ⟨now, -, hrun⟩ | ⟨-, t, ht, rfl⟩ | ⟨-, hrun⟩ :=
      turn_cases (hat.2 ▸ hstopped) hturn
    · exact .inr ⟨hat, hx⟩
    · exact hstays.imp (hmoves hat hx) (⟨·, hengine hat hx hrun⟩)
    · exact hstays.imp (hmoves hat hx) (⟨·, hfeed hx ht⟩)
    · exact .inl (hmoves hat hx hrun)
  · rintro x _ x' ⟨hat, hx⟩ _ rfl hturn
    obtain ⟨y, hy, -⟩ := hfree hat.2 hx
    rw [hturn.eq_of_step trivial hy]
    exact hmoves hat hx hy

/-- `main` does not have to wait. -/
theorem leadsTo_next (hmain : r.Often (· = .main)) {c c' : Closing} (hstopped : c ≠ .serving)
    (hnext : ∀ {x : Exchange}, x.closing = c → ∃ y, x.runMain = some y ∧ y.closing = c') :
    r.LeadsTo (At cfg c) (At cfg c') := by
  have hmoves := leadsTo_main r hmain (F := fun _ => True) hstopped (fun _ _ _ => trivial)
    (fun _ _ => trivial) (fun hclosing _ => hnext hclosing)
  simpa only [and_true] using hmoves

/-- While `main` waits, the thread that it waits for gets to its end. -/
theorem leadsTo_ended {α : Type} [Preorder α] [WellFoundedLT α] (μ : Exchange → α)
    {helpful : Action → Prop}
    (hoften : r.Often helpful) {c : Closing} (hstopped : c ≠ .serving) {Ended : Exchange → Prop}
    (hwaits : ∀ {x}, x.closing = c → ¬ Ended x → x.runMain = none)
    (others : ∀ {x a x'}, At cfg c x → ¬ Ended x → Turn cfg x a x' → x.runMain = none → μ x' ≤ μ x)
    (helps : ∀ {x a x'}, At cfg c x → ¬ Ended x → helpful a → Turn cfg x a x' → μ x' < μ x) :
    r.LeadsTo (At cfg c) (fun x => At cfg c x ∧ Ended x) := by
  have hstays : ∀ {x a x'}, At cfg c x → ¬ Ended x → Turn cfg x a x' → At cfg c x' := by
    intro x a x' hat hgoing hturn
    exact (hat.turn hstopped hturn).resolve_right (by rw [hwaits hat.2 hgoing]; nofun)
  apply r.leadsTo_of_measure μ hoften.oftenIn
  · intro x a x' hat hgoing hturn
    have hgoing : ¬ Ended x := fun hended => hgoing ⟨hat, hended⟩
    exact .inr ⟨hstays hat hgoing hturn, others hat hgoing hturn (hwaits hat.2 hgoing)⟩
  · intro x a x' hat hgoing hhelpful hturn
    have hgoing : ¬ Ended x := fun hended => hgoing ⟨hat, hended⟩
    exact .inr ⟨hstays hat hgoing hturn, helps hat hgoing hhelpful hturn⟩

theorem leadsTo_engine_ended (hengine : r.Often (fun a => ∃ now, a = .engine now)) :
    r.LeadsTo (At cfg .engineStopping) (fun x => At cfg .engineStopping x ∧
      x.phase = .returned) := by
  have hless : ∀ {x x' : Exchange} {now : Nat}, At cfg .engineStopping x →
      x.runEngine cfg now = some x' → x'.toDo < x.toDo := by
    rintro x x' now ⟨hreach, hclosing⟩ hrun
    exact hreach.working.toDo_runEngine (by rw [channelStopped, hclosing]) hrun
  apply leadsTo_ended (c := .engineStopping) r toDo hengine nofun runMain_engineStopping
  · intro x a x' hat _ hturn hwaits
    obtain rfl | ⟨now, -, hrun⟩ | ⟨-, t, -, rfl⟩ | ⟨-, hrun⟩ :=
      turn_cases (by rw [hat.2]; nofun) hturn
    · exact le_refl _
    · exact le_of_lt (hless hat hrun)
    · exact le_refl x.toDo
    · cases hwaits.symm.trans hrun
  · rintro x _ x' hat hphase ⟨now, rfl⟩ hturn
    -- an engine that was told to stop is never stuck before it returns
    have htotal : ∃ y, x.runEngine cfg now = some y :=
      hat.1.working.runEngine_total (by rw [channelStopped, hat.2]) hphase now
    obtain ⟨y, hy⟩ := htotal
    obtain rfl := hturn.eq_of_step trivial hy
    exact hless hat hy

theorem leadsTo_feed_ended (hfeed : r.Often (· = .feed)) :
    r.LeadsTo (At cfg .feedStopping) (fun x => At cfg .feedStopping x ∧
      x.feed.stage = .returned) := by
  have hrank : ∀ {x : Exchange} {t : Feed.Threads}, At cfg .feedStopping x →
      x.feed.publish = some t → t.rank ≤ x.feed.rank - 1 := by
    rintro x t ⟨hreach, hclosing⟩ ht
    obtain ⟨drains, hflowing⟩ := hreach.fed.flowing
    exact (hflowing.rank_publish (hreach.fed.stopCalled.mpr (by rw [hclosing]; decide)) ht).2
  apply leadsTo_ended (c := .feedStopping) r (fun x => x.feed.rank) hfeed nofun runMain_feedStopping
  · intro x a x' hat _ hturn hwaits
    -- the engine has returned and pushes no more events, which would raise the rank
    have hphase := hat.1.fed.joined (by rw [hat.2]; decide)
    obtain rfl | ⟨now, -, hrun⟩ | ⟨-, t, ht, rfl⟩ | ⟨-, hrun⟩ :=
      turn_cases (by rw [hat.2]; nofun) hturn
    · exact Nat.le_refl _
    · cases (hat.1.fed.runEngine_returned hphase now).symm.trans hrun
    · exact Nat.le_trans (hrank hat ht) (Nat.sub_le _ _)
    · cases hwaits.symm.trans hrun
  · rintro x _ x' hat hstage rfl hturn
    obtain ⟨drains, hflowing⟩ := hat.1.fed.flowing
    obtain ⟨t, -, ht, -⟩ := hflowing.publish
    have hstep : x.step cfg .feed = some { x with feed := t } := by
      rw [step, runFeed, ht]
      rfl
    rw [hturn.eq_of_step trivial hstep]
    have hpos : x.feed.rank ≠ 0 := fun hzero => hstage (Feed.returned_of_rank hzero)
    have hle := hrank hat ht
    show t.rank < x.feed.rank
    omega

/-- `main` moves on when the thread that it has waited for has returned. -/
theorem leadsTo_engineStopped (hmain : r.Often (· = .main)) :
    r.LeadsTo (fun x => At cfg .engineStopping x ∧ x.phase = .returned)
      (At cfg .engineStopped) := by
  apply leadsTo_main r (c := .engineStopping) hmain nofun
  · intro x now x' hat hphase hrun
    cases (hat.1.fed.runEngine_returned hphase now).symm.trans hrun
  · exact fun hphase _ => hphase
  · exact fun hclosing hphase => ⟨_, by rw [runMain, hclosing, hphase], rfl⟩

theorem leadsTo_done (hmain : r.Often (· = .main)) :
    r.LeadsTo (fun x => At cfg .feedStopping x ∧ x.feed.stage = .returned) (At cfg .done) := by
  apply leadsTo_main r (c := .feedStopping) hmain nofun
  · intro x now x' hat _ hrun
    -- the engine was joined before
    have hphase := hat.1.fed.joined (by rw [hat.2]; decide)
    cases (hat.1.fed.runEngine_returned hphase now).symm.trans hrun
  · intro x t hstage ht
    -- a publisher that has returned makes no more accesses
    have hsame : t = x.feed := (Feed.publish_frame ht).2.2 hstage
    exact hsame ▸ hstage
  · exact fun hclosing hstage => ⟨_, by rw [runMain, hclosing, hstage], rfl⟩

/-- At whatever stage `main` is. -/
theorem leadsTo_end (hmain : r.Often (· = .main))
    (hengine : r.Often (fun a => ∃ now, a = .engine now)) (hfeed : r.Often (· = .feed)) :
    r.LeadsTo (fun x => Reachable cfg x ∧ x.closing ≠ .serving) (At cfg .done) := by
  have hfed := (leadsTo_feed_ended r hfeed).trans (leadsTo_done r hmain)
  -- `main` goes on at once when it has stopped the gateway, and when it has joined the engine
  have hstop : r.LeadsTo (At cfg .gatewayStopped) (At cfg .engineStopping) :=
    leadsTo_next r (c := .gatewayStopped) hmain nofun
      (fun hclosing => ⟨_, by rw [runMain, hclosing], rfl⟩)
  have hstop' : r.LeadsTo (At cfg .engineStopped) (At cfg .feedStopping) :=
    leadsTo_next r (c := .engineStopped) hmain nofun
      (fun hclosing => ⟨_, by rw [runMain, hclosing], rfl⟩)
  have hjoined := hstop'.trans hfed
  have hstopping :=
    ((leadsTo_engine_ended r hengine).trans (leadsTo_engineStopped r hmain)).trans hjoined
  have hgateway := hstop.trans hstopping
  rintro n ⟨hreach, hstopped⟩
  cases hclosing : (r.state n).closing with
  | serving => exact absurd hclosing hstopped
  | gatewayStopped => exact hgateway n ⟨hreach, hclosing⟩
  | engineStopping => exact hstopping n ⟨hreach, hclosing⟩
  | engineStopped => exact hjoined n ⟨hreach, hclosing⟩
  | feedStopping => exact hfed n ⟨hreach, hclosing⟩
  | done => exact ⟨n, Nat.le_refl n, hreach, hclosing⟩

end stages

/-! ## Section 4: A scheduler -/

/-- The three threads in turn, at midnight. -/
def inTurn (n : Nat) : Action :=
  match n % 3 with
  | 0 => .main
  | 1 => .engine 0
  | _ => .feed

theorem often_inTurn {r : Fairness.Run (Turn cfg)} (h : r.input = inTurn) :
    r.Often (· = .main) ∧ r.Often (fun a => ∃ now, a = .engine now) ∧ r.Often (· = .feed) := by
  refine ⟨fun n => ⟨3 * n, by omega, ?_⟩, fun n => ⟨3 * n + 1, by omega, 0, ?_⟩,
    fun n => ⟨3 * n + 2, by omega, ?_⟩⟩
  · simp [h, inTurn]
  · simp [h, inTurn]
  · simp [h, inTurn]

/-- Without the gateway no command comes in. Those that the engine processes get the
    time of its turn. -/
theorem turn_frame (hstopped : x.closing ≠ .serving) {a : Action} (hturn : Turn cfg x a x') :
    x'.closing ≠ .serving ∧ x'.gateway.backend.toEngine = x.gateway.backend.toEngine ∧
      ∀ c ∈ x'.processed, c ∈ x.processed ∨ a = .engine c.1 := by
  obtain rfl | ⟨now, rfl, hrun⟩ | ⟨-, t, -, rfl⟩ | ⟨-, hrun⟩ := turn_cases hstopped hturn
  · exact ⟨hstopped, rfl, fun c hc => .inl hc⟩
  · have hprocess : ∀ {y : Exchange} {cmd : Command}, y.process now cmd = some x' →
        y.gateway = x.gateway → y.processed = x.processed →
        x'.gateway.backend.toEngine = x.gateway.backend.toEngine ∧
          ∀ c ∈ x'.processed, c ∈ x.processed ∨ Action.engine now = .engine c.1 := by
      intro y cmd hprocess hgateway hprocessed
      obtain ⟨e, outs, -, -, rfl⟩ := process_cases hprocess
      refine ⟨congrArg (fun g => g.backend.toEngine) hgateway, fun c hc => ?_⟩
      rcases List.mem_append.mp hc with hc | hc
      · exact .inl (hprocessed ▸ hc)
      · rw [List.mem_singleton.mp hc]
        exact .inr rfl
    refine ⟨(closing_runEngine hrun).trans_ne hstopped, ?_⟩
    -- two of the engine's steps process a command
    cases engineStep_of_runEngine hrun with
    | ship o _ => cases o <;> exact ⟨rfl, fun c hc => .inl hc⟩
    | pop cmd cmds _ _ _ _ result => exact hprocess result rfl rfl
    | next cmd cmds _ _ result => exact hprocess result rfl rfl
    | drain | miss | leave | resume => exact ⟨rfl, fun c hc => .inl hc⟩
  · exact ⟨hstopped, rfl, fun c hc => .inl hc⟩
  · unfold runMain at hrun
    cases hclosing : x.closing with
    | serving => exact absurd hclosing hstopped
    | done =>
      rw [hclosing] at hrun
      cases hrun
    | _ =>
      rw [hclosing] at hrun
      dsimp only at hrun
      first
        | cases hrun
        | split at hrun <;> cases hrun
      exact ⟨nofun, rfl, fun c hc => .inl hc⟩

/-- An exchange that was interrupted can come to its end. -/
theorem Reachable.exists_done (h : Reachable cfg x) (hstopped : x.closing ≠ .serving) :
    ∃ y, Reachable cfg y ∧ y.closing = .done ∧
      y.gateway.backend.toEngine = x.gateway.backend.toEngine ∧
      ∀ c ∈ y.processed, c ∈ x.processed ∨ c.1 = 0 := by
  obtain ⟨r, hstart, hinput⟩ := Fairness.exists_run (exists_turn cfg) x inTurn
  obtain ⟨hmain, hengine, hfeed⟩ := often_inTurn hinput
  -- every turn of the engine in this run is at time 0
  have hkept : ∀ n, (r.state n).closing ≠ .serving ∧
      (r.state n).gateway.backend.toEngine = x.gateway.backend.toEngine ∧
      ∀ c ∈ (r.state n).processed, c ∈ x.processed ∨ c.1 = 0 := by
    intro n
    induction n with
    | zero =>
      rw [hstart]
      exact ⟨hstopped, rfl, fun c hc => .inl hc⟩
    | succ n ih =>
      obtain ⟨hgoing, hqueue, htimes⟩ := ih
      obtain ⟨hgoing', hqueue', htimes'⟩ := turn_frame hgoing (r.next n)
      refine ⟨hgoing', hqueue'.trans hqueue, fun c hc => ?_⟩
      rcases htimes' c hc with hc | hnow
      · exact htimes c hc
      · rw [hinput, inTurn] at hnow
        split at hnow
        · cases hnow
        · exact .inr (Action.engine.inj hnow).symm
        · cases hnow
  obtain ⟨n, -, hreach, hdone⟩ :=
    leadsTo_end r hmain hengine hfeed 0 (by rw [hstart]; exact ⟨h, hstopped⟩)
  exact ⟨r.state n, hreach, hdone, (hkept n).2⟩

/-! ### One order -/

/-- A client logs in and enters an order to buy one share, and `main` is interrupted. -/
def buyThenStop : List Action :=
  arrival (Soup.packet Soup.kLoginRequest (List.replicate 46 (ch ' ')) ++
    Soup.packet Soup.kUnsequenced (Client.restingBuy.encode.getD [])) ++ [.main]

theorem reachable_buyThenStop : ∃ x, Reachable demoConfig x ∧ x.closing = .gatewayStopped ∧
    x.gateway.backend.toEngine = [⟨1, .enter Client.restingBuy⟩] ∧
    x.pending = [⟨1, .enter Client.restingBuy⟩] ∧ x.processed = [] := by
  have heval : ((start demoConfig).run demoConfig buyThenStop).map (fun x =>
      (x.closing, x.gateway.backend.toEngine, x.pending, x.processed)) =
        some (.gatewayStopped, [⟨1, .enter Client.restingBuy⟩],
          [⟨1, .enter Client.restingBuy⟩], []) := by
    decide +kernel
  obtain ⟨x, hx, hvalues⟩ := Option.map_eq_some_iff.mp heval
  simp only [Prod.mk.injEq] at hvalues
  refine ⟨x, Reachable.start.run (allPossible_arrival _ ?_) hx, hvalues⟩
  simp [AllPossible, Action.Possible]

/-- The order was processed when `main` is done. -/
theorem exists_oneBuy : ∃ x, Reachable demoConfig x ∧ x.closing = .done ∧
    x.processed = Client.oneBuy := by
  obtain ⟨x, hx, hclosing, hqueue, -, hnone⟩ := reachable_buyThenStop
  obtain ⟨y, hy, hdone, hkept, htimes⟩ := hx.exists_done (by rw [hclosing]; nofun)
  have hprocessed := hy.processed_done hdone rfl
  rw [hkept, hqueue] at hprocessed
  obtain ⟨c, hc, hcmd⟩ := List.map_eq_singleton_iff.mp hprocessed
  have htime : c.1 = 0 := by simpa [hnone] using htimes c (by simp [hc])
  refine ⟨y, hy, hdone, ?_⟩
  rw [hc, Client.oneBuy, ← hcmd, ← htime]

/-! ## Section 5: The end -/

/-- **The shutdown completes.** The exchange was interrupted in any state, and
    `main` has stopped the gateway. In every run in which the main thread, the
    engine and the feed get a turn again and again, `main` comes to its end. -/
theorem shutdown_completes (r : Fairness.Run (Turn cfg)) (hreach : Reachable cfg (r.state 0))
    (hstopped : (r.state 0).closing ≠ .serving) (hmain : r.Often (· = .main))
    (hengine : r.Often (fun a => ∃ now, a = .engine now)) (hfeed : r.Often (· = .feed)) :
    ∃ n, (r.state n).closing = .done := by
  obtain ⟨n, -, -, hdone⟩ := leadsTo_end r hmain hengine hfeed 0 ⟨hreach, hstopped⟩
  exact ⟨n, hdone⟩

/-- The interrupt comes while an order is in the channel. -/
theorem shutdown_completes_inTurn : ∃ r : Fairness.Run (Turn demoConfig), r.input = inTurn ∧
    (r.state 0).pending = [⟨1, .enter Client.restingBuy⟩] ∧ ∃ n, (r.state n).closing = .done := by
  obtain ⟨x, hx, hclosing, -, hpending, -⟩ := reachable_buyThenStop
  obtain ⟨r, hstart, hinput⟩ := Fairness.exists_run (exists_turn demoConfig) x inTurn
  obtain ⟨hmain, hengine, hfeed⟩ := often_inTurn hinput
  refine ⟨r, hinput, by rw [hstart, hpending], ?_⟩
  exact shutdown_completes r (hstart ▸ hx) (by rw [hstart, hclosing]; nofun) hmain hengine hfeed

end Exchange

end MatchingEngine
