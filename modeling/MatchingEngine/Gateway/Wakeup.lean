import MatchingEngine.Engine.Channel
import MatchingEngine.Lib.Fairness

/-! # Waking the gateway

    The event loop of `Gateway::run` sleeps in the poller, where a response in the
    queue from the engine does not wake it. The hook of the queue does: after every
    push it writes a byte to a pipe that the poller watches. The loop reads the pipe
    dry and then calls `pump_responses`, and this is the only place where it does.

    * The threads: those that push responses, `main`, which calls `Gateway::stop`,
      and the loop. A push puts the response into the queue and calls the hook in a
      second step. The write is dropped when the pipe is full.
    * What the poller and a `read` give is an input: up to 64 of the descriptors that
      are ready, in any order, and at most 256 bytes; a `read` may also be
      interrupted. When the poller fails, the loop ends.

    While there is a response in the queue, there is a byte in the pipe, or one is
    about to be written, or the loop is about to pump (`Wake.Inv`).
-/

namespace MatchingEngine

/-- A descriptor that is ready: the pipe, or the listener or a connection. -/
inductive Ready where
  | pipe
  | other
  deriving DecidableEq, Repr

/-- Where the loop stands, with the events it still has to handle. -/
inductive Loop where
  | checking
  | polling
  | handling (events : List Ready)
  | reading (events : List Ready)
  | pumping (events : List Ready)
  | ended
  deriving DecidableEq, Repr

/-- Where `Gateway::stop` stands. -/
inductive Closer where
  | idle
  | flagged
  | written
  deriving DecidableEq, Repr

/-- `hooks` are the calls of `push` that have not called the hook yet. `failed`,
    `pushed` and `pumped` are ghosts. -/
structure Wake (α : Type) where
  queue : MpscQueue α := {}
  hooks : Nat := 0
  pipe : Nat := 0
  stopping : Bool := false
  closer : Closer := .idle
  loop : Loop := .checking
  failed : Bool := false
  pushed : List α := []
  pumped : List α := []

/-- What a turn of the loop meets: the descriptors that are ready before and behind
    the pipe, the bytes that a `read` gives if there are as many, and whether the
    poller fails. -/
structure Meeting where
  before : Nat
  behind : Nat
  bytes : Nat
  fails : Bool := false

namespace Wake

/-- The bytes that a pipe can hold. -/
def pipeSize : Nat := 65536

/-- The size of the poller's buffer. -/
def maxEvents : Nat := 64

inductive Move (α : Type) where
  | push (v : α)
  | hook
  | stop
  | stopByte
  | loop (env : Meeting)

variable {α : Type}

/-- A byte is written, unless the pipe is full. -/
def writeByte (w : Wake α) : Wake α :=
  { w with pipe := if w.pipe < pipeSize then w.pipe + 1 else w.pipe }

/-- What `poller_.wait` gives. -/
def polled (w : Wake α) (env : Meeting) : List Ready :=
  (List.replicate env.before Ready.other ++ (if 0 < w.pipe then [Ready.pipe] else []) ++
    List.replicate env.behind Ready.other).take maxEvents

/-- The next access of the loop. -/
def runLoop (w : Wake α) (env : Meeting) : Wake α :=
  match w.loop with
  | .checking => { w with loop := if w.stopping then .ended else .polling }
  | .polling =>
    if env.fails then { w with loop := .ended, failed := true }
    else { w with loop := .handling (w.polled env) }
  | .handling [] => { w with loop := .checking }
  | .handling (e :: events) =>
    if w.stopping then { w with loop := .checking }
    else
      match e with
      | .pipe => { w with loop := .reading events }
      | .other => { w with loop := .handling events }
  | .reading events =>
    let n := min (min env.bytes 256) w.pipe
    if n = 0 then { w with loop := .pumping events } else { w with pipe := w.pipe - n }
  | .pumping events =>
    { w with
      queue := w.queue.drain.2
      pumped := w.pumped ++ w.queue.drain.1
      loop := .handling events }
  | .ended => w

/-- A thread that has nothing to do at its turn does nothing. -/
def step (w : Wake α) : Move α → Wake α
  | .push v => { w with queue := w.queue.push v, hooks := w.hooks + 1, pushed := w.pushed ++ [v] }
  | .hook => if w.hooks = 0 then w else { w.writeByte with hooks := w.hooks - 1 }
  | .stop => if w.closer = .idle then { w with stopping := true, closer := .flagged } else w
  | .stopByte => if w.closer = .flagged then { w.writeByte with closer := .written } else w
  | .loop env => w.runLoop env

/-- The states of a gateway. -/
inductive Reachable : Wake α → Prop where
  | start : Reachable {}
  | step {w : Wake α} (reach : Reachable w) (m : Move α) : Reachable (w.step m)

/-! ## Section 1: No response is stranded -/

/-- The loop is about to pump, or will never do it again. -/
def Heeds : Loop → Prop
  | .reading _ | .pumping _ | .ended => True
  | _ => False

structure Inv (w : Wake α) : Prop where
  pushed : w.pushed = w.pumped ++ w.queue.items
  /-- A response is in the queue, and the loop will hear of it. -/
  heard : w.queue.items ≠ [] → 0 < w.hooks ∨ 0 < w.pipe ∨ Heeds w.loop
  closer : w.closer ≠ .idle ↔ w.stopping = true
  ended : w.loop = .ended → w.stopping = true ∨ w.failed = true

theorem inv_start : Inv ({} : Wake α) :=
  ⟨rfl, fun h => absurd rfl h, ⟨fun h => absurd rfl h, nofun⟩, nofun⟩

theorem pipe_writeByte (w : Wake α) : 0 < w.writeByte.pipe ∧ w.writeByte.pipe ≤ w.pipe + 1 := by
  unfold writeByte pipeSize
  dsimp only
  split <;> omega

variable {w : Wake α}

/-- The loop goes on, and does not forget to pump. -/
theorem Inv.setLoop (h : Inv w) {loop : Loop} {failed : Bool} (hheeds : Heeds w.loop → Heeds loop)
    (hended : loop = .ended → w.stopping = true ∨ failed = true) :
    Inv { w with loop := loop, failed := failed } where
  pushed := h.pushed
  heard hne := (h.heard hne).imp_right (Or.imp_right hheeds)
  closer := h.closer
  ended := hended

/-- What the next access of the loop does. -/
theorem runLoop_cases (w : Wake α) (env : Meeting) :
    (∃ loop failed, w.runLoop env = { w with loop := loop, failed := failed } ∧
        (Heeds w.loop → Heeds loop) ∧ (w.failed = true → failed = true) ∧
        (loop = .ended → w.loop = .ended ∨ w.stopping = true ∨ failed = true)) ∨
      (∃ events n, w.loop = .reading events ∧ 0 < n ∧ n ≤ w.pipe ∧
        w.runLoop env = { w with pipe := w.pipe - n }) ∨
      (∃ events, w.loop = .pumping events ∧ w.runLoop env = { w with
        queue := w.queue.drain.2
        pumped := w.pumped ++ w.queue.drain.1
        loop := .handling events }) := by
  unfold runLoop
  split
  · rename_i hloop
    refine .inl ⟨_, w.failed, rfl, by rw [hloop]; exact False.elim, id, fun hend => ?_⟩
    cases hs : w.stopping <;> simp_all
  · rename_i hloop
    split
    · exact .inl ⟨_, true, rfl, by rw [hloop]; exact False.elim, fun _ => rfl,
        fun _ => .inr (.inr rfl)⟩
    · exact .inl ⟨_, w.failed, rfl, by rw [hloop]; exact False.elim, id, nofun⟩
  · rename_i hloop
    exact .inl ⟨_, w.failed, rfl, by rw [hloop]; exact False.elim, id, nofun⟩
  · rename_i e events hloop
    split
    · exact .inl ⟨_, w.failed, rfl, by rw [hloop]; exact False.elim, id, nofun⟩
    · cases e <;> exact .inl ⟨_, w.failed, rfl, by rw [hloop]; exact False.elim, id, nofun⟩
  · rename_i events hloop
    dsimp only
    split
    · exact .inl ⟨_, w.failed, rfl, fun _ => trivial, id, nofun⟩
    · rename_i hn
      exact .inr (.inl ⟨events, _, hloop, Nat.pos_of_ne_zero hn, Nat.min_le_right _ _, rfl⟩)
  · rename_i events hloop
    exact .inr (.inr ⟨events, hloop, rfl⟩)
  · exact .inl ⟨w.loop, w.failed, rfl, id, id, .inl⟩

theorem Inv.runLoop (h : Inv w) (env : Meeting) : Inv (w.runLoop env) := by
  rcases w.runLoop_cases env with ⟨loop, failed, heq, hheeds, hfailed, hended⟩ |
    ⟨events, n, hloop, -, -, heq⟩ | ⟨events, hloop, heq⟩
  · rw [heq]
    refine h.setLoop hheeds (fun hend => ?_)
    exact (hended hend).elim (fun hbefore => (h.ended hbefore).imp_right hfailed) id
  · rw [heq]
    exact { h with heard := fun _ => .inr (.inr (by rw [hloop]; trivial)) }
  · rw [heq]
    refine ⟨?_, fun hne => absurd rfl hne, h.closer, nofun⟩
    rw [h.pushed]
    exact (List.append_nil _).symm

/-- **Step lemma.** -/
theorem Inv.step (h : Inv w) (m : Move α) : Inv (w.step m) := by
  cases m with
  | push v =>
    refine ⟨?_, fun _ => .inl (Nat.succ_pos _), h.closer, h.ended⟩
    show w.pushed ++ [v] = w.pumped ++ (w.queue.items ++ [v])
    rw [h.pushed, List.append_assoc]
  | hook =>
    unfold Wake.step
    dsimp only
    split
    · exact h
    · exact { h with heard := fun _ => .inr (.inl w.pipe_writeByte.1) }
  | stop =>
    unfold Wake.step
    dsimp only
    split
    · exact ⟨h.pushed, h.heard, ⟨fun _ => rfl, nofun⟩, fun _ => .inl rfl⟩
    · exact h
  | stopByte =>
    unfold Wake.step
    dsimp only
    split
    · rename_i hc
      have hstopping := h.closer.mp (by rw [hc]; nofun)
      exact ⟨h.pushed, fun _ => .inr (.inl w.pipe_writeByte.1),
        ⟨fun _ => hstopping, nofun⟩, h.ended⟩
    · exact h
  | loop env => exact h.runLoop env

theorem Reachable.inv (h : Reachable w) : Inv w := by
  induction h with
  | start => exact inv_start
  | step _ m ih => exact ih.step m

/-! ## Section 2: Every response is pumped -/

/-- A move after the last push. -/
def Calm (w : Wake α) (m : Move α) (w' : Wake α) : Prop := w' = w.step m ∧ ∀ v, m ≠ .push v

/-- The loop polls with room for the pipe in the poller's buffer, or has ended. -/
def Roomy (w : Wake α) (m : Move α) : Prop :=
  w.loop = .ended ∨ w.loop = .polling ∧ ∃ env, m = .loop env ∧ env.before < maxEvents

/-- The pipe is among the events, or is being read. -/
def Seen : Loop → Prop
  | .handling events => .pipe ∈ events
  | .reading _ | .pumping _ => True
  | .checking | .polling | .ended => False

/-- The turns of a loop that has seen the pipe until it pumps. -/
def Loop.rank : Loop → Nat
  | .reading _ => 1
  | .handling events => 2 + events.length
  | .pumping _ | .checking | .polling | .ended => 0

/-- The turns of a loop that is being stopped until it ends. -/
def Loop.lastRank : Loop → Nat
  | .ended => 0
  | .checking => 1
  | .handling _ => 2
  | .polling | .pumping _ => 3
  | .reading _ => 4

theorem mem_polled {env : Meeting} (hpipe : 0 < w.pipe) (hroom : env.before < maxEvents) :
    Ready.pipe ∈ w.polled env := by
  unfold polled
  rw [if_pos hpipe, List.append_assoc, List.take_append, List.length_replicate]
  obtain ⟨n, hn⟩ := Nat.exists_eq_succ_of_ne_zero (Nat.sub_ne_zero_of_lt hroom)
  simp [hn]

/-- A turn of a loop that has seen the pipe brings it closer to pumping. -/
theorem rank_runLoop (hseen : Seen w.loop) (hstop : w.stopping = false) (env : Meeting) :
    (w.runLoop env).queue.items = [] ∨ Seen (w.runLoop env).loop ∧
      (w.runLoop env).pipe + Loop.rank (w.runLoop env).loop < w.pipe + Loop.rank w.loop := by
  cases hloop : w.loop with
  | checking | polling | ended =>
    rw [hloop] at hseen
    cases hseen
  | handling events =>
    rw [hloop] at hseen
    cases events with
    | nil => cases hseen
    | cons e events =>
      right
      rw [runLoop, hloop]
      dsimp only
      rw [if_neg (by rw [hstop]; decide)]
      cases e with
      | pipe =>
        refine ⟨trivial, ?_⟩
        simp only [Loop.rank, List.length_cons]
        omega
      | other =>
        have hmem : Ready.pipe ∈ events := by simpa [Seen] using hseen
        refine ⟨hmem, ?_⟩
        simp [Loop.rank]
  | reading events =>
    right
    rw [runLoop, hloop]
    dsimp only
    split
    · exact ⟨trivial, by simp [Loop.rank]⟩
    · rename_i hn
      refine ⟨trivial, ?_⟩
      simp only
      omega
  | pumping events =>
    rw [runLoop, hloop]
    exact .inl rfl

/-- A turn of a loop that is being stopped. -/
theorem lastRank_runLoop (hstop : w.stopping = true) (hloop : w.loop ≠ .ended) (env : Meeting) :
    (w.runLoop env).pipe + Loop.lastRank (w.runLoop env).loop < w.pipe + Loop.lastRank w.loop := by
  unfold runLoop
  split
  · rename_i hcheck
    simp [hstop, hcheck, Loop.lastRank]
  · rename_i hpoll
    split <;> simp [hpoll, Loop.lastRank]
  · rename_i hhandle
    simp [hhandle, Loop.lastRank]
  · rename_i e events hhandle
    rw [if_pos hstop]
    simp [hhandle, Loop.lastRank]
  · rename_i events hread
    dsimp only
    split
    · simp [hread, Loop.lastRank]
    · simp only [hread]
      omega
  · rename_i events hpump
    simp [hpump, Loop.lastRank]
  · rename_i hend
    exact absurd hend hloop

/-- The loop leaves the other threads' state alone. -/
theorem runLoop_frame (w : Wake α) (env : Meeting) : (w.runLoop env).hooks = w.hooks ∧
    (w.runLoop env).stopping = w.stopping ∧ (w.runLoop env).closer = w.closer ∧
      (w.runLoop env).pushed = w.pushed := by
  rcases w.runLoop_cases env with ⟨_, _, heq, -⟩ | ⟨_, _, -, -, -, heq⟩ | ⟨_, -,
    heq⟩ <;> rw [heq] <;> exact ⟨rfl, rfl, rfl, rfl⟩

/-- Without a push, no new hooks are to be called. -/
theorem hooks_step (w : Wake α) {m : Move α} (hpush : ∀ v, m ≠ .push v) :
    (w.step m).hooks ≤ w.hooks := by
  cases m with
  | push v => exact absurd rfl (hpush v)
  | loop env => exact Nat.le_of_eq (w.runLoop_frame env).1
  | hook | stop | stopByte =>
    unfold Wake.step
    dsimp only
    split <;> simp [writeByte]

/-- The responses are pumped, or the loop has come to its end or will. -/
def Settled (w : Wake α) : Prop := w.queue.items = [] ∨ w.stopping = true ∨ w.loop = .ended

variable {r : Fairness.Run (Calm (α := α))}

theorem leadsTo_hooked (hhook : r.Often (· = .hook)) :
    r.LeadsTo Inv (fun w => Inv w ∧ w.hooks = 0) := by
  apply r.leadsTo_of_measure Wake.hooks hhook.oftenIn
  · rintro w m _ h _ ⟨rfl, hpush⟩
    exact .inr ⟨h.step m, w.hooks_step hpush⟩
  · rintro w _ _ h hsome rfl ⟨rfl, -⟩
    have hhooks : w.hooks ≠ 0 := fun hzero => hsome ⟨h, hzero⟩
    refine .inr ⟨h.step .hook, ?_⟩
    rw [Wake.step, if_neg hhooks]
    exact Nat.pred_lt hhooks

/-- A poll with room for the pipe sees it, since there is a byte in it. -/
theorem leadsTo_seen (hroom : r.OftenIn Roomy) :
    r.LeadsTo (fun w => Inv w ∧ w.hooks = 0) (fun w => Inv w ∧
      (w.hooks = 0 ∧ Seen w.loop ∨ Settled w)) := by
  apply r.leadsTo_of_step hroom
  · rintro w m _ ⟨h, hhooks⟩ _ ⟨rfl, hpush⟩
    exact .inr ⟨h.step m, Nat.le_zero.mp (hhooks ▸ w.hooks_step hpush)⟩
  · rintro w m _ ⟨h, hhooks⟩ hgoing hroomy ⟨rfl, -⟩
    have hopen : ¬ Settled w := fun hdone => hgoing ⟨h, .inr hdone⟩
    rcases hroomy with hend | ⟨hloop, env, rfl, hbefore⟩
    · exact absurd (.inr (.inr hend)) hopen
    · refine ⟨h.runLoop env, ?_⟩
      -- the loop is not about to pump and no hook is to come, so that the byte is there
      have hpipe : 0 < w.pipe := by
        rcases h.heard (fun hempty => hopen (.inl hempty)) with hpos | hpos | hheeds
        · omega
        · exact hpos
        · rw [hloop] at hheeds
          cases hheeds
      have hpoll : w.step (.loop env) = w.runLoop env := rfl
      rw [hpoll, runLoop, hloop]
      dsimp only
      split
      · -- the poller has failed
        exact .inr (.inr (.inr rfl))
      · exact .inl ⟨hhooks, mem_polled hpipe hbefore⟩

theorem leadsTo_settled (hloop : r.Often (fun m => ∃ env, m = .loop env)) :
    r.LeadsTo (fun w => Inv w ∧ (w.hooks = 0 ∧ Seen w.loop ∨ Settled w))
      (fun w => Inv w ∧ Settled w) := by
  have hturn : ∀ {w : Wake α} {env : Meeting}, Inv w ∧ (w.hooks = 0 ∧ Seen w.loop ∨ Settled w) →
      ¬ (Inv w ∧ Settled w) →
      (Inv (w.runLoop env) ∧ Settled (w.runLoop env)) ∨
        (Inv (w.runLoop env) ∧ ((w.runLoop env).hooks = 0 ∧ Seen (w.runLoop env).loop ∨
          Settled (w.runLoop env))) ∧
        (w.runLoop env).pipe + Loop.rank (w.runLoop env).loop < w.pipe + Loop.rank w.loop := by
    rintro w env ⟨h, hseen⟩ hgoing
    have hopen : ¬ Settled w := fun hdone => hgoing ⟨h, hdone⟩
    obtain ⟨hhooks, hseen⟩ := hseen.resolve_right hopen
    have hstop := Bool.eq_false_of_not_eq_true (fun hs => hopen (.inr (.inl hs)))
    rcases rank_runLoop hseen hstop env with hempty | ⟨hnext, hlt⟩
    · exact .inl ⟨h.runLoop env, .inl hempty⟩
    · exact .inr ⟨⟨h.runLoop env, .inl ⟨(w.runLoop_frame env).1.trans hhooks, hnext⟩⟩, hlt⟩
  -- the bytes in the pipe and the events before it become fewer
  apply r.leadsTo_of_measure (fun w => w.pipe + Loop.rank w.loop) hloop.oftenIn
  · rintro w m _ ⟨h, hseen⟩ hgoing ⟨rfl, hpush⟩
    have hopen : ¬ Settled w := fun hdone => hgoing ⟨h, hdone⟩
    have hhooks := (hseen.resolve_right hopen).1
    cases m with
    | push v => exact absurd rfl (hpush v)
    | hook =>
      rw [Wake.step, if_pos hhooks]
      exact .inr ⟨⟨h, hseen⟩, Nat.le_refl _⟩
    | stop =>
      have hinv := h.step .stop
      rw [Wake.step] at hinv ⊢
      split
      · rename_i hc
        rw [if_pos hc] at hinv
        exact .inl ⟨hinv, .inr (.inl rfl)⟩
      · exact .inr ⟨⟨h, hseen⟩, Nat.le_refl _⟩
    | stopByte =>
      rw [Wake.step]
      split
      · rename_i hc
        exact absurd (.inr (.inl (h.closer.mp (by rw [hc]; nofun)))) hopen
      · exact .inr ⟨⟨h, hseen⟩, Nat.le_refl _⟩
    | loop env => exact (hturn ⟨h, hseen⟩ hgoing).imp_right (And.imp_right Nat.le_of_lt)
  · rintro w _ _ h hgoing ⟨env, rfl⟩ ⟨rfl, -⟩
    exact hturn h hgoing

/-- The bytes that are still to be written. -/
def Closer.bytes : Closer → Nat
  | .idle => 0
  | .flagged => 1
  | .written => 0

/-- What is left to a loop that is being stopped. A byte that is written was still to
    be written, with the turn that reads it. -/
def left (w : Wake α) : Nat :=
  2 * w.hooks + 2 * Closer.bytes w.closer + (w.pipe + Loop.lastRank w.loop)

theorem left_runLoop (h : Inv w ∧ w.stopping = true) (hloop : w.loop ≠ .ended) (env : Meeting) :
    (Inv (w.runLoop env) ∧ (w.runLoop env).stopping = true) ∧ (w.runLoop env).left < w.left := by
  obtain ⟨hhooks, hsame, hcloser, -⟩ := w.runLoop_frame env
  have hlt := lastRank_runLoop h.2 hloop env
  refine ⟨⟨h.1.runLoop env, hsame.trans h.2⟩, ?_⟩
  simp only [left, hhooks, hcloser]
  omega

theorem leadsTo_ended (hloop : r.Often (fun m => ∃ env, m = .loop env)) :
    r.LeadsTo (fun w => Inv w ∧ w.stopping = true) (fun w => Inv w ∧ w.loop = .ended) := by
  apply r.leadsTo_of_measure left hloop.oftenIn
  · rintro w m _ ⟨h, hstop⟩ hgoing ⟨rfl, hpush⟩
    have hrunning : w.loop ≠ .ended := fun hend => hgoing ⟨h, hend⟩
    cases m with
    | push v => exact absurd rfl (hpush v)
    | loop env => exact .inr ((left_runLoop ⟨h, hstop⟩ hrunning env).imp_right Nat.le_of_lt)
    | hook =>
      have hbyte := w.pipe_writeByte.2
      refine .inr ⟨⟨h.step .hook, ?_⟩, ?_⟩
      · rw [Wake.step]
        split <;> exact hstop
      · rw [Wake.step]
        split
        · exact Nat.le_refl _
        · -- the hook counted twice, for its byte and for the turn that reads it
          show 2 * (w.hooks - 1) + 2 * Closer.bytes w.closer +
            (w.writeByte.pipe + Loop.lastRank w.loop) ≤ _
          rw [left]
          omega
    | stop =>
      rw [Wake.step, if_neg (h.closer.mpr hstop)]
      exact .inr ⟨⟨h, hstop⟩, Nat.le_refl _⟩
    | stopByte =>
      have hbyte := w.pipe_writeByte.2
      refine .inr ⟨⟨h.step .stopByte, ?_⟩, ?_⟩
      · rw [Wake.step]
        split <;> exact hstop
      · rw [Wake.step]
        split
        · rename_i hc
          show 2 * w.hooks + 2 * 0 + (w.writeByte.pipe + Loop.lastRank w.loop) ≤ _
          rw [left, hc, Closer.bytes]
          omega
        · exact Nat.le_refl _
  · rintro w _ _ h hgoing ⟨env, rfl⟩ ⟨rfl, -⟩
    exact .inr (left_runLoop h (fun hend => hgoing ⟨h.1, hend⟩) env)

/-- **No response is stranded.** From any state of a gateway on, nothing more is
    pushed, the calls of `push` that are under way come to their hooks, the loop gets
    its turn again and again, and unless it has ended it polls again and again with
    room for the pipe in the poller's buffer. Then it pumps everything that was
    pushed, in order, or it has ended because it was stopped or the poller failed. -/
theorem responses_pumped (r : Fairness.Run (Calm (α := α))) (hstart : Reachable (r.state 0))
    (hhook : r.Often (· = .hook)) (hloop : r.Often (fun m => ∃ env, m = .loop env))
    (hroom : r.OftenIn Roomy) :
    ∃ n, (r.state n).pumped = (r.state 0).pushed ∨ (r.state n).loop = .ended ∧
      ((r.state n).stopping = true ∨ (r.state n).failed = true) := by
  have hpushed : ∀ n, (r.state n).pushed = (r.state 0).pushed := by
    intro n
    induction n with
    | zero => rfl
    | succ n ih =>
      obtain ⟨hstep, hpush⟩ := r.next n
      rw [hstep, ← ih]
      cases hm : r.input n with
      | push v => exact absurd hm (hpush v)
      | loop env => exact ((r.state n).runLoop_frame env).2.2.2
      | hook | stop | stopByte =>
        unfold Wake.step
        dsimp only
        split <;> rfl
  have hsettled := ((leadsTo_hooked hhook).trans (leadsTo_seen hroom)).trans (leadsTo_settled hloop)
  obtain ⟨n, -, hinv, hempty | hstop | hend⟩ := hsettled 0 hstart.inv
  · refine ⟨n, .inl ?_⟩
    rw [← hpushed n, hinv.pushed, hempty, List.append_nil]
  · obtain ⟨k, -, hinv', hend⟩ := leadsTo_ended hloop n ⟨hinv, hstop⟩
    exact ⟨k, .inr ⟨hend, hinv'.ended hend⟩⟩
  · exact ⟨n, .inr ⟨hend, hinv.ended hend⟩⟩

/-- The hook, and a turn of the loop in which the pipe comes first and a `read` takes
    one byte. -/
def hookAndLoop (n : Nat) : Move Nat :=
  if n % 2 = 0 then .hook else .loop { before := 0, behind := 0, bytes := 1 }

def bothTurns (w : Wake Nat) : Wake Nat := (w.step (hookAndLoop 0)).step (hookAndLoop 1)

/-- A response was pushed while the loop was in the poller. -/
def pushedOne : Wake Nat :=
  (({} : Wake Nat).step (.loop { before := 0, behind := 0, bytes := 0 })).step (.push 7)

/-- It was pumped, and the loop is in the poller again. -/
def pumpedOne : Wake Nat := { loop := .polling, pushed := [7], pumped := [7] }

theorem bothTurns_pushedOne : bothTurns^[7] pushedOne = pumpedOne := by
  have hread : bothTurns^[3] pushedOne =
      { queue := ⟨[7], false⟩, loop := .reading [], pushed := [7] } := rfl
  rw [show 7 = 4 + 3 from rfl, Function.iterate_add_apply, hread]
  rfl

theorem responses_pumped_one : ∃ r : Fairness.Run (Calm (α := Nat)),
    r.input = hookAndLoop ∧ r.state 0 = pushedOne ∧
      ∃ n, (r.state n).pumped = [7] ∨ (r.state n).loop = .ended ∧
        ((r.state n).stopping = true ∨ (r.state n).failed = true) := by
  let r : Fairness.Run (Calm (α := Nat)) :=
    { state := fun n => Nat.rec pushedOne (fun n w => w.step (hookAndLoop n)) n
      input := hookAndLoop
      next := by
        intro n
        refine ⟨rfl, fun v => ?_⟩
        unfold hookAndLoop
        split <;> nofun }
  have hstart : Reachable pushedOne := (Reachable.start.step _).step (.push 7)
  have heven : ∀ n, hookAndLoop (2 * n) = hookAndLoop 0 := fun n => if_pos (by omega)
  have hodd : ∀ n, hookAndLoop (2 * n + 1) = hookAndLoop 1 := fun n => if_neg (by omega)
  have hturns : ∀ n, r.state (2 * n) = bothTurns^[n] pushedOne := by
    intro n
    induction n with
    | zero => rfl
    | succ n ih =>
      show ((r.state (2 * n)).step (hookAndLoop (2 * n))).step (hookAndLoop (2 * n + 1)) = _
      rw [heven, hodd, ih, Function.iterate_succ_apply']
      rfl
  -- from then on the loop polls at every third of its turns
  have hpolls : ∀ n, r.state (2 * (3 * n + 7)) = pumpedOne := by
    intro n
    rw [hturns, Function.iterate_add_apply, bothTurns_pushedOne, Function.iterate_mul]
    exact Function.iterate_fixed (show bothTurns^[3] pumpedOne = pumpedOne from rfl) n
  refine ⟨r, rfl, rfl, responses_pumped r hstart ?_ ?_ ?_⟩
  · intro n
    exact ⟨2 * n, by omega, heven n⟩
  · intro n
    exact ⟨2 * n + 1, by omega, _, hodd n⟩
  · intro n
    refine ⟨2 * (3 * n + 7) + 1, by omega, .inr ⟨?_, _, hodd _, by decide⟩⟩
    show ((r.state (2 * (3 * n + 7))).step (hookAndLoop (2 * (3 * n + 7)))).loop = .polling
    rw [heven, hpolls]
    rfl

end Wake

end MatchingEngine
