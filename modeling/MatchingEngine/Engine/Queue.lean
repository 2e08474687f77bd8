import MatchingEngine.Engine.Channel
import MatchingEngine.Lib.Monitor

/-! # The mutex queue, one access at a time

    `common/queue.hpp` again, without the assumption that a call is atomic. Any
    number of threads call `push` and `stop`, and one thread calls `drain`,
    `wait_drain` and `wait_drain_for`. The queue is a monitor: a call locks the
    mutex, accesses the queue, unlocks, and a push or a stop then notifies.

    * The calls take effect as those of the atomic queue do, one after the other, so
      that nothing is lost, doubled or overtaken (`mutex_queue_atomic`).
    * A consumer that waits is woken by a push or a stop (`wait_drain_wakes`).

    The hook that `push` calls at its end belongs to `Gateway.Wakeup`.
-/

namespace MatchingEngine

namespace MpscQueue

open Monitor

variable {α ι : Type}

variable {q : MpscQueue α}

/-! ## Section 1: The queue as a monitor -/

inductive Op (α : Type) where
  | push (v : α)
  | stop

/-- The predicate of the waits is `!items_.empty() || stopped_`. -/
def program : Program (MpscQueue α) (Op α) (List α) where
  apply
    | .push v, q => q.push v
    | .stop, q => q.stop
  ready q := !q.items.isEmpty || q.stopped
  take := drain

/-- The queue with its threads. -/
abbrev Threads (ι α : Type) := State ι (MpscQueue α) (Op α) (List α)

/-- The effects of calls of the atomic queue. A call that waits without end has
    none, and one whose time was over takes what there is, as a `drain` does. -/
inductive Atomic : List (Effect ι (Op α) (List α)) → MpscQueue α → Prop where
  | nil : Atomic [] {}
  | push {es q} (before : Atomic es q) (i : ι) (v : α) : Atomic (es ++ [.op i (.push v)]) (q.push v)
  | stop {es q} (before : Atomic es q) (i : ι) : Atomic (es ++ [.op i .stop]) q.stop
  | drain {es q} (before : Atomic es q) {mode : Mode} (waits : mode.waits = false) :
    Atomic (es ++ [.take mode q.drain.1]) q.drain.2
  | waitDrain {es q b q'} (before : Atomic es q) {mode : Mode} (waits : mode.waits = true)
    (taken : q.waitDrain = some (b, q')) : Atomic (es ++ [.take mode b]) q'

/-- The values pushed, in the order of the queue. -/
def pushedIn (es : List (Effect ι (Op α) (List α))) : List α :=
  es.filterMap (fun
    | .op _ (.push v) => some v
    | _ => none)

theorem ready_iff (q : MpscQueue α) : program.ready q = true ↔ q.items ≠ [] ∨ q.stopped = true := by
  show (!q.items.isEmpty || q.stopped) = true ↔ _
  rw [Bool.or_eq_true, Bool.not_eq_true', List.isEmpty_eq_false_iff]

variable {es : List (Effect ι (Op α) (List α))}

theorem atomic_of_replays (h : Replays program {} es q) : Atomic es q := by
  induction h with
  | nil => exact .nil
  | op _ i op ih =>
    cases op with
    | push v => exact ih.push i v
    | stop => exact ih.stop i
  | @take es q mode _ hready ih =>
    cases hwaits : mode.waits with
    | false => exact ih.drain hwaits
    | true =>
      refine ih.waitDrain hwaits ?_
      rw [hwaits] at hready
      rw [MpscQueue.waitDrain, if_pos ((ready_iff q).mp (hready.resolve_left (by decide)))]
      rfl

theorem waitDrain_eq_some {q' : MpscQueue α} {b : List α} (h : q.waitDrain = some (b, q')) :
    (b, q') = q.drain ∧ (q.items ≠ [] ∨ q.stopped = true) := by
  unfold MpscQueue.waitDrain at h
  split at h
  · rename_i hready
    exact ⟨(Option.some.inj h).symm, hready⟩
  · cases h

/-- Everything pushed was taken or is in the queue. -/
theorem Atomic.fifo (h : Atomic es q) : pushedIn es = (takesOf es).flatten ++ q.items := by
  have htake : ∀ {es : List (Effect ι (Op α) (List α))} {q : MpscQueue α} (mode : Mode),
      pushedIn es = (takesOf es).flatten ++ q.items →
      pushedIn (es ++ [.take mode q.drain.1]) =
        (takesOf (es ++ [.take mode q.drain.1])).flatten ++ q.drain.2.items := by
    intro es q mode ih
    rw [pushedIn, List.filterMap_append, takesOf_append, ← pushedIn, ih]
    simp [takesOf, MpscQueue.drain]
  induction h with
  | nil => rfl
  | push _ i v ih =>
    rw [pushedIn, List.filterMap_append, takesOf_append, ← pushedIn, ih]
    simp [takesOf, MpscQueue.push]
  | stop _ i ih =>
    rw [pushedIn, List.filterMap_append, takesOf_append, ← pushedIn, ih]
    simp [takesOf, MpscQueue.stop]
  | drain _ _ ih => exact htake _ ih
  | waitDrain _ _ taken ih =>
    obtain ⟨heq, -⟩ := waitDrain_eq_some taken
    cases heq
    exact htake _ ih

/-- The queue is stopped by a call of `stop`. -/
theorem Atomic.stopped (h : Atomic es q) (hstopped : q.stopped = true) :
    ∃ i, Effect.op i Op.stop ∈ es := by
  induction h with
  | nil => cases hstopped
  | push _ _ _ ih | drain _ _ ih =>
    obtain ⟨i, hi⟩ := ih hstopped
    exact ⟨i, List.mem_append_left _ hi⟩
  | stop _ i => exact ⟨i, List.mem_append_right _ (List.mem_singleton_self _)⟩
  | waitDrain _ _ taken ih =>
    obtain ⟨heq, -⟩ := waitDrain_eq_some taken
    cases heq
    obtain ⟨i, hi⟩ := ih hstopped
    exact ⟨i, List.mem_append_left _ hi⟩

/-- A `wait_drain`, or a `wait_drain_for` before its time is over, is empty only after
    a `stop`. -/
theorem Atomic.stopped_of_empty (h : Atomic es q) {mode : Mode} (hwaits : mode.waits = true)
    (hmem : Effect.take mode [] ∈ es) : q.stopped = true := by
  induction h with
  | nil => cases hmem
  | push _ _ _ ih | stop _ _ ih =>
    rcases List.mem_append.mp hmem with hbefore | hnew
    · simp [MpscQueue.push, MpscQueue.stop, ih hbefore]
    · cases List.mem_singleton.mp hnew
  | drain _ hnow ih =>
    rcases List.mem_append.mp hmem with hbefore | hnew
    · exact ih hbefore
    · injection List.mem_singleton.mp hnew with hsame
      rw [hsame, hnow] at hwaits
      cases hwaits
  | @waitDrain es q b q' _ mode' _ taken ih =>
    obtain ⟨heq, hready⟩ := waitDrain_eq_some taken
    cases heq
    rcases List.mem_append.mp hmem with hbefore | hnew
    · exact ih hbefore
    · injection List.mem_singleton.mp hnew with _ hempty
      exact hready.resolve_left (fun hne => hne hempty.symm)

/-! ## Section 2: The threads -/

section

variable [DecidableEq ι] {s : Threads ι α}

/-- **The mutex queue is atomic.** However the accesses of the threads interleave,
    the calls take effect one after the other, as those of the atomic queue do. Each
    thread's calls take effect once, in the order in which it makes them, and no later
    than they return. So what was pushed is what was returned, what the consumer holds
    in its hand and what is in the queue, in this order; and a `wait_drain`, or a
    `wait_drain_for` that ended before its time was over, returns nothing only when
    the queue was stopped. -/
theorem mutex_queue_atomic (h : Reachable program {} s) :
    Atomic s.history s.shared ∧
      (∀ i, opsOf i s.history ++ (s.callers i).pending = begunBy i s.begun) ∧
      takesOf s.history = s.returned ++ s.consumer.inHand ∧
      pushedIn s.history = s.returned.flatten ++ s.consumer.inHand.flatten ++ s.shared.items ∧
      ∀ mode : Mode, mode.waits = true → Effect.take mode [] ∈ s.history →
        ∃ i, Effect.op i Op.stop ∈ s.history := by
  have hinv := h.inv
  have hatomic := atomic_of_replays hinv.replays
  refine ⟨hatomic, hinv.ops, hinv.takes, ?_, fun mode hwaits hmem => ?_⟩
  · rw [hatomic.fifo, hinv.takes, List.flatten_append]
  · exact hatomic.stopped (hatomic.stopped_of_empty hwaits hmem)

/-- The consumer waits, is woken by a push and returns the value; another thread is
    about to stop the queue. -/
def wokenRun : List (Move Bool (Op Nat)) :=
  [.call .wait, .consume, .consume, .begin true (.push 7), .begin false .stop,
    .turn true, .turn true, .turn true, .turn true, .consume, .consume, .consume]

theorem mutex_queue_atomic_woken : ∃ s : Threads Bool Nat, Reachable program {} s ∧
    s.returned = [[7]] ∧ Atomic s.history s.shared ∧
      pushedIn s.history = [7] ++ s.consumer.inHand.flatten ++ s.shared.items := by
  obtain ⟨s, hs⟩ : ∃ s, wokenRun.foldlM (State.step program) ({ shared := {} } : Threads Bool Nat) =
    some s :=
    ⟨_, rfl⟩
  have hreach : Reachable program {} s :=
    Machine.foldlM_induct (fun hr hstep => .step hr _ hstep) wokenRun .start hs
  have hreturned : s.returned = [[7]] := by
    cases hs
    rfl
  obtain ⟨hatomic, -, -, hpushed, -⟩ := mutex_queue_atomic hreach
  rw [hreturned] at hpushed
  exact ⟨s, hreach, hreturned, hatomic, hpushed⟩

/-- **A consumer that waits is woken.** Every thread that pushes or stops gets its
    turn again and again, and so does the consumer at times when the mutex is free.
    Then a call of the consumer returns when there is something in the queue or the
    queue is stopped, and it returns something unless the queue is stopped. -/
theorem wait_drain_wakes (r : Fairness.Run (attempt (program (α := α))))
    (hstart : Reachable program {} (r.state 0)) (hturn : ∀ i : ι, r.Often (· = .turn i))
    (hconsume : r.OftenIn (fun s m => m = .consume ∧ s.owner = none)) {n : Nat}
    (hasks : (r.state n).consumer.Asks)
    (hready : (r.state n).shared.items ≠ [] ∨ (r.state n).shared.stopped = true) :
    ∃ k, n ≤ k ∧ ∃ b, (r.state k).returned = (r.state n).returned ++ [b] ∧
      (b ≠ [] ∨ (r.state k).shared.stopped = true) := by
  have hmono : ∀ (op : Op α) (q : MpscQueue α), program.ready q = true →
      program.ready (program.apply op q) = true := by
    intro op q hq
    rw [ready_iff] at hq ⊢
    cases op with
    | push v => exact .inl (by simp [program, MpscQueue.push])
    | stop => exact .inr rfl
  have hgood : ∀ q : MpscQueue α, program.ready q = true →
      (program.take q).1 ≠ [] ∨ (program.take q).2.stopped = true := fun q hq => (ready_iff q).mp hq
  exact wait_returns hmono hstart.inv hturn hconsume (fun b q => b ≠ [] ∨ q.stopped = true) hgood
    hasks ((ready_iff _).mpr hready)

/-- The consumer waits, and a push is about to notify. -/
def pushedRun : List (Move Unit (Op Nat)) :=
  [.call .wait, .consume, .consume, .begin () (.push 7), .turn (), .turn (), .turn ()]

/-- The two threads in turn. -/
def inTurn (n : Nat) : Move Unit (Op Nat) := if n % 2 = 0 then .turn () else .consume

theorem wait_drain_wakes_inTurn : ∃ r : Fairness.Run (attempt (ι := Unit) (program (α := Nat))),
    (r.state 0).consumer = .waiting .wait ∧ ∃ k b, (r.state k).returned = [b] ∧
      (b ≠ [] ∨ (r.state k).shared.stopped = true) := by
  obtain ⟨s, hs⟩ : ∃ s,
      pushedRun.foldlM (State.step program) ({ shared := {} } : Threads Unit Nat) = some s :=
    ⟨_, rfl⟩
  have hreach : Reachable program {} s :=
    Machine.foldlM_induct (fun hr hstep => .step hr _ hstep) pushedRun .start hs
  obtain ⟨r, hstart, hinput⟩ := Fairness.exists_run
    (fun (s : Threads Unit Nat) m => (⟨_, rfl⟩ : ∃ s', attempt program s m s')) s inTurn
  have hnext : ∀ n, r.state (n + 1) = ((r.state n).step program (inTurn n)).getD (r.state n) := by
    intro n
    rw [← hinput]
    exact r.next n
  cases hs
  -- after six moves both threads are idle, and they stay so
  have hquiet : ∀ n, (r.state (n + 6)).owner = none ∧ (r.state (n + 6)).consumer = .idle ∧
      (r.state (n + 6)).callers () = .idle := by
    intro n
    induction n with
    | zero =>
      rw [hnext 5, hnext 4, hnext 3, hnext 2, hnext 1, hnext 0, hstart]
      exact ⟨rfl, rfl, rfl⟩
    | succ n ih =>
      obtain ⟨howner, hconsumer, hcaller⟩ := ih
      have hsame : r.state (n + 1 + 6) = r.state (n + 6) := by
        rw [Nat.add_right_comm, hnext, inTurn]
        split
        · simp [State.step, State.turn, hcaller]
        · simp [State.step, State.consume, hconsumer]
      rw [hsame]
      exact ⟨howner, hconsumer, hcaller⟩
  have hturn : ∀ i, r.Often (· = .turn i) := by
    intro i n
    exact ⟨2 * n, by omega, by simp [hinput, inTurn]⟩
  have hconsume : r.OftenIn (fun s m => m = .consume ∧ s.owner = none) := by
    intro n
    refine ⟨2 * n + 1 + 6, by omega, ?_, (hquiet _).1⟩
    have hodd : ¬ (2 * n + 1 + 6) % 2 = 0 := by omega
    rw [hinput, inTurn, if_neg hodd]
  obtain ⟨k, -, b, hb, hgood⟩ := wait_drain_wakes r (by rw [hstart]; exact hreach) hturn hconsume
    (by rw [hstart]; trivial) (by rw [hstart]; exact .inl (by decide))
  refine ⟨r, by rw [hstart]; rfl, k, b, ?_, hgood⟩
  rw [hb, hstart]
  rfl

end

end MpscQueue

end MatchingEngine
