import MatchingEngine.Lib.Machine
import MatchingEngine.Engine.Engine
import Mathlib.Data.Nat.Bitwise

/-! # The command channel and the engine's loop

    `common/spsc_ring.hpp`, `common/queue.hpp`, `CommandChannel` of
    `engine/engine.hpp` and `Engine::run_loop`. A gateway thread pushes commands
    and then calls `stop`; the engine thread takes commands out until it finds
    that it was stopped. Each operation on the channel is one atomic step, and a
    schedule says whose step is next.

    With the mutex queue no command is lost. With the ring, the loop makes two
    observations, that the ring is empty and that the stop flag is set, and the
    gateway may push and stop between them. That is the only way to lose a
    command.
-/

namespace MatchingEngine

/-! ## Section 1: The two queues -/

/-- A ring of `2 ^ k` slots, one of which stays free. -/
structure SpscRing (α : Type) where
  head : Nat := 0
  tail : Nat := 0
  buf : Nat → α

namespace SpscRing

variable {α : Type}

/-- `none` when the ring is full. -/
def tryPush (k : Nat) (r : SpscRing α) (v : α) : Option (SpscRing α) :=
  let next := (r.tail + 1) &&& (2 ^ k - 1)
  if next = r.head then none
  else some { r with buf := Function.update r.buf r.tail v, tail := next }

/-- `none` when the ring is empty. -/
def tryPop (k : Nat) (r : SpscRing α) : Option (α × SpscRing α) :=
  if r.head = r.tail then none
  else some (r.buf r.head, { r with head := (r.head + 1) &&& (2 ^ k - 1) })

/-- Slots less than one turn of the ring apart are different. -/
theorem slot_ne {n : Nat} (start : Nat) {i j : Nat} (hij : i < j) (hj : j < i + n) :
    (start + i) % n ≠ (start + j) % n := by
  intro heq
  have hzero := Nat.sub_mod_eq_zero_of_mod_eq heq.symm
  rw [Nat.mod_eq_of_lt (by omega)] at hzero
  omega

/-- The ring holds the commands `l`, in the order in which they were pushed. -/
structure Holds (k : Nat) (r : SpscRing α) (l : List α) : Prop where
  head : r.head < 2 ^ k
  length : l.length < 2 ^ k
  tail : r.tail = (r.head + l.length) % 2 ^ k
  slots : ∀ i v, l[i]? = some v → r.buf ((r.head + i) % 2 ^ k) = v

section holds

variable {k : Nat} {r r' : SpscRing α} {l : List α} {v : α}

theorem Holds.empty_iff (h : Holds k r l) : r.head = r.tail ↔ l = [] := by
  rw [h.tail, ← List.length_eq_zero_iff]
  have hh := h.head
  have hl := h.length
  constructor
  · intro heq
    by_cases hlt : r.head + l.length < 2 ^ k
    · rw [Nat.mod_eq_of_lt hlt] at heq
      omega
    · rw [Nat.mod_eq_sub_mod (by omega), Nat.mod_eq_of_lt (by omega)] at heq
      omega
  · intro hnil
    rw [hnil, Nat.add_zero, Nat.mod_eq_of_lt hh]

theorem Holds.tryPop (h : Holds k r l) :
    (l = [] ∧ r.tryPop k = none) ∨
      ∃ v l' r', l = v :: l' ∧ r.tryPop k = some (v, r') ∧ Holds k r' l' := by
  unfold SpscRing.tryPop
  cases l with
  | nil => exact Or.inl ⟨rfl, if_pos (h.empty_iff.mpr rfl)⟩
  | cons v l' =>
    have hne : r.head ≠ r.tail := fun heq => by simpa using h.empty_iff.mp heq
    have hv : r.buf r.head = v := by
      have := h.slots 0 v rfl
      rwa [Nat.add_zero, Nat.mod_eq_of_lt h.head] at this
    refine Or.inr ⟨v, l', _, rfl, by rw [if_neg hne, hv], ?_⟩
    have hlen := h.length
    rw [List.length_cons] at hlen
    refine ⟨?_, by omega, ?_, fun i w hw => ?_⟩
    · rw [Nat.and_two_pow_sub_one_eq_mod]
      exact Nat.mod_lt _ (Nat.two_pow_pos k)
    · simp only [Nat.and_two_pow_sub_one_eq_mod, Nat.mod_add_mod, h.tail, List.length_cons]
      congr 1
      omega
    · simp only [Nat.and_two_pow_sub_one_eq_mod, Nat.mod_add_mod]
      have := h.slots (i + 1) w (by simpa using hw)
      rwa [show r.head + 1 + i = r.head + (i + 1) by omega]

theorem Holds.tryPush (h : Holds k r l) (v : α) :
    r.tryPush k v = none ∨ ∃ r', r.tryPush k v = some r' ∧ Holds k r' (l ++ [v]) := by
  unfold SpscRing.tryPush
  simp only [Nat.and_two_pow_sub_one_eq_mod]
  by_cases hfull : (r.tail + 1) % 2 ^ k = r.head
  · exact Or.inl (if_pos hfull)
  have hnext : (r.tail + 1) % 2 ^ k = (r.head + (l.length + 1)) % 2 ^ k := by
    rw [h.tail, Nat.mod_add_mod, Nat.add_assoc]
  have hlen := h.length
  refine Or.inr ⟨_, if_neg hfull, h.head, ?_, ?_, fun i w hw => ?_⟩
  · -- one slot stays free
    rw [List.length_append, List.length_singleton]
    refine Nat.lt_of_le_of_ne hlen (fun heq => hfull ?_)
    rw [hnext, heq, Nat.add_mod_right, Nat.mod_eq_of_lt h.head]
  · rw [List.length_append, List.length_singleton]
    exact hnext
  · simp only [h.tail]
    by_cases hi : i < l.length
    · rw [List.getElem?_append_left hi] at hw
      rw [Function.update_of_ne (slot_ne r.head hi (by omega))]
      exact h.slots i w hw
    · have hi' : i = l.length := by
        have hbound := (List.getElem?_eq_some_iff.mp hw).1
        rw [List.length_append, List.length_singleton] at hbound
        omega
      subst hi'
      rw [Function.update_self]
      simpa using hw

theorem holds_new (k : Nat) (buf : Nat → α) : Holds k ⟨0, 0, buf⟩ [] :=
  ⟨Nat.two_pow_pos k, Nat.two_pow_pos k, by simp, by simp⟩

end holds

end SpscRing

/-- The queue behind a mutex. -/
structure MpscQueue (α : Type) where
  items : List α := []
  stopped : Bool := false

namespace MpscQueue

variable {α : Type}

def push (q : MpscQueue α) (v : α) : MpscQueue α := { q with items := q.items ++ [v] }

def stop (q : MpscQueue α) : MpscQueue α := { q with stopped := true }

/-- Everything queued so far, without waiting. -/
def drain (q : MpscQueue α) : List α × MpscQueue α := (q.items, { q with items := [] })

/-- Everything queued so far; `none` while the caller has to wait. -/
def waitDrain (q : MpscQueue α) : Option (List α × MpscQueue α) :=
  if q.items ≠ [] ∨ q.stopped then some (q.items, { q with items := [] }) else none

end MpscQueue

/-! ## Section 2: The channel and its two threads -/

structure CommandChannel where
  lockFree : Bool
  mq : MpscQueue Command := {}
  ring : SpscRing Command
  stopped : Bool := false

namespace CommandChannel

/-- The ring has 65536 slots. -/
def ringBits : Nat := 16

def create (lockFree : Bool) : CommandChannel := { lockFree, ring := ⟨0, 0, fun _ => default⟩ }

def setRing (ch : CommandChannel) (ring : SpscRing Command) : CommandChannel :=
  { ch with ring := ring }

def setQueue (ch : CommandChannel) (mq : MpscQueue Command) : CommandChannel := { ch with mq := mq }

def setStopped (ch : CommandChannel) : CommandChannel := { ch with stopped := true }

/-- One attempt to push; `none` when the ring is full. -/
def push (ch : CommandChannel) (c : Command) : Option CommandChannel :=
  if ch.lockFree then (ch.ring.tryPush ringBits c).map ch.setRing
  else some (ch.setQueue (ch.mq.push c))

def stop (ch : CommandChannel) : CommandChannel :=
  if ch.lockFree then ch.setStopped else ch.setQueue ch.mq.stop

end CommandChannel

/-- Where the engine's loop stands: before `try_pop` or `wait_drain`, between an
    empty `try_pop` and `stopped`, inside a batch, or after its return. -/
inductive Phase where
  | polling
  | checking
  | batch (cmds : List Command)
  | returned
  deriving DecidableEq

/-- Both threads. The gateway has the commands `todo` still to push. -/
structure Threads where
  channel : CommandChannel
  todo : List Command
  stopCalled : Bool := false
  phase : Phase := .polling
  processed : List Command := []

inductive Thread where
  | gateway
  | engine
  deriving DecidableEq

namespace Threads

def start (lockFree : Bool) (cmds : List Command) : Threads :=
  { channel := .create lockFree, todo := cmds }

/-- The gateway pushes its commands, one attempt after the other, then stops
    the channel. -/
def gateway (t : Threads) : Option Threads :=
  match t.todo with
  | c :: todo =>
    match t.channel.push c with
    | some channel => some { t with channel := channel, todo := todo }
    | none => some t
  | [] =>
    if t.stopCalled then none
    else some { t with channel := t.channel.stop, stopCalled := true }

/-- `run_loop`. -/
def engine (t : Threads) : Option Threads :=
  match t.phase with
  | .polling =>
    if t.channel.lockFree then
      match t.channel.ring.tryPop CommandChannel.ringBits with
      | some (c, ring) =>
        some { t with channel := t.channel.setRing ring, processed := t.processed ++ [c] }
      | none => some { t with phase := .checking }
    else
      match t.channel.mq.waitDrain with
      | none => none
      | some (cmds, mq) =>
        some { t with
          channel := t.channel.setQueue mq
          phase := if cmds = [] then .returned else .batch cmds }
  | .checking => some { t with phase := if t.channel.stopped then .returned else .polling }
  | .batch [] => some { t with phase := .polling }
  | .batch (c :: cmds) => some { t with phase := .batch cmds, processed := t.processed ++ [c] }
  | .returned => none

def step (t : Threads) : Thread → Option Threads
  | .gateway => t.gateway
  | .engine => t.engine

/-- A schedule, in which every thread that is named can move. -/
def run (t : Threads) (schedule : List Thread) : Option Threads := schedule.foldlM step t

/-- The gateway is about to call `stop` while the engine has seen an empty ring
    that is no longer empty. -/
def Hazard (t : Threads) : Prop :=
  t.todo = [] ∧ t.stopCalled = false ∧ t.phase = .checking ∧
    t.channel.ring.head ≠ t.channel.ring.tail

/-- No `stop` of the schedule is called in such a state. -/
def StopsSafely (t : Threads) (schedule : List Thread) : Prop :=
  ∀ before after u, schedule = before ++ .gateway :: after → t.run before = some u → ¬ u.Hazard

/-- What the gateway can do. -/
theorem gateway_cases {t t' : Threads} (hs : t.gateway = some t') :
    (∃ c todo channel, t.todo = c :: todo ∧ t.channel.push c = some channel ∧
      t' = { t with channel := channel, todo := todo }) ∨
    (t.todo ≠ [] ∧ t' = t) ∨
    (t.todo = [] ∧ t.stopCalled = false ∧
      t' = { t with channel := t.channel.stop, stopCalled := true }) := by
  unfold gateway at hs
  cases htodo : t.todo with
  | nil =>
    rw [htodo] at hs
    cases hc : t.stopCalled with
    | true => simp [hc] at hs
    | false =>
      simp only [hc, Bool.false_eq_true, if_false, Option.some.injEq] at hs
      exact Or.inr (Or.inr ⟨rfl, rfl, hs.symm⟩)
  | cons c todo =>
    rw [htodo] at hs
    cases hp : t.channel.push c with
    | none =>
      simp only [hp, Option.some.injEq] at hs
      exact Or.inr (Or.inl ⟨List.cons_ne_nil c todo, hs.symm⟩)
    | some channel =>
      simp only [hp, Option.some.injEq] at hs
      exact Or.inl ⟨c, todo, channel, rfl, hp, hs.symm⟩

/-! ## Section 3: The mutex queue -/

/-- The commands the engine has taken out and not yet processed. -/
def inBatch : Phase → List Command
  | .batch cmds => cmds
  | _ => []

/-- No command is lost or out of order. -/
structure Queued (cmds : List Command) (t : Threads) : Prop where
  backing : t.channel.lockFree = false
  split : cmds = t.processed ++ inBatch t.phase ++ t.channel.mq.items ++ t.todo
  unchecked : t.phase ≠ .checking
  stopped : t.channel.mq.stopped = t.stopCalled
  last : t.stopCalled = true → t.todo = []
  returned : t.phase = .returned → t.stopCalled = true ∧ t.channel.mq.items = []

section mutex

variable {cmds : List Command} {t t' : Threads}

theorem queued_start (cmds : List Command) : Queued cmds (start false cmds) :=
  ⟨rfl, rfl, by simp [start], rfl, by simp [start], by simp [start]⟩

theorem Queued.gateway (h : Queued cmds t) (hs : t.gateway = some t') : Queued cmds t' := by
  rcases gateway_cases hs with ⟨c, todo, channel, htodo, hpush, rfl⟩ | ⟨-, rfl⟩ |
    ⟨htodo, hgoing, rfl⟩
  · -- there is something left to push, so the channel was not stopped
    have hgoing : t.stopCalled ≠ true := fun hc => by simp [h.last hc] at htodo
    simp only [CommandChannel.push, h.backing, Bool.false_eq_true, if_false,
      Option.some.injEq] at hpush
    subst hpush
    refine ⟨h.backing, ?_, h.unchecked, h.stopped, fun hc => absurd hc hgoing,
      fun hr => absurd (h.returned hr).1 hgoing⟩
    rw [h.split, htodo]
    simp [CommandChannel.setQueue, MpscQueue.push]
  · exact h
  · have hstop : t.channel.stop = t.channel.setQueue t.channel.mq.stop := by
      simp [CommandChannel.stop, h.backing]
    rw [hstop]
    exact ⟨h.backing, h.split, h.unchecked, rfl, fun _ => htodo, fun hr => ⟨rfl, (h.returned hr).2⟩⟩

theorem Queued.engine (h : Queued cmds t) (hs : t.engine = some t') : Queued cmds t' := by
  unfold Threads.engine at hs
  have hsplit := h.split
  cases hp : t.phase with
  | polling =>
    rw [hp] at hsplit
    simp only [hp, h.backing, Bool.false_eq_true, if_false, MpscQueue.waitDrain] at hs
    by_cases hready : t.channel.mq.items ≠ [] ∨ t.channel.mq.stopped
    · rw [if_pos hready, Option.some.injEq] at hs
      subst hs
      by_cases hnil : t.channel.mq.items = []
      · -- woken up with nothing to do: the channel was stopped
        have hstopped : t.stopCalled = true := by simpa [hnil, h.stopped] using hready
        refine ⟨h.backing, ?_, by simp [hnil], h.stopped, h.last, fun _ => ⟨hstopped, rfl⟩⟩
        simpa [hnil, inBatch, CommandChannel.setQueue] using hsplit
      · refine ⟨h.backing, ?_, by simp [hnil], h.stopped, h.last, by simp [hnil]⟩
        simpa [hnil, inBatch, CommandChannel.setQueue] using hsplit
    · rw [if_neg hready] at hs
      cases hs
  | checking => exact absurd hp h.unchecked
  | batch batch =>
    rw [hp] at hsplit
    cases batch with
    | nil =>
      simp only [hp, Option.some.injEq] at hs
      subst hs
      exact ⟨h.backing, hsplit, by simp, h.stopped, h.last, by simp⟩
    | cons c batch =>
      simp only [hp, Option.some.injEq] at hs
      subst hs
      refine ⟨h.backing, ?_, by simp, h.stopped, h.last, by simp⟩
      simpa [inBatch] using hsplit
  | returned =>
    simp only [hp] at hs
    cases hs

/-- **Step lemma.** -/
theorem Queued.step {thread : Thread} (h : Queued cmds t) (hs : t.step thread = some t') :
    Queued cmds t' := by
  cases thread with
  | gateway => exact h.gateway hs
  | engine => exact h.engine hs

end mutex

/-! ## Section 4: The ring -/

/-- What holds in every run over the ring. -/
structure Polled (cmds : List Command) (t : Threads) : Prop where
  backing : t.channel.lockFree = true
  held : ∃ l, t.channel.ring.Holds CommandChannel.ringBits l ∧ cmds = t.processed ++ l ++ t.todo
  unbatched : ∀ batch, t.phase ≠ .batch batch
  stopped : t.channel.stopped = t.stopCalled
  last : t.stopCalled = true → t.todo = []
  returned : t.phase = .returned → t.stopCalled = true

/-- Once the channel is stopped, an engine that has seen an empty ring has seen
    the end. -/
structure Clean (t : Threads) : Prop where
  checking : t.phase = .checking → t.stopCalled = true → t.channel.ring.head = t.channel.ring.tail
  returned : t.phase = .returned → t.channel.ring.head = t.channel.ring.tail

/-- The engine is about to return, and the ring is not empty. -/
structure Lost (t : Threads) : Prop where
  stopCalled : t.stopCalled = true
  phase : t.phase = .checking ∨ t.phase = .returned
  held : t.channel.ring.head ≠ t.channel.ring.tail

section ring

variable {cmds : List Command} {t t' : Threads}

theorem polled_start (cmds : List Command) : Polled cmds (start true cmds) :=
  ⟨rfl, ⟨[], SpscRing.holds_new _ _, rfl⟩, by simp [start], rfl, by simp [start], by simp [start]⟩

theorem clean_start (cmds : List Command) : Clean (start true cmds) :=
  ⟨by simp [start], by simp [start]⟩

/-- While there is something left to push, the channel is not stopped. -/
theorem Polled.going (h : Polled cmds t) {c : Command} {todo : List Command}
    (htodo : t.todo = c :: todo) : t.stopCalled ≠ true :=
  fun hc => by simp [h.last hc] at htodo

theorem Polled.push (h : Polled cmds t) {c : Command} {channel : CommandChannel}
    (hpush : t.channel.push c = some channel) : ∃ ring,
      t.channel.ring.tryPush CommandChannel.ringBits c = some ring ∧
      channel = t.channel.setRing ring := by
  simp only [CommandChannel.push, h.backing, if_true, Option.map_eq_some_iff] at hpush
  obtain ⟨ring, hr, rfl⟩ := hpush
  exact ⟨ring, hr, rfl⟩

theorem Polled.stop (h : Polled cmds t) : t.channel.stop = t.channel.setStopped := by
  simp [CommandChannel.stop, h.backing]

/-- What the engine can do over the ring. -/
theorem Polled.engine_cases (h : Polled cmds t) (hs : t.engine = some t') :
    (∃ c ring, t.phase = .polling ∧ t.channel.ring.tryPop CommandChannel.ringBits = some (c, ring) ∧
      t' = { t with channel := t.channel.setRing ring, processed := t.processed ++ [c] }) ∨
    (t.phase = .polling ∧ t.channel.ring.head = t.channel.ring.tail ∧
      t' = { t with phase := .checking }) ∨
    (t.phase = .checking ∧ t.stopCalled = true ∧ t' = { t with phase := .returned }) ∨
    (t.phase = .checking ∧ t.stopCalled = false ∧ t' = { t with phase := .polling }) := by
  unfold Threads.engine at hs
  cases hp : t.phase with
  | polling =>
    simp only [hp, h.backing, if_true] at hs
    cases hpop : t.channel.ring.tryPop CommandChannel.ringBits with
    | some cr =>
      simp only [hpop, Option.some.injEq] at hs
      exact Or.inl ⟨cr.1, cr.2, rfl, rfl, hs.symm⟩
    | none =>
      simp only [hpop, Option.some.injEq] at hs
      have hempty : t.channel.ring.head = t.channel.ring.tail := by
        by_contra hne
        simp [SpscRing.tryPop, hne] at hpop
      exact Or.inr (Or.inl ⟨rfl, hempty, hs.symm⟩)
  | checking =>
    simp only [hp, h.stopped, Option.some.injEq] at hs
    cases hc : t.stopCalled with
    | true => exact Or.inr (Or.inr (Or.inl ⟨rfl, rfl, by rw [← hs, hc]; rfl⟩))
    | false => exact Or.inr (Or.inr (Or.inr ⟨rfl, rfl, by rw [← hs, hc]; rfl⟩))
  | batch batch => exact absurd hp (h.unbatched batch)
  | returned =>
    simp only [hp] at hs
    cases hs

/-- **Step lemma.** -/
theorem Polled.step {thread : Thread} (h : Polled cmds t) (hs : t.step thread = some t') :
    Polled cmds t' := by
  obtain ⟨l, hl, hsplit⟩ := h.held
  cases thread with
  | gateway =>
    rcases gateway_cases hs with ⟨c, todo, channel, htodo, hpush, rfl⟩ | ⟨-, rfl⟩ |
      ⟨htodo, hgoing, rfl⟩
    · obtain ⟨ring, hring, rfl⟩ := h.push hpush
      have hgoing := h.going htodo
      refine ⟨h.backing, ⟨l ++ [c], ?_, ?_⟩, h.unbatched, h.stopped, fun hc => absurd hc hgoing,
        h.returned⟩
      · rcases hl.tryPush c with hfull | ⟨ring', hring', hl'⟩
        · cases hring.symm.trans hfull
        · cases hring.symm.trans hring'
          exact hl'
      · rw [hsplit, htodo]
        simp
    · exact h
    · rw [h.stop]
      exact ⟨h.backing, ⟨l, hl, hsplit⟩, h.unbatched, rfl, fun _ => htodo, fun _ => rfl⟩
  | engine =>
    rcases h.engine_cases hs with ⟨c, ring, hp, hpop, rfl⟩ | ⟨hp, -, rfl⟩ | ⟨hp, hc,
      rfl⟩ | ⟨hp, -, rfl⟩
    · rcases hl.tryPop with ⟨-, hnone⟩ | ⟨c', l', ring', rfl, hpop', hl'⟩
      · cases hpop.symm.trans hnone
      · cases hpop.symm.trans hpop'
        exact ⟨h.backing, ⟨l', hl', by rw [hsplit]; simp⟩, h.unbatched, h.stopped,
          h.last, h.returned⟩
    · exact ⟨h.backing, ⟨l, hl, hsplit⟩, by simp, h.stopped, h.last, by simp⟩
    · exact ⟨h.backing, ⟨l, hl, hsplit⟩, by simp, h.stopped, h.last, fun _ => hc⟩
    · exact ⟨h.backing, ⟨l, hl, hsplit⟩, by simp, h.stopped, h.last, by simp⟩

/-- **Step lemma.** Only a `stop` in a hazard spoils a clean state. -/
theorem Clean.step {thread : Thread} (h : Clean t) (hi : Polled cmds t)
    (hsafe : thread = .gateway → ¬ t.Hazard) (hs : t.step thread = some t') : Clean t' := by
  cases thread with
  | gateway =>
    rcases gateway_cases hs with ⟨c, todo, channel, htodo, hpush, rfl⟩ | ⟨-, rfl⟩ |
      ⟨htodo, hgoing, rfl⟩
    · have hgoing := hi.going htodo
      exact ⟨fun _ hc => absurd hc hgoing, fun hr => absurd (hi.returned hr) hgoing⟩
    · exact h
    · rw [hi.stop]
      refine ⟨fun hp _ => ?_, fun hr => h.returned hr⟩
      by_contra hne
      exact hsafe rfl ⟨htodo, hgoing, hp, hne⟩
  | engine =>
    rcases hi.engine_cases hs with ⟨c, ring, hp, -, rfl⟩ | ⟨-, hempty, rfl⟩ | ⟨hp, hc,
      rfl⟩ | ⟨-, -, rfl⟩
    · exact ⟨by simp [hp], by simp [hp]⟩
    · exact ⟨fun _ _ => hempty, by simp⟩
    · exact ⟨by simp, fun _ => h.checking hp hc⟩
    · exact ⟨by simp, by simp⟩

/-- **Step lemma.** What is lost stays lost. -/
theorem Lost.step {thread : Thread} (h : Lost t) (hi : Polled cmds t)
    (hs : t.step thread = some t') : Lost t' := by
  cases thread with
  | gateway =>
    have htodo := hi.last h.stopCalled
    simp [Threads.step, Threads.gateway, htodo, h.stopCalled] at hs
  | engine =>
    rcases hi.engine_cases hs with ⟨c, ring, hp, -⟩ | ⟨hp, -⟩ | ⟨hp, hc, rfl⟩ | ⟨-, hc, -⟩
    · rcases h.phase with hp' | hp' <;> cases hp.symm.trans hp'
    · rcases h.phase with hp' | hp' <;> cases hp.symm.trans hp'
    · exact ⟨hc, Or.inr rfl, h.held⟩
    · cases hc.symm.trans h.stopCalled

/-- A `stop` in a hazard loses what is in the ring. -/
theorem Hazard.lost (h : t.Hazard) (hi : Polled cmds t) (hs : t.step .gateway = some t') :
    Lost t' := by
  obtain ⟨htodo, hgoing, hp, hne⟩ := h
  rcases gateway_cases hs with ⟨c, todo, channel, htodo', -⟩ | ⟨htodo', -⟩ | ⟨-, -, rfl⟩
  · cases htodo.symm.trans htodo'
  · exact absurd htodo htodo'
  · rw [hi.stop]
    exact ⟨rfl, Or.inl hp, hne⟩

theorem Polled.run (h : Polled cmds t) (schedule : List Thread) (hr : t.run schedule = some t') :
    Polled cmds t' :=
  Machine.foldlM_induct (fun h hs => h.step hs) schedule h hr

theorem run_append (before after : List Thread) :
    t.run (before ++ after) = (t.run before).bind (fun u => u.run after) :=
  List.foldlM_append

/-- **Run lemma.** A schedule without hazards keeps a clean state clean. -/
theorem Clean.run (h : Clean t) (hi : Polled cmds t) (schedule : List Thread)
    (hsafe : t.StopsSafely schedule) (hr : t.run schedule = some t') : Clean t' := by
  induction schedule using List.reverseRecOn generalizing t' with
  | nil => exact Option.some.inj hr ▸ h
  | append_singleton schedule thread ih =>
    rw [run_append, Option.bind_eq_some_iff] at hr
    obtain ⟨u, hu, hstep⟩ := hr
    have hstep' : u.step thread = some t' := by simpa [Threads.run] using hstep
    have hclean := ih (fun before after w heq hw =>
      hsafe before (after ++ [thread]) w (by simp [heq]) hw) hu
    refine hclean.step (hi.run schedule hu) (fun heq => ?_) hstep'
    exact hsafe schedule [] u (by rw [heq]) hu

/-- **Run lemma.** A hazard on the way leaves commands in the ring. -/
theorem Polled.lost (hi : Polled cmds t) {schedule : List Thread} (hbad : ¬ t.StopsSafely schedule)
    (hr : t.run schedule = some t') : Lost t' := by
  simp only [StopsSafely, not_forall, not_not] at hbad
  obtain ⟨before, after, u, rfl, hu, hhazard⟩ := hbad
  rw [run_append, hu, Option.bind_some] at hr
  have hr' : (u.step .gateway).bind (fun w => w.run after) = some t' := hr
  obtain ⟨w, hw, hafter⟩ := Option.bind_eq_some_iff.mp hr'
  have hiu := hi.run before hu
  exact (Machine.foldlM_induct (P := fun w => Polled cmds w ∧ Lost w)
    (fun h hs => ⟨h.1.step hs, h.2.step h.1 hs⟩) after ⟨hiu.step hw, hhazard.lost hiu hw⟩ hafter).2

/-- When the engine has returned, the commands not processed are those in the
    ring. -/
theorem Polled.processed_iff (h : Polled cmds t) (hret : t.phase = .returned) :
    t.processed = cmds ↔ t.channel.ring.head = t.channel.ring.tail := by
  obtain ⟨l, hl, hsplit⟩ := h.held
  rw [hl.empty_iff, hsplit, h.last (h.returned hret)]
  simp

end ring

/-! ## Section 5: Shutdown -/

/-- **Commands at shutdown.** When the engine's loop returns, the commands pushed
    before `stop` have been processed, each once and in order, unless the channel
    is the ring and `stop` was called in a hazard. -/
theorem commands_processed_iff (lockFree : Bool) (cmds : List Command) (schedule : List Thread)
    (t : Threads) (hrun : (start lockFree cmds).run schedule = some t)
    (hret : t.phase = .returned) :
    t.processed = cmds ↔ (lockFree = true → (start lockFree cmds).StopsSafely schedule) := by
  cases lockFree with
  | false =>
    have hq := Machine.foldlM_induct (fun h hs => h.step hs) schedule (queued_start cmds) hrun
    obtain ⟨hstop, hitems⟩ := hq.returned hret
    have hsplit := hq.split
    rw [hret, hitems, hq.last hstop] at hsplit
    simpa [inBatch] using hsplit.symm
  | true =>
    have hi := (polled_start cmds).run schedule hrun
    rw [hi.processed_iff hret]
    constructor
    · intro hempty _
      by_contra hbad
      exact ((polled_start cmds).lost hbad hrun).held hempty
    · intro hsafe
      exact ((clean_start cmds).run (polled_start cmds) schedule (hsafe rfl) hrun).returned hret

/-- The gateway pushes and stops, then the engine runs. -/
theorem commands_processed_in_turn : ∃ t,
    (start true [default]).run [.gateway, .gateway, .engine, .engine, .engine] = some t ∧
      t.phase = .returned ∧ t.processed = [default] ∧
      (t.processed = [default] ↔ (true = true → (start true [default]).StopsSafely
        [.gateway, .gateway, .engine, .engine, .engine])) :=
  ⟨_, rfl, rfl, rfl, commands_processed_iff true _ _ _ rfl rfl⟩

/-- The engine finds the ring empty, the gateway pushes and stops, and the
    engine returns. -/
theorem command_lost_at_shutdown : ∃ t,
    (start true [default]).run [.engine, .gateway, .gateway, .engine] = some t ∧
      t.phase = .returned ∧ t.processed = [] :=
  ⟨_, rfl, rfl, rfl⟩

end Threads

end MatchingEngine
