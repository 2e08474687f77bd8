import MatchingEngine.Lib.Fairness
import Mathlib.Logic.Function.Basic

/-! # Monitors

    A state behind a mutex, with a condition variable. Any number of threads call
    operations, each of which locks the mutex, writes, unlocks and then notifies.
    One thread takes from the state: at once, when the state is ready, or when it is
    ready or a time is over. The waits are the loops of the C++ library: the state
    is tested under the mutex, before the first wait and after each one, and a wait
    may end for no reason.

    * The calls take effect one after the other, each of them at one moment between
      its begin and its end (`Inv`).
    * No wake-up is lost: while the state is ready and the consumer waits, some
      thread is about to notify (`Inv.awake`). So a wait ends (`wait_returns`).
-/

namespace Monitor

/-- What the threads do with the state. -/
structure Program (σ Op β : Type*) where
  apply : Op → σ → σ
  ready : σ → Bool
  take : σ → β × σ

/-- How the consumer takes. A wait for a time is `late` when its time is over. -/
inductive Mode where
  | now
  | wait
  | waitFor (late : Bool)
  deriving DecidableEq, Repr

/-- Nothing is taken before the state is ready. -/
def Mode.waits : Mode → Bool
  | .now | .waitFor true => false
  | .wait | .waitFor false => true

/-- Where a call of an operation stands. It holds the mutex while it is `holding`
    and when it has `written`. -/
inductive Calling (Op : Type*) where
  | idle
  | locking (op : Op)
  | holding (op : Op)
  | written (op : Op)
  | notifying (op : Op)

/-- Where the consumer stands. It holds the mutex while it is `holding` and when it
    has `taken`. A wait that has ended is `locking` again. -/
inductive Consuming (β : Type*) where
  | idle
  | locking (mode : Mode)
  | holding (mode : Mode)
  | waiting (mode : Mode)
  | taken (b : β)

inductive Thread (ι : Type*) where
  | caller (i : ι)
  | consumer

/-- What a call did to the state. -/
inductive Effect (ι Op β : Type*) where
  | op (i : ι) (op : Op)
  | take (mode : Mode) (b : β)

/-- The state with its mutex and its threads. `begun`, `history` and `returned` are
    ghosts: the calls in the order in which they began, the effects in the order in
    which they happened, and what the consumer was given. -/
structure State (ι σ Op β : Type*) where
  shared : σ
  owner : Option (Thread ι) := none
  callers : ι → Calling Op := fun _ => .idle
  consumer : Consuming β := .idle
  begun : List (ι × Op) := []
  history : List (Effect ι Op β) := []
  returned : List β := []

inductive Move (ι Op : Type*) where
  | begin (i : ι) (op : Op)
  | turn (i : ι)
  | call (mode : Mode)
  | consume
  | spurious
  | timeout

section model

variable {ι σ Op β : Type*} [DecidableEq ι] (P : Program σ Op β)

/-- A consumer that is notified. -/
def Consuming.notified : Consuming β → Consuming β
  | .waiting mode => .locking mode
  | c => c

namespace State

def setCaller (s : State ι σ Op β) (i : ι) (c : Calling Op) : State ι σ Op β :=
  { s with callers := Function.update s.callers i c }

/-- The next access of a caller. -/
def turn (s : State ι σ Op β) (i : ι) : Option (State ι σ Op β) :=
  match s.callers i with
  | .idle => none
  | .locking op => if s.owner =
      none then some { s.setCaller i (.holding op) with owner := some (.caller i) } else none
  | .holding op => some { s.setCaller i (.written op) with
      shared := P.apply op s.shared
      history := s.history ++ [.op i op] }
  | .written op => some { s.setCaller i (.notifying op) with owner := none }
  | .notifying _ => some { s.setCaller i .idle with consumer := s.consumer.notified }

/-- The next access of the consumer. -/
def consume (s : State ι σ Op β) : Option (State ι σ Op β) :=
  match s.consumer with
  | .idle => none
  | .locking mode =>
    if s.owner = none then some { s with owner := some .consumer, consumer := .holding mode }
      else none
  | .holding mode =>
    if mode.waits = false ∨ P.ready s.shared = true then
      some { s with
        shared := (P.take s.shared).2
        consumer := .taken (P.take s.shared).1
        history := s.history ++ [.take mode (P.take s.shared).1] }
    -- the mutex is given back in the same moment
    else some { s with owner := none, consumer := .waiting mode }
  | .waiting _ => none
  | .taken b => some { s with owner := none, consumer := .idle, returned := s.returned ++ [b] }

/-- `none` when the thread is blocked, or not in a state for the move. -/
def step (s : State ι σ Op β) : Move ι Op → Option (State ι σ Op β)
  | .begin i op =>
    match s.callers i with
    | .idle => some { s.setCaller i (.locking op) with begun := s.begun ++ [(i, op)] }
    | _ => none
  | .turn i => s.turn P i
  | .call mode =>
    match s.consumer with
    | .idle => some { s with consumer := .locking mode }
    | _ => none
  | .consume => s.consume P
  | .spurious =>
    match s.consumer with
    | .waiting mode => some { s with consumer := .locking mode }
    | _ => none
  | .timeout =>
    match s.consumer with
    -- what is there is taken, ready or not
    | .waiting (.waitFor false) => some { s with consumer := .locking (.waitFor true) }
    | _ => none

end State

/-- The state after some moves, from a state with idle threads. -/
inductive Reachable (init : σ) : State ι σ Op β → Prop where
  | start : Reachable init { shared := init }
  | step {s s' : State ι σ Op β} (reach : Reachable init s) (m : Move ι Op)
      (stepped : s.step P m = some s') :
    Reachable init s'

/-- What can come of an attempt to move. -/
def attempt (s : State ι σ Op β) (m : Move ι Op) (s' : State ι σ Op β) : Prop :=
  s' = (s.step P m).getD s

end model

/-! ### What a step can do -/

section transitions

variable {ι σ Op β : Type*} [DecidableEq ι] {P : Program σ Op β}

variable (P) in
/-- All transitions, with their conditions. -/
inductive Transition (s : State ι σ Op β) : Move ι Op → State ι σ Op β → Prop where
  | begin {i op} (caller : s.callers i = .idle) :
    Transition s (.begin i op) { s.setCaller i (.locking op) with begun := s.begun ++ [(i, op)] }
  | lock {i op} (caller : s.callers i = .locking op) (free : s.owner = none) :
    Transition s (.turn i) { s.setCaller i (.holding op) with owner := some (.caller i) }
  | write {i op} (caller : s.callers i = .holding op) :
    Transition s (.turn i) { s.setCaller i (.written op) with
      shared := P.apply op s.shared
      history := s.history ++ [.op i op] }
  | unlock {i op} (caller : s.callers i = .written op) :
    Transition s (.turn i) { s.setCaller i (.notifying op) with owner := none }
  | notify {i op} (caller : s.callers i = .notifying op) :
    Transition s (.turn i) { s.setCaller i .idle with consumer := s.consumer.notified }
  | call {mode} (consumer : s.consumer = .idle) :
    Transition s (.call mode) { s with consumer := .locking mode }
  | enter {mode} (consumer : s.consumer = .locking mode) (free : s.owner = none) :
    Transition s .consume { s with owner := some .consumer, consumer := .holding mode }
  | take {mode} (consumer : s.consumer = .holding mode)
    (ready : mode.waits = false ∨ P.ready s.shared = true) :
    Transition s .consume { s with
      shared := (P.take s.shared).2
      consumer := .taken (P.take s.shared).1
      history := s.history ++ [.take mode (P.take s.shared).1] }
  | wait {mode} (consumer : s.consumer = .holding mode) (waits : mode.waits = true)
    (unready : P.ready s.shared = false) :
    Transition s .consume { s with owner := none, consumer := .waiting mode }
  | leave {b} (consumer : s.consumer = .taken b) :
    Transition s .consume { s with owner := none, consumer := .idle, returned := s.returned ++ [b] }
  | spurious {mode} (consumer : s.consumer = .waiting mode) :
    Transition s .spurious { s with consumer := .locking mode }
  | timeout (consumer : s.consumer = .waiting (.waitFor false)) :
    Transition s .timeout { s with consumer := .locking (.waitFor true) }

theorem transition_of_step {s s' : State ι σ Op β} {m : Move ι Op} (h : s.step P m = some s') :
    Transition P s m s' := by
  cases m with
  | begin i op =>
    cases hc : s.callers i with
    | idle =>
      simp only [State.step, hc, Option.some.injEq] at h
      exact h ▸ .begin hc
    | _ => simp [State.step, hc] at h
  | turn i =>
    cases hc : s.callers i with
    | idle => simp [State.step, State.turn, hc] at h
    | locking op =>
      simp only [State.step, State.turn, hc] at h
      split at h
      · rename_i hfree
        cases h
        exact .lock hc hfree
      · cases h
    | holding op =>
      simp only [State.step, State.turn, hc, Option.some.injEq] at h
      exact h ▸ .write hc
    | written op =>
      simp only [State.step, State.turn, hc, Option.some.injEq] at h
      exact h ▸ .unlock hc
    | notifying op =>
      simp only [State.step, State.turn, hc, Option.some.injEq] at h
      exact h ▸ .notify hc
  | call mode =>
    cases hc : s.consumer with
    | idle =>
      simp only [State.step, hc, Option.some.injEq] at h
      exact h ▸ .call hc
    | _ => simp [State.step, hc] at h
  | consume =>
    cases hc : s.consumer with
    | idle => simp [State.step, State.consume, hc] at h
    | locking mode =>
      simp only [State.step, State.consume, hc] at h
      split at h
      · rename_i hfree
        cases h
        exact .enter hc hfree
      · cases h
    | holding mode =>
      simp only [State.step, State.consume, hc] at h
      split at h
      · rename_i hready
        cases h
        exact .take hc hready
      · rename_i hunready
        cases h
        obtain ⟨hwaits, hready⟩ := not_or.mp hunready
        exact .wait hc (Bool.eq_true_of_not_eq_false hwaits) (Bool.eq_false_of_not_eq_true hready)
    | waiting mode => simp [State.step, State.consume, hc] at h
    | taken b =>
      simp only [State.step, State.consume, hc, Option.some.injEq] at h
      exact h ▸ .leave hc
  | spurious =>
    cases hc : s.consumer with
    | waiting mode =>
      simp only [State.step, hc, Option.some.injEq] at h
      exact h ▸ .spurious hc
    | _ => simp [State.step, hc] at h
  | timeout =>
    cases hc : s.consumer with
    | waiting mode =>
      cases mode with
      | waitFor late =>
        cases late with
        | false =>
          simp only [State.step, hc, Option.some.injEq] at h
          exact h ▸ .timeout hc
        | true => simp [State.step, hc] at h
      | _ => simp [State.step, hc] at h
    | _ => simp [State.step, hc] at h

theorem Transition.step_eq {s s' : State ι σ Op β} {m : Move ι Op} (h : Transition P s m s') :
    s.step P m = some s' := by
  cases h <;> simp [State.step, State.turn, State.consume, *]

end transitions

/-! ## The invariant -/

section invariant

variable {ι σ Op β : Type*} [DecidableEq ι] {P : Program σ Op β} {init : σ} {s s' : State ι σ Op β}
  {m : Move ι Op}

namespace Calling

/-- The call holds the mutex. -/
def InSection : Calling Op → Prop
  | .holding _ | .written _ => True
  | _ => False

/-- The operation that has not taken effect. -/
def pending : Calling Op → List Op
  | .locking op | .holding op => [op]
  | _ => []

/-- The operation has taken effect, and the call has not notified. -/
def Notifies : Calling Op → Prop
  | .written _ | .notifying _ => True
  | _ => False

end Calling

namespace Consuming

def InSection : Consuming β → Prop
  | .holding _ | .taken _ => True
  | _ => False

def inHand : Consuming β → List β
  | .taken b => [b]
  | _ => []

end Consuming

/-- The operations of a caller, in the order in which they took effect. -/
def opsOf (i : ι) (history : List (Effect ι Op β)) : List Op :=
  history.filterMap (fun
    | .op j op => if j = i then some op else none
    | .take _ _ => none)

def takesOf (history : List (Effect ι Op β)) : List β :=
  history.filterMap (fun
    | .op _ _ => none
    | .take _ b => some b)

/-- The operations that a caller has begun. -/
def begunBy (i : ι) (begun : List (ι × Op)) : List Op :=
  begun.filterMap (fun b => if b.1 = i then some b.2 else none)

variable (P init) in
/-- The effects one after the other, from `init` to a state. -/
inductive Replays : List (Effect ι Op β) → σ → Prop where
  | nil : Replays [] init
  | op {es x} (before : Replays es x) (i : ι) (op : Op) : Replays (es ++ [.op i op]) (P.apply op x)
  | take {es x mode} (before : Replays es x) (ready : mode.waits = false ∨ P.ready x = true) :
    Replays (es ++ [.take mode (P.take x).1]) (P.take x).2

variable (P init) in
structure Inv (s : State ι σ Op β) : Prop where
  caller : ∀ i, s.owner = some (.caller i) ↔ (s.callers i).InSection
  consumer : s.owner = some .consumer ↔ s.consumer.InSection
  /-- The state is what the effects make of it. -/
  replays : Replays P init s.history s.shared
  /-- Each caller's operations take effect once and in order. -/
  ops : ∀ i, opsOf i s.history ++ (s.callers i).pending = begunBy i s.begun
  takes : takesOf s.history = s.returned ++ s.consumer.inHand
  /-- No wake-up is lost. -/
  awake : ∀ {mode}, s.consumer = .waiting mode → P.ready s.shared = true →
    ∃ i, (s.callers i).Notifies

theorem inv_start : Inv P init ({ shared := init } : State ι σ Op β) where
  caller _ := ⟨nofun, nofun⟩
  consumer := ⟨nofun, nofun⟩
  replays := .nil
  ops _ := rfl
  takes := rfl
  awake := nofun

@[simp] theorem callers_setCaller (s : State ι σ Op β) (i j : ι) (c : Calling Op) :
    (s.setCaller i c).callers j = if j = i then c else s.callers j :=
  Function.update_apply _ _ _ _

/-! ### The mutex -/

/-- One caller moves, and the mutex changes hands only with it. -/
theorem caller_setCaller (h : ∀ i, s.owner = some (.caller i) ↔ (s.callers i).InSection) {i : ι}
    (c : Calling Op) (owner : Option (Thread ι)) (hself : owner = some (.caller i) ↔ c.InSection)
    (hothers : ∀ j ≠ i, owner = some (.caller j) ↔ s.owner = some (.caller j)) (j : ι) :
    owner = some (.caller j) ↔ ((s.setCaller i c).callers j).InSection := by
  rw [callers_setCaller]
  split
  · rename_i hj
    rw [hj]
    exact hself
  · rename_i hj
    rw [hothers j hj]
    exact h j

theorem Inv.owner_eq (h : Inv P init s) {i : ι} (hi : (s.callers i).InSection) :
    s.owner = some (.caller i) :=
  (h.caller i).mpr hi

/-- A mutex that is not a caller's is in no caller's hands, before and after. -/
theorem Inv.caller_of_ne (h : Inv P init s) (owner : Option (Thread ι))
    (hbefore : ∀ i, s.owner ≠ some (.caller i)) (hafter : ∀ i, owner ≠ some (.caller i)) (i : ι) :
    owner = some (.caller i) ↔ (s.callers i).InSection :=
  ⟨fun ho => absurd ho (hafter i), fun hi => absurd (h.owner_eq hi) (hbefore i)⟩

theorem inSection_notified (c : Consuming β) : c.notified.InSection ↔ c.InSection := by
  cases c <;> rfl

theorem Inv.caller_step (h : Inv P init s) (ht : Transition P s m s') (i : ι) :
    s'.owner = some (.caller i) ↔ (s'.callers i).InSection := by
  cases ht with
  | @begin j op hc =>
    exact caller_setCaller h.caller (.locking op) s.owner (by rw [h.caller, hc]; rfl)
      (fun _ _ => Iff.rfl) i
  | @lock j op hc hfree =>
    refine caller_setCaller h.caller (.holding op) (some (.caller j))
      ⟨fun _ => trivial, fun _ => rfl⟩ (fun k hk => ?_) i
    rw [hfree]
    exact ⟨fun ho => absurd (Thread.caller.inj (Option.some.inj ho)).symm hk, nofun⟩
  | @write j op hc =>
    exact caller_setCaller h.caller (.written op) s.owner (by rw [h.caller, hc]; rfl)
      (fun _ _ => Iff.rfl) i
  | @unlock j op hc =>
    have ho := h.owner_eq (i := j) (by rw [hc]; trivial)
    refine caller_setCaller h.caller (.notifying op) none ⟨nofun, nofun⟩ (fun k hk => ?_) i
    rw [ho]
    exact ⟨nofun, fun heq => absurd (Thread.caller.inj (Option.some.inj heq)).symm hk⟩
  | notify hc =>
    exact caller_setCaller h.caller .idle s.owner (by rw [h.caller, hc]; rfl) (fun _ _ => Iff.rfl) i
  | enter hc hfree => exact h.caller_of_ne (some .consumer) (by rw [hfree]; nofun) nofun i
  | wait hc | leave hc =>
    have ho := h.consumer.mpr (by rw [hc]; trivial)
    exact h.caller_of_ne none (by rw [ho]; nofun) nofun i
  | call | take | spurious | timeout => exact h.caller i

theorem Inv.consumer_step (h : Inv P init s) (ht : Transition P s m s') :
    s'.owner = some .consumer ↔ s'.consumer.InSection := by
  cases ht with
  | begin | write => exact h.consumer
  | lock hc hfree =>
    refine ⟨nofun, fun hin => ?_⟩
    cases hfree.symm.trans (h.consumer.mpr hin)
  | unlock hc =>
    refine ⟨nofun, fun hin => ?_⟩
    cases (h.owner_eq (by rw [hc]; trivial)).symm.trans (h.consumer.mpr hin)
  | notify => exact h.consumer.trans (inSection_notified s.consumer).symm
  | enter => exact ⟨fun _ => trivial, fun _ => rfl⟩
  | wait | leave => exact ⟨nofun, nofun⟩
  | call hc | take hc | spurious hc | timeout hc =>
    rw [h.consumer, hc]
    rfl

/-! ### The effects -/

theorem opsOf_append (i : ι) (es es' : List (Effect ι Op β)) :
    opsOf i (es ++ es') = opsOf i es ++ opsOf i es' :=
  List.filterMap_append

omit [DecidableEq ι] in
theorem takesOf_append (es es' : List (Effect ι Op β)) :
    takesOf (es ++ es') = takesOf es ++ takesOf es' :=
  List.filterMap_append

/-- One caller moves, and its operations move on. -/
theorem ops_setCaller (h : ∀ i, opsOf i s.history ++ (s.callers i).pending = begunBy i s.begun)
    {i : ι} (c : Calling Op) {history : List (Effect ι Op β)} {begun : List (ι × Op)}
    (hself : opsOf i history ++ c.pending = begunBy i begun)
    (hhistory : ∀ j ≠ i, opsOf j history = opsOf j s.history)
    (hbegun : ∀ j ≠ i, begunBy j begun = begunBy j s.begun) (j : ι) :
    opsOf j history ++ ((s.setCaller i c).callers j).pending = begunBy j begun := by
  rw [callers_setCaller]
  split
  · rename_i hj
    rw [hj]
    exact hself
  · rename_i hj
    rw [hhistory j hj, hbegun j hj]
    exact h j

theorem Inv.ops_eq (h : Inv P init s) {i : ι} {c : Calling Op} (hc : s.callers i = c) :
    opsOf i s.history ++ c.pending = begunBy i s.begun :=
  hc ▸ h.ops i

theorem Inv.ops_step (h : Inv P init s) (ht : Transition P s m s') (i : ι) :
    opsOf i s'.history ++ (s'.callers i).pending = begunBy i s'.begun := by
  cases ht with
  | @begin j op hc =>
    refine ops_setCaller h.ops (.locking op) ?_ (fun _ _ => rfl) (fun k hk => ?_) i
    · rw [begunBy, List.filterMap_append, ← begunBy, ← h.ops_eq hc]
      simp [Calling.pending]
    · rw [begunBy, List.filterMap_append]
      simp [begunBy, Ne.symm hk]
  | @write j op hc =>
    refine ops_setCaller h.ops (.written op) ?_ (fun k hk => ?_) (fun _ _ => rfl) i
    · rw [opsOf_append, ← h.ops_eq hc]
      simp [opsOf, Calling.pending]
    · rw [opsOf_append]
      simp [opsOf, Ne.symm hk]
  | @lock j op hc =>
    have hj := h.ops_eq hc
    exact ops_setCaller h.ops (.holding op) hj (fun _ _ => rfl) (fun _ _ => rfl) i
  | @unlock j op hc =>
    have hj := h.ops_eq hc
    exact ops_setCaller h.ops (.notifying op) hj (fun _ _ => rfl) (fun _ _ => rfl) i
  | @notify j op hc =>
    have hj := h.ops_eq hc
    exact ops_setCaller h.ops .idle hj (fun _ _ => rfl) (fun _ _ => rfl) i
  | take =>
    rw [← h.ops i, opsOf_append]
    simp [opsOf]
  | call | enter | wait | leave | spurious | timeout => exact h.ops i

theorem Inv.replays_step (h : Inv P init s) (ht : Transition P s m s') :
    Replays P init s'.history s'.shared := by
  cases ht with
  | write => exact h.replays.op _ _
  | take hc hready => exact h.replays.take hready
  | _ => exact h.replays

theorem inHand_notified (c : Consuming β) : c.notified.inHand = c.inHand := by
  cases c <;> rfl

theorem Inv.takes_step (h : Inv P init s) (ht : Transition P s m s') :
    takesOf s'.history = s'.returned ++ s'.consumer.inHand := by
  have htakes := h.takes
  cases ht with
  | begin | lock | unlock => exact htakes
  | write =>
    rw [takesOf_append, htakes]
    exact List.append_nil _
  | notify => exact htakes.trans (congrArg (s.returned ++ ·) (inHand_notified s.consumer).symm)
  | take hc =>
    rw [hc] at htakes
    rw [takesOf_append, htakes]
    simp [takesOf, Consuming.inHand]
  | leave hc =>
    rw [hc] at htakes
    rw [htakes]
    simp [Consuming.inHand]
  | call hc | enter hc | wait hc | spurious hc | timeout hc =>
    rw [hc] at htakes
    exact htakes

/-! ### Wake-ups -/

/-- A caller that has not notified still has to when others move. -/
theorem notifies_setCaller {i j : ι} {c : Calling Op} (hj : (s.callers j).Notifies)
    (hc : (s.callers i).Notifies → c.Notifies) : ((s.setCaller i c).callers j).Notifies := by
  rw [callers_setCaller]
  split
  · rename_i hji
    exact hc (hji ▸ hj)
  · exact hj

theorem Inv.awake_step (h : Inv P init s) (ht : Transition P s m s') {mode : Mode}
    (hwait : s'.consumer = .waiting mode) (hready : P.ready s'.shared = true) :
    ∃ i, (s'.callers i).Notifies := by
  cases ht with
  | begin hc | lock hc =>
    obtain ⟨j, hj⟩ := h.awake hwait hready
    exact ⟨j, notifies_setCaller hj (by rw [hc]; exact id)⟩
  | @write i op hc => exact ⟨i, by simp [Calling.Notifies]⟩
  | unlock hc =>
    obtain ⟨j, hj⟩ := h.awake hwait hready
    exact ⟨j, notifies_setCaller hj (fun _ => trivial)⟩
  | notify =>
    -- it waits no longer
    have hnotified : s.consumer.notified = .waiting mode := hwait
    cases hc : s.consumer <;> simp [hc, Consuming.notified] at hnotified
  | wait hc hmode hunready => cases hunready.symm.trans hready
  | call | enter | take | leave | spurious | timeout => cases hwait

/-- **Step lemma.** -/
theorem Inv.step (h : Inv P init s) (hstep : s.step P m = some s') : Inv P init s' :=
  have ht := transition_of_step hstep
  { caller := h.caller_step ht
    consumer := h.consumer_step ht
    replays := h.replays_step ht
    ops := h.ops_step ht
    takes := h.takes_step ht
    awake := h.awake_step ht }

/-- **Run lemma.** -/
theorem Reachable.inv (h : Reachable P init s) : Inv P init s := by
  induction h with
  | start => exact inv_start
  | step _ _ stepped ih => exact ih.step stepped

end invariant

/-! ## Waits end -/

section liveness

variable {ι σ Op β : Type*} [DecidableEq ι] {P : Program σ Op β} {init : σ} {s s' : State ι σ Op β}
  {m : Move ι Op}

theorem attempt_cases (h : attempt P s m s') : s' = s ∨ s.step P m = some s' := by
  unfold attempt at h
  cases hstep : s.step P m with
  | none => exact .inl (by rw [h, hstep]; rfl)
  | some t => exact .inr (by rw [h, hstep]; rfl)

theorem Transition.attempt_eq {t : State ι σ Op β} (ht : Transition P s m t)
    (h : attempt P s m s') : s' = t := by
  rw [h, ht.step_eq]
  rfl

variable (P init) in
/-- The consumer has been given `rs` so far, and stands where `C` says. -/
structure Stage (C : Consuming β → σ → Prop) (rs : List β) (s : State ι σ Op β) : Prop where
  inv : Inv P init s
  returned : s.returned = rs
  stands : C s.consumer s.shared

variable (P) in
/-- The state is ready for a consumer that is in such a place. -/
def Due (Place : Mode → Consuming β) (c : Consuming β) (x : σ) : Prop :=
  (∃ mode, c = Place mode) ∧ P.ready x = true

/-- What was taken is what should be. -/
def Took (Good : β → σ → Prop) (c : Consuming β) (x : σ) : Prop := ∃ b, c = .taken b ∧ Good b x

/-- The consumer holds the mutex, so that nothing else changes the state. -/
theorem Inv.shared_eq (h : Inv P init s) (ht : Transition P s m s') (hin : s.consumer.InSection)
    (hm : m ≠ .consume) : s'.shared = s.shared ∧ s'.consumer = s.consumer ∧
      s'.returned = s.returned := by
  have ho := h.consumer.mpr hin
  cases ht with
  | write hc => cases ho.symm.trans (h.owner_eq (by rw [hc]; trivial))
  | begin | lock | unlock => exact ⟨rfl, rfl, rfl⟩
  | notify =>
    refine ⟨rfl, ?_, rfl⟩
    show s.consumer.notified = s.consumer
    cases hc : s.consumer with
    | waiting => simp [hc, Consuming.InSection] at hin
    | _ => rfl
  | call hc | spurious hc | timeout hc => simp [hc, Consuming.InSection] at hin
  | enter | take | wait | leave => exact absurd rfl hm

variable {r : Fairness.Run (attempt (ι := ι) P)} {rs : List β}

/-- A consumer that holds the mutex goes on when it is its turn. -/
theorem leadsTo_in_section (hconsume : r.Often (· = .consume)) {C : Consuming β → σ → Prop}
    (hin : ∀ {c x}, C c x → c.InSection) {Q : State ι σ Op β → Prop}
    (hnext : ∀ {s : State ι σ Op β}, Stage P init C rs s →
      ∃ s', s.step P .consume = some s' ∧ Q s') :
    r.LeadsTo (Stage P init C rs) Q := by
  apply r.leadsTo_of_step hconsume.oftenIn
  · intro s m s' h _ hattempt
    rcases attempt_cases hattempt with rfl | hstep
    · exact .inr h
    · by_cases hm : m = .consume
      · subst hm
        obtain ⟨t, ht, hQ⟩ := hnext h
        cases ht.symm.trans hstep
        exact .inl hQ
      · obtain ⟨hshared, hsame, hreturned⟩ :=
          h.inv.shared_eq (transition_of_step hstep) (hin h.stands) hm
        refine .inr ⟨h.inv.step hstep, hreturned.trans h.returned, ?_⟩
        rw [hsame, hshared]
        exact h.stands
  · rintro s _ s' h _ rfl hattempt
    obtain ⟨t, ht, hQ⟩ := hnext h
    rw [attempt, ht] at hattempt
    rwa [hattempt]

theorem leadsTo_returned (hconsume : r.Often (· = .consume)) {Good : β → σ → Prop} :
    r.LeadsTo (Stage P init (Took Good) rs) (fun s => ∃ b, s.returned = rs ++ [b] ∧
      Good b s.shared) := by
  apply leadsTo_in_section hconsume
  · rintro c x ⟨b, rfl, -⟩
    trivial
  · intro s h
    obtain ⟨b, hb, hgood⟩ := h.stands
    exact ⟨_, (Transition.leave hb).step_eq, b, by rw [← h.returned], hgood⟩

theorem leadsTo_taken (hconsume : r.Often (· = .consume)) {Good : β → σ → Prop}
    (hgood : ∀ x, P.ready x = true → Good (P.take x).1 (P.take x).2) :
    r.LeadsTo (Stage P init (Due P .holding) rs) (Stage P init (Took Good) rs) := by
  apply leadsTo_in_section hconsume
  · rintro c x ⟨⟨mode, rfl⟩, -⟩
    trivial
  · intro s h
    obtain ⟨⟨mode, hmode⟩, hready⟩ := h.stands
    have hstep := (Transition.take hmode (.inr hready)).step_eq
    exact ⟨_, hstep, h.inv.step hstep, h.returned, _, rfl, hgood _ hready⟩

/-- The accesses that a caller makes until it has notified. -/
def Calling.rank : Calling Op → Nat
  | .written _ => 2
  | .notifying _ => 1
  | _ => 0

theorem rank_setCaller {i j : ι} {c : Calling Op} (hi : (s.callers i).Notifies)
    (hc : (s.callers j).Notifies → c.Notifies ∧ c.rank ≤ (s.callers j).rank) :
    ((s.setCaller j c).callers i).Notifies ∧ ((s.setCaller j c).callers i).rank ≤
      (s.callers i).rank := by
  rw [callers_setCaller]
  split
  · rename_i hij
    subst hij
    exact hc hi
  · exact ⟨hi, Nat.le_refl _⟩

section

variable (hmono : ∀ op x, P.ready x = true → P.ready (P.apply op x) = true)

include hmono

/-- Callers do not keep a consumer from the mutex for ever. -/
theorem leadsTo_holding (hconsume : r.OftenIn (fun s m => m = .consume ∧ s.owner = none)) :
    r.LeadsTo (Stage P init (Due P .locking) rs) (Stage P init (Due P .holding) rs) := by
  apply r.leadsTo_of_step hconsume
  · intro s m s' h _ hattempt
    rcases attempt_cases hattempt with rfl | hstep
    · exact .inr h
    · have hinv := h.inv.step hstep
      obtain ⟨⟨mode, hmode⟩, hready⟩ := h.stands
      cases transition_of_step hstep with
      | begin | lock | unlock => exact .inr ⟨hinv, h.returned, h.stands⟩
      | write => exact .inr ⟨hinv, h.returned, ⟨mode, hmode⟩, hmono _ _ hready⟩
      | notify =>
        have hsame : s.consumer.notified = .locking mode := by rw [hmode]; rfl
        exact .inr ⟨hinv, h.returned, ⟨mode, hsame⟩, hready⟩
      | enter => exact .inl ⟨hinv, h.returned, ⟨_, rfl⟩, hready⟩
      | call hc | take hc | wait hc | leave hc | spurious hc | timeout hc =>
          cases hmode.symm.trans hc
  · rintro s _ s' h _ ⟨rfl, hfree⟩ hattempt
    obtain ⟨⟨mode, hmode⟩, hready⟩ := h.stands
    have henter := Transition.enter (P := P) hmode hfree
    rw [henter.attempt_eq hattempt]
    exact ⟨h.inv.step henter.step_eq, h.returned, ⟨mode, rfl⟩, hready⟩

/-- A wait ends when a caller that has to notify goes on. -/
theorem leadsTo_locking {i : ι} (hturn : r.Often (· = .turn i)) :
    r.LeadsTo (fun s => Stage P init (Due P .waiting) rs s ∧ (s.callers i).Notifies)
      (Stage P init (Due P .locking) rs) := by
  apply r.leadsTo_of_measure (fun s => (s.callers i).rank) hturn.oftenIn
  · rintro s m s' ⟨h, hi⟩ _ hattempt
    rcases attempt_cases hattempt with rfl | hstep
    · exact .inr ⟨⟨h, hi⟩, Nat.le_refl _⟩
    · have hinv := h.inv.step hstep
      obtain ⟨⟨mode, hmode⟩, hready⟩ := h.stands
      cases transition_of_step hstep with
      | begin hc | lock hc =>
        obtain ⟨hi', hle⟩ := rank_setCaller hi (by rw [hc]; exact False.elim)
        exact .inr ⟨⟨⟨hinv, h.returned, h.stands⟩, hi'⟩, hle⟩
      | write hc =>
        obtain ⟨hi', hle⟩ := rank_setCaller hi (by rw [hc]; exact False.elim)
        exact .inr ⟨⟨⟨hinv, h.returned, ⟨mode, hmode⟩, hmono _ _ hready⟩, hi'⟩, hle⟩
      | unlock hc =>
        obtain ⟨hi', hle⟩ := rank_setCaller (c := .notifying _) hi
          (fun _ => ⟨trivial, by rw [hc]; exact Nat.le_succ 1⟩)
        exact .inr ⟨⟨⟨hinv, h.returned, h.stands⟩, hi'⟩, hle⟩
      | notify =>
        have hwoken : s.consumer.notified = .locking mode := by rw [hmode]; rfl
        exact .inl ⟨hinv, h.returned, ⟨mode, hwoken⟩, hready⟩
      | spurious | timeout => exact .inl ⟨hinv, h.returned, ⟨_, rfl⟩, hready⟩
      | call hc | enter hc | take hc | wait hc | leave hc => cases hmode.symm.trans hc
  · -- the caller unlocks and then notifies, and neither can be refused
    rintro s _ s' ⟨h, hi⟩ _ rfl hattempt
    obtain ⟨⟨mode, hmode⟩, hready⟩ := h.stands
    cases hc : s.callers i with
    | written op =>
      have hunlock := Transition.unlock (P := P) hc
      rw [hunlock.attempt_eq hattempt]
      refine .inr ⟨⟨⟨h.inv.step hunlock.step_eq, h.returned, h.stands⟩, ?_⟩, ?_⟩
      · simp [Calling.Notifies]
      · simp [Calling.rank]
    | notifying op =>
      have hnotify := Transition.notify (P := P) hc
      have hwoken : s.consumer.notified = .locking mode := by rw [hmode]; rfl
      rw [hnotify.attempt_eq hattempt]
      exact .inl ⟨h.inv.step hnotify.step_eq, h.returned, ⟨mode, hwoken⟩, hready⟩
    | idle | locking | holding =>
      rw [hc] at hi
      exact hi.elim

/-- The consumer is in a call, and has not taken anything yet. -/
def Consuming.Asks : Consuming β → Prop
  | .locking _ | .holding _ | .waiting _ => True
  | .idle | .taken _ => False

/-- **Waits end.** Every caller gets its turn again and again, and so does the
    consumer at times when the mutex is free. Then a call of the consumer returns
    once the state is ready. -/
theorem wait_returns (hstart : Inv P init (r.state 0)) (hturn : ∀ i, r.Often (· = .turn i))
    (hconsume : r.OftenIn (fun s m => m = .consume ∧ s.owner = none)) (Good : β → σ → Prop)
    (hgood : ∀ x, P.ready x = true → Good (P.take x).1 (P.take x).2) {n : Nat}
    (hasks : (r.state n).consumer.Asks) (hready : P.ready (r.state n).shared = true) :
    ∃ k, n ≤ k ∧ ∃ b, (r.state k).returned = (r.state n).returned ++ [b] ∧
      Good b (r.state k).shared := by
  have hinv : ∀ n, Inv P init (r.state n) := by
    intro n
    induction n with
    | zero => exact hstart
    | succ n ih =>
      rcases attempt_cases (r.next n) with heq | hstep
      · rw [heq]
        exact ih
      · exact ih.step hstep
  have hoften : r.Often (· = .consume) := fun n =>
    let ⟨k, hk, hm, _⟩ := hconsume n
    ⟨k, hk, hm⟩
  have hend : r.LeadsTo (Stage P init (Due P .holding) (r.state n).returned) _ :=
    (leadsTo_taken hoften hgood).trans (leadsTo_returned hoften)
  have hlock := (leadsTo_holding hmono hconsume).trans hend
  cases hc : (r.state n).consumer with
  | idle | taken =>
    rw [hc] at hasks
    exact hasks.elim
  | locking mode => exact hlock n ⟨hinv n, rfl, ⟨mode, hc⟩, hready⟩
  | holding mode => exact hend n ⟨hinv n, rfl, ⟨mode, hc⟩, hready⟩
  | waiting mode =>
    -- the wake-up was not lost
    obtain ⟨i, hi⟩ := (hinv n).awake hc hready
    exact ((leadsTo_locking hmono (hturn i)).trans hlock) n ⟨⟨hinv n, rfl, ⟨mode, hc⟩, hready⟩, hi⟩

end

end liveness

end Monitor
