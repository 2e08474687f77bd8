import MatchingEngine.Engine.Channel
import MatchingEngine.Feed.Publisher

/-! # The feed at shutdown

    `FeedPublisher::run` next to the thread that feeds it. The producer pushes its
    market events one by one and then calls `stop`. The publisher waits for
    events with a time limit, so that a drain may come back empty at any time; it
    then asks whether the queue was stopped, in a second access. Events may be
    pushed, and `stop` may be called, between the two.

    The publisher therefore drains the queue once more when it leaves its loop.
    Whatever the interleaving, it has then made the drains of some
    `Publisher.run`, which together are the events that were pushed
    (`Flowing`). And it does leave its loop once the queue is stopped (`rank`).
-/

namespace MatchingEngine

namespace Feed

open Mold

/-! ## Section 1: The two threads -/

/-- Where `run` stands: before `wait_drain_for`, with what it returned, after the
    loop, with what the last drain returned, or at its end. -/
inductive Stage where
  | waiting
  | drained (evs : List MarketEvent)
  | leaving
  | closing (evs : List MarketEvent)
  | returned

/-- Both threads. The producer has the events `todo` still to push. -/
structure Threads where
  queue : MpscQueue MarketEvent := {}
  todo : List MarketEvent
  stopCalled : Bool := false
  publisher : Publisher
  stage : Stage := .waiting

inductive Thread where
  | producer
  | publisher
  deriving DecidableEq

namespace Threads

def start (session : Session) (mtu : Nat) (evs : List MarketEvent) : Threads :=
  { todo := evs, publisher := { packetizer := { session, mtu } } }

/-- The next `push`, or `stop` when there is nothing left to push. -/
def produce (t : Threads) : Threads :=
  match t.todo with
  | ev :: todo => { t with queue := t.queue.push ev, todo := todo }
  | [] => { t with queue := t.queue.stop, stopCalled := true }

/-- The next access of `run`. There is no result when an event cannot be
    encoded. -/
def publish (t : Threads) : Option Threads :=
  match t.stage with
  | .waiting =>
    -- `wait_drain_for` comes back with what there is: something, or nothing
    -- because of the time limit or because the queue was stopped
    let (evs, queue) := t.queue.drain
    some { t with queue := queue, stage := .drained evs }
  | .drained [] =>
    if t.queue.stopped then some { t with stage := .leaving }
    else some { t with
      publisher := t.publisher.sendDatagram t.publisher.packetizer.heartbeat
      stage := .waiting }
  | .drained (ev :: evs) =>
    (t.publisher.publish (ev :: evs)).map (fun p => { t with publisher := p, stage := .waiting })
  | .leaving =>
    let (evs, queue) := t.queue.drain
    some { t with queue := queue, stage := .closing evs }
  | .closing evs =>
    (t.publisher.publish evs).map (fun p => { t with
      publisher := p.sendDatagram p.packetizer.endOfSession
      stage := .returned })
  | .returned => some t

def step (t : Threads) : Thread → Option Threads
  | .producer => some t.produce
  | .publisher => t.publish

def run (t : Threads) (schedule : List Thread) : Option Threads := schedule.foldlM step t

end Threads

/-! ## Section 2: Nothing is lost -/

/-- What the publisher has taken out and not yet published. -/
def Stage.inHand : Stage → List MarketEvent
  | .drained evs => evs
  | .closing evs => evs
  | _ => []

/-- The publisher has left its loop. -/
def Stage.Left : Stage → Prop
  | .leaving => True
  | .closing _ => True
  | .returned => True
  | _ => False

/-- The last drain was made. -/
def Stage.Emptied : Stage → Prop
  | .closing _ => True
  | .returned => True
  | _ => False

/-- The publisher after the drains of its loop, or at its end. -/
def Stage.Published (session : Session) (mtu : Nat) (drains : List (List MarketEvent))
    (p : Publisher) : Stage → Prop
  | .returned => ∃ before last, drains = before ++ [last] ∧
      Publisher.run session mtu before last = some p
  | _ => drains.foldlM Publisher.turn { packetizer := { session, mtu } } = some p

/-- Every event is in one place: published, in the hand of the publisher, in the
    queue, or still to be pushed. -/
structure Flowing (session : Session) (mtu : Nat) (evs : List MarketEvent)
    (drains : List (List MarketEvent)) (t : Threads) : Prop where
  published : t.stage.Published session mtu drains t.publisher
  split : evs = drains.flatten ++ t.stage.inHand ++ t.queue.items ++ t.todo
  stopped : t.queue.stopped = t.stopCalled
  last : t.stopCalled = true → t.todo = []
  left : t.stage.Left → t.stopCalled = true
  emptied : t.stage.Emptied → t.queue.items = []

section flowing

variable {session : Session} {mtu : Nat} {evs : List MarketEvent} {drains : List (List MarketEvent)}
  {t : Threads}

theorem flowing_start (session : Session) (mtu : Nat) (evs : List MarketEvent) :
    Flowing session mtu evs [] (Threads.start session mtu evs) where
  published := rfl
  split := rfl
  stopped := rfl
  last h := by cases h
  left h := False.elim h
  emptied h := False.elim h

theorem Stage.left_of_emptied {stage : Stage} (h : stage.Emptied) : stage.Left := by
  cases stage with
  | closing l => trivial
  | returned => trivial
  | _ => exact h.elim

theorem Flowing.produce (h : Flowing session mtu evs drains t) :
    Flowing session mtu evs drains t.produce := by
  unfold Threads.produce
  cases htodo : t.todo with
  | nil =>
    refine ⟨h.published, ?_, rfl, fun _ => rfl, fun _ => rfl, h.emptied⟩
    rw [h.split, htodo]
    rfl
  | cons ev todo =>
    -- something was left to push, so `stop` was not called
    have hgoing : t.stopCalled ≠ true := by
      intro hcalled
      rw [h.last hcalled] at htodo
      cases htodo
    refine ⟨h.published, ?_, h.stopped, fun hcalled => absurd hcalled hgoing, h.left, ?_⟩
    · rw [h.split, htodo]
      simp [MpscQueue.push]
    · intro hemptied
      exact absurd (h.left (Stage.left_of_emptied hemptied)) hgoing

/-- One more turn of the loop. -/
theorem turns_snoc (session : Session) (mtu : Nat) {p : Publisher}
    (h : drains.foldlM Publisher.turn { packetizer := { session, mtu } } = some p)
    (drain : List MarketEvent) : ∃ q, p.turn drain = some q ∧
      (drains ++ [drain]).foldlM Publisher.turn { packetizer := { session, mtu } } = some q := by
  obtain ⟨q, fs, hq, -⟩ := (labelled_new session mtu).turns (drains ++ [drain])
  refine ⟨q, ?_, hq⟩
  rw [List.foldlM_append, h] at hq
  simpa using hq

theorem Flowing.publish (h : Flowing session mtu evs drains t) :
    ∃ t' drains', t.publish = some t' ∧ Flowing session mtu evs drains' t' := by
  have hpub := h.published
  have hsplit := h.split
  unfold Threads.publish
  cases hstage : t.stage with
  | waiting =>
    rw [hstage] at hpub hsplit
    -- what was in the queue is in hand
    refine ⟨_, drains, rfl, hpub, ?_, h.stopped, h.last, fun hl => hl.elim, fun he => he.elim⟩
    simpa [Stage.inHand, MpscQueue.drain] using hsplit
  | drained batch =>
    rw [hstage] at hpub hsplit
    cases batch with
    | nil =>
      dsimp only
      by_cases hstop : t.queue.stopped = true
      · -- nothing more is pushed, but something may have been pushed since the drain
        rw [if_pos hstop]
        exact ⟨_, drains, rfl, hpub, hsplit, h.stopped, h.last, fun _ => h.stopped ▸ hstop,
          fun he => he.elim⟩
      · rw [if_neg hstop]
        obtain ⟨q, hq, hturns⟩ := turns_snoc session mtu hpub []
        cases hq
        refine ⟨_, drains ++ [[]], rfl, hturns, ?_, h.stopped, h.last, fun hl => hl.elim,
          fun he => he.elim⟩
        simpa [Stage.inHand] using hsplit
    | cons ev batch =>
      obtain ⟨q, hq, hturns⟩ := turns_snoc session mtu hpub (ev :: batch)
      have hpublish : t.publisher.publish (ev :: batch) = some q := hq
      dsimp only
      rw [hpublish]
      refine ⟨_, drains ++ [ev :: batch], rfl, hturns, ?_, h.stopped, h.last, fun hl => hl.elim,
        fun he => he.elim⟩
      simpa [Stage.inHand] using hsplit
  | leaving =>
    rw [hstage] at hpub hsplit
    -- the last drain, behind which nothing is pushed
    refine ⟨_, drains, rfl, hpub, ?_, h.stopped, h.last, fun _ => h.left (by rw [hstage]; trivial),
      fun _ => rfl⟩
    simpa [Stage.inHand, MpscQueue.drain] using hsplit
  | closing last =>
    rw [hstage] at hpub hsplit
    -- the drains of the loop and the last one are those of a whole run
    obtain ⟨p, fs, hrun, -⟩ := run_spec session mtu drains last
    obtain ⟨q, hq, hp⟩ : ∃ q, t.publisher.publish last = some q ∧
        q.sendDatagram q.packetizer.endOfSession = p := by
      have hpub' : drains.foldlM Publisher.turn { packetizer := { session, mtu } } =
        some t.publisher := hpub
      rw [Publisher.run, hpub', Option.bind_eq_bind, Option.bind_some] at hrun
      obtain ⟨q, hq, hp⟩ := Option.bind_eq_some_iff.mp hrun
      exact ⟨q, hq, Option.some.inj hp⟩
    dsimp only
    rw [hq]
    refine ⟨_, drains ++ [last], rfl, ⟨drains, last, rfl, ?_⟩, ?_, h.stopped, h.last,
      fun _ => h.left (by rw [hstage]; trivial), fun _ => h.emptied (by rw [hstage]; trivial)⟩
    · rw [hrun, ← hp]
    · simpa [Stage.inHand] using hsplit
  | returned => exact ⟨t, drains, rfl, h⟩

/-- **Run lemma.** -/
theorem Flowing.run (h : Flowing session mtu evs drains t) (schedule : List Thread) :
    ∃ t' drains', t.run schedule = some t' ∧ Flowing session mtu evs drains' t' := by
  induction schedule generalizing t drains with
  | nil => exact ⟨t, drains, rfl, h⟩
  | cons thread schedule ih =>
    cases thread with
    | producer => exact ih h.produce
    | publisher =>
      obtain ⟨t₁, drains₁, hstep, h₁⟩ := h.publish
      obtain ⟨t', drains', hrun, h'⟩ := ih h₁
      refine ⟨t', drains', ?_, h'⟩
      rw [Threads.run, List.foldlM_cons, Threads.step, hstep]
      exact hrun

end flowing

/-! ## Section 3: The publisher returns -/

/-- The accesses that are left at most, once the queue is stopped. -/
def Threads.rank (t : Threads) : Nat :=
  match t.stage with
  | .returned => 0
  | .closing _ => 1
  | .leaving => 2
  | .drained [] => 3
  | .drained (_ :: _) => if t.queue.items = [] then 5 else 7
  | .waiting => if t.queue.items = [] then 4 else 6

theorem rank_le (t : Threads) : t.rank ≤ 7 := by
  unfold Threads.rank
  split <;> try split
  all_goals omega

theorem returned_of_rank {t : Threads} (h : t.rank = 0) : t.stage = .returned := by
  unfold Threads.rank at h
  split at h <;> try split at h
  all_goals first | assumption | omega

section returns

variable {session : Session} {mtu : Nat} {evs : List MarketEvent} {drains : List (List MarketEvent)}
  {t t' : Threads}

/-- After `stop`, an access of the publisher brings it nearer to its end. -/
theorem Flowing.rank_publish (h : Flowing session mtu evs drains t) (hcalled : t.stopCalled = true)
    (hstep : t.publish = some t') : t'.stopCalled = true ∧ t'.rank ≤ t.rank - 1 := by
  unfold Threads.publish at hstep
  cases hstage : t.stage with
  | waiting =>
    rw [hstage] at hstep
    cases hstep
    refine ⟨hcalled, ?_⟩
    -- the queue is empty from here on, as nothing is pushed any more
    cases hitems : t.queue.items with
    | nil => simp [Threads.rank, hstage, hitems]
    | cons ev items => simp [Threads.rank, hstage, hitems]
  | drained batch =>
    rw [hstage] at hstep
    cases batch with
    | nil =>
      have hstop : t.queue.stopped = true := h.stopped.trans hcalled
      rw [if_pos hstop] at hstep
      cases hstep
      exact ⟨hcalled, by simp [Threads.rank, hstage]⟩
    | cons ev batch =>
      obtain ⟨p, -, hp⟩ := Option.map_eq_some_iff.mp hstep
      subst hp
      refine ⟨hcalled, ?_⟩
      by_cases hitems : t.queue.items = [] <;> simp [Threads.rank, hstage, hitems]
  | leaving =>
    rw [hstage] at hstep
    cases hstep
    exact ⟨hcalled, by simp [Threads.rank, hstage]⟩
  | closing last =>
    rw [hstage] at hstep
    obtain ⟨p, -, hp⟩ := Option.map_eq_some_iff.mp hstep
    subst hp
    exact ⟨hcalled, by simp [Threads.rank]⟩
  | returned =>
    rw [hstage] at hstep
    cases hstep
    exact ⟨hcalled, by simp [Threads.rank, hstage]⟩

/-- After `stop`, the producer has nothing left to do. -/
theorem Flowing.produce_stopped (h : Flowing session mtu evs drains t)
    (hcalled : t.stopCalled = true) : t.produce.stopCalled = true ∧ t.produce.rank = t.rank := by
  rw [Threads.produce, h.last hcalled]
  exact ⟨rfl, rfl⟩

/-- **Completion.** The publisher has at most seven accesses left when `stop` was
    called, whatever the other thread does in between. -/
theorem Flowing.rank_run (h : Flowing session mtu evs drains t) (hcalled : t.stopCalled = true)
    (schedule : List Thread) :
    ∃ t', t.run schedule = some t' ∧ t'.rank ≤ t.rank - schedule.count .publisher := by
  induction schedule generalizing t drains with
  | nil => exact ⟨t, rfl, Nat.le_refl _⟩
  | cons thread schedule ih =>
    cases thread with
    | producer =>
      obtain ⟨hcalled₁, hrank⟩ := h.produce_stopped hcalled
      obtain ⟨t', hrun, hle⟩ := ih h.produce hcalled₁
      refine ⟨t', hrun, ?_⟩
      rw [List.count_cons_of_ne (by decide)]
      omega
    | publisher =>
      obtain ⟨t₁, drains₁, hstep, h₁⟩ := h.publish
      obtain ⟨hcalled₁, hrank⟩ := h.rank_publish hcalled hstep
      obtain ⟨t', hrun, hle⟩ := ih h₁ hcalled₁
      refine ⟨t', ?_, ?_⟩
      · rw [Threads.run, List.foldlM_cons, Threads.step, hstep]
        exact hrun
      · rw [List.count_cons_self]
        omega

end returns

/-! ## Section 4: Everything is published before the end of the session -/

/-- The datagrams of frames `fs` carry the events, each once and in order. A
    frame without messages is a heartbeat, with the number of the next message.
    None of the datagrams is taken for the end of the session: one with 65535
    messages would be, but it does not fit into a UDP datagram. -/
structure Carrying (session : Session) (evs : List MarketEvent) (fs : List (List Payload)) :
    Prop where
  carried : List.Forall₂ Carried fs.flatten evs
  beats : ∀ i, fs[i]? = some [] →
    (stamped session 0 fs)[i]? = some (makeHeader session (seqAt (fs.take i).flatten.length) 0)
  going : ∀ d ∈ stamped session 0 fs, d.length ≤ 65507 →
    ∃ pkt, parse d = some (some pkt) ∧ pkt.endOfSession = false

theorem carrying_of_carried (session : Session) {evs : List MarketEvent} {fs : List (List Payload)}
    (h : List.Forall₂ Carried fs.flatten evs) : Carrying session evs fs where
  carried := h
  beats i hi := by
    rw [getElem?_stamped, hi, Nat.zero_add]
    simp [packet, offset]
  going d hd hlen := by
    obtain ⟨i, hi⟩ := List.mem_iff_getElem?.mp hd
    rw [getElem?_stamped] at hi
    obtain ⟨f, -, rfl⟩ := Option.map_eq_some_iff.mp hi
    obtain ⟨hcount, hlengths⟩ := readable_of_packet hlen
    exact ⟨_, parse_packet session _ hcount hlengths, rfl⟩

section sent

variable {session : Session} {mtu : Nat} {evs : List MarketEvent}
  {drains : List (List MarketEvent)} {t : Threads}

/-- What was sent by a publisher that has returned. -/
theorem Flowing.sent_returned (h : Flowing session mtu evs drains t)
    (hstage : t.stage = .returned) :
    ∃ fs, t.publisher.sent = broadcast session fs ∧ List.Forall₂ Carried fs.flatten evs ∧
      ∀ f ∈ fs, f ≠ [] → Whole mtu f := by
  have hpub := h.published
  have hsplit := h.split
  have hcalled := h.left (by rw [hstage]; trivial)
  rw [hstage] at hpub hsplit
  rw [h.emptied (by rw [hstage]; trivial), h.last hcalled] at hsplit
  obtain ⟨before, last, rfl, hlast⟩ := hpub
  obtain ⟨p, fs, hp, hsent, -, hcarried, hwhole, -⟩ := run_spec session mtu before last
  obtain rfl : p = t.publisher := Option.some.inj (hp.symm.trans hlast)
  have hevs : evs = before.flatten ++ last := by simpa [Stage.inHand] using hsplit
  exact ⟨fs, hsent, hevs ▸ hcarried, hwhole⟩

/-- What was sent by a publisher that has not returned. -/
theorem Flowing.sent_so_far (h : Flowing session mtu evs drains t) (hstage : t.stage ≠ .returned) :
    ∃ fs, t.publisher.sent = stamped session 0 fs ∧ List.Forall₂ Carried fs.flatten drains.flatten ∧
      ∀ f ∈ fs, f ≠ [] → Whole mtu f := by
  have hpub : drains.foldlM Publisher.turn { packetizer := { session, mtu } } =
    some t.publisher := by
    have hpub := h.published
    cases hs : t.stage with
    | returned => exact absurd hs hstage
    | _ => rw [hs] at hpub; exact hpub
  obtain ⟨q, fs, hq, hsent⟩ := (labelled_new session mtu).turns drains
  obtain rfl : q = t.publisher := Option.some.inj (hq.symm.trans hpub)
  exact ⟨fs, hsent.sent, hsent.carried, hsent.whole⟩

end sent

/-- **The feed publishes everything before the end of the session.** For every
    interleaving of the producer, which pushes `evs` and then calls `stop`, with
    the accesses of `run`:

    - when `run` has returned, it has sent datagrams that carry all of `evs`, and
      after them one end of session with the number after the last event;
    - until then it has sent datagrams that carry some of the first events, and no
      end of session;
    - once `stop` was called, `run` returns after at most seven more accesses. -/
theorem published_before_end (session : Session) (mtu : Nat) (evs : List MarketEvent)
    (schedule : List Thread) :
    ∃ t, (Threads.start session mtu evs).run schedule = some t ∧
      (t.stage = .returned → ∃ fs, Carrying session evs fs ∧ t.publisher.sent = stamped session 0
        fs ++ [makeHeader session (UInt64.ofNat (evs.length + 1)) kEndOfSessionCount]) ∧
      (t.stage ≠ .returned → ∃ fs first, first <+: evs ∧ Carrying session first fs ∧
        t.publisher.sent = stamped session 0 fs) ∧
      (t.stopCalled = true → ∀ more, 7 ≤ more.count .publisher →
        ∃ t', t.run more = some t' ∧ t'.stage = .returned) := by
  obtain ⟨t, drains, hrun, h⟩ := (flowing_start session mtu evs).run schedule
  refine ⟨t, hrun, ?_, ?_, ?_⟩
  · intro hstage
    obtain ⟨fs, hsent, hcarried, -⟩ := h.sent_returned hstage
    refine ⟨fs, carrying_of_carried session hcarried, ?_⟩
    rw [hsent, broadcast, seqAt, hcarried.length_eq]
  · intro hstage
    obtain ⟨fs, hsent, hcarried, -⟩ := h.sent_so_far hstage
    refine ⟨fs, drains.flatten, ?_, carrying_of_carried session hcarried, hsent⟩
    rw [h.split, List.append_assoc, List.append_assoc]
    exact List.prefix_append _ _
  · intro hcalled more hmore
    obtain ⟨t', hrun', hrank⟩ := h.rank_run hcalled more
    have hle := rank_le t
    exact ⟨t', hrun', returned_of_rank (by omega)⟩

end Feed

end MatchingEngine
