import MatchingEngine.Engine.Engine
import MatchingEngine.Itch.Codec
import MatchingEngine.Lib.Machine
import MatchingEngine.Lib.Numbering
import MatchingEngine.Mold.Gaps
import MatchingEngine.Mold.Packetizer

/-! # The feed publisher

    `feed/feed.cpp`. The publisher drains market events from a queue, encodes
    each as an ITCH message and sends the messages in MoldUDP64 packets. A drain
    that comes back empty sends a heartbeat. When the queue is stopped, what is
    left in it is published and the end of the session is sent.

    The socket and the capture file get the same bytes and are one list here,
    `sent`. What a run sends is a broadcast, with one message for each event
    (`run_spec`).
-/

namespace MatchingEngine

namespace Feed

open Mold

variable {fs : List (List Payload)} {old : List MarketEvent} {session : Session} {mtu : Nat}

/-! ## Section 1: Encoding events -/

/-- The message for an event. An execution carries the resting order only, and a
    removal no quantity. -/
def itchMessage (ev : MarketEvent) (stockLocate : UInt16) : Itch.Message :=
  let hdr : Itch.Header := ⟨stockLocate, 0, UInt64.ofNat ev.ts⟩
  match ev.ev with
  | .added e =>
    .addOrder ⟨hdr, UInt64.ofNat e.id, e.side.toByte, e.qty, ev.symbol, e.price⟩
  | .executed e =>
    .orderExecuted ⟨hdr, UInt64.ofNat e.restingId, e.qty, UInt64.ofNat e.matchId⟩
  | .canceled e =>
    if e.removed then .orderDelete ⟨hdr, UInt64.ofNat e.id⟩
    else .orderCancel ⟨hdr, UInt64.ofNat e.id, e.canceledQty⟩
  | .replaced e =>
    .orderReplace ⟨hdr, UInt64.ofNat e.oldId, UInt64.ofNat e.newId, e.qty, e.price⟩

def toItch (ev : MarketEvent) (stockLocate : UInt16) : Option Payload :=
  (itchMessage ev stockLocate).encode

/-- The payload stands for the event, under some locate code. -/
def Carried (m : Payload) (ev : MarketEvent) : Prop :=
  m.length ≤ 36 ∧ ∃ locate, Itch.decode m = some (some (itchMessage ev locate).onWire)

/-- The payload stands for the event, under the locate code of its symbol. -/
def CarriedUnder (locates : Finmap (fun _ : Symbol => UInt16)) (m : Payload)
    (ev : MarketEvent) : Prop :=
  m.length ≤ 36 ∧ ∃ locate, locates.lookup ev.symbol = some locate ∧
    Itch.decode m = some (some (itchMessage ev locate).onWire)

theorem CarriedUnder.carried {locates : Finmap (fun _ : Symbol => UInt16)} {m : Payload}
    {ev : MarketEvent} (h : CarriedUnder locates m ev) : Carried m ev := by
  obtain ⟨hlength, locate, -, hdecode⟩ := h
  exact ⟨hlength, locate, hdecode⟩

/-- Every event can be encoded. -/
theorem toItch_spec (ev : MarketEvent) (locate : UInt16) :
    ∃ m, toItch ev locate = some m ∧ m.length ≤ 36 ∧
      Itch.decode m = some (some (itchMessage ev locate).onWire) := by
  have hfits : (itchMessage ev locate).Fits ∧ (itchMessage ev locate).size ≤ 36 := by
    rcases ev with ⟨ts, symbol, e | e | ⟨id, qty, removed⟩ | e⟩
    · exact ⟨trivial, show 36 ≤ 36 by decide⟩
    · exact ⟨trivial, show 31 ≤ 36 by decide⟩
    · cases removed with
      | false => exact ⟨trivial, show 23 ≤ 36 by decide⟩
      | true => exact ⟨trivial, show 19 ≤ 36 by decide⟩
    · exact ⟨trivial, show 35 ≤ 36 by decide⟩
  obtain ⟨m, hencode, hlength, hdecode⟩ := Itch.decode_encode _ hfits.1
  exact ⟨m, hencode, by rw [hlength]; exact hfits.2, hdecode⟩

/-! ## Section 2: The publisher -/

structure Publisher where
  packetizer : Packetizer
  locates : Finmap (fun _ : Symbol => UInt16) := ∅
  sent : List Datagram := []

namespace Publisher

def sendDatagram (p : Publisher) (bytes : Datagram) : Publisher :=
  { p with sent := p.sent ++ [bytes] }

/-- Locate codes count up from 1 in the order the symbols appear. -/
def locateFor (p : Publisher) (symbol : Symbol) : Publisher × UInt16 :=
  match p.locates.lookup symbol with
  | some locate => (p, locate)
  | none =>
    let locate := UInt16.ofNat (p.locates.keys.card + 1)
    ({ p with locates := p.locates.insert symbol locate }, locate)

def addEvent (p : Publisher) (ev : MarketEvent) : Option Publisher := do
  let (p, locate) := p.locateFor ev.symbol
  let bytes ← toItch ev locate
  some { p with packetizer := p.packetizer.addMessage bytes }

def sendReady (p : Publisher) : Publisher :=
  let (packets, packetizer) := p.packetizer.takePackets
  packets.foldl sendDatagram { p with packetizer := packetizer }

def publish (p : Publisher) (evs : List MarketEvent) : Option Publisher := do
  let p ← evs.foldlM addEvent p
  some { p with packetizer := p.packetizer.flush }.sendReady

/-- One turn of the loop of `run`: what was drained is published, and an idle
    turn sends a heartbeat. -/
def turn (p : Publisher) (evs : List MarketEvent) : Option Publisher :=
  if evs.isEmpty then some (p.sendDatagram p.packetizer.heartbeat) else p.publish evs

/-- The drains of the loop, then what is left in the queue. -/
def run (session : Session) (mtu : Nat) (drains : List (List MarketEvent))
    (last : List MarketEvent) : Option Publisher := do
  let p ← drains.foldlM turn { packetizer := { session, mtu } }
  let p ← p.publish last
  some (p.sendDatagram p.packetizer.endOfSession)

end Publisher

/-! ## Section 3: What a run sends -/

/-- Between two turns: the frames `fs` were sent, which carry the events `evs`,
    and no packet is open. -/
structure Sent (session : Session) (mtu : Nat) (p : Publisher) (fs : List (List Payload))
    (evs : List MarketEvent) : Prop where
  session_eq : p.packetizer.session = session
  mtu_eq : p.packetizer.mtu = mtu
  ready : p.packetizer.ready = []
  holds : Holds p.packetizer fs.flatten.length []
  sent : p.sent = stamped session 0 fs
  carried : List.Forall₂ Carried fs.flatten evs
  whole : ∀ f ∈ fs, f ≠ [] → Whole mtu f

/-- The codes are those of the table, in all frames. -/
structure Labelled (session : Session) (mtu : Nat) (p : Publisher) (fs : List (List Payload))
    (evs : List MarketEvent) : Prop extends Sent session mtu p fs evs where
  labels : List.Forall₂ (CarriedUnder p.locates) fs.flatten evs

theorem labelled_new (session : Session) (mtu : Nat) :
    Labelled session mtu { packetizer := { session, mtu } } [] [] :=
  ⟨⟨rfl, rfl, rfl, holds_new session mtu, rfl, .nil, by simp⟩, .nil⟩

/-- The code of the symbol that comes after `n` others. -/
def locateCode (n : Nat) : UInt16 := UInt16.ofNat (n + 1)

/-- `locate_for` numbers the symbols in the order of their appearance. -/
theorem locateFor_eq (p : Publisher) (symbol : Symbol) : p.locateFor symbol =
    ({ p with locates := (Numbering.assign locateCode p.locates symbol).1 },
      (Numbering.assign locateCode p.locates symbol).2) := by
  unfold Publisher.locateFor Numbering.assign
  cases p.locates.lookup symbol with
  | none => rfl
  | some locate => rfl

theorem addEvent_spec (p : Publisher) (ev : MarketEvent) :
    ∃ m, p.addEvent ev = some { p with
        packetizer := p.packetizer.addMessage m
        locates := (Numbering.assign locateCode p.locates ev.symbol).1 } ∧
      CarriedUnder (Numbering.assign locateCode p.locates ev.symbol).1 m ev := by
  obtain ⟨m, hm, hlength, hdecode⟩ :=
    toItch_spec ev (Numbering.assign locateCode p.locates ev.symbol).2
  refine ⟨m, ?_, hlength, _, Numbering.lookup_assign _ _ _, hdecode⟩
  rw [Publisher.addEvent, locateFor_eq]
  dsimp only
  rw [hm]
  rfl

variable {p : Publisher}

/-- The codes of the table stay. -/
theorem addEvents_lookup {q : Publisher} {evs : List MarketEvent}
    (h : evs.foldlM Publisher.addEvent p = some q) {symbol : Symbol} {locate : UInt16}
    (hlocate : p.locates.lookup symbol = some locate) : q.locates.lookup symbol = some locate := by
  refine Machine.foldlM_induct (P := fun p => p.locates.lookup symbol = some locate) ?_
    evs hlocate h
  intro p ev q hp hq
  obtain ⟨m, hadd, -⟩ := addEvent_spec p ev
  cases hadd.symm.trans hq
  exact Numbering.lookup_assign_of_some hp

theorem CarriedUnder.addEvents {q : Publisher} {evs : List MarketEvent}
    (hrun : evs.foldlM Publisher.addEvent p = some q) {m : Payload} {ev : MarketEvent}
    (h : CarriedUnder p.locates m ev) : CarriedUnder q.locates m ev := by
  obtain ⟨hlength, locate, hlocate, hdecode⟩ := h
  exact ⟨hlength, locate, addEvents_lookup hrun hlocate, hdecode⟩

/-- The events of a drain are added to packets. -/
theorem addEvents_spec (p : Publisher) (evs : List MarketEvent) {n : Nat} {cur : List Payload}
    (h : Holds p.packetizer n cur) :
    ∃ q ms fs cur', evs.foldlM Publisher.addEvent p = some q ∧ q.sent = p.sent ∧
      List.Forall₂ (CarriedUnder q.locates) ms evs ∧
        Emits p.packetizer q.packetizer n cur ms fs cur' := by
  induction evs generalizing p n cur with
  | nil => exact ⟨p, [], [], cur, rfl, rfl, .nil, Emits.refl h⟩
  | cons ev evs ih =>
    obtain ⟨m, hadd, hcarried⟩ := addEvent_spec p ev
    obtain ⟨fs₁, cur₁, hfirst⟩ := h.addMessage m
    obtain ⟨q, ms, fs, cur', hfold, hq, hms, hrest⟩ := ih { p with
      packetizer := p.packetizer.addMessage m
      locates := (Numbering.assign locateCode p.locates ev.symbol).1 } hfirst.holds
    refine ⟨q, m :: ms, fs₁ ++ fs, cur', ?_, hq, .cons (hcarried.addEvents hfold) hms,
      hfirst.trans hrest⟩
    rw [List.foldlM_cons, hadd]
    exact hfold

theorem foldl_sendDatagram (p : Publisher) (packets : List Datagram) :
    packets.foldl Publisher.sendDatagram p = { p with sent := p.sent ++ packets } := by
  induction packets generalizing p with
  | nil => simp
  | cons b packets ih => simp [ih, Publisher.sendDatagram]

theorem sendReady_eq (p : Publisher) : p.sendReady = { p with
    packetizer := p.packetizer.takePackets.2
    sent := p.sent ++ p.packetizer.ready } :=
  foldl_sendDatagram _ _

theorem Labelled.publish (h : Labelled session mtu p fs old) (evs : List MarketEvent) :
    ∃ q fs', p.publish evs = some q ∧ Labelled session mtu q (fs ++ fs') (old ++ evs) := by
  obtain ⟨q, ms, fs₁, cur, hfold, hsent, hcarried, hadd⟩ := addEvents_spec p evs h.holds
  obtain ⟨fs₂, hflush⟩ := hadd.holds.flush
  have hall := hadd.trans hflush
  rw [List.append_nil] at hall
  have hmessages : (fs₁ ++ fs₂).flatten = ms := by simpa using hall.messages
  have hlabels : List.Forall₂ (CarriedUnder q.locates) (fs ++ (fs₁ ++ fs₂)).flatten
      (old ++ evs) := by
    rw [List.flatten_append, hmessages]
    exact List.rel_append (h.labels.imp (fun m ev hm => hm.addEvents hfold)) hcarried
  refine ⟨{ q with packetizer := q.packetizer.flush }.sendReady, fs₁ ++ fs₂, ?_, ?_⟩
  · rw [Publisher.publish, hfold]
    rfl
  · rw [sendReady_eq]
    refine ⟨⟨hall.session.trans h.session_eq, hall.mtu.trans h.mtu_eq, rfl, ?_, ?_, ?_, ?_⟩,
      hlabels⟩
    · have hholds := hall.holds
      rw [← List.length_append, ← List.flatten_append] at hholds
      exact ⟨hholds.nextSeq, hholds.count, hholds.current, hholds.whole⟩
    · show q.sent ++ q.packetizer.flush.ready = _
      rw [hsent, h.sent, hall.ready, h.ready, h.session_eq, List.nil_append,
        stamped_append session 0 fs, Nat.zero_add]
    · exact hlabels.imp (fun m ev hm => hm.carried)
    · intro f hf hne
      rcases List.mem_append.mp hf with hf | hf
      · exact h.whole f hf hne
      · have := hall.whole f hf
        rwa [h.mtu_eq] at this

theorem Labelled.beat (h : Labelled session mtu p fs old) :
    Labelled session mtu (p.sendDatagram p.packetizer.heartbeat) (fs ++ [[]]) old := by
  have hbeat : p.packetizer.heartbeat = packet session (seqAt fs.flatten.length) [] := by
    rw [h.holds.heartbeat, h.session_eq]
  have hflatten : (fs ++ [[]]).flatten = fs.flatten := by simp
  refine ⟨⟨h.session_eq, h.mtu_eq, h.ready, ?_, ?_, by rw [hflatten]; exact h.carried, ?_⟩,
    by rw [hflatten]; exact h.labels⟩
  · rw [hflatten]
    exact h.holds
  · show p.sent ++ [p.packetizer.heartbeat] = _
    rw [h.sent, hbeat, stamped_append, Nat.zero_add]
    rfl
  · intro f hf hne
    rcases List.mem_append.mp hf with hf | hf
    · exact h.whole f hf hne
    · exact absurd (List.mem_singleton.mp hf) hne

theorem Labelled.turn (h : Labelled session mtu p fs old) (evs : List MarketEvent) :
    ∃ q fs', p.turn evs = some q ∧ Labelled session mtu q fs' (old ++ evs) := by
  cases evs with
  | nil =>
    refine ⟨_, fs ++ [[]], rfl, ?_⟩
    rw [List.append_nil]
    exact h.beat
  | cons ev evs =>
    obtain ⟨q, fs', hq, hsent⟩ := h.publish (ev :: evs)
    exact ⟨q, fs ++ fs', hq, hsent⟩

theorem Labelled.turns (h : Labelled session mtu p fs old) (drains : List (List MarketEvent)) :
    ∃ q fs', drains.foldlM Publisher.turn p = some q ∧
      Labelled session mtu q fs' (old ++ drains.flatten) := by
  induction drains generalizing p fs old with
  | nil => exact ⟨p, fs, rfl, by simpa using h⟩
  | cons evs drains ih =>
    obtain ⟨q, fs₁, hq, hturn⟩ := h.turn evs
    obtain ⟨r, fs₂, hr, hsent⟩ := ih hturn
    refine ⟨r, fs₂, ?_, ?_⟩
    · rw [List.foldlM_cons, hq]
      exact hr
    · rwa [List.append_assoc] at hsent

/-- **What a run sends.** The broadcast of frames that carry the drained events,
    each event once and in order, under the locate codes of the final table. -/
theorem run_spec (session : Session) (mtu : Nat) (drains : List (List MarketEvent))
    (last : List MarketEvent) :
    ∃ p fs, Publisher.run session mtu drains last = some p ∧ p.sent = broadcast session fs ∧
      p.packetizer.nextSeq = seqAt fs.flatten.length ∧
      List.Forall₂ Carried fs.flatten (drains.flatten ++ last) ∧
      (∀ f ∈ fs, f ≠ [] → Whole mtu f) ∧
      List.Forall₂ (CarriedUnder p.locates) fs.flatten (drains.flatten ++ last) := by
  obtain ⟨q, fs₁, hq, hturns⟩ := (labelled_new session mtu).turns drains
  obtain ⟨r, fs₂, hr, h⟩ := hturns.publish last
  have hnext : r.packetizer.nextSeq = seqAt (fs₁ ++ fs₂).flatten.length := by
    simpa using h.holds.nextSeq
  refine ⟨r.sendDatagram r.packetizer.endOfSession, fs₁ ++ fs₂, ?_, ?_, hnext, ?_, h.whole, ?_⟩
  · rw [Publisher.run, hq]
    show (q.publish last).bind _ = _
    rw [hr]
    rfl
  · show r.sent ++ [r.packetizer.endOfSession] = _
    rw [broadcast, ← h.sent, Packetizer.endOfSession, h.session_eq, hnext]
  · simpa using h.carried
  · exact h.labels

/-! ## Section 4: Losses are detected

    A datagram of more than 65507 bytes is not sent over UDP, so it is never
    delivered. -/

/-- **Loss detection is exact.** `kept` says which datagrams of a run arrive, the
    last one, the end of the session, among them. Fewer than `2 ^ 64 - 1` events
    are published, so that their numbers do not wrap.

    A gap is reported if and only if a datagram with messages was lost.
    `on_packet` returns true exactly for the datagrams directly before which a
    block of datagrams with messages among them was lost. The expected number
    never decreases, and at the end it is that of the publisher. -/
theorem losses_detected (session : Session) (mtu : Nat) (drains : List (List MarketEvent))
    (last : List MarketEvent) (hbound : (drains.flatten ++ last).length + 1 < 2 ^ 64) :
    ∃ p, Publisher.run session mtu drains last = some p ∧
      ∀ kept : Nat → Bool, kept (p.sent.length - 1) = true →
        (∀ i < p.sent.length, kept i = true → (datagramAt p.sent i).length ≤ 65507) →
        let positions := delivered kept p.sent.length
        let arrived := positions.map (datagramAt p.sent)
        ((GapDetector.run {} arrived).hadGap = true ↔
          ∃ i < p.sent.length, kept i = false ∧ Carries (datagramAt p.sent i)) ∧
        GapDetector.reports {} arrived = positions.map (fun i => decide (Revealed p.sent kept i)) ∧
        (GapDetector.history {} arrived).Pairwise (fun d d' => d.expected ≤ d'.expected) ∧
        (GapDetector.run {} arrived).expected = p.packetizer.nextSeq := by
  obtain ⟨p, fs, hrun, hsent, hnext, hcarried, -⟩ := run_spec session mtu drains last
  refine ⟨p, hrun, ?_⟩
  intro kept hend hudp positions arrived
  have hbound' : fs.flatten.length + 1 < 2 ^ 64 := by rw [hcarried.length_eq]; exact hbound
  have hlength : p.sent.length = fs.length + 1 := by rw [hsent, length_broadcast]
  have hread : ∀ i ≤ fs.length, kept i = true → Readable (frameAt fs i) := by
    intro i hi hk
    have hsmall := hudp i (by omega) hk
    rw [hsent] at hsmall
    exact readable_of_length session hi hsmall
  have hlast : kept fs.length = true := by
    rwa [hlength, Nat.add_sub_cancel] at hend
  obtain ⟨e, he, hexpected, hbehind, hreports⟩ :=
    reports_delivered session hread hbound' (Nat.le_refl (fs.length + 1))
  rw [← hlength] at he
  rw [← hsent, ← hlength] at hexpected hbehind hreports
  refine ⟨?_, hreports, GapDetector.history_pairwise _ _, ?_⟩
  · rw [GapDetector.hadGap_run, hreports]
    constructor
    · rintro (hfalse | hreport)
      · cases hfalse
      · obtain ⟨j, hj, hrevealed⟩ := List.mem_map.mp hreport
        obtain ⟨k, hkj, hlost, hcarries⟩ := of_decide_eq_true hrevealed
        have hj' := List.mem_range.mp (List.mem_filter.mp hj).1
        exact ⟨k, by omega, hlost k hkj (Nat.le_refl k), hcarries⟩
    · rintro ⟨i, hi, hlost, hcarries⟩
      obtain ⟨j, hj, hrevealed⟩ := exists_revealed hlost hcarries (m := fs.length) (by omega) hlast
      rw [← hlength] at hj
      exact .inr (List.mem_map.mpr ⟨j, hj, decide_eq_true hrevealed⟩)
  · have hnone : ¬ Revealed p.sent kept p.sent.length := by
      rw [hlength]
      exact not_revealed_succ hlast
    have hsame : offset fs p.sent.length = fs.flatten.length := offset_length (by omega)
    have hlevel : e = fs.flatten.length := by
      have := mt hbehind.mp hnone
      omega
    rw [hexpected, hnext, hlevel]

/-- One event is published and its packet is lost. -/
theorem losses_detected_one :
    let ev : MarketEvent := ⟨0, Vector.replicate 8 0, .added ⟨1, .buy, 100, 10⟩⟩
    ∃ p, Publisher.run (Vector.replicate 10 0) 1400 [[ev], []] [] = some p ∧
      (GapDetector.run {} ([1, 2].map (datagramAt p.sent))).hadGap = true := by
  intro ev
  obtain ⟨p, hp, h⟩ := losses_detected (Vector.replicate 10 0) 1400 [[ev], []] [] (by decide)
  have hlengths : (Publisher.run (Vector.replicate 10 0) 1400 [[ev], []] []).map
      (fun p => p.sent.map List.length) = some [58, 20, 20] := by decide +kernel
  rw [hp] at hlengths
  have hsizes : p.sent.map List.length = [58, 20, 20] := Option.some.inj hlengths
  have hlength : p.sent.length = 3 := by simpa using congrArg List.length hsizes
  have hsize : ∀ i < 3, (datagramAt p.sent i).length = [58, 20, 20].getD i 0 := by
    intro i hi
    rw [← hsizes, datagramAt, List.getD_eq_getElem?_getD, List.getElem?_map,
      List.getElem?_eq_getElem (by omega)]
    rfl
  refine ⟨p, hp, ?_⟩
  have hgap := (h (fun i => i != 0) (by rw [hlength]; rfl) ?_).1
  · rw [hlength] at hgap
    exact hgap.mpr ⟨0, by decide, rfl, by rw [Carries, hsize 0 (by decide)]; decide⟩
  · rw [hlength]
    intro i hi _
    rw [hsize i hi]
    revert i
    decide

end Feed

end MatchingEngine
