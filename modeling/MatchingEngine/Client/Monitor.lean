import MatchingEngine.Client.Replay
import MatchingEngine.Client.Viewer

/-! # Watching and recording a feed

    `apps/itchlisten.cpp` and `apps/itchreplay.cpp`, without their sockets: the
    datagrams that `recvfrom` gives are an input, and those given to `sendto` a
    result.

    * `itchlisten` feeds a builder until the end of the session, prints the books
      and exits with 2 when a gap was seen. A listener that saw the end and exits
      with 0 has heard the whole session, if no messages were delivered twice
      (`Listening.run_broadcast`).
    * `itchreplay` reads a capture and prints what is in it, or sends it again. The
      pauses between two datagrams are left out.
-/

namespace MatchingEngine

namespace Client

open Mold Feed

/-! ## Section 1: itchlisten -/

/-- What the loop of `main` meets next: a reason to stop, a `recvfrom` without a
    result, or one with a datagram. -/
inductive Recv where
  | stop
  | nothing
  | datagram (d : Datagram)

def Recv.datagram? : Recv → Option Datagram
  | .datagram d => some d
  | _ => none

/-- The size of the buffer. A longer datagram is cut. -/
def recvSize : Nat := 2048

structure Listening where
  builder : ItchBookBuilder := {}
  packets : UInt64 := 0
  eos : Bool := false

namespace Listening

/-- The loop of `main`. -/
def run (l : Listening) : List Recv → Option Listening
  | [] => some l
  | r :: recvs =>
    if l.eos then some l
    else
      match r with
      | .stop => some l
      | .nothing => l.run recvs
      | .datagram d =>
        if d.isEmpty then l.run recvs
        else do
          let (builder, eos) ← l.builder.onMoldPacket (d.take recvSize)
          run ⟨builder, l.packets + 1, eos⟩ recvs

/-- What `main` returns. -/
def exitCode (l : Listening) : Nat := if l.builder.hadGap then 2 else 0

theorem exitCode_eq_zero {l : Listening} : l.exitCode = 0 ↔ l.builder.hadGap = false := by
  unfold exitCode
  split <;> simp_all

end Listening

/-- A level in `print_ladder`: its quantity in 32 bits and its price. -/
def ladderCell (levels : List SnapshotLevel) (row : Nat) : Option (Option (Qty × List UInt8)) :=
  (drawCell levels row).map (Option.map (fun c => (c.total, c.price)))

/-- The rows of `print_ladder` from `row` on, `n` at most. The first one without a
    level ends the ladder. -/
def printLadder (snap : BookSnapshot) :
    Nat → Nat → Option (List (Option (Qty × List UInt8) × Option (Qty × List UInt8)))
  | 0, _ => some []
  | n + 1, row => do
    let bid ← ladderCell snap.bids row
    let ask ← ladderCell snap.asks row
    if bid.isNone && ask.isNone then some []
    else do
      let rows ← printLadder snap n (row + 1)
      some ((bid, ask) :: rows)

/-- Eight rows. -/
def ladder (snap : BookSnapshot) :
    Option (List (Option (Qty × List UInt8) × Option (Qty × List UInt8))) :=
  printLadder snap 8 0

/-- The datagram ends the session. -/
def Ends (d : Datagram) : Prop := ∃ pkt, Mold.parse d = some (some pkt) ∧ pkt.endOfSession = true

theorem onMoldPacket_ends {b b' : ItchBookBuilder} {d : Datagram} {eos : Bool}
    (h : b.onMoldPacket d = some (b', eos)) : eos = true ↔ Ends d := by
  unfold ItchBookBuilder.onMoldPacket at h
  unfold Ends
  rcases hparse : Mold.parse d with _ | (_ | pkt)
  · simp [hparse] at h
  · simp only [hparse, Option.bind_eq_bind, Option.bind_some, Option.some.injEq, Prod.mk.injEq] at h
    simp [← h.2]
  · simp only [hparse, Option.bind_eq_bind, Option.bind_some] at h
    obtain ⟨b'', -, h⟩ := Option.bind_eq_some_iff.mp h
    cases h
    simp

/-- **Run lemma.** What the loop has heard is the first part of what came in. The
    session has ended if the last datagram heard says so, and without a reason to
    stop nothing else ends the loop. -/
theorem Listening.run_spec {l : Listening} (hopen : l.eos = false) (recvs : List Recv)
    (hsmall : ∀ d ∈ recvs.filterMap Recv.datagram?, d ≠ [] ∧ d.length ≤ recvSize)
    (hdefined : ∀ part, part <+: recvs.filterMap Recv.datagram? →
      ∃ b, l.builder.onMoldPackets part = some b) :
    ∃ part b eos, part <+: recvs.filterMap Recv.datagram? ∧ l.builder.onMoldPackets part = some b ∧
      l.run recvs = some ⟨b, l.packets + UInt64.ofNat part.length, eos⟩ ∧
      (eos = true ↔ ∃ d, part.getLast? = some d ∧ Ends d) ∧
      (Recv.stop ∉ recvs → eos = false → part = recvs.filterMap Recv.datagram?) := by
  induction recvs generalizing l with
  | nil =>
    exact ⟨[], l.builder, l.eos, List.prefix_rfl, rfl, by simp [run], by simp [hopen],
      fun _ _ => rfl⟩
  | cons r recvs ih =>
    cases r with
    | stop =>
      have hstep : l.run (.stop :: recvs) = some l := by simp [run]
      rw [hstep]
      refine ⟨[], l.builder, l.eos, List.nil_prefix, rfl, by simp, by simp [hopen], fun hstop => ?_⟩
      exact absurd List.mem_cons_self hstop
    | nothing =>
      have hstep : l.run (.nothing :: recvs) = l.run recvs := by simp [run, hopen]
      rw [hstep]
      obtain ⟨part, b, eos, hpart, hb, hrun, heos, hall⟩ := ih hopen hsmall hdefined
      exact ⟨part, b, eos, hpart, hb, hrun, heos,
        fun hstop => hall (fun h => hstop (List.mem_cons_of_mem _ h))⟩
    | datagram d =>
      have hmore : (Recv.datagram d :: recvs).filterMap Recv.datagram? =
        d :: recvs.filterMap Recv.datagram? := rfl
      rw [hmore] at hsmall hdefined ⊢
      obtain ⟨hne, hlength⟩ := hsmall d List.mem_cons_self
      obtain ⟨b₁, hb₁⟩ := hdefined [d] (by simp)
      have hone : l.builder.onMoldPackets [d] = (l.builder.onMoldPacket d).map Prod.fst := by
        simp [ItchBookBuilder.onMoldPackets]
      rw [hone] at hb₁
      obtain ⟨⟨b₁, eos₁⟩, hpacket, rfl⟩ := Option.map_eq_some_iff.mp hb₁
      have hends := onMoldPacket_ends hpacket
      have hfirst : ∀ part, l.builder.onMoldPackets (d :: part) = b₁.onMoldPackets part := by
        intro part
        simp [ItchBookBuilder.onMoldPackets, hpacket]
      have hstep : l.run (.datagram d :: recvs) = run ⟨b₁, l.packets + 1, eos₁⟩ recvs := by
        simp [run, hopen, hne, List.take_of_length_le hlength, hpacket]
      rw [hstep]
      cases eos₁ with
      | true =>
        refine ⟨[d], b₁, true, by simp, by rw [hfirst]; rfl, ?_, ?_,
          fun _ h => absurd h (by decide)⟩
        · cases recvs with
          | nil => rfl
          | cons => rfl
        · exact ⟨fun _ => ⟨d, rfl, hends.mp rfl⟩, fun _ => rfl⟩
      | false =>
        obtain ⟨part, b, eos, hpart, hb, hrun, heos, hall⟩ :=
          ih (l := ⟨b₁, l.packets + 1, false⟩) rfl
          (fun d' hd' => hsmall d' (List.mem_cons_of_mem _ hd'))
          (fun part hpart => by
            rw [← hfirst]
            exact hdefined (d :: part) (List.prefix_cons_inj d |>.mpr hpart))
        refine ⟨d :: part, b, eos, List.prefix_cons_inj d |>.mpr hpart,
          by rw [hfirst]; exact hb, ?_, ?_, ?_⟩
        · rw [hrun, List.length_cons, UInt64.ofNat_add, UInt64.add_assoc, UInt64.add_comm 1]
          rfl
        · rw [heos]
          cases part with
          | nil =>
            -- `d` is not the end of the session
            have hgoes : ¬ Ends d := fun hd => absurd (hends.mpr hd) (by decide)
            simp [hgoes]
          | cons => rw [List.getLast?_cons_cons]
        · intro hstop heos'
          rw [hall (fun h => hstop (List.mem_cons_of_mem _ h)) heos']

/-! ### Sessions -/

section broadcast

variable {session : Session} {fs : List (List Payload)}

/-- Only the last datagram of a broadcast ends the session. -/
theorem ends_broadcast (session : Session) {i : Nat} (hi : i ≤ fs.length)
    (hread : Readable (frameAt fs i)) :
    Ends (datagramAt (broadcast session fs) i) ↔ i = fs.length := by
  rw [datagramAt_broadcast session hi]
  constructor
  · rintro ⟨pkt, hparse, hend⟩
    by_contra hne
    rw [if_pos (by omega), parse_packet session _ hread.1 hread.2] at hparse
    cases hparse
    cases hend
  · rintro rfl
    rw [if_neg (Nat.lt_irrefl _)]
    exact ⟨_, parse_endOfSession _ _, rfl⟩

theorem datagramAt_ne_nil (session : Session) {i : Nat} (hi : i ≤ fs.length) :
    datagramAt (broadcast session fs) i ≠ [] := by
  rw [datagramAt_broadcast session hi, ← List.length_pos_iff]
  split
  · rw [length_packet, frameLength, kHeaderSize]
    omega
  · rw [length_makeHeader]
    decide

/-- **The verdict of `itchlisten`.** The datagrams come in any order, some of them
    not at all, and no messages twice. A listener that has seen the end of the
    session and no gap has heard every message, and models the books. -/
theorem Listening.run_broadcast {evs : List MarketEvent} {books : Symbol → PriorityBook}
    (hcarried : List.Forall₂ Carried fs.flatten evs) (hwire : ∀ m ∈ evs, OnWire m)
    (htape : Tape evs books)
    (hbound : evs.length + 1 < 2 ^ 64) (hread : ∀ i, Readable (frameAt fs i)) {order : List Nat}
    (hmem : ∀ i ∈ order, i ≤ fs.length)
    (hsmall : ∀ i ∈ order, (datagramAt (broadcast session fs) i).length ≤ recvSize)
    (honce : (order.filter (fun i => Carries (datagramAt (broadcast session fs) i))).Nodup)
    {recvs : List Recv} (hnet : recvs.filterMap Recv.datagram? =
      order.map (datagramAt (broadcast session fs))) :
    ∃ l, run {} recvs = some l ∧ (∃ ps, ItchBookBuilder.onMoldPackets {} ps = some l.builder) ∧
      (l.eos = true → l.exitCode = 0 →
        Models l.builder books ∧ l.builder.messageCount = UInt64.ofNat evs.length) ∧
      (Recv.stop ∉ recvs → order = List.range (fs.length + 1) → l.eos = true ∧ l.exitCode = 0) := by
  have hdefined : ∀ order' : List Nat, order' <+: order → _ := fun order' hpart =>
    onMoldPackets_defined session hcarried (fun i hi => hmem i (hpart.subset hi))
      (fun i _ => hread i)
  obtain ⟨part, b, eos, hpart, hb, hrun, heos, hall⟩ := run_spec (l := {}) rfl recvs
    (fun d hd => by
      rw [hnet] at hd
      obtain ⟨i, hi, rfl⟩ := List.mem_map.mp hd
      exact ⟨datagramAt_ne_nil session (hmem i hi), hsmall i hi⟩)
    (fun part hpart => by
      rw [hnet] at hpart
      obtain ⟨order', hpart', rfl⟩ := List.prefix_map_iff.mp hpart
      obtain ⟨b, -, hb⟩ := hdefined order' hpart'
      exact ⟨_, hb⟩)
  rw [hnet] at hpart hall
  obtain ⟨order', hpart', rfl⟩ := List.prefix_map_iff.mp hpart
  obtain ⟨b', hb', hgaps⟩ := hdefined order' hpart'
  cases hb.symm.trans hgaps
  refine ⟨_, hrun, ⟨_, hb⟩, fun hend hzero => ?_, fun hstop horder => ?_⟩
  · -- the last datagram heard is the end of the session
    obtain ⟨d, hlast, hd⟩ := heos.mp hend
    obtain ⟨front, hfront⟩ := List.getLast?_eq_some_iff.mp hlast
    obtain ⟨front, last, rfl, rfl, hlast⟩ := List.map_eq_append_iff.mp hfront
    obtain ⟨i, rfl, rfl⟩ := List.map_eq_singleton_iff.mp hlast
    rw [ends_broadcast session (hmem i (hpart'.subset (by simp))) (hread i)] at hd
    subst hd
    obtain ⟨b, hb', hshown⟩ := heard_once session hcarried hwire htape hbound
      (fun i hi => hmem i (hpart'.subset (by simp [hi]))) (fun i _ => hread i)
      (honce.sublist (((List.prefix_append _ _).trans hpart').sublist.filter _))
    cases hb.symm.trans hb'
    exact hshown (exitCode_eq_zero.mp hzero)
  · subst horder
    obtain ⟨n, hn, rfl⟩ : ∃ n ≤ fs.length + 1, order' = List.range n :=
      ⟨_, Nat.min_le_right _ _, (List.prefix_iff_eq_take.mp hpart').trans List.take_range⟩
    refine ⟨?_, exitCode_eq_zero.mpr (run_in_order session hn (fun i _ => hread i)).1⟩
    by_contra hopen
    have heverything := hall hstop (Bool.not_eq_true _ ▸ hopen)
    apply hopen
    rw [heos, heverything, List.range_succ, List.map_append]
    exact ⟨_, List.getLast?_concat, (ends_broadcast session (Nat.le_refl _) (hread _)).mpr rfl⟩

/-- A ladder of prices without a sign is printed. -/
theorem ladder_of_inRange {snap : BookSnapshot} (hbids : ∀ l ∈ snap.bids, PriceInRange l.price)
    (hasks : ∀ l ∈ snap.asks, PriceInRange l.price) : ∃ rows, ladder snap = some rows := by
  suffices hrows : ∀ n row, ∃ rows, printLadder snap n row = some rows from hrows 8 0
  intro n
  induction n with
  | zero => exact fun row => ⟨[], rfl⟩
  | succ n ih =>
    intro row
    obtain ⟨bid, hbid⟩ := drawCell_of_inRange hbids row
    obtain ⟨ask, hask⟩ := drawCell_of_inRange hasks row
    obtain ⟨rows, hrows⟩ := ih (row + 1)
    simp only [printLadder, ladderCell, hbid, hask, hrows, Option.map_some, Option.bind_eq_bind,
      Option.bind_some]
    split <;> exact ⟨_, rfl⟩

/-- A builder that models books and got its messages from the wire prints them. -/
theorem Models.ladder {b : ItchBookBuilder} {books : Symbol → PriorityBook} (h : Models b books)
    (hp : Priced b) (symbol : Symbol) :
    ∃ rows, (b.snapshot symbol).bind Client.ladder = some rows := by
  have hlevels : ∀ side, ∀ l ∈ shownLevels b symbol side, PriceInRange l.price := by
    intro side l hl
    obtain ⟨e, he, rfl⟩ := List.mem_map.mp hl
    exact inRange_of_listed (h.recorded symbol) hp he
  rw [snapshot_of_recorded (h.recorded symbol), Option.bind_some]
  exact ladder_of_inRange (hlevels .buy) (hlevels .sell)

end broadcast

/-! ## Section 2: itchreplay -/

def typeName : Itch.Message → List UInt8
  | .systemEvent _ => text "SystemEvent"
  | .stockDirectory _ => text "StockDirectory"
  | .tradingAction _ => text "TradingAction"
  | .addOrder _ => text "AddOrder"
  | .addOrderMpid _ => text "AddOrderMpid"
  | .orderExecuted _ => text "OrderExecuted"
  | .orderExecutedWithPrice _ => text "OrderExecutedWithPrice"
  | .orderCancel _ => text "OrderCancel"
  | .orderDelete _ => text "OrderDelete"
  | .orderReplace _ => text "OrderReplace"
  | .trade _ => text "Trade"

/-- A line of `dump`. A message that cannot be decoded has no name. -/
inductive DumpLine where
  | unparseable (tsNs : UInt64) (size : Nat)
  | endOfSession (tsNs seq : UInt64)
  | packet (tsNs seq : UInt64) (count : Nat) (names : List (Option (List UInt8)))
  deriving DecidableEq

def DumpLine.names : DumpLine → List (Option (List UInt8))
  | .packet _ _ _ names => names
  | _ => []

/-- The sequence number that a line shows. -/
def DumpLine.seq? : DumpLine → Option UInt64
  | .unparseable _ _ => none
  | .endOfSession _ seq => some seq
  | .packet _ seq _ _ => some seq

structure Dump where
  lines : List DumpLine := []
  packets : UInt64 := 0
  messages : UInt64 := 0
  deriving DecidableEq

/-- The body of the loop in `dump`. -/
def Dump.onRecord (d : Dump) (rec : CaptureRecord) : Option Dump := do
  match ← Mold.parse rec.bytes with
  | none => some { d with lines := d.lines ++ [.unparseable rec.tsNs rec.bytes.length] }
  | some pkt =>
    if pkt.endOfSession then
      some { d with lines := d.lines ++ [.endOfSession rec.tsNs pkt.seq], packets := d.packets + 1 }
    else do
      let names ← pkt.messages.mapM (fun bytes => (Itch.decode bytes).map (Option.map typeName))
      some
        { lines := d.lines ++ [.packet rec.tsNs pkt.seq pkt.messages.length names]
          packets := d.packets + 1
          messages := d.messages + UInt64.ofNat pkt.messages.length }

/-- `dump`. The inner `none` is a file that cannot be opened. -/
def dump (file : Option (List UInt8)) : Option (Option Dump) :=
  let r := CaptureReader.new file
  if r.ok then (r.readAll.1.foldlM Dump.onRecord {}).map some else some none

/-- The datagrams that `replay` sends. -/
def replay (file : Option (List UInt8)) : Option (List Datagram) :=
  let r := CaptureReader.new file
  if r.ok then some (r.readAll.1.map CaptureRecord.bytes) else none

/-- What is printed for the message of an event. -/
def eventName (ev : MarketEvent) : List UInt8 := typeName (itchMessage ev 0)

theorem typeName_onWire (ev : MarketEvent) (locate : UInt16) :
    typeName (itchMessage ev locate).onWire = eventName ev := by
  rcases ev with ⟨ts, symbol, e | e | ⟨id, qty, removed⟩ | e⟩
  · rfl
  · rfl
  · cases removed <;> rfl
  · rfl

/-- What is printed for a payload. -/
def nameOf (bytes : Payload) : Option (List UInt8) := (Itch.decode bytes).join.map typeName

/-- The names of payloads that stand for events. -/
theorem nameOf_carried {ms : List Payload} {evs : List MarketEvent}
    (h : List.Forall₂ Carried ms evs) :
    ms.map nameOf = evs.map (fun ev => some (eventName ev)) := by
  induction h with
  | nil => rfl
  | cons hm _ ih =>
    obtain ⟨-, locate, hdecode⟩ := hm
    rw [List.map_cons, List.map_cons, ih, nameOf, hdecode, ← typeName_onWire _ locate]
    rfl

section broadcast

variable {session : Session} {fs : List (List Payload)}

/-- The line for the packet at position `i`. -/
def packetLine (clock : Nat → UInt64) (fs : List (List Payload)) (i : Nat) : DumpLine :=
  .packet (clock i) (seqAt (offset fs i)) (frameAt fs i).length ((frameAt fs i).map nameOf)

/-- The record of the datagram at position `i`. -/
def recordAt (clock : Nat → UInt64) (ds : List Datagram) (i : Nat) : CaptureRecord :=
  ⟨clock i, datagramAt ds i⟩

theorem recorded_eq (clock : Nat → UInt64) (ds : List Datagram) :
    recorded clock ds = (List.range ds.length).map (recordAt clock ds) := by
  apply List.ext_getElem
  · simp [recorded]
  · intro i hi _
    have hlength : i < ds.length := by simpa [recorded] using hi
    simp [recorded, recordAt, datagramAt, List.getElem?_eq_getElem hlength]

/-- **Run lemma.** The packets of a session, one line each. -/
theorem onRecords_frames (clock : Nat → UInt64) {evs : List MarketEvent}
    (hcarried : List.Forall₂ Carried fs.flatten evs) (hread : ∀ i, Readable (frameAt fs i))
    {n : Nat} (hn : n ≤ fs.length) :
    ((List.range n).map (recordAt clock (broadcast session fs))).foldlM Dump.onRecord {} =
      some ⟨(List.range n).map (packetLine clock fs), UInt64.ofNat n,
        UInt64.ofNat (offset fs n)⟩ := by
  induction n with
  | zero => rfl
  | succ n ih =>
    have hframe : (frameAt fs n).mapM (fun bytes => (Itch.decode bytes).map (Option.map typeName)) =
        some ((frameAt fs n).map nameOf) := by
      apply Machine.mapM_some
      intro m hm
      obtain ⟨k, hk, rfl⟩ := List.mem_iff_getElem.mp (mem_flatten_of_mem_frameAt hm)
      obtain ⟨-, locate, hdecode⟩ := hcarried.get hk (by rw [← hcarried.length_eq]; exact hk)
      rw [nameOf, show Itch.decode fs.flatten[k] = _ from hdecode]
      rfl
    have hparse : Mold.parse (datagramAt (broadcast session fs) n) =
        some (some ⟨session, seqAt (offset fs n), false, frameAt fs n⟩) := by
      rw [datagramAt_broadcast session (by omega), if_pos (Nat.lt_of_succ_le hn)]
      exact parse_packet session _ (hread n).1 (hread n).2
    rw [List.range_succ, List.map_append, List.foldlM_append, ih (by omega), offset_succ]
    simp [Dump.onRecord, recordAt, hparse, hframe, packetLine]

/-- The lines of a session. -/
def sessionLines (clock : Nat → UInt64) (fs : List (List Payload)) : List DumpLine :=
  (List.range fs.length).map (packetLine clock fs) ++
    [.endOfSession (clock fs.length) (seqAt fs.flatten.length)]

/-- What `dump` prints for the capture of a session. -/
theorem dump_broadcast (clock : Nat → UInt64) {evs : List MarketEvent}
    (hcarried : List.Forall₂ Carried fs.flatten evs) (hread : ∀ i, Readable (frameAt fs i)) :
    (recorded clock (broadcast session fs)).foldlM Dump.onRecord {} =
      some ⟨sessionLines clock fs, UInt64.ofNat (fs.length + 1),
        UInt64.ofNat fs.flatten.length⟩ := by
  have hlast : Mold.parse (datagramAt (broadcast session fs) fs.length) =
      some (some ⟨session, seqAt (offset fs fs.length), true, []⟩) := by
    rw [datagramAt_broadcast session (Nat.le_refl _), if_neg (Nat.lt_irrefl _)]
    exact parse_endOfSession _ _
  rw [recorded_eq, length_broadcast, List.range_succ, List.map_append, List.foldlM_append,
    onRecords_frames clock hcarried hread (Nat.le_refl _)]
  simp [Dump.onRecord, recordAt, hlast, offset_length, sessionLines]

theorem names_sessionLines (clock : Nat → UInt64) (fs : List (List Payload)) {n : Nat}
    (hn : n ≤ fs.length) :
    ((sessionLines clock fs).take n).flatMap DumpLine.names = (fs.take n).flatten.map nameOf := by
  have htake : (sessionLines clock fs).take n = (List.range n).map (packetLine clock fs) := by
    rw [sessionLines, List.take_append_of_le_length (by simpa using hn), ← List.map_take,
      List.take_range, Nat.min_eq_left hn]
  rw [htake, ← range_flatMap_frameAt, List.flatMap_map, List.map_flatMap]
  rfl

/-- Every line shows the number of the message that comes next. -/
theorem seq_sessionLines (clock : Nat → UInt64) {i : Nat}
    (hi : i < (sessionLines clock fs).length) : (sessionLines clock fs)[i].seq? =
      some (seqAt (((sessionLines clock fs).take i).flatMap DumpLine.names).length) := by
  have hlength : (sessionLines clock fs).length = fs.length + 1 := by simp [sessionLines]
  rw [names_sessionLines clock fs (by omega), List.length_map]
  rcases Nat.lt_or_ge i fs.length with hlt | hge
  · simp [sessionLines, hlt, packetLine, DumpLine.seq?, offset]
  · obtain rfl : i = fs.length := by omega
    simp [sessionLines, DumpLine.seq?]

end broadcast

end Client

end MatchingEngine
