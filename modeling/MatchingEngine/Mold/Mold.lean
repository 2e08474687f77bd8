import MatchingEngine.Common.Endian
import Mathlib.Data.List.Basic

/-! # MoldUDP64

    `mold/mold.cpp`: the packetizer, the parser and the gap detector of the
    market data feed.

    What goes over the wire is a list of frames, each a list of messages,
    `stamped` with sequence numbers one after the other. A heartbeat is the
    packet of an empty frame. The parser and the detector are studied on stamped
    frames, and the packetizer is shown to produce them.
-/

namespace MatchingEngine

namespace Mold

open Bytes (chars slice)

/-! ## Section 1: Packets -/

abbrev Session := Vector UInt8 10

abbrev Payload := List UInt8

abbrev Datagram := List UInt8

def kHeaderSize : Nat := 20

def kEndOfSessionCount : UInt16 := 0xFFFF

/-- Session at 0, sequence number at 10, message count at 18. -/
def makeHeader (session : Session) (seq : UInt64) (count : UInt16) : Datagram :=
  session.toList ++ putBe64 seq ++ putBe16 count

structure DownstreamPacket where
  session : Session
  seq : UInt64
  endOfSession : Bool
  messages : List Payload
  deriving DecidableEq

/-- The loop over the blocks from `pos` on. Gives the messages and the position
    behind the last one. The outer `none` is a read outside the datagram, the
    inner one the `std::nullopt` of the source. -/
def parseBlocks (p : Datagram) : Nat → Nat → Option (Option (List Payload × Nat))
  | 0, pos => some (some ([], pos))
  | count + 1, pos =>
    if pos + 2 > p.length then some none
    else do
      let len ← getBe16 p pos
      if pos + 2 + len.toNat > p.length then some none
      else do
        let message ← slice p (pos + 2) len.toNat
        let rest ← parseBlocks p count (pos + 2 + len.toNat)
        some (rest.map (fun r => (message :: r.1, r.2)))

def parse (p : Datagram) : Option (Option DownstreamPacket) :=
  if p.length < kHeaderSize then some none
  else do
    let session ← chars 10 p 0
    let seq ← getBe64 p 10
    let count ← getBe16 p 18
    let blocks ←
      if count = kEndOfSessionCount then some (some ([], kHeaderSize))
      else parseBlocks p count.toNat kHeaderSize
    match blocks with
    | none => some none
    | some (messages, pos) =>
      -- trailing garbage
      if pos ≠ p.length then some none
      else some (some ⟨session, seq, decide (count = kEndOfSessionCount), messages⟩)

/-! ## Section 2: The packetizer -/

structure Packetizer where
  session : Session
  mtu : Nat
  nextSeq : UInt64 := 1
  current : List UInt8 := []
  currentCount : UInt16 := 0
  ready : List Datagram := []
  deriving DecidableEq

namespace Packetizer

def beginPacket (p : Packetizer) : Packetizer :=
  { p with current := makeHeader p.session p.nextSeq 0, currentCount := 0 }

/-- The count is written over the two bytes at 18. -/
def flush (p : Packetizer) : Packetizer :=
  if p.current.isEmpty then p
  else { p with
    ready := p.ready ++ [p.current.take 18 ++ putBe16 p.currentCount ++ p.current.drop 20]
    current := []
    currentCount := 0 }

/-- A message behind its length. -/
def block (m : Payload) : List UInt8 := putBe16 (UInt16.ofNat m.length) ++ m

def append (p : Packetizer) (m : Payload) : Packetizer :=
  { p with
    current := p.current ++ block m
    currentCount := p.currentCount + 1
    nextSeq := p.nextSeq + 1 }

def addMessage (p : Packetizer) (m : Payload) : Packetizer :=
  let p := if !p.current.isEmpty && p.current.length + (2 + m.length) > p.mtu then p.flush else p
  let p := if p.current.isEmpty then p.beginPacket else p
  p.append m

/-- The packets handed out, and the packetizer without them. -/
def takePackets (p : Packetizer) : List Datagram × Packetizer :=
  (p.ready, { p with ready := [] })

def heartbeat (p : Packetizer) : Datagram := makeHeader p.session p.nextSeq 0

def endOfSession (p : Packetizer) : Datagram := makeHeader p.session p.nextSeq kEndOfSessionCount

end Packetizer

/-! ## Section 3: The gap detector -/

structure GapDetector where
  expected : UInt64 := 1
  hadGap : Bool := false
  deriving DecidableEq

namespace GapDetector

/-- The detector after a packet, and whether the packet came after a gap. -/
def onPacket (d : GapDetector) (seq : UInt64) (messageCount : Nat) : GapDetector × Bool :=
  let gap := decide (seq > d.expected)
  let after := seq + UInt64.ofNat messageCount
  let expected := if messageCount > 0 ∧ after > d.expected then after else d.expected
  let expected := if gap ∧ messageCount = 0 ∧ seq > expected then seq else expected
  (⟨expected, d.hadGap || gap⟩, gap)

end GapDetector

/-! ## Section 4: Stamped packets -/

/-- The packet that carries the messages of a frame. -/
def packet (session : Session) (seq : UInt64) (f : List Payload) : Datagram :=
  makeHeader session seq (UInt16.ofNat f.length) ++ f.flatMap Packetizer.block

def frameLength (f : List Payload) : Nat := kHeaderSize + (f.flatMap Packetizer.block).length

/-- The sequence number of the next message when `n` messages went before. -/
def seqAt (n : Nat) : UInt64 := UInt64.ofNat (n + 1)

/-- The packets of frames, when `n` messages went before them. -/
def stamped (session : Session) : Nat → List (List Payload) → List Datagram
  | _, [] => []
  | n, f :: fs => packet session (seqAt n) f :: stamped session (n + f.length) fs

theorem seqAt_add (n k : Nat) : seqAt n + UInt64.ofNat k = seqAt (n + k) := by
  rw [seqAt, seqAt, Nat.add_right_comm, UInt64.ofNat_add (n + 1)]

theorem stamped_append (session : Session) (n : Nat) (fs gs : List (List Payload)) :
    stamped session n (fs ++ gs) =
      stamped session n fs ++ stamped session (n + fs.flatten.length) gs := by
  induction fs generalizing n with
  | nil => rfl
  | cons f fs ih =>
    rw [List.cons_append, stamped, stamped, ih, List.flatten_cons, List.length_append,
      Nat.add_assoc]
    rfl

@[simp] theorem length_makeHeader (session : Session) (seq : UInt64) (count : UInt16) :
    (makeHeader session seq count).length = kHeaderSize := by
  simp [makeHeader, kHeaderSize]

@[simp] theorem length_block (m : Payload) : (Packetizer.block m).length = 2 + m.length := by
  simp [Packetizer.block]

@[simp] theorem length_packet (session : Session) (seq : UInt64) (f : List Payload) :
    (packet session seq f).length = frameLength f := by
  rw [packet, List.length_append, length_makeHeader, frameLength]

/-- A block has at least its two length bytes. -/
theorem two_mul_length_le (f : List Payload) :
    2 * f.length ≤ (f.flatMap Packetizer.block).length := by
  induction f with
  | nil => exact Nat.le_refl _
  | cons m f ih =>
    rw [List.flatMap_cons, List.length_append, length_block, List.length_cons]
    omega

theorem length_le_of_mem {f : List Payload} {m : Payload} (h : m ∈ f) :
    m.length ≤ (f.flatMap Packetizer.block).length := by
  induction f with
  | nil => cases h
  | cons m' f ih =>
    rw [List.flatMap_cons, List.length_append, length_block]
    rcases List.mem_cons.mp h with rfl | h
    · omega
    · have := ih h
      omega

/-! ## Section 5: The detector on datagrams -/

namespace GapDetector

/-- A datagram is parsed and its sequence number checked. -/
def onDatagram (d : GapDetector) (p : Datagram) : GapDetector × Bool :=
  match parse p with
  | some (some pkt) => d.onPacket pkt.seq pkt.messages.length
  | _ => (d, false)

/-- What `on_packet` returns for datagrams delivered one after the other. -/
def reports (d : GapDetector) : List Datagram → List Bool
  | [] => []
  | p :: ps => (d.onDatagram p).2 :: reports (d.onDatagram p).1 ps

/-- A packet that does not start behind the expected number reports no gap, and
    the number behind its last message is not ahead afterwards. The comparison is
    that of 64-bit numbers, so this holds when the numbers wrap, too. -/
theorem onPacket_of_le {d : GapDetector} {seq : UInt64} (k : Nat) (h : seq ≤ d.expected) :
    (d.onPacket seq k).2 = false ∧ seq + UInt64.ofNat k ≤ (d.onPacket seq k).1.expected := by
  have hgap : decide (seq > d.expected) = false := decide_eq_false (UInt64.not_lt.mpr h)
  refine ⟨hgap, ?_⟩
  simp only [onPacket, hgap, Bool.false_eq_true, false_and, if_false]
  split
  · exact UInt64.le_refl _
  · rename_i hstay
    by_cases hk : k = 0
    · subst hk
      simpa using h
    · exact UInt64.not_lt.mp (fun hlt => hstay ⟨Nat.pos_of_ne_zero hk, hlt⟩)

end GapDetector

/-- A frame that `parse` accepts. -/
def Readable (f : List Payload) : Prop := f.length < 65535 ∧ ∀ m ∈ f, m.length < 2 ^ 16

end Mold

end MatchingEngine
