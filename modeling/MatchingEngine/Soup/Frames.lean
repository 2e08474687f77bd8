import MatchingEngine.Soup.Session

/-! # Packets through a frame parser

    A frame parser gets a stream in pieces (`push`) and is asked for packets
    (`next`), in any order of calls. At every point the bytes pushed so far are
    those of the packets given out and the unread ones (`run_spec`).

    * The packets that `append_packet` writes come out again, each as soon as it
      is complete (`packets_come_out`).
    * Bytes that are not a whole packet are the beginning of one, unless their
      length field is 0 (`parser_goes_on_iff`). `next` then gives nothing for
      ever, and the session ignores all that arrives.
-/

namespace MatchingEngine

namespace Soup

/-! ## Section 1: Packets on the wire -/

/-- `append_packet`. -/
def Packet.bytes (pkt : Packet) : List UInt8 := packet pkt.type pkt.payload

/-- The length fits into its 16 bits. -/
def Packet.Fits (pkt : Packet) : Prop := pkt.payload.length ≤ 65534

/-- The frames of a stream are what `append_packet` writes. -/
theorem framing_encodes : framing.Encodes Packet.Fits Packet.bytes := by
  intro xs pkt ys
  show splitPacket xs = _ ↔ _
  rw [splitPacket_eq_some, Packet.Fits, Packet.bytes, packet]
  constructor
  · rintro ⟨high, low, rfl, hlen⟩
    have hhigh : high.toNat < 256 := high.toNat_lt
    have hlow : low.toNat < 256 := low.toNat_lt
    have hpair : putBe16 (UInt16.ofNat (pkt.payload.length + 1)) = [high, low] := by
      apply putBe16_eq_pair.mpr
      omega
    rw [hpair]
    exact ⟨by omega, rfl⟩
  · rintro ⟨hfits, rfl⟩
    obtain ⟨high, low, hpair⟩ :=
      List.length_eq_two.mp (length_putBe16 (UInt16.ofNat (pkt.payload.length + 1)))
    refine ⟨high, low, by rw [hpair]; rfl, ?_⟩
    have hvalue := putBe16_eq_pair.mp hpair
    omega

/-! ## Section 2: Calls of a parser -/

inductive ParserCall where
  | push (data : List UInt8)
  | next

def ParserCall.data : ParserCall → List UInt8
  | .push data => data
  | .next => []

/-- All the bytes that were pushed. -/
def pushed (calls : List ParserCall) : List UInt8 := calls.flatMap ParserCall.data

namespace FrameParser

/-- The parser after a call, and the packet it gave out. -/
def call (q : FrameParser) : ParserCall → FrameParser × List Packet
  | .push data => (q.push data, [])
  | .next => (q.next.2, q.next.1.toList)

def run : FrameParser → List ParserCall → FrameParser × List Packet
  | q, [] => (q, [])
  | q, c :: calls => ((run (q.call c).1 calls).1, (q.call c).2 ++ (run (q.call c).1 calls).2)

/-- `next` takes the first packet off the unread bytes. -/
theorem reads : framing.Reads rest next where
  of_some {q pkt ys} h := by
    obtain ⟨q', hnext, hrest⟩ := q.next_of_some h
    rw [hnext]
    exact ⟨rfl, hrest⟩
  of_none {q} h := by rw [q.next_of_none h]

theorem next_fst (q : FrameParser) : q.next.1 = (framing.frames q.rest).head? := by
  cases hsplit : framing.split q.rest with
  | none =>
    rw [reads.of_none hsplit, Framing.frames_of_none hsplit]
    rfl
  | some r =>
    rw [(reads.of_some hsplit).1, Framing.frames_of_some hsplit]
    rfl

/-- No byte is lost or made up. -/
theorem run_spec (q : FrameParser) (calls : List ParserCall) :
    (∀ pkt ∈ (q.run calls).2, pkt.Fits) ∧
      (q.run calls).2.flatMap Packet.bytes ++ (q.run calls).1.rest = q.rest ++ pushed calls := by
  induction calls generalizing q with
  | nil => simp [run, pushed]
  | cons c calls ih =>
    have hstep : (∀ pkt ∈ (q.call c).2, pkt.Fits) ∧
        (q.call c).2.flatMap Packet.bytes ++ (q.call c).1.rest = q.rest ++ c.data := by
      cases c with
      | push data => simp [call, ParserCall.data]
      | next =>
        show (∀ pkt ∈ q.next.1.toList, pkt.Fits) ∧
          q.next.1.toList.flatMap Packet.bytes ++ q.next.2.rest = q.rest ++ []
        rw [List.append_nil]
        cases hsplit : framing.split q.rest with
        | none => simp [q.next_of_none hsplit]
        | some r =>
          obtain ⟨pkt, ys⟩ := r
          obtain ⟨hfits, hrest⟩ := (framing_encodes _ _ _).mp hsplit
          obtain ⟨hnext, hys⟩ := reads.of_some hsplit
          rw [hnext, hys, hrest]
          simp [hfits]
    obtain ⟨hfits, hbytes⟩ := ih (q.call c).1
    constructor
    · intro pkt hpkt
      rcases List.mem_append.mp hpkt with hpkt | hpkt
      · exact hstep.1 pkt hpkt
      · exact hfits pkt hpkt
    · show ((q.call c).2 ++ _).flatMap Packet.bytes ++ _ = q.rest ++ (c.data ++ pushed calls)
      rw [List.flatMap_append, List.append_assoc]
      show _ ++ (((q.call c).1.run calls).2.flatMap Packet.bytes ++
        ((q.call c).1.run calls).1.rest) = _
      rw [hbytes, ← List.append_assoc, hstep.2, List.append_assoc]

end FrameParser

/-! ## Section 3: What is written comes out -/

/-- The packets given out, then those still unread, are the frames of all that was
    pushed. -/
theorem frames_pushed (calls : List ParserCall) :
    framing.frames (pushed calls) =
      (({} : FrameParser).run calls).2 ++ framing.frames (({} : FrameParser).run calls).1.rest := by
  obtain ⟨hfits, hbytes⟩ := FrameParser.run_spec {} calls
  have hstart : ({} : FrameParser).rest = [] := rfl
  rw [hstart, List.nil_append] at hbytes
  rw [← hbytes, framing_encodes.frames_flatMap hfits]

/-- **Framing round trip.** For every list of packets and every way to push their
    bytes, or a front part of them, with `next` called in between:

    - the packets given out are the first ones of the list, in order;
    - `next` gives the following packet exactly when its last byte was pushed;
    - when `next` gives nothing, the packets given out are those complete in what
      was pushed, and all of them when everything was pushed. -/
theorem packets_come_out (pkts : List Packet) (hfits : ∀ pkt ∈ pkts, pkt.Fits)
    (calls : List ParserCall) (hpushed : pushed calls <+: pkts.flatMap Packet.bytes) :
    let q := (({} : FrameParser).run calls).1
    let returned := (({} : FrameParser).run calls).2
    returned = pkts.take returned.length ∧
    (∀ pkt, q.next.1 = some pkt ↔ pkts[returned.length]? = some pkt ∧
      ((pkts.take (returned.length + 1)).flatMap Packet.bytes).length ≤ (pushed calls).length) ∧
    (q.next.1 = none → returned = Framing.whole Packet.bytes (pushed calls).length pkts ∧
      (pushed calls = pkts.flatMap Packet.bytes → returned = pkts)) := by
  intro q returned
  have hwhole : returned ++ framing.frames q.rest =
      Framing.whole Packet.bytes (pushed calls).length pkts := by
    rw [← frames_pushed, framing_encodes.frames_of_isPrefix hfits hpushed]
  have hfront : Framing.whole Packet.bytes (pushed calls).length pkts <+: pkts :=
    Framing.whole_isPrefix _ _
  -- what `next` gives is the packet behind those given out
  have hnext : q.next.1 =
      (Framing.whole Packet.bytes (pushed calls).length pkts)[returned.length]? := by
    rw [q.next_fst, ← hwhole, List.getElem?_append_right (Nat.le_refl _), Nat.sub_self,
      List.head?_eq_getElem?]
  have hat : ∀ k, k < (Framing.whole Packet.bytes (pushed calls).length pkts).length →
      (Framing.whole Packet.bytes (pushed calls).length pkts)[k]? = pkts[k]? := by
    intro k hk
    obtain ⟨t, ht⟩ := hfront
    conv => rhs; rw [← ht]
    exact (List.getElem?_append_left hk).symm
  refine ⟨?_, ?_, ?_⟩
  · apply List.prefix_iff_eq_take.mp
    exact (hwhole ▸ List.prefix_append _ _).trans hfront
  · intro pkt
    rw [hnext]
    constructor
    · intro hpkt
      obtain ⟨hlt, -⟩ := List.getElem?_eq_some_iff.mp hpkt
      exact ⟨(hat _ hlt).symm.trans hpkt, (Framing.lt_length_whole_iff.mp hlt).2⟩
    · rintro ⟨hpkt, hbytes⟩
      obtain ⟨hlt, -⟩ := List.getElem?_eq_some_iff.mp hpkt
      exact (hat _ (Framing.lt_length_whole_iff.mpr ⟨hlt, hbytes⟩)).trans hpkt
  · intro hnone
    rw [q.next_fst, List.head?_eq_none_iff] at hnone
    rw [hnone, List.append_nil] at hwhole
    refine ⟨hwhole, ?_⟩
    intro hall
    rw [hwhole, hall, Framing.whole_flatMap]

/-- Two packets in two pieces. The first comes out between the pushes. -/
def piecewise : List ParserCall := [.push [0, 2, 83, 7, 0], .next, .next, .push [1, 72], .next]

theorem packets_come_out_piecewise :
    (({} : FrameParser).run piecewise).2 = [⟨ch 'S', [7]⟩, ⟨ch 'H', []⟩] := by
  have h := packets_come_out [⟨ch 'S', [7]⟩, ⟨ch 'H', []⟩] (by simp [Packet.Fits]) piecewise
    (by decide)
  exact (h.2.2 (by decide)).2 (by decide)

/-! ## Section 4: Bytes that never become a packet -/

/-- A length field and fewer bytes behind it than it says can be completed. -/
theorem exists_completion (high low : UInt8) (body : List UInt8)
    (hshort : body.length < high.toNat * 256 + low.toNat) :
    ∃ (data : List UInt8) (pkt : Packet), data ≠ [] ∧ pkt.Fits ∧ high :: low :: body ++ data =
      pkt.bytes := by
  have hhigh : high.toNat < 256 := high.toNat_lt
  have hlow : low.toNat < 256 := low.toNat_lt
  -- zeros make the body as long as the field says
  let data : List UInt8 := List.replicate (high.toNat * 256 + low.toNat - body.length) 0
  have hlength : (body ++ data).length = high.toNat * 256 + low.toNat := by
    rw [List.length_append, List.length_replicate]
    omega
  obtain ⟨type, payload, hfull⟩ : ∃ type payload, body ++ data = type :: payload := by
    apply List.exists_cons_of_length_pos
    omega
  rw [hfull, List.length_cons] at hlength
  have hpair : putBe16 (UInt16.ofNat (payload.length + 1)) = [high, low] := by
    apply putBe16_eq_pair.mpr
    omega
  refine ⟨data, ⟨type, payload⟩, ?_, ?_, ?_⟩
  · intro hnil
    have hzero := congrArg List.length hnil
    rw [List.length_replicate, List.length_nil] at hzero
    omega
  · show payload.length ≤ 65534
    omega
  · rw [List.cons_append, List.cons_append, hfull, Packet.bytes, packet, hpair]
    rfl

/-- A length of 0 is never completed. -/
theorem split_zero {xs : List UInt8} (h : [0, 0] <+: xs) : framing.split xs = none := by
  obtain ⟨body, rfl⟩ := h
  show splitPacket (0 :: 0 :: body) = none
  cases body with
  | nil => rfl
  | cons type body => simp [splitPacket]

/-- Bytes that are no packet yet are the beginning of one, unless they start with
    a length of 0. -/
theorem completable_iff {xs : List UInt8} (h : framing.split xs = none) :
    (∃ (data : List UInt8) (pkt : Packet), data ≠ [] ∧ pkt.Fits ∧ xs ++ data = pkt.bytes) ↔
      ¬ [0, 0] <+: xs := by
  constructor
  · rintro ⟨data, pkt, -, hfits, hbytes⟩ hzero
    have hsplit : framing.split pkt.bytes = some (pkt, []) :=
      (framing_encodes _ _ _).mpr ⟨hfits, (List.append_nil _).symm⟩
    rw [← hbytes, split_zero (hzero.trans (List.prefix_append xs data))] at hsplit
    cases hsplit
  · intro hzero
    match xs with
    | [] =>
      obtain ⟨data, pkt, -, hfits, hbytes⟩ := exists_completion 0 1 [] (by decide)
      exact ⟨0 :: 1 :: data, pkt, by simp, hfits, hbytes⟩
    | [high] =>
      obtain ⟨data, pkt, -, hfits, hbytes⟩ := exists_completion high 1 []
        (show 0 < high.toNat * 256 + 1 from Nat.succ_pos _)
      exact ⟨1 :: data, pkt, by simp, hfits, hbytes⟩
    | high :: low :: body =>
      apply exists_completion
      -- otherwise the bytes hold a packet, or their length is 0
      by_contra hwhole
      have hpositive : high.toNat * 256 + low.toNat ≠ 0 := by
        intro hlen
        have hhigh : high = 0 := UInt8.toNat_inj.mp (show high.toNat = 0 by omega)
        have hlow : low = 0 := UInt8.toNat_inj.mp (show low.toNat = 0 by omega)
        exact hzero ⟨body, by rw [hhigh, hlow]; rfl⟩
      have hnone : splitPacket (high :: low :: body) = none := h
      cases body with
      | nil => exact hpositive (by simpa using hwhole)
      | cons type body =>
        simp only [splitPacket, ite_eq_left_iff, reduceCtorEq, imp_false, not_not] at hnone
        simp only [List.length_cons] at hwhole
        omega

/-- A parser with a length of 0 in front gives nothing, whatever is pushed. -/
theorem FrameParser.run_zero {q : FrameParser} (h : [0, 0] <+: q.rest) (calls : List ParserCall) :
    (q.run calls).2 = [] := by
  induction calls generalizing q with
  | nil => rfl
  | cons c calls ih =>
    have hstep : (q.call c).2 = [] ∧ [0, 0] <+: (q.call c).1.rest := by
      cases c with
      | push data =>
        refine ⟨rfl, ?_⟩
        show [0, 0] <+: (q.push data).rest
        rw [rest_push]
        exact h.trans (List.prefix_append _ _)
      | next =>
        unfold call
        rw [q.next_of_none (split_zero h)]
        exact ⟨rfl, h⟩
    show (q.call c).2 ++ _ = []
    rw [hstep.1, ih hstep.2]
    rfl

/-- **When a parser gets stuck.** For every sequence of calls: the unread bytes,
    when `next` gives nothing, are a proper front part of a packet and can be
    completed, exactly when they do not start with a length of 0. With a length of
    0 in front, no call gives a packet any more. -/
theorem parser_goes_on_iff (calls : List ParserCall) :
    let q := (({} : FrameParser).run calls).1
    ((q.next.1 = none →
        (∃ pkt : Packet, pkt.Fits ∧ q.rest <+: pkt.bytes ∧ q.rest ≠ pkt.bytes) ∧
        ∃ data, (q.push data).next.1.isSome) ↔ ¬ [0, 0] <+: q.rest) ∧
    ([0, 0] <+: q.rest → ∀ more, (q.run more).2 = []) := by
  intro q
  refine ⟨⟨?_, ?_⟩, ?_⟩
  · intro hgoes hzero
    obtain ⟨-, data, hdata⟩ := hgoes (FrameParser.reads.of_none (split_zero hzero))
    have hzero' : [0, 0] <+: (q.push data).rest := by
      rw [FrameParser.rest_push]
      exact hzero.trans (List.prefix_append _ _)
    rw [FrameParser.reads.of_none (split_zero hzero')] at hdata
    cases hdata
  · intro hzero hnext
    have hsplit : framing.split q.rest = none := by
      cases hsplit : framing.split q.rest with
      | none => rfl
      | some r => cases hnext.symm.trans (FrameParser.reads.of_some hsplit).1
    obtain ⟨data, pkt, hdata, hfits, hbytes⟩ := (completable_iff hsplit).mpr hzero
    constructor
    · refine ⟨pkt, hfits, hbytes ▸ List.prefix_append _ _, ?_⟩
      intro heq
      rw [← hbytes] at heq
      exact hdata (List.append_right_eq_self.mp heq.symm)
    · have hpacket : framing.split (q.push data).rest = some (pkt, []) := by
        rw [FrameParser.rest_push, hbytes]
        exact (framing_encodes _ _ _).mpr ⟨hfits, (List.append_nil _).symm⟩
      refine ⟨data, ?_⟩
      rw [(FrameParser.reads.of_some hpacket).1]
      rfl
  · intro hzero more
    exact q.run_zero hzero more

/-- Two zero bytes, and `next` gives nothing whatever follows them. -/
theorem parser_stuck :
    (({} : FrameParser).run [.push [0, 0], .next]).2 = [] ∧
      ∀ data, ((({} : FrameParser).push [0, 0]).push data).next.1 = none := by
  refine ⟨rfl, ?_⟩
  intro data
  apply FrameParser.reads.of_none
  apply split_zero
  rw [FrameParser.rest_push]
  exact List.prefix_append [0, 0] data

/-- The session of such a parser ignores what arrives, and takes it for a sign of
    life. -/
theorem ServerSession.onBytes_zero {s : ServerSession} (h : [0, 0] <+: s.parser.rest)
    (hopen : s.state ≠ .closed) (data : List UInt8) (now : UInt64) :
    s.onBytes data now = ({ s with lastRecvNs := now, parser := s.parser.push data }, none) ∧
      [0, 0] <+: (s.parser.push data).rest := by
  have hzero : [0, 0] <+: (s.parser.push data).rest := by
    rw [FrameParser.rest_push]
    exact h.trans (List.prefix_append _ _)
  refine ⟨?_, hzero⟩
  rw [onBytes, if_neg hopen]
  exact pump_of_none (split_zero hzero)

end Soup

end MatchingEngine
