import MatchingEngine.Mold.Mold

/-! # What the parser accepts

    `mold::parse` walks over blocks whose number and lengths come from the network.
    It stays inside the datagram, and it accepts exactly the datagrams that a
    header and blocks make up (`parse_exact`): nothing is missing, nothing is left
    over, and what it returns is what the datagram says.
-/

namespace MatchingEngine

namespace Mold

open Packetizer

/-! ## Section 1: Packets as they are written -/

namespace DownstreamPacket

/-- The end of a session carries no messages. Another packet has fewer messages
    than the reserved count, each of a length that fits into 16 bits. -/
def WellFormed (pkt : DownstreamPacket) : Prop :=
  if pkt.endOfSession then pkt.messages = [] else Readable pkt.messages

def count (pkt : DownstreamPacket) : UInt16 :=
  if pkt.endOfSession then kEndOfSessionCount else UInt16.ofNat pkt.messages.length

/-- Header and blocks. -/
def bytes (pkt : DownstreamPacket) : Datagram :=
  makeHeader pkt.session pkt.seq pkt.count ++ pkt.messages.flatMap block

end DownstreamPacket

/-- Only the end of a session has the reserved count. -/
theorem DownstreamPacket.WellFormed.count_eq_iff {pkt : DownstreamPacket} (h : pkt.WellFormed) :
    pkt.count = kEndOfSessionCount ↔ pkt.endOfSession = true := by
  unfold DownstreamPacket.WellFormed at h
  unfold DownstreamPacket.count
  cases hend : pkt.endOfSession with
  | true => simp
  | false =>
    rw [hend] at h
    obtain ⟨hlength, -⟩ : Readable pkt.messages := h
    apply iff_of_false
    · intro heq
      have hcount := congrArg UInt16.toNat heq
      rw [if_neg (by simp), UInt16.toNat_ofNat', Nat.mod_eq_of_lt (by omega)] at hcount
      exact absurd hcount (Nat.ne_of_lt hlength)
    · simp

theorem exists_header {p : Datagram} (h : kHeaderSize ≤ p.length) :
    ∃ session seq count body, p = makeHeader session seq count ++ body := by
  unfold kHeaderSize at h
  obtain ⟨k, hk⟩ : ∃ k, p.length = k + 2 + 8 + 10 := ⟨p.length - 20, by omega⟩
  obtain ⟨session, q₁, -, rfl, hq₁⟩ := (Bytes.covers_chars 10).front hk
  obtain ⟨seq, q₂, -, rfl, hq₂⟩ := covers_be64.front hq₁
  obtain ⟨count, q, -, rfl, -⟩ := covers_be16.front hq₂
  exact ⟨session, seq, count, q, by simp [makeHeader]⟩

theorem header_inj {session session' : Session} {seq seq' : UInt64} {count count' : UInt16}
    {body body' : Datagram}
    (h : makeHeader session seq count ++ body = makeHeader session' seq' count' ++ body') :
    session = session' ∧ seq = seq' ∧ count = count' ∧ body = body' := by
  obtain ⟨hheader, hbody⟩ := List.append_inj h (by simp)
  have hsession := congrArg (fun p => Bytes.chars 10 p 0) h
  have hseq := congrArg (fun p => getBe64 p 10) h
  have hcount := congrArg (fun p => getBe16 p 18) h
  simp [makeHeader] at hsession hseq hcount
  exact ⟨hsession, hseq, hcount, hbody⟩

/-! ## Section 2: Blocks -/

/-- Blocks of any messages. -/
def blocks : Framing UInt8 Payload := lengthPrefixes (fun _ => true)

theorem blocks_encodes : blocks.Encodes (fun m => m.length < 2 ^ 16) block := by
  intro xs m ys
  rw [blocks, lengthPrefixes_encodes]
  simp only [and_true]
  rfl

/-- The loop stops at a block that is not whole. -/
theorem parseBlocks_of_none (x : Datagram) {y : Datagram} (h : blocks.split y = none)
    (count : Nat) : parseBlocks (x ++ y) (count + 1) x.length = some none := by
  by_cases hlong : 2 ≤ y.length
  · obtain ⟨k, hk⟩ : ∃ k, y.length = k + 2 := ⟨y.length - 2, by omega⟩
    obtain ⟨v, z, -, rfl, -⟩ := covers_be16.front hk
    have hshort : z.length < v.toNat := by
      by_contra hwhole
      obtain ⟨j, hj⟩ : ∃ j, z.length = j + v.toNat := ⟨z.length - v.toNat, by omega⟩
      obtain ⟨m, w, rfl, hm, -⟩ := Bytes.exists_front v.toNat hj
      have hsplit : blocks.split (putBe16 v ++ (m ++ w)) = some (m, w) := by
        apply (blocks_encodes _ _ _).mpr
        rw [block, hm, UInt16.ofNat_toNat, List.append_assoc]
        exact ⟨hm.trans_lt v.toNat_lt, rfl⟩
      cases h.symm.trans hsplit
    have hlen : getBe16 (x ++ (putBe16 v ++ z)) x.length = some v := by simp
    rw [parseBlocks, if_neg (by rw [List.length_append]; omega), hlen]
    simp only [Option.bind_eq_bind, Option.bind_some]
    rw [if_pos]
    simp only [List.length_append, length_putBe16]
    omega
  · rw [parseBlocks, if_pos]
    rw [List.length_append]
    omega

/-- One block moves from the rest to what stands before it. -/
theorem parseBlocks_of_some (x : Datagram) {y z : Datagram} {m : Payload}
    (h : blocks.split y = some (m, z)) (count : Nat) :
    parseBlocks (x ++ y) (count + 1) x.length =
      (parseBlocks ((x ++ block m) ++ z) count (x ++ block m).length).map
        (fun r => r.map (fun r => (m :: r.1, r.2))) := by
  obtain ⟨hm, rfl⟩ := (blocks_encodes _ _ _).mp h
  have hlen : getBe16 (x ++ (block m ++ z)) x.length = some (UInt16.ofNat m.length) := by
    simp [block]
  have hslice : Bytes.slice (x ++ (block m ++ z)) (x.length + 2) m.length = some m := by
    rw [Bytes.slice_skip (by omega), block, List.append_assoc, Bytes.slice_skip (by simp)]
    simp [Bytes.slice_here]
  have hsize : (x ++ (block m ++ z)).length = x.length + 2 + m.length + z.length := by
    rw [List.length_append, List.length_append, length_block]
    omega
  rw [parseBlocks, if_neg (by omega), hlen]
  simp only [Option.bind_eq_bind, Option.bind_some, toNat_ofNat_length hm]
  rw [if_neg (by omega), hslice, ← List.append_assoc, List.length_append, length_block,
    ← Nat.add_assoc]
  show (parseBlocks _ count _).bind _ = _
  cases parseBlocks ((x ++ block m) ++ z) count (x.length + 2 + m.length) <;> rfl

/-- The loop of `parse` stays inside the datagram, and finds exactly the blocks
    that stand there. -/
theorem parseBlocks_spec (x y : Datagram) (count : Nat) :
    ∃ r, parseBlocks (x ++ y) count x.length = some r ∧
      ∀ ms pos, r = some (ms, pos) ↔ ms.length = count ∧ (∀ m ∈ ms, m.length < 2 ^ 16) ∧
        ∃ rest, y = ms.flatMap block ++ rest ∧
          pos = x.length + (ms.flatMap block).length := by
  induction count generalizing x y with
  | zero =>
    refine ⟨_, rfl, ?_⟩
    intro ms pos
    constructor
    · intro h
      cases h
      exact ⟨rfl, by simp, y, rfl, rfl⟩
    · rintro ⟨hlength, -, rest, -, rfl⟩
      rw [List.length_eq_zero_iff.mp hlength]
      rfl
  | succ count ih =>
    cases hsplit : blocks.split y with
    | none =>
      refine ⟨none, parseBlocks_of_none x hsplit count, ?_⟩
      intro ms pos
      apply iff_of_false (by simp)
      rintro ⟨hlength, hms, rest, rfl, -⟩
      obtain ⟨m, ms, rfl⟩ :=
        List.exists_cons_of_length_pos (Nat.lt_of_lt_of_eq (Nat.succ_pos _) hlength.symm)
      have hfirst : blocks.split ((m :: ms).flatMap block ++ rest) =
          some (m, ms.flatMap block ++ rest) :=
        (blocks_encodes _ _ _).mpr ⟨hms m List.mem_cons_self, by simp⟩
      cases hsplit.symm.trans hfirst
    | some r =>
      obtain ⟨m, z⟩ := r
      obtain ⟨hm, rfl⟩ := (blocks_encodes _ _ _).mp hsplit
      obtain ⟨r, hr, hspec⟩ := ih (x ++ block m) z
      refine ⟨r.map (fun r => (m :: r.1, r.2)), ?_, ?_⟩
      · rw [parseBlocks_of_some x hsplit, hr]
        rfl
      intro ms pos
      constructor
      · intro h
        obtain ⟨⟨ms', pos'⟩, hr', heq⟩ := Option.map_eq_some_iff.mp h
        cases heq
        obtain ⟨hlength, hms, rest, rfl, rfl⟩ := (hspec _ _).mp hr'
        refine ⟨by rw [List.length_cons, hlength], ?_, rest, by simp, ?_⟩
        · intro m' hm'
          rcases List.mem_cons.mp hm' with rfl | hm'
          · exact hm
          · exact hms m' hm'
        · rw [List.flatMap_cons, List.length_append, List.length_append, Nat.add_assoc]
      · rintro ⟨hlength, hms, rest, hbytes, rfl⟩
        obtain ⟨m', ms, rfl⟩ :=
          List.exists_cons_of_length_pos (Nat.lt_of_lt_of_eq (Nat.succ_pos _) hlength.symm)
        -- the first block is the one that was read
        have hfirst : blocks.split (block m ++ z) =
            some (m', ms.flatMap block ++ rest) :=
          (blocks_encodes _ _ _).mpr ⟨hms m' List.mem_cons_self, by rw [hbytes]; simp⟩
        cases hsplit.symm.trans hfirst
        apply Option.map_eq_some_iff.mpr
        refine ⟨(ms, _), (hspec _ _).mpr ⟨Nat.succ.inj hlength, ?_, rest, rfl, rfl⟩, ?_⟩
        · intro m' hm'
          exact hms m' (List.mem_cons_of_mem m hm')
        · rw [List.flatMap_cons, List.length_append, List.length_append, Nat.add_assoc]

/-! ## Section 3: Datagrams -/

/-- The fields of the header are read, and then the blocks. -/
theorem parse_header (session : Session) (seq : UInt64) (count : UInt16) (body : Datagram) :
    parse (makeHeader session seq count ++ body) =
      (if count = kEndOfSessionCount then some (some ([], kHeaderSize))
        else parseBlocks (makeHeader session seq count ++ body) count.toNat kHeaderSize).bind
      (fun r => some (r.bind (fun r => if r.2 = kHeaderSize + body.length then
        some ⟨session, seq, decide (count = kEndOfSessionCount), r.1⟩ else none))) := by
  have hlength : (makeHeader session seq count ++ body).length = kHeaderSize + body.length := by
    rw [List.length_append, length_makeHeader]
  have hsession : Bytes.chars 10 (makeHeader session seq count ++ body) 0 = some session := by
    simp [makeHeader]
  have hseq : getBe64 (makeHeader session seq count ++ body) 10 = some seq := by
    simp [makeHeader]
  have hcount : getBe16 (makeHeader session seq count ++ body) 18 = some count := by
    simp [makeHeader]
  rw [parse, hlength, if_neg (by omega), hsession, hseq, hcount]
  simp only [Option.bind_eq_bind, Option.bind_some]
  -- the check behind the blocks is the same in both cases
  by_cases hend : count = kEndOfSessionCount
  · simp only [if_pos hend, Option.bind_some]
    split <;> simp_all
  · simp only [if_neg hend]
    congr 1
    funext r
    cases r with
    | none => rfl
    | some r =>
      simp only [Option.bind_some]
      split <;> simp_all

/-- The parser stays inside the datagram, and a packet it returns is what the
    datagram is. -/
def Parsed (p : Datagram) : Prop :=
  ∃ r, parse p = some r ∧ ∀ pkt, r = some pkt ↔ pkt.WellFormed ∧ p = pkt.bytes

theorem parsed_short {p : Datagram} (hshort : p.length < kHeaderSize) : Parsed p := by
  refine ⟨none, if_pos hshort, ?_⟩
  intro pkt
  apply iff_of_false (by simp)
  rintro ⟨-, rfl⟩
  rw [DownstreamPacket.bytes, List.length_append, length_makeHeader] at hshort
  omega

/-- Nothing may follow the end of the session. -/
theorem parsed_end (session : Session) (seq : UInt64) (body : Datagram) :
    Parsed (makeHeader session seq kEndOfSessionCount ++ body) := by
  unfold Parsed
  rw [parse_header, if_pos rfl, Option.bind_some, Option.bind_some]
  refine ⟨_, rfl, ?_⟩
  intro pkt
  constructor
  · intro h
    split at h
    · rename_i hbody
      cases h
      have hnil : body = [] := List.length_eq_zero_iff.mp (Nat.add_left_cancel hbody.symm)
      subst hnil
      exact ⟨rfl, rfl⟩
    · cases h
  · rintro ⟨hwf, heq⟩
    obtain ⟨rfl, rfl, hcount, rfl⟩ := header_inj heq
    have hlast := hwf.count_eq_iff.mp hcount.symm
    have hnone : pkt.messages = [] := by
      unfold DownstreamPacket.WellFormed at hwf
      rwa [if_pos hlast] at hwf
    obtain ⟨session, seq, last, messages⟩ := pkt
    cases hlast
    cases hnone
    rfl

/-- The blocks end where the datagram ends. -/
theorem parsed_blocks (session : Session) (seq : UInt64) {count : UInt16}
    (hend : count ≠ kEndOfSessionCount)
    (body : Datagram) : Parsed (makeHeader session seq count ++ body) := by
  obtain ⟨r, hr, hspec⟩ := parseBlocks_spec (makeHeader session seq count) body count.toNat
  rw [length_makeHeader] at hr hspec
  unfold Parsed
  rw [parse_header, if_neg hend, hr, Option.bind_some]
  refine ⟨_, rfl, ?_⟩
  intro pkt
  constructor
  · intro hsome
    obtain ⟨⟨ms, pos⟩, rfl, hcheck⟩ := Option.bind_eq_some_iff.mp hsome
    split at hcheck
    · rename_i hpos
      cases hcheck
      obtain ⟨hlength, hms, rest, rfl, rfl⟩ := (hspec _ _).mp rfl
      have hrest : rest = [] := by
        rw [List.length_append] at hpos
        apply List.length_eq_zero_iff.mp
        omega
      subst hrest
      have hcount : UInt16.ofNat ms.length = count := by rw [hlength, UInt16.ofNat_toNat]
      have hfew : ms.length < 65535 := by
        have hlt : count.toNat < 2 ^ 16 := count.toNat_lt
        have hne : count.toNat ≠ 65535 := fun hmax => hend (UInt16.toNat_inj.mp hmax)
        omega
      refine ⟨?_, ?_⟩
      · show if decide (count = kEndOfSessionCount) = true then _ else _
        rw [if_neg (by simp [hend])]
        exact ⟨hfew, hms⟩
      · unfold DownstreamPacket.bytes DownstreamPacket.count
        rw [if_neg (by simp [hend]), hcount, List.append_nil]
    · cases hcheck
  · rintro ⟨hwf, heq⟩
    obtain ⟨rfl, rfl, hcount, rfl⟩ := header_inj heq
    have hlast : pkt.endOfSession = false := by
      apply Bool.eq_false_iff.mpr
      intro hlast
      exact hend (hcount.trans (hwf.count_eq_iff.mpr hlast))
    have hreadable : Readable pkt.messages := by
      unfold DownstreamPacket.WellFormed at hwf
      rwa [if_neg (by simp [hlast])] at hwf
    have hlength : pkt.messages.length = count.toNat := by
      rw [hcount, DownstreamPacket.count, if_neg (by simp [hlast]), UInt16.toNat_ofNat',
        Nat.mod_eq_of_lt (Nat.lt_trans hreadable.1 (by decide))]
    have hfound := (hspec pkt.messages _).mpr ⟨hlength, hreadable.2, [], by simp, rfl⟩
    rw [hfound, Option.bind_some]
    dsimp only
    rw [if_pos rfl]
    simp [hend, ← hlast]

theorem parse_spec (p : Datagram) : Parsed p := by
  by_cases hshort : p.length < kHeaderSize
  · exact parsed_short hshort
  · obtain ⟨session, seq, count, body, rfl⟩ := exists_header (Nat.le_of_not_lt hshort)
    by_cases hend : count = kEndOfSessionCount
    · rw [hend]
      exact parsed_end session seq body
    · exact parsed_blocks session seq hend body

/-- What is written is parsed. -/
theorem parse_bytes {pkt : DownstreamPacket} (h : pkt.WellFormed) :
    parse pkt.bytes = some (some pkt) := by
  obtain ⟨r, hr, hspec⟩ := parse_spec pkt.bytes
  rw [hr, (hspec pkt).mpr ⟨h, rfl⟩]

/-- A packet of not too many, not too long messages is parsed. -/
theorem parse_packet (session : Session) (seq : UInt64) {f : List Payload} (hf : f.length < 65535)
    (h : ∀ m ∈ f, m.length < 2 ^ 16) :
    parse (packet session seq f) = some (some ⟨session, seq, false, f⟩) := by
  have hwf : (⟨session, seq, false, f⟩ : DownstreamPacket).WellFormed := ⟨hf, h⟩
  exact parse_bytes hwf

theorem parse_endOfSession (session : Session) (seq : UInt64) :
    parse (makeHeader session seq kEndOfSessionCount) = some (some ⟨session, seq, true, []⟩) := by
  have hwf : (⟨session, seq, true, []⟩ : DownstreamPacket).WellFormed := rfl
  have hbytes : (⟨session, seq, true, []⟩ : DownstreamPacket).bytes =
      makeHeader session seq kEndOfSessionCount := List.append_nil _
  rw [← hbytes]
  exact parse_bytes hwf

/-- Of two accepted datagrams, none is a proper front part of the other. -/
theorem bytes_eq_of_front {pkt pkt' : DownstreamPacket} (h : pkt.WellFormed) (h' : pkt'.WellFormed)
    (hfront : pkt.bytes <+: pkt'.bytes) : pkt.bytes = pkt'.bytes := by
  obtain ⟨rest, hrest⟩ := hfront
  unfold DownstreamPacket.bytes at hrest
  rw [List.append_assoc] at hrest
  obtain ⟨-, -, hcount, hbody⟩ := header_inj hrest
  suffices hnil : rest = [] by
    rw [hnil, List.append_nil] at hrest
    exact hrest
  have hlast : pkt.endOfSession = pkt'.endOfSession := by
    rw [Bool.eq_iff_iff, ← h.count_eq_iff, ← h'.count_eq_iff, hcount]
  unfold DownstreamPacket.WellFormed at h h'
  unfold DownstreamPacket.count at hcount
  rw [← hlast] at h' hcount
  cases hend : pkt.endOfSession with
  | true =>
    rw [hend, if_pos rfl] at h h'
    rw [h, h'] at hbody
    simpa using hbody
  | false =>
    rw [hend, if_neg (by simp)] at h h'
    rw [hend, if_neg (by simp), if_neg (by simp)] at hcount
    obtain ⟨hfew, hms⟩ : Readable pkt.messages := h
    obtain ⟨hfew', hms'⟩ : Readable pkt'.messages := h'
    have hlength : pkt.messages.length = pkt'.messages.length := by
      have hsame := congrArg UInt16.toNat hcount
      rwa [UInt16.toNat_ofNat', UInt16.toNat_ofNat', Nat.mod_eq_of_lt (by omega),
        Nat.mod_eq_of_lt (by omega)] at hsame
    -- as many blocks stand in both, so they are the same blocks
    have hframes := congrArg blocks.frames hbody
    rw [blocks_encodes.frames_flatMap hms, ← List.append_nil (pkt'.messages.flatMap _),
      blocks_encodes.frames_flatMap hms'] at hframes
    rw [(List.append_inj hframes hlength).1] at hbody
    exact List.append_right_eq_self.mp hbody

/-- **The parser accepts exactly the packets.** Every datagram is parsed without
    leaving it, and the result is a packet exactly when the datagram is that packet
    as it is written: a header with the reserved count and nothing else, or a header
    with another count and as many blocks. No accepted datagram is a proper front
    part of another one. -/
theorem parse_exact (p q : Datagram) :
    (∃ r, parse p = some r ∧ ∀ pkt, r = some pkt ↔ pkt.WellFormed ∧ p = pkt.bytes) ∧
    ∀ pkt pkt', parse p = some (some pkt) → parse q = some (some pkt') → p <+: q → p = q := by
  refine ⟨parse_spec p, ?_⟩
  intro pkt pkt' hp hq hfront
  obtain ⟨r, hr, hspec⟩ := parse_spec p
  obtain ⟨r', hr', hspec'⟩ := parse_spec q
  cases hp.symm.trans hr
  cases hq.symm.trans hr'
  obtain ⟨hwf, rfl⟩ := (hspec pkt).mp rfl
  obtain ⟨hwf', rfl⟩ := (hspec' pkt').mp rfl
  exact bytes_eq_of_front hwf hwf' hfront

/-! ## Section 4: The detector on stamped packets -/

theorem onDatagram_packet (d : GapDetector) (session : Session) (seq : UInt64) {f : List Payload}
    (h : Readable f) : d.onDatagram (packet session seq f) = d.onPacket seq f.length := by
  rw [GapDetector.onDatagram, parse_packet session seq h.1 h.2]

theorem onDatagram_endOfSession (d : GapDetector) (session : Session) (seq : UInt64) :
    d.onDatagram (makeHeader session seq kEndOfSessionCount) = d.onPacket seq 0 := by
  rw [GapDetector.onDatagram, parse_endOfSession]
  rfl

/-- Stamped packets and the end of the session, in order, report no gap. -/
theorem reports_stamped (session : Session) (n : Nat) {fs : List (List Payload)} (d : GapDetector)
    (hfs : ∀ f ∈ fs, Readable f) (hd : seqAt n ≤ d.expected) :
    ∀ r ∈ d.reports (stamped session n fs ++
      [makeHeader session (seqAt (n + fs.flatten.length)) kEndOfSessionCount]), r = false := by
  induction fs generalizing n d with
  | nil =>
    intro r hr
    rw [stamped, List.nil_append, GapDetector.reports, onDatagram_endOfSession] at hr
    rw [List.mem_singleton.mp hr]
    exact (GapDetector.onPacket_of_le 0 hd).1
  | cons f fs ih =>
    obtain ⟨hquiet, hahead⟩ := GapDetector.onPacket_of_le f.length hd
    rw [seqAt_add] at hahead
    intro r hr
    rw [stamped, List.cons_append, GapDetector.reports,
      onDatagram_packet d session _ (hfs f List.mem_cons_self)] at hr
    rcases List.mem_cons.mp hr with rfl | hr
    · exact hquiet
    · rw [List.flatten_cons, List.length_append, ← Nat.add_assoc] at hr
      exact ih (n + f.length) _ (fun g hg => hfs g (List.mem_cons_of_mem _ hg)) hahead r hr

end Mold

end MatchingEngine
