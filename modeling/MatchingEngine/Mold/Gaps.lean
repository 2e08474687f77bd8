import MatchingEngine.Mold.Parse

/-! # Loss, duplication and reordering

    A session is broadcast as stamped frames with the end of the session behind
    them. A network delivers some of the datagrams, in some order, some of them
    more than once. A delivery is a list of positions in the broadcast.

    * When datagrams are only lost, the detector reports exactly the losses of
      messages, each at the first datagram behind it (`reports_delivered`).
    * When no gap is reported and no messages are delivered twice, everything
      was delivered once and in order (`delivered_once`).

    Sequence numbers have 64 bits. Both results are about broadcasts of fewer
    than `2 ^ 64 - 1` messages, whose numbers do not wrap.
-/

namespace MatchingEngine

namespace Mold

open GapDetector

variable {n : Nat} {fs : List (List Payload)}

/-! ## Section 1: Broadcasts -/

def broadcast (session : Session) (fs : List (List Payload)) : List Datagram :=
  stamped session 0 fs ++ [makeHeader session (seqAt fs.flatten.length) kEndOfSessionCount]

/-- The messages at position `i`. There are none in the end of the session. -/
def frameAt (fs : List (List Payload)) (i : Nat) : List Payload := fs[i]?.getD []

/-- The number of messages before position `i`. -/
def offset (fs : List (List Payload)) (i : Nat) : Nat := (fs.take i).flatten.length

/-- The datagram at position `i`. -/
def datagramAt (ds : List Datagram) (i : Nat) : Datagram := ds[i]?.getD []

section broadcast

variable {fs : List (List Payload)} {i : Nat}

theorem take_succ_flatten (fs : List (List Payload)) (i : Nat) :
    (fs.take (i + 1)).flatten = (fs.take i).flatten ++ frameAt fs i := by
  rw [List.take_add_one, List.flatten_append, frameAt]
  cases fs[i]? <;> simp

theorem offset_succ (fs : List (List Payload)) (i : Nat) :
    offset fs (i + 1) = offset fs i + (frameAt fs i).length := by
  rw [offset, take_succ_flatten, List.length_append, offset]

theorem offset_mono {j : Nat} (h : i ≤ j) : offset fs i ≤ offset fs j := by
  induction j, h using Nat.le_induction with
  | base => exact Nat.le_refl _
  | succ j _ ih =>
    rw [offset_succ]
    omega

theorem take_flatten_eq {j : Nat} (hji : j ≤ i) (h : offset fs j = offset fs i) :
    (fs.take j).flatten = (fs.take i).flatten := by
  have hpart : (fs.take j).flatten <+: (fs.take i).flatten := by
    obtain ⟨t, ht⟩ := List.take_prefix_take_left (l := fs) hji
    exact ⟨t.flatten, by rw [← ht, List.flatten_append]⟩
  exact hpart.eq_of_length h

theorem range_flatMap_frameAt (fs : List (List Payload)) (j : Nat) :
    (List.range j).flatMap (frameAt fs) = (fs.take j).flatten := by
  induction j with
  | zero => rfl
  | succ j ih => rw [List.range_succ, List.flatMap_append, ih, take_succ_flatten,
      List.flatMap_singleton]

theorem take_flatten (fs : List (List Payload)) (j : Nat) :
    (fs.take j).flatten = fs.flatten.take (offset fs j) := by
  have hpart : (fs.take j).flatten <+: fs.flatten :=
    ⟨(fs.drop j).flatten, by rw [← List.flatten_append, List.take_append_drop]⟩
  exact List.prefix_iff_eq_take.mp hpart

theorem take_eq_map_datagramAt (ds : List Datagram) (n : Nat) :
    ds.take n = (List.range (min n ds.length)).map (datagramAt ds) := by
  apply List.ext_getElem
  · simp
  · intro i hi _
    rw [List.length_take] at hi
    simp [datagramAt, List.getElem?_eq_getElem (show i < ds.length by omega)]

theorem offset_length (h : fs.length ≤ i) : offset fs i = fs.flatten.length := by
  rw [offset, List.take_of_length_le h]

theorem offset_le (fs : List (List Payload)) (i : Nat) : offset fs i ≤ fs.flatten.length := by
  rcases Nat.le_total i fs.length with h | h
  · rw [← offset_length (Nat.le_refl fs.length)]
    exact offset_mono h
  · exact Nat.le_of_eq (offset_length h)

theorem frameAt_end (fs : List (List Payload)) : frameAt fs fs.length = [] := by
  simp [frameAt]

theorem readable_end (fs : List (List Payload)) : Readable (frameAt fs fs.length) := by
  rw [frameAt_end]
  exact ⟨by decide, by simp⟩

theorem getElem?_stamped (session : Session) (n : Nat) (fs : List (List Payload)) (i : Nat) :
    (stamped session n fs)[i]? = fs[i]?.map (packet session (seqAt (n + offset fs i))) := by
  induction fs generalizing n i with
  | nil => simp [stamped]
  | cons f fs ih =>
    cases i with
    | zero => simp [stamped, offset]
    | succ i => simp [stamped, ih, offset, Nat.add_assoc]

@[simp] theorem length_stamped (session : Session) (n : Nat) (fs : List (List Payload)) :
    (stamped session n fs).length = fs.length := by
  induction fs generalizing n with
  | nil => rfl
  | cons f fs ih => simp [stamped, ih]

theorem length_broadcast (session : Session) (fs : List (List Payload)) :
    (broadcast session fs).length = fs.length + 1 := by
  simp [broadcast]

/-- Behind the frames there is the end of the session. -/
theorem datagramAt_broadcast (session : Session) (hi : i ≤ fs.length) :
    datagramAt (broadcast session fs) i =
      if i < fs.length then packet session (seqAt (offset fs i)) (frameAt fs i)
      else makeHeader session (seqAt (offset fs i)) kEndOfSessionCount := by
  rw [datagramAt, broadcast]
  split
  · rename_i hlt
    rw [List.getElem?_append_left (by simpa using hlt), getElem?_stamped, frameAt, Nat.zero_add,
      List.getElem?_eq_getElem hlt]
    rfl
  · rename_i hge
    obtain rfl : i = fs.length := by omega
    rw [List.getElem?_append_right (by simp), offset_length (Nat.le_refl _)]
    simp

theorem parse_broadcast (session : Session) (hi : i ≤ fs.length) (hread : Readable (frameAt fs i)) :
    ∃ last, parse (datagramAt (broadcast session fs) i) =
      some (some ⟨session, seqAt (offset fs i), last, frameAt fs i⟩) := by
  rw [datagramAt_broadcast session hi]
  split
  · exact ⟨false, parse_packet session _ hread.1 hread.2⟩
  · obtain rfl : i = fs.length := by omega
    exact ⟨true, by rw [parse_endOfSession, frameAt_end]⟩

/-- The detector sees a number and a count. -/
theorem onDatagram_broadcast (session : Session) (d : GapDetector) (hi : i ≤ fs.length)
    (hread : Readable (frameAt fs i)) :
    d.onDatagram (datagramAt (broadcast session fs) i) =
      d.onPacket (seqAt (offset fs i)) (frameAt fs i).length := by
  obtain ⟨last, hparse⟩ := parse_broadcast session hi hread
  rw [onDatagram, hparse]

/-- The number of messages in a datagram. -/
def messagesIn (p : Datagram) : Nat :=
  match parse p with
  | some (some pkt) => pkt.messages.length
  | _ => 0

theorem messagesIn_broadcast (session : Session) (hi : i ≤ fs.length)
    (hread : Readable (frameAt fs i)) :
    messagesIn (datagramAt (broadcast session fs) i) = (frameAt fs i).length := by
  obtain ⟨last, hparse⟩ := parse_broadcast session hi hread
  rw [messagesIn, hparse]

/-- A datagram carries messages when there is something behind its header. -/
def Carries (p : Datagram) : Prop := kHeaderSize < p.length

instance (p : Datagram) : Decidable (Carries p) := inferInstanceAs (Decidable (_ < _))

theorem carries_iff (session : Session) (hi : i ≤ fs.length) :
    Carries (datagramAt (broadcast session fs) i) ↔ frameAt fs i ≠ [] := by
  rw [datagramAt_broadcast session hi, Carries]
  split
  · rw [length_packet, frameLength]
    cases hf : frameAt fs i with
    | nil => simp
    | cons m f => simp [Packetizer.block]
  · obtain rfl : i = fs.length := by omega
    simp [frameAt_end]

/-- What fits into a UDP datagram is accepted. -/
theorem readable_of_packet {session : Session} {seq : UInt64} {f : List Payload}
    (h : (packet session seq f).length ≤ 65507) : Readable f := by
  rw [length_packet, frameLength, kHeaderSize] at h
  have hcount := two_mul_length_le f
  refine ⟨by omega, fun m hm => ?_⟩
  have hm' := length_le_of_mem hm
  omega

theorem readable_of_length (session : Session) (hi : i ≤ fs.length)
    (h : (datagramAt (broadcast session fs) i).length ≤ 65507) : Readable (frameAt fs i) := by
  rw [datagramAt_broadcast session hi] at h
  split at h
  · exact readable_of_packet h
  · obtain rfl : i = fs.length := by omega
    exact readable_end fs

end broadcast

/-! ## Section 2: The detector on numbered packets -/

namespace GapDetector

/-- The detector after datagrams. -/
def run (d : GapDetector) (ps : List Datagram) : GapDetector :=
  ps.foldl (fun d p => (d.onDatagram p).1) d

/-- The detector before and after each datagram. -/
def history (d : GapDetector) : List Datagram → List GapDetector
  | [] => [d]
  | p :: ps => d :: history (d.onDatagram p).1 ps

theorem run_append (d : GapDetector) (ps qs : List Datagram) :
    d.run (ps ++ qs) = (d.run ps).run qs :=
  List.foldl_append

theorem reports_append (d : GapDetector) (ps qs : List Datagram) :
    d.reports (ps ++ qs) = d.reports ps ++ (d.run ps).reports qs := by
  induction ps generalizing d with
  | nil => rfl
  | cons p ps ih =>
    rw [List.cons_append, reports, reports, ih]
    rfl

theorem expected_le_onPacket (d : GapDetector) (seq : UInt64) (k : Nat) :
    d.expected ≤ (d.onPacket seq k).1.expected := by
  have hfirst : d.expected ≤
      if k > 0 ∧ seq + UInt64.ofNat k > d.expected then seq + UInt64.ofNat k else d.expected := by
    split
    · rename_i h
      exact UInt64.le_of_lt h.right
    · exact UInt64.le_refl _
  have hsecond : ∀ x, d.expected ≤ x →
      d.expected ≤ if decide (seq > d.expected) = true ∧ k = 0 ∧ seq > x then seq else x := by
    intro x hx
    split
    · rename_i h
      exact UInt64.le_trans hx (UInt64.le_of_lt h.2.2)
    · exact hx
  exact hsecond _ hfirst

/-- The expected number never decreases, whatever is delivered. -/
theorem expected_le_onDatagram (d : GapDetector) (p : Datagram) :
    d.expected ≤ (d.onDatagram p).1.expected := by
  rw [onDatagram]
  split
  · exact d.expected_le_onPacket _ _
  · exact UInt64.le_refl _

theorem expected_le_of_mem_history {d d' : GapDetector} {ps : List Datagram}
    (h : d' ∈ d.history ps) : d.expected ≤ d'.expected := by
  induction ps generalizing d with
  | nil =>
    rw [List.mem_singleton.mp h]
    exact UInt64.le_refl _
  | cons p ps ih =>
    rcases List.mem_cons.mp h with rfl | h
    · exact UInt64.le_refl _
    · exact UInt64.le_trans (d.expected_le_onDatagram p) (ih h)

theorem history_pairwise (d : GapDetector) (ps : List Datagram) :
    (d.history ps).Pairwise (fun a b => a.expected ≤ b.expected) := by
  induction ps generalizing d with
  | nil => exact List.pairwise_singleton _ _
  | cons p ps ih =>
    refine List.pairwise_cons.mpr ⟨fun d' hd' => ?_, ih _⟩
    exact UInt64.le_trans (d.expected_le_onDatagram p) (expected_le_of_mem_history hd')

theorem hadGap_run (d : GapDetector) (ps : List Datagram) :
    (d.run ps).hadGap = true ↔ d.hadGap = true ∨ true ∈ d.reports ps := by
  induction ps generalizing d with
  | nil => simp [run, reports]
  | cons p ps ih =>
    have hstep : (d.onDatagram p).1.hadGap = (d.hadGap || (d.onDatagram p).2) := by
      rw [onDatagram]
      split
      · rfl
      · simp
    show ((d.onDatagram p).1.run ps).hadGap = true ↔ _
    rw [ih, hstep, reports, List.mem_cons, Bool.or_eq_true, or_assoc, eq_comm (a := true)]

end GapDetector

theorem seqAt_lt {m : Nat} (hm : m + 1 < 2 ^ 64) (hn : n + 1 < 2 ^ 64) :
    seqAt m < seqAt n ↔ m < n := by
  rw [seqAt, seqAt, UInt64.lt_iff_toNat_lt, UInt64.toNat_ofNat', UInt64.toNat_ofNat',
    Nat.mod_eq_of_lt hm, Nat.mod_eq_of_lt hn]
  omega

/-- A packet of `k` messages behind `n`, when `e` messages are accounted for. -/
theorem onPacket_numbered {d : GapDetector} {e k : Nat} (hd : d.expected = seqAt e)
    (he : e + 1 < 2 ^ 64) (hn : n + k + 1 < 2 ^ 64) :
    d.onPacket (seqAt n) k =
      (⟨seqAt (max e (n + k)), d.hadGap || decide (e < n)⟩, decide (e < n)) := by
  have hgap : (seqAt n > seqAt e) = (e < n) := propext (seqAt_lt he (by omega))
  have hafter : (seqAt (n + k) > seqAt e) = (e < n + k) := propext (seqAt_lt he hn)
  have hexpected : (if k > 0 ∧ e < n + k then seqAt (n + k) else seqAt e) =
      if k = 0 then seqAt e else seqAt (max e (n + k)) := by
    by_cases hk : k = 0
    · simp [hk]
    · by_cases hlt : e < n + k
      · rw [if_pos ⟨by omega, hlt⟩, if_neg hk, Nat.max_eq_right (Nat.le_of_lt hlt)]
      · rw [if_neg (fun h => hlt h.2), if_neg hk, Nat.max_eq_left (Nat.le_of_not_lt hlt)]
  simp only [onPacket, hd, seqAt_add, hgap, hafter, hexpected]
  by_cases hk : k = 0
  · subst hk
    by_cases hlt : e < n
    · simp [hlt, seqAt_lt he hn, Nat.max_eq_right (Nat.le_of_lt hlt)]
    · simp [hlt, Nat.max_eq_left (Nat.le_of_not_lt hlt)]
  · simp [hk]

/-! ## Section 3: Losses

    `kept` says which datagrams are delivered. -/

/-- The block of lost datagrams directly before position `i` carries messages. -/
def Revealed (ds : List Datagram) (kept : Nat → Bool) (i : Nat) : Prop :=
  ∃ k < i, (∀ j < i, k ≤ j → kept j = false) ∧ Carries (datagramAt ds k)

instance (ds : List Datagram) (kept : Nat → Bool) (i : Nat) : Decidable (Revealed ds kept i) :=
  inferInstanceAs (Decidable (∃ k < i, _))

/-- The positions delivered among the first `n`. -/
def delivered (kept : Nat → Bool) (n : Nat) : List Nat := (List.range n).filter kept

section losses

variable {ds : List Datagram} {kept : Nat → Bool} {n : Nat}

theorem delivered_succ (kept : Nat → Bool) (n : Nat) :
    delivered kept (n + 1) = delivered kept n ++ if kept n then [n] else [] := by
  rw [delivered, List.range_succ, List.filter_append]
  cases h : kept n <;> simp [h, delivered]

theorem not_revealed_succ (h : kept n = true) : ¬ Revealed ds kept (n + 1) := by
  rintro ⟨k, hk, hlost, -⟩
  have := hlost n (Nat.lt_succ_self n) (Nat.le_of_lt_succ hk)
  rw [h] at this
  cases this

theorem revealed_succ (h : kept n = false) :
    Revealed ds kept (n + 1) ↔ Revealed ds kept n ∨ Carries (datagramAt ds n) := by
  constructor
  · rintro ⟨k, hk, hlost, hcarries⟩
    rcases Nat.lt_or_ge k n with hlt | hge
    · exact .inl ⟨k, hlt, fun j hj => hlost j (by omega), hcarries⟩
    · obtain rfl : k = n := by omega
      exact .inr hcarries
  · rintro (⟨k, hk, hlost, hcarries⟩ | hcarries)
    · refine ⟨k, by omega, fun j hj hkj => ?_, hcarries⟩
      rcases Nat.lt_or_ge j n with hlt | hge
      · exact hlost j hlt hkj
      · obtain rfl : j = n := by omega
        exact h
    · refine ⟨n, by omega, fun j hj hnj => ?_, hcarries⟩
      obtain rfl : j = n := by omega
      exact h

/-- A loss of messages is revealed when something is delivered behind it. -/
theorem exists_revealed {i m : Nat} (hlost : kept i = false) (hcarries : Carries (datagramAt ds i))
    (him : i ≤ m) (hm : kept m = true) :
    ∃ j ∈ delivered kept (m + 1), Revealed ds kept j := by
  -- the first delivery behind the loss
  have hex : ∃ j, i ≤ j ∧ kept j = true := ⟨m, him, hm⟩
  obtain ⟨hij, hj⟩ := Nat.find_spec hex
  have hle : Nat.find hex ≤ m := Nat.find_min' hex ⟨him, hm⟩
  have hne : i ≠ Nat.find hex := by
    intro heq
    rw [← heq, hlost] at hj
    cases hj
  refine ⟨Nat.find hex, ?_, i, by omega, fun l hl hil => ?_, hcarries⟩
  · exact List.mem_filter.mpr ⟨List.mem_range.mpr (by omega), hj⟩
  · rw [← Bool.not_eq_true]
    exact fun hl' => Nat.find_min hex hl ⟨hil, hl'⟩

end losses

/-- What the detector knows after the first `n` datagrams of a broadcast: it is
    behind exactly when messages were lost since the last delivery. -/
theorem reports_delivered (session : Session) {kept : Nat → Bool}
    (hread : ∀ i ≤ fs.length, kept i = true → Readable (frameAt fs i))
    (hbound : fs.flatten.length + 1 < 2 ^ 64) (hn : n ≤ fs.length + 1) :
    let ds := broadcast session fs
    let ps := (delivered kept n).map (datagramAt ds)
    ∃ e ≤ offset fs n, (run {} ps).expected = seqAt e ∧
      (e < offset fs n ↔ Revealed ds kept n) ∧
      reports {} ps = (delivered kept n).map (fun i => decide (Revealed ds kept i)) := by
  intro ds
  induction n with
  | zero =>
    refine ⟨0, Nat.le_refl _, rfl, iff_of_false (Nat.lt_irrefl _) ?_, rfl⟩
    rintro ⟨k, hk, -⟩
    exact absurd hk (Nat.not_lt_zero k)
  | succ n ih =>
    obtain ⟨e, he, hexpected, hbehind, hreports⟩ := ih (by omega)
    have hnext : offset fs (n + 1) = offset fs n + (frameAt fs n).length := offset_succ fs n
    have htotal := offset_le fs (n + 1)
    rw [delivered_succ]
    cases hk : kept n with
    | false =>
      -- the detector stays where it is
      refine ⟨e, by omega, ?_, ?_, ?_⟩
      · simpa using hexpected
      · rw [revealed_succ hk, ← hbehind, carries_iff session (by omega), hnext,
          ← List.length_pos_iff]
        omega
      · simpa using hreports
    | true =>
      have hstep := onDatagram_broadcast session (run {} ((delivered kept n).map (datagramAt ds)))
        (i := n) (by omega) (hread n (by omega) hk)
      rw [onPacket_numbered hexpected (by omega) (by omega), ← hnext,
        Nat.max_eq_right (by omega)] at hstep
      refine ⟨offset fs (n + 1), Nat.le_refl _, ?_, ?_, ?_⟩
      · rw [if_pos rfl, List.map_append, run_append]
        exact congrArg (fun r => r.1.expected) hstep
      · exact iff_of_false (Nat.lt_irrefl _) (not_revealed_succ hk)
      · rw [if_pos rfl, List.map_append, reports_append, hreports, List.map_append]
        congr 1
        show [((run {} _).onDatagram (datagramAt ds n)).2] = [decide (Revealed ds kept n)]
        rw [hstep]
        simp only [hbehind]

/-! ## Section 4: Duplication and reordering

    A delivery is any list of positions. -/

theorem run_snoc (session : Session) (order : List Nat) {i : Nat} (hi : i ≤ fs.length)
    (hread : Readable (frameAt fs i)) :
    run {} ((order ++ [i]).map (datagramAt (broadcast session fs))) =
      ((run {} (order.map (datagramAt (broadcast session fs)))).onPacket
        (seqAt (offset fs i)) (frameAt fs i).length).1 := by
  rw [List.map_append, run_append, ← onDatagram_broadcast session _ hi hread]
  rfl

/-- Delivery in order and without loss. -/
theorem run_in_order (session : Session) (hn : n ≤ fs.length + 1)
    (hread : ∀ i < n, Readable (frameAt fs i)) :
    (run {} ((List.range n).map (datagramAt (broadcast session fs)))).hadGap = false ∧
      seqAt (offset fs n) ≤
        (run {} ((List.range n).map (datagramAt (broadcast session fs)))).expected := by
  induction n with
  | zero => exact ⟨rfl, UInt64.le_refl _⟩
  | succ n ih =>
    obtain ⟨hquiet, hle⟩ := ih (by omega) (fun i hi => hread i (by omega))
    obtain ⟨hreport, hnext⟩ := onPacket_of_le (frameAt fs n).length hle
    rw [List.range_succ, run_snoc session _ (by omega) (hread n (by omega)), offset_succ,
      ← seqAt_add]
    refine ⟨?_, hnext⟩
    show (_ || _) = false
    rw [hquiet, Bool.false_or]
    exact hreport

/-- What the detector accounts for, as long as it reports no gap: a prefix of the
    broadcast, all of which was delivered. -/
theorem delivered_prefix (session : Session) {order : List Nat} (hmem : ∀ i ∈ order, i ≤ fs.length)
    (hread : ∀ i ∈ order, Readable (frameAt fs i))
    (honce : (order.filter (fun i => !(frameAt fs i).isEmpty)).Nodup)
    (hbound : fs.flatten.length + 1 < 2 ^ 64)
    (hquiet : (run {} (order.map (datagramAt (broadcast session fs)))).hadGap = false) :
    ∃ j ≤ fs.length,
      (run {} (order.map (datagramAt (broadcast session fs)))).expected = seqAt (offset fs j) ∧
      order.flatMap (frameAt fs) = (fs.take j).flatten ∧
      ∀ i < j, frameAt fs i ≠ [] → i ∈ order := by
  induction order using List.reverseRecOn with
  | nil => exact ⟨0, Nat.zero_le _, rfl, rfl, fun i hi => absurd hi (Nat.not_lt_zero i)⟩
  | append_singleton order i ih =>
    have hi : i ≤ fs.length := hmem i (by simp)
    rw [List.filter_append] at honce
    rw [run_snoc session order hi (hread i (by simp))] at hquiet ⊢
    have hbefore : (run {} (order.map (datagramAt (broadcast session fs)))).hadGap = false :=
      (Bool.or_eq_false_iff.mp hquiet).1
    obtain ⟨j, hj, hexpected, hpart, hall⟩ := ih (fun k hk => hmem k (by simp [hk]))
      (fun k hk => hread k (by simp [hk])) (List.nodup_append.mp honce).1 hbefore
    have htotal := offset_le fs (i + 1)
    have hnext : offset fs (i + 1) = offset fs i + (frameAt fs i).length := offset_succ fs i
    have hj' := offset_le fs j
    rw [onPacket_numbered hexpected (by omega) (by omega)] at hquiet ⊢
    have hle : offset fs i ≤ offset fs j := by
      simpa [hbefore] using hquiet
    rw [List.flatMap_append, List.flatMap_singleton, hpart]
    by_cases hframe : frameAt fs i = []
    · -- nothing new
      refine ⟨j, hj, ?_, by rw [hframe, List.append_nil], fun k hk hne => by simp [hall k hk hne]⟩
      rw [hframe, List.length_nil, Nat.add_zero, Nat.max_eq_left hle]
    · have hlt : i < fs.length := by
        rcases Nat.lt_or_eq_of_le hi with hlt | rfl
        · exact hlt
        · exact absurd (frameAt_end fs) hframe
      have hji : j ≤ i := by
        -- what lies before `j` was delivered before
        by_contra hij
        have hagain : i ∈ order.filter (fun i => !(frameAt fs i).isEmpty) :=
          List.mem_filter.mpr ⟨hall i (by omega) hframe, by simpa using hframe⟩
        exact (List.nodup_append.mp honce).2.2 i hagain i (by simp [hframe]) rfl
      have hsame : offset fs j = offset fs i := Nat.le_antisymm (offset_mono hji) hle
      refine ⟨i + 1, hlt, ?_, ?_, fun k hk hne => ?_⟩
      · rw [← hnext, Nat.max_eq_right (by omega)]
      · rw [take_succ_flatten, take_flatten_eq hji hsame]
      · rcases Nat.lt_or_ge k j with hkj | hjk
        · simp [hall k hkj hne]
        · rcases Nat.lt_or_eq_of_le (Nat.le_of_lt_succ hk) with hki | rfl
          · -- a frame between the two would count
            have hk₁ : offset fs j ≤ offset fs k := offset_mono hjk
            have hk₂ : offset fs (k + 1) ≤ offset fs i := offset_mono hki
            have hk₃ := offset_succ fs k
            have hpos := List.length_pos_iff.mpr hne
            omega
          · simp

/-- **Everything once and in order.** When the end of the session is delivered
    last, no messages are delivered twice and no gap was reported, the messages
    delivered are those of the broadcast. -/
theorem delivered_once (session : Session) {order : List Nat} (hmem : ∀ i ∈ order, i ≤ fs.length)
    (hread : ∀ i ∈ order, Readable (frameAt fs i))
    (honce : (order.filter (fun i => Carries (datagramAt (broadcast session fs) i))).Nodup)
    (hbound : fs.flatten.length + 1 < 2 ^ 64)
    (hquiet : (run {} ((order ++ [fs.length]).map
      (datagramAt (broadcast session fs)))).hadGap = false) :
    order.flatMap (frameAt fs) = fs.flatten := by
  rw [List.filter_congr (q := fun i => !(frameAt fs i).isEmpty) (fun i hi => by
    cases hf : frameAt fs i <;> simp [carries_iff session (hmem i hi), hf])] at honce
  rw [run_snoc session order (Nat.le_refl _) (readable_end fs)] at hquiet
  have hbefore := (Bool.or_eq_false_iff.mp hquiet).1
  obtain ⟨j, hj, hexpected, hpart, -⟩ := delivered_prefix session hmem hread honce hbound hbefore
  have hj' := offset_le fs j
  have hlength := offset_length (Nat.le_refl fs.length)
  rw [frameAt_end, onPacket_numbered hexpected (by omega) (by simp; omega)] at hquiet
  -- the end of the session is not ahead, so nothing is missing
  have hle : offset fs fs.length ≤ offset fs j := by
    simpa [hbefore] using hquiet
  rw [hpart, take_flatten_eq hj (Nat.le_antisymm (offset_mono hj) hle), List.take_length]

end Mold

end MatchingEngine
