import MatchingEngine.Mold.Parse

/-! # The packetizer

    The packetizer fixes the sequence number of a packet when the packet is
    begun and its message count when the packet is closed. Between the two, its
    bytes are no packet of any list of messages: `Holds` says what they are, and
    `Emits` which packets were closed on the way from one state to another.

    The main result is that packetizing and parsing gives the messages back
    (`packetized_messages_parsed`).
-/

namespace MatchingEngine

namespace Mold

variable {cur ms : List Payload} {p : Packetizer} {n mtu : Nat} {fs : List (List Payload)}
  {session : Session}

/-! ## Section 1: What the packetizer holds

    While `cur` is not empty, the current packet has its header with count 0. -/

/-- A frame that may be closed: it is not empty, and only a single message may
    exceed the MTU. -/
def Whole (mtu : Nat) (f : List Payload) : Prop :=
  f ≠ [] ∧ (f.length = 1 ∨ frameLength f ≤ mtu)

/-- `n` messages are in closed packets, `cur` are in the current one. -/
structure Holds (p : Packetizer) (n : Nat) (cur : List Payload) : Prop where
  nextSeq : p.nextSeq = seqAt (n + cur.length)
  count : p.currentCount = UInt16.ofNat cur.length
  current : p.current =
    if cur = [] then [] else makeHeader p.session (seqAt n) 0 ++ cur.flatMap Packetizer.block
  whole : cur ≠ [] → Whole p.mtu cur

/-- From `p` to `q` the messages `ms` were added: the frames `fs` were closed on
    the way, and `cur'` is in the current packet. -/
structure Emits (p q : Packetizer) (n : Nat) (cur ms : List Payload) (fs : List (List Payload))
    (cur' : List Payload) : Prop where
  session : q.session = p.session
  mtu : q.mtu = p.mtu
  ready : q.ready = p.ready ++ stamped p.session n fs
  holds : Holds q (n + fs.flatten.length) cur'
  messages : fs.flatten ++ cur' = cur ++ ms
  whole : ∀ f ∈ fs, Whole p.mtu f

theorem holds_new (session : Session) (mtu : Nat) : Holds { session, mtu } 0 [] :=
  ⟨rfl, rfl, rfl, fun h => absurd rfl h⟩

theorem Holds.isEmpty (h : Holds p n cur) : p.current.isEmpty = true ↔ cur = [] := by
  rw [h.current]
  by_cases hcur : cur = []
  · simp [hcur]
  · have hlong := length_makeHeader p.session (seqAt n) 0
    rw [if_neg hcur, List.isEmpty_iff]
    refine iff_of_false (fun hnil => ?_) hcur
    rw [List.append_eq_nil_iff.mp hnil |>.1] at hlong
    exact absurd hlong (by decide)

/-- A heartbeat is the packet of an empty frame. -/
theorem Holds.heartbeat (h : Holds p n []) : p.heartbeat = packet p.session (seqAt n) [] := by
  have hseq := h.nextSeq
  rw [List.length_nil, Nat.add_zero] at hseq
  rw [Packetizer.heartbeat, packet, hseq, List.flatMap_nil, List.append_nil]
  rfl

theorem Emits.refl (h : Holds p n cur) : Emits p p n cur [] [] cur :=
  ⟨rfl, rfl, by simp [stamped], by simpa using h, by simp, by simp⟩

theorem Emits.trans {q r : Packetizer} {cur' cur'' ms' : List Payload} {fs' : List (List Payload)}
    (h : Emits p q n cur ms fs cur') (h' : Emits q r (n + fs.flatten.length) cur' ms' fs' cur'') :
    Emits p r n cur (ms ++ ms') (fs ++ fs') cur'' where
  session := h'.session.trans h.session
  mtu := h'.mtu.trans h.mtu
  ready := by
    rw [h'.ready, h.ready, h.session, stamped_append, List.append_assoc]
  holds := by
    have := h'.holds
    rwa [Nat.add_assoc, ← List.length_append, ← List.flatten_append] at this
  messages := by
    rw [List.flatten_append, List.append_assoc, h'.messages, ← List.append_assoc, h.messages,
      List.append_assoc]
  whole f hf := by
    rcases List.mem_append.mp hf with hf | hf
    · exact h.whole f hf
    · have := h'.whole f hf
      rwa [h.mtu] at this

/-- The patched bytes are the packet of the frame. -/
theorem patched_packet (session : Session) (seq : UInt64) (f : List Payload) :
    (makeHeader session seq 0 ++ f.flatMap Packetizer.block).take 18 ++
        putBe16 (UInt16.ofNat f.length) ++
        (makeHeader session seq 0 ++ f.flatMap Packetizer.block).drop 20 =
      packet session seq f := by
  have hfront : (session.toList ++ putBe64 seq).length = 18 := by simp
  have htake : (makeHeader session seq 0 ++ f.flatMap Packetizer.block).take 18 =
      session.toList ++ putBe64 seq := by
    rw [makeHeader, List.append_assoc, List.take_left' hfront]
  have hdrop : (makeHeader session seq 0 ++ f.flatMap Packetizer.block).drop 20 =
      f.flatMap Packetizer.block :=
    List.drop_left' (length_makeHeader session seq 0)
  rw [htake, hdrop, packet, makeHeader]

theorem Holds.flush (h : Holds p n cur) : ∃ fs, Emits p p.flush n cur [] fs [] := by
  by_cases hcur : cur = []
  · subst hcur
    have hflush : p.flush = p := by rw [Packetizer.flush, if_pos (h.isEmpty.mpr rfl)]
    rw [hflush]
    exact ⟨[], Emits.refl h⟩
  · have hne : ¬ p.current.isEmpty = true := fun he => hcur (h.isEmpty.mp he)
    refine ⟨[cur], ?_⟩
    rw [Packetizer.flush, if_neg hne]
    refine ⟨rfl, rfl, ?_, ⟨?_, rfl, rfl, fun he => absurd rfl he⟩, by simp, ?_⟩
    · rw [h.current, h.count, if_neg hcur, patched_packet]
      rfl
    · rw [h.nextSeq]
      simp
    · intro f hf
      rw [List.mem_singleton.mp hf]
      exact h.whole hcur

/-- One more message, when it may still go into the current packet. -/
theorem Holds.append (h : Holds p n cur) (m : Payload)
    (hfits : cur ≠ [] → p.current.length + (2 + m.length) ≤ p.mtu) :
    Emits p ((if p.current.isEmpty then p.beginPacket else p).append m) n cur [m] []
      (cur ++ [m]) := by
  -- the bytes before the message are the header and the blocks, also for a packet just begun
  have hbytes : (if p.current.isEmpty then p.beginPacket else p) = { p with
      current := makeHeader p.session (seqAt n) 0 ++ cur.flatMap Packetizer.block } := by
    by_cases hcur : cur = []
    · have hseq := h.nextSeq
      have hcount := h.count
      subst hcur
      rw [if_pos (h.isEmpty.mpr rfl), Packetizer.beginPacket, hseq]
      simp only [List.length_nil, Nat.add_zero, List.flatMap_nil, List.append_nil]
      rw [hcount]
      rfl
    · rw [if_neg (fun he => hcur (h.isEmpty.mp he))]
      have := h.current
      rw [if_neg hcur] at this
      rw [← this]
  rw [hbytes]
  refine ⟨rfl, rfl, by simp [Packetizer.append, stamped], ⟨?_, ?_, ?_, fun _ => ⟨by simp, ?_⟩⟩,
    by simp, by simp⟩
  · show p.nextSeq + 1 = _
    rw [h.nextSeq, show (1 : UInt64) = UInt64.ofNat 1 from rfl, seqAt_add]
    simp [Nat.add_assoc]
  · show p.currentCount + 1 = _
    rw [h.count, List.length_append, UInt16.ofNat_add]
    rfl
  · simp [Packetizer.append]
  · by_cases hcur : cur = []
    · left
      simp [hcur]
    · right
      have hroom := hfits hcur
      rw [h.current, if_neg hcur] at hroom
      simp only [List.length_append, length_makeHeader] at hroom
      simpa [frameLength, Packetizer.append, Nat.add_assoc] using hroom

theorem Holds.addMessage (h : Holds p n cur) (m : Payload) :
    ∃ fs cur', Emits p (p.addMessage m) n cur [m] fs cur' := by
  by_cases hover : (!p.current.isEmpty && decide (p.current.length + (2 + m.length) > p.mtu)) = true
  · -- the current packet is closed first
    obtain ⟨fs, hflush⟩ := h.flush
    have happend := hflush.holds.append m (fun hne => absurd rfl hne)
    refine ⟨fs, [m], ?_⟩
    have hall := hflush.trans happend
    rw [List.append_nil, List.nil_append] at hall
    simpa [Packetizer.addMessage, hover] using hall
  · have hroom : cur ≠ [] → p.current.length + (2 + m.length) ≤ p.mtu := by
      intro hcur
      have hne : p.current.isEmpty = false := by
        rw [Bool.eq_false_iff]
        exact fun he => hcur (h.isEmpty.mp he)
      simpa [hne] using hover
    refine ⟨[], cur ++ [m], ?_⟩
    simpa [Packetizer.addMessage, hover] using h.append m hroom

/-! ## Section 2: Runs of the packetizer -/

/-- The calls. A heartbeat may follow a flush. -/
inductive Call where
  | addMessage (m : Payload)
  | flush (beat : Bool)
  | takePackets

/-- The packetizer, the packets it handed out, and everything it produced: its
    packets in the order they were closed, and the heartbeats after a flush. -/
structure Trace where
  packetizer : Packetizer
  taken : List Datagram := []
  stream : List Datagram := []

namespace Trace

/-- All packets: those handed out and those that are ready. -/
def packets (t : Trace) : List Datagram := t.taken ++ t.packetizer.ready

/-- The packetizer becomes `q`, which has new packets, and `beats` are sent. -/
def after (t : Trace) (q : Packetizer) (beats : List Datagram) : Trace :=
  { packetizer := q
    taken := t.taken
    stream := t.stream ++ q.ready.drop t.packetizer.ready.length ++ beats }

def call (t : Trace) : Call → Trace
  | .addMessage m => t.after (t.packetizer.addMessage m) []
  | .flush beat => t.after t.packetizer.flush (if beat then [t.packetizer.flush.heartbeat] else [])
  | .takePackets =>
    { packetizer := t.packetizer.takePackets.2
      taken := t.taken ++ t.packetizer.takePackets.1
      stream := t.stream }

def run (session : Session) (mtu : Nat) (calls : List Call) : Trace :=
  calls.foldl call { packetizer := { session, mtu } }

end Trace

/-- The messages that the calls add. -/
def added : List Call → List Payload
  | [] => []
  | .addMessage m :: calls => m :: added calls
  | _ :: calls => added calls

theorem added_append (calls calls' : List Call) :
    added (calls ++ calls') = added calls ++ added calls' := by
  induction calls with
  | nil => rfl
  | cons c calls ih => cases c <;> simp [added, ih]

/-- The frames that carry messages. -/
def filled (fs : List (List Payload)) : List (List Payload) := fs.filter (fun f => !f.isEmpty)

theorem filled_append (fs gs : List (List Payload)) : filled (fs ++ gs) = filled fs ++ filled gs :=
  List.filter_append ..

theorem flatten_filled (fs : List (List Payload)) : (filled fs).flatten = fs.flatten := by
  induction fs with
  | nil => rfl
  | cons f fs ih =>
    cases f with
    | nil => simpa [filled] using ih
    | cons m f => simpa [filled] using ih

/-- The messages `ms` were added: `fs` are the frames produced, heartbeats among
    them, and `cur` is in the current packet. -/
structure Inv (session : Session) (mtu : Nat) (t : Trace) (ms : List Payload)
    (fs : List (List Payload)) (cur : List Payload) : Prop where
  session_eq : t.packetizer.session = session
  mtu_eq : t.packetizer.mtu = mtu
  packets : t.packets = stamped session 0 (filled fs)
  stream : t.stream = stamped session 0 fs
  holds : Holds t.packetizer fs.flatten.length cur
  messages : fs.flatten ++ cur = ms
  whole : ∀ f ∈ filled fs, Whole mtu f

theorem inv_new (session : Session) (mtu : Nat) :
    Inv session mtu (Trace.run session mtu []) [] [] [] :=
  ⟨rfl, rfl, rfl, rfl, holds_new session mtu, rfl, by simp [filled]⟩

theorem filled_of_whole (h : ∀ f ∈ fs, Whole mtu f) : filled fs = fs := by
  apply List.filter_eq_self.mpr
  intro f hf
  have hne := (h f hf).1
  simpa using hne

variable {t : Trace}

/-- New packets keep the invariant. -/
theorem Inv.emit {ms' cur' : List Payload} {fs' : List (List Payload)} {q : Packetizer}
    (h : Inv session mtu t ms fs cur)
    (he : Emits t.packetizer q fs.flatten.length cur ms' fs' cur') :
    Inv session mtu (t.after q []) (ms ++ ms') (fs ++ fs') cur' where
  session_eq := he.session.trans h.session_eq
  mtu_eq := he.mtu.trans h.mtu_eq
  packets := by
    have hwhole := filled_of_whole he.whole
    have hold := h.packets
    rw [Trace.packets] at hold ⊢
    show t.taken ++ q.ready = _
    rw [he.ready, ← List.append_assoc, hold, h.session_eq, filled_append, hwhole, stamped_append,
      flatten_filled, Nat.zero_add]
  stream := by
    show t.stream ++ q.ready.drop t.packetizer.ready.length ++ [] = _
    rw [he.ready, List.drop_left, h.stream, h.session_eq, stamped_append, Nat.zero_add,
      List.append_nil]
  holds := by
    have := he.holds
    rwa [← List.length_append, ← List.flatten_append] at this
  messages := by
    rw [List.flatten_append, List.append_assoc, he.messages, ← List.append_assoc, h.messages]
  whole f hf := by
    rw [filled_append] at hf
    rcases List.mem_append.mp hf with hf | hf
    · exact h.whole f hf
    · have := he.whole f (List.mem_filter.mp hf).1
      rwa [h.mtu_eq] at this

theorem Inv.beat (h : Inv session mtu t ms fs []) :
    Inv session mtu { t with stream := t.stream ++ [t.packetizer.heartbeat] } ms
      (fs ++ [[]]) [] where
  session_eq := h.session_eq
  mtu_eq := h.mtu_eq
  packets := by
    have : filled (fs ++ [[]]) = filled fs := by simp [filled]
    rw [this]
    exact h.packets
  stream := by
    rw [stamped_append, ← h.stream, h.holds.heartbeat, h.session_eq, Nat.zero_add]
    rfl
  holds := by simpa using h.holds
  messages := by simpa using h.messages
  whole f hf := by
    have : filled (fs ++ [[]]) = filled fs := by simp [filled]
    rw [this] at hf
    exact h.whole f hf

theorem Inv.take (h : Inv session mtu t ms fs cur) :
    Inv session mtu (t.call .takePackets) ms fs cur where
  session_eq := h.session_eq
  mtu_eq := h.mtu_eq
  packets := by
    rw [← h.packets]
    exact List.append_nil _
  stream := h.stream
  holds := ⟨h.holds.nextSeq, h.holds.count, h.holds.current, h.holds.whole⟩
  messages := h.messages
  whole := h.whole

theorem Inv.flush (h : Inv session mtu t ms fs cur) (beat : Bool) :
    ∃ fs', Inv session mtu (t.call (.flush beat)) ms fs' [] := by
  obtain ⟨fs', he⟩ := h.holds.flush
  have hflush := h.emit he
  rw [List.append_nil] at hflush
  cases beat with
  | false => exact ⟨_, hflush⟩
  | true =>
    have hbeat := hflush.beat
    refine ⟨fs ++ fs' ++ [[]], ?_⟩
    simpa [Trace.call, Trace.after] using hbeat

/-- One call. -/
theorem Inv.call (h : Inv session mtu t ms fs cur) (c : Call) :
    ∃ fs' cur', Inv session mtu (t.call c) (ms ++ added [c]) fs' cur' := by
  cases c with
  | addMessage m =>
    obtain ⟨fs', cur', he⟩ := h.holds.addMessage m
    exact ⟨_, _, h.emit he⟩
  | flush beat =>
    obtain ⟨fs', hflush⟩ := h.flush beat
    exact ⟨fs', [], by simpa [added] using hflush⟩
  | takePackets => exact ⟨fs, cur, by simpa [added] using h.take⟩

/-- **Runs of the packetizer.** -/
theorem inv_run (session : Session) (mtu : Nat) (calls : List Call) :
    ∃ fs cur, Inv session mtu (Trace.run session mtu calls) (added calls) fs cur := by
  induction calls using List.reverseRecOn with
  | nil => exact ⟨[], [], inv_new session mtu⟩
  | append_singleton calls c ih =>
    obtain ⟨fs, cur, h⟩ := ih
    rw [Trace.run, List.foldl_append, added_append]
    exact h.call c

/-! ## Section 3: What is packetized is parsed -/

/-- What `parse` makes of stamped packets. -/
def received (session : Session) : Nat → List (List Payload) → List DownstreamPacket
  | _, [] => []
  | n, f :: fs => ⟨session, seqAt n, false, f⟩ :: received session (n + f.length) fs

theorem parse_stamped (session : Session) (n : Nat) (h : ∀ f ∈ fs, Readable f) :
    (stamped session n fs).map parse = (received session n fs).map (fun d => some (some d)) := by
  induction fs generalizing n with
  | nil => rfl
  | cons f fs ih =>
    obtain ⟨hcount, hlength⟩ := h f List.mem_cons_self
    rw [stamped, received, List.map_cons, List.map_cons, parse_packet session _ hcount hlength,
      ih _ (fun g hg => h g (List.mem_cons_of_mem _ hg))]

@[simp] theorem messages_received (session : Session) (n : Nat) (fs : List (List Payload)) :
    (received session n fs).map DownstreamPacket.messages = fs := by
  induction fs generalizing n with
  | nil => rfl
  | cons f fs ih => rw [received, List.map_cons, ih]

theorem mem_received {d : DownstreamPacket} (h : d ∈ received session n fs) :
    d.session = session ∧ d.endOfSession = false ∧ d.messages ∈ fs := by
  induction fs generalizing n with
  | nil => cases h
  | cons f fs ih =>
    rcases List.mem_cons.mp h with rfl | h
    · exact ⟨rfl, rfl, List.mem_cons_self⟩
    · obtain ⟨hsession, hend, hmem⟩ := ih h
      exact ⟨hsession, hend, List.mem_cons_of_mem _ hmem⟩

theorem seq_received (session : Session) (n : Nat) (fs : List (List Payload)) (i : Nat)
    (h : i < (received session n fs).length) :
    (received session n fs)[i].seq =
      seqAt (n + (((received session n fs).take i).flatMap DownstreamPacket.messages).length) := by
  induction fs generalizing n i with
  | nil => cases h
  | cons f fs ih =>
    cases i with
    | zero => rfl
    | succ i =>
      have := ih (n + f.length) i (by simpa [received] using h)
      simpa [received, Nat.add_assoc] using this

theorem length_mem_zip {x : Datagram × DownstreamPacket}
    (h : x ∈ (stamped session n fs).zip (received session n fs)) :
    x.1.length = frameLength x.2.messages := by
  induction fs generalizing n with
  | nil => cases h
  | cons f fs ih =>
    rcases List.mem_cons.mp h with rfl | h
    · exact length_packet _ _ _
    · exact ih h

/-- A frame that was closed under an MTU that UDP allows is accepted. -/
theorem Whole.readable {f : List Payload} (h : Whole mtu f) (hmtu : mtu ≤ 65507)
    (hf : ∀ m ∈ f, m.length ≤ 65535) : Readable f := by
  refine ⟨?_, fun m hm => Nat.lt_succ_of_le (hf m hm)⟩
  rcases h.2 with hone | hsize
  · omega
  · have hblocks := two_mul_length_le f
    rw [frameLength, kHeaderSize] at hsize
    omega

theorem mem_of_mem_filled {f : List Payload} (h : f ∈ fs) : f = [] ∨ f ∈ filled fs := by
  cases f with
  | nil => exact .inl rfl
  | cons m f => exact .inr (List.mem_filter.mpr ⟨h, rfl⟩)

/-- **Packetizing and parsing.** For every sequence of calls that ends in a
    flush: every packet is accepted, the messages are those that were added, in
    order and numbered from 1, no packet is empty or too long without need, and
    the detector reports no gap on the packets, heartbeats and the end of the
    session. -/
theorem packetized_messages_parsed (session : Session) (mtu : Nat) (hmtu : mtu ≤ 65507)
    (calls : List Call) (beat : Bool) (hadded : ∀ m ∈ added calls, m.length ≤ 65535) :
    let t := Trace.run session mtu (calls ++ [.flush beat])
    (∃ ds : List DownstreamPacket,
      t.packets.map parse = ds.map (fun d => some (some d)) ∧
      (∀ d ∈ ds, d.session = session ∧ d.endOfSession = false ∧ d.messages ≠ []) ∧
      ds.flatMap DownstreamPacket.messages = added calls ∧
      (∀ i (h : i < ds.length), ds[i].seq =
        UInt64.ofNat (1 + ((ds.take i).flatMap DownstreamPacket.messages).length)) ∧
      (∀ x ∈ t.packets.zip ds, x.1.length ≤ mtu ∨ x.2.messages.length = 1)) ∧
    t.packetizer.nextSeq = UInt64.ofNat (1 + (added calls).length) ∧
    ∀ r ∈ GapDetector.reports {} (t.stream ++ [t.packetizer.endOfSession]), r = false := by
  intro t
  -- the frames that were closed, heartbeats among them
  obtain ⟨fs₀, cur, hrun⟩ := inv_run session mtu calls
  obtain ⟨fs, h⟩ := hrun.flush beat
  have ht : t = (Trace.run session mtu calls).call (.flush beat) := by
    show Trace.run session mtu (calls ++ [.flush beat]) = _
    rw [Trace.run, List.foldl_append]
    rfl
  rw [← ht] at h
  have hmessages : fs.flatten = added calls := by simpa using h.messages
  have hread : ∀ f ∈ filled fs, Readable f := by
    intro f hf
    refine (h.whole f hf).readable hmtu (fun m hm => hadded m ?_)
    rw [← hmessages, ← flatten_filled]
    exact List.mem_flatten.mpr ⟨f, hf, hm⟩
  have hreadAll : ∀ f ∈ fs, Readable f := by
    intro f hf
    rcases mem_of_mem_filled hf with rfl | hf
    · exact ⟨by decide, by simp⟩
    · exact hread f hf
  have hnext : t.packetizer.nextSeq = seqAt fs.flatten.length := by
    simpa using h.holds.nextSeq
  refine ⟨⟨received session 0 (filled fs), ?_, ?_, ?_, ?_, ?_⟩, ?_, ?_⟩
  · rw [h.packets]
    exact parse_stamped session 0 hread
  · intro d hd
    obtain ⟨hsession, hend, hmem⟩ := mem_received hd
    exact ⟨hsession, hend, (h.whole _ hmem).1⟩
  · rw [List.flatMap_def, messages_received, flatten_filled, hmessages]
  · intro i hi
    rw [seq_received, seqAt, Nat.zero_add, Nat.add_comm]
  · intro x hx
    rw [h.packets] at hx
    obtain ⟨-, -, hmem⟩ := mem_received (List.of_mem_zip hx).2
    rw [length_mem_zip hx]
    exact (h.whole _ hmem).2.symm
  · rw [hnext, hmessages, seqAt, Nat.add_comm]
  · have hend : t.packetizer.endOfSession =
        makeHeader session (seqAt (0 + fs.flatten.length)) kEndOfSessionCount := by
      rw [Packetizer.endOfSession, h.session_eq, hnext, Nat.zero_add]
    rw [h.stream, hend]
    exact reports_stamped session 0 {} hreadAll (UInt64.le_refl _)

/-- Two messages, the second of which does not fit behind the first. -/
theorem packetized_messages_parsed_two :
    let calls : List Call := [.addMessage [1, 2, 3], .addMessage [4], .takePackets]
    (∀ m ∈ added calls, m.length ≤ 65535) ∧
    (Trace.run (Vector.replicate 10 0) 25 (calls ++ [.flush true])).packets.length = 2 ∧
    (Trace.run (Vector.replicate 10 0) 25 (calls ++ [.flush true])).packetizer.nextSeq = 3 := by
  intro calls
  have hadded : ∀ m ∈ added calls, m.length ≤ 65535 := by decide
  have h := packetized_messages_parsed (Vector.replicate 10 0) 25 (by decide) calls true hadded
  exact ⟨hadded, by decide +kernel, h.2.1⟩

end Mold

end MatchingEngine
