import MatchingEngine.Client.Monitor
import MatchingEngine.Exchange.Completion

/-! # The audience of an exchange

    What comes out of an exchange, whatever bytes the clients sent, and however the
    threads interleaved. The prices of the engine's events fit into their messages,
    as the gateway lets no other price pass.

    * When `main` is done, every command that the gateway has forwarded was
      processed, if the channel is the mutex queue, and every event was published
      before the end of the session.
    * A listener that has heard everything shows the engine's books.
    * `itchlisten` over a network that loses and reorders datagrams: if it saw the
      end of the session and exits with 0, it prints the engine's books.
    * `itchreplay` on the capture of the feed: it sends the session once more, and
      dumps every event of the engine under its number.
-/

namespace MatchingEngine

namespace Exchange

open Client (Recv Listening recvSize ItchBookBuilder oneBuy oneBuyEvents run_oneBuy)
open Mold (datagramAt Carries messagesIn)

variable {cfg : ExchangeConfig} {x : Exchange}

/-! ## Section 1: What is published -/

/-- **Nothing is lost at shutdown.** When `main` is done, the engine has processed
    the first of the commands that the gateway has forwarded, and all of them if
    the channel is the mutex queue. The datagrams that were sent carry all events
    of the engine, each once and in order, and after them one end of session with
    the number after the last event. -/
theorem nothing_lost_at_shutdown (h : Reachable cfg x) (hdone : x.closing = .done) :
    Engine.run ({} : Engine FastBook) x.processed = some x.engine ∧
      x.processed.map Prod.snd <+: x.gateway.backend.toEngine ∧
      (cfg.lockFree = false → x.processed.map Prod.snd = x.gateway.backend.toEngine) ∧
      ∃ fs, Feed.Carrying cfg.session x.engine.marketEvents fs ∧
        x.feed.publisher.sent = Mold.stamped cfg.session 0 fs ++
          [Mold.makeHeader cfg.session (UInt64.ofNat (x.engine.marketEvents.length + 1))
            Mold.kEndOfSessionCount] := by
  have hwork := h.working
  refine ⟨hwork.engine, hwork.processed, h.processed_done hdone, ?_⟩
  obtain ⟨fs, hsent, hcarried, -⟩ := h.sent_done hdone
  refine ⟨fs, Feed.carrying_of_carried cfg.session hcarried, ?_⟩
  rw [hsent, Mold.broadcast, Mold.seqAt, hcarried.length_eq]

/-- The event of one order, and the end of the session with the number 2. -/
theorem nothing_lost_at_shutdown_one : ∃ x fs, Reachable demoConfig x ∧ x.processed = oneBuy ∧
    x.gateway.backend.toEngine = oneBuy.map Prod.snd ∧ x.engine.marketEvents = oneBuyEvents ∧
    Feed.Carrying demoConfig.session oneBuyEvents fs ∧
    x.feed.publisher.sent = Mold.stamped demoConfig.session 0 fs ++
      [Mold.makeHeader demoConfig.session 2 Mold.kEndOfSessionCount] := by
  obtain ⟨x, hx, hdone, hprocessed⟩ := exists_oneBuy
  obtain ⟨hrun, -, hall, fs, hcarrying, hsent⟩ := nothing_lost_at_shutdown hx hdone
  rw [hprocessed] at hrun
  obtain ⟨hevents, -⟩ := run_oneBuy hrun
  rw [hevents] at hcarrying hsent
  exact ⟨x, fs, hx, hprocessed, by rw [← hall rfl, hprocessed], hevents, hcarrying, hsent⟩

/-! ## Section 2: Listeners -/

/-- **A listener shows the engine's books.** Whatever bytes the clients send, and
    however the threads interleave: a listener that got the datagrams sent so far
    has seen no gap, and it shows the engine's books after the first `k` commands
    when it has heard as many messages as these have caused. It has heard what all
    commands have caused when the engine and the feed have nothing left to push
    and to publish. -/
theorem listener_shows_engine (h : Reachable cfg x) (hmtu : cfg.mtu ≤ 65507)
    (hcount : x.processed.length < 2 ^ 64) :
    ∃ b, ItchBookBuilder.onMoldPackets {} x.feed.publisher.sent = some b ∧ b.hadGap = false ∧
      b.messageCount = UInt64.ofNat (x.feed.publisher.sent.map messagesIn).sum ∧
      (x.feed.publisher.sent.map messagesIn).sum ≤ x.engine.marketEvents.length ∧
      (x.feed.queue.items = [] → x.feed.stage.inHand = [] → x.engine.out.length ≤ x.shipped →
        (x.feed.publisher.sent.map messagesIn).sum = x.engine.marketEvents.length) ∧
      ∀ k e, Engine.run ({} : Engine FastBook) (x.processed.take k) = some e →
        (x.feed.publisher.sent.map messagesIn).sum = e.marketEvents.length →
        ∀ symbol, ∃ snap, b.snapshot symbol = some snap ∧ e.bookSnapshot symbol = some snap := by
  have hwork := h.working
  -- what was sent carries the first of the events that were pushed
  obtain ⟨fs, evs, n, hsent, hfrom, hto, hcarried, hwhole, hpart, hall⟩ := h.fed.sent
  have hpushed : marketEventsOf x.pushed <+: x.engine.marketEvents := by
    have htake : x.pushed <+: x.engine.out := List.take_prefix _ _
    exact htake.filterMap _
  have hevs := hpart.trans hpushed
  obtain ⟨v, htape, honWire, -⟩ := h.tape_done hcount
  have hwire : ∀ m ∈ evs, Client.OnWire m := fun m hm => honWire m (hevs.subset hm)
  have hread : ∀ i < n, Mold.Readable (Mold.frameAt fs i) := fun i _ =>
    readable_of_whole hmtu hcarried hwhole i
  -- the listener has heard all of `evs`
  have hoffset : Mold.offset fs n = evs.length := by
    rw [Mold.offset_length hfrom, hcarried.length_eq]
  have hdatagrams : x.feed.publisher.sent =
      (List.range n).map (datagramAt (Mold.broadcast cfg.session fs)) := by
    rw [hsent, Mold.take_eq_map_datagramAt, Mold.length_broadcast, Nat.min_eq_left hto]
  have hsum : (x.feed.publisher.sent.map messagesIn).sum = evs.length := by
    rw [hdatagrams, Client.sum_messagesIn cfg.session hto hread, hoffset]
  have hheard : ∀ {books}, Tape evs books → ∃ b, ItchBookBuilder.onMoldPackets {}
      x.feed.publisher.sent = some b ∧ Client.Models b books ∧ b.hadGap = false ∧
        b.messageCount = UInt64.ofNat evs.length := by
    intro books ht
    rw [hdatagrams, ← hoffset]
    refine Client.heard_in_order cfg.session hcarried hwire hto hread ?_
    rw [hoffset, List.take_length]
    exact ht
  obtain ⟨books, ht⟩ := htape.take evs.length
  rw [← List.prefix_iff_eq_take.mp hevs] at ht
  obtain ⟨b, hb, -, hquiet, hmessages⟩ := hheard ht
  rw [hsum]
  refine ⟨b, hb, hquiet, hmessages, hevs.length_le, fun hqueue hhand hidle => ?_,
    fun k e hk hevents symbol => ?_⟩
  · rw [hall hqueue hhand, pushed, List.take_of_length_le hidle]
    rfl
  · -- the events of the first commands are those that were heard
    obtain ⟨e', w, hk', -, hreal, htapeₖ, -⟩ := Engine.run_tape (x.processed.take k)
    cases hk.symm.trans hk'
    have hfirst : e.marketEvents <+: x.engine.marketEvents :=
      Engine.run_prefix hk (by rw [List.take_append_drop]; exact hwork.engine)
    have hsame : e.marketEvents = evs := by
      rw [List.prefix_iff_eq_take.mp hfirst, List.prefix_iff_eq_take.mp hevs, ← hevents]
    rw [hsame] at htapeₖ
    obtain ⟨b', hb', hmodels, -, -⟩ := hheard htapeₖ
    cases hb.symm.trans hb'
    exact ⟨_, hmodels.snapshot symbol, hreal.bookSnapshot symbol⟩

/-- After the shutdown, the listener has heard one message and shows the order. -/
theorem listener_shows_engine_one : ∃ x b, Reachable demoConfig x ∧ x.processed = oneBuy ∧
    ItchBookBuilder.onMoldPackets {} x.feed.publisher.sent = some b ∧ b.hadGap = false ∧
      b.messageCount = 1 ∧ b.snapshot (Vector.replicate 8 65) = some ⟨[⟨1, [⟨1, 1⟩]⟩], []⟩ := by
  obtain ⟨x, hx, hdone, hprocessed⟩ := exists_oneBuy
  obtain ⟨b, hb, hquiet, hmessages, -, hall, hshown⟩ :=
    listener_shows_engine hx (by decide) (by rw [hprocessed]; decide)
  -- nothing is left to publish, so that the event was heard
  have hstage := hx.fed.ended hdone
  obtain ⟨drains, hflowing⟩ := hx.fed.flowing
  have hqueue := hflowing.emptied (by rw [hstage]; trivial)
  obtain ⟨-, hidle, -⟩ := hx.fed.returned (hx.fed.joined (by rw [hdone]; decide))
  have hrun := hx.working.engine
  obtain ⟨hevents, hsnap⟩ := run_oneBuy (hprocessed ▸ hrun)
  have hheard := hall hqueue (by rw [hstage]; rfl) hidle
  obtain ⟨snap, hb', he⟩ := hshown 1 x.engine (by rw [hprocessed] at hrun ⊢; exact hrun) hheard
    (Vector.replicate 8 65)
  cases hsnap.symm.trans he
  refine ⟨x, b, hx, hprocessed, hb, hquiet, ?_, hb'⟩
  rw [hmessages, hheard, hevents]
  rfl

/-! ## Section 3: itchlisten -/

/-- A symbol that is not listed has an empty book. -/
theorem snapshot_of_not_mem {b : ItchBookBuilder} {symbol : Symbol} (h : symbol ∉ b.symbols) :
    b.snapshot symbol = some {} := by
  have hnone : b.books.lookup symbol = none :=
    Finmap.lookup_eq_none.mpr (fun hmem => h (Finmap.mem_keys.mpr hmem))
  rw [ItchBookBuilder.snapshot, hnone]

/-- A datagram keeps to the MTU, or has one message alone. -/
theorem length_datagramAt {n mtu : Nat} (hn : 58 ≤ n) (hmtu : mtu ≤ n) (session : Mold.Session)
    {fs : List (List Mold.Payload)} {evs : List MarketEvent}
    (hcarried : List.Forall₂ Feed.Carried fs.flatten evs)
    (hwhole : ∀ f ∈ fs, f ≠ [] → Mold.Whole mtu f)
    {i : Nat} (hi : i ≤ fs.length) : (datagramAt (Mold.broadcast session fs) i).length ≤ n := by
  rw [Mold.datagramAt_broadcast session hi]
  split
  · rename_i hlt
    rw [Mold.length_packet, Mold.frameAt, List.getElem?_eq_getElem hlt, Option.getD_some]
    have hmem : fs[i] ∈ fs := List.getElem_mem hlt
    by_cases hempty : fs[i] = []
    · -- a heartbeat
      rw [hempty]
      exact Nat.le_trans (show Mold.frameLength [] ≤ 58 by decide) hn
    · rcases (hwhole _ hmem hempty).2 with hone | hsize
      · obtain ⟨m, hm⟩ := List.length_eq_one_iff.mp hone
        obtain ⟨k, hk, hget⟩ := List.mem_iff_getElem.mp
          (List.mem_flatten.mpr ⟨fs[i], hmem, hm ▸ List.mem_singleton_self m⟩)
        -- no message has more than 36 bytes
        have hshort := (hcarried.get hk (by rw [← hcarried.length_eq]; exact hk)).1
        rw [show fs.flatten.get ⟨k, hk⟩ = m from hget] at hshort
        rw [hm, Mold.frameLength, List.flatMap_singleton, Mold.length_block, Mold.kHeaderSize]
        omega
      · exact Nat.le_trans hsize hmtu
  · rw [Mold.length_makeHeader]
    exact Nat.le_trans (by decide) hn

/-- **The verdict of `itchlisten`.** After a shutdown, the datagrams of the session
    come to a listener in any order, some of them not at all, and no messages twice.
    If it saw the end of the session and exits with 0, it has heard every event. The
    ladder of each symbol is the one of the engine's book, and the book of a symbol
    that is not listed is empty. If everything comes in order and it is not stopped,
    it sees the end and exits with 0. -/
theorem itchlisten_verdict (h : Reachable cfg x) (hdone : x.closing = .done)
    (hmtu : cfg.mtu ≤ recvSize) (hcount : x.processed.length < 2 ^ 64)
    (hevents : x.engine.marketEvents.length + 1 < 2 ^ 64)
    {order : List Nat} (hmem : ∀ i ∈ order, i < x.feed.publisher.sent.length)
    (honce : (order.filter (fun i => Carries (datagramAt x.feed.publisher.sent i))).Nodup)
    {recvs : List Recv}
    (hnet : recvs.filterMap Recv.datagram? = order.map (datagramAt x.feed.publisher.sent)) :
    ∃ l, Listening.run {} recvs = some l ∧
      (l.eos = true → l.exitCode = 0 →
        l.builder.messageCount = UInt64.ofNat x.engine.marketEvents.length ∧
        ∀ symbol, ∃ snap rows, l.builder.snapshot symbol = some snap ∧
          x.engine.bookSnapshot symbol = some snap ∧ Client.ladder snap = some rows ∧
          (symbol ∉ l.builder.symbols → snap = {})) ∧
      (Recv.stop ∉ recvs → order = List.range x.feed.publisher.sent.length →
        l.eos = true ∧ l.exitCode = 0) := by
  obtain ⟨fs, hsent, hcarried, hwhole⟩ := h.sent_done hdone
  obtain ⟨v, htape, hwire, hbooks⟩ := h.tape_done hcount
  rw [hsent] at hmem honce hnet ⊢
  rw [Mold.length_broadcast] at hmem ⊢
  have hmem' : ∀ i ∈ order, i ≤ fs.length := fun i hi => Nat.le_of_lt_succ (hmem i hi)
  -- no datagram is longer than the buffer, so that none is cut
  obtain ⟨l, hl, ⟨ps, hps⟩, hshown, hquiet⟩ := Listening.run_broadcast hcarried hwire htape hevents
    (readable_of_whole (Nat.le_trans hmtu (by decide)) hcarried hwhole) hmem'
    (fun i hi => length_datagramAt (by decide) hmtu cfg.session hcarried hwhole (hmem' i hi)) honce
    hnet
  refine ⟨l, hl, fun hend hzero => ?_, hquiet⟩
  obtain ⟨hmodels, hmessages⟩ := hshown hend hzero
  refine ⟨hmessages, fun symbol => ?_⟩
  obtain ⟨rows, hrows⟩ := hmodels.ladder (Client.priced_of_onMoldPackets hps) symbol
  rw [hmodels.snapshot symbol, Option.bind_some] at hrows
  refine ⟨_, rows, hmodels.snapshot symbol, hbooks symbol, hrows, fun hmem => ?_⟩
  exact Option.some.inj ((hmodels.snapshot symbol).symm.trans (snapshot_of_not_mem hmem))

/-- Everything that was sent comes in order. The symbol of the order is listed with
    it, as its book is not empty. -/
theorem itchlisten_verdict_one : ∃ x l, Reachable demoConfig x ∧
    Listening.run {} (x.feed.publisher.sent.map .datagram) = some l ∧ l.eos = true ∧
      l.exitCode = 0 ∧ l.builder.messageCount = 1 ∧
      l.builder.snapshot (Vector.replicate 8 65) = some ⟨[⟨1, [⟨1, 1⟩]⟩], []⟩ ∧
      Vector.replicate 8 65 ∈ l.builder.symbols := by
  obtain ⟨x, hx, hdone, hprocessed⟩ := exists_oneBuy
  have hrun := hx.working.engine
  rw [hprocessed] at hrun
  obtain ⟨hevents, hsnap⟩ := run_oneBuy hrun
  have hnet : (x.feed.publisher.sent.map Recv.datagram).filterMap Recv.datagram? =
      (List.range x.feed.publisher.sent.length).map (datagramAt x.feed.publisher.sent) := by
    have hall := Mold.take_eq_map_datagramAt x.feed.publisher.sent x.feed.publisher.sent.length
    rw [List.take_length, Nat.min_self] at hall
    rw [← hall, List.filterMap_map]
    exact List.filterMap_some
  obtain ⟨l, hl, hshown, hquiet⟩ := itchlisten_verdict hx hdone (by decide)
    (by rw [hprocessed]; decide) (by rw [hevents]; decide) (fun _ => List.mem_range.mp)
    (List.nodup_range.filter _) hnet
  obtain ⟨hend, hzero⟩ := hquiet (by simp) rfl
  obtain ⟨hmessages, hbooks⟩ := hshown hend hzero
  obtain ⟨snap, rows, hb, he, -, hlisted⟩ := hbooks (Vector.replicate 8 65)
  cases hsnap.symm.trans he
  refine ⟨x, l, hx, hl, hend, hzero, ?_, hb, ?_⟩
  · rw [hmessages, hevents]
    rfl
  · by_contra hmem
    cases hlisted hmem

/-! ## Section 4: itchreplay -/

/-- **A session is recorded.** The capture of a session that was shut down, with
    any times on its records. `itchreplay replay` sends the datagrams once more.
    `itchreplay dump` prints a line for each of them, with all events of the engine
    in order; every line shows the number of the event that comes next, and the last
    line is the end of the session. -/
theorem session_recorded (h : Reachable cfg x) (hdone : x.closing = .done) (hmtu : cfg.mtu ≤ 65507)
    (clock : Nat → UInt64) :
    ∃ file d, ((Feed.CaptureWriter.new true).writeAll
        (Client.recorded clock x.feed.publisher.sent)).f = some file ∧
      Client.replay (some file) = some x.feed.publisher.sent ∧
      Client.dump (some file) = some (some d) ∧
      d.lines.length = x.feed.publisher.sent.length ∧
      d.packets = UInt64.ofNat x.feed.publisher.sent.length ∧
      d.messages = UInt64.ofNat x.engine.marketEvents.length ∧
      d.lines.flatMap Client.DumpLine.names =
        x.engine.marketEvents.map (fun ev => some (Client.eventName ev)) ∧
      (∀ i (hi : i < d.lines.length), d.lines[i].seq? =
        some (Mold.seqAt ((d.lines.take i).flatMap Client.DumpLine.names).length)) ∧
      d.lines.getLast? = some (.endOfSession (clock (x.feed.publisher.sent.length - 1))
        (Mold.seqAt x.engine.marketEvents.length)) := by
  obtain ⟨fs, hsent, hcarried, hwhole⟩ := h.sent_done hdone
  have hread := readable_of_whole hmtu hcarried hwhole
  have hfits : ∀ rec ∈ Client.recorded clock x.feed.publisher.sent, rec.Fits := by
    intro rec hrec
    rw [Client.recorded_eq, hsent, Mold.length_broadcast] at hrec
    obtain ⟨i, hi, rfl⟩ := List.mem_map.mp hrec
    have hlength := length_datagramAt (by decide) hmtu cfg.session hcarried hwhole
      (Nat.le_of_lt_succ (List.mem_range.mp hi))
    exact Nat.lt_of_le_of_lt hlength (by decide)
  have hopened : (Feed.CaptureReader.new (some (Feed.kCaptureMagic ++
      (Client.recorded clock x.feed.publisher.sent).flatMap Feed.CaptureRecord.written))).ok =
        true := by
    rw [Feed.CaptureReader.new_magic]
    rfl
  refine ⟨_, ⟨Client.sessionLines clock fs, UInt64.ofNat (fs.length + 1),
      UInt64.ofNat fs.flatten.length⟩, Feed.CaptureWriter.writeAll_eq _, ?_, ?_, ?_, ?_,
    congrArg UInt64.ofNat hcarried.length_eq, ?_, ?_, ?_⟩
  · rw [Client.replay, if_pos hopened, Client.readAll_complete hfits, Client.bytes_recorded]
  · rw [Client.dump, if_pos hopened, Client.readAll_complete hfits, hsent,
      Client.dump_broadcast clock hcarried hread]
    rfl
  · rw [hsent, Mold.length_broadcast]
    simp [Client.sessionLines]
  · rw [hsent, Mold.length_broadcast]
  · -- the end of the session has no names
    have hnames := Client.names_sessionLines clock fs (Nat.le_refl _)
    rw [List.take_of_length_le (Nat.le_refl fs.length), Client.nameOf_carried hcarried] at hnames
    rw [← hnames, Client.sessionLines, List.take_left' (by simp), List.flatMap_append]
    simp [Client.DumpLine.names]
  · intro i hi
    exact Client.seq_sessionLines clock hi
  · rw [hsent, Mold.length_broadcast, ← hcarried.length_eq]
    simp [Client.sessionLines]

/-- The capture of the session with one order. -/
theorem session_recorded_one : ∃ x file d, Reachable demoConfig x ∧
    ((Feed.CaptureWriter.new true).writeAll
      (Client.recorded (fun _ => 7) x.feed.publisher.sent)).f = some file ∧
      Client.replay (some file) = some x.feed.publisher.sent ∧
      Client.dump (some file) = some (some d) ∧ d.messages = 1 ∧
      d.lines.flatMap Client.DumpLine.names = [some (text "AddOrder")] ∧
      d.lines.getLast? = some (.endOfSession 7 2) := by
  obtain ⟨x, hx, hdone, hprocessed⟩ := exists_oneBuy
  have hrun := hx.working.engine
  rw [hprocessed] at hrun
  obtain ⟨hevents, -⟩ := run_oneBuy hrun
  obtain ⟨file, d, hfile, hreplay, hdump, -, -, hmessages, hnames, -, hlast⟩ :=
    session_recorded hx hdone (by decide) (fun _ => 7)
  rw [hevents] at hmessages hnames hlast
  exact ⟨x, file, d, hx, hfile, hreplay, hdump, hmessages, hnames, hlast⟩

end Exchange

end MatchingEngine
