import MatchingEngine.Client.ItchBook

/-! # Listening to a feed

    The engine's market events go through the publisher, the network and the
    listener's builder.

    * Without loss, the builder shows the engine's books after every whole
      number of commands (`feed_determines_book`).
    * With loss, duplication and reordering, a builder that saw no gap shows the
      engine's books, if no messages were delivered twice
      (`quiet_listener_correct`). A packet that is delivered twice is applied
      twice, and no gap is reported (`quiet_listener_wrong`).
-/

namespace MatchingEngine

namespace Client

open Mold Feed ItchBookBuilder

variable {evs : List MarketEvent} {fs : List (List Payload)} {books : Symbol → PriorityBook}

/-! ## Section 1: Payloads and datagrams -/

namespace ItchBookBuilder

def setGaps (b : ItchBookBuilder) (d : GapDetector) : ItchBookBuilder := { b with gaps := d }

variable (b : ItchBookBuilder) (d d' : GapDetector)

theorem removeOrder_setGaps (ref : UInt64) :
    (b.setGaps d).removeOrder ref = (b.removeOrder ref).setGaps d := by
  have horders : (b.setGaps d).orders = b.orders := rfl
  unfold removeOrder
  rw [horders]
  cases b.orders.lookup ref <;> rfl

theorem reduceOrder_setGaps (ref : UInt64) (qty : Qty) :
    (b.setGaps d).reduceOrder ref qty = (b.reduceOrder ref qty).setGaps d := by
  have horders : (b.setGaps d).orders = b.orders := rfl
  unfold reduceOrder
  rw [horders]
  cases b.orders.lookup ref with
  | none => rfl
  | some order =>
    dsimp only
    split
    · exact removeOrder_setGaps b d ref
    · rfl

theorem perform_setGaps (e : Effect) : (b.setGaps d).perform e = (b.perform e).setGaps d := by
  cases e with
  | nothing => rfl
  | add ref symbol side price shares => rfl
  | reduce ref qty => exact b.reduceOrder_setGaps d ref qty
  | remove ref => exact b.removeOrder_setGaps d ref
  | replace originalRef newRef price shares =>
    have hremove := b.removeOrder_setGaps d originalRef
    have horders : (b.setGaps d).orders = b.orders := rfl
    unfold perform
    dsimp only
    rw [horders]
    cases b.orders.lookup originalRef with
    | none => rfl
    | some order =>
      dsimp only
      rw [hremove]
      rfl

/-- Messages and the gap detector do not concern each other. -/
theorem onMessage_setGaps (msg : Itch.Message) :
    (b.setGaps d).onMessage msg = (b.onMessage msg).setGaps d := by
  have hnoted : (b.setGaps d).noted msg = (b.noted msg).setGaps d := by
    cases msg <;> rfl
  rw [onMessage_eq, hnoted, perform_setGaps, ← onMessage_eq]

theorem onPayload_setGaps (bytes : Payload) :
    (b.setGaps d).onPayload bytes = (b.onPayload bytes).map (fun b' => b'.setGaps d) := by
  unfold onPayload
  rcases Itch.decode bytes with _ | (_ | msg)
  · rfl
  · rfl
  · exact congrArg some (onMessage_setGaps b d msg)

theorem payloads_setGaps (ms : List Payload) :
    ms.foldlM onPayload (b.setGaps d) = (ms.foldlM onPayload b).map (fun b' => b'.setGaps d) := by
  induction ms generalizing b with
  | nil => rfl
  | cons m ms ih =>
    rw [List.foldlM_cons, List.foldlM_cons, onPayload_setGaps]
    cases b.onPayload m with
    | none => rfl
    | some b' => exact ih b'

/-- Datagrams of a broadcast, delivered in any order: their payloads one after
    the other, and what the detector makes of their numbers. -/
theorem onMoldPackets_broadcast (session : Session) {fs : List (List Payload)} {order : List Nat}
    (hmem : ∀ i ∈ order, i ≤ fs.length) (hread : ∀ i ∈ order, Readable (frameAt fs i)) :
    b.onMoldPackets (order.map (datagramAt (broadcast session fs))) =
      ((order.flatMap (frameAt fs)).foldlM onPayload b).map (fun b' =>
        b'.setGaps (b.gaps.run (order.map (datagramAt (broadcast session fs))))) := by
  induction order generalizing b with
  | nil => rfl
  | cons i order ih =>
    have hi := hmem i List.mem_cons_self
    have hfirst := hread i List.mem_cons_self
    obtain ⟨last, hparse⟩ := parse_broadcast session hi hfirst
    have hpacket : b.onMoldPacket (datagramAt (broadcast session fs) i) =
        ((frameAt fs i).foldlM onPayload b).map (fun b' =>
          (b'.setGaps (b.gaps.onDatagram (datagramAt (broadcast session fs) i)).1, last)) := by
      rw [onDatagram_broadcast session _ hi hfirst]
      unfold onMoldPacket
      rw [hparse]
      show ((frameAt fs i).foldlM onPayload (b.setGaps (b.gaps.onPacket _ _).1)).bind _ = _
      rw [payloads_setGaps]
      cases (frameAt fs i).foldlM onPayload b <;> rfl
    have hrest := fun b' => ih b' (fun j hj => hmem j (List.mem_cons_of_mem _ hj))
      (fun j hj => hread j (List.mem_cons_of_mem _ hj))
    rw [List.map_cons, onMoldPackets, List.foldlM_cons, hpacket, List.flatMap_cons,
      List.foldlM_append]
    cases (frameAt fs i).foldlM onPayload b with
    | none => rfl
    | some b' =>
      show (b'.setGaps _).onMoldPackets _ = ((order.flatMap (frameAt fs)).foldlM onPayload b').map _
      rw [hrest, payloads_setGaps]
      cases (order.flatMap (frameAt fs)).foldlM onPayload b' <;> rfl

end ItchBookBuilder

/-! ## Section 2: A tape that is heard -/

/-- Payloads that stand for events can be read. -/
theorem payloads_defined {ms : List Payload} (h : List.Forall₂ Carried ms evs)
    {order : List Payload} (hsub : ∀ m ∈ order, m ∈ ms) (b : ItchBookBuilder) :
    ∃ b', order.foldlM onPayload b = some b' := by
  induction order generalizing b with
  | nil => exact ⟨b, rfl⟩
  | cons m order ih =>
    obtain ⟨i, hi, rfl⟩ := List.mem_iff_getElem.mp (hsub m List.mem_cons_self)
    obtain ⟨-, locate, hdecode⟩ := h.get hi (by rw [← h.length_eq]; exact hi)
    obtain ⟨b', hb'⟩ := ih (fun m' hm' => hsub m' (List.mem_cons_of_mem _ hm'))
      (b.onMessage (itchMessage _ locate).onWire)
    refine ⟨b', ?_⟩
    rw [List.foldlM_cons, onPayload]
    rw [show Itch.decode ms[i] = _ from hdecode]
    exact hb'

theorem mem_flatten_of_mem_frameAt {m : Payload} {i : Nat} (hm : m ∈ frameAt fs i) :
    m ∈ fs.flatten := by
  rw [frameAt] at hm
  cases hf : fs[i]? with
  | none => simp [hf] at hm
  | some f =>
    rw [hf] at hm
    exact List.mem_flatten.mpr ⟨f, List.mem_of_getElem? hf, hm⟩

/-- A builder can read the datagrams of a broadcast of events, in any order. -/
theorem onMoldPackets_defined (session : Session) (hcarried : List.Forall₂ Carried fs.flatten evs)
    {order : List Nat} (hmem : ∀ i ∈ order, i ≤ fs.length)
    (hread : ∀ i ∈ order, Readable (frameAt fs i)) :
    ∃ b, (order.flatMap (frameAt fs)).foldlM onPayload {} = some b ∧
      onMoldPackets {} (order.map (datagramAt (broadcast session fs))) =
        some (b.setGaps (GapDetector.run {} (order.map (datagramAt (broadcast session fs))))) := by
  have hsub : ∀ m ∈ order.flatMap (frameAt fs), m ∈ fs.flatten := by
    intro m hm
    obtain ⟨i, -, hm⟩ := List.mem_flatMap.mp hm
    exact mem_flatten_of_mem_frameAt hm
  obtain ⟨b, hb⟩ := payloads_defined hcarried hsub {}
  refine ⟨b, hb, ?_⟩
  rw [onMoldPackets_broadcast {} session hmem hread, hb]
  rfl

theorem messages_onMessage (b : ItchBookBuilder) (msg : Itch.Message) :
    (b.onMessage msg).messages = b.messages + 1 := by
  obtain ⟨orders, books, hperform⟩ := (b.noted msg).perform_frame (effect msg)
  rw [onMessage_eq, hperform]
  cases msg <;> rfl

/-- A builder that hears a tape models the books of the tape. -/
theorem heard (ht : Tape evs books) (hwire : ∀ m ∈ evs, OnWire m) {ms : List Payload}
    (hc : List.Forall₂ Carried ms evs) :
    ∃ b, ms.foldlM onPayload {} = some b ∧ Models b books ∧
      b.messages = UInt64.ofNat ms.length := by
  induction ht generalizing ms with
  | nil =>
    rw [List.forall₂_nil_right_iff.mp hc]
    exact ⟨{}, rfl, models_new, rfl⟩
  | @snoc evs books tape m enabled fresh ih =>
    have hfront := List.forall₂_take_append _ _ _ hc
    obtain ⟨last, rest, hlast, hnil, hdrop⟩ :=
      List.forall₂_cons_right_iff.mp (List.forall₂_drop_append _ _ _ hc)
    rw [List.forall₂_nil_right_iff.mp hnil] at hdrop
    obtain ⟨b, hb, hmodels, hcount⟩ := ih (fun m' hm' => hwire m' (by simp [hm'])) hfront
    obtain ⟨-, locate, hdecode⟩ := hlast
    refine ⟨b.onMessage (itchMessage m locate).onWire, ?_,
      hmodels.onMessage enabled fresh (hwire m (by simp)) locate, ?_⟩
    · rw [← List.take_append_drop evs.length ms, hdrop, List.foldlM_append, hb]
      simp [onPayload, hdecode]
    · have hms := congrArg List.length (List.take_append_drop evs.length ms)
      rw [hdrop, List.length_append] at hms
      rw [← hms, messages_onMessage, hcount, List.length_singleton, UInt64.ofNat_add]
      rfl

/-! ## Section 3: Delivery without loss -/

/-- The price of a command is one that OUCH can carry. -/
def PriceOnWire : CommandMsg → Prop
  | .enter m => 0 ≤ m.price ∧ m.price < 2 ^ 32
  | .replace m => 0 ≤ m.price ∧ m.price < 2 ^ 32
  | .cancel _ => True

theorem onWire_of_charted {cmds : List (Nat × Command)} {e : Engine FastBook}
    (h : Engine.Charted cmds e) (hprice : ∀ c ∈ cmds, PriceOnWire c.2.msg)
    (hcount : cmds.length < 2 ^ 64) : ∀ m ∈ e.marketEvents, OnWire m := by
  intro m hm r hr
  obtain ⟨hid, c, hc, hoffers⟩ := h.introduced m hm r hr
  have hwire := hprice c hc
  refine ⟨Nat.lt_of_le_of_lt hid hcount, ?_⟩
  cases hmsg : c.2.msg with
  | enter msg =>
    rw [hmsg] at hoffers hwire
    exact hoffers.2.2.1 ▸ hwire.2
  | replace msg =>
    rw [hmsg] at hoffers hwire
    exact hoffers.1 ▸ hwire.2
  | cancel msg =>
    rw [hmsg] at hoffers
    exact hoffers.elim

/-- The first datagrams of a broadcast carry the first events. -/
theorem heard_in_order (session : Session) (hc : List.Forall₂ Carried fs.flatten evs)
    (hwire : ∀ m ∈ evs, OnWire m) {n : Nat} (hn : n ≤ fs.length + 1)
    (hread : ∀ i < n, Readable (frameAt fs i)) (ht : Tape (evs.take (offset fs n)) books) :
    ∃ b, onMoldPackets {} ((List.range n).map (datagramAt (broadcast session fs))) = some b ∧
      Models b books ∧ b.hadGap = false ∧ b.messageCount = UInt64.ofNat (offset fs n) := by
  have hpayloads : (List.range n).flatMap (frameAt fs) = fs.flatten.take (offset fs n) := by
    rw [range_flatMap_frameAt, take_flatten]
  obtain ⟨b, hb, hmodels, hcount⟩ := heard ht (fun m hm => hwire m (List.mem_of_mem_take hm))
    (List.forall₂_take (offset fs n) hc)
  rw [onMoldPackets_broadcast _ session
    (fun i hi => Nat.le_of_lt_succ (Nat.lt_of_lt_of_le (List.mem_range.mp hi) hn))
    (fun i hi => hread i (List.mem_range.mp hi)), hpayloads, hb]
  refine ⟨_, rfl, ?_, (run_in_order session hn hread).1, ?_⟩
  · exact hmodels.congr rfl rfl
  · show b.messages = _
    rw [hcount, List.length_take, Nat.min_eq_left (offset_le fs n)]

theorem sum_messagesIn (session : Session) {n : Nat} (hn : n ≤ fs.length + 1)
    (hread : ∀ i < n, Readable (frameAt fs i)) :
    (((List.range n).map (datagramAt (broadcast session fs))).map messagesIn).sum =
      offset fs n := by
  induction n with
  | zero => rfl
  | succ n ih =>
    rw [List.range_succ, List.map_append, List.map_append, List.sum_append,
      ih (by omega) (fun i hi => hread i (by omega)), offset_succ]
    simp [messagesIn_broadcast session (Nat.le_of_lt_succ hn) (hread n (by omega))]

/-- The first datagrams that were sent, when each of them fits into UDP. -/
theorem take_sent {session : Session} {sent : List Datagram} (hsent : sent = broadcast session fs)
    (hudp : ∀ d ∈ sent, d.length ≤ 65507) (n : Nat) :
    sent.take n = (List.range (min n (fs.length + 1))).map (datagramAt (broadcast session fs)) ∧
      ∀ i < min n (fs.length + 1), Readable (frameAt fs i) := by
  have hlength : sent.length = fs.length + 1 := by rw [hsent, length_broadcast]
  constructor
  · rw [take_eq_map_datagramAt, hlength, hsent]
  · intro i hi
    apply readable_of_length session (by omega)
    rw [← hsent, datagramAt, List.getElem?_eq_getElem (by omega)]
    exact hudp _ (List.getElem_mem _)

/-- After any number of datagrams, a builder has reported no gap and models the books of
    the events that were delivered. -/
theorem feed_heard {cmds : List (Nat × Command)} {e : Engine FastBook}
    (hchart : Engine.Charted cmds e) (htape : ∃ books, Tape e.marketEvents books)
    (hprice : ∀ c ∈ cmds, PriceOnWire c.2.msg) (hcount : cmds.length < 2 ^ 64) (session : Session)
    (mtu : Nat) {drains : List (List MarketEvent)} {last : List MarketEvent}
    (hdrains : drains.flatten ++ last = e.marketEvents) :
    ∃ p, Publisher.run session mtu drains last = some p ∧
      ((∀ d ∈ p.sent, d.length ≤ 65507) → ∀ n,
        ∃ b, onMoldPackets {} (p.sent.take n) = some b ∧ b.hadGap = false ∧
          b.messageCount = UInt64.ofNat ((p.sent.take n).map messagesIn).sum ∧
          (p.sent.length ≤ n → ((p.sent.take n).map messagesIn).sum = e.marketEvents.length) ∧
          (∃ books, Models b books) ∧
          ∀ books, Tape (e.marketEvents.take ((p.sent.take n).map messagesIn).sum) books →
            Models b books) := by
  have hwire := onWire_of_charted hchart hprice hcount
  obtain ⟨p, fs, hp, hsent, -, hcarried, -⟩ := run_spec session mtu drains last
  rw [hdrains] at hcarried
  refine ⟨p, hp, fun hudp n => ?_⟩
  have hlength : p.sent.length = fs.length + 1 := by rw [hsent, length_broadcast]
  obtain ⟨htake, hread⟩ := take_sent hsent hudp n
  have hn : min n (fs.length + 1) ≤ fs.length + 1 := Nat.min_le_right _ _
  rw [htake, hlength, sum_messagesIn session hn hread]
  have hheard : ∀ {books}, Tape (e.marketEvents.take (offset fs (min n (fs.length + 1)))) books →
      _ := fun ht => heard_in_order session hcarried hwire hn hread ht
  obtain ⟨all, hall⟩ := htape
  obtain ⟨books, hbooks⟩ := hall.take (offset fs (min n (fs.length + 1)))
  obtain ⟨b, hb, hmodels, hquiet, hcounted⟩ := hheard hbooks
  refine ⟨b, hb, hquiet, hcounted, fun hend => ?_, ⟨books, hmodels⟩, fun books' hbooks' => ?_⟩
  · rw [offset_length (by omega), hcarried.length_eq]
  · obtain ⟨b', hb', hmodels', -⟩ := hheard hbooks'
    cases hb.symm.trans hb'
    exact hmodels'

/-- **The feed determines the book.** Fewer than `2 ^ 64` commands are processed,
    so that references do not wrap, and every datagram fits into UDP.

    However the market events are drained, after any number of datagrams the
    builder has reported no gap and has counted the messages delivered, modulo
    2^64. Whenever these are the events of the first `k` commands, it shows the
    engine's books after those commands. -/
theorem feed_determines_book (cmds : List (Nat × Command))
    (hprice : ∀ c ∈ cmds, PriceOnWire c.2.msg) (hcount : cmds.length < 2 ^ 64) :
    ∃ e, Engine.run ({} : Engine FastBook) cmds = some e ∧
      ∀ session mtu drains last, drains.flatten ++ last = e.marketEvents →
        ∃ p, Publisher.run session mtu drains last = some p ∧
          ((∀ d ∈ p.sent, d.length ≤ 65507) → ∀ n,
            ∃ b, onMoldPackets {} (p.sent.take n) = some b ∧ b.hadGap = false ∧
              b.messageCount = UInt64.ofNat ((p.sent.take n).map messagesIn).sum ∧
              (p.sent.length ≤ n →
                ((p.sent.take n).map messagesIn).sum = e.marketEvents.length) ∧
              ∀ k eₖ, Engine.run ({} : Engine FastBook) (cmds.take k) = some eₖ →
                ((p.sent.take n).map messagesIn).sum = eₖ.marketEvents.length →
                ∀ symbol, ∃ snap, b.snapshot symbol = some snap ∧
                  eₖ.bookSnapshot symbol = some snap) := by
  obtain ⟨e, v, hrun, -, -, htape, hchart⟩ := Engine.run_tape cmds
  refine ⟨e, hrun, fun session mtu drains last hdrains => ?_⟩
  obtain ⟨p, hp, hheard⟩ := feed_heard hchart ⟨_, htape⟩ hprice hcount session mtu hdrains
  refine ⟨p, hp, fun hudp n => ?_⟩
  obtain ⟨b, hb, hquiet, hcounted, hall, -, hmodels⟩ := hheard hudp n
  refine ⟨b, hb, hquiet, hcounted, hall, fun k eₖ hk hevents symbol => ?_⟩
  -- the events of the first commands are a tape of their own
  obtain ⟨eₖ', vₖ, hk', -, hreal, htapeₖ, -⟩ := Engine.run_tape (cmds.take k)
  cases hk.symm.trans hk'
  have hfirst : eₖ.marketEvents <+: e.marketEvents :=
    Engine.run_prefix hk (by rw [List.take_append_drop]; exact hrun)
  rw [List.prefix_iff_eq_take.mp hfirst, ← hevents] at htapeₖ
  exact ⟨_, (hmodels _ htapeₖ).snapshot symbol, hreal.bookSnapshot symbol⟩

section oneBuy

/-- A day order to buy one share. -/
def restingBuy : Ouch.EnterOrder where
  token := Vector.replicate 14 65
  side := Side.buy.toByte
  shares := 1
  stock := Vector.replicate 8 65
  price := 1
  tif := 99999
  firm := Vector.replicate 4 32
  display := ch 'Y'
  capacity := ch 'O'
  intermarketSweep := ch 'N'
  minQty := 0
  crossType := ch 'N'
  customerType := ch 'R'

def oneBuy : List (Nat × Command) := [(0, ⟨1, .enter restingBuy⟩)]

def oneBuyEvents : List MarketEvent := [⟨0, Vector.replicate 8 65, .added ⟨1, .buy, 1, 1⟩⟩]

theorem run_oneBuy {e : Engine FastBook} (h : Engine.run ({} : Engine FastBook) oneBuy = some e) :
    e.marketEvents = oneBuyEvents ∧
      e.bookSnapshot (Vector.replicate 8 65) = some ⟨[⟨1, [⟨1, 1⟩]⟩], []⟩ := by
  obtain ⟨e', a, he, ha, hsim⟩ := Engine.sim_fresh.run oneBuy
  cases h.symm.trans he
  -- the run is evaluated over priority books
  have heval : (({} : Engine PriorityBook).run oneBuy).map (fun a =>
      (a.marketEvents, a.bookSnapshot (Vector.replicate 8 65))) =
        some (oneBuyEvents, some ⟨[⟨1, [⟨1, 1⟩]⟩], []⟩) := by decide +kernel
  rw [ha] at heval
  obtain ⟨hevents, hsnap⟩ := Prod.mk.inj (Option.some.inj heval)
  refine ⟨?_, (hsim.bookSnapshot _).trans hsnap⟩
  rw [← hevents]
  exact congrArg Engine.Desk.events hsim.desk

theorem sent_oneBuy {p : Publisher}
    (h : Publisher.run (Vector.replicate 10 32) 1400 [oneBuyEvents] [] = some p) :
    p.sent.map List.length = [58, 20] := by
  have heval : (Publisher.run (Vector.replicate 10 32) 1400 [oneBuyEvents] []).map
      (fun p => p.sent.map List.length) = some [58, 20] := by decide +kernel
  rw [h] at heval
  exact Option.some.inj heval

theorem oneBuy_onWire : ∀ c ∈ oneBuy, PriceOnWire c.2.msg := by
  intro c hc
  rw [List.mem_singleton.mp hc]
  exact ⟨by decide, by decide⟩

/-- The order is shown when its packet has been delivered. -/
theorem feed_determines_book_one :
    ∃ e p b, Engine.run ({} : Engine FastBook) oneBuy = some e ∧
      Publisher.run (Vector.replicate 10 32) 1400 [oneBuyEvents] [] = some p ∧
      onMoldPackets {} (p.sent.take 2) = some b ∧
      b.snapshot (Vector.replicate 8 65) = some ⟨[⟨1, [⟨1, 1⟩]⟩], []⟩ := by
  obtain ⟨e, he, h⟩ := feed_determines_book oneBuy oneBuy_onWire (by decide)
  obtain ⟨hevents, hsnap⟩ := run_oneBuy he
  obtain ⟨p, hp, h⟩ := h (Vector.replicate 10 32) 1400 [oneBuyEvents] [] (by rw [hevents]; rfl)
  have hsizes := sent_oneBuy hp
  have hlength : p.sent.length = 2 := by simpa using congrArg List.length hsizes
  have hudp : ∀ d ∈ p.sent, d.length ≤ 65507 := by
    intro d hd
    have hmem : d.length ∈ [58, 20] := hsizes ▸ List.mem_map_of_mem hd
    rcases List.mem_pair.mp hmem with h | h <;> rw [h] <;> decide
  obtain ⟨b, hb, -, -, hall, hshown⟩ := h hudp 2
  obtain ⟨snap, hsnap', he'⟩ := hshown 1 e he (hall (by omega)) (Vector.replicate 8 65)
  cases hsnap.symm.trans he'
  exact ⟨e, p, b, he, hp, hb, hsnap'⟩

end oneBuy

/-! ## Section 4: Loss, duplication and reordering -/

/-- Datagrams in any order, some of them not at all and none with messages twice, and
    the end of the session behind them: a builder without a gap models the books. -/
theorem heard_once (session : Session) (hcarried : List.Forall₂ Carried fs.flatten evs)
    (hwire : ∀ m ∈ evs, OnWire m) (htape : Tape evs books) (hbound : evs.length + 1 < 2 ^ 64)
    {order : List Nat} (hmem : ∀ i ∈ order, i ≤ fs.length)
    (hread : ∀ i ∈ order, Readable (frameAt fs i))
    (honce : (order.filter (fun i => Carries (datagramAt (broadcast session fs) i))).Nodup) :
    ∃ b, onMoldPackets {} ((order ++ [fs.length]).map
        (datagramAt (broadcast session fs))) = some b ∧
      (b.hadGap = false → Models b books ∧ b.messageCount = UInt64.ofNat evs.length) := by
  have hmem' : ∀ i ∈ order ++ [fs.length], i ≤ fs.length := by
    simpa [or_imp, forall_and] using hmem
  have hread' : ∀ i ∈ order ++ [fs.length], Readable (frameAt fs i) := by
    simpa [or_imp, forall_and] using ⟨hread, readable_end fs⟩
  obtain ⟨b, hb, hdelivery⟩ := onMoldPackets_defined session hcarried hmem' hread'
  refine ⟨_, hdelivery, fun hquiet => ?_⟩
  have hall := delivered_once session hmem hread honce (by rw [hcarried.length_eq]; exact hbound)
    hquiet
  rw [List.flatMap_append, List.flatMap_singleton, frameAt_end, List.append_nil, hall] at hb
  obtain ⟨b', hb', hmodels, hcount⟩ := heard htape hwire hcarried
  cases hb.symm.trans hb'
  exact ⟨hmodels.congr rfl rfl, hcount.trans (congrArg UInt64.ofNat hcarried.length_eq)⟩

/-- **No reported gap means a correct book**, if no datagram with messages is
    delivered twice. A delivery is any list of positions with the end of the
    session behind it. -/
theorem quiet_listener_correct (cmds : List (Nat × Command))
    (hprice : ∀ c ∈ cmds, PriceOnWire c.2.msg) (hcount : cmds.length < 2 ^ 64) :
    ∃ e, Engine.run ({} : Engine FastBook) cmds = some e ∧
      ∀ session mtu drains last, drains.flatten ++ last = e.marketEvents →
        e.marketEvents.length + 1 < 2 ^ 64 →
        ∃ p, Publisher.run session mtu drains last = some p ∧
          ∀ order : List Nat,
            (∀ i ∈ order, i < p.sent.length ∧ (datagramAt p.sent i).length ≤ 65507) →
            (order.filter (fun i => Carries (datagramAt p.sent i))).Nodup →
            ∃ b, onMoldPackets {}
                ((order ++ [p.sent.length - 1]).map (datagramAt p.sent)) = some b ∧
              (b.hadGap = false →
                ∀ symbol, ∃ snap, b.snapshot symbol = some snap ∧
                  e.bookSnapshot symbol = some snap) := by
  obtain ⟨e, v, hrun, -, hreal, htape, hchart⟩ := Engine.run_tape cmds
  refine ⟨e, hrun, fun session mtu drains last hdrains hbound => ?_⟩
  obtain ⟨p, fs, hp, hsent, -, hcarried, -⟩ := run_spec session mtu drains last
  rw [hdrains] at hcarried
  refine ⟨p, hp, ?_⟩
  have hlength : p.sent.length = fs.length + 1 := by rw [hsent, length_broadcast]
  rw [hlength, hsent, Nat.add_sub_cancel]
  intro order horder honce
  have hmem : ∀ i ∈ order, i ≤ fs.length := fun i hi => Nat.le_of_lt_succ (horder i hi).1
  obtain ⟨b, hb, hshown⟩ := heard_once session hcarried (onWire_of_charted hchart hprice hcount)
    htape hbound hmem (fun i hi => readable_of_length session (hmem i hi) (horder i hi).2) honce
  refine ⟨b, hb, fun hquiet symbol => ?_⟩
  exact ⟨_, (hshown hquiet).1.snapshot symbol, hreal.bookSnapshot symbol⟩

/-- One packet, then the end of the session. -/
theorem quiet_listener_correct_one :
    ∃ e p b, Engine.run ({} : Engine FastBook) oneBuy = some e ∧
      Publisher.run (Vector.replicate 10 32) 1400 [oneBuyEvents] [] = some p ∧
      onMoldPackets {} ([0, 1].map (datagramAt p.sent)) = some b ∧
      b.hadGap = false ∧ b.snapshot (Vector.replicate 8 65) = some ⟨[⟨1, [⟨1, 1⟩]⟩], []⟩ := by
  obtain ⟨e, he, h⟩ := quiet_listener_correct oneBuy oneBuy_onWire (by decide)
  obtain ⟨hevents, hsnap⟩ := run_oneBuy he
  obtain ⟨p, hp, h⟩ := h (Vector.replicate 10 32) 1400 [oneBuyEvents] [] (by rw [hevents]; rfl)
    (by rw [hevents]; decide)
  have hsizes := sent_oneBuy hp
  have hlength : p.sent.length = 2 := by simpa using congrArg List.length hsizes
  have hfirst : (datagramAt p.sent 0).length = 58 := by
    have hhead := congrArg (fun l => l.head?) hsizes
    rw [datagramAt]
    cases hs : p.sent with
    | nil => simp [hs] at hhead
    | cons d ds => simpa [hs] using hhead
  obtain ⟨b, hb, hshown⟩ := h [0]
    (by simp [hlength, hfirst]) (List.Nodup.filter _ (List.nodup_singleton 0))
  rw [hlength] at hb
  have hquiet : b.hadGap = false := by
    have heval : (Publisher.run (Vector.replicate 10 32) 1400 [oneBuyEvents] []).map (fun p =>
        (onMoldPackets {} ([0, 1].map (datagramAt p.sent))).map
          hadGap) = some (some false) := by decide +kernel
    rw [hp] at heval
    have hgap : (onMoldPackets {} (([0] ++ [2 - 1]).map (datagramAt p.sent))).map
        hadGap = some false := Option.some.inj heval
    rw [hb] at hgap
    exact Option.some.inj hgap
  obtain ⟨snap, hsnap', he'⟩ := hshown hquiet (Vector.replicate 8 65)
  cases hsnap.symm.trans he'
  exact ⟨e, p, b, he, hp, hb, hquiet, hsnap'⟩

/-- **A packet that is delivered twice is applied twice**, and no gap is reported. -/
theorem quiet_listener_wrong :
    ∃ e p b, Engine.run ({} : Engine FastBook) oneBuy = some e ∧
      Publisher.run (Vector.replicate 10 32) 1400 [e.marketEvents] [] = some p ∧ p.sent.length = 2 ∧
      onMoldPackets {} ([0, 0, 1].map (datagramAt p.sent)) = some b ∧
      b.hadGap = false ∧
      b.snapshot (Vector.replicate 8 65) = some ⟨[⟨1, [⟨1, 1⟩, ⟨1, 1⟩]⟩], []⟩ ∧
      e.bookSnapshot (Vector.replicate 8 65) = some ⟨[⟨1, [⟨1, 1⟩]⟩], []⟩ := by
  obtain ⟨e, a, he, -, -⟩ := Engine.sim_fresh.run oneBuy
  obtain ⟨hevents, hsnap⟩ := run_oneBuy he
  obtain ⟨p, -, hp, -⟩ := run_spec (Vector.replicate 10 32) 1400 [oneBuyEvents] []
  have hlength : p.sent.length = 2 := by simpa using congrArg List.length (sent_oneBuy hp)
  have heval : (Publisher.run (Vector.replicate 10 32) 1400 [oneBuyEvents] []).map (fun p =>
      (onMoldPackets {} ([0, 0, 1].map (datagramAt p.sent))).map (fun b =>
        (b.hadGap, b.snapshot (Vector.replicate 8 65)))) =
      some (some (false, some ⟨[⟨1, [⟨1, 1⟩, ⟨1, 1⟩]⟩], []⟩)) := by decide +kernel
  rw [hp] at heval
  obtain ⟨b, hb, hpair⟩ := Option.map_eq_some_iff.mp (Option.some.inj heval)
  obtain ⟨hquiet, hshown⟩ := Prod.mk.inj hpair
  exact ⟨e, p, b, he, hevents ▸ hp, hlength, hb, hquiet, hshown, hsnap⟩

end Client

end MatchingEngine
