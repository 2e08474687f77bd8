import MatchingEngine.Client.LastTrade
import MatchingEngine.Client.Listener
import MatchingEngine.Client.Restrict
import MatchingEngine.Common.PriceText
import MatchingEngine.Itch.Bijection

/-! # The terminal viewer (`draw` in `apps/itchview.cpp`)

    The viewer feeds a builder from the network, and draws the book of one symbol
    from time to time. What it draws are prices: of the last trade, of the levels,
    and the spread, which is the best ask minus the best bid.

    * The prices on the wire have 32 bits and no sign, so that of all texts only the
      spread can be one that `price_to_string` does not print (`draw_eq_none_iff`).
    * A viewer that missed nothing shows a book of the engine, and these are not
      crossed: it always draws (`draw_in_order`).
    * After a gap the book can be crossed. A spread with a sign and a fraction of a
      tenth or more makes `price_to_string` throw, which ends the viewer
      (`draw_throws_iff`, `draw_throws_after_gap`).

    The layout of the screen and the message rate are left out.
-/

namespace MatchingEngine

namespace Client

open Mold Feed

variable {msg : Itch.Message} {b : ItchBookBuilder} {books : Symbol → PriorityBook}

/-! ## Section 1: Model -/

/-- A level in one row: its orders, their quantity in 32 bits, and its price. -/
structure Cell where
  orders : Nat
  total : Qty
  price : List UInt8
  deriving DecidableEq

structure Screen where
  messages : UInt64
  traded : UInt64
  gaps : Bool
  lastTrade : Option (Qty × List UInt8)
  spread : Option (List UInt8)
  rows : List (Option Cell × Option Cell)
  deriving DecidableEq

def drawLastTrade (b : ItchBookBuilder) : Option (Option (Qty × List UInt8)) :=
  if b.lastTradePrice > 0 then (priceToString b.lastTradePrice).map
    (fun s => some (b.lastTradeQty, s))
  else some none

def drawSpread (snap : BookSnapshot) : Option (Option (List UInt8)) :=
  match snap.bids, snap.asks with
  | bid :: _, ask :: _ => (priceToString (ask.price - bid.price)).map some
  | _, _ => some none

def drawCell (levels : List SnapshotLevel) (row : Nat) : Option (Option Cell) :=
  match levels[row]? with
  | none => some none
  | some level =>
    let total := level.orders.foldl (fun total o => total + o.qty) 0
    (priceToString level.price).map (fun price => some ⟨level.orders.length, total, price⟩)

def drawRow (snap : BookSnapshot) (row : Nat) : Option (Option Cell × Option Cell) := do
  let bid ← drawCell snap.bids row
  let ask ← drawCell snap.asks row
  some (bid, ask)

/-- `none` is an exception. A depth that is not positive draws no rows. -/
def draw (b : ItchBookBuilder) (symbol : Symbol) (depth : Int) : Option Screen := do
  let snap ← b.snapshot symbol
  let lastTrade ← drawLastTrade b
  let spread ← drawSpread snap
  let rows ← (List.range depth.toNat).mapM (drawRow snap)
  some
    { messages := b.messageCount
      traded := b.executedShares
      gaps := b.hadGap
      lastTrade := lastTrade
      spread := spread
      rows := rows }

/-! ## Section 2: The prices of a builder -/

/-- All prices that a builder keeps have 32 bits. -/
structure Priced (b : ItchBookBuilder) : Prop where
  record : ∀ {ref o}, b.orders.lookup ref = some o → PriceInRange o.price
  lastTrade : PriceInRange b.lastTradePrice

theorem priced_new : Priced {} where
  record ho := by cases ho
  lastTrade := by
    unfold PriceInRange
    decide

theorem inRange_of_effect (h : msg.InRange) {price : Price}
    (hprice : (effect msg).price = some price) : PriceInRange price := by
  cases msg with
  | addOrder m =>
    cases hprice
    exact h.2
  | addOrderMpid m =>
    cases hprice
    exact h.2
  | orderReplace m =>
    cases hprice
    exact h.2
  | _ => cases hprice

/-- The price of an execution is that of a record, or comes with the message. -/
theorem Priced.execution (h : Priced b) (hm : msg.InRange) {price : Price} {qty : Qty}
    (hexec : b.tradeOf msg = some (some price, qty)) : PriceInRange price := by
  cases msg with
  | orderExecuted m =>
    obtain ⟨hprice, -⟩ := Prod.mk.inj (Option.some.inj hexec)
    obtain ⟨o, ho, rfl⟩ := Option.map_eq_some_iff.mp hprice
    exact h.record ho
  | orderExecutedWithPrice m =>
    cases hexec
    exact hm.2
  | _ => cases hexec

/-- One message. -/
theorem Priced.onMessage (h : Priced b) (hm : msg.InRange) : Priced (b.onMessage msg) := by
  constructor
  · intro ref o ho
    rw [ItchBookBuilder.onMessage_eq] at ho
    rcases recorded_perform ho with ⟨o', ho', hprice⟩ | ⟨-, hprice⟩
    · rw [ItchBookBuilder.orders_noted] at ho'
      rw [← hprice]
      exact h.record ho'
    · exact inRange_of_effect hm hprice
  · have hlast := congrArg Prod.fst (b.lastTrade_onMessage msg)
    change (b.onMessage msg).lastTradePrice = _ at hlast
    rw [hlast]
    cases hexec : b.tradeOf msg with
    | none => exact h.lastTrade
    | some x =>
      obtain ⟨_ | price, qty⟩ := x
      · exact h.lastTrade
      · exact h.execution hm hexec

theorem Priced.onPayload {b' : ItchBookBuilder} {bytes : Payload} (h : Priced b)
    (hb : b.onPayload bytes = some b') : Priced b' := by
  obtain ⟨msg, hdecode, rfl⟩ := Option.map_eq_some_iff.mp hb
  cases msg with
  | none => exact h
  | some msg => exact h.onMessage (Itch.inRange_of_decode hdecode)

theorem Priced.onMoldPacket {b' : ItchBookBuilder} {data : Datagram} {ended : Bool} (h : Priced b)
    (hb : b.onMoldPacket data = some (b', ended)) : Priced b' := by
  unfold ItchBookBuilder.onMoldPacket at hb
  obtain ⟨pkt, -, hb⟩ := Option.bind_eq_some_iff.mp hb
  cases pkt with
  | none =>
    cases hb
    exact h
  | some pkt =>
    obtain ⟨b'', hfold, hb⟩ := Option.bind_eq_some_iff.mp hb
    cases hb
    -- the gap detector has no prices
    have hgaps : Priced { b with gaps := (b.gaps.onPacket pkt.seq pkt.messages.length).1 } :=
      ⟨h.record, h.lastTrade⟩
    exact Machine.foldlM_induct (P := Priced) Priced.onPayload pkt.messages hgaps hfold

/-- Whatever datagrams arrive. -/
theorem priced_of_onMoldPackets {ps : List Datagram}
    (hb : ItchBookBuilder.onMoldPackets {} ps = some b) : Priced b := by
  refine Machine.foldlM_induct ?_ ps priced_new hb
  intro s p s' hs hp
  obtain ⟨⟨s'', ended⟩, hpacket, rfl⟩ := Option.map_eq_some_iff.mp hp
  exact hs.onMoldPacket hpacket

/-! ## Section 3: What can be drawn -/

/-- The book of a symbol lists recorded orders, at their prices. -/
def Recorded (b : ItchBookBuilder) (symbol : Symbol) : Prop :=
  ∀ side, ∀ e ∈ (b.bookAt symbol).side side, e.2 ≠ [] ∧
    ∀ ref ∈ e.2, ∃ o, b.orders.lookup ref = some o ∧ o.price = e.1

theorem Consistent.recorded (h : Consistent b) (symbol : Symbol) : Recorded b symbol := by
  intro side e he
  constructor
  · intro hnil
    have hfind := SortedMap.find_of_mem (h.sorted symbol side) he
    rw [hnil] at hfind
    exact h.nonempty ⟨symbol, side, e.1⟩ hfind
  · intro ref href
    obtain ⟨o, ho, hplace⟩ := h.listed he href
    exact ⟨o, ho, congrArg Place.price hplace⟩

/-- A level of a book that is modelled lists the orders of a queue. -/
theorem Models.queue_of_mem (h : Models b books) {symbol : Symbol} {side : Side}
    {e : Price × List UInt64} (he : e ∈ (b.bookAt symbol).side side) :
    (books symbol).queues (side, e.1) ≠ [] ∧
      e.2 = ((books symbol).queues (side, e.1)).map refOf := by
  have hfind := SortedMap.find_of_mem (h.sorted symbol side) he
  rw [h.level] at hfind
  split at hfind
  · cases hfind
  · rename_i hne
    exact ⟨hne, (Option.some.inj hfind).symm⟩

theorem Models.recorded (h : Models b books) (symbol : Symbol) : Recorded b symbol := by
  intro side e he
  obtain ⟨hne, hrefs⟩ := h.queue_of_mem he
  rw [hrefs]
  constructor
  · exact mt List.map_eq_nil_iff.mp hne
  · intro ref href
    obtain ⟨o, ho, rfl⟩ := List.mem_map.mp href
    obtain ⟨hside, hprice⟩ := PriorityBook.mem_queues.mp ho
    exact ⟨_, h.order hside, hprice⟩

/-- The price of the first level. -/
def ItchBookBuilder.bestPrice (b : ItchBookBuilder) (symbol : Symbol) (side : Side) :
    Option Price :=
  ((b.bookAt symbol).side side).head?.map Prod.fst

section drawing

variable {b : ItchBookBuilder} {symbol : Symbol}

/-- What the snapshot shows of a side. -/
def shownLevels (b : ItchBookBuilder) (symbol : Symbol) (side : Side) : List SnapshotLevel :=
  ((b.bookAt symbol).side side).map (fun e => ⟨e.1, e.2.map b.shown⟩)

theorem snapshot_of_recorded (h : Recorded b symbol) :
    b.snapshot symbol = some ⟨shownLevels b symbol .buy, shownLevels b symbol .sell⟩ := by
  have hside : ∀ side, b.snapshotSide ((b.bookAt symbol).side side) =
      some (shownLevels b symbol side) := by
    intro side
    apply ItchBookBuilder.snapshotSide_of_recorded
    intro e he ref href
    obtain ⟨o, ho, -⟩ := (h side e he).2 ref href
    exact ⟨o, ho⟩
  rw [b.snapshot_eq, hside, hside]
  rfl

theorem inRange_of_listed (h : Recorded b symbol) (hp : Priced b) {side : Side}
    {e : Price × List UInt64} (he : e ∈ (b.bookAt symbol).side side) : PriceInRange e.1 := by
  obtain ⟨hne, hrefs⟩ := h side e he
  obtain ⟨ref, href⟩ := List.exists_mem_of_ne_nil _ hne
  obtain ⟨o, ho, hprice⟩ := hrefs ref href
  rw [← hprice]
  exact hp.record ho

/-- A price without a sign is printed. -/
theorem priceToString_of_inRange {price : Price} (h : PriceInRange price) :
    ∃ s, priceToString price = some s := by
  obtain ⟨hlow, hhigh⟩ := h
  rw [← Option.ne_none_iff_exists']
  intro hnone
  rw [priceToString_eq_none_iff_of_lt (by lia)] at hnone
  have hmod := Int.tmod_nonneg 10000 hlow
  omega

theorem drawLastTrade_of_priced (hp : Priced b) : ∃ line, drawLastTrade b = some line := by
  obtain ⟨s, hs⟩ := priceToString_of_inRange hp.lastTrade
  unfold drawLastTrade
  split
  · rw [hs]
    exact ⟨_, rfl⟩
  · exact ⟨_, rfl⟩

theorem drawCell_of_inRange {levels : List SnapshotLevel} (h : ∀ l ∈ levels, PriceInRange l.price)
    (row : Nat) : ∃ cell, drawCell levels row = some cell := by
  unfold drawCell
  cases hget : levels[row]? with
  | none => exact ⟨_, rfl⟩
  | some level =>
    obtain ⟨s, hs⟩ := priceToString_of_inRange (h level (List.mem_of_getElem? hget))
    dsimp only
    rw [hs]
    exact ⟨_, rfl⟩

theorem drawRows_of_recorded (h : Recorded b symbol) (hp : Priced b) (n : Nat) :
    ∃ rows, (List.range n).mapM
      (drawRow ⟨shownLevels b symbol .buy, shownLevels b symbol .sell⟩) = some rows := by
  have hlevels : ∀ side, ∀ l ∈ shownLevels b symbol side, PriceInRange l.price := by
    intro side l hl
    obtain ⟨e, he, rfl⟩ := List.mem_map.mp hl
    exact inRange_of_listed h hp he
  have hrow : ∀ row, ∃ cells,
      drawRow ⟨shownLevels b symbol .buy, shownLevels b symbol .sell⟩ row = some cells := by
    intro row
    obtain ⟨bid, hbid⟩ := drawCell_of_inRange (hlevels .buy) row
    obtain ⟨ask, hask⟩ := drawCell_of_inRange (hlevels .sell) row
    rw [drawRow, hbid, hask]
    exact ⟨_, rfl⟩
  choose cells hcells using hrow
  exact ⟨_, Machine.mapM_some (fun row _ => hcells row)⟩

/-- The spread is the only price that can have a sign. -/
theorem drawSpread_eq_none_iff (h : Recorded b symbol) (hp : Priced b) :
    drawSpread ⟨shownLevels b symbol .buy, shownLevels b symbol .sell⟩ = none ↔
      ∃ bid ask, b.bestPrice symbol .buy = some bid ∧ b.bestPrice symbol .sell = some ask ∧
        (ask - bid).tmod 10000 ≤ -1000 := by
  unfold drawSpread ItchBookBuilder.bestPrice shownLevels
  cases hb : (b.bookAt symbol).side .buy with
  | nil => simp
  | cons bid bids =>
    cases ha : (b.bookAt symbol).side .sell with
    | nil => simp
    | cons ask asks =>
      have hbid : bid ∈ (b.bookAt symbol).side .buy := by
        rw [hb]
        exact List.mem_cons_self
      have hask : ask ∈ (b.bookAt symbol).side .sell := by
        rw [ha]
        exact List.mem_cons_self
      obtain ⟨hbid₀, hbid₁⟩ := inRange_of_listed h hp hbid
      obtain ⟨hask₀, hask₁⟩ := inRange_of_listed h hp hask
      have hspread := priceToString_eq_none_iff_of_lt (p := ask.1 - bid.1) (by lia)
      simp [hspread]

/-- **When drawing throws.** -/
theorem draw_eq_none_iff (h : Recorded b symbol) (hp : Priced b) (depth : Int) :
    draw b symbol depth = none ↔
      ∃ bid ask, b.bestPrice symbol .buy = some bid ∧ b.bestPrice symbol .sell = some ask ∧
        (ask - bid).tmod 10000 ≤ -1000 := by
  obtain ⟨line, hline⟩ := drawLastTrade_of_priced hp
  obtain ⟨rows, hrows⟩ := drawRows_of_recorded h hp depth.toNat
  rw [← drawSpread_eq_none_iff h hp, draw, snapshot_of_recorded h]
  dsimp only [Option.bind_eq_bind, Option.bind_some]
  rw [hline, hrows]
  dsimp only [Option.bind_some]
  cases drawSpread ⟨shownLevels b symbol .buy, shownLevels b symbol .sell⟩ with
  | none => exact iff_of_true rfl rfl
  | some spread => exact iff_of_false nofun nofun

end drawing

/-! ## Section 4: Viewers of a feed -/

/-- **A viewer throws exactly on an inverted spread.** Whatever datagrams arrived, as
    long as the book is consistent. -/
theorem draw_throws_iff {ps : List Datagram} {b : ItchBookBuilder}
    (hb : ItchBookBuilder.onMoldPackets {} ps = some b) (hc : Consistent b) (symbol : Symbol)
    (depth : Int) : draw b symbol depth = none ↔
      ∃ bid ask, b.bestPrice symbol .buy = some bid ∧ b.bestPrice symbol .sell = some ask ∧
        (ask - bid).tmod 10000 ≤ -1000 :=
  draw_eq_none_iff (hc.recorded symbol) (priced_of_onMoldPackets hb) depth

/-- What a viewer hears that lost the datagram of a fill: the sell order still stands
    when a buy order rests above its price. -/
def crossedAdds : List Itch.Message :=
  [.addOrder ⟨⟨0, 0, 0⟩, 1, ch 'S', 5, restingBuy.stock, 5000⟩,
    .addOrder ⟨⟨0, 0, 0⟩, 3, ch 'B', 5, restingBuy.stock, 6234⟩]

/-- The spread is -0.1234, and drawing throws. -/
theorem draw_throws_iff_crossed : ∃ ps b, ItchBookBuilder.onMoldPackets {} ps = some b ∧
    Consistent b ∧ draw b restingBuy.stock 10 = none := by
  let ps := [packet (Vector.replicate 10 32) 1 (crossedAdds.filterMap Itch.Message.encode)]
  let b := (ItchBookBuilder.listened crossedAdds).setGaps (GapDetector.run {} ps)
  have hb : ItchBookBuilder.onMoldPackets {} ps = some b := rfl
  have hadds : Consistent (ItchBookBuilder.listened crossedAdds) := by
    have hsell := (consistent_new.onMessage_iff crossedAdds[0]).mpr nofun
    have hfree : ((ItchBookBuilder.onMessage {} crossedAdds[0]).orders.lookup 3).isSome = false :=
      by decide +kernel
    exact (hsell.onMessage_iff crossedAdds[1]).mpr (ne_true_of_eq_false hfree)
  have hc : Consistent b := hadds.congr rfl rfl
  exact ⟨ps, b, hb, hc,
    (draw_throws_iff hb hc _ 10).mpr ⟨6234, 5000, by decide +kernel, by decide +kernel, by decide⟩⟩

/-- The best prices of a modelled book are apart. -/
theorem Models.bestPrice_lt (h : Models b books) {symbol : Symbol} {bid ask : Price}
    (hbid : b.bestPrice symbol .buy = some bid) (hask : b.bestPrice symbol .sell = some ask) :
    bid < ask := by
  have horder : ∀ {side price}, b.bestPrice symbol side = some price →
      ∃ o ∈ (books symbol).side side, o.price = price := by
    intro side price hprice
    obtain ⟨e, he, rfl⟩ := Option.map_eq_some_iff.mp hprice
    obtain ⟨hne, -⟩ := h.queue_of_mem (List.mem_of_mem_head? he)
    obtain ⟨o, ho⟩ := List.exists_mem_of_ne_nil _ hne
    exact ⟨o, PriorityBook.mem_queues.mp ho⟩
  obtain ⟨buy, hbuy, rfl⟩ := horder hbid
  obtain ⟨sell, hsell, rfl⟩ := horder hask
  have hapart := ((h.wf symbol).apart .buy buy hbuy sell hsell).2
  simpa [crosses] using hapart

/-- A modelled book can be drawn. -/
theorem Models.draw (h : Models b books) (hp : Priced b) (symbol : Symbol) (depth : Int) :
    ∃ screen, draw b symbol depth = some screen := by
  rw [← Option.ne_none_iff_exists']
  intro hnone
  obtain ⟨bid, ask, hbid, hask, hspread⟩ := (draw_eq_none_iff (h.recorded symbol) hp depth).mp hnone
  have hlt := h.bestPrice_lt hbid hask
  have hmod := Int.tmod_nonneg 10000 (Int.le_of_lt (Int.sub_pos_of_lt hlt))
  omega

/-- **Without loss a viewer always draws**: after any number of datagrams of a feed of
    the engine, every symbol and any number of rows. The prices of the commands fit the
    four bytes of the wire (`PriceOnWire`). -/
theorem draw_in_order (cmds : List (Nat × Command)) (hprice : ∀ c ∈ cmds, PriceOnWire c.2.msg)
    (hcount : cmds.length < 2 ^ 64) :
    ∃ e, Engine.run ({} : Engine FastBook) cmds = some e ∧
      ∀ session mtu drains last, drains.flatten ++ last = e.marketEvents →
        ∃ p, Publisher.run session mtu drains last = some p ∧
          ((∀ d ∈ p.sent, d.length ≤ 65507) → ∀ n,
            ∃ b, ItchBookBuilder.onMoldPackets {} (p.sent.take n) = some b ∧
              ∀ symbol depth, ∃ screen, draw b symbol depth = some screen) := by
  obtain ⟨e, v, hrun, -, -, htape, hchart⟩ := Engine.run_tape cmds
  refine ⟨e, hrun, fun session mtu drains last hdrains => ?_⟩
  obtain ⟨p, hp, hheard⟩ := feed_heard hchart ⟨_, htape⟩ hprice hcount session mtu hdrains
  refine ⟨p, hp, fun hudp n => ?_⟩
  obtain ⟨b, hb, -, -, -, ⟨books, hmodels⟩, -⟩ := hheard hudp n
  exact ⟨b, hb, hmodels.draw (priced_of_onMoldPackets hb)⟩

/-- An order in the symbol of `restingBuy`. -/
def entered (token : UInt8) (side : Side) (price : Price) : Ouch.EnterOrder :=
  { restingBuy with token := Vector.replicate 14 token, side := side.toByte, price := price }

/-- A buy order and a sell order that do not cross. -/
def twoSided : List (Nat × Command) :=
  [(0, ⟨1, .enter (entered 65 .buy 5000)⟩), (0, ⟨1, .enter (entered 66 .sell 6234)⟩)]

/-- A run and what its feed is good for, evaluated over priority books. -/
theorem exists_published {c : List (Nat × Command)} {β : Type} {f : Publisher → Option β} {y : β}
    (heval : (({} : Engine PriorityBook).run c).bind (fun a => (Publisher.run
      (Vector.replicate 10 32) 1400 (a.marketEvents.map (fun m => [m])) []).bind f) = some y) :
    ∃ e p, Engine.run ({} : Engine FastBook) c = some e ∧ Publisher.run
      (Vector.replicate 10 32) 1400 (e.marketEvents.map (fun m => [m])) [] = some p ∧
      f p = some y := by
  obtain ⟨e, a, he, ha, hsim⟩ := Engine.sim_fresh.run c
  have hevents : e.marketEvents = a.marketEvents := congrArg Engine.Desk.events hsim.desk
  rw [ha, Option.bind_some, ← hevents] at heval
  obtain ⟨p, hp, hy⟩ := Option.bind_eq_some_iff.mp heval
  exact ⟨e, p, he, hp, hy⟩

/-- Both orders are drawn, and the spread between them. -/
theorem draw_in_order_twoSided :
    ∃ e p b screen, Engine.run ({} : Engine FastBook) twoSided = some e ∧
      Publisher.run (Vector.replicate 10 32) 1400 (e.marketEvents.map (fun m => [m])) [] = some p ∧
      ItchBookBuilder.onMoldPackets {} (p.sent.take 3) = some b ∧
      draw b restingBuy.stock 10 = some screen ∧ screen.spread = some (text "0.1234") := by
  have hprice : ∀ c ∈ twoSided, PriceOnWire c.2.msg := by
    intro c hc
    rcases List.mem_pair.mp hc with rfl | rfl <;> exact ⟨by decide, by decide⟩
  obtain ⟨e, p, he, hp, heval⟩ := exists_published (c := twoSided)
    (f := fun p => (ItchBookBuilder.onMoldPackets {} (p.sent.take 3)).map (fun b =>
      (p.sent.all (fun d => d.length ≤ 65507), (draw b restingBuy.stock 10).map Screen.spread)))
    (y := (true, some (some (text "0.1234")))) (by decide +kernel)
  obtain ⟨b, hb, hvalues⟩ := Option.map_eq_some_iff.mp heval
  obtain ⟨hudp, hdraw⟩ := Prod.mk.inj hvalues
  obtain ⟨e', he', h⟩ := draw_in_order twoSided hprice (by decide)
  cases he.symm.trans he'
  obtain ⟨p', hp', h⟩ := h (Vector.replicate 10 32) 1400 (e.marketEvents.map (fun m => [m])) []
    (by simp [← List.flatMap_def])
  cases hp.symm.trans hp'
  obtain ⟨b', hb', hall⟩ := h (by simpa using hudp) 3
  cases hb.symm.trans hb'
  obtain ⟨screen, hscreen⟩ := hall restingBuy.stock 10
  rw [hscreen] at hdraw
  exact ⟨e, p, b, screen, he, hp, hb, hscreen, Option.some.inj hdraw⟩

/-- A sell order is filled, and a buy order rests above its price. -/
def filledSell : List (Nat × Command) :=
  [(0, ⟨1, .enter (entered 65 .sell 5000)⟩), (0, ⟨1, .enter (entered 66 .buy 5000)⟩),
    (0, ⟨1, .enter (entered 67 .buy 6234)⟩)]

/-- The datagram of the fill is lost. The viewer still has the sell order, the spread
    is -0.1234, and drawing throws. -/
theorem draw_throws_after_gap :
    ∃ e p b, Engine.run ({} : Engine FastBook) filledSell = some e ∧
      Publisher.run (Vector.replicate 10 32) 1400 (e.marketEvents.map (fun m => [m])) [] = some p ∧
      ItchBookBuilder.onMoldPackets {} ([0, 2].map (datagramAt p.sent)) = some b ∧
      b.hadGap = true ∧ b.bestPrice restingBuy.stock .buy = some 6234 ∧
      b.bestPrice restingBuy.stock .sell = some 5000 ∧ draw b restingBuy.stock 10 = none := by
  obtain ⟨e, p, he, hp, heval⟩ := exists_published (c := filledSell)
    (f := fun p => (ItchBookBuilder.onMoldPackets {} ([0, 2].map (datagramAt p.sent))).map
      (fun b => (b.hadGap, b.bestPrice restingBuy.stock .buy, b.bestPrice restingBuy.stock .sell,
        draw b restingBuy.stock 10)))
    (y := (true, some 6234, some 5000, none)) (by decide +kernel)
  obtain ⟨b, hb, hshown⟩ := Option.map_eq_some_iff.mp heval
  obtain ⟨hgap, hrest⟩ := Prod.mk.inj hshown
  obtain ⟨hbid, hrest⟩ := Prod.mk.inj hrest
  obtain ⟨hask, hdraw⟩ := Prod.mk.inj hrest
  exact ⟨e, p, b, he, hp, hb, hgap, hbid, hask, hdraw⟩

end Client

end MatchingEngine
