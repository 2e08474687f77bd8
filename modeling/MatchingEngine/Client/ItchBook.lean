import MatchingEngine.Engine.Tape
import MatchingEngine.Feed.Publisher

/-! # The book of a listener

    `client/itch_book.cpp`. A listener rebuilds the books from the messages of
    the feed. A message says little: an execution names the resting order only,
    a removal no quantity, a replacement neither side nor symbol. The listener
    finds the rest in its own record of the orders.

    A side that arrives is a byte, and everything but `'B'` is taken for a sell.

    The listener's state is compared with a priority book for each symbol
    (`Models`): each message that stands for an event does what the event does.
-/

namespace MatchingEngine

namespace Client

open Function SortedMap PriorityBook
open Mold (Datagram GapDetector)

/-! ## Section 1: The builder -/

structure BuilderOrder where
  symbol : Symbol
  side : UInt8
  price : Price
  qty : Qty
  deriving DecidableEq

/-- References in FIFO order for each price, best price first. -/
structure SymbolBook where
  bids : List (Price × List UInt64) := []
  asks : List (Price × List UInt64) := []

structure ItchBookBuilder where
  orders : Finmap (fun _ : UInt64 => BuilderOrder) := ∅
  books : Finmap (fun _ : Symbol => SymbolBook) := ∅
  gaps : GapDetector := {}
  messages : UInt64 := 0
  lastTs : UInt64 := 0
  executedShares : UInt64 := 0
  lastTradePrice : Price := 0
  lastTradeQty : Qty := 0

/-- `side == Side::Buy`. -/
def sideOf (c : UInt8) : Side := if c = ch 'B' then .buy else .sell

namespace SymbolBook

def side (b : SymbolBook) : Side → List (Price × List UInt64)
  | .buy => b.bids
  | .sell => b.asks

def setSide (b : SymbolBook) (s : Side) (m : List (Price × List UInt64)) : SymbolBook :=
  match s with
  | .buy => { b with bids := m }
  | .sell => { b with asks := m }

/-- `erase_from`: the reference leaves its level, and an empty level the map. -/
def eraseFrom (s : Side) (m : List (Price × List UInt64)) (price : Price) (ref : UInt64) :
    List (Price × List UInt64) :=
  match find m price with
  | none => m
  | some refs =>
    if (refs.filter (· ≠ ref)).isEmpty then erase price m
    else upsert s.ahead price refs (List.filter (· ≠ ref)) m

end SymbolBook

namespace ItchBookBuilder

/-- `books_[symbol]`. -/
def bookAt (b : ItchBookBuilder) (symbol : Symbol) : SymbolBook :=
  (b.books.lookup symbol).getD {}

def setBook (b : ItchBookBuilder) (symbol : Symbol) (book : SymbolBook) : ItchBookBuilder :=
  { b with books := b.books.insert symbol book }

def setOrder (b : ItchBookBuilder) (ref : UInt64) (order : BuilderOrder) : ItchBookBuilder :=
  { b with orders := b.orders.insert ref order }

def addOrder (b : ItchBookBuilder) (ref : UInt64) (symbol : Symbol) (side : UInt8) (price : Price)
    (shares : Qty) : ItchBookBuilder :=
  let s := sideOf side
  let book := b.bookAt symbol
  (b.setOrder ref ⟨symbol, side, price, shares⟩).setBook symbol
    (book.setSide s (upsert s.ahead price [] (· ++ [ref]) (book.side s)))

def removeOrder (b : ItchBookBuilder) (ref : UInt64) : ItchBookBuilder :=
  match b.orders.lookup ref with
  | none => b
  | some order =>
    let s := sideOf order.side
    let book := b.bookAt order.symbol
    let b := b.setBook order.symbol
      (book.setSide s (SymbolBook.eraseFrom s (book.side s) order.price ref))
    { b with orders := b.orders.erase ref }

def reduceOrder (b : ItchBookBuilder) (ref : UInt64) (qty : Qty) : ItchBookBuilder :=
  match b.orders.lookup ref with
  | none => b
  | some order =>
    if qty ≥ order.qty then b.removeOrder ref
    else b.setOrder ref { order with qty := order.qty - qty }

/-- The totals of `on_message` for an execution at a known price. -/
def traded (b : ItchBookBuilder) (price : Option Price) (qty : Qty) : ItchBookBuilder :=
  { b with
    lastTradePrice := price.getD b.lastTradePrice
    lastTradeQty := qty
    executedShares := b.executedShares + qty.toUInt64 }

def stampedAt (b : ItchBookBuilder) (ts : UInt64) : ItchBookBuilder := { b with lastTs := ts }

/-- The effect of a message on the orders. -/
def applyMessage (b : ItchBookBuilder) : Itch.Message → ItchBookBuilder
  | .addOrder m => (b.stampedAt m.timestamp).addOrder m.orderRef m.stock m.side m.price m.shares
  | .addOrderMpid m =>
    (b.stampedAt m.add.timestamp).addOrder m.add.orderRef m.add.stock m.add.side m.add.price
      m.add.shares
  | .orderExecuted m =>
    ((b.stampedAt m.timestamp).traded ((b.orders.lookup m.orderRef).map BuilderOrder.price)
      m.executedShares).reduceOrder m.orderRef m.executedShares
  | .orderExecutedWithPrice m =>
    ((b.stampedAt m.exec.timestamp).traded (some m.executionPrice)
      m.exec.executedShares).reduceOrder m.exec.orderRef m.exec.executedShares
  | .orderCancel m => (b.stampedAt m.timestamp).reduceOrder m.orderRef m.canceledShares
  | .orderDelete m => (b.stampedAt m.timestamp).removeOrder m.orderRef
  | .orderReplace m =>
    let b := b.stampedAt m.timestamp
    match b.orders.lookup m.originalRef with
    | none => b
    | some order =>
      (b.removeOrder m.originalRef).addOrder m.newRef order.symbol order.side m.price m.shares
  | .systemEvent _ | .stockDirectory _ | .tradingAction _ | .trade _ => b

def onMessage (b : ItchBookBuilder) (msg : Itch.Message) : ItchBookBuilder :=
  { b with messages := b.messages + 1 }.applyMessage msg

/-- A payload that is no message is skipped. `none` is a read outside it. -/
def onPayload (b : ItchBookBuilder) (bytes : Mold.Payload) : Option ItchBookBuilder :=
  (Itch.decode bytes).map (fun msg => msg.elim b b.onMessage)

/-- The builder after a datagram, and whether the datagram ends the session. -/
def onMoldPacket (b : ItchBookBuilder) (data : Datagram) : Option (ItchBookBuilder × Bool) := do
  match ← Mold.parse data with
  | none => some (b, false)
  | some pkt =>
    let b := { b with gaps := (b.gaps.onPacket pkt.seq pkt.messages.length).1 }
    let b ← pkt.messages.foldlM onPayload b
    some (b, pkt.endOfSession)

/-- `fill`. A reference without a record throws. -/
def snapshotSide (b : ItchBookBuilder) (m : List (Price × List UInt64)) :
    Option (List SnapshotLevel) :=
  m.mapM (fun e => do
    let orders ← e.2.mapM (fun ref => do
      let order ← b.orders.lookup ref
      some (⟨ref.toNat, order.qty⟩ : SnapshotOrder))
    some ⟨e.1, orders⟩)

def snapshot (b : ItchBookBuilder) (symbol : Symbol) : Option BookSnapshot :=
  match b.books.lookup symbol with
  | none => some {}
  | some book => do
    let bids ← b.snapshotSide book.bids
    let asks ← b.snapshotSide book.asks
    some ⟨bids, asks⟩

def hadGap (b : ItchBookBuilder) : Bool := b.gaps.hadGap

def messageCount (b : ItchBookBuilder) : UInt64 := b.messages

/-- The symbols in any order; the source sorts them. -/
def symbols (b : ItchBookBuilder) : Finset Symbol := b.books.keys

/-- Datagrams one after the other. -/
def onMoldPackets (b : ItchBookBuilder) (ps : List Datagram) : Option ItchBookBuilder :=
  ps.foldlM (fun b p => (b.onMoldPacket p).map Prod.fst) b

end ItchBookBuilder

/-! ### The effect of a message

    A message is noted in the counters, the time and the last trade, and then does
    one of a few things to the records and the books. -/

inductive Effect where
  | nothing
  | add (ref : UInt64) (symbol : Symbol) (side : UInt8) (price : Price) (shares : Qty)
  | reduce (ref : UInt64) (qty : Qty)
  | remove (ref : UInt64)
  | replace (originalRef newRef : UInt64) (price : Price) (shares : Qty)

def effect : Itch.Message → Effect
  | .addOrder m => .add m.orderRef m.stock m.side m.price m.shares
  | .addOrderMpid m => .add m.add.orderRef m.add.stock m.add.side m.add.price m.add.shares
  | .orderExecuted m => .reduce m.orderRef m.executedShares
  | .orderExecutedWithPrice m => .reduce m.exec.orderRef m.exec.executedShares
  | .orderCancel m => .reduce m.orderRef m.canceledShares
  | .orderDelete m => .remove m.orderRef
  | .orderReplace m => .replace m.originalRef m.newRef m.price m.shares
  | .systemEvent _ | .stockDirectory _ | .tradingAction _ | .trade _ => .nothing

namespace ItchBookBuilder

def perform (b : ItchBookBuilder) : Effect → ItchBookBuilder
  | .nothing => b
  | .add ref symbol side price shares => b.addOrder ref symbol side price shares
  | .reduce ref qty => b.reduceOrder ref qty
  | .remove ref => b.removeOrder ref
  | .replace originalRef newRef price shares =>
    match b.orders.lookup originalRef with
    | none => b
    | some order => (b.removeOrder originalRef).addOrder newRef order.symbol order.side price shares

def noted (b : ItchBookBuilder) (msg : Itch.Message) : ItchBookBuilder :=
  let b := { b with messages := b.messages + 1 }
  match msg with
  | .addOrder m => b.stampedAt m.timestamp
  | .addOrderMpid m => b.stampedAt m.add.timestamp
  | .orderExecuted m => (b.stampedAt m.timestamp).traded
      ((b.orders.lookup m.orderRef).map BuilderOrder.price) m.executedShares
  | .orderExecutedWithPrice m => (b.stampedAt m.exec.timestamp).traded (some m.executionPrice)
      m.exec.executedShares
  | .orderCancel m => b.stampedAt m.timestamp
  | .orderDelete m => b.stampedAt m.timestamp
  | .orderReplace m => b.stampedAt m.timestamp
  | .systemEvent _ | .stockDirectory _ | .tradingAction _ | .trade _ => b

theorem onMessage_eq (b : ItchBookBuilder) (msg : Itch.Message) :
    b.onMessage msg = (b.noted msg).perform (effect msg) := by
  cases msg <;> rfl

@[simp] theorem orders_noted (b : ItchBookBuilder) (msg : Itch.Message) :
    (b.noted msg).orders = b.orders := by
  cases msg <;> rfl

@[simp] theorem books_noted (b : ItchBookBuilder) (msg : Itch.Message) :
    (b.noted msg).books = b.books := by
  cases msg <;> rfl

/-! Nothing but the records and the books changes. -/

theorem removeOrder_frame (b : ItchBookBuilder) (ref : UInt64) :
    ∃ orders books, b.removeOrder ref = { b with orders := orders, books := books } := by
  unfold removeOrder
  cases b.orders.lookup ref with
  | none => exact ⟨b.orders, b.books, rfl⟩
  | some order => exact ⟨_, _, rfl⟩

theorem reduceOrder_frame (b : ItchBookBuilder) (ref : UInt64) (qty : Qty) :
    ∃ orders books, b.reduceOrder ref qty = { b with orders := orders, books := books } := by
  unfold reduceOrder
  cases b.orders.lookup ref with
  | none => exact ⟨b.orders, b.books, rfl⟩
  | some order =>
    dsimp only
    split
    · exact b.removeOrder_frame ref
    · exact ⟨_, _, rfl⟩

theorem perform_frame (b : ItchBookBuilder) (e : Effect) :
    ∃ orders books, b.perform e = { b with orders := orders, books := books } := by
  cases e with
  | nothing => exact ⟨b.orders, b.books, rfl⟩
  | add ref symbol side price shares => exact ⟨_, _, rfl⟩
  | reduce ref qty => exact b.reduceOrder_frame ref qty
  | remove ref => exact b.removeOrder_frame ref
  | replace originalRef newRef price shares =>
    unfold perform
    dsimp only
    cases b.orders.lookup originalRef with
    | none => exact ⟨b.orders, b.books, rfl⟩
    | some order =>
      obtain ⟨orders, books, hremove⟩ := b.removeOrder_frame originalRef
      dsimp only
      rw [hremove]
      exact ⟨_, _, rfl⟩

end ItchBookBuilder

/-! ## Section 2: What the builder models -/

/-- The reference of an order on the wire. -/
def refOf (o : Resting) : UInt64 := UInt64.ofNat o.id

/-- The builder stands for a priority book for each symbol, in which all
    identifiers have 64 bits and no two orders have the same one. -/
structure Models (b : ItchBookBuilder) (books : Symbol → PriorityBook) : Prop where
  wf : ∀ symbol, (books symbol).WF
  small : ∀ {symbol side o}, o ∈ (books symbol).side side → o.id < 2 ^ 64
  unique : ∀ {symbol symbol' side side' o o'}, o ∈ (books symbol).side side →
    o' ∈ (books symbol').side side' → o.id = o'.id → symbol = symbol'
  order : ∀ {symbol side o}, o ∈ (books symbol).side side →
    b.orders.lookup (refOf o) = some ⟨symbol, side.toByte, o.price, o.openQty⟩
  sorted : ∀ symbol side, Sorted side.ahead ((b.bookAt symbol).side side)
  level : ∀ symbol side price, find ((b.bookAt symbol).side side) price =
    if (books symbol).queues (side, price) = [] then none
    else some (((books symbol).queues (side, price)).map refOf)

theorem models_new : Models {} (fun _ => {}) where
  wf _ := wf_empty
  small {_ side o} ho := by cases side <;> cases ho
  unique {_ _ side _ _ _} ho := by cases side <;> cases ho
  order {_ side o} ho := by cases side <;> cases ho
  sorted _ side := by cases side <;> exact List.Pairwise.nil
  level _ side _ := by cases side <;> rfl

@[simp] theorem sideOf_toByte (s : Side) : sideOf s.toByte = s := by
  cases s <;> rfl

section builder

variable {b : ItchBookBuilder} {books : Symbol → PriorityBook} {symbol : Symbol}

variable {o : Resting} {side : Side} {qty : Qty}

theorem bookAt_setBook (b : ItchBookBuilder) (symbol : Symbol) (book : SymbolBook)
    (symbol' : Symbol) :
    (b.setBook symbol book).bookAt symbol' = if symbol' = symbol then book
      else b.bookAt symbol' := by
  unfold ItchBookBuilder.setBook ItchBookBuilder.bookAt
  by_cases h : symbol' = symbol
  · subst h
    simp
  · simp [Finmap.lookup_insert_of_ne _ h, h]

theorem side_setSide (book : SymbolBook) (s t : Side) (m : List (Price × List UInt64)) :
    (book.setSide s m).side t = if t = s then m else book.side t := by
  cases s <;> cases t <;> rfl

/-- One side of the book of one symbol is put in place. -/
theorem side_bookAt_setBook (b : ItchBookBuilder) (symbol : Symbol) (side : Side)
    (m : List (Price × List UInt64)) (symbol' : Symbol) (side' : Side) :
    ((b.setBook symbol ((b.bookAt symbol).setSide side m)).bookAt symbol').side side' =
      if symbol' = symbol ∧ side' = side then m else (b.bookAt symbol').side side' := by
  rw [bookAt_setBook]
  by_cases hs : symbol' = symbol
  · subst hs
    rw [if_pos rfl, side_setSide]
    simp
  · simp [hs]

theorem refOf_ne {id : OrderId} (h : o.id < 2 ^ 64) (h' : id < 2 ^ 64) (hne : o.id ≠ id) :
    refOf o ≠ UInt64.ofNat id := by
  intro heq
  have hnat := congrArg UInt64.toNat heq
  rw [refOf, UInt64.toNat_ofNat', UInt64.toNat_ofNat', Nat.mod_eq_of_lt h,
    Nat.mod_eq_of_lt h'] at hnat
  exact hne hnat

/-- The fields that the comparison is about. -/
theorem Models.congr {b' : ItchBookBuilder} (h : Models b books) (ho : b'.orders = b.orders)
    (hb : b'.books = b.books) : Models b' books where
  wf := h.wf
  small := h.small
  unique := h.unique
  order {_ _ _} hmem := by rw [ho]; exact h.order hmem
  sorted symbol side := by
    have := h.sorted symbol side
    rwa [ItchBookBuilder.bookAt, ← hb] at this
  level symbol side price := by
    have := h.level symbol side price
    rwa [ItchBookBuilder.bookAt, ← hb] at this

theorem Models.refs (h : Models b books) (symbol : Symbol) (side : Side) (price : Price) :
    (find ((b.bookAt symbol).side side) price).getD [] =
      ((books symbol).queues (side, price)).map refOf := by
  rw [h.level]
  split
  · rename_i hempty
    simp [hempty]
  · rfl

/-- The book of one symbol changes on one side, at one price. -/
theorem Models.setLevel (h : Models b books) {b' : ItchBookBuilder} {book : PriorityBook}
    {price : Price} {m : List (Price × List UInt64)} {q : List Resting}
    (hbooks : b'.books = (b.setBook symbol ((b.bookAt symbol).setSide side m)).books)
    (hqueues : book.queues = update (books symbol).queues (side, price) q)
    (hsorted : Sorted side.ahead m)
    (hfind : ∀ p, find m p =
      if p = price then (if q = [] then none else some (q.map refOf))
      else find ((b.bookAt symbol).side side) p) :
    (∀ symbol' side', Sorted side'.ahead ((b'.bookAt symbol').side side')) ∧
    ∀ symbol' side' p,
      find ((b'.bookAt symbol').side side') p =
        if (update books symbol book symbol').queues (side', p) = [] then none
        else some (((update books symbol book symbol').queues (side', p)).map refOf) := by
  have hside : ∀ symbol' side', (b'.bookAt symbol').side side' =
      if symbol' = symbol ∧ side' = side then m else (b.bookAt symbol').side side' := by
    intro symbol' side'
    rw [ItchBookBuilder.bookAt, hbooks, ← ItchBookBuilder.bookAt, side_bookAt_setBook]
  constructor
  · intro symbol' side'
    rw [hside]
    split
    · rename_i heq
      rw [heq.2]
      exact hsorted
    · exact h.sorted symbol' side'
  · intro symbol' side' p
    rw [hside]
    by_cases hs : symbol' = symbol
    · subst hs
      rw [update_self, hqueues]
      by_cases ht : side' = side
      · subst ht
        rw [if_pos ⟨rfl, rfl⟩, hfind]
        by_cases hp : p = price
        · subst hp
          simp
        · rw [if_neg hp, h.level, update_of_ne (by simpa using hp)]
      · rw [if_neg (fun hc => ht hc.2), h.level, update_of_ne (by simp [ht])]
    · rw [if_neg (fun hc => hs hc.1), update_of_ne hs]
      exact h.level symbol' side' p

/-- An order comes to rest. -/
theorem Models.addOrder (h : Models b books) {id : OrderId} {price : Price} (hsmall : id < 2 ^ 64)
    (hfresh : ∀ symbol, (books symbol).contains id = false)
    (hwf : ((books symbol).rest id side price qty).WF) :
    Models (b.addOrder (UInt64.ofNat id) symbol side.toByte price qty)
      (update books symbol ((books symbol).rest id side price qty)) := by
  -- the orders are the old ones and the new one
  have hmem : ∀ {symbol' side' o},
      o ∈ (update books symbol ((books symbol).rest id side price qty) symbol').side side' ↔
        o ∈ (books symbol').side side' ∨ symbol' = symbol ∧ side' = side ∧
          o = ⟨id, price, qty⟩ := by
    intro symbol' side' o
    by_cases hs : symbol' = symbol
    · subst hs
      rw [update_self, mem_side_rest]
      simp
    · rw [update_of_ne hs]
      simp [hs]
  have hother : ∀ {symbol' side' o}, o ∈ (books symbol').side side' → o.id ≠ id := by
    intro symbol' side' o ho heq
    exact contains_eq_false.mp (hfresh symbol') side' o ho heq
  have hbooks : (b.addOrder (UInt64.ofNat id) symbol side.toByte price qty).books =
      (b.setBook symbol ((b.bookAt symbol).setSide side (upsert side.ahead price []
        (· ++ [UInt64.ofNat id]) ((b.bookAt symbol).side side)))).books := by
    simp only [ItchBookBuilder.addOrder, sideOf_toByte]
    rfl
  obtain ⟨hsorted, hlevel⟩ := h.setLevel hbooks ((h.wf symbol).queues_rest id side price qty)
    (sorted_upsert (h.sorted symbol side) _ _ _) (fun p => by
      rw [find_upsert (h.sorted symbol side), h.refs]
      simp [refOf])
  refine ⟨fun symbol' => ?_, fun ho => ?_, fun ho ho' hid => ?_, fun {_ _ o} ho => ?_,
    hsorted, hlevel⟩
  · by_cases hs : symbol' = symbol
    · subst hs
      rw [update_self]
      exact hwf
    · rw [update_of_ne hs]
      exact h.wf symbol'
  · rcases hmem.mp ho with ho | ⟨-, -, rfl⟩
    · exact h.small ho
    · exact hsmall
  · rcases hmem.mp ho with h₁ | ⟨hs₁, -, rfl⟩ <;> rcases hmem.mp ho' with h₂ | ⟨hs₂, -, rfl⟩
    · exact h.unique h₁ h₂ hid
    · exact absurd hid (hother h₁)
    · exact absurd hid.symm (hother h₂)
    · exact hs₁.trans hs₂.symm
  · show (b.orders.insert (UInt64.ofNat id) _).lookup _ = _
    rcases hmem.mp ho with ho | ⟨rfl, rfl, rfl⟩
    · rw [Finmap.lookup_insert_of_ne _ (refOf_ne (h.small ho) hsmall (hother ho))]
      exact h.order ho
    · exact Finmap.lookup_insert _

/-- An order leaves. -/
theorem Models.removeOrder (h : Models b books) (ho : o ∈ (books symbol).side side) :
    Models (b.removeOrder (refOf o)) (update books symbol ((books symbol).remove o.id)) := by
  have hmem : ∀ {symbol' side' y},
      y ∈ (update books symbol ((books symbol).remove o.id) symbol').side side' ↔
        y ∈ (books symbol').side side' ∧ y.id ≠ o.id := by
    intro symbol' side' y
    by_cases hs : symbol' = symbol
    · subst hs
      rw [update_self, mem_side_remove]
    · rw [update_of_ne hs]
      exact ⟨fun hy => ⟨hy, fun hid => hs (h.unique hy ho hid)⟩, And.left⟩
  -- its place in the queue of its price
  obtain ⟨xs, ys, hsplit⟩ := List.append_of_mem (mem_queues.mpr ⟨ho, rfl⟩)
  obtain ⟨hxs, hys, -⟩ := (h.wf symbol).queues.ne_of_split hsplit
  have hqueue : ∀ y ∈ xs ++ ys, refOf y ≠ refOf o := by
    intro y hy
    have hy' : y ∈ (books symbol).side side := by
      refine (mem_queues (p := o.price).mp ?_).1
      rw [hsplit]
      rcases List.mem_append.mp hy with hy | hy <;> simp [hy]
    have hne : y.id ≠ o.id := by
      rcases List.mem_append.mp hy with hy | hy
      · exact hxs y hy
      · exact hys y hy
    exact refOf_ne (h.small hy') (h.small ho) hne
  have hrefs : (((books symbol).queues (side, o.price)).map refOf).filter (· ≠ refOf o) =
      (xs ++ ys).map refOf := by
    rw [hsplit, List.map_append, List.map_cons, List.filter_append,
      List.filter_cons_of_neg (by simp), ← List.filter_append, ← List.map_append]
    refine List.filter_eq_self.mpr (fun r hr => ?_)
    obtain ⟨y, hy, rfl⟩ := List.mem_map.mp hr
    simpa using hqueue y hy
  have hfound : find ((b.bookAt symbol).side side) o.price =
      some (((books symbol).queues (side, o.price)).map refOf) := by
    rw [h.level, if_neg (by rw [hsplit]; simp)]
  have hbooks : (b.removeOrder (refOf o)).books = (b.setBook symbol ((b.bookAt symbol).setSide side
      (SymbolBook.eraseFrom side ((b.bookAt symbol).side side) o.price (refOf o)))).books := by
    simp only [ItchBookBuilder.removeOrder, h.order ho, sideOf_toByte]
  have horders : (b.removeOrder (refOf o)).orders = b.orders.erase (refOf o) := by
    simp only [ItchBookBuilder.removeOrder, h.order ho]
    rfl
  obtain ⟨hsorted, hlevel⟩ := h.setLevel hbooks ((h.wf symbol).queues_remove hsplit)
    (by
      simp only [SymbolBook.eraseFrom, hfound]
      split
      · exact sorted_erase _ (h.sorted symbol side)
      · exact sorted_upsert (h.sorted symbol side) _ _ _)
    (fun p => by
      simp only [SymbolBook.eraseFrom, hfound, hrefs]
      by_cases hnil : xs ++ ys = []
      · rw [if_pos (by simp [hnil]), if_pos hnil, find_erase]
      · rw [if_neg (by simpa using hnil), if_neg hnil, find_upsert (h.sorted symbol side),
          hfound, Option.getD_some, hrefs])
  refine ⟨fun symbol' => ?_, fun hy => h.small (hmem.mp hy).1,
    fun hy hy' hid => h.unique (hmem.mp hy).1 (hmem.mp hy').1 hid, fun {_ _ y} hy => ?_,
      hsorted, hlevel⟩
  · by_cases hs : symbol' = symbol
    · subst hs
      rw [update_self]
      exact (h.wf symbol').remove o.id
    · rw [update_of_ne hs]
      exact h.wf symbol'
  · obtain ⟨hy, hne⟩ := hmem.mp hy
    have hother : refOf y ≠ refOf o := refOf_ne (h.small hy) (h.small ho) hne
    rw [horders, Finmap.lookup_erase_ne hother]
    exact h.order hy

/-- An order has less shares. -/
theorem Models.setOrder (h : Models b books) (ho : o ∈ (books symbol).side side) (hqty : qty ≠ 0) :
    Models (b.setOrder (refOf o) ⟨symbol, side.toByte, o.price, qty⟩)
      (update books symbol ((books symbol).setOpen o.id qty)) := by
  have hmem : ∀ {symbol' side' y},
      y ∈ (update books symbol ((books symbol).setOpen o.id qty) symbol').side side' →
        y ∈ (books symbol').side side' ∧ y.id ≠ o.id ∨
          symbol' = symbol ∧ side' = side ∧ y = { o with openQty := qty } := by
    intro symbol' side' y hy
    by_cases hs : symbol' = symbol
    · subst hs
      rw [update_self, side_setOpen] at hy
      obtain ⟨x, hx, rfl⟩ := List.mem_map.mp hy
      by_cases hid : x.id = o.id
      · obtain ⟨rfl, rfl⟩ := (h.wf symbol').unique hx ho hid
        exact .inr ⟨rfl, rfl, by simp⟩
      · simp only [hid, if_false]
        exact .inl ⟨hx, hid⟩
    · rw [update_of_ne hs] at hy
      exact .inl ⟨hy, fun hid => hs (h.unique hy ho hid)⟩
  obtain ⟨xs, ys, hsplit⟩ := List.append_of_mem (mem_queues.mpr ⟨ho, rfl⟩)
  refine ⟨fun symbol' => ?_, fun hy => ?_, fun hy hy' hid => ?_, fun {_ _ y} hy => ?_, h.sorted, ?_⟩
  · by_cases hs : symbol' = symbol
    · subst hs
      rw [update_self]
      exact (h.wf symbol').setOpen o.id hqty
    · rw [update_of_ne hs]
      exact h.wf symbol'
  · rcases hmem hy with ⟨hy, -⟩ | ⟨-, -, rfl⟩
    · exact h.small hy
    · exact h.small (o := o) ho
  · rcases hmem hy with ⟨h₁, hne₁⟩ | ⟨hs₁, -, rfl⟩ <;> rcases hmem
      hy' with ⟨h₂, hne₂⟩ | ⟨hs₂, -, rfl⟩
    · exact h.unique h₁ h₂ hid
    · exact absurd hid hne₁
    · exact absurd hid.symm hne₂
    · exact hs₁.trans hs₂.symm
  · show (b.orders.insert (refOf o) _).lookup _ = _
    rcases hmem hy with ⟨hy, hne⟩ | ⟨rfl, rfl, rfl⟩
    · have hother : refOf y ≠ refOf o := refOf_ne (h.small hy) (h.small ho) hne
      rw [Finmap.lookup_insert_of_ne _ hother]
      exact h.order hy
    · exact Finmap.lookup_insert _
  · intro symbol' side' p
    show find ((b.bookAt symbol').side side') p = _
    rw [h.level]
    by_cases hs : symbol' = symbol
    · subst hs
      rw [update_self, (h.wf symbol').queues_setOpen hsplit]
      by_cases hk : (side', p) = (side, o.price)
      · rw [hk, update_self, hsplit]
        simp [refOf]
      · rw [update_of_ne hk]
    · rw [update_of_ne hs]

/-- An order loses shares, or leaves when it has no more. -/
theorem Models.reduceOrder (h : Models b books) (ho : o ∈ (books symbol).side side)
    (hle : qty ≤ o.openQty) :
    Models (b.reduceOrder (refOf o) qty)
      (update books symbol ((books symbol).reduce o.id qty)) := by
  have hzero : qty ≥ o.openQty ↔ o.openQty - qty = 0 := by
    rw [ge_iff_le, UInt32.le_iff_toNat_le, ← UInt32.toNat_inj, UInt32.toNat_sub_of_le _ _ hle]
    have := UInt32.le_iff_toNat_le.mp hle
    simp only [UInt32.toNat_zero]
    omega
  rw [(h.wf symbol).reduce_of_mem ho]
  simp only [ItchBookBuilder.reduceOrder, h.order ho, hzero]
  split
  · exact h.removeOrder ho
  · rename_i hne
    exact h.setOrder ho hne

/-- Match numbers are not the listener's business. -/
theorem Models.congr_books (h : Models b books) {books' : Symbol → PriorityBook}
    (hside : ∀ symbol side, (books' symbol).side side = (books symbol).side side) :
    Models b books' := by
  have hqueues : ∀ symbol, (books' symbol).queues = (books symbol).queues := by
    intro symbol
    funext k
    rw [queues, hside, queues]
  refine ⟨fun symbol => ⟨fun side => ?_, fun side => ?_⟩, fun ho => ?_, fun ho ho' => ?_,
    fun ho => ?_, h.sorted, fun symbol side price => ?_⟩
  · rw [hside]
    exact (h.wf symbol).sides side
  · rw [hside, hside]
    exact (h.wf symbol).apart side
  · rw [hside] at ho
    exact h.small ho
  · rw [hside] at ho ho'
    exact h.unique ho ho'
  · rw [hside] at ho
    exact h.order ho
  · rw [hqueues]
    exact h.level symbol side price

/-! ## Section 3: Messages are events -/

/-- The references and prices that an event introduces fit into the fields of
    its message. -/
def OnWire (ev : MarketEvent) : Prop :=
  ∀ r, ev.ev.introduces = some r → r.id < 2 ^ 64 ∧ r.price < 2 ^ 32

/-- The message for an event does to the orders what the event does. -/
theorem Models.applyMessage (h : Models b books) {m : MarketEvent}
    (he : (books m.symbol).Enabled m.ev)
    (hfresh : ∀ r, m.ev.introduces = some r → ∀ symbol, (books symbol).contains r.id = false)
    (hwire : OnWire m) (locate : UInt16) :
    Models (b.applyMessage (Feed.itchMessage m locate).onWire)
      (update books m.symbol ((books m.symbol).applyEvent m.ev)) := by
  obtain ⟨ts, symbol, ev⟩ := m
  have hwf := (h.wf symbol).applyEvent he
  have hstamped : ∀ ts, Models (b.stampedAt ts) books := fun _ => h.congr rfl rfl
  have htraded : ∀ ts price qty, Models ((b.stampedAt ts).traded price qty) books :=
    fun _ _ _ => h.congr rfl rfl
  cases he with
  | added e fresh price qty open_ =>
    obtain ⟨hid, hprice⟩ := hwire _ rfl
    have heq : Itch.priceOnWire e.price = e.price :=
      Itch.priceOnWire_of_fits (Int.le_of_lt price) hprice
    show Models (ItchBookBuilder.addOrder _ _ _ _ (Itch.priceOnWire e.price) _) _
    rw [heq]
    exact (hstamped _).addOrder hid (hfresh _ rfl) hwf
  | executed e o l best id price qty le matchId =>
    have ho : o ∈ (books symbol).side e.aggressorSide.opposite := by simp [best]
    show Models (ItchBookBuilder.reduceOrder _ (UInt64.ofNat e.restingId) _) _
    rw [id]
    refine ((htraded _ _ _).reduceOrder ho le).congr_books (fun symbol' side => ?_)
    by_cases hs : symbol' = symbol
    · subst hs
      rw [update_self, update_self]
      simp only [applyEvent, id]
      cases side <;> rfl
    · rw [update_of_ne hs, update_of_ne hs]
  | canceled e s o mem id qty le removed =>
    obtain ⟨_, canceledQty, gone⟩ := e
    dsimp only at id
    subst id
    cases gone with
    | true =>
      show Models (ItchBookBuilder.removeOrder _ (refOf o)) _
      exact (hstamped _).removeOrder mem
    | false =>
      show Models (ItchBookBuilder.reduceOrder _ (refOf o) canceledQty) _
      exact (hstamped _).reduceOrder mem le
  | replaced e o mem id ne fresh price qty open_ =>
    obtain ⟨hid, hprice⟩ := hwire _ rfl
    have heq : Itch.priceOnWire e.price = e.price :=
      Itch.priceOnWire_of_fits (Int.le_of_lt price) hprice
    have hremove := (hstamped (low48 (UInt64.ofNat ts))).removeOrder mem
    -- side and symbol of the new order are those on record for the old one
    have hmessage : b.applyMessage
          (Feed.itchMessage ⟨ts, symbol, .replaced e⟩ locate).onWire =
        ((b.stampedAt (low48 (UInt64.ofNat ts))).removeOrder (refOf o)).addOrder
          (UInt64.ofNat e.newId) symbol e.side.toByte e.price e.qty := by
      have hlookup := (hstamped (low48 (UInt64.ofNat ts))).order mem
      rw [refOf, id] at hlookup ⊢
      simp only [Feed.itchMessage, Itch.Message.onWire, ItchBookBuilder.applyMessage,
        Itch.Header.onWire, heq]
      rw [hlookup]
    have hgone : ∀ symbol', (update books symbol ((books symbol).remove o.id) symbol').contains
        e.newId = false := by
      intro symbol'
      have hnew := hfresh _ rfl symbol'
      by_cases hs : symbol' = symbol
      · subst hs
        rw [update_self, contains_remove_of_ne (by rw [id]; exact ne)]
        exact hnew
      · rw [update_of_ne hs]
        exact hnew
    have hrest : (update books symbol ((books symbol).remove o.id) symbol) =
        (books symbol).remove e.oldId := by
      rw [update_self, id]
    rw [hmessage]
    have hadd := hremove.addOrder hid hgone (by rw [hrest]; exact hwf)
    rw [hrest, update_idem] at hadd
    exact hadd

/-- **Step lemma.** The message for an event does what the event does, and is
    counted. -/
theorem Models.onMessage (h : Models b books) {m : MarketEvent}
    (he : (books m.symbol).Enabled m.ev)
    (hfresh : ∀ r, m.ev.introduces = some r → ∀ symbol, (books symbol).contains r.id = false)
    (hwire : OnWire m) (locate : UInt16) :
    Models (b.onMessage (Feed.itchMessage m locate).onWire)
      (update books m.symbol ((books m.symbol).applyEvent m.ev)) := by
  have hcounted : Models { b with messages := b.messages + 1 } books := h.congr rfl rfl
  exact hcounted.applyMessage he hfresh hwire locate

/-! ## Section 4: Snapshots -/

namespace ItchBookBuilder

/-- What a snapshot shows for a reference that has a record. -/
def shown (b : ItchBookBuilder) (ref : UInt64) : SnapshotOrder :=
  ⟨ref.toNat, ((b.orders.lookup ref).map BuilderOrder.qty).getD 0⟩

/-- Nothing throws when all references have records. -/
theorem snapshotSide_of_recorded {b : ItchBookBuilder} {m : List (Price × List UInt64)}
    (h : ∀ e ∈ m, ∀ ref ∈ e.2, ∃ o, b.orders.lookup ref = some o) :
    b.snapshotSide m = some (m.map (fun e => ⟨e.1, e.2.map b.shown⟩)) := by
  apply Machine.mapM_some
  intro e he
  have horders : e.2.mapM (fun ref => do
      let order ← b.orders.lookup ref
      some (⟨ref.toNat, order.qty⟩ : SnapshotOrder)) = some (e.2.map b.shown) := by
    apply Machine.mapM_some
    intro ref href
    obtain ⟨o, ho⟩ := h e he ref href
    simp [shown, ho]
  rw [horders]
  rfl

/-- A symbol without a book has two empty sides. -/
theorem snapshot_eq (b : ItchBookBuilder) (symbol : Symbol) :
    b.snapshot symbol = (b.snapshotSide ((b.bookAt symbol).side .buy)).bind (fun bids =>
      (b.snapshotSide ((b.bookAt symbol).side .sell)).map (fun asks => ⟨bids, asks⟩)) := by
  unfold snapshot bookAt
  cases b.books.lookup symbol with
  | none => rfl
  | some book =>
    show (b.snapshotSide book.bids).bind _ = (b.snapshotSide book.bids).bind _
    congr 1
    funext bids
    show (b.snapshotSide book.asks).bind _ = (b.snapshotSide book.asks).map _
    cases b.snapshotSide book.asks <;> rfl

end ItchBookBuilder

theorem toNat_refOf (h : o.id < 2 ^ 64) : (refOf o).toNat = o.id := by
  rw [refOf, UInt64.toNat_ofNat', Nat.mod_eq_of_lt h]

theorem Models.snapshotSide (h : Models b books) (symbol : Symbol) (side : Side) :
    b.snapshotSide ((b.bookAt symbol).side side) =
      some (snapshotSide side ((books symbol).side side)) := by
  have hshown : ∀ price, (((books symbol).queues (side, price)).map refOf).map b.shown =
      snapshotQueue ((books symbol).queues (side, price)) := by
    intro price
    rw [List.map_map]
    apply List.map_congr_left
    intro o ho
    have hmem := (mem_queues.mp ho).1
    simp only [comp_apply, ItchBookBuilder.shown, h.order hmem, toNat_refOf (h.small hmem)]
    rfl
  have hlevels := snapshotSide_eq (b := books symbol) (s := side)
    (sorted_map (List.map b.shown) (h.sorted symbol side)) (fun price => by
      rw [find_map, h.level]
      split
      · rfl
      · rw [Option.map_some, hshown])
  rw [← hlevels, List.map_map]
  apply ItchBookBuilder.snapshotSide_of_recorded
  -- a level lists the orders of a queue, and these have records
  intro e he ref href
  have hfound := find_of_mem (h.sorted symbol side) he
  rw [h.level] at hfound
  split at hfound
  · cases hfound
  · rw [← Option.some.inj hfound] at href
    obtain ⟨o, ho, rfl⟩ := List.mem_map.mp href
    exact ⟨_, h.order (mem_queues.mp ho).1⟩

/-- The builder shows the books it models. -/
theorem Models.snapshot (h : Models b books) (symbol : Symbol) :
    b.snapshot symbol = some (books symbol).snapshot := by
  rw [b.snapshot_eq, h.snapshotSide, h.snapshotSide]
  rfl

end builder

end Client

end MatchingEngine
