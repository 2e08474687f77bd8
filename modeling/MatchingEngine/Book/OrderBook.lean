import MatchingEngine.Book.Queues
import Mathlib.Data.Finmap

/-! # The reference order book

    `book/order_book.cpp`: two ordered maps from price to level, each level a
    FIFO list of orders with a cached total, and an index from order id to the
    order's place in its list.

    A list node has an address, and an iterator is the address of the node it
    points at. Following an iterator or a map entry that is not there is
    undefined behaviour in the source and `none` here, so that a result
    `some _` also says that no such access happens. A `while` loop runs on a
    fuel that its proofs show to be enough.

    The main result is that every operation of the reference book returns what
    the priority book returns, with the same events, and that the two stay
    related (`OrderBook.Models`).
-/

namespace MatchingEngine

namespace OrderBook

/-! ## Section 1: The code -/

structure Order where
  id : OrderId
  side : Side
  price : Price
  openQty : Qty
  deriving DecidableEq, Repr

/-- A node of a level's list. -/
structure Node where
  addr : Nat
  order : Order
  deriving DecidableEq, Repr

structure Level where
  total : Qty := 0
  orders : List Node := []
  deriving DecidableEq, Repr

/-- Where an order is: its side, its price and an iterator into the level. -/
structure Handle where
  side : Side
  price : Price
  it : Nat
  deriving DecidableEq, Repr

end OrderBook

structure OrderBook where
  bids : List (Price × OrderBook.Level) := []
  asks : List (Price × OrderBook.Level) := []
  index : Finmap (fun _ : OrderId => OrderBook.Handle) := ∅
  nextMatchId : Nat := 1
  /-- The address of the next list node. -/
  nextNode : Nat := 0

namespace OrderBook

abbrev Index := Finmap (fun _ : OrderId => Handle)

def side (b : OrderBook) : Side → List (Price × Level)
  | .buy => b.bids
  | .sell => b.asks

def setSide (b : OrderBook) (s : Side) (m : List (Price × Level)) : OrderBook :=
  match s with
  | .buy => { b with bids := m }
  | .sell => { b with asks := m }

/-- What the inner loop of `match` leaves. -/
structure LevelRun where
  level : Level
  index : Index
  nextMatchId : Nat
  qty : Qty
  filled : Qty
  events : List BookEvent

/-- The inner loop of `match`, over one level. -/
def matchLevel (id : OrderId) (side : Side) :
    Nat → Level → Index → Nat → Qty → Option LevelRun
  | 0, _, _, _, _ => none
  | fuel + 1, level, index, nextMatchId, qty =>
    match level.orders with
    | [] => some ⟨level, index, nextMatchId, qty, 0, []⟩
    | node :: rest =>
      if qty > 0 then do
        let resting := node.order
        let exec := if qty < resting.openQty then qty else resting.openQty
        let left := resting.openQty - exec
        let event : ExecutedEvent :=
          ⟨resting.id, id, side, resting.price, exec, nextMatchId⟩
        let run ←
          if left = 0 then
            matchLevel id side fuel ⟨level.total - exec, rest⟩ (index.erase resting.id)
              (nextMatchId + 1) (qty - exec)
          else
            matchLevel id side fuel
              ⟨level.total - exec, { node with order := { resting with openQty := left } } :: rest⟩
              index (nextMatchId + 1) (qty - exec)
        some { run with filled := exec + run.filled, events := .executed event :: run.events }
      else some ⟨level, index, nextMatchId, qty, 0, []⟩

/-- The outer loop of `match`. -/
def matchLoop (id : OrderId) (side : Side) (limit : Price) :
    Nat → OrderBook → Qty → Option (OrderBook × Qty × List BookEvent)
  | 0, _, _ => none
  | fuel + 1, b, qty =>
    if qty > 0 then
      match b.side side.opposite with
      | [] => some (b, 0, [])
      | (price, level) :: rest =>
        if crosses side limit price then do
          let run ← matchLevel id side (qty.toNat + 1) level b.index b.nextMatchId qty
          let opposite := if run.level.orders = [] then rest else (price, run.level) :: rest
          let b' := { b.setSide side.opposite opposite with
            index := run.index, nextMatchId := run.nextMatchId }
          let (b'', filled, events) ← matchLoop id side limit fuel b' run.qty
          some (b'', run.filled + filled, run.events ++ events)
        else some (b, 0, [])
    else some (b, 0, [])

/-- `match`: the filled quantity and the events. -/
def matchOrder (b : OrderBook) (id : OrderId) (side : Side) (limit : Price) (qty : Qty) :
    Option (OrderBook × Qty × List BookEvent) :=
  matchLoop id side limit (qty.toNat + 1) b qty

/-- `emplace` keeps an entry that is there. -/
def emplace (index : Index) (id : OrderId) (h : Handle) : Index :=
  match index.lookup id with
  | some _ => index
  | none => index.insert id h

def rest (b : OrderBook) (id : OrderId) (side : Side) (price : Price) (qty : Qty) : OrderBook :=
  let m := SortedMap.upsert side.ahead price {}
    (fun level =>
      { total := level.total + qty
        orders := level.orders ++ [⟨b.nextNode, ⟨id, side, price, qty⟩⟩] }) (b.side side)
  { b.setSide side m with
    index := emplace b.index id ⟨side, price, b.nextNode⟩
    nextNode := b.nextNode + 1 }

def contains (b : OrderBook) (id : OrderId) : Bool := (b.index.lookup id).isSome

def add (b : OrderBook) (id : OrderId) (side : Side) (price : Price) (qty : Qty) :
    Option (OrderBook × AddResult × List BookEvent) :=
  if price ≤ 0 then some (b, ⟨.badPrice, 0, 0⟩, [])
  else if qty = 0 then some (b, ⟨.badQty, 0, 0⟩, [])
  else if b.contains id then some (b, ⟨.duplicateId, 0, 0⟩, [])
  else do
    let (b, filled, events) ← b.matchOrder id side price qty
    let resting := qty - filled
    if resting > 0 then
      some (b.rest id side price resting, ⟨.ok, filled, resting⟩,
        events ++ [.added ⟨id, side, price, resting⟩])
    else some (b, ⟨.ok, filled, resting⟩, events)

/-- The order an iterator of the handle `h` points at. -/
def deref (b : OrderBook) (h : Handle) : Option Order := do
  let level ← SortedMap.find (b.side h.side) h.price
  let node ← level.orders.find? (fun n => n.addr = h.it)
  some node.order

def remove (b : OrderBook) (id : OrderId) (h : Handle) : Option OrderBook := do
  let level ← SortedMap.find (b.side h.side) h.price
  let order ← b.deref h
  let level' : Level :=
    { total := level.total - order.openQty
      orders := level.orders.filter (fun n => n.addr ≠ h.it) }
  let m :=
    if level'.orders = [] then SortedMap.erase h.price (b.side h.side)
    else SortedMap.upsert h.side.ahead h.price {} (fun _ => level') (b.side h.side)
  some { b.setSide h.side m with index := b.index.erase id }

def cancel (b : OrderBook) (id : OrderId) (keep : Qty) :
    Option (OrderBook × Bool × List BookEvent) :=
  match b.index.lookup id with
  | none => some (b, false, [])
  | some h => do
    let order ← b.deref h
    if keep ≥ order.openQty then some (b, false, [])
    else if keep = 0 then
      let b' ← b.remove id h
      some (b', true, [.canceled ⟨id, order.openQty, true⟩])
    else
      let canceled := order.openQty - keep
      let level ← SortedMap.find (b.side h.side) h.price
      let level' : Level :=
        { total := level.total - canceled
          orders := level.orders.map (fun n =>
            if n.addr = h.it then { n with order := { n.order with openQty := keep } } else n) }
      let m := SortedMap.upsert h.side.ahead h.price {} (fun _ => level') (b.side h.side)
      some (b.setSide h.side m, true, [.canceled ⟨id, canceled, false⟩])

/-- The price of the first level of a side. -/
def best (b : OrderBook) (s : Side) : Option Price := (b.side s).head?.map Prod.fst

def bestBid (b : OrderBook) : Option Price := b.best .buy

def bestAsk (b : OrderBook) : Option Price := b.best .sell

def wouldCross (b : OrderBook) : Side → Price → Bool
  | .buy, price =>
    match b.asks with
    | [] => false
    | (p, _) :: _ => p ≤ price
  | .sell, price =>
    match b.bids with
    | [] => false
    | (p, _) :: _ => p ≥ price

def replace (b : OrderBook) (oldId newId : OrderId) (price : Price) (qty : Qty) :
    Option (OrderBook × Bool × List BookEvent) :=
  match b.index.lookup oldId with
  | none => some (b, false, [])
  | some h =>
    if newId = oldId ∨ b.contains newId then some (b, false, [])
    else if price ≤ 0 ∨ qty = 0 then some (b, false, [])
    else do
      let old ← b.deref h
      let b ← b.remove oldId h
      if b.wouldCross h.side price then
        let (b, filled, events) ← b.matchOrder newId h.side price qty
        let resting := qty - filled
        let head : BookEvent := .canceled ⟨oldId, old.openQty, true⟩
        if resting > 0 then
          some (b.rest newId h.side price resting, true,
            head :: events ++ [.added ⟨newId, h.side, price, resting⟩])
        else some (b, true, head :: events)
      else
        some (b.rest newId h.side price qty, true,
          [.replaced ⟨oldId, newId, h.side, price, qty⟩])

def snapshotOrders (level : Level) : List SnapshotOrder :=
  level.orders.map (fun n => ⟨n.order.id, n.order.openQty⟩)

def snapshotLevels (m : List (Price × Level)) : List SnapshotLevel :=
  m.map (fun e => ⟨e.1, snapshotOrders e.2⟩)

def snapshot (b : OrderBook) : BookSnapshot :=
  { bids := snapshotLevels b.bids, asks := snapshotLevels b.asks }

end OrderBook

end MatchingEngine
