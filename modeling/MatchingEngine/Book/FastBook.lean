import MatchingEngine.Book.FlatMap
import MatchingEngine.Common.Types
import MatchingEngine.Lib.Arena
import MatchingEngine.Lib.SortedMap
import Mathlib.Data.List.Sort

/-! # The fast order book

    `book/fast_book.cpp`. Orders live in a pool with intrusive links and a free
    list. Levels of tick-aligned prices near the first price live in one array,
    the ladder, shared by both sides; all other prices fall back to ordered
    maps. Two cursors bound the best in-band bid and ask and are moved lazily
    by the read-only queries. An open-addressing table maps ids to pool slots.

    Modelling choices:

    * An index into the pool, `kNil` apart, is a natural number and a link is
      an `Option`. The source stores 32 bits and reserves the last value, so
      the model is that of a book with fewer than 2^32 - 1 orders at once.
    * `static_cast<int>` of a size or of an index wraps, as on the machine
      (`toInt`). The cursors are integers for that reason.
    * A reference to a level is a `LevelRef`, read and written through `level`
      and `setLevel`.
    * Accesses out of range are undefined in the source and `none` here.
-/

namespace MatchingEngine

namespace FastBook

open Arena (Link)

structure Config where
  tick : Price := 100
  bandHalfTicks : Int32 := 20000
  expectedOrders : Nat := 65536
  deriving DecidableEq, Repr

structure FOrder where
  id : OrderId
  price : Price
  openQty : Qty
  prev : Link
  next : Link
  side : Side
  deriving DecidableEq, Repr

structure Level where
  total : Qty := 0
  head : Link := none
  tail : Link := none
  deriving DecidableEq, Repr

/-- A `Level&`. -/
inductive LevelRef where
  | ladder (i : Nat)
  | fallback (side : Side) (price : Price)
  deriving DecidableEq, Repr

end FastBook

structure FastBook where
  cfg : FastBook.Config
  bandSet : Bool := false
  /-- The price of ladder index 0. -/
  base : Price := 0
  ladder : List FastBook.Level := []
  fbBids : List (Price × FastBook.Level) := []
  fbAsks : List (Price × FastBook.Level) := []
  /-- An upper bound on the best in-band bid. -/
  bidCursor : Int := -1
  /-- A lower bound on the best in-band ask. -/
  askCursor : Int := 0
  pool : List FastBook.FOrder := []
  /-- The free slots, the last freed one first. -/
  free : List Nat := []
  index : FlatMap OrderId Nat
  nextMatchId : Nat := 1

namespace FastBook

open Arena (Link)

/-- A new book. -/
def create (cfg : Config) : FastBook :=
  { cfg := cfg, index := FlatMap.create OrderId Nat (cfg.expectedOrders * 2) }

/-- `static_cast<int>`. -/
def toInt (x : Int) : Int := x.bmod (2 ^ 32)

/-! ### Levels -/

/-- The ladder index of a price, or -1 when it is out of band or off tick. -/
def tickIndex (fb : FastBook) (price : Price) : Int :=
  if !fb.bandSet then -1
  else
    let off := price - fb.base
    if off < 0 ∨ off.tmod fb.cfg.tick ≠ 0 then -1
    else
      let idx := off.tdiv fb.cfg.tick
      if idx ≥ fb.ladder.length then -1 else toInt idx

def priceAt (fb : FastBook) (idx : Int) : Price := fb.base + idx * fb.cfg.tick

def fallback (fb : FastBook) : Side → List (Price × Level)
  | .buy => fb.fbBids
  | .sell => fb.fbAsks

def setFallback (fb : FastBook) (s : Side) (m : List (Price × Level)) : FastBook :=
  match s with
  | .buy => { fb with fbBids := m }
  | .sell => { fb with fbAsks := m }

def level (fb : FastBook) : LevelRef → Option Level
  | .ladder i => fb.ladder[i]?
  | .fallback s p => SortedMap.find (fb.fallback s) p

def setLevel (fb : FastBook) (ref : LevelRef) (lvl : Level) : FastBook :=
  match ref with
  | .ladder i => { fb with ladder := fb.ladder.set i lvl }
  | .fallback s p =>
    fb.setFallback s (SortedMap.upsert s.ahead p {} (fun _ => lvl) (fb.fallback s))

/-- `level_for`; a map's `operator[]` makes a missing level. -/
def levelFor (fb : FastBook) (side : Side) (price : Price) : FastBook × LevelRef :=
  let t := fb.tickIndex price
  if t ≥ 0 then (fb, .ladder t.toNat)
  else
    (fb.setFallback side (SortedMap.upsert side.ahead price {} (fun lvl => lvl) (fb.fallback side)),
      .fallback side price)

def eraseLevelIfFallback (fb : FastBook) (side : Side) (price : Price) (lvl : Level) : FastBook :=
  if lvl.head ≠ none ∨ fb.tickIndex price ≥ 0 then fb
  else fb.setFallback side (SortedMap.erase price (fb.fallback side))

/-! ### The pool -/

def allocOrder (fb : FastBook) (id : OrderId) (side : Side) (price : Price) (qty : Qty) :
    Option (FastBook × Nat) :=
  let o : FOrder := ⟨id, price, qty, none, none, side⟩
  match fb.free with
  | idx :: free => do
    let pool ← Arena.update fb.pool idx (fun _ => o)
    some ({ fb with free := free, pool := pool }, idx)
  | [] => some ({ fb with pool := fb.pool ++ [o] }, fb.pool.length)

def freeOrder (fb : FastBook) (idx : Nat) : FastBook := { fb with free := idx :: fb.free }

/-- Let the slot `i` point on to `nx`, or the level's head when there is no
    slot. -/
def relinkNext (pool : List FOrder) (lvl : Level) (i nx : Link) : Option (List FOrder × Level) :=
  match i with
  | some p => (Arena.update pool p (fun n => { n with next := nx })).map (fun pool => (pool, lvl))
  | none => some (pool, { lvl with head := nx })

/-- Let the slot `i` point back to `pv`, or the level's tail when there is no
    slot. -/
def relinkPrev (pool : List FOrder) (lvl : Level) (i pv : Link) : Option (List FOrder × Level) :=
  match i with
  | some n => (Arena.update pool n (fun n => { n with prev := pv })).map (fun pool => (pool, lvl))
  | none => some (pool, { lvl with tail := pv })

/-- Take a slot out of the list of a level. -/
def unlink (pool : List FOrder) (lvl : Level) (idx : Nat) : Option (List FOrder × Level) := do
  let o ← pool[idx]?
  let (pool, lvl) ← relinkNext pool lvl o.prev o.next
  let o ← pool[idx]?
  let (pool, lvl) ← relinkPrev pool lvl o.next o.prev
  let pool ← Arena.update pool idx (fun o => { o with prev := none, next := none })
  some (pool, lvl)

/-- Put a slot behind the tail of the list of a level. -/
def linkBack (pool : List FOrder) (lvl : Level) (idx : Nat) (qty : Qty) :
    Option (List FOrder × Level) := do
  let pool ← Arena.update pool idx (fun o => { o with prev := lvl.tail })
  let (pool, lvl) ← relinkNext pool lvl lvl.tail (some idx)
  some (pool, { lvl with tail := some idx, total := lvl.total + qty })

/-- The first resting order fixes the band. -/
def setBand (fb : FastBook) (price : Price) : FastBook :=
  if fb.bandSet then fb
  else
    let size := 2 * fb.cfg.bandHalfTicks.toInt.toNat + 1
    { fb with
      base := price - fb.cfg.bandHalfTicks.toInt * fb.cfg.tick
      ladder := List.replicate size {}
      bidCursor := -1
      askCursor := toInt size
      bandSet := true }

/-- The cursors after an order came to rest at `price`. -/
def moveCursors (fb : FastBook) (side : Side) (price : Price) : FastBook :=
  let t := fb.tickIndex price
  if t ≥ 0 then
    match side with
    | .buy => if t > fb.bidCursor then { fb with bidCursor := t } else fb
    | .sell => if t < fb.askCursor then { fb with askCursor := t } else fb
  else fb

def rest (fb : FastBook) (id : OrderId) (side : Side) (price : Price) (qty : Qty) :
    Option FastBook := do
  let fb := fb.setBand price
  let (fb, ref) := fb.levelFor side price
  let (fb, idx) ← fb.allocOrder id side price qty
  let lvl ← fb.level ref
  let (pool, lvl) ← linkBack fb.pool lvl idx qty
  let fb := { fb with pool := pool }.setLevel ref lvl
  let index ← fb.index.insert id idx
  some ({ fb with index := index }.moveCursors side price)

def removeResting (fb : FastBook) (idx : Nat) : Option FastBook := do
  let o ← fb.pool[idx]?
  let (fb, ref) := fb.levelFor o.side o.price
  let lvl ← fb.level ref
  let (pool, lvl) ← unlink fb.pool { lvl with total := lvl.total - o.openQty } idx
  let fb := { fb with pool := pool }.setLevel ref lvl
  let (index, _) ← fb.index.erase o.id
  let fb := { fb with index := index }.freeOrder idx
  some (fb.eraseLevelIfFallback o.side o.price lvl)

/-! ### Best prices -/

/-- The level holds orders of side `s`, judged by its first one. -/
def holds (fb : FastBook) (s : Side) (lvl : Level) : Option Bool :=
  match lvl.head with
  | none => some false
  | some h => (fb.pool[h]?).map (fun o => o.side = s)

/-- The loop of `ladder_best_bid` from index `t - 1` down. -/
def scanDown (fb : FastBook) : Nat → Option Int
  | 0 => some (-1)
  | t + 1 => do
    let lvl ← fb.ladder[t]?
    if ← fb.holds .buy lvl then some t else fb.scanDown t

/-- The loop of `ladder_best_ask`: at most `k` steps up from index `t`. -/
def scanUp (fb : FastBook) : Nat → Nat → Option Nat
  | 0, t => some t
  | k + 1, t => do
    let lvl ← fb.ladder[t]?
    if ← fb.holds .sell lvl then some t else fb.scanUp k (t + 1)

def ladderBestBid (fb : FastBook) : Option (FastBook × Int) := do
  let t := min fb.bidCursor (toInt fb.ladder.length - 1)
  let t ← if t < 0 then some t else fb.scanDown (t.toNat + 1)
  some ({ fb with bidCursor := t }, t)

def ladderBestAsk (fb : FastBook) : Option (FastBook × Int) := do
  let n := toInt fb.ladder.length
  let t := max fb.askCursor 0
  let t ← fb.scanUp (n - t).toNat t.toNat
  some ({ fb with askCursor := t }, if t < n then t else -1)

/-- The best in-band index of a side, or a negative number. -/
def ladderBest (fb : FastBook) (s : Side) : Option (FastBook × Int) :=
  if fb.bandSet then
    match s with
    | .buy => fb.ladderBestBid
    | .sell => fb.ladderBestAsk
  else some (fb, -1)

/-- The better of the best ladder price and the best fallback price, with the
    level it is at. -/
def bestLevel (fb : FastBook) (s : Side) (t : Int) : Option (Price × LevelRef) :=
  let best := if t ≥ 0 then some (fb.priceAt t, LevelRef.ladder t.toNat) else none
  match fb.fallback s, best with
  | [], best => best
  | (p, _) :: _, none => some (p, .fallback s p)
  | (p, _) :: _, some (q, ref) => if s.ahead p q then some (p, .fallback s p) else some (q, ref)

/-- `best_bid` and `best_ask`, which move the cursor of the side. -/
def best (fb : FastBook) (s : Side) : Option (FastBook × Option Price) := do
  let (fb, t) ← fb.ladderBest s
  some (fb, (fb.bestLevel s t).map Prod.fst)

def bestBid (fb : FastBook) : Option (FastBook × Option Price) := fb.best .buy

def bestAsk (fb : FastBook) : Option (FastBook × Option Price) := fb.best .sell

def wouldCross (fb : FastBook) (side : Side) (price : Price) : Option (FastBook × Bool) := do
  let (fb, opposite) ← fb.best side.opposite
  some (fb, match opposite with
    | none => false
    | some p => crosses side price p)

/-! ### Matching -/

/-- The changes of one iteration of `consume_level`: `exec` shares of the order
    `o`, the first of the level, are taken. -/
def takeShares (fb : FastBook) (ref : LevelRef) (lvl : Level) (idx : Nat) (o : FOrder)
    (exec : Qty) : Option FastBook := do
  let left := o.openQty - exec
  let pool := fb.pool.set idx { o with openQty := left }
  let lvl := { lvl with total := lvl.total - exec }
  let fb := { fb with nextMatchId := fb.nextMatchId + 1 }
  if left = 0 then
    let (index, _) ← fb.index.erase o.id
    let (pool, lvl) ← unlink pool lvl idx
    some ({ fb with index := index, pool := pool }.setLevel ref lvl |>.freeOrder idx)
  else some ({ fb with pool := pool }.setLevel ref lvl)

/-- `consume_level`: FIFO executions at one level. -/
def consumeLevel (ref : LevelRef) (levelPrice : Price) (aggressor : OrderId) (side : Side) :
    Nat → FastBook → Qty → Option (FastBook × Qty × List BookEvent)
  | 0, _, _ => none
  | fuel + 1, fb, want => do
    let lvl ← fb.level ref
    match lvl.head with
    | none => some (fb, 0, [])
    | some idx =>
      if want > 0 then
        let o ← fb.pool[idx]?
        let exec := if want < o.openQty then want else o.openQty
        let event : ExecutedEvent := ⟨o.id, aggressor, side, levelPrice, exec, fb.nextMatchId⟩
        let fb ← fb.takeShares ref lvl idx o exec
        let (fb, filled, events) ←
          consumeLevel ref levelPrice aggressor side fuel fb (want - exec)
        some (fb, exec + filled, .executed event :: events)
      else some (fb, 0, [])

/-- An empty fallback level is erased after it was consumed. -/
def eraseConsumed (fb : FastBook) (ref : LevelRef) : Option FastBook := do
  let lvl ← fb.level ref
  match lvl.head, ref with
  | none, .fallback s p => some (fb.setFallback s (SortedMap.erase p (fb.fallback s)))
  | _, _ => some fb

def matchLoop (id : OrderId) (side : Side) (limit : Price) :
    Nat → FastBook → Qty → Option (FastBook × Qty × List BookEvent)
  | 0, _, _ => none
  | fuel + 1, fb, qty =>
    if qty > 0 then do
      let (fb, t) ← fb.ladderBest side.opposite
      match fb.bestLevel side.opposite t with
      | none => some (fb, 0, [])
      | some (bestPrice, ref) =>
        if crosses side limit bestPrice then
          let (fb, got, events) ←
            consumeLevel ref bestPrice id side (qty.toNat + 1) fb qty
          let fb ← fb.eraseConsumed ref
          let (fb, filled, events') ← matchLoop id side limit fuel fb (qty - got)
          some (fb, got + filled, events ++ events')
        else some (fb, 0, [])
    else some (fb, 0, [])

/-- `match`: the filled quantity and the events. -/
def matchOrder (fb : FastBook) (id : OrderId) (side : Side) (limit : Price) (qty : Qty) :
    Option (FastBook × Qty × List BookEvent) :=
  matchLoop id side limit (qty.toNat + 1) fb qty

/-! ### Operations -/

def contains (fb : FastBook) (id : OrderId) : Option Bool := fb.index.contains id

def add (fb : FastBook) (id : OrderId) (side : Side) (price : Price) (qty : Qty) :
    Option (FastBook × AddResult × List BookEvent) :=
  if price ≤ 0 then some (fb, ⟨.badPrice, 0, 0⟩, [])
  else if qty = 0 then some (fb, ⟨.badQty, 0, 0⟩, [])
  else do
    if ← fb.contains id then some (fb, ⟨.duplicateId, 0, 0⟩, [])
    else
      let (fb, filled, events) ← fb.matchOrder id side price qty
      let resting := qty - filled
      if resting > 0 then
        let fb ← fb.rest id side price resting
        some (fb, ⟨.ok, filled, resting⟩, events ++ [.added ⟨id, side, price, resting⟩])
      else some (fb, ⟨.ok, filled, resting⟩, events)

def executeIoc (fb : FastBook) (id : OrderId) (side : Side) (limit : Price) (qty : Qty) :
    Option (FastBook × Qty × List BookEvent) :=
  fb.matchOrder id side limit qty

/-- The loop of `matchable` over the asks of the ladder: `k` indices from `t`
    up. -/
def sumAsks (fb : FastBook) (limit : Price) : Nat → Nat → Qty → Option Qty
  | 0, _, total => some total
  | k + 1, t, total => do
    let lvl ← fb.ladder[t]?
    if !(← fb.holds .sell lvl) then fb.sumAsks limit k (t + 1) total
    else if fb.priceAt t > limit then some total
    else fb.sumAsks limit k (t + 1) (total + lvl.total)

/-- The loop of `matchable` over the bids of the ladder, from index `t - 1`
    down. -/
def sumBids (fb : FastBook) (limit : Price) : Nat → Qty → Option Qty
  | 0, total => some total
  | t + 1, total => do
    let lvl ← fb.ladder[t]?
    if !(← fb.holds .buy lvl) then fb.sumBids limit t total
    else if fb.priceAt t < limit then some total
    else fb.sumBids limit t (total + lvl.total)

/-- The loop of `matchable` over a fallback map. -/
def sumFallback (side : Side) (limit : Price) : List (Price × Level) → Qty → Qty
  | [], total => total
  | (p, lvl) :: m, total =>
    if crosses side limit p then sumFallback side limit m (total + lvl.total) else total

def matchable (fb : FastBook) (side : Side) (limit : Price) : Option (FastBook × Qty) := do
  let (fb, t) ← fb.ladderBest side.opposite
  let total ←
    match side with
    | .buy =>
      if t ≥ 0 then fb.sumAsks limit (toInt fb.ladder.length - t).toNat t.toNat 0 else some 0
    | .sell => if t ≥ 0 then fb.sumBids limit (t.toNat + 1) 0 else some 0
  some (fb, sumFallback side limit (fb.fallback side.opposite) total)

def cancel (fb : FastBook) (id : OrderId) (keep : Qty) :
    Option (FastBook × Bool × List BookEvent) := do
  match ← fb.index.find id with
  | none => some (fb, false, [])
  | some idx =>
    let o ← fb.pool[idx]?
    if keep ≥ o.openQty then some (fb, false, [])
    else if keep = 0 then
      let fb ← fb.removeResting idx
      some (fb, true, [.canceled ⟨id, o.openQty, true⟩])
    else
      let canceled := o.openQty - keep
      let fb := { fb with pool := fb.pool.set idx { o with openQty := keep } }
      let (fb, ref) := fb.levelFor o.side o.price
      let lvl ← fb.level ref
      some (fb.setLevel ref { lvl with total := lvl.total - canceled }, true,
        [.canceled ⟨id, canceled, false⟩])

def replace (fb : FastBook) (oldId newId : OrderId) (price : Price) (qty : Qty) :
    Option (FastBook × Bool × List BookEvent) := do
  match ← fb.index.find oldId with
  | none => some (fb, false, [])
  | some idx =>
    if newId = oldId ∨ (← fb.contains newId) then some (fb, false, [])
    else if price ≤ 0 ∨ qty = 0 then some (fb, false, [])
    else
      let old ← fb.pool[idx]?
      let fb ← fb.removeResting idx
      let (fb, cross) ← fb.wouldCross old.side price
      if cross then
        let (fb, filled, events) ← fb.matchOrder newId old.side price qty
        let resting := qty - filled
        let head : BookEvent := .canceled ⟨oldId, old.openQty, true⟩
        if resting > 0 then
          let fb ← fb.rest newId old.side price resting
          some (fb, true, head :: events ++ [.added ⟨newId, old.side, price, resting⟩])
        else some (fb, true, head :: events)
      else
        let fb ← fb.rest newId old.side price qty
        some (fb, true, [.replaced ⟨oldId, newId, old.side, price, qty⟩])

/-! ### Snapshot -/

/-- The orders of a list that starts at a link. A list has no more nodes than
    the pool. -/
def chain (pool : List FOrder) : Nat → Link → Option (List SnapshotOrder)
  | _, none => some []
  | 0, some _ => none
  | fuel + 1, some i => do
    let o ← pool[i]?
    let rest ← chain pool fuel o.next
    some (⟨o.id, o.openQty⟩ :: rest)

/-- The ladder levels that hold side `s`, with their prices; `i` is the index
    of the first one. -/
def ladderLevels (fb : FastBook) (s : Side) : List Level → Nat → Option (List (Price × Level))
  | [], _ => some []
  | lvl :: lvls, i => do
    let rest ← fb.ladderLevels s lvls (i + 1)
    if ← fb.holds s lvl then some ((fb.priceAt (toInt i), lvl) :: rest) else some rest

def snapshotSide (fb : FastBook) (s : Side) : Option (List SnapshotLevel) := do
  let levels ← fb.ladderLevels s fb.ladder 0
  let sorted := (levels ++ fb.fallback s).insertionSort (fun a b => ¬ s.ahead b.1 a.1)
  sorted.mapM (fun e => do
    let orders ← chain fb.pool fb.pool.length e.2.head
    some ⟨e.1, orders⟩)

def snapshot (fb : FastBook) : Option BookSnapshot := do
  let bids ← fb.snapshotSide .buy
  let asks ← fb.snapshotSide .sell
  some ⟨bids, asks⟩

end FastBook

end MatchingEngine
