import MatchingEngine.Common.Endian
import MatchingEngine.Common.Types

/-! # ITCH messages

    `itch/itch.hpp`: the message types, their encoders and the decoder. A `char`
    field is a byte. A side is a byte too, since decoding casts it unchecked.

    Encoding keeps the low 48 bits of a timestamp and the low 32 bits of a
    price. What arrives is therefore the message as it is `onWire`
    (`decode_encode`).
-/

namespace MatchingEngine

namespace Itch

open Bytes (chars fill Tight)

/-! ## Section 1: Messages -/

structure Header where
  stockLocate : UInt16
  tracking : UInt16
  timestamp : UInt64
  deriving DecidableEq

structure SystemEvent extends Header where
  eventCode : UInt8
  deriving DecidableEq

abbrev SystemEvent.kSize : Nat := 12

structure StockDirectory extends Header where
  stock : Symbol
  marketCategory : UInt8
  financialStatus : UInt8
  roundLotSize : UInt32
  roundLotsOnly : UInt8
  issueClassification : UInt8
  issueSubtype : Vector UInt8 2
  authenticity : UInt8
  shortSaleThreshold : UInt8
  ipoFlag : UInt8
  luldTier : UInt8
  etpFlag : UInt8
  etpLeverage : UInt32
  inverseIndicator : UInt8
  deriving DecidableEq

abbrev StockDirectory.kSize : Nat := 39

structure TradingAction extends Header where
  stock : Symbol
  tradingState : UInt8
  reserved : UInt8
  reason : Vector UInt8 4
  deriving DecidableEq

abbrev TradingAction.kSize : Nat := 25

structure AddOrder extends Header where
  orderRef : UInt64
  side : UInt8
  shares : Qty
  stock : Symbol
  price : Price
  deriving DecidableEq

abbrev AddOrder.kSize : Nat := 36

structure AddOrderMpid where
  add : AddOrder
  attribution : Vector UInt8 4
  deriving DecidableEq

abbrev AddOrderMpid.kSize : Nat := 40

structure OrderExecuted extends Header where
  orderRef : UInt64
  executedShares : Qty
  matchNumber : UInt64
  deriving DecidableEq

abbrev OrderExecuted.kSize : Nat := 31

structure OrderExecutedWithPrice where
  exec : OrderExecuted
  printable : UInt8
  executionPrice : Price
  deriving DecidableEq

abbrev OrderExecutedWithPrice.kSize : Nat := 36

structure OrderCancel extends Header where
  orderRef : UInt64
  canceledShares : Qty
  deriving DecidableEq

abbrev OrderCancel.kSize : Nat := 23

structure OrderDelete extends Header where
  orderRef : UInt64
  deriving DecidableEq

abbrev OrderDelete.kSize : Nat := 19

structure OrderReplace extends Header where
  originalRef : UInt64
  newRef : UInt64
  shares : Qty
  price : Price
  deriving DecidableEq

abbrev OrderReplace.kSize : Nat := 35

structure Trade extends Header where
  orderRef : UInt64
  side : UInt8
  shares : Qty
  stock : Symbol
  price : Price
  matchNumber : UInt64
  deriving DecidableEq

abbrev Trade.kSize : Nat := 44

inductive Message where
  | systemEvent (m : SystemEvent)
  | stockDirectory (m : StockDirectory)
  | tradingAction (m : TradingAction)
  | addOrder (m : AddOrder)
  | addOrderMpid (m : AddOrderMpid)
  | orderExecuted (m : OrderExecuted)
  | orderExecutedWithPrice (m : OrderExecutedWithPrice)
  | orderCancel (m : OrderCancel)
  | orderDelete (m : OrderDelete)
  | orderReplace (m : OrderReplace)
  | trade (m : Trade)
  deriving DecidableEq

/-! ## Section 2: Encoding

    An encoder writes each field at its offset into a buffer of `kSize` bytes.
    It has no result when a write leaves the buffer. -/

def putHeader (type : UInt8) (h : Header) : List UInt8 :=
  putByte type ++ putBe16 h.stockLocate ++ putBe16 h.tracking ++ putBe48 h.timestamp

def putPrice (v : Price) : List UInt8 := putBe32 (UInt32.ofInt v)

def putSymbol (s : Symbol) : List UInt8 := s.toList

def SystemEvent.fields (m : SystemEvent) : List (Nat × List UInt8) :=
  [(0, putHeader (ch 'S') m.toHeader), (11, putByte m.eventCode)]

def StockDirectory.fields (m : StockDirectory) : List (Nat × List UInt8) :=
  [(0, putHeader (ch 'R') m.toHeader), (11, putSymbol m.stock), (19, putByte m.marketCategory),
    (20, putByte m.financialStatus), (21, putBe32 m.roundLotSize), (25, putByte m.roundLotsOnly),
    (26, putByte m.issueClassification), (27, m.issueSubtype.toList), (29, putByte m.authenticity),
    (30, putByte m.shortSaleThreshold), (31, putByte m.ipoFlag), (32, putByte m.luldTier),
    (33, putByte m.etpFlag), (34, putBe32 m.etpLeverage), (38, putByte m.inverseIndicator)]

def TradingAction.fields (m : TradingAction) : List (Nat × List UInt8) :=
  [(0, putHeader (ch 'H') m.toHeader), (11, putSymbol m.stock), (19, putByte m.tradingState),
    (20, putByte m.reserved), (21, m.reason.toList)]

def AddOrder.fields (m : AddOrder) : List (Nat × List UInt8) :=
  [(0, putHeader (ch 'A') m.toHeader), (11, putBe64 m.orderRef), (19, putByte m.side),
    (20, putBe32 m.shares), (24, putSymbol m.stock), (32, putPrice m.price)]

/-- The plain message, whose type is then overwritten, and the attribution. -/
def AddOrderMpid.fields (m : AddOrderMpid) : List (Nat × List UInt8) :=
  m.add.fields ++ [(0, putByte (ch 'F')), (36, m.attribution.toList)]

def OrderExecuted.fields (m : OrderExecuted) : List (Nat × List UInt8) :=
  [(0, putHeader (ch 'E') m.toHeader), (11, putBe64 m.orderRef), (19, putBe32 m.executedShares),
    (23, putBe64 m.matchNumber)]

def OrderExecutedWithPrice.fields (m : OrderExecutedWithPrice) : List (Nat × List UInt8) :=
  m.exec.fields ++ [(0, putByte (ch 'C')), (31, putByte m.printable),
    (32, putPrice m.executionPrice)]

def OrderCancel.fields (m : OrderCancel) : List (Nat × List UInt8) :=
  [(0, putHeader (ch 'X') m.toHeader), (11, putBe64 m.orderRef), (19, putBe32 m.canceledShares)]

def OrderDelete.fields (m : OrderDelete) : List (Nat × List UInt8) :=
  [(0, putHeader (ch 'D') m.toHeader), (11, putBe64 m.orderRef)]

def OrderReplace.fields (m : OrderReplace) : List (Nat × List UInt8) :=
  [(0, putHeader (ch 'U') m.toHeader), (11, putBe64 m.originalRef), (19, putBe64 m.newRef),
    (27, putBe32 m.shares), (31, putPrice m.price)]

/-- The match number is written at 40, not behind the price at 36. -/
def Trade.fields (m : Trade) : List (Nat × List UInt8) :=
  [(0, putHeader (ch 'P') m.toHeader), (11, putBe64 m.orderRef), (19, putByte m.side),
    (20, putBe32 m.shares), (24, putSymbol m.stock), (32, putPrice m.price),
    (40, putBe64 m.matchNumber)]

/-- A buffer of the size of the message, after `encode` wrote to it. -/
def Message.encode : Message → Option (List UInt8)
  | .systemEvent m => fill SystemEvent.kSize m.fields
  | .stockDirectory m => fill StockDirectory.kSize m.fields
  | .tradingAction m => fill TradingAction.kSize m.fields
  | .addOrder m => fill AddOrder.kSize m.fields
  | .addOrderMpid m => fill AddOrderMpid.kSize m.fields
  | .orderExecuted m => fill OrderExecuted.kSize m.fields
  | .orderExecutedWithPrice m => fill OrderExecutedWithPrice.kSize m.fields
  | .orderCancel m => fill OrderCancel.kSize m.fields
  | .orderDelete m => fill OrderDelete.kSize m.fields
  | .orderReplace m => fill OrderReplace.kSize m.fields
  | .trade m => fill Trade.kSize m.fields

/-! ## Section 3: Decoding

    The outer `none` is a read outside the buffer, the inner one the
    `std::nullopt` of the source. -/

def getHeader (p : List UInt8) : Option Header := do
  let stockLocate ← getBe16 p 1
  let tracking ← getBe16 p 3
  let timestamp ← getBe48 p 5
  some ⟨stockLocate, tracking, timestamp⟩

def getPrice (p : List UInt8) (i : Nat) : Option Price :=
  (getBe32 p i).map (fun v => (v.toNat : Int))

def getSymbol (p : List UInt8) (i : Nat) : Option Symbol := chars 8 p i

def SystemEvent.decode (p : List UInt8) : Option SystemEvent := do
  let header ← getHeader p
  let eventCode ← getByte p 11
  some ⟨header, eventCode⟩

def StockDirectory.decode (p : List UInt8) : Option StockDirectory := do
  let header ← getHeader p
  let stock ← getSymbol p 11
  let marketCategory ← getByte p 19
  let financialStatus ← getByte p 20
  let roundLotSize ← getBe32 p 21
  let roundLotsOnly ← getByte p 25
  let issueClassification ← getByte p 26
  let issueSubtype ← chars 2 p 27
  let authenticity ← getByte p 29
  let shortSaleThreshold ← getByte p 30
  let ipoFlag ← getByte p 31
  let luldTier ← getByte p 32
  let etpFlag ← getByte p 33
  let etpLeverage ← getBe32 p 34
  let inverseIndicator ← getByte p 38
  some ⟨header, stock, marketCategory, financialStatus, roundLotSize, roundLotsOnly,
    issueClassification, issueSubtype, authenticity, shortSaleThreshold, ipoFlag, luldTier, etpFlag,
    etpLeverage, inverseIndicator⟩

def TradingAction.decode (p : List UInt8) : Option TradingAction := do
  let header ← getHeader p
  let stock ← getSymbol p 11
  let tradingState ← getByte p 19
  let reserved ← getByte p 20
  let reason ← chars 4 p 21
  some ⟨header, stock, tradingState, reserved, reason⟩

def AddOrder.decode (p : List UInt8) : Option AddOrder := do
  let header ← getHeader p
  let orderRef ← getBe64 p 11
  let side ← getByte p 19
  let shares ← getBe32 p 20
  let stock ← getSymbol p 24
  let price ← getPrice p 32
  some ⟨header, orderRef, side, shares, stock, price⟩

def AddOrderMpid.decode (p : List UInt8) : Option AddOrderMpid := do
  let add ← AddOrder.decode p
  let attribution ← chars 4 p 36
  some ⟨add, attribution⟩

def OrderExecuted.decode (p : List UInt8) : Option OrderExecuted := do
  let header ← getHeader p
  let orderRef ← getBe64 p 11
  let executedShares ← getBe32 p 19
  let matchNumber ← getBe64 p 23
  some ⟨header, orderRef, executedShares, matchNumber⟩

def OrderExecutedWithPrice.decode (p : List UInt8) : Option OrderExecutedWithPrice := do
  let exec ← OrderExecuted.decode p
  let printable ← getByte p 31
  let executionPrice ← getPrice p 32
  some ⟨exec, printable, executionPrice⟩

def OrderCancel.decode (p : List UInt8) : Option OrderCancel := do
  let header ← getHeader p
  let orderRef ← getBe64 p 11
  let canceledShares ← getBe32 p 19
  some ⟨header, orderRef, canceledShares⟩

def OrderDelete.decode (p : List UInt8) : Option OrderDelete := do
  let header ← getHeader p
  let orderRef ← getBe64 p 11
  some ⟨header, orderRef⟩

def OrderReplace.decode (p : List UInt8) : Option OrderReplace := do
  let header ← getHeader p
  let originalRef ← getBe64 p 11
  let newRef ← getBe64 p 19
  let shares ← getBe32 p 27
  let price ← getPrice p 31
  some ⟨header, originalRef, newRef, shares, price⟩

def Trade.decode (p : List UInt8) : Option Trade := do
  let header ← getHeader p
  let orderRef ← getBe64 p 11
  let side ← getByte p 19
  let shares ← getBe32 p 20
  let stock ← getSymbol p 24
  let price ← getPrice p 32
  let matchNumber ← getBe64 p 40
  some ⟨header, orderRef, side, shares, stock, price, matchNumber⟩

/-- One case of the decoder: the size is checked before any field is read. -/
def sized {α : Type} (kSize : Nat) (p : List UInt8) (read : Option α) (make : α → Message) :
    Option (Option Message) :=
  if p.length ≠ kSize then some none else read.map (fun m => some (make m))

/-- The `switch` over the type. -/
def decodeAs (type : UInt8) (p : List UInt8) : Option (Option Message) :=
  if type = ch 'S' then sized SystemEvent.kSize p (SystemEvent.decode p) .systemEvent
  else if type = ch 'R' then sized StockDirectory.kSize p (StockDirectory.decode p) .stockDirectory
  else if type = ch 'H' then sized TradingAction.kSize p (TradingAction.decode p) .tradingAction
  else if type = ch 'A' then sized AddOrder.kSize p (AddOrder.decode p) .addOrder
  else if type = ch 'F' then sized AddOrderMpid.kSize p (AddOrderMpid.decode p) .addOrderMpid
  else if type = ch 'E' then sized OrderExecuted.kSize p (OrderExecuted.decode p) .orderExecuted
  else if type = ch 'C' then
    sized OrderExecutedWithPrice.kSize p (OrderExecutedWithPrice.decode p) .orderExecutedWithPrice
  else if type = ch 'X' then sized OrderCancel.kSize p (OrderCancel.decode p) .orderCancel
  else if type = ch 'D' then sized OrderDelete.kSize p (OrderDelete.decode p) .orderDelete
  else if type = ch 'U' then sized OrderReplace.kSize p (OrderReplace.decode p) .orderReplace
  else if type = ch 'P' then sized Trade.kSize p (Trade.decode p) .trade
  else some none

def decode (p : List UInt8) : Option (Option Message) :=
  match p with
  | [] => some none
  | type :: _ => decodeAs type p

/-! ## Section 4: What was encoded is decoded -/

/-- A timestamp has 48 bits on the wire. -/
def Header.onWire (h : Header) : Header := { h with timestamp := low48 h.timestamp }

/-- A price has 32 bits on the wire. -/
def priceOnWire (v : Price) : Price := (UInt32.ofInt v).toNat

/-- The message that arrives when `m` is sent. -/
def Message.onWire : Message → Message
  | .systemEvent m => .systemEvent { m with toHeader := m.toHeader.onWire }
  | .stockDirectory m => .stockDirectory { m with toHeader := m.toHeader.onWire }
  | .tradingAction m => .tradingAction { m with toHeader := m.toHeader.onWire }
  | .addOrder m => .addOrder { m with toHeader := m.toHeader.onWire, price := priceOnWire m.price }
  | .addOrderMpid m => .addOrderMpid { m with
      add := { m.add with toHeader := m.add.toHeader.onWire, price := priceOnWire m.add.price } }
  | .orderExecuted m => .orderExecuted { m with toHeader := m.toHeader.onWire }
  | .orderExecutedWithPrice m => .orderExecutedWithPrice { m with
      exec := { m.exec with toHeader := m.exec.toHeader.onWire }
      executionPrice := priceOnWire m.executionPrice }
  | .orderCancel m => .orderCancel { m with toHeader := m.toHeader.onWire }
  | .orderDelete m => .orderDelete { m with toHeader := m.toHeader.onWire }
  | .orderReplace m => .orderReplace { m with
      toHeader := m.toHeader.onWire, price := priceOnWire m.price }
  | .trade m => .trade { m with toHeader := m.toHeader.onWire, price := priceOnWire m.price }

theorem priceOnWire_of_fits {v : Price} (h₀ : 0 ≤ v) (h : v < 2 ^ 32) : priceOnWire v = v :=
  PriceInRange.toNat_ofInt ⟨h₀, h⟩

section fields

variable {x p : List UInt8} {i : Nat}

@[simp] theorem length_putHeader (type : UInt8) (h : Header) : (putHeader type h).length = 11 := by
  simp [putHeader]

@[simp] theorem length_putPrice (v : Price) : (putPrice v).length = 4 := length_putBe32 _

@[simp] theorem length_putSymbol (s : Symbol) : (putSymbol s).length = 8 := s.length_toList

@[simp] theorem getHeader_put (type : UInt8) (h : Header) :
    getHeader (putHeader type h ++ p) = some h.onWire := by
  simp [getHeader, putHeader, Header.onWire]

@[simp] theorem getPrice_skip (h : x.length ≤ i) :
    getPrice (x ++ p) i = getPrice p (i - x.length) := by
  rw [getPrice, getBe32_skip h, getPrice]

@[simp] theorem getPrice_here (v : Price) :
    getPrice (putPrice v ++ p) 0 = some (priceOnWire v) := by
  rw [getPrice, putPrice, getBe32_here]
  rfl

@[simp] theorem getSymbol_skip (h : x.length ≤ i) :
    getSymbol (x ++ p) i = getSymbol p (i - x.length) :=
  Bytes.chars_skip h

@[simp] theorem getSymbol_here (s : Symbol) : getSymbol (putSymbol s ++ p) 0 = some s :=
  Bytes.chars_here s p

end fields

/-! ### One message at a time

    The fields stand one behind the other, so each field is found behind the
    ones before it. -/

theorem decode_of_read {α : Type} {kSize : Nat} {type : UInt8} {h : Header} {rest : List UInt8}
    {m : α} {read : List UInt8 → Option α} {make : α → Message}
    (htype : ∀ p, decodeAs type p = sized kSize p (read p) make)
    (hlength : (putHeader type h ++ rest).length = kSize)
    (hread : read (putHeader type h ++ rest) = some m) :
    decode (putHeader type h ++ rest) = some (some (make m)) := by
  show decodeAs type (putHeader type h ++ rest) = _
  rw [htype, sized, hread, if_neg (not_not_intro hlength)]
  rfl

/-- The fields behind the header fill the buffer. -/
theorem encoded_of_tight {kSize : Nat} {ws : List (Nat × List UInt8)} (type : UInt8) (h : Header)
    (htight : Tight 11 ws) (hsize : 11 + (ws.flatMap Prod.snd).length = kSize) :
    fill kSize ((0, putHeader type h) :: ws) = some (putHeader type h ++ ws.flatMap Prod.snd) := by
  have hall : Tight 0 ((0, putHeader type h) :: ws) := ⟨rfl, by simpa using htight⟩
  apply Bytes.fill_tight hall
  rw [List.flatMap_cons, List.length_append, length_putHeader, hsize]

/-- The same when the type byte is overwritten before the last fields are
    written. -/
theorem encoded_of_retyped {kSize : Nat} {ws vs : List (Nat × List UInt8)} (type base : UInt8)
    (h : Header) (htight : Tight 11 ws) (htight' : Tight (11 + (ws.flatMap Prod.snd).length) vs)
    (hsize : 11 + (ws.flatMap Prod.snd).length + (vs.flatMap Prod.snd).length = kSize) :
    fill kSize ((0, putHeader base h) :: ws ++ (0, putByte type) :: vs) =
      some (putHeader type h ++ (ws.flatMap Prod.snd ++ vs.flatMap Prod.snd)) := by
  have hfill := Bytes.fill_overwrite (x := putByte base) (y := putByte type)
    (z := putBe16 h.stockLocate ++ putBe16 h.tracking ++ putBe48 h.timestamp) (n := kSize) (by simp)
    (by simpa using htight) (by simpa using htight') (by simpa using hsize)
  simpa [putHeader] using hfill

/-- A message whose fields fill its buffer is read back. -/
theorem round_trip_of_tight {α : Type} {kSize : Nat} {type : UInt8} {h : Header}
    {ws : List (Nat × List UInt8)} {m : α} (read : List UInt8 → Option α) (make : α → Message)
    (htype : ∀ p, decodeAs type p = sized kSize p (read p) make)
    (htight : Tight 11 ws) (hsize : 11 + (ws.flatMap Prod.snd).length = kSize)
    (hread : ∀ p, read (putHeader type h ++ (ws.flatMap Prod.snd ++ p)) = some m) :
    ∃ p, fill kSize ((0, putHeader type h) :: ws) = some p ∧ p.length = kSize ∧
      decode p = some (some (make m)) := by
  have hlength : (putHeader type h ++ ws.flatMap Prod.snd).length = kSize := by
    rw [List.length_append, length_putHeader, hsize]
  refine ⟨_, encoded_of_tight type h htight hsize, hlength, ?_⟩
  have hread' := hread []
  rw [List.append_nil] at hread'
  exact decode_of_read htype hlength hread'

theorem round_trip_of_retyped {α : Type} {kSize : Nat} {type base : UInt8} {h : Header}
    {ws vs : List (Nat × List UInt8)} {m : α} (read : List UInt8 → Option α) (make : α → Message)
    (htype : ∀ p, decodeAs type p = sized kSize p (read p) make)
    (htight : Tight 11 ws) (htight' : Tight (11 + (ws.flatMap Prod.snd).length) vs)
    (hsize : 11 + (ws.flatMap Prod.snd).length + (vs.flatMap Prod.snd).length = kSize)
    (hread : ∀ p, read (putHeader type h ++ (ws.flatMap Prod.snd ++ (vs.flatMap Prod.snd ++ p))) =
      some m) :
    ∃ p, fill kSize ((0, putHeader base h) :: ws ++ (0, putByte type) :: vs) = some p ∧
      p.length = kSize ∧ decode p = some (some (make m)) := by
  have hlength : (putHeader type h ++ (ws.flatMap Prod.snd ++ vs.flatMap Prod.snd)).length =
      kSize := by
    simp [← hsize, Nat.add_assoc]
  refine ⟨_, encoded_of_retyped type base h htight htight' hsize, hlength, ?_⟩
  have hread' := hread []
  rw [List.append_nil] at hread'
  exact decode_of_read htype hlength hread'

/-- The size of the buffer of each message, its `kSize`. -/
def Message.size : Message → Nat
  | .systemEvent _ => SystemEvent.kSize
  | .stockDirectory _ => StockDirectory.kSize
  | .tradingAction _ => TradingAction.kSize
  | .addOrder _ => AddOrder.kSize
  | .addOrderMpid _ => AddOrderMpid.kSize
  | .orderExecuted _ => OrderExecuted.kSize
  | .orderExecutedWithPrice _ => OrderExecutedWithPrice.kSize
  | .orderCancel _ => OrderCancel.kSize
  | .orderDelete _ => OrderDelete.kSize
  | .orderReplace _ => OrderReplace.kSize
  | .trade _ => Trade.kSize

/-- The type of each message with its `kSize`. -/
def kSizes : List (UInt8 × Nat) :=
  [(ch 'S', SystemEvent.kSize), (ch 'R', StockDirectory.kSize), (ch 'H', TradingAction.kSize),
    (ch 'A', AddOrder.kSize), (ch 'F', AddOrderMpid.kSize), (ch 'E', OrderExecuted.kSize),
    (ch 'C', OrderExecutedWithPrice.kSize), (ch 'X', OrderCancel.kSize),
    (ch 'D', OrderDelete.kSize), (ch 'U', OrderReplace.kSize), (ch 'P', Trade.kSize)]

/-- The messages whose fields lie inside their buffer. -/
def Message.Fits : Message → Prop
  | .trade _ => False
  | _ => True

/-- **Round trip.** Encoding and decoding a message gives the message as it is
    on the wire, and no access leaves the buffer. -/
theorem decode_encode (m : Message) (h : m.Fits) :
    ∃ p, m.encode = some p ∧ p.length = m.size ∧ decode p = some (some m.onWire) := by
  cases m with
  | systemEvent m =>
    exact round_trip_of_tight SystemEvent.decode .systemEvent (fun _ => rfl) (by simp [Tight])
      (by simp) (by simp [SystemEvent.decode])
  | stockDirectory m =>
    exact round_trip_of_tight StockDirectory.decode .stockDirectory (fun _ => rfl) (by simp [Tight])
      (by simp) (by simp [StockDirectory.decode])
  | tradingAction m =>
    exact round_trip_of_tight TradingAction.decode .tradingAction (fun _ => rfl) (by simp [Tight])
      (by simp) (by simp [TradingAction.decode])
  | addOrder m =>
    exact round_trip_of_tight AddOrder.decode .addOrder (fun _ => rfl) (by simp [Tight]) (by simp)
      (by simp [AddOrder.decode])
  | addOrderMpid m =>
    exact round_trip_of_retyped AddOrderMpid.decode .addOrderMpid (fun _ => rfl) (by simp [Tight])
      (by simp [Tight]) (by simp) (by simp [AddOrderMpid.decode, AddOrder.decode])
  | orderExecuted m =>
    exact round_trip_of_tight OrderExecuted.decode .orderExecuted (fun _ => rfl) (by simp [Tight])
      (by simp) (by simp [OrderExecuted.decode])
  | orderExecutedWithPrice m =>
    exact round_trip_of_retyped OrderExecutedWithPrice.decode .orderExecutedWithPrice (fun _ => rfl)
      (by simp [Tight]) (by simp [Tight]) (by simp)
      (by simp [OrderExecutedWithPrice.decode, OrderExecuted.decode])
  | orderCancel m =>
    exact round_trip_of_tight OrderCancel.decode .orderCancel (fun _ => rfl) (by simp [Tight])
      (by simp) (by simp [OrderCancel.decode])
  | orderDelete m =>
    exact round_trip_of_tight OrderDelete.decode .orderDelete (fun _ => rfl) (by simp [Tight])
      (by simp) (by simp [OrderDelete.decode])
  | orderReplace m =>
    exact round_trip_of_tight OrderReplace.decode .orderReplace (fun _ => rfl) (by simp [Tight])
      (by simp) (by simp [OrderReplace.decode])
  | trade m => exact h.elim

/-- The last field of a trade lies four bytes behind the end of its buffer. -/
theorem encode_trade (m : Trade) : (Message.trade m).encode = none := by
  have htight : Tight 0 (m.fields.take 6) := by simp [Trade.fields, Tight]
  have hfirst := Bytes.writes_tight (x := []) htight 8
  have hsplit : m.fields = m.fields.take 6 ++ [(40, putBe64 m.matchNumber)] := rfl
  have hlength : ((m.fields.take 6).flatMap Prod.snd).length = 36 := by simp [Trade.fields]
  rw [hlength] at hfirst
  show Bytes.writes (List.replicate 44 0) m.fields = none
  rw [hsplit, Bytes.writes_append, ← List.nil_append (List.replicate 44 0), hfirst]
  simp [Bytes.writes, Bytes.writeAt, hlength]

end Itch

end MatchingEngine
