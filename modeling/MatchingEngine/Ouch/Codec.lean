import MatchingEngine.Common.Endian
import MatchingEngine.Ouch.Messages

/-! # OUCH on the wire

    The decoders of `ouch/ouch.hpp` for what clients send, and the encoders for
    what the exchange sends.

    * A decoder has no result on a message of the wrong size or type, and none
      when a read leaves the buffer. The second never happens: every message of the
      right size and type is read (`enterOrder_exact` and its companions in
      `Ouch.Wire`).
    * An encoder writes each field at its offset into a buffer of the size of the
      message. It has no result when a write leaves the buffer, which never
      happens either (`encode_response`).
-/

namespace MatchingEngine

namespace Ouch

open Bytes (chars fill Tight)

/-! ## Section 1: Decoding what clients send -/

def kEnterOrderSize : Nat := 49
def kCancelOrderSize : Nat := 19
def kReplaceOrderSize : Nat := 47

def getPrice (p : List UInt8) (i : Nat) : Option Price :=
  (getBe32 p i).map (fun v => (v.toNat : Int))

def EnterOrder.read (p : List UInt8) : Option EnterOrder := do
  let token ← chars 14 p 1
  let side ← getByte p 15
  let shares ← getBe32 p 16
  let stock ← chars 8 p 20
  let price ← getPrice p 28
  let tif ← getBe32 p 32
  let firm ← chars 4 p 36
  let display ← getByte p 40
  let capacity ← getByte p 41
  let intermarketSweep ← getByte p 42
  let minQty ← getBe32 p 43
  let crossType ← getByte p 47
  let customerType ← getByte p 48
  some ⟨token, side, shares, stock, price, tif, firm, display, capacity, intermarketSweep, minQty,
    crossType, customerType⟩

def CancelOrder.read (p : List UInt8) : Option CancelOrder := do
  let token ← chars 14 p 1
  let shares ← getBe32 p 15
  some ⟨token, shares⟩

def ReplaceOrder.read (p : List UInt8) : Option ReplaceOrder := do
  let existingToken ← chars 14 p 1
  let replacementToken ← chars 14 p 15
  let shares ← getBe32 p 29
  let price ← getPrice p 33
  let tif ← getBe32 p 37
  let display ← getByte p 41
  let intermarketSweep ← getByte p 42
  let minQty ← getBe32 p 43
  some ⟨existingToken, replacementToken, shares, price, tif, display, intermarketSweep, minQty⟩

/-- The size and the type are checked before any field is read. -/
def decodeAs {α : Type} (kSize : Nat) (type : UInt8) (read : List UInt8 → Option α)
    (p : List UInt8) : Option α :=
  if p.length ≠ kSize ∨ p[0]? ≠ some type then none else read p

def decodeEnterOrder : List UInt8 → Option EnterOrder :=
  decodeAs kEnterOrderSize (ch 'O') EnterOrder.read

def decodeCancelOrder : List UInt8 → Option CancelOrder :=
  decodeAs kCancelOrderSize (ch 'X') CancelOrder.read

def decodeReplaceOrder : List UInt8 → Option ReplaceOrder :=
  decodeAs kReplaceOrderSize (ch 'U') ReplaceOrder.read

/-! ## Section 2: Encoding what the exchange sends

    The records of `Wire` have the types of the source: 64-bit numbers, and a byte
    for a side. The engine counts orders, matches and nanoseconds with natural
    numbers (`toWire`). -/

def putPrice (v : Price) : List UInt8 := putBe32 (UInt32.ofInt v)

@[simp] theorem length_putPrice (v : Price) : (putPrice v).length = 4 := length_putBe32 _

namespace Wire

structure SystemEvent where
  timestamp : UInt64
  eventCode : UInt8
  deriving DecidableEq, Repr

structure Accepted where
  timestamp : UInt64
  token : Token
  side : UInt8
  shares : Qty
  stock : Symbol
  price : Price
  tif : UInt32
  firm : Firm
  display : UInt8
  orderRef : UInt64
  capacity : UInt8
  intermarketSweep : UInt8
  minQty : Qty
  crossType : UInt8
  orderState : UInt8
  bboWeightIndicator : UInt8
  deriving DecidableEq, Repr

structure Replaced where
  timestamp : UInt64
  replacementToken : Token
  side : UInt8
  shares : Qty
  stock : Symbol
  price : Price
  tif : UInt32
  firm : Firm
  display : UInt8
  orderRef : UInt64
  capacity : UInt8
  intermarketSweep : UInt8
  minQty : Qty
  crossType : UInt8
  orderState : UInt8
  bboWeightIndicator : UInt8
  previousToken : Token
  deriving DecidableEq, Repr

structure Executed where
  timestamp : UInt64
  token : Token
  executedShares : Qty
  executionPrice : Price
  liquidityFlag : UInt8
  matchNumber : UInt64
  deriving DecidableEq, Repr

structure Canceled where
  timestamp : UInt64
  token : Token
  decrementShares : Qty
  reason : UInt8
  deriving DecidableEq, Repr

structure Rejected where
  timestamp : UInt64
  token : Token
  reason : UInt8
  deriving DecidableEq, Repr

def kSystemEventSize : Nat := 10
def kAcceptedSize : Nat := 66
def kReplacedSize : Nat := 80
def kExecutedSize : Nat := 40
def kCanceledSize : Nat := 28
def kRejectedSize : Nat := 24

def SystemEvent.fields (m : SystemEvent) : List (Nat × List UInt8) :=
  [(0, putByte (ch 'S')), (1, putBe64 m.timestamp), (9, putByte m.eventCode)]

/-- The fields that Accepted and Replaced share. -/
def putAcceptedBody (m : Accepted) : List (Nat × List UInt8) :=
  [(1, putBe64 m.timestamp), (9, m.token.toList), (23, putByte m.side), (24, putBe32 m.shares),
    (28, m.stock.toList), (36, putPrice m.price), (40, putBe32 m.tif), (44, m.firm.toList),
    (48, putByte m.display), (49, putBe64 m.orderRef), (57, putByte m.capacity),
    (58, putByte m.intermarketSweep), (59, putBe32 m.minQty), (63, putByte m.crossType),
    (64, putByte m.orderState), (65, putByte m.bboWeightIndicator)]

def Accepted.fields (m : Accepted) : List (Nat × List UInt8) :=
  (0, putByte (ch 'A')) :: putAcceptedBody m

/-- The positional copy into the shared body. -/
def Replaced.body (m : Replaced) : Accepted :=
  ⟨m.timestamp, m.replacementToken, m.side, m.shares, m.stock, m.price, m.tif, m.firm, m.display,
    m.orderRef, m.capacity, m.intermarketSweep, m.minQty, m.crossType, m.orderState,
    m.bboWeightIndicator⟩

def Replaced.fields (m : Replaced) : List (Nat × List UInt8) :=
  (0, putByte (ch 'U')) :: putAcceptedBody m.body ++ [(66, m.previousToken.toList)]

def Executed.fields (m : Executed) : List (Nat × List UInt8) :=
  [(0, putByte (ch 'E')), (1, putBe64 m.timestamp), (9, m.token.toList),
    (23, putBe32 m.executedShares), (27, putPrice m.executionPrice), (31, putByte m.liquidityFlag),
      (32, putBe64 m.matchNumber)]

def Canceled.fields (m : Canceled) : List (Nat × List UInt8) :=
  [(0, putByte (ch 'C')), (1, putBe64 m.timestamp), (9, m.token.toList),
    (23, putBe32 m.decrementShares), (27, putByte m.reason)]

def Rejected.fields (m : Rejected) : List (Nat × List UInt8) :=
  [(0, putByte (ch 'J')), (1, putBe64 m.timestamp), (9, m.token.toList), (23, putByte m.reason)]

def SystemEvent.encode (m : SystemEvent) : Option (List UInt8) := fill kSystemEventSize m.fields

def Accepted.encode (m : Accepted) : Option (List UInt8) := fill kAcceptedSize m.fields

def Replaced.encode (m : Replaced) : Option (List UInt8) := fill kReplacedSize m.fields

def Executed.encode (m : Executed) : Option (List UInt8) := fill kExecutedSize m.fields

def Canceled.encode (m : Canceled) : Option (List UInt8) := fill kCanceledSize m.fields

def Rejected.encode (m : Rejected) : Option (List UInt8) := fill kRejectedSize m.fields

end Wire

def Accepted.toWire (m : Accepted) : Wire.Accepted :=
  ⟨UInt64.ofNat m.timestamp, m.token, m.side.toByte, m.shares, m.stock, m.price, m.tif, m.firm,
    m.display, UInt64.ofNat m.orderRef, m.capacity, m.intermarketSweep, m.minQty, m.crossType,
    m.orderState, m.bboWeightIndicator⟩

def Replaced.toWire (m : Replaced) : Wire.Replaced :=
  ⟨UInt64.ofNat m.timestamp, m.replacementToken, m.side.toByte, m.shares, m.stock, m.price, m.tif,
    m.firm, m.display, UInt64.ofNat m.orderRef, m.capacity, m.intermarketSweep, m.minQty,
    m.crossType, m.orderState, m.bboWeightIndicator, m.previousToken⟩

def Executed.toWire (m : Executed) : Wire.Executed :=
  ⟨UInt64.ofNat m.timestamp, m.token, m.executedShares, m.executionPrice, m.liquidityFlag,
    UInt64.ofNat m.matchNumber⟩

def Canceled.toWire (m : Canceled) : Wire.Canceled :=
  ⟨UInt64.ofNat m.timestamp, m.token, m.decrementShares, m.reason⟩

def Rejected.toWire (m : Rejected) : Wire.Rejected :=
  ⟨UInt64.ofNat m.timestamp, m.token, m.reason⟩

/-- The sizes of the messages. -/
def Response.encodedSize : Response → Nat
  | .accepted _ => Wire.kAcceptedSize
  | .executed _ => Wire.kExecutedSize
  | .canceled _ => Wire.kCanceledSize
  | .replaced _ => Wire.kReplacedSize
  | .rejected _ => Wire.kRejectedSize

/-- `encode_ouch`. -/
def Response.encode : Response → Option (List UInt8)
  | .accepted m => m.toWire.encode
  | .executed m => m.toWire.encode
  | .canceled m => m.toWire.encode
  | .replaced m => m.toWire.encode
  | .rejected m => m.toWire.encode

/-- No write leaves the buffer, and the fields fill it. -/
theorem encode_response (r : Response) :
    ∃ bytes, r.encode = some bytes ∧ bytes.length = r.encodedSize := by
  have hfill : ∀ {n : Nat} {fields : List (Nat × List UInt8)}, Tight 0 fields →
      (fields.flatMap Prod.snd).length = n → ∃ bytes, fill n fields = some bytes ∧
        bytes.length = n :=
    fun htight hlength => ⟨_, Bytes.fill_tight htight hlength, hlength⟩
  cases r <;> apply hfill <;>
    simp [Wire.Accepted.fields, Wire.Replaced.fields, Wire.Executed.fields, Wire.Canceled.fields,
      Wire.Rejected.fields, Wire.putAcceptedBody, Wire.kAcceptedSize, Wire.kReplacedSize,
      Wire.kExecutedSize, Wire.kCanceledSize, Wire.kRejectedSize, Tight]

end Ouch

end MatchingEngine
