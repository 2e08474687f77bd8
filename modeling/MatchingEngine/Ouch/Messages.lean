import MatchingEngine.Common.Types
import Mathlib.Data.List.DropRight

/-! # OUCH messages

    The messages of `ouch/ouch.hpp` that the engine receives and sends. A `char`
    field is a byte. The side of an incoming order is any byte too, since
    decoding casts it unchecked.
-/

namespace MatchingEngine

namespace Ouch

/-- Fourteen characters, right-padded with spaces. -/
abbrev Token := Vector UInt8 14

abbrev Firm := Vector UInt8 4

/-- Immediate or cancel. -/
def kTifIOC : UInt32 := 0

/-- The price that stands for a market order. -/
def kMarketPrice : Price := 0x7FFFFFFF

/-- The first characters, padded with spaces. -/
def makeToken (sv : List UInt8) : Token := Vector.ofFn (fun i => sv.getD i (ch ' '))

/-- The token without its padding. -/
def tokenView (t : Token) : List UInt8 := t.toList.rdropWhile (fun c => c = ch ' ')

/-- All tokens have the same length, so their padding is known. -/
theorem tokenView_injective : Function.Injective tokenView := by
  have hpadded : ∀ t : Token, t.toList =
      tokenView t ++ List.replicate (14 - (tokenView t).length) (ch ' ') := by
    intro t
    have hsplit : tokenView t ++ t.toList.rtakeWhile (fun c => c = ch ' ') = t.toList :=
      List.rdropWhile_append_rtakeWhile
    have hlength := congrArg List.length hsplit
    rw [List.length_append, Vector.length_toList] at hlength
    have hpadding : t.toList.rtakeWhile (fun c => c = ch ' ') =
        List.replicate (14 - (tokenView t).length) (ch ' ') := by
      refine List.eq_replicate_iff.mpr ⟨by omega, fun c hc => ?_⟩
      simpa using List.mem_rtakeWhile_imp hc
    rw [← hpadding, hsplit]
  intro t t' h
  apply Vector.toList_inj.mp
  rw [hpadded t, hpadded t', h]

/-! ### Inbound -/

structure EnterOrder where
  token : Token
  side : UInt8
  shares : Qty
  stock : Symbol
  price : Price
  tif : UInt32
  firm : Firm
  display : UInt8
  capacity : UInt8
  intermarketSweep : UInt8
  minQty : Qty
  crossType : UInt8
  customerType : UInt8
  deriving DecidableEq, Repr, Inhabited

structure CancelOrder where
  token : Token
  /-- The shares that stay open; 0 cancels the order. -/
  shares : Qty
  deriving DecidableEq, Repr

structure ReplaceOrder where
  existingToken : Token
  replacementToken : Token
  shares : Qty
  price : Price
  tif : UInt32
  display : UInt8
  intermarketSweep : UInt8
  minQty : Qty
  deriving DecidableEq, Repr

/-! ### Outbound -/

structure Accepted where
  timestamp : Nat
  token : Token
  side : Side
  shares : Qty
  stock : Symbol
  price : Price
  tif : UInt32
  firm : Firm
  display : UInt8
  orderRef : OrderId
  capacity : UInt8
  intermarketSweep : UInt8
  minQty : Qty
  crossType : UInt8
  orderState : UInt8
  bboWeightIndicator : UInt8 := 0
  deriving DecidableEq, Repr

structure Replaced where
  timestamp : Nat
  replacementToken : Token
  side : Side
  shares : Qty
  stock : Symbol
  price : Price
  tif : UInt32
  firm : Firm := Vector.replicate 4 0
  display : UInt8
  orderRef : OrderId
  capacity : UInt8 := 0
  intermarketSweep : UInt8
  minQty : Qty
  crossType : UInt8 := 0
  orderState : UInt8
  bboWeightIndicator : UInt8 := 0
  previousToken : Token
  deriving DecidableEq, Repr

structure Executed where
  timestamp : Nat
  token : Token
  executedShares : Qty
  executionPrice : Price
  liquidityFlag : UInt8
  matchNumber : Nat
  deriving DecidableEq, Repr

structure Canceled where
  timestamp : Nat
  token : Token
  decrementShares : Qty
  reason : UInt8
  deriving DecidableEq, Repr

structure Rejected where
  timestamp : Nat
  token : Token
  reason : UInt8
  deriving DecidableEq, Repr

/-- What the engine sends to a client. -/
inductive Response where
  | accepted (m : Accepted)
  | executed (m : Executed)
  | canceled (m : Canceled)
  | replaced (m : Replaced)
  | rejected (m : Rejected)
  deriving DecidableEq, Repr

end Ouch

end MatchingEngine
