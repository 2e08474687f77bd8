import Mathlib.Order.RelClasses
import Mathlib.Order.Defs.LinearOrder
import Mathlib.Data.Int.Order.Basic

/-! # Domain types

    The types shared by the books, the engine and the protocol codecs
    (`common/types.hpp`, and the event and snapshot types of
    `book/order_book.hpp`).

    * A price is a fixed-point integer. It is modelled by `Int`: signed
      overflow is undefined in the source and every statement is about
      prices whose arithmetic stays in range.
    * A quantity is `UInt32`, wrapping as the source's `Qty` does.
    * Order references, match numbers and other 64-bit counters are `Nat`.
-/

namespace MatchingEngine

/-- Dollars times 10000. -/
abbrev Price := Int

/-- Shares. -/
abbrev Qty := UInt32

/-- Order reference. -/
abbrev OrderId := Nat

/-- A `char` of the source. -/
def ch (c : Char) : UInt8 := c.toNat.toUInt8

/-- The characters of a string literal. -/
def text (s : String) : List UInt8 := s.toList.map ch

/-- `std::to_string` of a number. -/
def toDecimal (n : Nat) : List UInt8 := (Nat.toDigits 10 n).map ch

/-- Eight characters, right-padded with spaces. -/
abbrev Symbol := Vector UInt8 8

/-- The first characters, padded with spaces. -/
def makeSymbol (sv : List UInt8) : Symbol := Vector.ofFn (fun i => sv.getD i (ch ' '))

/-! ### Sides -/

inductive Side where
  | buy
  | sell
  deriving DecidableEq, Repr

namespace Side

/-- The side an order of side `s` trades against. -/
def opposite : Side → Side
  | .buy => .sell
  | .sell => .buy

/-- The character of the side on the wire: `'B'` or `'S'`. -/
def toByte : Side → UInt8
  | .buy => 66
  | .sell => 83

/-- The side a wire character denotes. A wire field can hold any character. -/
def ofByte (c : UInt8) : Option Side :=
  if c = 66 then some .buy else if c = 83 then some .sell else none

@[simp] theorem opposite_opposite (s : Side) : s.opposite.opposite = s := by
  cases s <;> rfl

theorem opposite_ne (s : Side) : s.opposite ≠ s := by
  cases s <;> decide

theorem ne_opposite (s : Side) : s ≠ s.opposite := by
  cases s <;> decide

theorem eq_or_eq_opposite (s t : Side) : s = t ∨ s = t.opposite := by
  cases s <;> cases t <;> decide

/-- `s.ahead p q`: among orders resting on side `s`, price `p` has strictly
    better priority than price `q`. Bids are ordered highest first, asks
    lowest first. -/
def ahead : Side → Price → Price → Prop
  | .buy, p, q => q < p
  | .sell, p, q => p < q

instance (s : Side) : DecidableRel s.ahead := by
  cases s <;> intro p q <;> simp only [ahead] <;> infer_instance

theorem ahead_irrefl (s : Side) (p : Price) : ¬ s.ahead p p := by
  cases s <;> simp [ahead]

theorem ahead_trans (s : Side) {p q r : Price} (h₁ : s.ahead p q) (h₂ : s.ahead q r) :
    s.ahead p r := by
  cases s <;> simp only [ahead] at * <;> lia

theorem ahead_trichotomy (s : Side) (p q : Price) : s.ahead p q ∨ p = q ∨ s.ahead q p := by
  cases s <;> simp only [ahead] <;> lia

instance (s : Side) : IsStrictTotalOrder Price s.ahead where
  irrefl := s.ahead_irrefl
  trans := fun _ _ _ => s.ahead_trans
  trichotomous := by
    intro p q h₁ h₂
    rcases s.ahead_trichotomy p q with h | h | h
    · exact absurd h h₁
    · exact h
    · exact absurd h h₂

end Side

/-- An incoming order of side `side` and limit `limit` may execute against a
    resting order at `resting`. -/
def crosses (side : Side) (limit resting : Price) : Prop :=
  match side with
  | .buy => resting ≤ limit
  | .sell => limit ≤ resting

instance (side : Side) (limit resting : Price) : Decidable (crosses side limit resting) := by
  cases side <;> simp only [crosses] <;> infer_instance

/-- If a resting price crosses, so does every resting price of better
    priority. -/
theorem crosses_of_ahead {side : Side} {limit p q : Price} (h : crosses side limit q)
    (hp : p = q ∨ side.opposite.ahead p q) : crosses side limit p := by
  cases side <;> simp only [crosses, Side.opposite, Side.ahead] at * <;> lia

/-! ### Book events -/

/-- An order came to rest; `qty` is the quantity left after matching. -/
structure AddedEvent where
  id : OrderId
  side : Side
  price : Price
  qty : Qty
  deriving DecidableEq, Repr

/-- An execution, at the resting order's price. -/
structure ExecutedEvent where
  restingId : OrderId
  aggressorId : OrderId
  aggressorSide : Side
  price : Price
  qty : Qty
  matchId : Nat
  deriving DecidableEq, Repr

/-- A cancellation; `removed` is false for a partial reduction. -/
structure CanceledEvent where
  id : OrderId
  canceledQty : Qty
  removed : Bool
  deriving DecidableEq, Repr

/-- `oldId` left the book and `newId` came to rest with all its quantity. -/
structure ReplacedEvent where
  oldId : OrderId
  newId : OrderId
  side : Side
  price : Price
  qty : Qty
  deriving DecidableEq, Repr

/-- What a book reports to its listener, in the order of the callbacks. -/
inductive BookEvent where
  | added (e : AddedEvent)
  | executed (e : ExecutedEvent)
  | canceled (e : CanceledEvent)
  | replaced (e : ReplacedEvent)
  deriving DecidableEq, Repr

/-! ### Results and snapshots -/

inductive AddStatus where
  | ok
  | duplicateId
  | badPrice
  | badQty
  deriving DecidableEq, Repr

structure AddResult where
  status : AddStatus
  filled : Qty
  resting : Qty
  deriving DecidableEq, Repr

structure SnapshotOrder where
  id : OrderId
  qty : Qty
  deriving DecidableEq, Repr

/-- One price with its orders in FIFO order. -/
structure SnapshotLevel where
  price : Price
  orders : List SnapshotOrder
  deriving DecidableEq, Repr

/-- Both sides of a book, best level first. -/
structure BookSnapshot where
  bids : List SnapshotLevel := []
  asks : List SnapshotLevel := []
  deriving DecidableEq, Repr

def BookSnapshot.side (s : BookSnapshot) : Side → List SnapshotLevel
  | .buy => s.bids
  | .sell => s.asks

/-! ### Checks -/

/-- Throw `what` when `bad` holds. -/
def failIf {m : Type → Type} [Monad m] [MonadExcept String m] (bad : Prop) [Decidable bad]
    (what : String) : m Unit :=
  if bad then throw what else pure ()

theorem failIf_of_not {m : Type → Type} [Monad m] [MonadExcept String m] {bad : Prop}
    [Decidable bad] (h : ¬ bad) (what : String) : (failIf bad what : m Unit) = pure () :=
  if_neg h

end MatchingEngine
