import MatchingEngine.Ouch.Codec

/-! # The OUCH codec in both directions

    The encoders and decoders of `ouch/ouch.hpp` for the other direction, the
    client's. A decoder casts the byte of a side unchecked.

    Each codec is a bijection between its records, with prices of 32 bits, and
    the strings of its size and type (`codecs_exact`). The fields of a record
    stand one behind the other, so any such string is made of fields, and the
    record of these fields is what the decoder finds.
-/

namespace MatchingEngine

namespace Ouch

open Bytes

/-! ## Section 1: What clients send -/

def EnterOrder.fields (m : EnterOrder) : List (Nat × List UInt8) :=
  [(0, putByte (ch 'O')), (1, m.token.toList), (15, putByte m.side), (16, putBe32 m.shares),
    (20, m.stock.toList), (28, putPrice m.price), (32, putBe32 m.tif), (36, m.firm.toList),
    (40, putByte m.display), (41, putByte m.capacity), (42, putByte m.intermarketSweep),
    (43, putBe32 m.minQty), (47, putByte m.crossType), (48, putByte m.customerType)]

def CancelOrder.fields (m : CancelOrder) : List (Nat × List UInt8) :=
  [(0, putByte (ch 'X')), (1, m.token.toList), (15, putBe32 m.shares)]

def ReplaceOrder.fields (m : ReplaceOrder) : List (Nat × List UInt8) :=
  [(0, putByte (ch 'U')), (1, m.existingToken.toList), (15, m.replacementToken.toList),
    (29, putBe32 m.shares), (33, putPrice m.price), (37, putBe32 m.tif), (41, putByte m.display),
    (42, putByte m.intermarketSweep), (43, putBe32 m.minQty)]

def EnterOrder.encode (m : EnterOrder) : Option (List UInt8) := fill kEnterOrderSize m.fields

def CancelOrder.encode (m : CancelOrder) : Option (List UInt8) := fill kCancelOrderSize m.fields

def ReplaceOrder.encode (m : ReplaceOrder) : Option (List UInt8) := fill kReplaceOrderSize m.fields

/-! ## Section 2: What the exchange sends -/

namespace Wire

def SystemEvent.read (p : List UInt8) : Option SystemEvent := do
  let timestamp ← getBe64 p 1
  let eventCode ← getByte p 9
  some ⟨timestamp, eventCode⟩

def getAcceptedBody (p : List UInt8) : Option Accepted := do
  let timestamp ← getBe64 p 1
  let token ← chars 14 p 9
  let side ← getByte p 23
  let shares ← getBe32 p 24
  let stock ← chars 8 p 28
  let price ← getPrice p 36
  let tif ← getBe32 p 40
  let firm ← chars 4 p 44
  let display ← getByte p 48
  let orderRef ← getBe64 p 49
  let capacity ← getByte p 57
  let intermarketSweep ← getByte p 58
  let minQty ← getBe32 p 59
  let crossType ← getByte p 63
  let orderState ← getByte p 64
  let bboWeightIndicator ← getByte p 65
  some ⟨timestamp, token, side, shares, stock, price, tif, firm, display, orderRef, capacity,
    intermarketSweep, minQty, crossType, orderState, bboWeightIndicator⟩

/-- The positional copy out of the shared body. -/
def Replaced.read (p : List UInt8) : Option Replaced := do
  let body ← getAcceptedBody p
  let previousToken ← chars 14 p 66
  some ⟨body.timestamp, body.token, body.side, body.shares, body.stock, body.price,
    body.tif, body.firm,
    body.display, body.orderRef, body.capacity, body.intermarketSweep, body.minQty, body.crossType,
    body.orderState, body.bboWeightIndicator, previousToken⟩

def Executed.read (p : List UInt8) : Option Executed := do
  let timestamp ← getBe64 p 1
  let token ← chars 14 p 9
  let executedShares ← getBe32 p 23
  let executionPrice ← getPrice p 27
  let liquidityFlag ← getByte p 31
  let matchNumber ← getBe64 p 32
  some ⟨timestamp, token, executedShares, executionPrice, liquidityFlag, matchNumber⟩

def Canceled.read (p : List UInt8) : Option Canceled := do
  let timestamp ← getBe64 p 1
  let token ← chars 14 p 9
  let decrementShares ← getBe32 p 23
  let reason ← getByte p 27
  some ⟨timestamp, token, decrementShares, reason⟩

def Rejected.read (p : List UInt8) : Option Rejected := do
  let timestamp ← getBe64 p 1
  let token ← chars 14 p 9
  let reason ← getByte p 23
  some ⟨timestamp, token, reason⟩

def decodeSystemEvent : List UInt8 → Option SystemEvent :=
  decodeAs kSystemEventSize (ch 'S') SystemEvent.read

def decodeAccepted : List UInt8 → Option Accepted := decodeAs kAcceptedSize (ch 'A') getAcceptedBody

def decodeReplaced : List UInt8 → Option Replaced := decodeAs kReplacedSize (ch 'U') Replaced.read

def decodeExecuted : List UInt8 → Option Executed := decodeAs kExecutedSize (ch 'E') Executed.read

def decodeCanceled : List UInt8 → Option Canceled := decodeAs kCanceledSize (ch 'C') Canceled.read

def decodeRejected : List UInt8 → Option Rejected := decodeAs kRejectedSize (ch 'J') Rejected.read

end Wire

/-! ## Section 3: Both directions -/

section read

variable {x p : List UInt8} {i : Nat}

@[simp] theorem getPrice_skip (h : x.length ≤ i) :
    getPrice (x ++ p) i = getPrice p (i - x.length) := by
  rw [getPrice, getBe32_skip h, getPrice]

theorem getPrice_here {v : Price} (h : PriceInRange v) : getPrice (putPrice v ++ p) 0 = some v := by
  rw [getPrice, putPrice, getBe32_here, Option.map_some, h.toNat_ofInt]

theorem exists_type {n : Nat} {type : UInt8} (h : p.length = n + 1) (htype : p[0]? = some type) :
    ∃ q, p = putByte type ++ q ∧ q.length = n := by
  obtain ⟨b, q, -, rfl, hq⟩ := covers_byte.front h
  obtain rfl : b = type := Option.some.inj htype
  exact ⟨q, rfl, hq⟩

end read

/-- A layout is exact when its fields fill the buffer, the type byte first, when
    the decoder finds them there, and when every string of the size and the type
    is made of such fields. -/
theorem exact_of_layout {α : Type} {InRange : α → Prop} {kSize : Nat} {type : UInt8}
    {fields : α → List (Nat × List UInt8)} {read : List UInt8 → Option α}
    (htight : ∀ m, Tight 0 (fields m)) (hsize : ∀ m, ((fields m).flatMap Prod.snd).length = kSize)
    (htype : ∀ m, ((fields m).flatMap Prod.snd)[0]? = some type)
    (hread : ∀ m, InRange m → ∀ p, read ((fields m).flatMap Prod.snd ++ p) = some m)
    (honto : ∀ p, p.length = kSize → p[0]? = some type →
      ∃ m, InRange m ∧ (fields m).flatMap Prod.snd = p) :
    Exact InRange kSize type (fun m => fill kSize (fields m)) (decodeAs kSize type read) := by
  have hfill : ∀ m, fill kSize (fields m) = some ((fields m).flatMap Prod.snd) := by
    intro m
    exact fill_tight (htight m) (hsize m)
  apply exact_of_onto
  · -- what was written is read back
    intro m hm
    refine ⟨_, hfill m, hsize m, ?_⟩
    have hfound := hread m hm []
    rw [List.append_nil] at hfound
    rw [decodeAs, if_neg, hfound]
    rintro (hwrong | hwrong)
    · exact hwrong (hsize m)
    · exact hwrong (htype m)
  · intro p hp hfirst
    obtain ⟨m, hm, rfl⟩ := honto p hp hfirst
    exact ⟨m, hm, hfill m⟩
  · -- a wrong size or type is refused before anything is read
    intro p hnot
    apply if_pos
    rw [← not_and_or]
    exact hnot

theorem enterOrder_exact : Exact (fun m : EnterOrder => PriceInRange m.price) kEnterOrderSize
    (ch 'O') EnterOrder.encode decodeEnterOrder := by
  apply exact_of_layout
  · intro m
    simp [EnterOrder.fields, Tight]
  · intro m
    simp [EnterOrder.fields, kEnterOrderSize]
  · intro m
    rfl
  · intro m hprice p
    simp [EnterOrder.fields, EnterOrder.read, getPrice_here hprice]
  · intro p hp htype
    obtain ⟨q, rfl, hq⟩ := exists_type (n := 48) hp htype
    obtain ⟨⟨token, side, shares, stock, price, tif, firm, display, capacity, sweep, minQty,
      crossType, customerType, _⟩, ⟨-, -, -, -, hprice, -⟩, rfl⟩ :=
      ((covers_chars 14).append (covers_byte.append (covers_be32.append ((covers_chars 8).append
        (covers_price.append (covers_be32.append ((covers_chars 4).append (covers_byte.append
        (covers_byte.append (covers_byte.append (covers_be32.append (covers_byte.append
        (covers_byte.append covers_nil))))))))))))) q hq
    exact ⟨⟨token, side, shares, stock, price, tif, firm, display, capacity, sweep, minQty,
      crossType, customerType⟩, hprice, rfl⟩

theorem cancelOrder_exact :
    Exact (fun _ : CancelOrder => True) kCancelOrderSize (ch 'X') CancelOrder.encode
      decodeCancelOrder := by
  apply exact_of_layout
  · intro m
    simp [CancelOrder.fields, Tight]
  · intro m
    simp [CancelOrder.fields, kCancelOrderSize]
  · intro m
    rfl
  · intro m _ p
    simp [CancelOrder.fields, CancelOrder.read]
  · intro p hp htype
    obtain ⟨q, rfl, hq⟩ := exists_type (n := 18) hp htype
    obtain ⟨⟨token, shares, _⟩, -, rfl⟩ :=
      ((covers_chars 14).append (covers_be32.append covers_nil)) q hq
    exact ⟨⟨token, shares⟩, trivial, rfl⟩

theorem replaceOrder_exact : Exact (fun m : ReplaceOrder => PriceInRange m.price) kReplaceOrderSize
    (ch 'U') ReplaceOrder.encode decodeReplaceOrder := by
  apply exact_of_layout
  · intro m
    simp [ReplaceOrder.fields, Tight]
  · intro m
    simp [ReplaceOrder.fields, kReplaceOrderSize]
  · intro m
    rfl
  · intro m hprice p
    simp [ReplaceOrder.fields, ReplaceOrder.read, getPrice_here hprice]
  · intro p hp htype
    obtain ⟨q, rfl, hq⟩ := exists_type (n := 46) hp htype
    obtain ⟨⟨existingToken, replacementToken, shares, price, tif, display, sweep, minQty, _⟩, ⟨-,
      -, -, hprice, -⟩, rfl⟩ :=
      ((covers_chars 14).append ((covers_chars 14).append (covers_be32.append (covers_price.append
        (covers_be32.append (covers_byte.append (covers_byte.append (covers_be32.append
        covers_nil)))))))) q hq
    exact ⟨⟨existingToken, replacementToken, shares, price, tif, display, sweep, minQty⟩,
      hprice, rfl⟩

namespace Wire

theorem systemEvent_exact : Exact (fun _ : SystemEvent => True) kSystemEventSize (ch 'S')
    SystemEvent.encode decodeSystemEvent := by
  apply exact_of_layout
  · intro m
    simp [SystemEvent.fields, Tight]
  · intro m
    simp [SystemEvent.fields, kSystemEventSize]
  · intro m
    rfl
  · intro m _ p
    simp [SystemEvent.fields, SystemEvent.read]
  · intro p hp htype
    obtain ⟨q, rfl, hq⟩ := exists_type (n := 9) hp htype
    obtain ⟨⟨timestamp, eventCode, _⟩, -, rfl⟩ :=
      (covers_be64.append (covers_byte.append covers_nil)) q hq
    exact ⟨⟨timestamp, eventCode⟩, trivial, rfl⟩

/-! ### The body of Accepted and Replaced -/

theorem putAcceptedBody_tight (m : Accepted) : Tight 1 (putAcceptedBody m) := by
  simp [putAcceptedBody, Tight]

theorem length_putAcceptedBody (m : Accepted) :
    ((putAcceptedBody m).flatMap Prod.snd).length = 65 := by
  simp [putAcceptedBody]

theorem getAcceptedBody_here {m : Accepted} (hprice : PriceInRange m.price) (type : UInt8)
    (p : List UInt8) :
    getAcceptedBody (putByte type ++ ((putAcceptedBody m).flatMap Prod.snd ++ p)) = some m := by
  simp [putAcceptedBody, getAcceptedBody, getPrice_here hprice]

theorem covers_acceptedBody : Covers 65 (fun m : Accepted => PriceInRange m.price)
    (fun m => (putAcceptedBody m).flatMap Prod.snd) := by
  intro p hp
  obtain ⟨⟨timestamp, token, side, shares, stock, price, tif, firm, display, orderRef, capacity,
    sweep, minQty, crossType, orderState, bbo, _⟩, ⟨-, -, -, -, -, hprice, -⟩, rfl⟩ :=
    (covers_be64.append ((covers_chars 14).append (covers_byte.append (covers_be32.append
      ((covers_chars 8).append (covers_price.append (covers_be32.append ((covers_chars 4).append
      (covers_byte.append (covers_be64.append (covers_byte.append (covers_byte.append
      (covers_be32.append (covers_byte.append (covers_byte.append (covers_byte.append
      covers_nil)))))))))))))))) p hp
  exact ⟨⟨timestamp, token, side, shares, stock, price, tif, firm, display, orderRef, capacity,
    sweep, minQty, crossType, orderState, bbo⟩, hprice, rfl⟩

theorem accepted_exact : Exact (fun m : Accepted => PriceInRange m.price) kAcceptedSize (ch 'A')
    Accepted.encode decodeAccepted := by
  have hbytes : ∀ m : Accepted,
      m.fields.flatMap Prod.snd = putByte (ch 'A') ++ (putAcceptedBody m).flatMap Prod.snd := by
    intro m
    rfl
  apply exact_of_layout
  · intro m
    exact ⟨rfl, putAcceptedBody_tight m⟩
  · intro m
    rw [hbytes, List.length_append, length_putAcceptedBody, length_putByte, kAcceptedSize]
  · intro m
    rfl
  · intro m hprice p
    rw [hbytes, List.append_assoc]
    exact getAcceptedBody_here hprice _ _
  · intro p hp htype
    obtain ⟨q, rfl, h₁⟩ := exists_type (n := 65) hp htype
    obtain ⟨m, hprice, rfl⟩ := covers_acceptedBody q h₁
    exact ⟨m, hprice, hbytes m⟩

theorem replaced_exact : Exact (fun m : Replaced => PriceInRange m.price) kReplacedSize (ch 'U')
    Replaced.encode decodeReplaced := by
  have hbytes : ∀ m : Replaced, m.fields.flatMap Prod.snd =
      putByte (ch 'U') ++ ((putAcceptedBody m.body).flatMap Prod.snd ++
        m.previousToken.toList) := by
    intro m
    simp [Replaced.fields]
  apply exact_of_layout
  · intro m
    exact ⟨rfl, by simp [putAcceptedBody, Tight]⟩
  · intro m
    rw [hbytes, List.length_append, List.length_append, length_putAcceptedBody, length_putByte,
      Vector.length_toList, kReplacedSize]
  · intro m
    rfl
  · intro m hprice p
    have hprice' : PriceInRange m.body.price := hprice
    -- the previous token stands behind the body
    have hbehind : ∀ q : List UInt8,
        chars 14 (putByte (ch 'U') ++ ((putAcceptedBody m.body).flatMap Prod.snd ++ q)) 66 =
          chars 14 q 0 := by
      intro q
      rw [chars_skip (by simp), length_putByte,
        chars_skip (by rw [length_putAcceptedBody]), length_putAcceptedBody]
    rw [hbytes, List.append_assoc, List.append_assoc, Replaced.read, getAcceptedBody_here hprice',
      hbehind, chars_here]
    rfl
  · intro p hp htype
    obtain ⟨q, rfl, h₁⟩ := exists_type (n := 79) hp htype
    obtain ⟨⟨m, previousToken⟩, ⟨hprice, -⟩, rfl⟩ :=
      (covers_acceptedBody.append (covers_chars 14)) q h₁
    refine ⟨⟨m.timestamp, m.token, m.side, m.shares, m.stock, m.price, m.tif, m.firm, m.display,
      m.orderRef, m.capacity, m.intermarketSweep, m.minQty, m.crossType, m.orderState,
        m.bboWeightIndicator,
      previousToken⟩, hprice, ?_⟩
    exact hbytes _

theorem executed_exact : Exact (fun m : Executed => PriceInRange m.executionPrice) kExecutedSize
    (ch 'E') Executed.encode decodeExecuted := by
  apply exact_of_layout
  · intro m
    simp [Executed.fields, Tight]
  · intro m
    simp [Executed.fields, kExecutedSize]
  · intro m
    rfl
  · intro m hprice p
    simp [Executed.fields, Executed.read, getPrice_here hprice]
  · intro p hp htype
    obtain ⟨q, rfl, hq⟩ := exists_type (n := 39) hp htype
    obtain ⟨⟨timestamp, token, shares, price, flag, matchNumber, _⟩, ⟨-, -, -, hprice, -⟩, rfl⟩ :=
      (covers_be64.append ((covers_chars 14).append (covers_be32.append (covers_price.append
        (covers_byte.append (covers_be64.append covers_nil)))))) q hq
    exact ⟨⟨timestamp, token, shares, price, flag, matchNumber⟩, hprice, rfl⟩

theorem canceled_exact : Exact (fun _ : Canceled => True) kCanceledSize (ch 'C')
    Canceled.encode decodeCanceled := by
  apply exact_of_layout
  · intro m
    simp [Canceled.fields, Tight]
  · intro m
    simp [Canceled.fields, kCanceledSize]
  · intro m
    rfl
  · intro m _ p
    simp [Canceled.fields, Canceled.read]
  · intro p hp htype
    obtain ⟨q, rfl, hq⟩ := exists_type (n := 27) hp htype
    obtain ⟨⟨timestamp, token, shares, reason, _⟩, -, rfl⟩ :=
      (covers_be64.append ((covers_chars 14).append (covers_be32.append (covers_byte.append
        covers_nil)))) q hq
    exact ⟨⟨timestamp, token, shares, reason⟩, trivial, rfl⟩

theorem rejected_exact : Exact (fun _ : Rejected => True) kRejectedSize (ch 'J')
    Rejected.encode decodeRejected := by
  apply exact_of_layout
  · intro m
    simp [Rejected.fields, Tight]
  · intro m
    simp [Rejected.fields, kRejectedSize]
  · intro m
    rfl
  · intro m _ p
    simp [Rejected.fields, Rejected.read]
  · intro p hp htype
    obtain ⟨q, rfl, hq⟩ := exists_type (n := 23) hp htype
    obtain ⟨⟨timestamp, token, reason, _⟩, -, rfl⟩ :=
      (covers_be64.append ((covers_chars 14).append (covers_byte.append covers_nil))) q hq
    exact ⟨⟨timestamp, token, reason⟩, trivial, rfl⟩

end Wire

/-- **The codec is a bijection.** For each of the nine messages, every record with
    prices of 32 bits is read back as it was, exactly the strings of its size and
    type are read, and the record that is read is encoded to the same string. -/
theorem codecs_exact :
    Exact (fun m => PriceInRange m.price) 49 (ch 'O') EnterOrder.encode decodeEnterOrder ∧
    Exact (fun _ => True) 19 (ch 'X') CancelOrder.encode decodeCancelOrder ∧
    Exact (fun m => PriceInRange m.price) 47 (ch 'U') ReplaceOrder.encode decodeReplaceOrder ∧
    Exact (fun _ => True) 10 (ch 'S') Wire.SystemEvent.encode Wire.decodeSystemEvent ∧
    Exact (fun m => PriceInRange m.price) 66 (ch 'A') Wire.Accepted.encode Wire.decodeAccepted ∧
    Exact (fun m => PriceInRange m.price) 80 (ch 'U') Wire.Replaced.encode Wire.decodeReplaced ∧
    Exact (fun m => PriceInRange m.executionPrice) 40 (ch 'E') Wire.Executed.encode
      Wire.decodeExecuted ∧
    Exact (fun _ => True) 28 (ch 'C') Wire.Canceled.encode Wire.decodeCanceled ∧
    Exact (fun _ => True) 24 (ch 'J') Wire.Rejected.encode Wire.decodeRejected :=
  ⟨enterOrder_exact, cancelOrder_exact, replaceOrder_exact, Wire.systemEvent_exact,
    Wire.accepted_exact, Wire.replaced_exact, Wire.executed_exact, Wire.canceled_exact,
      Wire.rejected_exact⟩

end Ouch

end MatchingEngine
