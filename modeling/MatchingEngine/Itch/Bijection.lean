import MatchingEngine.Itch.Codec

/-! # The ITCH codec in both directions

    Every string of bytes that has the type and the size of a message is the
    encoding of a message (`exists_message`). Decoding it therefore gives that
    message back, and encoding the result gives the string.

    Trades are the exception. Both the encoder and the decoder of a trade access
    the match number at offset 40, which ends four bytes behind the buffer.
-/

namespace MatchingEngine

namespace Itch

open Bytes

/-! ## Section 1: The range of the fields -/

def Header.InRange (h : Header) : Prop := h.timestamp.toNat < 2 ^ 48

/-- The timestamp has 48 bits and the prices have 32. All other fields are on the
    wire as they are. -/
def Message.InRange : Message → Prop
  | .systemEvent m => m.toHeader.InRange
  | .stockDirectory m => m.toHeader.InRange
  | .tradingAction m => m.toHeader.InRange
  | .addOrder m => m.toHeader.InRange ∧ PriceInRange m.price
  | .addOrderMpid m => m.add.toHeader.InRange ∧ PriceInRange m.add.price
  | .orderExecuted m => m.toHeader.InRange
  | .orderExecutedWithPrice m => m.exec.toHeader.InRange ∧ PriceInRange m.executionPrice
  | .orderCancel m => m.toHeader.InRange
  | .orderDelete m => m.toHeader.InRange
  | .orderReplace m => m.toHeader.InRange ∧ PriceInRange m.price
  | .trade m => m.toHeader.InRange ∧ PriceInRange m.price

theorem Header.InRange.onWire {h : Header} (hrange : h.InRange) : h.onWire = h := by
  have hlow : low48 h.timestamp = h.timestamp := by
    unfold low48
    rw [Nat.mod_eq_of_lt hrange]
    exact UInt64.ofNat_toNat
  rw [Header.onWire, hlow]

theorem Message.InRange.onWire {m : Message} (h : m.InRange) : m.onWire = m := by
  cases m with
  | systemEvent m => rw [Message.onWire, Header.InRange.onWire h]
  | stockDirectory m => rw [Message.onWire, Header.InRange.onWire h]
  | tradingAction m => rw [Message.onWire, Header.InRange.onWire h]
  | addOrder m => rw [Message.onWire, h.1.onWire, priceOnWire_of_fits h.2.1 h.2.2]
  | addOrderMpid m => rw [Message.onWire, h.1.onWire, priceOnWire_of_fits h.2.1 h.2.2]
  | orderExecuted m => rw [Message.onWire, Header.InRange.onWire h]
  | orderExecutedWithPrice m => rw [Message.onWire, h.1.onWire, priceOnWire_of_fits h.2.1 h.2.2]
  | orderCancel m => rw [Message.onWire, Header.InRange.onWire h]
  | orderDelete m => rw [Message.onWire, Header.InRange.onWire h]
  | orderReplace m => rw [Message.onWire, h.1.onWire, priceOnWire_of_fits h.2.1 h.2.2]
  | trade m => rw [Message.onWire, h.1.onWire, priceOnWire_of_fits h.2.1 h.2.2]

/-! ## Section 2: Strings of bytes that are messages -/

/-- A string with the type and the size of a message. -/
def Sized (p : List UInt8) : Prop := ∃ type, p[0]? = some type ∧ (type, p.length) ∈ kSizes

/-- Everything else is refused, and nothing of it is read. -/
theorem decode_of_not_sized {p : List UInt8} (h : ¬ Sized p) : decode p = some none := by
  cases p with
  | nil => rfl
  | cons type rest =>
    have hnot : (type, (type :: rest).length) ∉ kSizes := fun hmem => h ⟨type, rfl, hmem⟩
    have hcase : ∀ {α : Type} {c : UInt8} {kSize : Nat} {read : Option α} {make : α → Message}
        {others : Option (Option Message)}, (c, kSize) ∈ kSizes → others = some none →
        (if type = c then sized kSize (type :: rest) read make else others) = some none := by
      intro α c kSize read make others hmem hothers
      by_cases htype : type = c
      · subst htype
        rw [if_pos rfl]
        apply if_pos
        intro heq
        exact hnot (heq ▸ hmem)
      · rw [if_neg htype]
        exact hothers
    show decodeAs type (type :: rest) = some none
    unfold decodeAs
    -- one case for each type of message
    iterate 11 refine hcase (by decide) ?_
    rfl

section onto

variable {p : List UInt8} {n : Nat}

theorem exists_putHeader {type : UInt8} (h : p.length = n + 11) (htype : p[0]? = some type) :
    ∃ hd q, p = putHeader type hd ++ q ∧ hd.InRange ∧ q.length = n := by
  obtain ⟨⟨b, stockLocate, tracking, timestamp⟩, q, ⟨-, -, -, hlt⟩, rfl, hq⟩ :=
    (covers_byte.append (covers_be16.append (covers_be16.append covers_be48))).front h
  obtain rfl : b = type := Option.some.inj htype
  refine ⟨⟨stockLocate, tracking, timestamp⟩, q, ?_, hlt, hq⟩
  simp [putHeader]

/-- The string is the encoding of a message in range. -/
def Encodes (p : List UInt8) : Prop := ∃ m : Message, m.InRange ∧ m.Fits ∧ m.encode = some p

theorem encodes_systemEvent (hn : p.length = 12) (htype : p[0]? = some (ch 'S')) : Encodes p := by
  obtain ⟨hd, q, rfl, hhd, hq⟩ := exists_putHeader (n := 1) hn htype
  obtain ⟨⟨eventCode, _⟩, -, rfl⟩ := (covers_byte.append covers_nil) q hq
  exact ⟨.systemEvent ⟨hd, eventCode⟩, hhd, trivial,
    encoded_of_tight _ hd (by simp [Tight]) (by simp)⟩

theorem encodes_stockDirectory (hn : p.length = 39) (htype : p[0]? = some (ch 'R')) :
    Encodes p := by
  obtain ⟨hd, q, rfl, hhd, hq⟩ := exists_putHeader (n := 28) hn htype
  obtain ⟨⟨stock, marketCategory, financialStatus, roundLotSize, roundLotsOnly,
    issueClassification, issueSubtype, authenticity, shortSaleThreshold, ipoFlag, luldTier,
    etpFlag, etpLeverage, inverseIndicator, _⟩, -, rfl⟩ :=
    ((covers_chars 8).append (covers_byte.append (covers_byte.append (covers_be32.append
      (covers_byte.append (covers_byte.append ((covers_chars 2).append (covers_byte.append
      (covers_byte.append (covers_byte.append (covers_byte.append (covers_byte.append
      (covers_be32.append (covers_byte.append covers_nil)))))))))))))) q hq
  exact ⟨.stockDirectory ⟨hd, stock, marketCategory, financialStatus, roundLotSize, roundLotsOnly,
    issueClassification, issueSubtype, authenticity, shortSaleThreshold, ipoFlag, luldTier, etpFlag,
    etpLeverage, inverseIndicator⟩, hhd, trivial,
    encoded_of_tight _ hd (by simp [Tight]) (by simp)⟩

theorem encodes_tradingAction (hn : p.length = 25) (htype : p[0]? = some (ch 'H')) : Encodes p := by
  obtain ⟨hd, q, rfl, hhd, hq⟩ := exists_putHeader (n := 14) hn htype
  obtain ⟨⟨stock, tradingState, reserved, reason, _⟩, -, rfl⟩ :=
    ((covers_chars 8).append (covers_byte.append (covers_byte.append ((covers_chars 4).append
      covers_nil)))) q hq
  exact ⟨.tradingAction ⟨hd, stock, tradingState, reserved, reason⟩, hhd, trivial,
    encoded_of_tight _ hd (by simp [Tight]) (by simp)⟩

theorem encodes_addOrder (hn : p.length = 36) (htype : p[0]? = some (ch 'A')) : Encodes p := by
  obtain ⟨hd, q, rfl, hhd, hq⟩ := exists_putHeader (n := 25) hn htype
  obtain ⟨⟨orderRef, side, shares, stock, price, _⟩, ⟨-, -, -, -, hprice, -⟩, rfl⟩ :=
    (covers_be64.append (covers_byte.append (covers_be32.append ((covers_chars 8).append
      (covers_price.append covers_nil))))) q hq
  exact ⟨.addOrder ⟨hd, orderRef, side, shares, stock, price⟩, ⟨hhd, hprice⟩, trivial,
    encoded_of_tight _ hd (by simp [Tight]) (by simp)⟩

theorem encodes_addOrderMpid (hn : p.length = 40) (htype : p[0]? = some (ch 'F')) : Encodes p := by
  obtain ⟨hd, q, rfl, hhd, hq⟩ := exists_putHeader (n := 29) hn htype
  obtain ⟨⟨orderRef, side, shares, stock, price, attribution, _⟩, ⟨-, -, -, -, hprice, -⟩, rfl⟩ :=
    (covers_be64.append (covers_byte.append (covers_be32.append ((covers_chars 8).append
      (covers_price.append ((covers_chars 4).append covers_nil)))))) q hq
  refine ⟨.addOrderMpid ⟨⟨hd, orderRef, side, shares, stock, price⟩, attribution⟩, ⟨hhd, hprice⟩,
    trivial, ?_⟩
  refine (encoded_of_retyped _ _ hd (by simp [Tight]) (by simp [Tight]) (by simp)).trans ?_
  simp [putPrice, putSymbol]

theorem encodes_orderExecuted (hn : p.length = 31) (htype : p[0]? = some (ch 'E')) : Encodes p := by
  obtain ⟨hd, q, rfl, hhd, hq⟩ := exists_putHeader (n := 20) hn htype
  obtain ⟨⟨orderRef, executedShares, matchNumber, _⟩, -, rfl⟩ :=
    (covers_be64.append (covers_be32.append (covers_be64.append covers_nil))) q hq
  exact ⟨.orderExecuted ⟨hd, orderRef, executedShares, matchNumber⟩, hhd, trivial,
    encoded_of_tight _ hd (by simp [Tight]) (by simp)⟩

theorem encodes_orderExecutedWithPrice (hn : p.length = 36) (htype : p[0]? = some (ch 'C')) :
    Encodes p := by
  obtain ⟨hd, q, rfl, hhd, hq⟩ := exists_putHeader (n := 25) hn htype
  obtain ⟨⟨orderRef, executedShares, matchNumber, printable, executionPrice, _⟩, ⟨-, -, -, -,
    hprice, -⟩, rfl⟩ :=
    (covers_be64.append (covers_be32.append (covers_be64.append (covers_byte.append
      (covers_price.append covers_nil))))) q hq
  refine ⟨.orderExecutedWithPrice ⟨⟨hd, orderRef, executedShares, matchNumber⟩, printable,
    executionPrice⟩, ⟨hhd, hprice⟩, trivial, ?_⟩
  refine (encoded_of_retyped _ _ hd (by simp [Tight]) (by simp [Tight]) (by simp)).trans ?_
  simp [putPrice]

theorem encodes_orderCancel (hn : p.length = 23) (htype : p[0]? = some (ch 'X')) : Encodes p := by
  obtain ⟨hd, q, rfl, hhd, hq⟩ := exists_putHeader (n := 12) hn htype
  obtain ⟨⟨orderRef, canceledShares, _⟩, -, rfl⟩ :=
    (covers_be64.append (covers_be32.append covers_nil)) q hq
  exact ⟨.orderCancel ⟨hd, orderRef, canceledShares⟩, hhd, trivial,
    encoded_of_tight _ hd (by simp [Tight]) (by simp)⟩

theorem encodes_orderDelete (hn : p.length = 19) (htype : p[0]? = some (ch 'D')) : Encodes p := by
  obtain ⟨hd, q, rfl, hhd, hq⟩ := exists_putHeader (n := 8) hn htype
  obtain ⟨⟨orderRef, _⟩, -, rfl⟩ := (covers_be64.append covers_nil) q hq
  exact ⟨.orderDelete ⟨hd, orderRef⟩, hhd, trivial,
    encoded_of_tight _ hd (by simp [Tight]) (by simp)⟩

theorem encodes_orderReplace (hn : p.length = 35) (htype : p[0]? = some (ch 'U')) : Encodes p := by
  obtain ⟨hd, q, rfl, hhd, hq⟩ := exists_putHeader (n := 24) hn htype
  obtain ⟨⟨originalRef, newRef, shares, price, _⟩, ⟨-, -, -, hprice, -⟩, rfl⟩ :=
    (covers_be64.append (covers_be64.append (covers_be32.append (covers_price.append covers_nil))))
      q hq
  exact ⟨.orderReplace ⟨hd, originalRef, newRef, shares, price⟩, ⟨hhd, hprice⟩, trivial,
    encoded_of_tight _ hd (by simp [Tight]) (by simp)⟩

/-- **Every string of the type and size of a message, a trade apart, is the
    encoding of one.** -/
theorem exists_message (h : Sized p) (htrade : p[0]? ≠ some (ch 'P')) : Encodes p := by
  obtain ⟨type, htype, hsize⟩ := h
  simp only [kSizes, List.mem_cons, List.not_mem_nil, or_false, Prod.mk.injEq] at hsize
  rcases hsize with ⟨rfl, hn⟩ | ⟨rfl, hn⟩ | ⟨rfl, hn⟩ | ⟨rfl, hn⟩ | ⟨rfl, hn⟩ | ⟨rfl, hn⟩ | ⟨rfl,
    hn⟩ | ⟨rfl, hn⟩ | ⟨rfl, hn⟩ | ⟨rfl, hn⟩ | ⟨rfl, hn⟩
  · exact encodes_systemEvent hn htype
  · exact encodes_stockDirectory hn htype
  · exact encodes_tradingAction hn htype
  · exact encodes_addOrder hn htype
  · exact encodes_addOrderMpid hn htype
  · exact encodes_orderExecuted hn htype
  · exact encodes_orderExecutedWithPrice hn htype
  · exact encodes_orderCancel hn htype
  · exact encodes_orderDelete hn htype
  · exact encodes_orderReplace hn htype
  · exact absurd htype htrade

end onto

/-! ## Section 3: Both directions -/

/-- The decoder of a trade reads behind the end of the message. -/
theorem decode_trade {p : List UInt8} (htype : p[0]? = some (ch 'P')) (hsize : p.length = 44) :
    decode p = none := by
  have hmatch : getBe64 p 40 = none := by
    have hlow : getBe32 p 44 = none := by
      rw [getBe32, Bytes.slice, if_neg (by omega)]
      rfl
    simp [getBe64, hlow]
  cases p with
  | nil => cases htype
  | cons type rest =>
    obtain rfl : type = ch 'P' := Option.some.inj htype
    show sized 44 _ (Trade.decode _) .trade = none
    rw [sized, if_neg (not_not_intro hsize)]
    simp [Trade.decode, hmatch]

/-- A string of the type and size of a message that is not a trade. -/
theorem decode_of_sized {p : List UInt8} (hsized : Sized p)
    (htrade : ¬ (p[0]? = some (ch 'P') ∧ p.length = 44)) :
    ∃ m, m.InRange ∧ decode p = some (some m) ∧ m.encode = some p := by
  have htype : p[0]? ≠ some (ch 'P') := by
    intro hP
    obtain ⟨type, htype, hmem⟩ := hsized
    cases hP.symm.trans htype
    refine htrade ⟨hP, ?_⟩
    generalize p.length = n at hmem
    simpa [kSizes, ch] using hmem
  -- the string is a message, and decoding gives that message
  obtain ⟨m, hrange, hfits, hencode⟩ := exists_message hsized htype
  obtain ⟨p', hencode', -, hdecode⟩ := decode_encode m hfits
  cases hencode.symm.trans hencode'
  rw [hrange.onWire] at hdecode
  exact ⟨m, hrange, hdecode, hencode⟩

/-- What is decoded is in range. -/
theorem inRange_of_decode {p : List UInt8} {m : Message} (h : decode p = some (some m)) :
    m.InRange := by
  have hsized : Sized p := by
    by_contra hnot
    cases h.symm.trans (decode_of_not_sized hnot)
  have htrade : ¬ (p[0]? = some (ch 'P') ∧ p.length = 44) := by
    rintro ⟨htype, hsize⟩
    cases h.symm.trans (decode_trade htype hsize)
  obtain ⟨m', hrange, hdecode, -⟩ := decode_of_sized hsized htrade
  cases h.symm.trans hdecode
  exact hrange

/-- Only the decoder of a trade reads outside the message. -/
theorem decode_eq_none_iff (p : List UInt8) :
    decode p = none ↔ p[0]? = some (ch 'P') ∧ p.length = 44 := by
  constructor
  · intro hnone
    by_contra htrade
    by_cases hsized : Sized p
    · obtain ⟨m, -, hdecode, -⟩ := decode_of_sized hsized htrade
      cases hnone.symm.trans hdecode
    · cases hnone.symm.trans (decode_of_not_sized hsized)
  · rintro ⟨htype, hsize⟩
    exact decode_trade htype hsize

/-- **The codec is a bijection, trades apart.** A message in range is read back
    as it was exactly when it is not a trade. A string of bytes, unless it has
    the type and size of a trade, decodes to a message exactly when it has the
    type and size of one, and that message is encoded to the string again. -/
theorem codec_bijective_iff (m : Message) (p : List UInt8) :
    (m.InRange →
      ((∃ p, m.encode = some p ∧ p.length = m.size ∧ decode p = some (some m)) ↔ m.Fits)) ∧
    ((∃ r, decode p = some r ∧ (r.isSome ↔ Sized p) ∧ ∀ m, r = some m → m.encode = some p) ↔
      ¬ (p[0]? = some (ch 'P') ∧ p.length = 44)) := by
  constructor
  · intro hrange
    constructor
    · rintro ⟨p, hencode, -, -⟩
      cases m with
      | trade m =>
        rw [encode_trade] at hencode
        cases hencode
      | _ => trivial
    · intro hfits
      obtain ⟨p, hencode, hlength, hdecode⟩ := decode_encode m hfits
      exact ⟨p, hencode, hlength, by rw [hdecode, hrange.onWire]⟩
  · constructor
    · rintro ⟨r, hdecode, -⟩ ⟨htype, hsize⟩
      rw [decode_trade htype hsize] at hdecode
      cases hdecode
    · intro htrade
      by_cases hsized : Sized p
      · obtain ⟨m, -, hdecode, hencode⟩ := decode_of_sized hsized htrade
        refine ⟨some m, hdecode, iff_of_true rfl hsized, ?_⟩
        intro m' hm'
        cases hm'
        exact hencode
      · refine ⟨none, decode_of_not_sized hsized, ?_, ?_⟩
        · exact iff_of_false (by simp) hsized
        · intro m hm
          cases hm

/-- Encoding a trade writes outside its buffer, and decoding one reads outside
    it. -/
theorem trade_outside_buffer :
    (Message.trade ⟨⟨0, 0, 0⟩, 0, 0, 0, Vector.replicate 8 0, 0, 0⟩).InRange ∧
    (Message.trade ⟨⟨0, 0, 0⟩, 0, 0, 0, Vector.replicate 8 0, 0, 0⟩).encode = none ∧
    decode (ch 'P' :: List.replicate 43 0) = none := by
  refine ⟨⟨?_, by decide, by decide⟩, encode_trade _, decode_trade rfl rfl⟩
  unfold Header.InRange
  decide

end Itch

end MatchingEngine
