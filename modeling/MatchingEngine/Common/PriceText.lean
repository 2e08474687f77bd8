import MatchingEngine.Common.Types
import MatchingEngine.Lib.Decimal
import Mathlib.Data.Int.Order.Lemmas

/-! # Printed prices (`price_to_string` in `common/types.hpp`)

    A price is printed as its quotient by 10000, a point, and the remainder filled
    with zeros to four places. Quotient and remainder of a negative price are both
    rounded towards zero, so the remainder has a sign of its own, which takes one
    of the four places.

    * A price that is not negative, or is a whole number of dollars, is printed
      as it is (`price_prints_iff`).
    * In any other price the sign is printed behind the point. If the remainder
      has four digits, the number of zeros wraps around, and the append throws
      (`priceToString_eq_none_iff`).
-/

namespace MatchingEngine

open Decimal

/-! ## Section 1: Model -/

def kPriceScale : Price := 10000

/-- `std::to_string` of a signed number. -/
def toDecimalSigned (z : Int) : List UInt8 :=
  if z < 0 then ch '-' :: toDecimal z.natAbs else toDecimal z.natAbs

/-- `std::string::max_size`. -/
def kMaxSize : Nat := 2 ^ 63 - 1

/-- `s.append(count, c)`. A string that would get too long is a `std::length_error`. -/
def appendFill (s : List UInt8) (count : UInt64) (c : UInt8) : Option (List UInt8) :=
  if s.length + count.toNat ≤ kMaxSize then some (s ++ List.replicate count.toNat c) else none

def priceToString (p : Price) : Option (List UInt8) := do
  let s := toDecimalSigned (p.tdiv kPriceScale)
  let s := s ++ [ch '.']
  let frac := toDecimalSigned (p.tmod kPriceScale)
  let s ← appendFill s (4 - UInt64.ofNat frac.length) (ch '0')
  some (s ++ frac)

/-! ## Section 2: Four places -/

/-- The remainder, filled with zeros. -/
def places (r : Int) : List UInt8 := List.replicate (4 - (signed r).length) 48 ++ signed r

theorem length_signed_le_iff {r : Int} : (signed r).length ≤ 4 ↔ -1000 < r ∧ r < 10000 := by
  rcases Int.lt_or_le r 0 with hneg | hnonneg
  · have hdigits := length_digits_le_iff (n := r.natAbs) (k := 3) (by decide)
    rw [signed_of_neg hneg, List.length_cons]
    omega
  · have hdigits := length_digits_le_iff (n := r.natAbs) (k := 4) (by decide)
    rw [signed_of_nonneg hnonneg]
    omega

theorem length_places {r : Int} (h : -1000 < r ∧ r < 10000) : (places r).length = 4 := by
  have hle := length_signed_le_iff.mpr h
  rw [places, List.length_append, List.length_replicate]
  omega

/-- Without a sign they are digits, and their value is the remainder. -/
theorem places_of_nonneg {r : Int} (h : 0 ≤ r) :
    (∀ c ∈ places r, IsDigit c) ∧ value (places r) = r.natAbs := by
  rw [places, signed_of_nonneg h]
  constructor
  · intro c hc
    rcases List.mem_append.mp hc with hc | hc
    · rw [List.eq_of_mem_replicate hc]
      decide
    · exact isDigit_of_mem_digits hc
  · rw [value_zeros, value_digits]

/-- A sign among them is no digit. -/
theorem sign_mem_places {r : Int} (h : r < 0) : 45 ∈ places r := by
  rw [places, signed_of_neg h]
  exact List.mem_append_right _ List.mem_cons_self

/-- The integer part has at most 16 characters. -/
theorem length_quotient_le (p : Int64) : (signed (p.toInt.tdiv 10000)).length ≤ 16 := by
  have hlow := p.le_toInt
  have hhigh := p.toInt_lt
  have hdigits := length_digits_le_iff (n := (p.toInt.tdiv 10000).natAbs) (k := 15) (by decide)
  have hquotient : (p.toInt.tdiv 10000).natAbs < 10 ^ 15 := by
    rw [Int.natAbs_tdiv]
    show p.toInt.natAbs / 10000 < 10 ^ 15
    omega
  rw [signed]
  split
  · rw [List.length_cons]
    omega
  · omega

/-- The text in terms of the library. -/
theorem priceToString_append (p : Price) : priceToString p =
    (appendFill (signed (p.tdiv 10000) ++ [46])
      (4 - UInt64.ofNat (signed (p.tmod 10000)).length) 48).map
        (fun s => s ++ signed (p.tmod 10000)) := by
  rw [Option.map_eq_bind]
  rfl

theorem priceToString_eq {p : Int64} (h : -1000 < p.toInt.tmod 10000) :
    priceToString p.toInt =
      some (signed (p.toInt.tdiv 10000) ++ 46 :: places (p.toInt.tmod 10000)) := by
  have hquotient := length_quotient_le p
  have hle := length_signed_le_iff.mpr ⟨h, Int.tmod_lt_of_pos _ (by decide)⟩
  have hcount : (4 - UInt64.ofNat (signed (p.toInt.tmod 10000)).length).toNat =
      4 - (signed (p.toInt.tmod 10000)).length := by
    have hwrap : (UInt64.ofNat (signed (p.toInt.tmod 10000)).length).toNat =
        (signed (p.toInt.tmod 10000)).length := by
      rw [UInt64.toNat_ofNat', Nat.mod_eq_of_lt (by omega)]
    rw [UInt64.toNat_sub_of_le _ _ (by rw [UInt64.le_iff_toNat_le, hwrap]; exact hle), hwrap]
    rfl
  have hfits : (signed (p.toInt.tdiv 10000) ++ [46]).length +
      (4 - (signed (p.toInt.tmod 10000)).length) ≤ kMaxSize := by
    rw [List.length_append, List.length_singleton]
    unfold kMaxSize
    omega
  rw [priceToString_append, appendFill, hcount, if_pos hfits, Option.map_some, places,
    List.append_assoc, List.append_assoc]
  rfl

/-- Four digits and a sign: the number of zeros is 2^64 - 1. -/
theorem priceToString_of_le {p : Price} (h : p.tmod 10000 ≤ -1000) : priceToString p = none := by
  have hmod : -10000 < p.tmod 10000 := Int.lt_tmod_of_pos p (by decide)
  have hlength : (signed (p.tmod 10000)).length = 5 := by
    have hle := length_digits_le_iff (n := (p.tmod 10000).natAbs) (k := 4) (by decide)
    have hgt := length_digits_le_iff (n := (p.tmod 10000).natAbs) (k := 3) (by decide)
    rw [signed_of_neg (by omega), List.length_cons]
    omega
  have hcount : (4 - UInt64.ofNat 5).toNat = 2 ^ 64 - 1 := by decide
  rw [priceToString_append, hlength, appendFill, hcount, if_neg]
  · rfl
  · unfold kMaxSize
    omega

/-- **When printing throws.** -/
theorem priceToString_eq_none_iff (p : Int64) :
    priceToString p.toInt = none ↔ p.toInt.tmod 10000 ≤ -1000 := by
  constructor
  · intro hnone
    by_contra hlarge
    cases hnone.symm.trans (priceToString_eq (Int.not_le.mp hlarge))
  · exact priceToString_of_le

/-- The same of an integer that has 64 bits. -/
theorem priceToString_eq_none_iff_of_lt {p : Price} (h : p.natAbs < 2 ^ 63) :
    priceToString p = none ↔ p.tmod 10000 ≤ -1000 := by
  have hp : (Int64.ofInt p).toInt = p := Int64.toInt_ofInt_of_le (by omega) (by omega)
  rw [← hp]
  exact priceToString_eq_none_iff _

/-! ## Section 3: Faithful texts -/

/-- The price is printed, as a text that stands for it. -/
def Printed (p : Price) : Prop := ∃ s, priceToString p = some s ∧ Denotes 4 s p

theorem tmod_nonpos {p : Price} (h : p ≤ 0) : p.tmod 10000 ≤ 0 := by
  have hneg := Int.tmod_nonneg 10000 (Int.neg_nonneg.mpr h)
  rw [Int.neg_tmod] at hneg
  omega

/-- Without a sign behind the point, the text stands for the price. -/
theorem printed_of_nonneg {p : Int64} (h : 0 ≤ p.toInt.tmod 10000) : Printed p.toInt := by
  have hmod : p.toInt.tmod 10000 < 10000 := Int.tmod_lt_of_pos _ (by decide)
  have hsplit := Int.tmod_add_mul_tdiv p.toInt 10000
  obtain ⟨hdigits, hvalue⟩ := places_of_nonneg h
  have hlength := length_places (r := p.toInt.tmod 10000) ⟨by omega, hmod⟩
  have hwhole : ∀ c ∈ digits (p.toInt.tdiv 10000).natAbs, IsDigit c :=
    fun c hc => isDigit_of_mem_digits hc
  have hne := digits_ne_nil (p.toInt.tdiv 10000).natAbs
  refine ⟨_, priceToString_eq (by omega), ?_⟩
  rcases Int.lt_or_le (p.toInt.tdiv 10000) 0 with hneg | hnonneg
  · -- a negative price without a remainder
    have hle : p.toInt ≤ 0 := by
      omega
    have hzero := tmod_nonpos hle
    rw [signed_of_neg hneg]
    refine ⟨[45], digits (p.toInt.tdiv 10000).natAbs, places (p.toInt.tmod 10000), rfl, hne, hwhole,
      hlength, hdigits, .inr ⟨rfl, ?_⟩⟩
    rw [hvalue, value_digits]
    omega
  · rw [signed_of_nonneg hnonneg]
    refine ⟨[], digits (p.toInt.tdiv 10000).natAbs, places (p.toInt.tmod 10000), rfl, hne, hwhole,
      hlength, hdigits, .inl ⟨rfl, ?_⟩⟩
    rw [hvalue, value_digits]
    omega

/-- A text that stands for any price has no sign behind the point. -/
theorem nonneg_of_denotes {p : Int64} {s : List UInt8} {z : Int}
    (hs : priceToString p.toInt = some s) (h : Denotes 4 s z) : 0 ≤ p.toInt.tmod 10000 := by
  have hlarge : -1000 < p.toInt.tmod 10000 := by
    by_contra hsmall
    cases hs.symm.trans (priceToString_of_le (Int.not_lt.mp hsmall))
  cases hs.symm.trans (priceToString_eq hlarge)
  by_contra hneg
  have hlength := length_places (r := p.toInt.tmod 10000) ⟨hlarge, Int.tmod_lt_of_pos _ (by decide)⟩
  exact absurd (h.digits_of_append hlength 45 (sign_mem_places (Int.not_le.mp hneg))) (by decide)

/-- **Which prices print faithfully.** Printing a 64-bit price gives an optional minus
    sign, an integer part, a point and four digits that stand for the price, and
    no other price is printed like that, exactly when the price is not negative or a
    whole number of dollars. -/
theorem price_prints_iff (p : Int64) :
    (Printed p.toInt ∧ ∀ q : Int64, priceToString q.toInt = priceToString p.toInt → q = p) ↔
      0 ≤ p.toInt ∨ 10000 ∣ p.toInt := by
  constructor
  · rintro ⟨⟨s, hs, hdenotes⟩, -⟩
    have hmod := nonneg_of_denotes hs hdenotes
    by_contra hcontra
    rw [not_or, Int.not_le] at hcontra
    have hzero := tmod_nonpos (Int.le_of_lt hcontra.1)
    exact hcontra.2 (Int.dvd_of_tmod_eq_zero (Int.le_antisymm hzero hmod))
  · intro h
    have hmod : 0 ≤ p.toInt.tmod 10000 := by
      rcases h with hnonneg | hdvd
      · exact Int.tmod_nonneg 10000 hnonneg
      · rw [Int.tmod_eq_zero_of_dvd hdvd]
    have hprinted := printed_of_nonneg hmod
    refine ⟨hprinted, ?_⟩
    intro q hq
    -- the text of `q` stands for `p`, and for `q`
    obtain ⟨s, hs, hdenotes⟩ := hprinted
    obtain ⟨s', hs', hdenotes'⟩ := printed_of_nonneg (nonneg_of_denotes (hq.trans hs) hdenotes)
    cases hs'.symm.trans (hq.trans hs)
    exact Int64.toInt_inj.mp (hdenotes'.unique hdenotes)

/-- A spread of -0.0005 is printed with the sign behind the point, and one of -0.1234
    is not printed. -/
theorem price_prints_wrong :
    priceToString (-5) = some (text "0.00-5") ∧ priceToString (-1234) = none := by
  decide

end MatchingEngine
