import MatchingEngine.Common.Types
import MatchingEngine.Lib.Bytes
import MatchingEngine.Lib.Framing
import Mathlib.Data.UInt

/-! # Big-endian fields

    `common/endian.hpp`. A `put` function returns the bytes that the source
    writes, a `get` function reads them at an offset. A read that leaves the
    buffer is undefined behaviour and has no result.
-/

namespace MatchingEngine

open Bytes

def putBe16 (v : UInt16) : List UInt8 := toBe 2 v.toNat

def putBe32 (v : UInt32) : List UInt8 := toBe 4 v.toNat

/-- The low 6 bytes of `v`. -/
def putBe48 (v : UInt64) : List UInt8 := toBe 6 v.toNat

def putBe64 (v : UInt64) : List UInt8 := putBe32 (v >>> 32).toUInt32 ++ putBe32 v.toUInt32

def getBe16 (p : List UInt8) (i : Nat) : Option UInt16 :=
  (slice p i 2).map (fun bs => UInt16.ofNat (ofBe bs))

def getBe32 (p : List UInt8) (i : Nat) : Option UInt32 :=
  (slice p i 4).map (fun bs => UInt32.ofNat (ofBe bs))

def getBe48 (p : List UInt8) (i : Nat) : Option UInt64 :=
  (slice p i 6).map (fun bs => UInt64.ofNat (ofBe bs))

def getBe64 (p : List UInt8) (i : Nat) : Option UInt64 := do
  let high ← getBe32 p i
  let low ← getBe32 p (i + 4)
  some (high.toUInt64 <<< 32 ||| low.toUInt64)

/-- `p[i] = b`. -/
def putByte (b : UInt8) : List UInt8 := [b]

/-- `p[i]`. -/
def getByte (p : List UInt8) (i : Nat) : Option UInt8 := p[i]?

/-! ### Widths -/

@[simp] theorem length_putByte (b : UInt8) : (putByte b).length = 1 := by
  simp [putByte]

@[simp] theorem length_putBe16 (v : UInt16) : (putBe16 v).length = 2 := length_toBe _ _

@[simp] theorem length_putBe32 (v : UInt32) : (putBe32 v).length = 4 := length_toBe _ _

@[simp] theorem length_putBe48 (v : UInt64) : (putBe48 v).length = 6 := length_toBe _ _

@[simp] theorem length_putBe64 (v : UInt64) : (putBe64 v).length = 8 := by simp [putBe64]

/-- The two bytes of a 16-bit field. -/
theorem putBe16_eq_pair {n : Nat} {high low : UInt8} :
    putBe16 (UInt16.ofNat n) = [high, low] ↔ high.toNat * 256 + low.toNat = n % 2 ^ 16 := by
  have hvalue : ofBe [high, low] = high.toNat * 256 + low.toNat := by simp [ofBe]
  rw [putBe16, UInt16.toNat_ofNat', ← hvalue]
  constructor
  · intro h
    rw [← h, ofBe_toBe]
    exact Nat.mod_mod_of_dvd n (Nat.dvd_refl _)
  · intro h
    rw [← h]
    exact toBe_ofBe [high, low]

/-! ### Reading what was written

    A field is found behind the fields that stand before it, and read back as
    it was written. -/

section read

variable {x p : List UInt8} {i : Nat}

@[simp] theorem getBe16_skip (h : x.length ≤ i) :
    getBe16 (x ++ p) i = getBe16 p (i - x.length) := by
  rw [getBe16, slice_skip h, getBe16]

@[simp] theorem getBe32_skip (h : x.length ≤ i) :
    getBe32 (x ++ p) i = getBe32 p (i - x.length) := by
  rw [getBe32, slice_skip h, getBe32]

@[simp] theorem getBe48_skip (h : x.length ≤ i) :
    getBe48 (x ++ p) i = getBe48 p (i - x.length) := by
  rw [getBe48, slice_skip h, getBe48]

@[simp] theorem getBe64_skip (h : x.length ≤ i) :
    getBe64 (x ++ p) i = getBe64 p (i - x.length) := by
  have hlow : i + 4 - x.length = i - x.length + 4 := by omega
  rw [getBe64, getBe32_skip h, getBe32_skip (Nat.le_add_right_of_le h), hlow, getBe64]

@[simp] theorem getByte_skip (h : x.length ≤ i) : getByte (x ++ p) i = getByte p (i - x.length) :=
  List.getElem?_append_right h

@[simp] theorem getByte_here (b : UInt8) : getByte (putByte b ++ p) 0 = some b := rfl

@[simp] theorem getBe16_here (v : UInt16) : getBe16 (putBe16 v ++ p) 0 = some v := by
  rw [getBe16, slice_here (length_putBe16 v), Option.map_some, putBe16, ofBe_toBe]
  congr 1
  apply UInt16.toNat_inj.mp
  rw [UInt16.toNat_ofNat', show 256 ^ 2 = 2 ^ 16 from rfl, Nat.mod_mod, Nat.mod_eq_of_lt v.toNat_lt]

@[simp] theorem getBe32_here (v : UInt32) : getBe32 (putBe32 v ++ p) 0 = some v := by
  rw [getBe32, slice_here (length_putBe32 v), Option.map_some, putBe32, ofBe_toBe]
  congr 1
  apply UInt32.toNat_inj.mp
  rw [UInt32.toNat_ofNat', show 256 ^ 4 = 2 ^ 32 from rfl, Nat.mod_mod, Nat.mod_eq_of_lt v.toNat_lt]

/-- What is left of a 64-bit value in 6 bytes. -/
def low48 (v : UInt64) : UInt64 := UInt64.ofNat (v.toNat % 2 ^ 48)

@[simp] theorem getBe48_here (v : UInt64) : getBe48 (putBe48 v ++ p) 0 = some (low48 v) := by
  rw [getBe48, slice_here (length_putBe48 v), Option.map_some, putBe48, ofBe_toBe]
  rfl

/-- The two halves of a 64-bit value. -/
theorem halves (v : UInt64) :
    (v >>> 32).toUInt32.toUInt64 <<< 32 ||| v.toUInt32.toUInt64 = v := by
  have hv : v.toNat < 2 ^ 64 := v.toNat_lt
  have hhigh : (v >>> 32).toUInt32.toUInt64.toNat = v.toNat / 2 ^ 32 := by
    rw [UInt32.toNat_toUInt64, UInt64.toNat_toUInt32, UInt64.toNat_shiftRight,
      Nat.shiftRight_eq_div_pow]
    show v.toNat / 2 ^ 32 % 2 ^ 32 = v.toNat / 2 ^ 32
    exact Nat.mod_eq_of_lt (by omega)
  have hlow : v.toUInt32.toUInt64.toNat = v.toNat % 2 ^ 32 := by
    rw [UInt32.toNat_toUInt64, UInt64.toNat_toUInt32]
  apply UInt64.toNat_inj.mp
  rw [UInt64.toNat_or, UInt64.toNat_shiftLeft, hhigh, hlow]
  show (v.toNat / 2 ^ 32) <<< 32 % 2 ^ 64 ||| v.toNat % 2 ^ 32 = v.toNat
  -- the shifted high half and the low half have no bit in common
  rw [Nat.mod_eq_of_lt (by rw [Nat.shiftLeft_eq]; omega),
    ← Nat.shiftLeft_add_eq_or_of_lt (Nat.mod_lt _ (Nat.two_pow_pos 32)), Nat.shiftLeft_eq]
  omega

@[simp] theorem getBe64_here (v : UInt64) : getBe64 (putBe64 v ++ p) 0 = some v := by
  rw [putBe64, List.append_assoc, getBe64, getBe32_here, getBe32_skip (by simp), length_putBe32,
    Nat.zero_add, Nat.sub_self, getBe32_here]
  exact congrArg some (halves v)

end read

/-! ### Strings are made of fields -/

theorem covers_byte : Covers 1 (fun _ => True) putByte := by
  intro p hp
  obtain ⟨b, rfl⟩ := List.length_eq_one_iff.mp hp
  exact ⟨b, trivial, rfl⟩

theorem ofBe_lt_of_length {p : List UInt8} {k : Nat} (hp : p.length = k) : ofBe p < 256 ^ k :=
  hp ▸ ofBe_lt p

theorem covers_be16 : Covers 2 (fun _ => True) putBe16 := by
  intro p hp
  have hlt : ofBe p < 2 ^ 16 := ofBe_lt_of_length hp
  refine ⟨UInt16.ofNat (ofBe p), trivial, ?_⟩
  rw [putBe16, UInt16.toNat_ofNat', Nat.mod_eq_of_lt hlt, ← hp, toBe_ofBe]

theorem covers_be32 : Covers 4 (fun _ => True) putBe32 := by
  intro p hp
  have hlt : ofBe p < 2 ^ 32 := ofBe_lt_of_length hp
  refine ⟨UInt32.ofNat (ofBe p), trivial, ?_⟩
  rw [putBe32, UInt32.toNat_ofNat', Nat.mod_eq_of_lt hlt, ← hp, toBe_ofBe]

/-- A 48-bit field holds a value of 48 bits. -/
theorem covers_be48 : Covers 6 (fun v => v.toNat < 2 ^ 48) putBe48 := by
  intro p hp
  have hlt : ofBe p < 2 ^ 48 := ofBe_lt_of_length hp
  have hsame : (UInt64.ofNat (ofBe p)).toNat = ofBe p := by
    rw [UInt64.toNat_ofNat']
    exact Nat.mod_eq_of_lt (Nat.lt_trans hlt (by decide))
  refine ⟨UInt64.ofNat (ofBe p), hsame.trans_lt hlt, ?_⟩
  rw [putBe48, hsame, ← hp, toBe_ofBe]

theorem covers_be64 : Covers 8 (fun _ => True) putBe64 := by
  intro p hp
  obtain ⟨⟨high, low⟩, -, rfl⟩ := (covers_be32.append covers_be32) p hp
  have hh : high.toNat < 2 ^ 32 := high.toNat_lt
  have hl : low.toNat < 2 ^ 32 := low.toNat_lt
  obtain ⟨v, hv⟩ : ∃ v : UInt64, v.toNat = high.toNat * 2 ^ 32 + low.toNat := by
    refine ⟨UInt64.ofNat (high.toNat * 2 ^ 32 + low.toNat), ?_⟩
    rw [UInt64.toNat_ofNat']
    exact Nat.mod_eq_of_lt (by omega)
  have hhigh : (v >>> 32).toUInt32 = high := by
    apply UInt32.toNat_inj.mp
    rw [UInt64.toNat_toUInt32, UInt64.toNat_shiftRight, Nat.shiftRight_eq_div_pow, hv]
    show (high.toNat * 2 ^ 32 + low.toNat) / 2 ^ 32 % 2 ^ 32 = high.toNat
    omega
  have hlow : v.toUInt32 = low := by
    apply UInt32.toNat_inj.mp
    rw [UInt64.toNat_toUInt32, hv]
    omega
  exact ⟨v, trivial, by rw [putBe64, hhigh, hlow]⟩

/-! ### Strings behind their length

    Several formats put a string behind its length, in 16 bits. -/

def lengthPrefixed (m : List UInt8) : List UInt8 := putBe16 (UInt16.ofNat m.length) ++ m

/-- Strings behind their length, as far as they are accepted. -/
def lengthPrefixes (accepts : List UInt8 → Bool) : Framing UInt8 (List UInt8) :=
  Framing.headed 2 (by decide) ofBe (fun _ m => if accepts m then some m else none)

theorem ofBe_putBe16 (v : UInt16) : ofBe (putBe16 v) = v.toNat := by
  rw [putBe16, ofBe_toBe]
  exact Nat.mod_eq_of_lt v.toNat_lt

theorem putBe16_ofBe {x : List UInt8} (h : x.length = 2) : putBe16 (UInt16.ofNat (ofBe x)) = x := by
  have hlt : ofBe x < 2 ^ 16 := by
    have hlt := ofBe_lt x
    rwa [h] at hlt
  rw [putBe16, UInt16.toNat_ofNat', Nat.mod_eq_of_lt hlt, ← h, toBe_ofBe]

theorem toNat_ofNat_length {m : List UInt8} (h : m.length < 2 ^ 16) :
    (UInt16.ofNat m.length).toNat = m.length := by
  rw [UInt16.toNat_ofNat', Nat.mod_eq_of_lt h]

theorem lengthPrefixes_encodes (accepts : List UInt8 → Bool) :
    (lengthPrefixes accepts).Encodes (fun m => m.length < 2 ^ 16 ∧ accepts m = true)
      lengthPrefixed := by
  apply Framing.headed_encodes (fun m => putBe16 (UInt16.ofNat m.length)) (fun m => m)
  · intro m _
    exact length_putBe16 _
  · intro m hm
    rw [ofBe_putBe16, toNat_ofNat_length hm.1]
  · intro m hm
    exact if_pos hm.2
  · intro header m m' hheader hm hread
    split at hread
    · rename_i haccepts
      cases hread
      have hlt := ofBe_lt header
      rw [hheader, ← hm] at hlt
      exact ⟨⟨hlt, haccepts⟩, by rw [hm, putBe16_ofBe hheader], rfl⟩
    · cases hread

/-! ### Prices

    All protocols have 32 bits for a price, and no sign. -/

def PriceInRange (v : Price) : Prop := 0 ≤ v ∧ v < 2 ^ 32

theorem PriceInRange.toNat_ofInt {v : Price} (h : PriceInRange v) :
    ((UInt32.ofInt v).toNat : Int) = v := by
  obtain ⟨h₀, h₁⟩ := h
  rw [UInt32.ofInt, UInt32.toNat_ofNat']
  lia

theorem covers_price : Covers 4 PriceInRange (fun v => putBe32 (UInt32.ofInt v)) := by
  intro p hp
  obtain ⟨v, -, rfl⟩ := covers_be32 p hp
  have hlt : v.toNat < 2 ^ 32 := v.toNat_lt
  have hback : UInt32.ofInt (v.toNat : Int) = v := by
    apply UInt32.toNat_inj.mp
    rw [UInt32.ofInt, UInt32.toNat_ofNat']
    lia
  exact ⟨(v.toNat : Int), ⟨by lia, by lia⟩, congrArg putBe32 hback⟩

end MatchingEngine
