import Mathlib.Algebra.Order.Group.Nat
import Mathlib.Data.List.Basic
import Mathlib.Tactic.Ring

/-! # Decimal texts

    Numbers as strings of ASCII digits. `digits` writes a number and `value` reads
    one, and what was written is read back (`value_digits`), so that different
    numbers have different texts.

    `Denotes w s z` says that `s` is a fixed-point text with `w` places behind the
    point and that it stands for `z` units of the last place. A text stands for one
    number only (`Denotes.unique`).
-/

namespace Decimal

/-! ### Natural numbers -/

def IsDigit (c : UInt8) : Prop := 48 ≤ c ∧ c ≤ 57

instance (c : UInt8) : Decidable (IsDigit c) := inferInstanceAs (Decidable (_ ∧ _))

/-- The number that a string of digits stands for. -/
def value (s : List UInt8) : Nat := s.foldl (fun n c => 10 * n + (c.toNat - 48)) 0

/-- A number in digits, without leading zeros. -/
def digits (n : Nat) : List UInt8 := (Nat.toDigits 10 n).map (fun c => c.toNat.toUInt8)

theorem toNat_of_isDigit {c : Char} (h : c.isDigit = true) :
    48 ≤ c.toNat ∧ c.toNat ≤ 57 ∧ c.toNat.toUInt8.toNat = c.toNat := by
  obtain ⟨hlow, hhigh⟩ := Char.isDigit_iff_toNat.mp h
  refine ⟨hlow, hhigh, ?_⟩
  show (UInt8.ofNat c.toNat).toNat = c.toNat
  rw [UInt8.toNat_ofNat', Nat.mod_eq_of_lt]
  exact Nat.lt_of_le_of_lt hhigh (by decide)

theorem isDigit_of_mem_digits {n : Nat} {c : UInt8} (h : c ∈ digits n) : IsDigit c := by
  obtain ⟨d, hd, rfl⟩ := List.mem_map.mp h
  obtain ⟨hlow, hhigh, hvalue⟩ :=
    toNat_of_isDigit (Nat.isDigit_of_mem_toDigits (by decide) (by decide) hd)
  constructor
  · rw [UInt8.le_iff_toNat_le, hvalue]
    exact hlow
  · rw [UInt8.le_iff_toNat_le, hvalue]
    exact hhigh

theorem digits_ne_nil (n : Nat) : digits n ≠ [] := by
  intro h
  exact Nat.toDigits_ne_nil (List.map_eq_nil_iff.mp h)

theorem length_digits_le_iff {n k : Nat} (hk : 0 < k) : (digits n).length ≤ k ↔ n < 10 ^ k := by
  rw [digits, List.length_map, Nat.length_toDigits_le_iff (by decide) hk]

/-- A number is read back from its digits. -/
theorem value_digits (n : Nat) : value (digits n) = n := by
  have hfold : ∀ (cs : List Char), (∀ c ∈ cs, c.isDigit = true) → ∀ n,
      (cs.map (fun c => c.toNat.toUInt8)).foldl (fun n c => 10 * n + (c.toNat - 48)) n =
        Nat.ofDigitChars 10 cs n := by
    intro cs hcs
    induction cs with
    | nil =>
      intro n
      rfl
    | cons c cs ih =>
      intro n
      obtain ⟨-, -, hvalue⟩ := toNat_of_isDigit (hcs c List.mem_cons_self)
      rw [List.map_cons, List.foldl_cons, hvalue, Nat.ofDigitChars_cons]
      exact ih (fun d hd => hcs d (List.mem_cons_of_mem c hd)) _
  rw [value, digits, hfold _ (fun c hc => Nat.isDigit_of_mem_toDigits (by decide) (by decide) hc),
    Nat.ofDigitChars_toDigits (by decide) (by decide)]

/-- Leading zeros do not count. -/
theorem value_zeros (k : Nat) (s : List UInt8) : value (List.replicate k 48 ++ s) = value s := by
  induction k with
  | zero => rfl
  | succ k ih => exact ih

/-! ### Integers -/

/-- An integer in digits, behind a minus sign if it is negative. -/
def signed (z : Int) : List UInt8 := if z < 0 then 45 :: digits z.natAbs else digits z.natAbs

theorem signed_of_nonneg {z : Int} (h : 0 ≤ z) : signed z = digits z.natAbs :=
  if_neg (Int.not_lt.mpr h)

theorem signed_of_neg {z : Int} (h : z < 0) : signed z = 45 :: digits z.natAbs := if_pos h

/-! ### Fixed-point numbers -/

/-- `s` is a sign or none, an integer part, a point and `w` digits, and stands for
    `z` units of the last place. -/
def Denotes (w : Nat) (s : List UInt8) (z : Int) : Prop :=
  ∃ sign whole frac : List UInt8, s = sign ++ whole ++ 46 :: frac ∧ whole ≠ [] ∧
    (∀ c ∈ whole, IsDigit c) ∧ frac.length = w ∧ (∀ c ∈ frac, IsDigit c) ∧
    (sign = [] ∧ z = value whole * 10 ^ w + value frac ∨
      sign = [45] ∧ z = -(value whole * 10 ^ w + value frac))

/-- A minus sign is not the first digit of another number. -/
theorem sign_ne {whole whole' : List UInt8} (h : ∀ c ∈ whole, IsDigit c) :
    whole ≠ 45 :: whole' := by
  rintro rfl
  exact absurd (h 45 List.mem_cons_self) (by decide)

theorem Denotes.unique {w : Nat} {s : List UInt8} {z z' : Int} (h : Denotes w s z)
    (h' : Denotes w s z') : z = z' := by
  obtain ⟨sign, whole, frac, rfl, -, hwhole, hlength, -, hz⟩ := h
  obtain ⟨sign', whole', frac', heq, -, hwhole', hlength', -, hz'⟩ := h'
  -- the texts are cut at the same place
  obtain ⟨hfront, htail⟩ := List.append_inj' heq (by simp [hlength, hlength'])
  obtain rfl : frac = frac' := (List.cons_inj_right _).mp htail
  rcases hz with ⟨rfl, rfl⟩ | ⟨rfl, rfl⟩
  · rcases hz' with ⟨rfl, rfl⟩ | ⟨rfl, rfl⟩
    · obtain rfl : whole = whole' := hfront
      rfl
    · exact absurd hfront (sign_ne hwhole)
  · rcases hz' with ⟨rfl, rfl⟩ | ⟨rfl, rfl⟩
    · exact absurd hfront.symm (sign_ne hwhole')
    · obtain rfl : whole = whole' := (List.cons_inj_right _).mp hfront
      rfl

/-- The last places of a text that stands for a number are digits. -/
theorem Denotes.digits_of_append {w : Nat} {front back : List UInt8} {z : Int}
    (h : Denotes w (front ++ 46 :: back) z) (hw : back.length = w) : ∀ c ∈ back, IsDigit c := by
  obtain ⟨sign, whole, frac, heq, -, -, hlength, hfrac, -⟩ := h
  obtain ⟨-, htail⟩ := List.append_inj' heq (by simp [hlength, hw])
  obtain rfl : back = frac := (List.cons_inj_right _).mp htail
  exact hfrac

end Decimal
