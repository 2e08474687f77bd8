import Mathlib.Order.Monotone.Basic
import Mathlib.Algebra.Order.Group.Nat
import Mathlib.Tactic.Ring

/-! # Log-linear buckets

    Numbers are put into buckets that grow with the numbers. There are `k` minor
    bits: the numbers below `2 ^ k` have a bucket each, and every octave above,
    from a power of two to the next, is cut into `2 ^ k` buckets of equal width.

    Bucket `e * 2 ^ k + q` with `2 ^ k ≤ q < 2 * 2 ^ k` holds the numbers whose
    quotient by `2 ^ e` is `q`. The buckets cover the numbers in order: `lower` is
    the first number of a bucket, it is strictly increasing, and the bucket of `v`
    is the last one that starts at or below `v` (`lower_slot_le`,
    `lt_lower_slot_succ`). What holds of `slot` and `upper` is read off from that.
-/

namespace LogLinear

variable {k e q s v : Nat}

/-- The bucket of a number: the octave and the bits behind the leading one. -/
def slot (k v : Nat) : Nat :=
  if v < 2 ^ k then v else (v.log2 - k + 1) * 2 ^ k + v / 2 ^ (v.log2 - k) % 2 ^ k

/-- The first number of a bucket. -/
def lower (k s : Nat) : Nat :=
  if s < 2 ^ k then s else (2 ^ k + s % 2 ^ k) * 2 ^ (s / 2 ^ k - 1)

/-- The number that stands for a bucket: the only one, or the first one behind it. -/
def upper (k s : Nat) : Nat :=
  if s < 2 ^ k then s else (2 ^ k + s % 2 ^ k + 1) * 2 ^ (s / 2 ^ k - 1)

/-! ### Octave and position -/

theorem slot_of_lt (h : v < 2 ^ k) : slot k v = v := if_pos h

theorem upper_of_lt (h : s < 2 ^ k) : upper k s = s := if_pos h

/-- Every bucket above the first `2 ^ k` has an octave and a position. -/
theorem exists_octave (h : 2 ^ k ≤ s) : ∃ e q, 2 ^ k ≤ q ∧ q < 2 * 2 ^ k ∧ s = e * 2 ^ k + q := by
  have hpos : 0 < 2 ^ k := Nat.two_pow_pos k
  have hmod : s % 2 ^ k < 2 ^ k := Nat.mod_lt s hpos
  have hdiv : 1 ≤ s / 2 ^ k := (Nat.le_div_iff_mul_le hpos).mpr (by omega)
  refine ⟨s / 2 ^ k - 1, 2 ^ k + s % 2 ^ k, by omega, by omega, ?_⟩
  obtain ⟨d, hd⟩ := Nat.exists_eq_add_of_le hdiv
  have hs := Nat.div_add_mod s (2 ^ k)
  rw [hd] at hs ⊢
  rw [Nat.add_sub_cancel_left]
  calc s = 2 ^ k * (1 + d) + s % 2 ^ k := hs.symm
    _ = d * 2 ^ k + (2 ^ k + s % 2 ^ k) := by ring

theorem octave_div_mod (hq : 2 ^ k ≤ q) (hq' : q < 2 * 2 ^ k) :
    (e * 2 ^ k + q) / 2 ^ k = e + 1 ∧ 2 ^ k + (e * 2 ^ k + q) % 2 ^ k = q := by
  obtain ⟨m, rfl⟩ := Nat.exists_eq_add_of_le hq
  have hpos : 0 < 2 ^ k := Nat.two_pow_pos k
  have hm : m < 2 ^ k := by omega
  have hsum : e * 2 ^ k + (2 ^ k + m) = m + 2 ^ k * (e + 1) := by ring
  rw [hsum, Nat.add_mul_div_left _ _ hpos, Nat.add_mul_mod_self_left, Nat.div_eq_of_lt hm,
    Nat.mod_eq_of_lt hm, Nat.zero_add]
  exact ⟨rfl, rfl⟩

theorem upper_octave (hq : 2 ^ k ≤ q) (hq' : q < 2 * 2 ^ k) :
    upper k (e * 2 ^ k + q) = (q + 1) * 2 ^ e := by
  obtain ⟨hdiv, hmod⟩ := octave_div_mod (e := e) hq hq'
  rw [upper, if_neg (by omega), hdiv, hmod, Nat.add_sub_cancel]

/-- The end of an octave is the start of the next one. -/
theorem lower_octave (hq : 2 ^ k ≤ q) (hq' : q ≤ 2 * 2 ^ k) :
    lower k (e * 2 ^ k + q) = q * 2 ^ e := by
  have hinside : ∀ {e q}, 2 ^ k ≤ q → q < 2 * 2 ^ k → lower k (e * 2 ^ k + q) = q * 2 ^ e := by
    intro e q hq hq'
    obtain ⟨hdiv, hmod⟩ := octave_div_mod (e := e) hq hq'
    rw [lower, if_neg (by omega), hdiv, hmod, Nat.add_sub_cancel]
  rcases Nat.lt_or_eq_of_le hq' with hlt | rfl
  · exact hinside hq hlt
  · have hpos : 0 < 2 ^ k := Nat.two_pow_pos k
    have hnext : e * 2 ^ k + 2 * 2 ^ k = (e + 1) * 2 ^ k + 2 ^ k := by ring
    rw [hnext, hinside (Nat.le_refl _) (by omega), Nat.pow_succ]
    ring

theorem lower_of_le (h : s ≤ 2 ^ k) : lower k s = s := by
  rcases Nat.lt_or_eq_of_le h with hlt | rfl
  · exact if_pos hlt
  · have hfirst := lower_octave (e := 0) (Nat.le_refl (2 ^ k)) (by omega)
    rwa [Nat.zero_mul, Nat.zero_add, Nat.pow_zero, Nat.mul_one] at hfirst

/-- The number for a bucket is the first one behind it, unless it is the only one. -/
theorem lower_succ (h : 2 ^ k ≤ s) : lower k (s + 1) = upper k s := by
  obtain ⟨e, q, hq, hq', rfl⟩ := exists_octave h
  rw [upper_octave hq hq', Nat.add_assoc, lower_octave (by omega) (by omega)]

/-! ### The order of the buckets -/

theorem lower_lt_succ (k s : Nat) : lower k s < lower k (s + 1) := by
  rcases Nat.lt_or_ge s (2 ^ k) with hs | hs
  · rw [lower_of_le (Nat.le_of_lt hs), lower_of_le hs]
    exact Nat.lt_succ_self s
  · obtain ⟨e, q, hq, hq', rfl⟩ := exists_octave hs
    rw [lower_succ hs, upper_octave hq hq', lower_octave hq (Nat.le_of_lt hq')]
    exact Nat.mul_lt_mul_of_pos_right (Nat.lt_succ_self q) (Nat.two_pow_pos e)

theorem lower_strictMono (k : Nat) : StrictMono (lower k) :=
  strictMono_nat_of_lt_succ (lower_lt_succ k)

theorem upper_mono (k : Nat) : Monotone (upper k) := by
  apply monotone_nat_of_le_succ
  intro s
  rcases Nat.lt_trichotomy (s + 1) (2 ^ k) with hs | hs | hs
  · rw [upper_of_lt (by omega), upper_of_lt hs]
    exact Nat.le_succ s
  · -- the last single number and the first number behind the first octave's first bucket
    rw [upper_of_lt (by omega), ← lower_succ (Nat.le_of_eq hs.symm)]
    calc s ≤ lower k (s + 1) := by rw [lower_of_le (Nat.le_of_eq hs)]; exact Nat.le_succ s
      _ ≤ lower k (s + 1 + 1) := Nat.le_of_lt (lower_lt_succ k _)
  · rw [← lower_succ (by omega : 2 ^ k ≤ s), ← lower_succ (by omega : 2 ^ k ≤ s + 1)]
    exact Nat.le_of_lt (lower_lt_succ k _)

/-! ### The bucket of a number -/

/-- A number that is not below `2 ^ k` lies in an octave. -/
theorem exists_quotient (h : 2 ^ k ≤ v) :
    2 ^ k ≤ v / 2 ^ (v.log2 - k) ∧ v / 2 ^ (v.log2 - k) < 2 * 2 ^ k ∧
      slot k v = (v.log2 - k) * 2 ^ k + v / 2 ^ (v.log2 - k) := by
  have hpos : 0 < 2 ^ k := Nat.two_pow_pos k
  have hne : v ≠ 0 := by omega
  have hlog : k ≤ v.log2 := (Nat.le_log2 hne).mpr h
  obtain ⟨e, he⟩ := Nat.exists_eq_add_of_le hlog
  have hlow := Nat.log2_self_le hne
  have hhigh := Nat.lt_log2_self (n := v)
  rw [he] at hlow hhigh
  have hquot : 2 ^ k ≤ v / 2 ^ e := by
    rw [Nat.le_div_iff_mul_le (Nat.two_pow_pos e), ← Nat.pow_add]
    exact hlow
  have hquot' : v / 2 ^ e < 2 * 2 ^ k := by
    rw [Nat.div_lt_iff_lt_mul (Nat.two_pow_pos e)]
    calc v < 2 ^ (k + e + 1) := hhigh
      _ = 2 * 2 ^ k * 2 ^ e := by ring
  rw [slot, if_neg (by omega), he, Nat.add_sub_cancel_left]
  refine ⟨hquot, hquot', ?_⟩
  obtain ⟨-, hmod⟩ := octave_div_mod (e := 0) hquot hquot'
  rw [Nat.zero_mul, Nat.zero_add] at hmod
  rw [Nat.succ_mul]
  omega

theorem lower_slot_le (k v : Nat) : lower k (slot k v) ≤ v := by
  rcases Nat.lt_or_ge v (2 ^ k) with hv | hv
  · rw [slot_of_lt hv, lower_of_le (Nat.le_of_lt hv)]
  · obtain ⟨hq, hq', hslot⟩ := exists_quotient hv
    rw [hslot, lower_octave hq (Nat.le_of_lt hq')]
    exact Nat.div_mul_le_self v _

theorem lt_lower_slot_succ (k v : Nat) : v < lower k (slot k v + 1) := by
  rcases Nat.lt_or_ge v (2 ^ k) with hv | hv
  · rw [slot_of_lt hv, lower_of_le hv]
    exact Nat.lt_succ_self v
  · obtain ⟨hq, hq', hslot⟩ := exists_quotient hv
    rw [hslot, Nat.add_assoc, lower_octave (by omega) (by omega)]
    exact Nat.lt_mul_of_div_lt (Nat.lt_succ_self _) (Nat.two_pow_pos _)

/-- The buckets are in the order of the numbers. -/
theorem slot_lt_iff : slot k v < s ↔ v < lower k s := by
  constructor
  · intro h
    exact Nat.lt_of_lt_of_le (lt_lower_slot_succ k v) ((lower_strictMono k).monotone h)
  · intro h
    exact (lower_strictMono k).lt_iff_lt.mp (Nat.lt_of_le_of_lt (lower_slot_le k v) h)

theorem slot_mono (k : Nat) : Monotone (slot k) := by
  intro v w h
  apply Nat.le_of_lt_succ
  rw [slot_lt_iff]
  exact Nat.lt_of_le_of_lt h (lt_lower_slot_succ k w)

/-- Numbers of `n` bits more than the minor ones need `n + 1` octaves. -/
theorem slot_lt_of_lt {n : Nat} (h : v < 2 ^ (k + n)) : slot k v < (n + 1) * 2 ^ k := by
  rw [slot_lt_iff, Nat.succ_mul, lower_octave (Nat.le_refl _) (by have := Nat.two_pow_pos k; omega),
    ← Nat.pow_add]
  exact h

/-! ### The error -/

/-- A bucket does not understate its numbers. -/
theorem le_upper_slot (k v : Nat) : v ≤ upper k (slot k v) := by
  rcases Nat.lt_or_ge v (2 ^ k) with hv | hv
  · rw [slot_of_lt hv, upper_of_lt hv]
  · have hslot : 2 ^ k ≤ slot k v := by
      obtain ⟨hq, -, hslot⟩ := exists_quotient hv
      rw [hslot]
      exact Nat.le_trans hq (Nat.le_add_left _ _)
    rw [← lower_succ hslot]
    exact Nat.le_of_lt (lt_lower_slot_succ k v)

/-- It overstates them by at most one part in `2 ^ k`. -/
theorem upper_slot_le (k v : Nat) : upper k (slot k v) ≤ v + v / 2 ^ k := by
  rcases Nat.lt_or_ge v (2 ^ k) with hv | hv
  · rw [slot_of_lt hv, upper_of_lt hv]
    exact Nat.le_add_right v _
  · obtain ⟨hq, hq', hslot⟩ := exists_quotient hv
    rw [hslot, upper_octave hq hq']
    generalize v.log2 - k = e at hq
    -- the width of the bucket
    have hwidth : 2 ^ e ≤ v / 2 ^ k := by
      rw [Nat.le_div_iff_mul_le (Nat.two_pow_pos k)]
      calc 2 ^ e * 2 ^ k ≤ 2 ^ e * (v / 2 ^ e) := Nat.mul_le_mul_left _ hq
        _ ≤ v := Nat.mul_div_le v _
    calc (v / 2 ^ e + 1) * 2 ^ e = v / 2 ^ e * 2 ^ e + 2 ^ e := Nat.succ_mul _ _
      _ ≤ v + v / 2 ^ k := Nat.add_le_add (Nat.div_mul_le_self v _) hwidth

end LogLinear
