import MatchingEngine.Lib.LogLinear
import Mathlib.Data.List.Count
import Mathlib.Data.Vector.Basic

/-! # The latency histogram (`common/histogram.hpp`)

    `LatencyHistogram` counts latencies, in nanoseconds, in 1024 log-linear buckets
    with four minor bits. `percentile` walks over the buckets up to the rank it
    looks for and reports the upper bound of the bucket it has come to.

    * The bucket is the one of the value with that rank (`percentile_rank`).
    * The bound of a bucket is at most one part in 16 above the values in it. Only
      the last bucket, which ends at 2^64, has a bound that does not fit into 64
      bits: it is reported as 0 (`buckets_bound_iff`).
-/

namespace MatchingEngine

/-! ## Section 1: Model -/

namespace LatencyHistogram

def kMinorBits : Nat := 4

/-- `std::countl_zero`. -/
def countlZero (v : UInt64) : Nat := v.toBitVec.clz.toNat

def slot (v : UInt64) : Nat :=
  if v.toNat < 1 <<< kMinorBits then v.toNat
  else
    let msb := 63 - countlZero v
    let major := msb - kMinorBits + 1
    let minor := (v.toNat >>> (msb - kMinorBits)) &&& ((1 <<< kMinorBits) - 1)
    (major <<< kMinorBits) + minor

/-- The shift is one of 64-bit numbers: bits that leave the word are lost. -/
def upperBound (s : Nat) : UInt64 :=
  let major := s >>> kMinorBits
  let minor := s &&& ((1 <<< kMinorBits) - 1)
  if major = 0 then UInt64.ofNat minor
  else
    let shift := major - 1
    UInt64.ofNat (((1 <<< kMinorBits) + minor + 1) <<< shift)

theorem countlZero_eq {v : UInt64} (h : v.toNat ≠ 0) : 63 - countlZero v = v.toNat.log2 := by
  have hne : v.toBitVec ≠ 0#64 := by
    intro heq
    exact h (congrArg BitVec.toNat heq)
  have hlow := BitVec.two_pow_sub_clz_le_toNat_of_ne_zero (by decide) hne
  have hhigh := BitVec.toNat_lt_two_pow_sub_clz (x := v.toBitVec)
  have hclz : countlZero v < 64 := BitVec.lt_def.mp (BitVec.clz_lt_iff_ne_zero.mpr hne)
  apply Eq.symm
  rw [Nat.log2_eq_iff h]
  refine ⟨hlow, ?_⟩
  have hsucc : 63 - countlZero v + 1 = 64 - countlZero v := by omega
  rw [hsucc]
  exact hhigh

theorem slot_eq (v : UInt64) : slot v = LogLinear.slot 4 v.toNat := by
  unfold slot LogLinear.slot
  by_cases hv : v.toNat < 2 ^ 4
  · rw [if_pos hv]
    exact if_pos hv
  · rw [if_neg hv]
    refine (if_neg hv).trans ?_
    dsimp only [kMinorBits]
    rw [countlZero_eq (by omega), Nat.shiftRight_eq_div_pow, Nat.shiftLeft_eq]
    exact congrArg _ (Nat.and_two_pow_sub_one_eq_mod _ 4)

theorem upperBound_eq (s : Nat) : upperBound s = UInt64.ofNat (LogLinear.upper 4 s) := by
  unfold upperBound LogLinear.upper
  dsimp only [kMinorBits]
  have hminor : s &&& ((1 <<< 4) - 1) = s % 2 ^ 4 := Nat.and_two_pow_sub_one_eq_mod s 4
  rw [Nat.shiftRight_eq_div_pow, hminor, Nat.shiftLeft_eq]
  by_cases hs : s < 2 ^ 4
  · rw [if_pos (Nat.div_eq_of_lt hs), if_pos hs, Nat.mod_eq_of_lt hs]
  · rw [if_neg (by omega), if_neg hs]
    rfl

theorem slot_lt (v : UInt64) : slot v < 1024 := by
  have hlt : v.toNat < 2 ^ (4 + 60) := v.toNat_lt
  rw [slot_eq]
  exact Nat.lt_of_lt_of_le (LogLinear.slot_lt_of_lt hlt) (by decide)

end LatencyHistogram

structure LatencyHistogram where
  buckets : Vector UInt64 1024 := Vector.replicate 1024 0
  count : UInt64 := 0
  max : UInt64 := 0
  min : UInt64 := 0

namespace LatencyHistogram

def record (h : LatencyHistogram) (ns : UInt64) : LatencyHistogram :=
  have hslot := slot_lt ns
  let count := h.count + 1
  { buckets := h.buckets.set (slot ns) (h.buckets[slot ns] + 1)
    count := count
    max := if h.max < ns then ns else h.max
    min := if ns < h.min ∨ count = 1 then ns else h.min }

/-- The rank that `percentile` looks for. The conversion of a number that is out of
    range has no defined result. -/
def target (h : LatencyHistogram) (p : Float) : Option UInt64 :=
  let x := h.count.toFloat * p / 100.0 + 0.5
  if -1 < x ∧ x < 18446744073709551616 then some x.toUInt64 else none

/-- The loop of `percentile`: the bucket where it returns. -/
def scan (target : UInt64) : List UInt64 → Nat → UInt64 → Option Nat
  | [], _, _ => none
  | b :: buckets, i, seen =>
    if target ≤ seen + b ∧ 0 < b then some i else scan target buckets (i + 1) (seen + b)

def percentile (h : LatencyHistogram) (p : Float) : Option UInt64 :=
  if h.count = 0 then some 0
  else do
    let target ← h.target p
    match scan target h.buckets.toList 0 0 with
    | some i => some (upperBound i)
    | none => some h.max

/-! ## Section 2: What was recorded -/

/-- The histogram of some values. -/
def recorded (values : List UInt64) : LatencyHistogram := values.foldl record {}

/-- The buckets count the values, and the largest one is kept. The counters have 64
    bits. -/
structure Holds (h : LatencyHistogram) (values : List UInt64) : Prop where
  buckets : ∀ i (hi : i < 1024), h.buckets[i] = UInt64.ofNat (values.countP (fun v => slot v = i))
  count : h.count = UInt64.ofNat values.length
  le_max : ∀ v ∈ values, v ≤ h.max
  max_mem : h.max ∈ values ∨ values = [] ∧ h.max = 0

theorem holds_new : Holds {} [] where
  buckets i hi := by simp
  count := rfl
  le_max v hv := by cases hv
  max_mem := .inr ⟨rfl, rfl⟩

theorem Holds.record {h : LatencyHistogram} {values : List UInt64} (hh : Holds h values)
    (ns : UInt64) : Holds (h.record ns) (values ++ [ns]) where
  buckets i hi := by
    have hone : values.countP (fun v => slot v = i) + [ns].countP (fun v => slot v = i) =
        if slot ns = i then values.countP (fun v => slot v = i) + 1
        else values.countP (fun v => slot v = i) := by
      by_cases hns : slot ns = i
      · simp [hns]
      · simp [hns]
    rw [List.countP_append, hone]
    show (h.buckets.set (slot ns) _ (slot_lt ns))[i] = _
    rw [Vector.getElem_set]
    split
    · rename_i hslot
      subst hslot
      rw [hh.buckets _ hi, UInt64.ofNat_add]
      rfl
    · exact hh.buckets i hi
  count := by
    show h.count + 1 = _
    rw [hh.count, List.length_append, UInt64.ofNat_add]
    rfl
  le_max v hv := by
    show v ≤ if h.max < ns then ns else h.max
    rcases List.mem_append.mp hv with hv | hv
    · have hle := hh.le_max v hv
      split
      · rename_i hlt
        exact UInt64.le_trans hle (UInt64.le_of_lt hlt)
      · exact hle
    · rw [List.mem_singleton.mp hv]
      split
      · exact UInt64.le_refl ns
      · rename_i hlt
        exact UInt64.not_lt.mp hlt
  max_mem := by
    show (if h.max < ns then ns else h.max) ∈ values ++ [ns] ∨ _
    left
    split
    · exact List.mem_append_right _ (List.mem_singleton.mpr rfl)
    · rename_i hlt
      rcases hh.max_mem with hmem | ⟨-, hzero⟩
      · exact List.mem_append_left _ hmem
      · -- nothing is larger than the initial 0 but a first value
        rw [hzero] at hlt ⊢
        have hns : ns = 0 := UInt64.le_antisymm (UInt64.not_lt.mp hlt) (UInt64.zero_le)
        rw [hns]
        exact List.mem_append_right _ (List.mem_singleton.mpr rfl)

theorem holds_recorded (values : List UInt64) : Holds (recorded values) values := by
  suffices hrun : ∀ h old, Holds h old →
    Holds (values.foldl LatencyHistogram.record h) (old ++ values) from hrun {} [] holds_new
  induction values with
  | nil =>
    intro h old hh
    rw [List.append_nil]
    exact hh
  | cons ns values ih =>
    intro h old hh
    have hrest := ih (h.record ns) (old ++ [ns]) (hh.record ns)
    rwa [List.append_assoc] at hrest

/-! ## Section 3: The rank -/

/-- The number of values in the buckets before `i`. -/
def below (values : List UInt64) (i : Nat) : Nat := values.countP (fun v => slot v < i)

theorem below_succ (values : List UInt64) (i : Nat) :
    below values (i + 1) = below values i + values.countP (fun v => slot v = i) := by
  induction values with
  | nil => rfl
  | cons v values ih =>
    unfold below at ih ⊢
    rw [List.countP_cons, List.countP_cons, List.countP_cons, ih]
    rcases Nat.lt_trichotomy (slot v) i with h | h | h
    · simp [h, Nat.lt_succ_of_lt h, Nat.ne_of_lt h]
      omega
    · simp [h]
      omega
    · simp [Nat.not_lt.mpr (Nat.le_of_lt h), Nat.not_lt.mpr h, Nat.ne_of_gt h]

theorem below_le (values : List UInt64) (i : Nat) : below values i ≤ values.length :=
  List.countP_le_length

theorem below_all (values : List UInt64) : below values 1024 = values.length := by
  rw [below, List.countP_eq_length]
  intro v _
  exact decide_eq_true (slot_lt v)

/-- Before bucket `i` the rank has not been reached. The loop returns from the bucket
    where it is, and from none if there is no such bucket. -/
theorem scan_rank {values : List UInt64} (hsize : values.length < 2 ^ 64) (target : UInt64) :
    ∀ {n i : Nat} {buckets : List UInt64}, buckets.length = n → i + n = 1024 →
      (∀ d (hd : d < buckets.length),
        buckets[d] = UInt64.ofNat (values.countP (fun v => slot v = i + d))) →
      below values i < Max.max target.toNat 1 →
      match scan target buckets i (UInt64.ofNat (below values i)) with
      | some j => j < 1024 ∧ below values j < Max.max target.toNat 1 ∧
          Max.max target.toNat 1 ≤ below values (j + 1)
      | none => values.length < Max.max target.toNat 1 := by
  intro n
  induction n with
  | zero =>
    intro i buckets hlength hi _ hbelow
    obtain rfl := List.eq_nil_of_length_eq_zero hlength
    obtain rfl : i = 1024 := hi
    rw [below_all] at hbelow
    exact hbelow
  | succ n ih =>
    intro i buckets hlength hi hbuckets hbelow
    cases buckets with
    | nil => cases hlength
    | cons b buckets =>
      -- the sum up to this bucket, which does not wrap
      have hb : b = UInt64.ofNat (values.countP (fun v => slot v = i)) := hbuckets 0 (by simp)
      have hseen : UInt64.ofNat (below values i) + b = UInt64.ofNat (below values (i + 1)) := by
        rw [hb, below_succ, UInt64.ofNat_add]
      have hwrap : (UInt64.ofNat (below values (i + 1))).toNat = below values (i + 1) := by
        rw [UInt64.toNat_ofNat', Nat.mod_eq_of_lt (Nat.lt_of_le_of_lt (below_le values _) hsize)]
      have hpos : 0 < b ↔ below values i < below values (i + 1) := by
        have hle := below_le values (i + 1)
        rw [below_succ] at hle ⊢
        rw [hb, UInt64.lt_iff_toNat_lt, UInt64.toNat_ofNat', Nat.mod_eq_of_lt (by omega)]
        show 0 < _ ↔ _
        omega
      have hreach : target ≤ UInt64.ofNat (below values (i + 1)) ↔
          target.toNat ≤ below values (i + 1) := by
        rw [UInt64.le_iff_toNat_le, hwrap]
      rw [scan, hseen]
      by_cases hstop : target ≤ UInt64.ofNat (below values (i + 1)) ∧ 0 < b
      · rw [if_pos hstop]
        rw [hreach, hpos] at hstop
        refine ⟨by omega, hbelow, ?_⟩
        omega
      · rw [if_neg hstop]
        rw [hreach, hpos] at hstop
        refine ih (by simpa using hlength) (by omega) ?_ ?_
        · intro d hd
          have hnext := hbuckets (d + 1) (by simpa using hd)
          rw [Nat.add_assoc, Nat.add_comm 1 d]
          exact hnext
        · have hstep : below values i ≤ below values (i + 1) := by
            rw [below_succ]
            exact Nat.le_add_right _ _
          omega

/-- **`percentile` finds its rank.** It reports the bound of the bucket that holds the
    value of that rank, in the order of the values, as long as these are fewer than
    2^64. A rank of 0 is taken for the first value, and a rank behind the last one gives
    the largest value. -/
theorem percentile_rank {values : List UInt64} (hne : values ≠ [])
    (hsize : values.length < 2 ^ 64) : ∃ report : UInt64 → UInt64,
      (∀ p, (recorded values).percentile p = ((recorded values).target p).map report) ∧
      ∀ target, if target.toNat ≤ values.length then
        ∃ i, report target = upperBound i ∧
          below values i < Max.max target.toNat 1 ∧ Max.max target.toNat 1 ≤ below values (i + 1)
      else report target ∈ values ∧ ∀ v ∈ values, v ≤ report target := by
  have hh := holds_recorded values
  have hlength : 0 < values.length := List.length_pos_iff.mpr hne
  have hcount : (recorded values).count ≠ 0 := by
    rw [hh.count]
    intro hzero
    have hnat := congrArg UInt64.toNat hzero
    rw [UInt64.toNat_ofNat', Nat.mod_eq_of_lt hsize] at hnat
    exact absurd hnat (Nat.ne_of_gt hlength)
  have hbuckets : ∀ d (hd : d < (recorded values).buckets.toList.length),
      (recorded values).buckets.toList[d] =
        UInt64.ofNat (values.countP (fun v => slot v = 0 + d)) := by
    intro d hd
    rw [Vector.getElem_toList, Nat.zero_add]
    exact hh.buckets d (by simpa using hd)
  have hstart : UInt64.ofNat (below values 0) = 0 := by simp [below]
  refine ⟨fun target => ((scan target (recorded values).buckets.toList 0 0).map upperBound).getD
    (recorded values).max, fun p => ?_, fun target => ?_⟩
  · rw [percentile, if_neg hcount]
    cases (recorded values).target p with
    | none => rfl
    | some target =>
      dsimp only [Option.bind_eq_bind, Option.bind_some, Option.map_some]
      cases scan target (recorded values).buckets.toList 0 0 <;> rfl
  · have hrank := scan_rank hsize target Vector.length_toList rfl hbuckets (by simp [below])
    rw [hstart] at hrank
    dsimp only
    cases hscan : scan target (recorded values).buckets.toList 0 0 with
    | some i =>
      rw [hscan] at hrank
      obtain ⟨-, hlow, hhigh⟩ := hrank
      have hle := below_le values (i + 1)
      rw [if_pos (by omega)]
      exact ⟨i, rfl, hlow, hhigh⟩
    | none =>
      rw [hscan] at hrank
      rw [if_neg (by dsimp only at hrank; omega)]
      exact ⟨hh.max_mem.resolve_right (fun h => hne h.1), hh.le_max⟩

/-- The first of two values. -/
theorem percentile_rank_two : ∃ report : UInt64 → UInt64,
    (∀ p, (recorded [5, 100]).percentile p = ((recorded [5, 100]).target p).map report) ∧
      ∃ i, report 1 = upperBound i ∧ below [5, 100] i < 1 ∧ 1 ≤ below [5, 100] (i + 1) := by
  obtain ⟨report, hreport, hrank⟩ := @percentile_rank [5, 100] nofun (by decide)
  exact ⟨report, hreport, hrank 1⟩

/-! ## Section 4: The error -/

/-- The last bucket that occurs starts at `31 * 2 ^ 59`. -/
theorem slot_lt_last_iff (v : UInt64) : slot v < 975 ↔ v.toNat < 31 * 2 ^ 59 := by
  have hlower : LogLinear.lower 4 975 = 31 * 2 ^ 59 :=
    LogLinear.lower_octave (k := 4) (e := 59) (q := 31) (by decide) (by decide)
  rw [slot_eq, LogLinear.slot_lt_iff, hlower]

/-- Below, the bound of a bucket fits into 64 bits. -/
theorem toNat_upperBound {s : Nat} (h : s < 975) : (upperBound s).toNat = LogLinear.upper 4 s := by
  have hupper : LogLinear.upper 4 974 = 31 * 2 ^ 59 :=
    LogLinear.upper_octave (k := 4) (e := 59) (q := 30) (by decide) (by decide)
  have hle : LogLinear.upper 4 s ≤ 31 * 2 ^ 59 := by
    rw [← hupper]
    exact LogLinear.upper_mono 4 (Nat.le_of_lt_succ h)
  rw [upperBound_eq, UInt64.toNat_ofNat', Nat.mod_eq_of_lt (by omega)]

/-- The bound of the last bucket is 2^64. -/
theorem upperBound_last : upperBound 975 = 0 := by decide +kernel

theorem slot_mono {v w : UInt64} (h : v ≤ w) : slot v ≤ slot w := by
  rw [slot_eq, slot_eq]
  exact LogLinear.slot_mono 4 (UInt64.le_iff_toNat_le.mp h)

/-- The bucket whose bound `percentile` reports. -/
def reported (h : LatencyHistogram) (p : Float) : Option Nat :=
  if h.count = 0 then none
  else do
    let target ← h.target p
    scan target h.buckets.toList 0 0

theorem percentile_of_reported {h : LatencyHistogram} {p : Float} {i : Nat}
    (hi : h.reported p = some i) : h.percentile p = some (upperBound i) := by
  unfold reported at hi
  unfold percentile
  by_cases hcount : h.count = 0
  · rw [if_pos hcount] at hi
    cases hi
  · rw [if_neg hcount] at hi ⊢
    obtain ⟨target, htarget, hscan⟩ := Option.bind_eq_some_iff.mp hi
    rw [htarget]
    dsimp only [Option.bind_eq_bind, Option.bind_some]
    rw [hscan]

theorem scan_nonempty {target : UInt64} {buckets : List UInt64} {i j : Nat} {seen : UInt64}
    (h : scan target buckets i seen = some j) : ∃ d b, j = i + d ∧
      buckets[d]? = some b ∧ 0 < b := by
  induction buckets generalizing i seen with
  | nil => cases h
  | cons b buckets ih =>
    rw [scan] at h
    split at h
    · rename_i hstop
      cases h
      exact ⟨0, b, rfl, rfl, hstop.2⟩
    · obtain ⟨d, b', rfl, hget, hpos⟩ := ih h
      exact ⟨d + 1, b', by omega, hget, hpos⟩

/-- There is a value in the bucket. -/
theorem exists_of_reported {values : List UInt64} {p : Float} {i : Nat}
    (h : (recorded values).reported p = some i) : ∃ v ∈ values, slot v = i := by
  unfold reported at h
  split at h
  · cases h
  · obtain ⟨target, -, hscan⟩ := Option.bind_eq_some_iff.mp h
    obtain ⟨d, b, rfl, hget, hpos⟩ := scan_nonempty hscan
    obtain ⟨hd, rfl⟩ := List.getElem?_eq_some_iff.mp hget
    rw [Nat.zero_add]
    rw [Vector.getElem_toList, (holds_recorded values).buckets d (by simpa using hd)] at hpos
    -- an empty bucket has count 0
    by_contra hnone
    have hzero : values.countP (fun v => slot v = d) = 0 := by
      rw [List.countP_eq_zero]
      intro v hv hslot
      exact hnone ⟨v, hv, of_decide_eq_true hslot⟩
    rw [hzero] at hpos
    exact absurd hpos (by decide)

/-- What is expected of the bucket of a value. -/
structure Bounded (v : UInt64) : Prop where
  mono : ∀ w ≤ v, upperBound (slot w) ≤ upperBound (slot v)
  le : v ≤ upperBound (slot v)
  near : (upperBound (slot v)).toNat ≤ v.toNat + v.toNat / 16 + 1
  percentile : ∀ values p, v ∈ values → (recorded values).reported p = some (slot v) →
    ∃ r, (recorded values).percentile p = some r ∧ v ≤ r ∧ r.toNat ≤ v.toNat + v.toNat / 16 + 1

theorem bounded_of_lt {v : UInt64} (h : v.toNat < 31 * 2 ^ 59) : Bounded v := by
  have hslot := (slot_lt_last_iff v).mpr h
  have hvalue := toNat_upperBound hslot
  have hle : v ≤ upperBound (slot v) := by
    rw [UInt64.le_iff_toNat_le, hvalue, slot_eq]
    exact LogLinear.le_upper_slot 4 v.toNat
  have hnear : (upperBound (slot v)).toNat ≤ v.toNat + v.toNat / 16 + 1 := by
    rw [hvalue, slot_eq]
    exact Nat.le_succ_of_le (LogLinear.upper_slot_le 4 v.toNat)
  refine ⟨?_, hle, hnear, ?_⟩
  · intro w hw
    have hmono := slot_mono hw
    rw [UInt64.le_iff_toNat_le, hvalue, toNat_upperBound (Nat.lt_of_le_of_lt hmono hslot)]
    exact LogLinear.upper_mono 4 hmono
  · intro values p _ hreported
    exact ⟨_, percentile_of_reported hreported, hle, hnear⟩

/-- **Buckets bound their values, the last one apart.** Every value has one of the
    1024 buckets, larger values have the same or later ones, and `percentile` reports
    buckets with values in them. The bound of the bucket of `v` is in the order of the
    buckets, not below `v` and at most one part in 16 above it, and so is what
    `percentile` reports for that bucket, exactly when `v` is less than `31 * 2 ^ 59`. -/
theorem buckets_bound_iff (v : UInt64) :
    slot v < 1024 ∧ (∀ w, v ≤ w → slot v ≤ slot w) ∧
      (∀ values p i, (recorded values).reported p = some i → ∃ w ∈ values, slot w = i) ∧
      (Bounded v ↔ v.toNat < 31 * 2 ^ 59) := by
  refine ⟨slot_lt v, fun w hw => slot_mono hw, fun values p i hi => exists_of_reported hi, ?_,
    bounded_of_lt⟩
  intro hbounded
  by_contra hlarge
  have hlast : slot v = 975 := by
    have hnot := mt (slot_lt_last_iff v).mp hlarge
    have hlt : v.toNat < 2 ^ (4 + 60) := v.toNat_lt
    have hslot := LogLinear.slot_lt_of_lt hlt
    rw [← slot_eq] at hslot
    omega
  have hle := hbounded.le
  rw [hlast, upperBound_last, UInt64.le_iff_toNat_le] at hle
  exact absurd hle (by show ¬ v.toNat ≤ 0; omega)

/-- The largest value, such as a latency of -1 ns, is reported as 0. -/
theorem last_bucket_wraps :
    slot 0xFFFFFFFFFFFFFFFF = 975 ∧ upperBound 975 = 0 ∧
      (recorded [0xFFFFFFFFFFFFFFFF]).percentile 100.0 = some 0 := by
  decide +kernel

end LatencyHistogram

end MatchingEngine
