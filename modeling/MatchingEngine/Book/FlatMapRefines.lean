import MatchingEngine.Book.FlatMap
import MatchingEngine.Lib.Machine
import Mathlib.Data.Finmap

/-! # The index is a finite map

    A `FlatMap` is created for an expected number of entries and then driven by
    inserts and erases. It stays in lockstep with the finite map that the same calls
    build, and keeps the invariant of its table.

    The constructor doubles the capacity in `std::size_t`. If it has to go beyond
    2^61, `cap * 7` leaves the 64 bits. Up to there the loop is the exact one of
    `FlatMap.create` (`create64_eq`).
-/

namespace MatchingEngine

instance : CastU64 UInt64 := ⟨id⟩

namespace FlatMap

variable {K V : Type}

/-! ## Section 1: The constructor in 64 bits -/

/-- The sizing loop on `std::size_t`. When it has not stopped after 64 doublings, `cap`
    is 0 and it never stops. -/
def capFor64 (expected : UInt64) : Nat → UInt64 → Option UInt64
  | 0, _ => none
  | fuel + 1, cap => if cap * 7 < expected * 10 then capFor64 expected fuel (cap <<< 1)
      else some cap

def create64 (K V : Type) (expected : UInt64) : Option (FlatMap K V) :=
  (capFor64 expected 64 16).map (fun cap => { slots := List.replicate cap.toNat none, size := 0 })

/-- No product or shift of the loop leaves the 64 bits. -/
theorem capFor64_eq {expected : UInt64} (h : expected.toNat * 10 ≤ 7 * 2 ^ 61) (fuel : Nat) :
    ∀ {e : Nat} {cap : UInt64}, cap.toNat = 2 ^ e → e ≤ 61 → 61 < e + fuel →
      ∃ cap', capFor64 expected fuel cap = some cap' ∧
        cap'.toNat = capFor expected.toNat fuel cap.toNat := by
  have hexpected : (expected * 10).toNat = expected.toNat * 10 := by
    rw [UInt64.toNat_mul]
    exact Nat.mod_eq_of_lt (by show expected.toNat * 10 < 2 ^ 64; omega)
  induction fuel with
  | zero =>
    intro e cap _ he hfuel
    omega
  | succ fuel ih =>
    intro e cap hcap he hfuel
    have hle : 2 ^ e ≤ 2 ^ 61 := Nat.pow_le_pow_right (by decide) he
    have hseven : (cap * 7).toNat = cap.toNat * 7 := by
      rw [UInt64.toNat_mul]
      exact Nat.mod_eq_of_lt (by show cap.toNat * 7 < 2 ^ 64; omega)
    have htest : cap * 7 < expected * 10 ↔ cap.toNat * 7 < expected.toNat * 10 := by
      rw [UInt64.lt_iff_toNat_lt, hseven, hexpected]
    rw [capFor64, capFor]
    by_cases hless : cap.toNat * 7 < expected.toNat * 10
    · rw [if_pos (htest.mpr hless), if_pos hless]
      -- the capacity was below 2^61, so that it can be doubled
      have hlt : e < 61 := by
        rw [← Nat.pow_lt_pow_iff_right (a := 2) (by decide)]
        omega
      have hdouble : (cap <<< 1).toNat = cap.toNat * 2 := by
        rw [UInt64.toNat_shiftLeft]
        show (cap.toNat <<< 1) % 2 ^ 64 = _
        rw [Nat.shiftLeft_eq, Nat.pow_one]
        omega
      have hpow : (cap <<< 1).toNat = 2 ^ (e + 1) := by
        rw [hdouble, hcap, Nat.pow_succ]
      obtain ⟨cap', hrun, hcap'⟩ := ih hpow (by omega) (by omega)
      rw [hdouble] at hcap'
      exact ⟨cap', hrun, hcap'⟩
    · rw [if_neg (mt htest.mp hless), if_neg hless]
      exact ⟨cap, rfl, rfl⟩

theorem create64_eq {expected : UInt64} (h : expected.toNat * 10 ≤ 7 * 2 ^ 61) :
    create64 K V expected = some (create K V expected.toNat) := by
  have hpow : (16 : UInt64).toNat = 2 ^ 4 := rfl
  obtain ⟨cap, hcap, hvalue⟩ := capFor64_eq h 64 hpow (by decide) (by decide)
  rw [create64, hcap, Option.map_some, hvalue]
  rfl

/-- The capacity after some doublings. -/
def doubled (cap : UInt64) : Nat → UInt64
  | 0 => cap
  | n + 1 => doubled (cap <<< 1) n

theorem capFor64_eq_none {expected : UInt64} {fuel : Nat} :
    ∀ {cap : UInt64}, (∀ n < fuel, doubled cap n * 7 < expected * 10) →
      capFor64 expected fuel cap = none := by
  induction fuel with
  | zero =>
    intro cap _
    rfl
  | succ fuel ih =>
    intro cap h
    have hfirst : cap * 7 < expected * 10 := h 0 (Nat.succ_pos fuel)
    rw [capFor64, if_pos hfirst]
    exact ih (fun n hn => h (n + 1) (by omega))

/-- One entry more, and the loop does not stop: its products wrap around, and none
    reaches the expected size. -/
theorem create64_eq_none {expected : UInt64} (h : 7 * 2 ^ 61 < expected.toNat * 10)
    (h' : expected.toNat * 10 < 2 ^ 64) : create64 K V expected = none := by
  have hexpected : (expected * 10).toNat = expected.toNat * 10 := by
    rw [UInt64.toNat_mul]
    exact Nat.mod_eq_of_lt h'
  have hproducts : ∀ n < 64, (doubled 16 n * 7).toNat ≤ 7 * 2 ^ 61 := by decide
  rw [create64, capFor64_eq_none]
  · rfl
  · intro n hn
    rw [UInt64.lt_iff_toNat_lt, hexpected]
    exact Nat.lt_of_le_of_lt (hproducts n hn) h

/-! ## Section 2: The table -/

section table

variable [CastU64 K]

/-- No key occurs twice, at most 70% of the slots are used, one is empty, and all slots
    from the ideal position of a key to its slot, cyclically, are used. -/
structure Sound (m : FlatMap K V) : Prop where
  unique : ∀ {i j : Nat} {k : K} {v w : V}, m.slots[i]? = some (some (k, v)) →
    m.slots[j]? = some (some (k, w)) → i = j
  load : m.slots.countP Option.isSome * 10 ≤ m.slots.length * 7
  empty : ∃ u < m.slots.length, m.slots[u]? = some none
  chain : ∀ {i : Nat} {k : K} {v : V}, m.slots[i]? = some (some (k, v)) →
    ∃ e < m.slots.length, i = (m.ideal k + e) % m.slots.length ∧
      ∀ d ≤ e, Probing.Used m.slots ((m.ideal k + d) % m.slots.length)

theorem Models.sound {m : FlatMap K V} {f : K → Option V} (hm : m.Models f) : m.Sound where
  unique := hm.table.unique
  load := hm.size_eq ▸ hm.load
  empty := hm.table.empty
  chain := by
    intro i k v hi
    obtain ⟨e, he, hpos, hpath⟩ := hm.table.reach hi
    refine ⟨e, he, hpos, ?_⟩
    intro d hd
    rcases Nat.lt_or_eq_of_le hd with hlt | rfl
    · exact hpath d hlt
    · rw [← hpos]
      exact ⟨_, hi⟩

end table

/-! ## Section 3: Calls -/

inductive Call (K V : Type) where
  | insert (key : K) (val : V)
  | erase (key : K)

variable [DecidableEq K]

/-- The finite map after a call, with what `erase` returns. -/
def Call.apply (f : Finmap (fun _ : K => V)) :
    Call K V → Option (Finmap (fun _ : K => V) × Option Bool)
  | .insert key val => some (f.insert key val, none)
  | .erase key => some (f.erase key, some (f.lookup key).isSome)

theorem lookup_insert (f : Finmap (fun _ : K => V)) (key : K) (val : V) :
    (fun k => (f.insert key val).lookup k) =
      Function.update (fun k => f.lookup k) key (some val) := by
  funext k
  by_cases hk : k = key
  · rw [hk, Finmap.lookup_insert, Function.update_self]
  · rw [Finmap.lookup_insert_of_ne _ hk, Function.update_of_ne hk]

theorem lookup_erase (f : Finmap (fun _ : K => V)) (key : K) :
    (fun k => (f.erase key).lookup k) = Function.update (fun k => f.lookup k) key none := by
  funext k
  by_cases hk : k = key
  · rw [hk, Finmap.lookup_erase, Function.update_self]
  · rw [Finmap.lookup_erase_ne hk, Function.update_of_ne hk]

variable [CastU64 K]

def perform (m : FlatMap K V) : Call K V → Option (FlatMap K V × Option Bool)
  | .insert key val => (m.insert key val).map (fun m => (m, none))
  | .erase key => (m.erase key).map (fun (m, found) => (m, some found))

/-- From a sound table every call returns, with the answer of the finite map. -/
theorem perform_simulation :
    Machine.Simulation (fun (m : FlatMap K V) f => m.Models (fun k => f.lookup k))
    perform (fun f call => call.apply f) := by
  intro m f hm call
  cases call with
  | insert key val =>
    obtain ⟨m', hinsert, hm'⟩ := insert_spec hm key val
    rw [← lookup_insert] at hm'
    refine ⟨m', f.insert key val, none, ?_, rfl, hm'⟩
    rw [perform, hinsert]
    rfl
  | erase key =>
    obtain ⟨m', herase, hm'⟩ := erase_spec hm key
    rw [← lookup_erase] at hm'
    refine ⟨m', f.erase key, some (f.lookup key).isSome, ?_, rfl, hm'⟩
    rw [perform, herase]
    rfl

/-! ## Section 4: What a caller sees -/

/-- The table answers as the finite map: lookups, membership, the number of entries,
    and the entries that `for_each` visits, each of them once. -/
structure Implements (m : FlatMap K V) (f : Finmap (fun _ : K => V)) : Prop where
  find : ∀ key, m.find key = some (f.lookup key)
  contains : ∀ key, m.contains key = some (decide (key ∈ f))
  size : m.size = f.keys.card
  forEach : (m.entries.map (fun e => (⟨e.1, e.2⟩ : (_ : K) × V)) : Multiset ((_ : K) × V)) =
    f.entries

theorem Models.implements {m : FlatMap K V} {f : Finmap (fun _ : K => V)}
    (hm : m.Models (fun k => f.lookup k)) : m.Implements f where
  find := find_spec hm
  contains key := by
    rw [contains_spec hm]
    congr 1
    rw [Bool.eq_iff_iff, decide_eq_true_iff]
    exact Finmap.lookup_isSome
  size := by
    rw [hm.size_eq_length f.keys.nodup_toList, Finset.length_toList]
    intro k
    rw [Finset.mem_toList, Finmap.mem_keys]
    exact Finmap.lookup_isSome.symm
  forEach := by
    have hnodup : (m.entries.map (fun e => (⟨e.1, e.2⟩ : (_ : K) × V))).Nodup := by
      apply List.Nodup.of_map Sigma.fst
      rw [List.map_map]
      exact hm.nodup_keys
    rw [Multiset.Nodup.ext (Multiset.coe_nodup.mpr hnodup) f.nodup_entries]
    intro ⟨k, v⟩
    rw [← Finmap.lookup_eq_some_iff, ← hm.mem_entries]
    simp

/-- **`FlatMap` is a finite map.** Created for a number of entries for which the sizing
    loop does not overflow, and driven by any calls: the constructor and every call
    return, `erase` reports whether the key was there, and before, between and after
    the calls the table answers as the finite map and is sound. -/
theorem flatMap_implements (expected : UInt64) (hsize : expected.toNat * 10 ≤ 7 * 2 ^ 61)
    (calls : List (Call K V)) :
    ∃ m, create64 K V expected = some m ∧
      Machine.Lockstep (fun m f => m.Implements f ∧ m.Sound) perform (fun f call => call.apply f)
        m ∅ calls := by
  refine ⟨_, create64_eq hsize, ?_⟩
  apply perform_simulation.lockstep
  · intro m f hm
    exact ⟨hm.implements, hm.sound⟩
  · exact models_create expected.toNat

/-- A map for 16 entries with 64-bit keys: an entry is overwritten, and erased twice. -/
theorem flatMap_implements_small :
    ∃ m, create64 UInt64 Nat 16 = some m ∧
      Machine.Lockstep (fun m f => m.Implements f ∧ m.Sound) perform (fun f call => call.apply f)
        m ∅ [.insert 1 10, .insert 1 20, .erase 1, .erase 1] :=
  flatMap_implements 16 (by decide) _

end FlatMap

end MatchingEngine
