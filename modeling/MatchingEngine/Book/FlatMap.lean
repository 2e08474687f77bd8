import MatchingEngine.Lib.Probing
import Mathlib.Data.List.Count
import Mathlib.Logic.Function.Basic
import Mathlib.Tactic.Linarith

/-! # The open-addressing index (`book/flat_map.hpp`)

    `FlatMap<K, V>`: linear probing, backward-shift deletion, growth above a
    load of 70%. A slot is `none` when its `used` flag is off; the stale key
    of an unused slot is never read.

    Every loop carries fuel, one unit per slot, and an operation answers
    `none` when it would read outside the array or never stop. `Models m f`
    says that `m` is a sound table for the finite map `f`; the theorems
    `find_spec`, `insert_spec` and `erase_spec` say that from such a map each
    operation does stop and does what the finite map does.
-/

namespace MatchingEngine

open Probing

/-- `static_cast<std::uint64_t>(key)`. -/
class CastU64 (K : Type) where
  castU64 : K → UInt64

instance : CastU64 Nat := ⟨UInt64.ofNat⟩

structure FlatMap (K V : Type) where
  slots : List (Option (K × V))
  size : Nat

namespace FlatMap

variable {K V : Type}

variable {m : FlatMap K V} {f : K → Option V} {k : K} {v : V}

/-! ## Section 1: Model -/

section model

/-- The sizing loop of the constructor: double `cap` until `expected` entries
    stay under the load limit. A 64-bit capacity doubles at most 64 times. -/
def capFor (expected : Nat) : Nat → Nat → Nat
  | 0, cap => cap
  | fuel + 1, cap => if cap * 7 < expected * 10 then capFor expected fuel (cap * 2) else cap

/-- The constructor. -/
def create (K V : Type) (expected : Nat) : FlatMap K V :=
  { slots := List.replicate (capFor expected 64 16) none, size := 0 }

def mask (m : FlatMap K V) : Nat := m.slots.length - 1

def next (m : FlatMap K V) (i : Nat) : Nat := (i + 1) &&& m.mask

variable [CastU64 K]

/-- Fibonacci hashing. -/
def ideal (m : FlatMap K V) (key : K) : Nat :=
  ((CastU64.castU64 key * 11400714819323198485) >>> 32).toNat &&& m.mask

variable [DecidableEq K]

/-- The probe loop of `find_slot`. The outer `none` is a probe that never
    stops, the inner one `kNpos`. -/
def findSlotLoop (m : FlatMap K V) (key : K) : Nat → Nat → Option (Option Nat)
  | 0, _ => none
  | fuel + 1, i =>
    match m.slots[i]? with
    | none => none
    | some none => some none
    | some (some (k, _)) =>
      if k = key then some (some i) else findSlotLoop m key fuel (m.next i)

def findSlot (m : FlatMap K V) (key : K) : Option (Option Nat) :=
  findSlotLoop m key m.slots.length (m.ideal key)

def contains (m : FlatMap K V) (key : K) : Option Bool :=
  (m.findSlot key).map Option.isSome

/-- `find`: the value at `key`, or a null pointer. -/
def find (m : FlatMap K V) (key : K) : Option (Option V) := do
  match ← m.findSlot key with
  | none => some none
  | some i =>
    match m.slots[i]? with
    | some (some (_, v)) => some (some v)
    | _ => none

/-- The probe loop of `insert`. -/
def insertLoop (m : FlatMap K V) (key : K) (val : V) : Nat → Nat → Option (FlatMap K V)
  | 0, _ => none
  | fuel + 1, i =>
    match m.slots[i]? with
    | none => none
    | some none => some { slots := m.slots.set i (some (key, val)), size := m.size + 1 }
    | some (some (k, _)) =>
      if k = key then some { m with slots := m.slots.set i (some (key, val)) }
      else insertLoop m key val fuel (m.next i)

/-- `insert`, with `grow` inlined: growing re-inserts every used slot into a
    table of twice the size. `depth` bounds the nesting of `insert` in `grow`. -/
def insertDepth : Nat → FlatMap K V → K → V → Option (FlatMap K V)
  | 0, _, _, _ => none
  | depth + 1, m, key, val => do
    let m ←
      if (m.size + 1) * 10 > m.slots.length * 7 then
        m.slots.foldlM
          (fun acc s => match s with
            | none => some acc
            | some (k, v) => insertDepth depth acc k v)
          { slots := List.replicate (m.slots.length * 2) none, size := 0 }
      else some m
    insertLoop m key val m.slots.length (m.ideal key)

/-- Inserts or overwrites. A re-insertion made by `grow` never grows again, so
    two levels are enough. -/
def insert (m : FlatMap K V) (key : K) (val : V) : Option (FlatMap K V) :=
  insertDepth 2 m key val

/-- The backward-shift loop of `erase`: returns the slots and the final hole. -/
def eraseLoop (m : FlatMap K V) :
    Nat → List (Option (K × V)) → Nat → Nat → Option (List (Option (K × V)) × Nat)
  | 0, _, _, _ => none
  | fuel + 1, slots, hole, j =>
    let j := m.next j
    match slots[j]? with
    | none => none
    | some none => some (slots, hole)
    | some (some (k, v)) =>
      let home := m.ideal k
      -- move `j` into the hole if its home does not lie in the cyclic `(hole, j]`
      if (if hole ≤ j then home ≤ hole ∨ j < home else home ≤ hole ∧ j < home) then
        eraseLoop m fuel (slots.set hole (some (k, v))) j j
      else eraseLoop m fuel slots hole j

def erase (m : FlatMap K V) (key : K) : Option (FlatMap K V × Bool) := do
  match ← m.findSlot key with
  | none => some (m, false)
  | some i =>
    let (slots, hole) ← eraseLoop m m.slots.length m.slots i i
    some ({ slots := slots.set hole none, size := m.size - 1 }, true)

/-- `for_each`: the entries, in slot order. -/
def entries (m : FlatMap K V) : List (K × V) := m.slots.filterMap id

end model

/-! ## Section 2: The invariant -/

theorem and_mask_eq_mod (hpow : ∃ n, m.slots.length = 2 ^ n) (x : Nat) :
    x &&& m.mask = x % m.slots.length := by
  obtain ⟨n, hn⟩ := hpow
  rw [mask, hn, Nat.and_two_pow_sub_one_eq_mod]

theorem next_eq (hpow : ∃ n, m.slots.length = 2 ^ n) (i : Nat) :
    m.next i = (i + 1) % m.slots.length :=
  and_mask_eq_mod hpow _

/-- Stepping `next` moves the offset by one. -/
theorem next_offset (hpow : ∃ n, m.slots.length = 2 ^ n) (i d : Nat) :
    m.next ((i + d) % m.slots.length) = (i + (d + 1)) % m.slots.length := by
  rw [next_eq hpow, Nat.mod_add_mod, Nat.add_assoc]

/-- A list with fewer occupied slots than slots has an empty one. -/
theorem exists_empty {α : Type} {l : List (Option α)}
    (h : l.countP Option.isSome < l.length) : ∃ u < l.length, l[u]? = some none := by
  by_contra hno
  have hall : l.countP Option.isSome = l.length := by
    rw [List.countP_eq_length]
    intro o ho
    obtain ⟨u, hu, rfl⟩ := List.mem_iff_getElem.mp ho
    cases hget : l[u] with
    | none => exact absurd ⟨u, hu, by rw [List.getElem?_eq_getElem hu, hget]⟩ hno
    | some _ => rfl
  omega

/-- Slots that are occupied at the same places are equally many. -/
theorem count_congr {l l' : List (Option (K × V))} (hlen : l'.length = l.length)
    (h : ∀ x, Used l' x ↔ Used l x) :
    l'.countP Option.isSome = l.countP Option.isSome := by
  have hmap : l'.map Option.isSome = l.map Option.isSome := by
    refine List.ext_getElem (by simpa using hlen) (fun x hx hx' => ?_)
    simp only [List.length_map] at hx hx'
    have hiff := h x
    simp only [Used, List.getElem?_eq_getElem hx, List.getElem?_eq_getElem hx',
      Option.some.injEq] at hiff
    simp only [List.getElem_map]
    cases h1 : l'[x] <;> cases h2 : l[x] <;> simp_all
  have hcount : ∀ l : List (Option (K × V)),
      l.countP Option.isSome = (l.map Option.isSome).countP id := by
    intro l; rw [List.countP_map]; rfl
  rw [hcount, hcount, hmap]

theorem absent_of_none (holds : ∀ k v, f k = some v ↔ some (k, v) ∈ m.slots) (hf : f k = none) :
    ∀ v, some (k, v) ∉ m.slots := by
  intro v hmem
  rw [(holds k v).mpr hmem] at hf
  simp at hf

theorem findSlotLoop_skips [DecidableEq K] (hpow : ∃ n, m.slots.length = 2 ^ n) (key : K) :
    Skips m.slots key (m.findSlotLoop key) := by
  intro fuel i k v hget hne
  rw [findSlotLoop, hget, ← next_eq hpow]
  exact if_neg hne

theorem insertLoop_skips [DecidableEq K] (hpow : ∃ n, m.slots.length = 2 ^ n) (key : K) (val : V) :
    Skips m.slots key (m.insertLoop key val) := by
  intro fuel i k v hget hne
  rw [insertLoop, hget, ← next_eq hpow]
  exact if_neg hne

theorem count_replicate_none (n : Nat) :
    (List.replicate n (none : Option (K × V))).countP Option.isSome = 0 := by
  simp [List.countP_replicate]

/-- The finite map after one write. -/
theorem holds_update [DecidableEq K] {slots slots' : List (Option (K × V))}
    (holds : ∀ k v, f k = some v ↔ some (k, v) ∈ slots)
    (hmem : ∀ k' v', some (k', v') ∈ slots' ↔
      (k' = k ∧ v' = v) ∨ (k' ≠ k ∧ some (k', v') ∈ slots)) (k' : K) (v' : V) :
    Function.update f k (some v) k' = some v' ↔ some (k', v') ∈ slots' := by
  rw [hmem]
  by_cases hk : k' = k
  · subst hk
    simp [eq_comm]
  · simp [hk, holds]

theorem capFor_pow (expected fuel : Nat) :
    ∀ {cap : Nat}, (∃ e, cap = 2 ^ e) → ∃ e, capFor expected fuel cap = 2 ^ e := by
  induction fuel with
  | zero => intro cap h; exact h
  | succ fuel ih =>
    intro cap ⟨e, he⟩
    simp only [capFor]
    split
    · exact ih ⟨e + 1, by rw [he, Nat.pow_succ]⟩
    · exact ⟨e, he⟩

theorem le_capFor (expected fuel : Nat) : ∀ cap, cap ≤ capFor expected fuel cap := by
  induction fuel with
  | zero => intro cap; exact Nat.le_refl _
  | succ fuel ih =>
    intro cap
    simp only [capFor]
    split
    · exact Nat.le_trans (by omega) (ih (cap * 2))
    · exact Nat.le_refl _

variable [CastU64 K]

/-- The hash depends on the number of slots only. -/
theorem ideal_congr {m' : FlatMap K V} (h : m'.slots.length = m.slots.length) :
    m'.ideal = m.ideal := by
  funext k
  simp only [ideal, mask, h]

theorem ideal_lt (hpow : ∃ n, m.slots.length = 2 ^ n) (k : K) : m.ideal k < m.slots.length := by
  rw [ideal, and_mask_eq_mod hpow]
  obtain ⟨n, hn⟩ := hpow
  exact Nat.mod_lt _ (by rw [hn]; positivity)

/-- `m` is a sound table whose entries are those of the finite map `f`. -/
structure Models (m : FlatMap K V) (f : K → Option V) : Prop where
  pow : ∃ n, m.slots.length = 2 ^ n
  big : 16 ≤ m.slots.length
  table : Table m.ideal m.slots
  size_eq : m.size = m.slots.countP Option.isSome
  load : m.size * 10 ≤ m.slots.length * 7
  holds : ∀ k v, f k = some v ↔ some (k, v) ∈ m.slots

/-- A table of empty slots is the empty map. -/
theorem models_empty {n : Nat} (hslots : m.slots = List.replicate n none) (hsize : m.size = 0)
    (hpow : ∃ e, n = 2 ^ e) (hbig : 16 ≤ n) : m.Models (fun _ => none) := by
  have hlen : m.slots.length = n := by simp [hslots]
  have hempty : ∀ {x : Nat} {entry : K × V}, m.slots[x]? ≠ some (some entry) := by
    intro x entry h
    have := List.mem_of_getElem? h
    rw [hslots] at this
    simp [List.mem_replicate] at this
  constructor
  · rw [hlen]; exact hpow
  · rw [hlen]; exact hbig
  · constructor
    · exact ideal_lt (by rw [hlen]; exact hpow)
    · intro i j k v w h _; exact absurd h hempty
    · intro i k v h; exact absurd h hempty
    · refine ⟨0, by omega, ?_⟩
      rw [hslots, List.getElem?_replicate, if_pos (by omega)]
  · rw [hsize, hslots, count_replicate_none]
  · rw [hsize]; omega
  · intro k v
    rw [hslots]
    simp [List.mem_replicate]

/-- A fresh map is empty. -/
theorem models_create (expected : Nat) : (create K V expected).Models (fun _ => none) :=
  models_empty rfl rfl (capFor_pow expected 64 ⟨4, rfl⟩) (le_capFor expected 64 16)

/-- `for_each` meets a key once. -/
theorem Models.nodup_keys (hm : m.Models f) : (m.entries.map Prod.fst).Nodup := by
  refine List.pairwise_map.mpr (List.pairwise_filterMap.mpr (List.pairwise_iff_getElem.mpr ?_))
  intro i j hi hj hij x hx y hy hxy
  -- a key has one slot
  have hxi : m.slots[i]? = some (some (x.1, x.2)) := by
    rw [List.getElem?_eq_getElem hi]
    exact congrArg some hx
  have hyj : m.slots[j]? = some (some (x.1, y.2)) := by
    rw [List.getElem?_eq_getElem hj, hxy]
    exact congrArg some hy
  exact absurd (hm.table.unique hxi hyj) (Nat.ne_of_lt hij)

theorem Models.mem_entries (hm : m.Models f) : (k, v) ∈ m.entries ↔ f k = some v := by
  simp [entries, hm.holds]

/-- The size is the number of keys. -/
theorem Models.size_eq_length (hm : m.Models f) {ks : List K} (hnd : ks.Nodup)
    (hks : ∀ k, k ∈ ks ↔ (f k).isSome) : m.size = ks.length := by
  have hmem : ∀ k, k ∈ m.entries.map Prod.fst ↔ k ∈ ks := by
    intro k
    rw [hks, Option.isSome_iff_exists]
    simp [hm.mem_entries]
  have hperm := (List.perm_ext_iff_of_nodup hm.nodup_keys hnd).mpr hmem
  rw [hm.size_eq, ← hperm.length_eq, List.length_map, entries]
  exact List.length_filterMap_eq_countP.symm

/-! ## Section 3: Searching -/

variable [DecidableEq K]

/-- `find_slot` returns the slot of a key that is present. -/
theorem findSlot_found (hm : m.Models f) {j : Nat} (hj : m.slots[j]? = some (some (k, v))) :
    m.findSlot k = some (some j) := by
  obtain ⟨e, he, rfl, hskip⟩ := search_found hm.table hj
  obtain ⟨fuel, hrun⟩ := (findSlotLoop_skips hm.pow k).reaches (ideal_lt hm.pow k) he hskip
  rw [findSlot, hrun]
  simp [findSlotLoop, hj]

/-- `find_slot` answers `kNpos` for a key that is absent. -/
theorem findSlot_absent (hm : m.Models f) (hk : ∀ v, some (k, v) ∉ m.slots) :
    m.findSlot k = some none := by
  obtain ⟨e, he, hnone, hskip⟩ := search_absent hm.table hk
  obtain ⟨fuel, hrun⟩ := (findSlotLoop_skips hm.pow k).reaches (ideal_lt hm.pow k) he hskip
  rw [findSlot, hrun]
  simp [findSlotLoop, hnone]

/-- **`find` is the lookup of the finite map**, and it stops. -/
theorem find_spec (hm : m.Models f) (k : K) : m.find k = some (f k) := by
  cases hf : f k with
  | none => simp [find, findSlot_absent hm (absent_of_none hm.holds hf)]
  | some v =>
    obtain ⟨j, hj⟩ := List.mem_iff_getElem?.mp ((hm.holds k v).mp hf)
    simp [find, findSlot_found hm hj, hj]

theorem contains_spec (hm : m.Models f) (k : K) : m.contains k = some (f k).isSome := by
  cases hf : f k with
  | none => simp [contains, findSlot_absent hm (absent_of_none hm.holds hf)]
  | some v =>
    obtain ⟨j, hj⟩ := List.mem_iff_getElem?.mp ((hm.holds k v).mp hf)
    simp [contains, findSlot_found hm hj]

/-! ## Section 4: Inserting -/

/-- The probe of `insert`, when one more entry stays under the load limit. -/
theorem insertLoop_spec (hm : m.Models f) (k : K) (v : V)
    (hroom : (m.size + 1) * 10 ≤ m.slots.length * 7) :
    ∃ m', m.insertLoop k v m.slots.length (m.ideal k) = some m' ∧
      m'.Models (Function.update f k (some v)) ∧ m'.slots.length = m.slots.length ∧
      m'.size ≤ m.size + 1 := by
  have hbig := hm.big
  cases hf : f k with
  | some w =>
    -- the key is present: its slot is overwritten
    obtain ⟨j, hj⟩ := List.mem_iff_getElem?.mp ((hm.holds k w).mp hf)
    have hlt : j < m.slots.length := (List.getElem?_eq_some_iff.mp hj).1
    obtain ⟨e, he, rfl, hskip⟩ := search_found hm.table hj
    obtain ⟨fuel, hrun⟩ := (insertLoop_skips hm.pow k v).reaches (ideal_lt hm.pow k) he hskip
    refine ⟨{ m with slots := m.slots.set ((m.ideal k + e) % m.slots.length) (some (k, v)) },
      by rw [hrun]; simp only [insertLoop, hj, if_true], ?_, by simp, by simp⟩
    constructor
    · simpa using hm.pow
    · simpa using hbig
    · rw [ideal_congr (m := m) (by simp)]
      exact table_overwrite hm.table hj
    · rw [hm.size_eq]
      refine (count_congr (by simp) (fun x => ?_)).symm
      rw [used_set hlt]
      constructor
      · rintro (rfl | hx)
        · exact ⟨_, hj⟩
        · exact hx
      · exact Or.inr
    · simpa using hm.load
    · refine holds_update hm.holds (mem_write hlt (fun h => ?_) (fun h => ?_))
      · rw [hj] at h; cases h; rfl
      · exact hm.table.unique h hj
  | none =>
    -- the key is absent: it goes into the empty slot that ends the search
    have habs := absent_of_none hm.holds hf
    obtain ⟨e, he, hnone, hskip⟩ := search_absent hm.table habs
    obtain ⟨fuel, hrun⟩ := (insertLoop_skips hm.pow k v).reaches (ideal_lt hm.pow k) he hskip
    have hlt : (m.ideal k + e) % m.slots.length < m.slots.length := Nat.mod_lt _ (by omega)
    have hget : m.slots[(m.ideal k + e) % m.slots.length] = none := by
      rw [List.getElem?_eq_getElem hlt] at hnone
      exact Option.some.inj hnone
    have hcount : (m.slots.set ((m.ideal k + e) % m.slots.length) (some (k, v))).countP
        Option.isSome = m.size + 1 := by
      rw [List.countP_set hlt, hget, hm.size_eq]
      simp
    refine ⟨⟨m.slots.set ((m.ideal k + e) % m.slots.length) (some (k, v)), m.size + 1⟩,
      by rw [hrun]; simp only [insertLoop, hnone], ?_, by simp, by simp⟩
    constructor
    · simpa using hm.pow
    · simpa using hbig
    · rw [ideal_congr (m := m) (by simp)]
      refine table_insert hm.table habs he ?_ ?_
      · intro d hd
        obtain ⟨k', v', hget', -⟩ := hskip d hd
        exact ⟨_, hget'⟩
      · obtain ⟨u, hu, hu'⟩ := exists_empty (l := m.slots.set ((m.ideal k + e) %
          m.slots.length) (some (k, v))) (by rw [hcount, List.length_set]; omega)
        rw [List.length_set] at hu
        rcases get_set_cases hu' with ⟨-, h1⟩ | ⟨hne, h1⟩
        · cases h1
        · exact ⟨u, hu, hne, h1⟩
    · exact hcount.symm
    · simpa using hroom
    · refine holds_update hm.holds (mem_write hlt (fun h => ?_) (fun h => ?_))
      · rw [hnone] at h; cases h
      · exact absurd (List.mem_of_getElem? h) (habs _)

/-- Writing the used slots of `rest` into a table that has room for them all. -/
theorem regrow_spec {L : Nat} (rest : List (Option (K × V))) :
    ∀ {acc : FlatMap K V} {g : K → Option V} {done : List (Option (K × V))},
      acc.Models g → acc.slots.length = L →
      (∀ k v, g k = some v ↔ some (k, v) ∈ done) →
      (∀ k v w, some (k, v) ∈ done → some (k, w) ∉ rest) →
      (rest.Pairwise fun s t => ∀ k v w, s = some (k, v) → t ≠ some (k, w)) →
      (acc.size + rest.countP Option.isSome) * 10 ≤ L * 7 →
      ∃ m' g', rest.foldlM
          (fun acc s => match s with
            | none => some acc
            | some (k, v) => insertDepth 1 acc k v) acc = some m' ∧
        m'.Models g' ∧ m'.slots.length = L ∧
        m'.size ≤ acc.size + rest.countP Option.isSome ∧
        ∀ k v, g' k = some v ↔ some (k, v) ∈ done ++ rest := by
  induction rest with
  | nil =>
    intro acc g done hacc hlen hg _ _ _
    exact ⟨acc, g, by simp, hacc, hlen, by simp, by simpa using hg⟩
  | cons s rest ih =>
    intro acc g done hacc hlen hg hdisj hpw hroom
    obtain ⟨hs, hrest⟩ := List.pairwise_cons.mp hpw
    cases s with
    | none =>
      have hstep := ih hacc hlen hg
        (fun k v w hd hr => hdisj k v w hd (List.mem_cons_of_mem _ hr)) hrest
        (by simpa using hroom)
      obtain ⟨m', g', hfold, hm', hl', hsz, hg'⟩ := hstep
      refine ⟨m', g', by simpa using hfold, hm', hl', by simpa using hsz, fun k v => ?_⟩
      rw [hg']
      simp
    | some entry =>
      obtain ⟨k, v⟩ := entry
      simp only [List.countP_cons, Option.isSome_some, if_true] at hroom
      -- the table has room, so this `insert` does not grow
      have hnogrow : ¬ (acc.size + 1) * 10 > acc.slots.length * 7 := by rw [hlen]; omega
      obtain ⟨acc', hins, hacc', hlen', hsize'⟩ := insertLoop_spec hacc k v (by omega)
      have hdepth : insertDepth 1 acc k v = some acc' := by
        simp only [insertDepth, if_neg hnogrow, Option.bind_eq_bind, Option.bind_some]
        exact hins
      have hfresh : ∀ w, some (k, w) ∉ done := fun w hd => hdisj k w v hd (by simp)
      have hg₁ : ∀ k' v', Function.update g k (some v) k' = some v' ↔
          some (k', v') ∈ done ++ [some (k, v)] := by
        intro k' v'
        by_cases hk : k' = k
        · subst hk
          have := hfresh v'
          simp [eq_comm, this]
        · simp [hk, hg]
      obtain ⟨m', g', hfold, hm', hl', hsz, hg'⟩ := ih hacc' (hlen'.trans hlen) hg₁
        (by
          intro k' v' w hd hr
          rcases List.mem_append.mp hd with hd | hd
          · exact hdisj k' v' w hd (List.mem_cons_of_mem _ hr)
          · rw [List.mem_singleton] at hd
            cases hd
            exact hs _ hr k v w rfl rfl)
        hrest (by omega)
      refine ⟨m', g', ?_, hm', hl', ?_, fun k' v' => ?_⟩
      · simp only [List.foldlM_cons, hdepth, Option.bind_eq_bind, Option.bind_some]
        exact hfold
      · simp only [List.countP_cons, Option.isSome_some, if_true]
        omega
      · rw [hg']
        simp

theorem insertDepth_grow {depth : Nat} (hgrow : (m.size + 1) * 10 > m.slots.length * 7) :
    insertDepth (depth + 1) m k v =
      (m.slots.foldlM
        (fun (acc : FlatMap K V) (s : Option (K × V)) => match s with
          | none => some acc
          | some (k, v) => insertDepth depth acc k v)
        ⟨List.replicate (m.slots.length * 2) none, 0⟩).bind
      (fun m => m.insertLoop k v m.slots.length (m.ideal k)) := by
  simp only [insertDepth, if_pos hgrow]
  rfl

/-- **`insert` is the update of the finite map**, growing included. -/
theorem insert_spec (hm : m.Models f) (k : K) (v : V) :
    ∃ m', m.insert k v = some m' ∧ m'.Models (Function.update f k (some v)) := by
  by_cases hgrow : (m.size + 1) * 10 > m.slots.length * 7
  · have hbig := hm.big
    have hload := hm.load
    obtain ⟨n, hn⟩ := hm.pow
    have hfresh : FlatMap.Models
        (⟨List.replicate (m.slots.length * 2) none, 0⟩ : FlatMap K V) (fun _ => none) :=
      models_empty rfl rfl ⟨n + 1, by rw [hn, Nat.pow_succ]⟩ (by omega)
    have hpw : m.slots.Pairwise fun s t => ∀ k v w, s = some (k, v) → t ≠ some (k, w) := by
      rw [List.pairwise_iff_getElem]
      intro i j hi hj hij k v w h1 h2
      have := hm.table.unique (by rw [List.getElem?_eq_getElem hi, h1])
        (by rw [List.getElem?_eq_getElem hj, h2])
      omega
    obtain ⟨m₁, g, hfold, hm₁, hlen₁, hsize₁, hg⟩ := @regrow_spec _ _ _ _
      (m.slots.length * 2) m.slots _ _ [] hfresh
      (by simp) (by simp) (by simp) hpw (by rw [← hm.size_eq]; simp; omega)
    have hgf : g = f := by
      funext k'
      refine Option.ext (fun v' => ?_)
      rw [hg, List.nil_append, hm.holds]
    subst hgf
    rw [← hm.size_eq, Nat.zero_add] at hsize₁
    obtain ⟨m', hins, hm', -, -⟩ := insertLoop_spec hm₁ k v (by rw [hlen₁]; omega)
    refine ⟨m', ?_, hm'⟩
    rw [insert, insertDepth_grow hgrow, hfold]
    exact hins
  · obtain ⟨m', hins, hm', -, -⟩ := insertLoop_spec hm k v (by omega)
    refine ⟨m', ?_, hm'⟩
    simp only [insert, insertDepth, if_neg hgrow, Option.bind_eq_bind, Option.bind_some]
    exact hins

/-! ## Section 5: Erasing -/

omit [DecidableEq K] in
/-- The backward-shift loop runs from any stage of the scan to its end. -/
theorem eraseLoop_spec (hm : m.Models f) {key : K} {i u : Nat} (hu : u < m.slots.length)
    (hnone : m.slots[(i + u) % m.slots.length]? = some none) (hpath : Path m.slots i u)
    (fuel : Nat) :
    ∀ {a b : Nat} {cur : List (Option (K × V))},
      Shift m.ideal m.slots key i u a b cur → u - b ≤ fuel →
      ∃ a' b' cur', m.eraseLoop fuel cur ((i + a) % m.slots.length) ((i + b) % m.slots.length) =
          some (cur', (i + a') % m.slots.length) ∧
        Shift m.ideal m.slots key i u a' b' cur' ∧ b' + 1 = u := by
  induction fuel with
  | zero =>
    intro a b cur hs hfuel
    have := hs.lt
    omega
  | succ fuel ih =>
    intro a b cur hs hfuel
    have hbu := hs.lt
    have hpos : 0 < m.slots.length := by omega
    simp only [eraseLoop, next_offset hm.pow]
    by_cases hend : b + 1 = u
    · -- the next slot is the empty one: the scan is over
      have hempty : cur[(i + (b + 1)) % m.slots.length]? = some none := by
        rw [hend]
        rw [← not_used (by rw [hs.len]; exact Nat.mod_lt _ hpos), hs.used,
          not_used (Nat.mod_lt _ hpos)]
        exact hnone
      rw [hempty]
      exact ⟨a, b, cur, rfl, hs, hend⟩
    · obtain ⟨⟨k, v⟩, hget⟩ := (hs.used _).mpr (hpath (b + 1) (by omega))
      have hhole := hole_ne_next hu hs
      obtain ⟨e, he, hje, hp, -⟩ := hs.reach (Ne.symm hhole) hget
      have htest := shift_test (m.ideal_lt hm.pow k) (Nat.mod_lt _ hpos) hhole he hje
      rw [hget]
      by_cases hmov : ∃ d < e, (m.ideal k + d) % m.slots.length = (i + a) % m.slots.length
      · obtain ⟨d, hd, hvisit⟩ := hmov
        have hs' := shift_move hu hnone hs (by omega) hget he hje hp hd hvisit
        obtain ⟨a', b', cur', hrun, hs'', hb'⟩ := ih hs' (by omega)
        refine ⟨a', b', cur', ?_, hs'', hb'⟩
        simp only [if_pos (htest.mpr ⟨d, hd, hvisit⟩)]
        exact hrun
      · have hs' := shift_skip hs (by omega) hget (by
          intro e' he' hje' d hd hvisit
          have : e' = e := offset_inj he' he (hje'.symm.trans hje)
          subst this
          exact hmov ⟨d, hd, hvisit⟩)
        obtain ⟨a', b', cur', hrun, hs'', hb'⟩ := ih hs' (by omega)
        refine ⟨a', b', cur', ?_, hs'', hb'⟩
        simp only [if_neg (fun h => hmov (htest.mp h))]
        exact hrun

/-- **`erase` is the removal from the finite map**, and reports whether the key
    was there. -/
theorem erase_spec (hm : m.Models f) (k : K) :
    ∃ m', m.erase k = some (m', (f k).isSome) ∧ m'.Models (Function.update f k none) := by
  cases hf : f k with
  | none =>
    refine ⟨m, by simp [erase, findSlot_absent hm (absent_of_none hm.holds hf)], ?_⟩
    rw [← hf, Function.update_eq_self]
    exact hm
  | some v =>
    obtain ⟨i, hi⟩ := List.mem_iff_getElem?.mp ((hm.holds k v).mp hf)
    have hlt : i < m.slots.length := (List.getElem?_eq_some_iff.mp hi).1
    obtain ⟨u, hu, hnone, hpath⟩ := first_empty hm.table.empty hlt
    have hu0 : 0 < u := by
      rcases Nat.eq_zero_or_pos u with rfl | hpos
      · rw [Nat.add_zero, Nat.mod_eq_of_lt hlt, hi] at hnone; simp at hnone
      · exact hpos
    obtain ⟨a, b, cur, hrun, hs, hb⟩ := eraseLoop_spec hm hu hnone hpath m.slots.length
      (shift_start hm.table hi hu0) (by omega)
    rw [Nat.add_zero, Nat.mod_eq_of_lt hlt] at hrun
    obtain ⟨htable, hmem⟩ := shift_finish hm.table hu hnone hs hb
    have hhole : (i + a) % m.slots.length < cur.length := by
      rw [hs.len]; exact Nat.mod_lt _ (by omega)
    refine ⟨⟨cur.set ((i + a) % m.slots.length) none, m.size - 1⟩, ?_, ?_⟩
    · simp [erase, findSlot_found hm hi, hrun]
    · have hcount : (cur.set ((i + a) % m.slots.length) none).countP Option.isSome =
          m.size - 1 := by
        obtain ⟨entry, hent⟩ := (hs.used _).mpr (hpath a (by have := hs.le; omega))
        rw [List.getElem?_eq_getElem hhole] at hent
        rw [List.countP_set hhole, Option.some.inj hent, count_congr hs.len hs.used, hm.size_eq]
        simp
      constructor
      · simpa [hs.len] using hm.pow
      · simpa [hs.len] using hm.big
      · rw [ideal_congr (m := m) (by simp [hs.len])]
        exact htable
      · exact hcount.symm
      · have := hm.load
        simp only [List.length_set, hs.len]
        omega
      · intro k' v'
        rw [hmem]
        by_cases hk : k' = k
        · subst hk; simp
        · simp [hk, hm.holds]

end FlatMap

end MatchingEngine
