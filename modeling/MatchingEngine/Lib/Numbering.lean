import Mathlib.Data.Finmap
import Mathlib.Data.Finset.Card
import Mathlib.Data.Set.Function

/-! # Numbers in order of appearance

    Keys arrive one after the other. A key that is new gets a code of the number of
    keys before it, and a table remembers the code. The table is therefore determined
    by the list of the keys in the order in which they first appeared (`firsts`), and
    the codes tell the keys apart as far as the coding is injective
    (`Numbered.eq_of_lookup_eq`).
-/

namespace Numbering

variable {K N : Type*}

/-! ### First appearances -/

theorem getElem?_concat_eq_some {l : List K} {k k' : K} {i : Nat} :
    (l ++ [k])[i]? = some k' ↔ l[i]? = some k' ∨ i = l.length ∧ k' = k := by
  rw [List.getElem?_append]
  rcases Nat.lt_trichotomy i l.length with hi | rfl | hi
  · simp [hi, Nat.ne_of_lt hi]
  · simp [eq_comm]
  · have hbehind : 0 < i - l.length := Nat.sub_pos_of_lt hi
    simp [Nat.not_lt.mpr (Nat.le_of_lt hi), Nat.ne_of_gt hi, Nat.ne_of_gt hbehind]

variable [DecidableEq K]

def addNew (seen : List K) (k : K) : List K := if k ∈ seen then seen else seen ++ [k]

/-- The keys in the order in which they first appear. -/
def firsts (ks : List K) : List K := ks.foldl addNew []

theorem firsts_concat (ks : List K) (k : K) : firsts (ks ++ [k]) = addNew (firsts ks) k :=
  List.foldl_concat ..

theorem mem_addNew {seen : List K} {k k' : K} : k' ∈ addNew seen k ↔ k' ∈ seen ∨ k' = k := by
  unfold addNew
  split
  · rename_i hk
    constructor
    · exact .inl
    · rintro (hmem | rfl)
      · exact hmem
      · exact hk
  · simp

theorem mem_firsts {ks : List K} {k : K} : k ∈ firsts ks ↔ k ∈ ks := by
  induction ks using List.reverseRecOn with
  | nil => rfl
  | append_singleton ks k' ih =>
      rw [firsts_concat, mem_addNew, ih, List.mem_append, List.mem_singleton]

theorem nodup_firsts (ks : List K) : (firsts ks).Nodup := by
  induction ks using List.reverseRecOn with
  | nil => exact List.nodup_nil
  | append_singleton ks k ih =>
    rw [firsts_concat, addNew]
    split
    · exact ih
    · rename_i hk
      exact List.nodup_append_comm.mp (List.nodup_cons.mpr ⟨hk, ih⟩)

theorem firsts_of_nodup {ks : List K} (h : ks.Nodup) : firsts ks = ks := by
  induction ks using List.reverseRecOn with
  | nil => rfl
  | append_singleton ks k ih =>
    have hcons : (k :: ks).Nodup := List.nodup_append_comm.mp h
    obtain ⟨hk, hks⟩ := List.nodup_cons.mp hcons
    rw [firsts_concat, ih hks, addNew, if_neg hk]

theorem length_firsts (ks : List K) : (firsts ks).length = ks.toFinset.card := by
  rw [← List.toFinset_card_of_nodup (nodup_firsts ks)]
  congr 1
  ext k
  rw [List.mem_toFinset, List.mem_toFinset, mem_firsts]

/-! ### The table -/

variable (code : Nat → N)

/-- The table and the code of `k`. -/
def assign (t : Finmap (fun _ : K => N)) (k : K) : Finmap (fun _ : K => N) × N :=
  match t.lookup k with
  | some n => (t, n)
  | none => (t.insert k (code t.keys.card), code t.keys.card)

/-- The table after the keys `ks`. -/
structure Numbered (t : Finmap (fun _ : K => N)) (ks : List K) : Prop where
  lookup : ∀ {k n}, t.lookup k = some n ↔ ∃ i, (firsts ks)[i]? = some k ∧ n = code i
  card : t.keys.card = (firsts ks).length

variable {code} {t : Finmap (fun _ : K => N)} {ks : List K} {k : K}

theorem numbered_empty : Numbered code (∅ : Finmap (fun _ : K => N)) [] where
  lookup := by
    intro k n
    rw [Finmap.lookup_empty]
    simp [firsts]
  card := rfl

theorem Numbered.exists_lookup (h : Numbered code t ks) : (∃ n, t.lookup k = some n) ↔ k ∈ ks := by
  rw [← mem_firsts, List.mem_iff_getElem?]
  constructor
  · rintro ⟨n, hn⟩
    obtain ⟨i, hi, -⟩ := h.lookup.mp hn
    exact ⟨i, hi⟩
  · rintro ⟨i, hi⟩
    exact ⟨code i, h.lookup.mpr ⟨i, hi, rfl⟩⟩

/-- Keys of one code are the same key. -/
theorem Numbered.eq_of_lookup_eq (h : Numbered code t ks)
    (hinj : Set.InjOn code (Set.Iio ks.toFinset.card))
    {k k' : K} {n : N} (hk : t.lookup k = some n) (hk' : t.lookup k' = some n) : k = k' := by
  obtain ⟨i, hi, rfl⟩ := h.lookup.mp hk
  obtain ⟨j, hj, hcode⟩ := h.lookup.mp hk'
  rw [← length_firsts] at hinj
  have hi' := (List.getElem?_eq_some_iff.mp hi).1
  have hj' := (List.getElem?_eq_some_iff.mp hj).1
  obtain rfl : i = j := hinj hi' hj' hcode
  exact Option.some.inj (hi.symm.trans hj)

theorem assign_of_some {n : N} (h : t.lookup k = some n) : assign code t k = (t, n) := by
  rw [assign, h]

theorem assign_of_none (h : t.lookup k = none) :
    assign code t k = (t.insert k (code t.keys.card), code t.keys.card) := by
  rw [assign, h]

theorem lookup_assign (code : Nat → N) (t : Finmap (fun _ : K => N)) (k : K) :
    (assign code t k).1.lookup k = some (assign code t k).2 := by
  cases h : t.lookup k with
  | some n =>
    rw [assign_of_some h]
    exact h
  | none =>
    rw [assign_of_none h]
    exact Finmap.lookup_insert t

/-- A code stays what it is. -/
theorem lookup_assign_of_some {k' : K} {n : N} (h : t.lookup k' = some n) :
    (assign code t k).1.lookup k' = some n := by
  cases hk : t.lookup k with
  | some m =>
    rw [assign_of_some hk]
    exact h
  | none =>
    have hne : k' ≠ k := by
      rintro rfl
      cases hk.symm.trans h
    rw [assign_of_none hk, Finmap.lookup_insert_of_ne _ hne]
    exact h

theorem Numbered.assign (h : Numbered code t ks) (k : K) :
    Numbered code (Numbering.assign code t k).1 (ks ++ [k]) := by
  cases hk : t.lookup k with
  | some n =>
    -- the key is not new
    have hmem : k ∈ firsts ks := mem_firsts.mpr (h.exists_lookup.mp ⟨n, hk⟩)
    rw [assign_of_some hk]
    constructor
    · rw [firsts_concat, addNew, if_pos hmem]
      exact h.lookup
    · rw [firsts_concat, addNew, if_pos hmem]
      exact h.card
  | none =>
    have hnot : k ∉ firsts ks := by
      intro hmem
      obtain ⟨n, hn⟩ := h.exists_lookup.mpr (mem_firsts.mp hmem)
      cases hk.symm.trans hn
    rw [assign_of_none hk]
    constructor
    · intro k' n
      rw [firsts_concat, addNew, if_neg hnot]
      by_cases hk' : k' = k
      · subst hk'
        rw [Finmap.lookup_insert, h.card]
        constructor
        · intro hn
          exact ⟨_, List.getElem?_concat_length, (Option.some.inj hn).symm⟩
        · rintro ⟨i, hi, rfl⟩
          rcases getElem?_concat_eq_some.mp hi with hold | ⟨rfl, -⟩
          · exact absurd (List.mem_of_getElem? hold) hnot
          · rfl
      · rw [Finmap.lookup_insert_of_ne _ hk', h.lookup]
        constructor
        · rintro ⟨i, hi, hn⟩
          exact ⟨i, getElem?_concat_eq_some.mpr (.inl hi), hn⟩
        · rintro ⟨i, hi, hn⟩
          rcases getElem?_concat_eq_some.mp hi with hold | ⟨-, heq⟩
          · exact ⟨i, hold, hn⟩
          · exact absurd heq hk'
    · have hkeys : (t.insert k (code t.keys.card)).keys = Insert.insert k t.keys := by
        ext k'
        rw [Finmap.mem_keys, Finmap.mem_insert, Finset.mem_insert, Finmap.mem_keys]
      have hnew : k ∉ t.keys := by
        rw [Finmap.mem_keys, ← Finmap.lookup_eq_none]
        exact hk
      rw [hkeys, Finset.card_insert_of_notMem hnew, h.card, firsts_concat, addNew, if_neg hnot,
        List.length_append]
      rfl

end Numbering
