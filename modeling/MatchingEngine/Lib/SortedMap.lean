import Mathlib.Order.RelClasses
import Mathlib.Data.List.Pairwise
import Mathlib.Data.List.Sort

/-! # Ordered maps as sorted association lists

    An ordered map keyed by `K` under a strict total order `lt` is the list
    of its entries in key order. The first entry is the least key, so an
    iteration over the map is an iteration over the list.

    * `find`: the value at a key,
    * `upsert`: change the value at a key, starting from a default value
      when the key is absent,
    * `erase`: drop a key.

    A sorted list is determined by what `find` answers (`ext_sorted`), so
    two maps built along different paths are compared pointwise.
-/

namespace SortedMap

variable {K V W : Type*}

variable {lt : K → K → Prop}

/-- The keys come in strictly increasing order. -/
def Sorted (lt : K → K → Prop) (m : List (K × V)) : Prop :=
  m.Pairwise (fun a b => lt a.1 b.1)

theorem sorted_map (g : V → W) {m : List (K × V)} (h : Sorted lt m) :
    Sorted lt (m.map (fun e => (e.1, g e.2))) := by
  unfold Sorted at h ⊢
  rw [List.pairwise_map]
  exact h

variable [DecidableEq K]

/-- The value stored at `k`. -/
def find : List (K × V) → K → Option V
  | [], _ => none
  | (k', v) :: m, k => if k = k' then some v else find m k

/-- Drop the entry at `k`. -/
def erase (k : K) (m : List (K × V)) : List (K × V) :=
  m.filter (fun e => e.1 ≠ k)

/-- Apply `f` to the value at `k`, which is `d` when there is none. -/
def upsert (lt : K → K → Prop) [DecidableRel lt] (k : K) (d : V) (f : V → V) :
    List (K × V) → List (K × V)
  | [] => [(k, f d)]
  | (k', v) :: m =>
    if k = k' then (k', f v) :: m
    else if lt k k' then (k, f d) :: (k', v) :: m
    else (k', v) :: upsert lt k d f m

@[simp] theorem find_nil (k : K) : find ([] : List (K × V)) k = none := rfl

theorem find_cons (k' : K) (v : V) (m : List (K × V)) (k : K) :
    find ((k', v) :: m) k = if k = k' then some v else find m k := rfl

theorem mem_of_find {m : List (K × V)} {k : K} {v : V} (h : find m k = some v) :
    (k, v) ∈ m := by
  induction m with
  | nil => simp at h
  | cons e m ih =>
    obtain ⟨k', v'⟩ := e
    rw [find_cons] at h
    split at h
    · next heq => simp only [Option.some.injEq] at h; subst heq; subst h; simp
    · exact List.mem_cons_of_mem _ (ih h)

theorem find_eq_none {m : List (K × V)} {k : K} (h : ∀ e ∈ m, e.1 ≠ k) :
    find m k = none := by
  induction m with
  | nil => rfl
  | cons e m ih =>
    obtain ⟨k', v'⟩ := e
    have hne : k ≠ k' := fun he => h (k', v') (by simp) he.symm
    rw [find_cons, if_neg hne]
    exact ih (fun e he => h e (List.mem_cons_of_mem _ he))

/-- Erasing a key forgets that key and nothing else. -/
theorem find_erase (m : List (K × V)) (k k' : K) :
    find (erase k m) k' = if k' = k then none else find m k' := by
  induction m with
  | nil => simp [erase]
  | cons e m ih =>
    obtain ⟨k₀, v₀⟩ := e
    by_cases h₀ : k₀ = k
    · have hdrop : erase k ((k₀, v₀) :: m) = erase k m := by simp [erase, h₀]
      rw [hdrop, ih, find_cons]
      by_cases hk : k' = k
      · simp [hk]
      · have : k' ≠ k₀ := fun he => hk (he.trans h₀)
        simp [hk, this]
    · have hkeep : erase k ((k₀, v₀) :: m) = (k₀, v₀) :: erase k m := by
        simp [erase, h₀]
      rw [hkeep, find_cons, find_cons, ih]
      by_cases hk : k' = k₀
      · simp [hk, h₀]
      · simp [hk]

theorem sorted_erase {m : List (K × V)} (k : K) (h : Sorted lt m) : Sorted lt (erase k m) :=
  h.filter _

/-! ### Values seen through a function -/

/-- Changing every value leaves the keys where they are. -/
theorem find_map (g : V → W) (m : List (K × V)) (k : K) :
    find (m.map (fun e => (e.1, g e.2))) k = (find m k).map g := by
  induction m with
  | nil => rfl
  | cons e m ih =>
    obtain ⟨k', v'⟩ := e
    simp only [List.map_cons, find_cons, ih]
    split <;> rfl

theorem map_upsert [DecidableRel lt] {g : V → W} {f : V → V} {f' : W → W}
    (hf : ∀ v, g (f v) = f' (g v)) (k : K) (d : V) (m : List (K × V)) :
    (upsert lt k d f m).map (fun e => (e.1, g e.2)) =
      upsert lt k (g d) f' (m.map (fun e => (e.1, g e.2))) := by
  induction m with
  | nil => simp [upsert, hf]
  | cons e m ih =>
    obtain ⟨k', v'⟩ := e
    simp only [upsert, List.map_cons]
    split
    · simp [hf]
    · split
      · simp [hf]
      · rw [List.map_cons, ih]

/-! ### Facts that need the order -/

section order

variable {lt : K → K → Prop}

variable {m : List (K × V)} {k : K} {v : V}

theorem mem_upsert_key [DecidableRel lt] {d : V} {f : V → V} {e : K × V}
    (h : e ∈ upsert lt k d f m) : e.1 = k ∨ ∃ v, (e.1, v) ∈ m := by
  induction m with
  | nil =>
    simp only [upsert, List.mem_singleton] at h
    exact Or.inl (by rw [h])
  | cons e₀ m ih =>
    obtain ⟨k₀, v₀⟩ := e₀
    simp only [upsert] at h
    split at h
    · rcases List.mem_cons.mp h with rfl | hin
      · exact Or.inr ⟨v₀, by simp⟩
      · exact Or.inr ⟨e.2, List.mem_cons_of_mem _ hin⟩
    · split at h
      · rcases List.mem_cons.mp h with rfl | hin
        · exact Or.inl rfl
        · exact Or.inr ⟨e.2, hin⟩
      · rcases List.mem_cons.mp h with rfl | hin
        · exact Or.inr ⟨v₀, by simp⟩
        · rcases ih hin with heq | ⟨v, hv⟩
          · exact Or.inl heq
          · exact Or.inr ⟨v, List.mem_cons_of_mem _ hv⟩

/-- The first entry is at least as early as every entry. -/
theorem head_least {k' : K} {v' : V} (h : Sorted lt ((k, v) :: m))
    (hf : find ((k, v) :: m) k' = some v') : k' = k ∨ lt k k' := by
  rw [find_cons] at hf
  split at hf
  · next heq => exact Or.inl heq
  · exact Or.inr ((List.pairwise_cons.mp h).1 (k', v') (mem_of_find hf))

variable [IsStrictTotalOrder K lt]

theorem sorted_cons_find (h : Sorted lt ((k, v) :: m)) : find m k = none := by
  refine find_eq_none (fun e he heq => ?_)
  have hlt : lt k e.1 := (List.pairwise_cons.mp h).1 e he
  rw [heq] at hlt
  exact irrefl k hlt

/-- In a sorted map an entry is found under its own key. -/
theorem find_of_mem (h : Sorted lt m) (hmem : (k, v) ∈ m) : find m k = some v := by
  induction m with
  | nil => simp at hmem
  | cons e m ih =>
    obtain ⟨k', v'⟩ := e
    obtain ⟨hhead, htail⟩ := List.pairwise_cons.mp h
    rw [find_cons]
    rcases List.mem_cons.mp hmem with heq | hin
    · cases heq; simp
    · have hlt : lt k' k := hhead (k, v) hin
      have hne : k ≠ k' := fun he => irrefl k' (he ▸ hlt)
      rw [if_neg hne]
      exact ih htail hin

theorem find_upsert [DecidableRel lt] (h : Sorted lt m) (k : K) (d : V) (f : V → V) (k' : K) :
    find (upsert lt k d f m) k' =
      if k' = k then some (f ((find m k).getD d)) else find m k' := by
  induction m with
  | nil => simp [upsert, find_cons]
  | cons e m ih =>
    obtain ⟨k₀, v₀⟩ := e
    obtain ⟨hhead, htail⟩ := List.pairwise_cons.mp h
    by_cases h₀ : k = k₀
    · subst h₀
      simp only [upsert, if_true, find_cons]
      split <;> simp
    · by_cases hlt : lt k k₀
      · have hnone : find ((k₀, v₀) :: m) k = none := by
          refine find_eq_none (fun e he heq => ?_)
          rcases List.mem_cons.mp he with rfl | hin
          · exact h₀ heq.symm
          · have h1 : lt k₀ e.1 := hhead e hin
            rw [heq] at h1
            exact irrefl k (IsTrans.trans _ _ _ hlt h1)
        simp only [upsert, if_neg h₀, if_pos hlt]
        rw [find_cons, hnone]
        simp
      · simp only [upsert, if_neg h₀, if_neg hlt]
        rw [find_cons, find_cons, find_cons, if_neg h₀, ih htail]
        by_cases hk : k' = k₀
        · have : k' ≠ k := fun he => h₀ (he.symm.trans hk)
          simp [hk, Ne.symm h₀]
        · simp [hk]

theorem sorted_upsert [DecidableRel lt] (h : Sorted lt m) (k : K) (d : V) (f : V → V) :
    Sorted lt (upsert lt k d f m) := by
  induction m with
  | nil => simp [upsert, Sorted]
  | cons e m ih =>
    obtain ⟨k₀, v₀⟩ := e
    obtain ⟨hhead, htail⟩ := List.pairwise_cons.mp h
    by_cases h₀ : k = k₀
    · simp only [upsert, if_pos h₀]
      exact List.pairwise_cons.mpr ⟨hhead, htail⟩
    · by_cases hlt : lt k k₀
      · simp only [upsert, if_neg h₀, if_pos hlt]
        refine List.pairwise_cons.mpr ⟨fun e he => ?_, h⟩
        rcases List.mem_cons.mp he with rfl | hin
        · exact hlt
        · exact IsTrans.trans _ _ _ hlt (hhead e hin)
      · have hgt : lt k₀ k := by
          rcases trichotomous_of lt k k₀ with h1 | h1 | h1
          · exact absurd h1 hlt
          · exact absurd h1 h₀
          · exact h1
        simp only [upsert, if_neg h₀, if_neg hlt]
        refine List.pairwise_cons.mpr ⟨fun e he => ?_, ih htail⟩
        rcases mem_upsert_key he with heq | ⟨v, hv⟩
        · show lt k₀ e.1
          rw [heq]; exact hgt
        · exact hhead (e.1, v) hv

/-- A sorted map is determined by its lookups. -/
theorem ext_sorted {m₁ m₂ : List (K × V)} (h₁ : Sorted lt m₁) (h₂ : Sorted lt m₂)
    (h : ∀ k, find m₁ k = find m₂ k) : m₁ = m₂ := by
  induction m₁ generalizing m₂ with
  | nil =>
    cases m₂ with
    | nil => rfl
    | cons e m₂ =>
      obtain ⟨k, v⟩ := e
      have := h k
      simp [find_cons] at this
  | cons e₁ m₁ ih =>
    obtain ⟨k₁, v₁⟩ := e₁
    cases m₂ with
    | nil =>
      have := h k₁
      simp [find_cons] at this
    | cons e₂ m₂ =>
      obtain ⟨k₂, v₂⟩ := e₂
      -- both heads are the least key, so they are the same key
      have hf₁ : find ((k₂, v₂) :: m₂) k₁ = some v₁ := by rw [← h]; simp [find_cons]
      have hf₂ : find ((k₁, v₁) :: m₁) k₂ = some v₂ := by rw [h]; simp [find_cons]
      have hk : k₁ = k₂ := by
        rcases head_least h₂ hf₁ with heq | hlt
        · exact heq
        · rcases head_least h₁ hf₂ with heq | hgt
          · exact heq.symm
          · exact absurd (IsTrans.trans _ _ _ hlt hgt) (irrefl k₂)
      subst hk
      have hv : v₁ = v₂ := by simpa [find_cons] using hf₁.symm
      subst hv
      congr 1
      refine ih (List.pairwise_cons.mp h₁).2 (List.pairwise_cons.mp h₂).2 (fun k => ?_)
      by_cases hkk : k = k₁
      · rw [hkk, sorted_cons_find h₁, sorted_cons_find h₂]
      · have := h k
        rwa [find_cons, find_cons, if_neg hkk, if_neg hkk] at this

omit [DecidableEq K] in
/-- Sorting a list of entries with distinct keys gives an ordered map. -/
theorem sorted_insertionSort [DecidableRel lt] (hnd : (m.map Prod.fst).Nodup) :
    Sorted lt (m.insertionSort (fun a b => ¬ lt b.1 a.1)) := by
  have : Std.Total (fun a b : K × V => ¬ lt b.1 a.1) :=
    ⟨fun a b => not_and_or.mp (fun h => irrefl a.1 (IsTrans.trans _ _ _ h.2 h.1))⟩
  have : IsTrans (K × V) (fun a b => ¬ lt b.1 a.1) := ⟨fun a b c hab hbc hca => by
    -- c is below a, and b is not below a: so c is below b
    rcases trichotomous_of lt b.1 c.1 with h | h | h
    · exact hab (IsTrans.trans _ _ _ h hca)
    · exact hab (h ▸ hca)
    · exact hbc h⟩
  have hne : (m.insertionSort (fun a b => ¬ lt b.1 a.1)).Pairwise (fun a b => a.1 ≠ b.1) :=
    List.pairwise_map.mp ((((List.perm_insertionSort _ m).map Prod.fst).nodup_iff).mpr hnd)
  refine (List.Pairwise.and (List.pairwise_insertionSort _ m) hne).imp (fun {a b} h => ?_)
  rcases trichotomous_of lt a.1 b.1 with hlt | heq | hgt
  · exact hlt
  · exact absurd heq h.2
  · exact absurd hgt h.1

end order

end SortedMap
