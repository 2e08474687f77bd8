import MatchingEngine.Lib.SortedMap
import Mathlib.Data.List.Basic
import Mathlib.Algebra.BigOperators.Group.List.Basic

/-! # Stable priority lists

    A priority list keeps its elements best key first and, among equal
    keys, in order of arrival. `enqueue` puts an element behind everything
    that is at least as good.

    What the list holds at one key is a FIFO queue (`queueAt`). `levels`
    collects these queues into an ordered map from keys to queues.
-/

namespace PriorityList

variable {α κ : Type*}

/-- No element stands behind an element with a worse key. -/
def Sorted (lt : κ → κ → Prop) (key : α → κ) (l : List α) : Prop :=
  l.Pairwise (fun a b => ¬ lt (key b) (key a))

/-- Insert `a` behind every element whose key is as good as its own. -/
def enqueue (lt : κ → κ → Prop) [DecidableRel lt] (key : α → κ) (a : α) : List α → List α
  | [] => [a]
  | b :: l => if lt (key a) (key b) then a :: b :: l else b :: enqueue lt key a l

/-- The elements with key `k`, in order of arrival. -/
def queueAt [DecidableEq κ] (key : α → κ) (k : κ) (l : List α) : List α :=
  l.filter (fun a => key a = k)

section queueAt

variable [DecidableEq κ] {key : α → κ}

variable {k : κ} {a : α}

@[simp] theorem queueAt_nil (k : κ) : queueAt key k [] = [] := rfl

theorem queueAt_cons_self (l : List α) (h : key a = k) :
    queueAt key k (a :: l) = a :: queueAt key k l := by
  simp [queueAt, h]

theorem queueAt_cons_ne (l : List α) (h : key a ≠ k) :
    queueAt key k (a :: l) = queueAt key k l := by
  simp [queueAt, h]

theorem mem_queueAt {l : List α} : a ∈ queueAt key k l ↔ a ∈ l ∧ key a = k := by
  simp [queueAt]

theorem queueAt_eq_nil {l : List α} : queueAt key k l = [] ↔ ∀ a ∈ l, key a ≠ k := by
  simp [queueAt, List.filter_eq_nil_iff]

end queueAt

section enqueue

variable {lt : κ → κ → Prop} [DecidableRel lt] {key : α → κ}

variable {l : List α}

theorem mem_enqueue {a b : α} : b ∈ enqueue lt key a l ↔ b = a ∨ b ∈ l := by
  induction l with
  | nil => simp [enqueue]
  | cons c l ih =>
    simp only [enqueue]
    split
    · simp
    · simp only [List.mem_cons, ih]
      tauto

theorem enqueue_perm (a : α) (l : List α) : (enqueue lt key a l).Perm (a :: l) := by
  induction l with
  | nil => exact List.Perm.refl _
  | cons c l ih =>
    simp only [enqueue]
    split
    · exact List.Perm.refl _
    · exact (ih.cons c).trans (List.Perm.swap a c l)

theorem filter_enqueue {p : α → Bool} {a : α} (hp : p a = false) (l : List α) :
    (enqueue lt key a l).filter p = l.filter p := by
  induction l with
  | nil => simp [enqueue, hp]
  | cons b l ih =>
    simp only [enqueue]
    split
    · simp [hp]
    · rw [List.filter_cons, List.filter_cons, ih]

/-- A function that keeps the keys keeps the places. -/
theorem map_enqueue {β : Type*} {key' : β → κ} {f : α → β} (hf : ∀ a, key' (f a) = key a) (a : α)
    (l : List α) : (enqueue lt key a l).map f = enqueue lt key' (f a) (l.map f) := by
  induction l with
  | nil => rfl
  | cons b l ih =>
    simp only [enqueue, List.map_cons, hf]
    split
    · rfl
    · rw [List.map_cons, ih]

variable [IsStrictTotalOrder κ lt]

theorem sorted_enqueue (h : Sorted lt key l) (a : α) : Sorted lt key (enqueue lt key a l) := by
  induction l with
  | nil => simp [enqueue, Sorted]
  | cons b l ih =>
    obtain ⟨hhead, htail⟩ := List.pairwise_cons.mp h
    by_cases hlt : lt (key a) (key b)
    · simp only [enqueue, if_pos hlt]
      refine List.pairwise_cons.mpr ⟨fun c hc hca => ?_, h⟩
      rcases List.mem_cons.mp hc with rfl | hin
      · exact irrefl _ (IsTrans.trans _ _ _ hlt hca)
      · exact hhead c hin (IsTrans.trans _ _ _ hca hlt)
    · simp only [enqueue, if_neg hlt]
      refine List.pairwise_cons.mpr ⟨fun c hc => ?_, ih htail⟩
      rcases mem_enqueue.mp hc with rfl | hin
      · exact hlt
      · exact hhead c hin

/-- An enqueued element is the last one at its key and is at no other key. -/
theorem queueAt_enqueue [DecidableEq κ] (h : Sorted lt key l) (a : α) (k : κ) :
    queueAt key k (enqueue lt key a l) =
      queueAt key k l ++ (if key a = k then [a] else []) := by
  induction l with
  | nil =>
    by_cases hk : key a = k <;> simp [enqueue, queueAt, hk]
  | cons b l ih =>
    obtain ⟨hhead, htail⟩ := List.pairwise_cons.mp h
    by_cases hlt : lt (key a) (key b)
    · simp only [enqueue, if_pos hlt]
      by_cases hk : key a = k
      · -- everything from `b` on is worse than `a`, so nothing there has its key
        have hnone : queueAt key k (b :: l) = [] := by
          refine queueAt_eq_nil.mpr (fun c hc hck => ?_)
          have hac : key c = key a := hck.trans hk.symm
          rcases List.mem_cons.mp hc with rfl | hin
          · rw [hac] at hlt; exact irrefl _ hlt
          · exact hhead c hin (hac ▸ hlt)
        rw [queueAt_cons_self _ hk, hnone]
        simp [hk]
      · rw [queueAt_cons_ne _ hk]
        simp [hk]
    · simp only [enqueue, if_neg hlt]
      by_cases hb : key b = k
      · rw [queueAt_cons_self _ hb, queueAt_cons_self _ hb, ih htail]
        rfl
      · rw [queueAt_cons_ne _ hb, queueAt_cons_ne _ hb, ih htail]

end enqueue

/-! ### A priority list is its queues -/

/-- The head has the best key. -/
theorem head_best {lt : κ → κ → Prop} {key : α → κ} [IsStrictTotalOrder κ lt] {a b : α}
    {l : List α} (h : Sorted lt key (a :: l)) (hb : b ∈ a :: l) :
    key b = key a ∨ lt (key a) (key b) := by
  rcases List.mem_cons.mp hb with rfl | hin
  · exact Or.inl rfl
  · have hnot := (List.pairwise_cons.mp h).1 b hin
    rcases trichotomous_of lt (key a) (key b) with h1 | h1 | h1
    · exact Or.inr h1
    · exact Or.inl h1.symm
    · exact absurd h1 hnot

/-! ### The levels of a list -/

/-- The queues of a list as an ordered map. -/
def levels (lt : κ → κ → Prop) [DecidableRel lt] [DecidableEq κ] (key : α → κ) (l : List α) :
    List (κ × List α) :=
  l.foldr (fun a m => SortedMap.upsert lt (key a) [] (fun q => a :: q) m) []

section levels

variable {lt : κ → κ → Prop} [DecidableRel lt] [DecidableEq κ]
variable {key : α → κ}

variable {l : List α}

theorem map_levels {β : Type*} {key' : β → κ} {f : α → β} (hf : ∀ a, key' (f a) = key a)
    (l : List α) :
    (levels lt key l).map (fun e => (e.1, e.2.map f)) = levels lt key' (l.map f) := by
  induction l with
  | nil => rfl
  | cons a l ih =>
    show (SortedMap.upsert lt (key a) [] (fun q => a :: q) (levels lt key l)).map _ =
      SortedMap.upsert lt (key' (f a)) [] (fun q => f a :: q) (levels lt key' (l.map f))
    rw [← ih, hf]
    exact SortedMap.map_upsert (g := List.map f) (fun _ => rfl) (key a) [] _

variable [IsStrictTotalOrder κ lt]

theorem sorted_levels (l : List α) : SortedMap.Sorted lt (levels lt key l) := by
  induction l with
  | nil => simp [levels, SortedMap.Sorted]
  | cons a l ih => exact SortedMap.sorted_upsert ih _ _ _

/-- A key has a level exactly when its queue is not empty, and the level is
    that queue. -/
theorem find_levels (l : List α) (k : κ) :
    SortedMap.find (levels lt key l) k =
      if queueAt key k l = [] then none else some (queueAt key k l) := by
  induction l with
  | nil => simp [levels]
  | cons a l ih =>
    have hstep : levels lt key (a :: l) =
        SortedMap.upsert lt (key a) [] (fun q => a :: q) (levels lt key l) := rfl
    rw [hstep, SortedMap.find_upsert (sorted_levels l)]
    by_cases hk : k = key a
    · subst hk
      have hne : a :: queueAt key (key a) l ≠ [] := List.cons_ne_nil _ _
      rw [if_pos rfl, ih, queueAt_cons_self _ rfl, if_neg hne]
      by_cases hnil : queueAt key (key a) l = [] <;> simp [hnil]
    · rw [if_neg hk, ih, queueAt_cons_ne _ (Ne.symm hk)]

/-- The elements of a level have its key. -/
theorem key_of_mem_levels {e : κ × List α} (he : e ∈ levels lt key l) {a : α} (ha : a ∈ e.2) :
    key a = e.1 := by
  have hfind := SortedMap.find_of_mem (sorted_levels l) he
  rw [find_levels] at hfind
  split at hfind
  · cases hfind
  · rw [← Option.some.inj hfind] at ha
    exact (mem_queueAt.mp ha).2

/-- A level is a level of something. -/
theorem exists_of_mem_levels {e : κ × List α} (he : e ∈ levels lt key l) :
    ∃ a ∈ l, key a = e.1 := by
  have hfind := SortedMap.find_of_mem (sorted_levels l) he
  rw [find_levels] at hfind
  split at hfind
  · cases hfind
  · next hne =>
    obtain ⟨a, ha⟩ := List.exists_mem_of_ne_nil _ hne
    exact ⟨a, mem_queueAt.mp ha⟩

/-- The levels of a priority list, one after the other, are the list. -/
theorem flatMap_levels (h : Sorted lt key l) : (levels lt key l).flatMap Prod.snd = l := by
  induction l with
  | nil => rfl
  | cons a l ih =>
    obtain ⟨hhead, htail⟩ := List.pairwise_cons.mp h
    have hstep : levels lt key (a :: l) =
        SortedMap.upsert lt (key a) [] (fun q => a :: q) (levels lt key l) := rfl
    have hih := ih htail
    rw [hstep]
    cases hm : levels lt key l with
    | nil => simpa [SortedMap.upsert, hm] using hih
    | cons e m =>
      -- no level of the tail is better than the key of the head
      obtain ⟨b, hb, hkey⟩ := exists_of_mem_levels (l := l) (e := e) (by rw [hm]; simp)
      have hnot : ¬ lt e.1 (key a) := hkey ▸ hhead b hb
      rw [hm] at hih
      by_cases hk : key a = e.1
      · simpa [SortedMap.upsert, hk] using hih
      · have hlt : lt (key a) e.1 := by
          rcases trichotomous_of lt (key a) e.1 with h₁ | h₁ | h₁
          · exact h₁
          · exact absurd h₁ hk
          · exact absurd h₁ hnot
        simpa [SortedMap.upsert, hk, hlt] using hih

end levels

/-! ### Sums, queue by queue -/

section sum

variable [DecidableEq κ] {key : α → κ} {M : Type*} [AddCommMonoid M]

theorem sum_queueAt_add (w : α → M) (k : κ) (l : List α) :
    ((queueAt key k l).map w).sum + ((l.filter (fun a => key a ≠ k)).map w).sum =
      (l.map w).sum := by
  induction l with
  | nil => simp
  | cons a l ih =>
    by_cases h : key a = k
    · rw [queueAt_cons_self l h, List.filter_cons_of_neg (by simpa using h)]
      simp only [List.map_cons, List.sum_cons, add_assoc, ih]
    · rw [queueAt_cons_ne l h, List.filter_cons_of_pos (by simpa using h)]
      simp only [List.map_cons, List.sum_cons, add_left_comm _ (w a), ih]

/-- A sum over a list is the sum, over any list of distinct keys that has all
    its keys, of the sums over its queues. -/
theorem sum_queues (w : α → M) {ks : List κ} (hnd : ks.Nodup) {l : List α}
    (hcov : ∀ a ∈ l, key a ∈ ks) :
    (ks.map (fun k => ((queueAt key k l).map w).sum)).sum = (l.map w).sum := by
  induction ks generalizing l with
  | nil =>
    have : l = [] := List.eq_nil_iff_forall_not_mem.mpr (fun a ha => by simpa using hcov a ha)
    simp [this]
  | cons k ks ih =>
    obtain ⟨hk, hnd⟩ := List.nodup_cons.mp hnd
    -- the other queues do not see the elements with key k
    have hother : ∀ k' ∈ ks, queueAt key k' (l.filter (fun a => key a ≠ k)) = queueAt key k' l := by
      intro k' hk'
      have hne : k' ≠ k := fun h => hk (h ▸ hk')
      unfold queueAt
      rw [List.filter_filter]
      refine List.filter_congr (fun a _ => ?_)
      by_cases ha : key a = k' <;> simp [ha, hne]
    rw [List.map_cons, List.sum_cons, ← sum_queueAt_add w k l]
    congr 1
    rw [← ih hnd (l := l.filter (fun a => key a ≠ k)) ?_]
    · refine congrArg List.sum (List.map_congr_left (fun k' hk' => ?_))
      rw [hother k' hk']
    · intro a ha
      obtain ⟨ha, hne⟩ := List.mem_filter.mp ha
      exact (List.mem_cons.mp (hcov a ha)).resolve_left (by simpa using hne)

end sum

end PriorityList
