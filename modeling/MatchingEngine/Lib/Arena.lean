import Mathlib.Data.List.Basic
import Mathlib.Data.List.Nodup

/-! # Intrusive doubly linked lists in an arena

    Nodes live in an array and name their neighbours by index. A node is
    assembled from its two links and a payload by `mk`, so the node type
    itself is arbitrary.

    `Seg mk arena prev is as next` says that the indices `is` form a chain
    holding the payloads `as`: the first node points back to `prev`, the last
    one forward to `next`. Chains compose (`seg_append`), which reduces the
    surgery of a list operation to re-pointing one end of a chain
    (`seg_setNext`, `seg_setPrev`).
-/

namespace Arena

variable {N α : Type*}

variable {i : Nat} {is : List Nat} {as : List α} {a : α}

/-- A link to a node, or nothing. -/
abbrev Link := Option Nat

/-- Rewrite the node at `i`; `none` when there is no such node. -/
def update (arena : List N) (i : Nat) (f : N → N) : Option (List N) :=
  (arena[i]?).map (fun n => arena.set i (f n))

theorem update_of_get {arena : List N} {n : N} (f : N → N) (h : arena[i]? = some n) :
    update arena i f = some (arena.set i (f n)) := by
  simp [update, h]

theorem get_set_self {arena : List N} {n : N} (m : N) (h : arena[i]? = some n) :
    (arena.set i m)[i]? = some m := by
  have hlt : i < arena.length := (List.getElem?_eq_some_iff.mp h).1
  simp [hlt]

theorem get_set_ne {arena : List N} {j : Nat} (m : N) (h : i ≠ j) :
    (arena.set i m)[j]? = arena[j]? := by
  simp [h]

/-! ### Chains -/

/-- A chain of nodes between two links. -/
def Seg (mk : Link → Link → α → N) (arena : List N) : Link → List Nat → List α → Link → Prop
  | _, [], [], _ => True
  | prev, i :: is, a :: as, next =>
    arena[i]? = some (mk prev (is.head?.or next) a) ∧ Seg mk arena (some i) is as next
  | _, [], _ :: _, _ => False
  | _, _ :: _, [], _ => False

variable {mk : Link → Link → α → N} {arena arena' : List N}

@[simp] theorem seg_nil (prev next : Link) : Seg mk arena prev [] [] next := trivial

variable {prev next : Link}

theorem seg_cons :
    Seg mk arena prev (i :: is) (a :: as) next ↔
      arena[i]? = some (mk prev (is.head?.or next) a) ∧ Seg mk arena (some i) is as next :=
  Iff.rfl

theorem seg_length (h : Seg mk arena prev is as next) : is.length = as.length := by
  induction is generalizing prev as with
  | nil => cases as with
    | nil => rfl
    | cons a as => exact h.elim
  | cons i is ih => cases as with
    | nil => exact h.elim
    | cons a as => simp [ih (seg_cons.mp h).2]

theorem seg_nil_iff (h : Seg mk arena prev is as next) : is = [] ↔ as = [] := by
  have := seg_length h
  constructor
  · intro he; subst he; exact List.length_eq_zero_iff.mp this.symm
  · intro he; subst he; exact List.length_eq_zero_iff.mp this

/-- Only the nodes of the chain matter. -/
theorem seg_frame (h : Seg mk arena prev is as next) (hframe : ∀ i ∈ is, arena'[i]? = arena[i]?) :
    Seg mk arena' prev is as next := by
  induction is generalizing prev as with
  | nil => cases as with
    | nil => trivial
    | cons a as => exact h.elim
  | cons i is ih => cases as with
    | nil => exact h.elim
    | cons a as =>
      obtain ⟨hget, htail⟩ := seg_cons.mp h
      refine seg_cons.mpr ⟨?_, ih htail (fun j hj => hframe j (List.mem_cons_of_mem _ hj))⟩
      rw [hframe i (by simp)]
      exact hget

/-- A chain splits at any point, the two parts pointing at each other. -/
theorem seg_append {xs ys : List Nat} {bs : List α} (hlen : xs.length = as.length) :
    Seg mk arena prev (xs ++ ys) (as ++ bs) next ↔
      Seg mk arena prev xs as (ys.head?.or next) ∧
        Seg mk arena (xs.getLast?.or prev) ys bs next := by
  induction xs generalizing prev as with
  | nil =>
    have : as = [] := List.length_eq_zero_iff.mp hlen.symm
    subst this
    simp
  | cons x xs ih => cases as with
    | nil => simp at hlen
    | cons a as =>
      have hlen' : xs.length = as.length := by simpa using hlen
      have hhead : (xs ++ ys).head?.or next = xs.head?.or (ys.head?.or next) := by
        cases xs <;> simp
      have hlast : (x :: xs).getLast?.or prev = xs.getLast?.or (some x) := by
        cases xs with
        | nil => simp
        | cons y ys => simp [List.getLast?_eq_some_getLast]
      rw [List.cons_append, List.cons_append, seg_cons, seg_cons, hhead, hlast, ih hlen',
        and_assoc]

theorem seg_singleton : Seg mk arena prev [i] [a] next ↔ arena[i]? = some (mk prev next a) := by
  simp [seg_cons]

/-! ### Re-pointing an end -/

/-- Point the last node of a chain at another successor. -/
theorem seg_setNext {next' : Link} (h : Seg mk arena prev is as next) (hnd : is.Nodup)
    (hlast : ∀ t p a, is.getLast? = some t → arena[t]? = some (mk p next a) →
      arena'[t]? = some (mk p next' a))
    (hother : ∀ i ∈ is, is.getLast? ≠ some i → arena'[i]? = arena[i]?) :
    Seg mk arena' prev is as next' := by
  rcases List.eq_nil_or_concat is with rfl | ⟨xs, t, rfl⟩
  · cases as with
    | nil => trivial
    | cons a as => exact h.elim
  · -- the chain is `xs` followed by its last node `t`
    have hlen := seg_length h
    obtain ⟨as₀, b, rfl⟩ : ∃ as₀ b, as = as₀ ++ [b] := by
      rcases List.eq_nil_or_concat as with rfl | ⟨as₀, b, rfl⟩
      · simp at hlen
      · exact ⟨as₀, b, by simp⟩
    simp only [List.concat_eq_append] at h hnd hlast hother hlen ⊢
    have hlen' : xs.length = as₀.length := by simpa using hlen
    obtain ⟨hxs, ht⟩ := (seg_append hlen').mp h
    refine (seg_append hlen').mpr ⟨?_, ?_⟩
    · refine seg_frame (by simpa using hxs) (fun i hi => hother i (by simp [hi]) ?_)
      intro he
      have hti : t = i := by simpa using he
      exact (List.nodup_append.mp hnd).2.2 i hi t (by simp) hti.symm
    · rw [seg_singleton] at ht ⊢
      exact hlast t _ b (by simp) ht

/-- Point the first node of a chain at another predecessor. -/
theorem seg_setPrev {prev' : Link} (h : Seg mk arena prev is as next) (hnd : is.Nodup)
    (hfirst : ∀ i n a, is.head? = some i → arena[i]? = some (mk prev n a) →
      arena'[i]? = some (mk prev' n a))
    (hother : ∀ i ∈ is, is.head? ≠ some i → arena'[i]? = arena[i]?) :
    Seg mk arena' prev' is as next := by
  cases is with
  | nil => cases as with
    | nil => trivial
    | cons a as => exact h.elim
  | cons i is => cases as with
    | nil => exact h.elim
    | cons a as =>
      obtain ⟨hget, htail⟩ := seg_cons.mp h
      refine seg_cons.mpr ⟨hfirst i _ a rfl hget, seg_frame htail (fun j hj => ?_)⟩
      refine hother j (List.mem_cons_of_mem _ hj) (fun he => ?_)
      have hij : i = j := by simpa using he
      exact (List.nodup_cons.mp hnd).1 (hij ▸ hj)

/-! ### Looking into a chain -/

/-- What the arena holds at a node in the middle of a chain, and the chains
    on either side of it. -/
theorem seg_middle {xs ys : List Nat} {bs cs : List α} (hlen : xs.length = bs.length) :
    Seg mk arena prev (xs ++ i :: ys) (bs ++ a :: cs) next ↔
      Seg mk arena prev xs bs (some i) ∧
        arena[i]? = some (mk (xs.getLast?.or prev) (ys.head?.or next) a) ∧
          Seg mk arena (some i) ys cs next := by
  rw [seg_append hlen, seg_cons]
  simp

end Arena
