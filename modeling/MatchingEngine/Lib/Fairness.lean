import Mathlib.Order.WellFounded
import Mathlib.Tactic.Choose

/-! # Fair runs

    Threads that take turns, under a scheduler that is only known to be fair: an
    infinite run in which certain inputs come again and again. An input is an
    attempt, and a relation says what can come of it, which may be nothing.

    * `LeadsTo P Q`: whenever `P` holds, `Q` holds then or later.
    * `leadsTo_of_measure` is the rule by which it is shown: one kind of input
      helps, in that it lowers a measure, and no other input spoils what was
      gained.
-/

namespace Fairness

variable {S I : Type*} {attempt : S → I → S → Prop}

/-- An infinite run. -/
structure Run (attempt : S → I → S → Prop) where
  state : Nat → S
  input : Nat → I
  next : ∀ n, attempt (state n) (input n) (state (n + 1))

namespace Run

/-- Inputs of this kind come again and again. -/
def Often (r : Run attempt) (helpful : I → Prop) : Prop := ∀ n, ∃ m, n ≤ m ∧ helpful (r.input m)

/-- Such inputs come again and again in such states. -/
def OftenIn (r : Run attempt) (helpful : S → I → Prop) : Prop :=
  ∀ n, ∃ m, n ≤ m ∧ helpful (r.state m) (r.input m)

theorem Often.oftenIn {r : Run attempt} {helpful : I → Prop} (h : r.Often helpful) :
    r.OftenIn (fun _ i => helpful i) := h

def LeadsTo (r : Run attempt) (P Q : S → Prop) : Prop :=
  ∀ n, P (r.state n) → ∃ m, n ≤ m ∧ Q (r.state m)

theorem LeadsTo.trans {r : Run attempt} {P Q R : S → Prop} (hpq : r.LeadsTo P Q)
    (hqr : r.LeadsTo Q R) : r.LeadsTo P R := by
  intro n hp
  obtain ⟨m, hnm, hq⟩ := hpq n hp
  obtain ⟨k, hmk, hr⟩ := hqr m hq
  exact ⟨k, Nat.le_trans hnm hmk, hr⟩

section measure

variable {α : Type*} [Preorder α] {P Q : S → Prop} (μ : S → α) {helpful : S → I → Prop}

/-- Until the next helpful input, `P` is kept and the measure does not grow. -/
theorem helped (r : Run attempt) (hoften : r.OftenIn helpful)
    (others : ∀ {s i s'}, P s → ¬ Q s → attempt s i s' → Q s' ∨ P s' ∧ μ s' ≤ μ s)
    (helps : ∀ {s i s'}, P s → ¬ Q s → helpful s i → attempt s i s' → Q s' ∨ P s' ∧ μ s' < μ s)
    {n : Nat} (hp : P (r.state n)) (hq : ¬ Q (r.state n)) :
    ∃ m, n ≤ m ∧ (Q (r.state m) ∨ P (r.state m) ∧ μ (r.state m) < μ (r.state n)) := by
  obtain ⟨m, hnm, hhelpful⟩ := hoften n
  obtain ⟨k, rfl⟩ := Nat.exists_eq_add_of_le hnm
  -- by induction on the number of inputs before the helpful one
  induction k generalizing n with
  | zero => exact ⟨n + 1, Nat.le_succ n, helps hp hq hhelpful (r.next n)⟩
  | succ k ih =>
    by_cases hq' : Q (r.state (n + 1))
    · exact ⟨n + 1, Nat.le_succ n, .inl hq'⟩
    · obtain ⟨hp', hle⟩ := (others hp hq (r.next n)).resolve_left hq'
      have hlater : helpful (r.state (n + 1 + k)) (r.input (n + 1 + k)) := by
        rw [Nat.add_right_comm]
        exact hhelpful
      obtain ⟨m, hm, hend | ⟨hpm, hlt⟩⟩ := ih hp' hq' (Nat.le_add_right _ _) hlater
      · exact ⟨m, Nat.le_of_succ_le hm, .inl hend⟩
      · exact ⟨m, Nat.le_of_succ_le hm, .inr ⟨hpm, lt_of_lt_of_le hlt hle⟩⟩

/-- **The rule of the measure.** -/
theorem leadsTo_of_measure [WellFoundedLT α] (r : Run attempt) (hoften : r.OftenIn helpful)
    (others : ∀ {s i s'}, P s → ¬ Q s → attempt s i s' → Q s' ∨ P s' ∧ μ s' ≤ μ s)
    (helps : ∀ {s i s'}, P s → ¬ Q s → helpful s i → attempt s i s' → Q s' ∨ P s' ∧ μ s' < μ s) :
    r.LeadsTo P Q := by
  intro n hp
  induction hμ : μ (r.state n) using WellFoundedLT.induction generalizing n with
  | ind x ih =>
    subst hμ
    by_cases hq : Q (r.state n)
    · exact ⟨n, Nat.le_refl n, hq⟩
    · obtain ⟨m, hnm, hend | ⟨hpm, hlt⟩⟩ := r.helped μ hoften others helps hp hq
      · exact ⟨m, hnm, hend⟩
      · obtain ⟨k, hmk, hend⟩ := ih _ hlt m hpm rfl
        exact ⟨k, Nat.le_trans hnm hmk, hend⟩

/-- What one helpful input achieves. -/
theorem leadsTo_of_step (r : Run attempt) (hoften : r.OftenIn helpful)
    (others : ∀ {s i s'}, P s → ¬ Q s → attempt s i s' → Q s' ∨ P s')
    (helps : ∀ {s i s'}, P s → ¬ Q s → helpful s i → attempt s i s' → Q s') : r.LeadsTo P Q :=
  r.leadsTo_of_measure (fun _ => 0) hoften
    (fun hp hq hstep => (others hp hq hstep).imp_right (fun hp' => ⟨hp', Nat.le_refl 0⟩))
    (fun hp hq hhelpful hstep => .inl (helps hp hq hhelpful hstep))

end measure

end Run

/-- Where something comes of every attempt, every schedule has a run. -/
theorem exists_run (total : ∀ s i, ∃ s', attempt s i s') (s : S) (schedule : Nat → I) :
    ∃ r : Run attempt, r.state 0 = s ∧ r.input = schedule := by
  choose next hnext using total
  exact ⟨⟨fun n => Nat.rec s (fun n s => next s (schedule n)) n, schedule, fun n => hnext _ _⟩,
    rfl, rfl⟩

end Fairness
