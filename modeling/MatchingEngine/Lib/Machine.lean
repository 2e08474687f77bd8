import Mathlib.Data.Option.Basic

/-! # Machines and their simulation

    A machine with inputs `I` and outputs `O` is a step function
    `S → I → Option (S × O)`; a step that gives `none` is a fault. Two machines
    run in *lockstep* on a list of inputs when neither faults, each input gets
    the same output from both, and their states agree at every point. A
    simulation between them is a relation that gives lockstep on all inputs.
-/

namespace Machine

variable {S T U I O : Type*}

variable {f : S → I → Option (S × O)} {s : S} {g : T → I → Option (T × O)} {l : List S}

/-- A run collects the outputs; a fault ends it. -/
def run (f : S → I → Option (S × O)) : S → List I → Option (S × List O)
  | s, [] => some (s, [])
  | s, i :: is => do
    let (s', o) ← f s i
    let (s'', os) ← run f s' is
    some (s'', o :: os)

/-- A run in two parts. -/
theorem run_append {is js : List I} :
    run f s (is ++ js) =
      (run f s is).bind (fun r => (run f r.1 js).map (fun r' => (r'.1, r.2 ++ r'.2))) := by
  induction is generalizing s with
  | nil => cases h : run f s js <;> simp [run, h]
  | cons i is ih =>
    cases hi : f s i with
    | none => simp [run, hi]
    | some r =>
      cases his : run f r.1 is with
      | none => simp [run, hi, ih, his]
      | some r' => cases hjs : run f r'.1 js <;> simp [run, hi, ih, his, hjs]

/-- Both machines answer each input alike, and their states agree under `Agree`
    before, between and after the inputs. -/
def Lockstep (Agree : S → T → Prop) (f : S → I → Option (S × O)) (g : T → I → Option (T × O)) :
    S → T → List I → Prop
  | s, t, [] => Agree s t
  | s, t, i :: is => Agree s t ∧
      ∃ s' t' o, f s i = some (s', o) ∧ g t i = some (t', o) ∧ Lockstep Agree f g s' t' is

/-- Related states answer each input alike and stay related. -/
def Simulation (R : S → T → Prop) (f : S → I → Option (S × O)) (g : T → I → Option (T × O)) :
    Prop :=
  ∀ s t, R s t → ∀ i, ∃ s' t' o, f s i = some (s', o) ∧ g t i = some (t', o) ∧ R s' t'

theorem Simulation.lockstep {R Agree : S → T → Prop} (h : Simulation R f g)
    (hagree : ∀ s t, R s t → Agree s t) {t : T} (hst : R s t) (is : List I) :
    Lockstep Agree f g s t is := by
  induction is generalizing s t with
  | nil => exact hagree s t hst
  | cons i is ih =>
    obtain ⟨s', t', o, hf, hg, hst'⟩ := h s t hst i
    exact ⟨hagree s t hst, s', t', o, hf, hg, ih hst'⟩

theorem Simulation.run {R : S → T → Prop} (h : Simulation R f g) {t : T} (hst : R s t)
    (is : List I) :
    ∃ s' t' os, Machine.run f s is = some (s', os) ∧ Machine.run g t is = some (t', os) ∧
      R s' t' := by
  induction is generalizing s t with
  | nil => exact ⟨s, t, [], rfl, rfl, hst⟩
  | cons i is ih =>
    obtain ⟨s₁, t₁, o, hf, hg, hst₁⟩ := h s t hst i
    obtain ⟨s', t', os, hf', hg', hst'⟩ := ih hst₁
    exact ⟨s', t', o :: os, by simp [Machine.run, hf, hf'], by simp [Machine.run, hg, hg'], hst'⟩

/-- Two machines that simulate a common one simulate each other. -/
theorem Simulation.common {R : S → U → Prop} {R' : T → U → Prop} {k : U → I → Option (U × O)}
    (h : Simulation R f k) (h' : Simulation R' g k) :
    Simulation (fun s t => ∃ u, R s u ∧ R' t u) f g := by
  rintro s t ⟨u, hs, ht⟩ i
  obtain ⟨s', u', o, hf, hk, hs'⟩ := h s u hs i
  obtain ⟨t', u'', o', hg, hk', ht'⟩ := h' t u ht i
  -- the common machine is deterministic
  obtain ⟨rfl, rfl⟩ := Prod.mk.inj (Option.some.inj (hk.symm.trans hk'))
  exact ⟨s', t', o, hf, hg, u', hs', ht'⟩

/-! ### Steps without outputs -/

/-- What every step keeps, a run keeps. -/
theorem foldlM_induct {f : S → I → Option S} {P : S → Prop}
    (step : ∀ {s i s'}, P s → f s i = some s' → P s') (is : List I) {s' : S} (hs : P s)
    (h : is.foldlM f s = some s') : P s' := by
  induction is generalizing s with
  | nil => exact Option.some.inj h ▸ hs
  | cons i is ih =>
    rw [List.foldlM_cons, Option.bind_eq_bind, Option.bind_eq_some_iff] at h
    obtain ⟨t, ht, h⟩ := h
    exact ih (step hs ht) h

/-- What holds after each of some inputs, one input at a time. -/
theorem forall_take_iff {P : List I → Prop} {Q : List I → I → Prop} (start : P [])
    (step : ∀ is i, P is → (P (is ++ [i]) ↔ Q is i)) (is : List I) :
    (∀ k, P (is.take k)) ↔ ∀ k i, is[k]? = some i → Q (is.take k) i := by
  constructor
  · intro h k i hi
    have hnext := h (k + 1)
    rw [List.take_add_one, hi] at hnext
    exact (step _ i (h k)).mp hnext
  · intro h k
    induction k with
    | zero => exact start
    | succ k ih =>
      rw [List.take_add_one]
      cases hi : is[k]? with
      | none =>
        -- the inputs are at an end
        rw [Option.toList_none, List.append_nil]
        exact ih
      | some i => exact (step _ i ih).mpr (h k i hi)

/-- An input that no state survives. -/
theorem foldlM_eq_none {f : S → I → Option S} {is : List I} {i : I} (hi : i ∈ is)
    (h : ∀ s, f s i = none) (s : S) : is.foldlM f s = none := by
  induction is generalizing s with
  | nil => cases hi
  | cons j is ih =>
    rw [List.foldlM_cons]
    rcases List.mem_cons.mp hi with rfl | hi
    · rw [h s]
      rfl
    · cases f s j with
      | none => rfl
      | some t => exact ih hi t

theorem mapM_some {f : S → Option T} {g : S → T} (h : ∀ x ∈ l, f x = some (g x)) :
    l.mapM f = some (l.map g) := by
  induction l with
  | nil => rfl
  | cons x l ih =>
    rw [List.mapM_cons, h x (by simp), ih (fun y hy => h y (by simp [hy]))]
    rfl

theorem mapM_congr {f g : S → Option T} (h : ∀ x ∈ l, f x = g x) : l.mapM f = l.mapM g := by
  induction l with
  | nil => rfl
  | cons x l ih =>
    rw [List.mapM_cons, List.mapM_cons, h x (by simp), ih (fun y hy => h y (by simp [hy]))]

/-- What `mapM` collects are the results for the elements. -/
theorem map_of_mapM {f : S → Option T} {r : List T} (h : l.mapM f = some r) :
    l.map f = r.map some := by
  induction l generalizing r with
  | nil =>
    cases h
    rfl
  | cons x l ih =>
    rw [List.mapM_cons, Option.bind_eq_bind, Option.bind_eq_some_iff] at h
    obtain ⟨y, hy, h⟩ := h
    rw [Option.bind_eq_bind, Option.bind_eq_some_iff] at h
    obtain ⟨ys, hys, heq⟩ := h
    cases heq
    rw [List.map_cons, hy, ih hys, List.map_cons]

/-- A fold none of whose steps has an effect. -/
theorem foldlM_of_pure {m : Type → Type} [Monad m] [LawfulMonad m] {S I : Type} {f : S → I → m S}
    {g : S → I → S} {is : List I} (h : ∀ i ∈ is, ∀ s, f s i = pure (g s i)) (s : S) :
    is.foldlM f s = pure (is.foldl g s) := by
  induction is generalizing s with
  | nil => rfl
  | cons i is ih =>
    rw [List.foldlM_cons, h i (by simp), pure_bind]
    exact ih (fun j hj => h j (by simp [hj])) (g s i)

end Machine
