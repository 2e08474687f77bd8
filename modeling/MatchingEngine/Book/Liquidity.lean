import MatchingEngine.Book.Replace
import Mathlib.Algebra.Order.BigOperators.Group.List

/-! # Liquidity: how much of an order can execute

    `liquidity` counts, in exact integers, the shares that rest within the limit
    of an incoming order. An order fills as many of its shares as that and no
    fewer (`fill_left`), whatever the quantities are.

    `matchable` adds the same quantities up in 32 bits. It shows the liquidity
    modulo 2^32 (`toNat_matchable`), and so the liquidity itself as long as that
    fits a `Qty`.
-/

namespace MatchingEngine

/-! ## Section 1: Counting shares -/

/-- The shares of the orders of `l` that cross the limit. -/
def crossing (side : Side) (limit : Price) (l : List Resting) : Nat :=
  ((l.filter (fun o => crosses side limit o.price)).map (fun o => o.openQty.toNat)).sum

/-- The shares that rest against an incoming order within its limit. -/
def liquidity (snap : BookSnapshot) (side : Side) (limit : Price) : Nat :=
  crossing side limit (PriorityBook.entries snap side.opposite)

/-- The shares executed by some events. -/
def filledShares (es : List BookEvent) : Nat := ((fills es).map (fun x => x.qty.toNat)).sum

section crossing

variable {side : Side} {limit : Price} {o : Resting} {l : List Resting}

theorem crossing_cons (h : crosses side limit o.price) :
    crossing side limit (o :: l) = o.openQty.toNat + crossing side limit l := by
  simp [crossing, h]

theorem crossing_eq_zero (h : ∀ o ∈ l, ¬ crosses side limit o.price) :
    crossing side limit l = 0 := by
  rw [crossing, List.filter_eq_nil_iff.mpr (by simpa using h)]
  rfl

theorem le_crossing (ho : o ∈ l) (hc : crosses side limit o.price) :
    o.openQty.toNat ≤ crossing side limit l := by
  apply List.single_le_sum (fun _ _ => Nat.zero_le _) _
  apply List.mem_map_of_mem
  exact List.mem_filter.mpr ⟨ho, by simpa using hc⟩

end crossing

theorem toNat_sum_qty (l : List Qty) : l.sum.toNat = (l.map UInt32.toNat).sum % 2 ^ 32 := by
  induction l with
  | nil => rfl
  | cons q l ih => simp [ih]

theorem fills_map_executed (xs : List ExecutedEvent) : fills (xs.map .executed) = xs := by
  simp [fills, List.filterMap_map]

/-! ## Section 2: The priority book -/

namespace PriorityBook

section fill

variable {aggressor : OrderId} {side : Side} {limit : Price}

/-- **What is left of an order** is what the crossing orders do not fill. -/
theorem fill_left {l : List Resting} (h : PriorityList.Sorted side.opposite.ahead Resting.price l)
    (qty : Qty) (m : Nat) :
    (fill aggressor side limit l qty m).left.toNat = qty.toNat - crossing side limit l := by
  refine fill_induct
    (motive := fun l qty _ r => PriorityList.Sorted side.opposite.ahead Resting.price l →
      r.left.toNat = qty.toNat - crossing side limit l) ?_ ?_ ?_ ?_ l qty m h
  · intro qty m _
    simp [crossing]
  · intro o l qty m hstop hs
    rcases hstop with rfl | hn
    · simp
    · -- the head does not cross, so nothing behind it does
      rw [crossing_eq_zero, Nat.sub_zero]
      intro x hx hcross
      apply hn
      exact crosses_of_ahead hcross ((PriorityList.head_best hs hx).imp_left Eq.symm)
  · -- the head alone fills the order
    intro o l qty m _ hc hlt _
    rw [crossing_cons hc]
    have hlt' : qty.toNat < o.openQty.toNat := hlt
    show 0 = _
    omega
  · -- the head is used up
    intro o l qty m r _ hc hle ih hs
    have hle' : o.openQty ≤ qty := by grind
    rw [crossing_cons hc, ih (List.Pairwise.of_cons hs), UInt32.toNat_sub_of_le _ _ hle']
    omega

end fill

variable {b : PriorityBook}

/-- An execution against the head of a side takes its shares off the count. -/
theorem crossing_headLeft {side : Side} {limit : Price} {o : Resting} {l : List Resting}
    {exec : Qty} (hc : crosses side limit o.price) (hle : exec ≤ o.openQty) :
    exec.toNat + crossing side limit (headLeft o l exec) = crossing side limit (o :: l) := by
  have hle' : exec.toNat ≤ o.openQty.toNat := hle
  have hsub : (o.openQty - exec).toNat = o.openQty.toNat - exec.toNat :=
    UInt32.toNat_sub_of_le _ _ hle
  rw [crossing_cons hc, headLeft]
  -- an order leaves with its last share
  by_cases hzero : o.openQty - exec = 0
  · rw [if_pos hzero]
    rw [hzero] at hsub
    have : (0 : Qty).toNat = 0 := rfl
    omega
  · rw [if_neg hzero, crossing_cons (o := { o with openQty := o.openQty - exec }) hc, hsub]
    omega

theorem toNat_matchable (b : PriorityBook) (s : Side) (limit : Price) :
    (b.matchable s limit).toNat = crossing s limit (b.side s.opposite) % 2 ^ 32 := by
  rw [matchable, toNat_sum_qty, List.map_map]
  rfl

theorem WF.walk_left (h : b.WF) (id : OrderId) (s : Side) (limit : Price) (qty : Qty) :
    (b.walk id s limit qty).left.toNat = qty.toNat - crossing s limit (b.side s.opposite) :=
  fill_left (h.sides s.opposite).sorted qty b.nextMatchId

/-- The shares a walk executes, as its result and as its events have them. -/
theorem WF.walk_filled (h : b.WF) (id : OrderId) (s : Side) (limit : Price) (qty : Qty) :
    (qty - (b.walk id s limit qty).left).toNat =
        min qty.toNat (crossing s limit (b.side s.opposite)) ∧
      filledShares ((b.walk id s limit qty).events.map .executed) =
        min qty.toNat (crossing s limit (b.side s.opposite)) := by
  have hleft := h.walk_left id s limit qty
  have hsum : (b.walk id s limit qty).left.toNat +
      ((b.walk id s limit qty).events.map (fun e => e.qty.toNat)).sum = qty.toNat :=
    fill_conserves _ _ _
  have hle : (b.walk id s limit qty).left ≤ qty := by
    rw [UInt32.le_iff_toNat_le]
    omega
  constructor
  · rw [UInt32.toNat_sub_of_le _ _ hle]
    omega
  · rw [filledShares, fills_map_executed]
    omega

theorem WF.executeIoc_filled (h : b.WF) (id : OrderId) (s : Side) (limit : Price) (qty : Qty) :
    (b.executeIoc id s limit qty).2.1.toNat = min qty.toNat (crossing s limit (b.side s.opposite)) ∧
      filledShares (b.executeIoc id s limit qty).2.2 =
        min qty.toNat (crossing s limit (b.side s.opposite)) := by
  rw [executeIoc_eq]
  exact h.walk_filled id s limit qty

theorem WF.enter_filled (h : b.WF) (id : OrderId) (s : Side) (price : Price) (qty : Qty) :
    (b.enter id s price qty).2.1.toNat = min qty.toNat (crossing s price (b.side s.opposite)) ∧
      filledShares (b.enter id s price qty).2.2 =
        min qty.toNat (crossing s price (b.side s.opposite)) := by
  obtain ⟨hfilled, hevents⟩ := h.walk_filled id s price qty
  rw [enter_eq]
  by_cases hleft : (b.walk id s price qty).left = 0
  · rw [hleft, UInt32.sub_zero] at hfilled
    simp only [if_pos hleft]
    exact ⟨hfilled, hevents⟩
  · simp only [if_neg hleft]
    refine ⟨hfilled, Eq.trans ?_ hevents⟩
    simp [filledShares, fills]

/-- The matching part of an add that is accepted. -/
theorem WF.add_filled (h : b.WF) {id : OrderId} {s : Side} {price : Price} {qty : Qty}
    (hok : (b.add id s price qty).2.1.status = .ok) :
    (b.add id s price qty).2.1.filled.toNat = min qty.toNat (crossing s price (b.side s.opposite)) ∧
      filledShares (b.add id s price qty).2.2 =
        min qty.toNat (crossing s price (b.side s.opposite)) := by
  unfold add at hok ⊢
  split at hok
  · cases hok
  split at hok
  · cases hok
  split at hok
  · cases hok
  · next hp hq hid =>
    rw [if_neg hp, if_neg hq, if_neg hid]
    exact h.enter_filled id s price qty

end PriorityBook

/-! ## Section 3: The fast book -/

namespace FastBook

/-- The peek and the fills of a book that shows the orders `snap`: the peek is
    the liquidity exactly as long as that fits 32 bits, and an order is filled
    as far as the liquidity goes. -/
structure Peeks (fb : FastBook) (snap : BookSnapshot) : Prop where
  matchable : ∀ side limit, ∃ fb' available, fb.matchable side limit = some (fb', available) ∧
    available.toNat = liquidity snap side limit % 2 ^ 32 ∧
    (available.toNat = liquidity snap side limit ↔ liquidity snap side limit < 2 ^ 32)
  executeIoc : ∀ id side limit qty, ∃ fb' filled es,
    fb.executeIoc id side limit qty = some (fb', filled, es) ∧
    filled.toNat = min qty.toNat (liquidity snap side limit) ∧
    filledShares es = min qty.toNat (liquidity snap side limit)
  add : ∀ id side price qty, ∃ fb' r es, fb.add id side price qty = some (fb', r, es) ∧
    (r.status = .ok → r.filled.toNat = min qty.toNat (liquidity snap side price) ∧
      filledShares es = min qty.toNat (liquidity snap side price))

theorem Models.peeks {fb : FastBook} {a : PriorityBook} (h : Models fb a) :
    fb.Peeks a.snapshot := by
  have hliq : ∀ side limit, liquidity a.snapshot side limit =
      crossing side limit (a.side side.opposite) := by
    intro side limit
    rw [liquidity, h.wf.entries_snapshot]
  constructor
  · intro side limit
    obtain ⟨fb', heq, -⟩ := h.matchable side limit
    have hmod := a.toNat_matchable side limit
    rw [← hliq] at hmod
    refine ⟨fb', _, heq, hmod, ?_⟩
    rw [hmod]
    exact Nat.mod_eq_iff_lt (by decide)
  · intro id side limit qty
    obtain ⟨fb', heq, -⟩ := h.matchOrder id side limit qty
    refine ⟨fb', _, _, heq, ?_⟩
    rw [hliq]
    exact h.wf.executeIoc_filled id side limit qty
  · intro id side price qty
    obtain ⟨fb', heq, -⟩ := h.add id side price qty
    refine ⟨fb', _, _, heq, fun hok => ?_⟩
    rw [hliq]
    exact h.wf.add_filled hok

/-- In a ladder that is too wide an order is not filled although a share rests
    within its limit. -/
theorem not_peeks_of_wide {cfg : Config} (htick : 0 < cfg.tick)
    (hwide : 2 ^ 30 ≤ cfg.bandHalfTicks.toInt) :
    ∃ fb answers, Machine.run perform (create cfg) [.add 1 .sell 1 1, .add 2 .buy 1 1] =
      some (fb, answers) ∧ ∀ snap, fb.snapshot = some snap → ¬ fb.Peeks snap := by
  obtain ⟨fb₁, fb, t, hadd₁, hadd₂, h⟩ := wide_adds htick hwide
  refine ⟨fb, _, by simp [Machine.run, perform, hadd₁, hadd₂]; rfl, ?_⟩
  intro snap hsnap hpeeks
  have hrests := mem_entries_of_ladder (i := 0) (o := ⟨1, 1, 1, none, some 1, .sell⟩) hsnap
    h.level rfl (by rw [h.pool]; rfl)
  rw [h.price] at hrests
  -- the sell order is shown, but a buy order walks past it
  have hle : 1 ≤ liquidity snap .buy 1 := le_crossing hrests (by decide)
  obtain ⟨fb', filled, es, heq, hfilled, -⟩ := hpeeks.executeIoc 3 .buy 1 1
  obtain ⟨cursor, hmatch⟩ := h.blind.matchOrder 3 1 (show (1 : Qty) ≠ 0 by decide)
  obtain ⟨-, rfl, -⟩ : _ ∧ 0 = filled ∧ _ := by
    simpa only [FastBook.executeIoc, hmatch, Option.some.injEq, Prod.mk.injEq] using heq
  simp at hfilled
  omega

/-- **The peek tells what the fills do**, up to the width of a `Qty`, exactly as
    long as the size of the ladder fits an `int`. -/
theorem peeks_iff {cfg : Config} (htick : 0 < cfg.tick) (hhalf : 0 ≤ cfg.bandHalfTicks.toInt) :
    (∀ ops, ∃ fb answers snap, Machine.run perform (create cfg) ops = some (fb, answers) ∧
      fb.snapshot = some snap ∧ fb.Peeks snap) ↔ cfg.bandHalfTicks.toInt < 2 ^ 30 := by
  constructor
  · intro h
    by_contra hwide
    obtain ⟨fb, answers, hrun, hnot⟩ := not_peeks_of_wide htick (Int.not_lt.mp hwide)
    obtain ⟨fb', answers', snap, hrun', hsnap, hpeeks⟩ := h [.add 1 .sell 1 1, .add 2 .buy 1 1]
    cases hrun.symm.trans hrun'
    exact hnot snap hsnap hpeeks
  · intro hlt ops
    obtain ⟨fb, a, answers, hrun, -, h⟩ := simulation.run (models_create ⟨htick, hhalf, hlt⟩) ops
    exact ⟨fb, answers, a.snapshot, hrun, h.snapshot, h.peeks⟩

end FastBook

end MatchingEngine
