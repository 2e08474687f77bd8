import MatchingEngine.Book.PriorityBook
import Mathlib.Data.Fintype.EquivFin
import Mathlib.Logic.Equiv.Basic

/-! # Renaming orders

    A book compares the references of orders for equality and does nothing else
    with them. Its operations therefore commute with every injective renaming:
    renaming the orders first and then entering, canceling or replacing one
    gives the renamed book, the same result and the renamed events.

    It follows that an operation speaks only of the orders it is given
    (`mem_of_fixed`): a renaming that fixes these fixes the events.
-/

namespace MatchingEngine

/-! ## Section 1: Renaming -/

section defs

variable (ρ : OrderId → OrderId)

def Resting.rename (o : Resting) : Resting := { o with id := ρ o.id }

def PriorityBook.rename (b : PriorityBook) : PriorityBook :=
  { b with bids := b.bids.map (Resting.rename ρ), asks := b.asks.map (Resting.rename ρ) }

def ExecutedEvent.rename (x : ExecutedEvent) : ExecutedEvent :=
  { x with restingId := ρ x.restingId, aggressorId := ρ x.aggressorId }

def BookEvent.rename : BookEvent → BookEvent
  | .added x => .added { x with id := ρ x.id }
  | .executed x => .executed (x.rename ρ)
  | .canceled x => .canceled { x with id := ρ x.id }
  | .replaced x => .replaced { x with oldId := ρ x.oldId, newId := ρ x.newId }

/-- The orders that an event speaks of. -/
def BookEvent.ids : BookEvent → List OrderId
  | .added x => [x.id]
  | .executed x => [x.restingId, x.aggressorId]
  | .canceled x => [x.id]
  | .replaced x => [x.oldId, x.newId]

def SnapshotOrder.rename (o : SnapshotOrder) : SnapshotOrder := { o with id := ρ o.id }

def SnapshotLevel.rename (l : SnapshotLevel) : SnapshotLevel :=
  { l with orders := l.orders.map (SnapshotOrder.rename ρ) }

def BookSnapshot.rename (s : BookSnapshot) : BookSnapshot :=
  ⟨s.bids.map (SnapshotLevel.rename ρ), s.asks.map (SnapshotLevel.rename ρ)⟩

/-- The outcome of an operation, renamed. -/
def PriorityBook.renameResult {α : Type} (r : PriorityBook × α × List BookEvent) :
    PriorityBook × α × List BookEvent :=
  (r.1.rename ρ, r.2.1, r.2.2.map (BookEvent.rename ρ))

end defs

theorem BookEvent.rename_congr {ρ ρ' : OrderId → OrderId} {ev : BookEvent}
    (h : ∀ id ∈ ev.ids, ρ id = ρ' id) : ev.rename ρ = ev.rename ρ' := by
  cases ev <;> simp_all [rename, ids, ExecutedEvent.rename]

theorem BookEvent.rename_id (ev : BookEvent) : ev.rename id = ev := by
  cases ev <;> rfl

theorem BookEvent.fixed_of_rename {ρ : OrderId → OrderId} {ev : BookEvent} (h : ev.rename ρ = ev)
    {id : OrderId} (hid : id ∈ ev.ids) : ρ id = id := by
  cases ev with
  | added x =>
    obtain ⟨i, s, p, q⟩ := x
    simp_all [rename, ids]
  | canceled x =>
    obtain ⟨i, q, r⟩ := x
    simp_all [rename, ids]
  | executed x =>
    obtain ⟨i, j, s, p, q, m⟩ := x
    simp only [rename, ExecutedEvent.rename, executed.injEq, ExecutedEvent.mk.injEq, ids,
      List.mem_cons, List.not_mem_nil, or_false] at h hid
    rcases hid with rfl | rfl
    · exact h.1
    · exact h.2.1
  | replaced x =>
    obtain ⟨i, j, s, p, q⟩ := x
    simp only [rename, replaced.injEq, ReplacedEvent.mk.injEq, ids, List.mem_cons, List.not_mem_nil,
      or_false] at h hid
    rcases hid with rfl | rfl
    · exact h.1
    · exact h.2.1

namespace PriorityBook

variable {ρ : OrderId → OrderId}

theorem price_rename (o : Resting) : (o.rename ρ).price = o.price := rfl

@[simp] theorem side_rename (b : PriorityBook) (s : Side) :
    (b.rename ρ).side s = (b.side s).map (Resting.rename ρ) := by
  cases s <;> rfl

@[simp] theorem rename_setSide (b : PriorityBook) (s : Side) (l : List Resting) :
    (b.setSide s l).rename ρ = (b.rename ρ).setSide s (l.map (Resting.rename ρ)) := by
  cases s <;> rfl

theorem rename_congr {ρ' : OrderId → OrderId} {b : PriorityBook}
    (h : ∀ s, ∀ o ∈ b.side s, ρ o.id = ρ' o.id) : b.rename ρ = b.rename ρ' := by
  have hside : ∀ s, (b.side s).map (Resting.rename ρ) = (b.side s).map (Resting.rename ρ') := by
    intro s
    apply List.map_congr_left
    intro o ho
    rw [Resting.rename, Resting.rename, h s o ho]
  have hbids := hside .buy
  have hasks := hside .sell
  simp only [side] at hbids hasks
  rw [rename, rename, hbids, hasks]

/-! ## Section 2: The operations -/

section operations

variable (hρ : Function.Injective ρ)

include hρ

theorem find_rename (l : List Resting) (id : OrderId) :
    (l.map (Resting.rename ρ)).find? (fun o => o.id = ρ id) =
      (l.find? (fun o => o.id = id)).map (Resting.rename ρ) := by
  rw [List.find?_map]
  congr 2
  funext o
  simp [Resting.rename, hρ.eq_iff]

theorem lookup_rename (b : PriorityBook) (id : OrderId) :
    (b.rename ρ).lookup (ρ id) = (b.lookup id).map (fun x => (x.1, x.2.rename ρ)) := by
  simp only [lookup, rename, find_rename hρ]
  -- the asks are searched when the bids have no such order
  cases b.bids.find? (fun o => o.id = id) with
  | some o => rfl
  | none => simp [Function.comp_def]

theorem contains_rename (b : PriorityBook) (id : OrderId) :
    (b.rename ρ).contains (ρ id) = b.contains id := by
  rw [contains, contains, lookup_rename hρ, Option.isSome_map]

theorem rename_remove (b : PriorityBook) (id : OrderId) :
    (b.remove id).rename ρ = (b.rename ρ).remove (ρ id) := by
  simp [remove, rename, List.filter_map, Function.comp_def, Resting.rename, hρ.eq_iff]

theorem rename_setOpen (b : PriorityBook) (id : OrderId) (qty : Qty) :
    (b.setOpen id qty).rename ρ = (b.rename ρ).setOpen (ρ id) qty := by
  have hone : ∀ o : Resting, (if o.id = id then { o with openQty := qty } else o).rename ρ =
      if (o.rename ρ).id = ρ id then { o.rename ρ with openQty := qty } else o.rename ρ := by
    intro o
    simp only [Resting.rename, hρ.eq_iff]
    split <;> rfl
  simp [setOpen, rename, Function.comp_def, hone]

theorem cancel_rename (b : PriorityBook) (id : OrderId) (keep : Qty) :
    (b.rename ρ).cancel (ρ id) keep = renameResult ρ (b.cancel id keep) := by
  unfold cancel
  rw [lookup_rename hρ]
  cases b.lookup id with
  | none => rfl
  | some x =>
    obtain ⟨s, o⟩ := x
    simp only [Option.map_some, Resting.rename]
    split
    · rfl
    · split
      · -- nothing is kept
        rw [← rename_remove hρ]
        rfl
      · -- the order keeps its place
        rw [← rename_setOpen hρ]
        rfl

omit hρ

/-- A walk does not compare the orders at all. -/
theorem fill_rename (id : OrderId) (s : Side) (limit : Price) (l : List Resting) (qty : Qty)
    (m : Nat) : fill (ρ id) s limit (l.map (Resting.rename ρ)) qty m =
      let r := fill id s limit l qty m
      ⟨r.rest.map (Resting.rename ρ), r.left, r.nextMatchId,
        r.events.map (ExecutedEvent.rename ρ)⟩ := by
  induction l generalizing qty m with
  | nil => rfl
  | cons o l ih =>
    simp only [List.map_cons, fill, Resting.rename]
    split
    · rfl
    · split
      · rfl
      · simp [ih, ExecutedEvent.rename]

theorem executeIoc_rename (b : PriorityBook) (id : OrderId) (s : Side) (limit : Price) (qty : Qty) :
    (b.rename ρ).executeIoc (ρ id) s limit qty = renameResult ρ (b.executeIoc id s limit qty) := by
  have hwalk : (b.rename ρ).walk (ρ id) s limit qty =
      ⟨(b.walk id s limit qty).rest.map (Resting.rename ρ), (b.walk id s limit qty).left,
        (b.walk id s limit qty).nextMatchId,
        (b.walk id s limit qty).events.map (ExecutedEvent.rename ρ)⟩ := by
    rw [walk, side_rename]
    exact fill_rename id s limit _ qty _
  rw [executeIoc_eq, executeIoc_eq, hwalk]
  refine Prod.ext ?_ (Prod.ext rfl ?_)
  · cases s <;> rfl
  · simp [renameResult, Function.comp_def, BookEvent.rename]

theorem rename_rest (b : PriorityBook) (id : OrderId) (s : Side) (price : Price) (qty : Qty) :
    (b.rest id s price qty).rename ρ = (b.rename ρ).rest (ρ id) s price qty := by
  rw [rest, rest, rename_setSide, side_rename]
  have hplace : (PriorityList.enqueue s.ahead Resting.price ⟨id, price, qty⟩ (b.side s)).map
      (Resting.rename ρ) =
        PriorityList.enqueue s.ahead Resting.price ⟨ρ id, price, qty⟩
          ((b.side s).map (Resting.rename ρ)) :=
    PriorityList.map_enqueue price_rename ⟨id, price, qty⟩ (b.side s)
  rw [hplace]

theorem enter_rename (b : PriorityBook) (id : OrderId) (s : Side) (price : Price) (qty : Qty) :
    (b.rename ρ).enter (ρ id) s price qty = renameResult ρ (b.enter id s price qty) := by
  unfold enter
  rw [executeIoc_rename]
  obtain ⟨b', filled, events⟩ := b.executeIoc id s price qty
  dsimp only [renameResult]
  by_cases hleft : qty - filled > 0
  · -- what is left rests, and is shown last
    rw [if_pos hleft, if_pos hleft, rename_rest, List.map_append]
    rfl
  · rw [if_neg hleft, if_neg hleft]

include hρ in
theorem add_rename (b : PriorityBook) (id : OrderId) (s : Side) (price : Price) (qty : Qty) :
    (b.rename ρ).add (ρ id) s price qty = renameResult ρ (b.add id s price qty) := by
  unfold add
  rw [contains_rename hρ, enter_rename]
  split
  · rfl
  · split
    · rfl
    · split
      · rfl
      · rfl

theorem wouldCross_rename (b : PriorityBook) (s : Side) (price : Price) :
    (b.rename ρ).wouldCross s price = b.wouldCross s price := by
  have hbest : ∀ s, (b.rename ρ).best s = b.best s := by
    intro s
    rw [best, best, side_rename, List.head?_map, Option.map_map]
    rfl
  rw [wouldCross, wouldCross, hbest]

include hρ in
theorem replace_rename (b : PriorityBook) (oldId newId : OrderId) (price : Price) (qty : Qty) :
    (b.rename ρ).replace (ρ oldId) (ρ newId) price qty =
      renameResult ρ (b.replace oldId newId price qty) := by
  unfold replace
  rw [lookup_rename hρ, contains_rename hρ, ← rename_remove hρ]
  cases b.lookup oldId with
  | none => rfl
  | some x =>
    obtain ⟨s, o⟩ := x
    -- whether it would cross is a matter of prices
    simp only [Option.map_some, hρ.eq_iff, wouldCross_rename, enter_rename]
    split
    · rfl
    · split
      · rfl
      · split
        · rfl
        · rw [← rename_rest]
          rfl

theorem matchable_rename (b : PriorityBook) (s : Side) (limit : Price) :
    (b.rename ρ).matchable s limit = b.matchable s limit := by
  rw [matchable, matchable, side_rename, List.filter_map, List.map_map]
  rfl

theorem snapshot_rename (b : PriorityBook) : (b.rename ρ).snapshot = b.snapshot.rename ρ := by
  have hside : ∀ s l, snapshotSide s (l.map (Resting.rename ρ)) =
      (snapshotSide s l).map (SnapshotLevel.rename ρ) := by
    intro s l
    have hlevels : (PriorityList.levels s.ahead Resting.price l).map
        (fun e => (e.1, e.2.map (Resting.rename ρ))) =
          PriorityList.levels s.ahead Resting.price (l.map (Resting.rename ρ)) :=
      PriorityList.map_levels price_rename l
    rw [snapshotSide, snapshotSide, ← hlevels, List.map_map, List.map_map]
    apply List.map_congr_left
    intro e _
    simp [SnapshotLevel.rename, SnapshotOrder.rename, Resting.rename, Function.comp_def]
  rw [snapshot, snapshot]
  simp only [rename, hside]
  rfl

end operations

/-! ## Section 3: What an operation speaks of -/

/-- The orders that rest. -/
def ids (b : PriorityBook) : Finset OrderId := ((b.bids ++ b.asks).map Resting.id).toFinset

theorem mem_ids {b : PriorityBook} {id : OrderId} :
    id ∈ b.ids ↔ ∃ s, ∃ o ∈ b.side s, o.id = id := by
  constructor
  · intro h
    simp only [ids, List.map_append, List.mem_toFinset, List.mem_append, List.mem_map] at h
    rcases h with ⟨o, ho, hid⟩ | ⟨o, ho, hid⟩
    · exact ⟨.buy, o, ho, hid⟩
    · exact ⟨.sell, o, ho, hid⟩
  · rintro ⟨s, o, ho, hid⟩
    cases s with
    | buy => exact List.mem_toFinset.mpr (List.mem_map.mpr ⟨o, List.mem_append_left _ ho, hid⟩)
    | sell => exact List.mem_toFinset.mpr (List.mem_map.mpr ⟨o, List.mem_append_right _ ho, hid⟩)

theorem rename_of_fixed {b : PriorityBook} (h : ∀ id ∈ b.ids, ρ id = id) : b.rename ρ = b := by
  have hid : b.rename id = b := by
    have hone : Resting.rename id = id := rfl
    simp [rename, hone]
  have hcongr : b.rename ρ = b.rename id :=
    rename_congr (fun s o ho => h o.id (mem_ids.mpr ⟨s, o, ho, rfl⟩))
  rw [hcongr, hid]

/-- An outcome that is fixed by every renaming that fixes `K` speaks of `K` only. -/
theorem mem_of_fixed {α : Type} {K : Finset OrderId} {r : PriorityBook × α × List BookEvent}
    (h : ∀ ρ : OrderId → OrderId, Function.Injective ρ → (∀ id ∈ K, ρ id = id) →
      renameResult ρ r = r)
    {ev : BookEvent} (hev : ev ∈ r.2.2) {id : OrderId} (hid : id ∈ ev.ids) : id ∈ K := by
  by_contra hnot
  -- exchange the order with one that does not occur
  obtain ⟨other, hother⟩ := Infinite.exists_notMem_finset (insert id K)
  rw [Finset.mem_insert, not_or] at hother
  have hfixed : r.2.2.map (BookEvent.rename (Equiv.swap id other)) = r.2.2 := by
    refine congrArg (·.2.2) (h (Equiv.swap id other) (Equiv.injective _) (fun i hi => ?_))
    apply Equiv.swap_apply_of_ne_of_ne
    · rintro rfl
      exact hnot hi
    · rintro rfl
      exact hother.2 hi
  have hsame : ev.rename (Equiv.swap id other) = ev := by
    obtain ⟨i, hi, rfl⟩ := List.getElem_of_mem hev
    have hget := congrArg (·[i]?) hfixed
    simpa [hi] using hget
  have hmoved : Equiv.swap id other id = id := BookEvent.fixed_of_rename hsame hid
  rw [Equiv.swap_apply_left] at hmoved
  exact hother.1 hmoved

section mentions

variable {b : PriorityBook} {id : OrderId} {s : Side} {price : Price} {qty : Qty} {ev : BookEvent}
  {r : OrderId}

theorem mem_ids_executeIoc (hev : ev ∈ (b.executeIoc id s price qty).2.2) (hr : r ∈ ev.ids) :
    r ∈ insert id b.ids := by
  refine mem_of_fixed (fun ρ _ hfix => ?_) hev hr
  rw [← executeIoc_rename, rename_of_fixed (fun i hi => hfix i (by simp [hi])), hfix id (by simp)]

theorem mem_ids_add (hev : ev ∈ (b.add id s price qty).2.2) (hr : r ∈ ev.ids) :
    r ∈ insert id b.ids := by
  refine mem_of_fixed (fun ρ hρ hfix => ?_) hev hr
  rw [← add_rename hρ, rename_of_fixed (fun i hi => hfix i (by simp [hi])), hfix id (by simp)]

theorem mem_ids_cancel (hev : ev ∈ (b.cancel id qty).2.2) (hr : r ∈ ev.ids) :
    r ∈ insert id b.ids := by
  refine mem_of_fixed (fun ρ hρ hfix => ?_) hev hr
  rw [← cancel_rename hρ, rename_of_fixed (fun i hi => hfix i (by simp [hi])), hfix id (by simp)]

theorem mem_ids_replace {oldId : OrderId} (hev : ev ∈ (b.replace oldId id price qty).2.2)
    (hr : r ∈ ev.ids) : r ∈ insert oldId (insert id b.ids) := by
  refine mem_of_fixed (fun ρ hρ hfix => ?_) hev hr
  rw [← replace_rename hρ, rename_of_fixed (fun i hi => hfix i (by simp [hi])), hfix id (by simp),
    hfix oldId (by simp)]

end mentions

end PriorityBook

end MatchingEngine
