import MatchingEngine.Lib.PriorityList
import MatchingEngine.Common.Types
import Mathlib.Algebra.GroupWithZero.Nat
import Mathlib.Data.List.Nodup
import Mathlib.Data.UInt

/-! # The priority book: what a limit order book is for

    An abstract model of a price-time priority book. Each side is one list of
    resting orders, best price first and earliest first within a price. An
    incoming order walks the opposite list from its head (`fill`); what is
    left of it joins its own side behind every order that is at least as good
    (`rest`).

    Both books of the source are shown to implement this one: the reference
    `OrderBook` (maps of FIFO lists) and the `FastBook` (tick ladder, fallback
    maps, order pool). Everything the engine does is then argued about here.
-/

namespace MatchingEngine

open PriorityList

/-- A resting order. Its side is the list it stands in. -/
structure Resting where
  id : OrderId
  price : Price
  openQty : Qty
  deriving DecidableEq, Repr

structure PriorityBook where
  bids : List Resting := []
  asks : List Resting := []
  nextMatchId : Nat := 1
  deriving DecidableEq, Repr

/-- The outcome of an incoming order walking a list of resting orders. -/
structure Fill where
  rest : List Resting
  left : Qty
  nextMatchId : Nat
  events : List ExecutedEvent

namespace PriorityBook

variable {s : Side} {l' l : List Resting} {b : PriorityBook} {id : OrderId} {price : Price}
  {qty : Qty}

/-! ## Section 1: Operations -/

def side (b : PriorityBook) : Side → List Resting
  | .buy => b.bids
  | .sell => b.asks

def setSide (b : PriorityBook) (s : Side) (l : List Resting) : PriorityBook :=
  match s with
  | .buy => { b with bids := l }
  | .sell => { b with asks := l }

/-- The resting order with a given id, and its side. -/
def lookup (b : PriorityBook) (id : OrderId) : Option (Side × Resting) :=
  match b.bids.find? (fun o => o.id = id) with
  | some o => some (.buy, o)
  | none => (b.asks.find? (fun o => o.id = id)).map (fun o => (.sell, o))

def contains (b : PriorityBook) (id : OrderId) : Bool := (b.lookup id).isSome

/-- Walk the list `l` with an incoming order `aggressor` of `qty` shares: trade
    with the head while it crosses and shares are left. `m` is the next match
    number. -/
def fill (aggressor : OrderId) (side : Side) (limit : Price) :
    List Resting → Qty → Nat → Fill
  | [], qty, m => ⟨[], qty, m, []⟩
  | o :: os, qty, m =>
    if qty = 0 ∨ ¬ crosses side limit o.price then ⟨o :: os, qty, m, []⟩
    else if qty < o.openQty then
      ⟨{ o with openQty := o.openQty - qty } :: os, 0, m + 1,
        [⟨o.id, aggressor, side, o.price, qty, m⟩]⟩
    else
      let r := fill aggressor side limit os (qty - o.openQty) (m + 1)
      { r with events := ⟨o.id, aggressor, side, o.price, o.openQty, m⟩ :: r.events }

/-- Match an incoming order without resting it. -/
def executeIoc (b : PriorityBook) (id : OrderId) (side : Side) (limit : Price) (qty : Qty) :
    PriorityBook × Qty × List BookEvent :=
  let r := fill id side limit (b.side side.opposite) qty b.nextMatchId
  ({ b.setSide side.opposite r.rest with nextMatchId := r.nextMatchId },
    qty - r.left, r.events.map .executed)

/-- Let an order rest. -/
def rest (b : PriorityBook) (id : OrderId) (side : Side) (price : Price) (qty : Qty) :
    PriorityBook :=
  b.setSide side
    (enqueue side.ahead Resting.price ⟨id, price, qty⟩ (b.side side))

/-- Match an incoming order and rest what is left. -/
def enter (b : PriorityBook) (id : OrderId) (side : Side) (price : Price) (qty : Qty) :
    PriorityBook × Qty × List BookEvent :=
  let (b', filled, events) := b.executeIoc id side price qty
  if qty - filled > 0 then
    (b'.rest id side price (qty - filled), filled,
      events ++ [.added ⟨id, side, price, qty - filled⟩])
  else (b', filled, events)

def add (b : PriorityBook) (id : OrderId) (side : Side) (price : Price) (qty : Qty) :
    PriorityBook × AddResult × List BookEvent :=
  if price ≤ 0 then (b, ⟨.badPrice, 0, 0⟩, [])
  else if qty = 0 then (b, ⟨.badQty, 0, 0⟩, [])
  else if b.contains id then (b, ⟨.duplicateId, 0, 0⟩, [])
  else
    let (b', filled, events) := b.enter id side price qty
    (b', ⟨.ok, filled, qty - filled⟩, events)

/-- Drop the order with a given id. -/
def remove (b : PriorityBook) (id : OrderId) : PriorityBook :=
  { b with
    bids := b.bids.filter (fun o => o.id ≠ id)
    asks := b.asks.filter (fun o => o.id ≠ id) }

/-- Change the open quantity of the order with a given id, in place. -/
def setOpen (b : PriorityBook) (id : OrderId) (qty : Qty) : PriorityBook :=
  { b with
    bids := b.bids.map (fun o => if o.id = id then { o with openQty := qty } else o)
    asks := b.asks.map (fun o => if o.id = id then { o with openQty := qty } else o) }

def cancel (b : PriorityBook) (id : OrderId) (keep : Qty) :
    PriorityBook × Bool × List BookEvent :=
  match b.lookup id with
  | none => (b, false, [])
  | some (_, o) =>
    if keep ≥ o.openQty then (b, false, [])
    else if keep = 0 then (b.remove id, true, [.canceled ⟨id, o.openQty, true⟩])
    else (b.setOpen id keep, true, [.canceled ⟨id, o.openQty - keep, false⟩])

/-- The best price of a side. -/
def best (b : PriorityBook) (s : Side) : Option Price := (b.side s).head?.map Resting.price

def wouldCross (b : PriorityBook) (side : Side) (price : Price) : Bool :=
  match b.best side.opposite with
  | none => false
  | some p => crosses side price p

def replace (b : PriorityBook) (oldId newId : OrderId) (price : Price) (qty : Qty) :
    PriorityBook × Bool × List BookEvent :=
  match b.lookup oldId with
  | none => (b, false, [])
  | some (side, o) =>
    if newId = oldId ∨ b.contains newId then (b, false, [])
    else if price ≤ 0 ∨ qty = 0 then (b, false, [])
    else
      let b' := b.remove oldId
      if b'.wouldCross side price then
        let (b'', _, events) := b'.enter newId side price qty
        (b'', true, .canceled ⟨oldId, o.openQty, true⟩ :: events)
      else
        (b'.rest newId side price qty, true, [.replaced ⟨oldId, newId, side, price, qty⟩])

/-- The sum, modulo 2^32, of the opposite quantities an incoming order could
    execute against. -/
def matchable (b : PriorityBook) (side : Side) (limit : Price) : Qty :=
  (((b.side side.opposite).filter (fun o => crosses side limit o.price)).map
    Resting.openQty).sum

def snapshotSide (s : Side) (l : List Resting) : List SnapshotLevel :=
  (levels s.ahead Resting.price l).map
    (fun e => ⟨e.1, e.2.map (fun o => ⟨o.id, o.openQty⟩)⟩)

def snapshot (b : PriorityBook) : BookSnapshot :=
  { bids := snapshotSide .buy b.bids, asks := snapshotSide .sell b.asks }

/-- The orders of a side of a snapshot, best first. -/
def entries (snap : BookSnapshot) (s : Side) : List Resting :=
  (snap.side s).flatMap (fun level => level.orders.map (fun o => ⟨o.id, level.price, o.qty⟩))

/-! ## Section 2: The invariant

    `SideWF` is what holds of one side by itself, `Apart` what holds of a side
    against the opposite one. Both only look at the *stamps* of the orders, that
    is at ids and prices, apart from the positive open quantities. -/

/-- What never changes while an order rests. -/
def stamp (o : Resting) : OrderId × Price := (o.id, o.price)

structure SideWF (s : Side) (l : List Resting) : Prop where
  sorted : Sorted s.ahead Resting.price l
  nodup : (l.map Resting.id).Nodup
  pos : ∀ o ∈ l, o.openQty ≠ 0
  price_pos : ∀ o ∈ l, 0 < o.price

/-- No order of `l`, resting on side `s`, has the id of an order of `l'` or
    crosses it. -/
def Apart (s : Side) (l l' : List Resting) : Prop :=
  ∀ x ∈ l, ∀ y ∈ l', x.id ≠ y.id ∧ ¬ crosses s x.price y.price

/-- What holds of a book at rest. -/
structure WF (b : PriorityBook) : Prop where
  sides : ∀ s, SideWF s (b.side s)
  apart : ∀ s, Apart s (b.side s) (b.side s.opposite)

theorem apart_symm (h : Apart s l l') : Apart s.opposite l' l := by
  intro x hx y hy
  obtain ⟨hid, hcross⟩ := h y hy x hx
  refine ⟨hid.symm, ?_⟩
  cases s <;> simpa [crosses, Side.opposite] using hcross

/-- It is enough to look at the book from one side. -/
theorem wf_of_side (s : Side) (hs : SideWF s (b.side s))
    (ho : SideWF s.opposite (b.side s.opposite)) (ha : Apart s (b.side s) (b.side s.opposite)) :
    b.WF := by
  refine ⟨fun t => ?_, fun t => ?_⟩
  · rcases Side.eq_or_eq_opposite t s with rfl | rfl
    · exact hs
    · exact ho
  · rcases Side.eq_or_eq_opposite t s with rfl | rfl
    · exact ha
    · simpa using apart_symm ha

/-- The best bid is below the best ask. -/
theorem WF.best_lt (h : b.WF) {bid ask : Price} (hbid : bid ∈ b.best .buy)
    (hask : ask ∈ b.best .sell) : bid < ask := by
  obtain ⟨x, hx, rfl⟩ := Option.map_eq_some_iff.mp hbid
  obtain ⟨y, hy, rfl⟩ := Option.map_eq_some_iff.mp hask
  have hapart := (h.apart .buy x (List.mem_of_mem_head? hx) y (List.mem_of_mem_head? hy)).2
  simpa [crosses] using hapart

theorem wf_empty : (({} : PriorityBook)).WF := by
  refine ⟨fun s => ?_, fun s => ?_⟩
  · cases s <;> constructor <;> simp [side, Sorted]
  · cases s <;> simp [Apart, side]

/-- A snapshot shows all of a book. -/
theorem WF.entries_snapshot (h : b.WF) (s : Side) : entries b.snapshot s = b.side s := by
  have hside : b.snapshot.side s = snapshotSide s (b.side s) := by cases s <;> rfl
  have hlevel : ∀ e ∈ levels s.ahead Resting.price (b.side s),
      e.2.map (fun o => (⟨o.id, e.1, o.openQty⟩ : Resting)) = e.2 := by
    intro e he
    refine (List.map_congr_left (fun o ho => ?_)).trans (List.map_id _)
    rw [← key_of_mem_levels he ho]
    rfl
  calc entries b.snapshot s
      = (levels s.ahead Resting.price (b.side s)).flatMap
          (fun e => e.2.map (fun o => (⟨o.id, e.1, o.openQty⟩ : Resting))) := by
        simp only [entries, hside, snapshotSide, List.flatMap_map, List.map_map]
        rfl
    _ = (levels s.ahead Resting.price (b.side s)).flatMap Prod.snd :=
        List.flatMap_congr hlevel
    _ = b.side s := flatMap_levels (h.sides s).sorted

/-- Dropping orders and changing open quantities keeps a side well formed. -/
theorem SideWF.of_sublist (h : SideWF s l) (hsub : (l'.map stamp).Sublist (l.map stamp))
    (hpos : ∀ o ∈ l', o.openQty ≠ 0) : SideWF s l' := by
  have hid : (l'.map Resting.id).Sublist (l.map Resting.id) := by
    have := hsub.map Prod.fst
    simpa [stamp, Function.comp_def] using this
  refine ⟨?_, h.nodup.sublist hid, hpos, fun o ho => ?_⟩
  · have hl : (l.map stamp).Pairwise (fun a b => ¬ s.ahead b.2 a.2) := by
      rw [List.pairwise_map]
      exact h.sorted
    have hl' := hl.sublist hsub
    rw [List.pairwise_map] at hl'
    exact hl'
  · obtain ⟨o', ho', heq⟩ := List.mem_map.mp (hsub.subset (List.mem_map_of_mem ho))
    have hprice : o'.price = o.price := congrArg Prod.snd heq
    exact hprice ▸ h.price_pos o' ho'

theorem Apart.of_subset {r r' : List Resting} (h : Apart s l r) (hl : l'.map stamp ⊆ l.map stamp)
    (hr : r'.map stamp ⊆ r.map stamp) : Apart s l' r' := by
  intro x hx y hy
  obtain ⟨x', hx', hxe⟩ := List.mem_map.mp (hl (List.mem_map_of_mem hx))
  obtain ⟨y', hy', hye⟩ := List.mem_map.mp (hr (List.mem_map_of_mem hy))
  simp only [stamp, Prod.mk.injEq] at hxe hye
  have := h x' hx' y' hy'
  rwa [hxe.1, hxe.2, hye.1, hye.2] at this

/-- A book whose sides are, up to open quantities, sublists of those of a
    well-formed book is well formed. -/
theorem WF.of_sublists {b' : PriorityBook} (h : b.WF)
    (hsub : ∀ s, ((b'.side s).map stamp).Sublist ((b.side s).map stamp))
    (hpos : ∀ s, ∀ o ∈ b'.side s, o.openQty ≠ 0) : b'.WF :=
  ⟨fun s => (h.sides s).of_sublist (hsub s) (hpos s),
    fun s => (h.apart s).of_subset (hsub s).subset (hsub s.opposite).subset⟩

/-! ### Sides and lookup -/

@[simp] theorem side_setSide_self (b : PriorityBook) (s : Side) (l : List Resting) :
    (b.setSide s l).side s = l := by
  cases s <;> rfl

theorem side_setSide_ne (b : PriorityBook) {t : Side} (l : List Resting) (h : t ≠ s) :
    (b.setSide s l).side t = b.side t := by
  cases s <;> cases t <;> first | rfl | exact absurd rfl h

@[simp] theorem side_setSide_opposite (b : PriorityBook) (s : Side) (l : List Resting) :
    (b.setSide s l).side s.opposite = b.side s.opposite :=
  side_setSide_ne b l (Side.opposite_ne s)

@[simp] theorem nextMatchId_setSide (b : PriorityBook) (s : Side) (l : List Resting) :
    (b.setSide s l).nextMatchId = b.nextMatchId := by
  cases s <;> rfl

/-- A book is its two sides and its match counter. -/
theorem ext_side {b' : PriorityBook} (h : ∀ s, b.side s = b'.side s)
    (hm : b.nextMatchId = b'.nextMatchId) : b = b' := by
  cases b
  cases b'
  have h1 := h .buy
  have h2 := h .sell
  simp only [side] at h1 h2
  simp_all

theorem side_remove (b : PriorityBook) (id : OrderId) (s : Side) :
    (b.remove id).side s = (b.side s).filter (fun o => o.id ≠ id) := by
  cases s <;> rfl

theorem side_setOpen (b : PriorityBook) (id : OrderId) (q : Qty) (s : Side) :
    (b.setOpen id q).side s =
      (b.side s).map (fun o => if o.id = id then { o with openQty := q } else o) := by
  cases s <;> rfl

/-- An id names at most one resting order. -/
theorem WF.unique (h : b.WF) {t : Side} {x y : Resting} (hx : x ∈ b.side s) (hy : y ∈ b.side t)
    (hid : x.id = y.id) : s = t ∧ x = y := by
  rcases Side.eq_or_eq_opposite t s with rfl | rfl
  · exact ⟨rfl, List.inj_on_of_nodup_map (h.sides _).nodup hx hy hid⟩
  · exact absurd hid (h.apart s x hx y hy).1

theorem lookup_some {o : Resting} (h : b.lookup id = some (s, o)) : o ∈ b.side s ∧ o.id = id := by
  unfold lookup at h
  split at h
  · next hf =>
    cases h
    exact ⟨List.mem_of_find?_eq_some hf, by simpa using List.find?_some hf⟩
  · simp only [Option.map_eq_some_iff] at h
    obtain ⟨a, hf, heq⟩ := h
    cases heq
    exact ⟨List.mem_of_find?_eq_some hf, by simpa using List.find?_some hf⟩

/-- On a well-formed book `lookup` finds exactly the resting orders. -/
theorem WF.lookup_iff (h : b.WF) {o : Resting} :
    b.lookup id = some (s, o) ↔ o ∈ b.side s ∧ o.id = id := by
  refine ⟨lookup_some, fun ⟨hmem, hid⟩ => ?_⟩
  cases hl : b.lookup id with
  | some p =>
    obtain ⟨s', o'⟩ := p
    obtain ⟨hmem', hid'⟩ := lookup_some hl
    obtain ⟨rfl, rfl⟩ := h.unique hmem hmem' (hid.trans hid'.symm)
    rfl
  | none =>
    exfalso
    unfold lookup at hl
    split at hl
    · simp at hl
    · next hf =>
      have hbids := List.find?_eq_none.mp hf
      have hasks := List.find?_eq_none.mp (Option.map_eq_none_iff.mp hl)
      cases s with
      | buy => exact absurd hid (by simpa using hbids o hmem)
      | sell => exact absurd hid (by simpa using hasks o hmem)

theorem lookup_none : b.lookup id = none ↔ ∀ s, ∀ o ∈ b.side s, o.id ≠ id := by
  constructor
  · intro hl s o hmem hid
    unfold lookup at hl
    split at hl
    · simp at hl
    · next hf =>
      have hbids := List.find?_eq_none.mp hf
      have hasks := List.find?_eq_none.mp (Option.map_eq_none_iff.mp hl)
      cases s with
      | buy => exact absurd hid (by simpa using hbids o hmem)
      | sell => exact absurd hid (by simpa using hasks o hmem)
  · intro h
    cases hl : b.lookup id with
    | none => rfl
    | some p =>
      obtain ⟨s, o⟩ := p
      obtain ⟨hmem, hid⟩ := lookup_some hl
      exact absurd hid (h s o hmem)

theorem contains_iff : b.contains id = true ↔ ∃ s, ∃ o ∈ b.side s, o.id = id := by
  unfold contains
  cases hl : b.lookup id with
  | none =>
    have := lookup_none.mp hl
    simp only [Option.isSome_none, Bool.false_eq_true, false_iff, not_exists, not_and]
    exact this
  | some p =>
    obtain ⟨s, o⟩ := p
    obtain ⟨hmem, hid⟩ := lookup_some hl
    simp only [Option.isSome_some, true_iff]
    exact ⟨s, o, hmem, hid⟩

theorem contains_eq_false : b.contains id = false ↔ ∀ s, ∀ o ∈ b.side s, o.id ≠ id := by
  rw [← lookup_none, contains, Option.isSome_eq_false_iff, Option.isNone_iff_eq_none]

/-! ## Section 3: Filling -/

section fill

variable {aggressor : OrderId} {side : Side} {limit : Price}

variable {o : Resting}

/-- Nothing left to fill. -/
@[simp] theorem fill_zero (l : List Resting) (m : Nat) :
    fill aggressor side limit l 0 m = ⟨l, 0, m, []⟩ := by
  cases l <;> simp [fill]

theorem fill_stop (l : List Resting) (qty : Qty) (m : Nat) (h : ¬ crosses side limit o.price) :
    fill aggressor side limit (o :: l) qty m = ⟨o :: l, qty, m, []⟩ := by
  simp [fill, h]

theorem fill_part (l : List Resting) {qty : Qty} (m : Nat) (hq : qty ≠ 0)
    (h : crosses side limit o.price) (hlt : qty < o.openQty) :
    fill aggressor side limit (o :: l) qty m =
      ⟨{ o with openQty := o.openQty - qty } :: l, 0, m + 1,
        [⟨o.id, aggressor, side, o.price, qty, m⟩]⟩ := by
  simp [fill, hq, h, hlt]

theorem fill_full (l : List Resting) {qty : Qty} (m : Nat) (hq : qty ≠ 0)
    (h : crosses side limit o.price) (hle : ¬ qty < o.openQty) :
    fill aggressor side limit (o :: l) qty m =
      { fill aggressor side limit l (qty - o.openQty) (m + 1) with
        events := ⟨o.id, aggressor, side, o.price, o.openQty, m⟩ ::
          (fill aggressor side limit l (qty - o.openQty) (m + 1)).events } := by
  simp [fill, hq, h, hle]

/-- The cases of a fill, for induction: it stops, takes part of the head, or
    takes the head and goes on. -/
theorem fill_induct {motive : List Resting → Qty → Nat → Fill → Prop}
    (nil : ∀ qty m, motive [] qty m ⟨[], qty, m, []⟩)
    (stop : ∀ o l qty m, (qty = 0 ∨ ¬ crosses side limit o.price) →
      motive (o :: l) qty m ⟨o :: l, qty, m, []⟩)
    (part : ∀ o l qty m, qty ≠ 0 → crosses side limit o.price → qty < o.openQty →
      motive (o :: l) qty m ⟨{ o with openQty := o.openQty - qty } :: l, 0, m + 1,
        [⟨o.id, aggressor, side, o.price, qty, m⟩]⟩)
    (full : ∀ o l qty m r, qty ≠ 0 → crosses side limit o.price → ¬ qty < o.openQty →
      motive l (qty - o.openQty) (m + 1) r →
      motive (o :: l) qty m { r with
        events := ⟨o.id, aggressor, side, o.price, o.openQty, m⟩ :: r.events })
    (l : List Resting) (qty : Qty) (m : Nat) :
    motive l qty m (fill aggressor side limit l qty m) := by
  induction l generalizing qty m with
  | nil => exact nil qty m
  | cons o l ih =>
    by_cases hstop : qty = 0 ∨ ¬ crosses side limit o.price
    · have : fill aggressor side limit (o :: l) qty m = ⟨o :: l, qty, m, []⟩ := by
        simp [fill, hstop]
      rw [this]
      exact stop o l qty m hstop
    · simp only [not_or, not_not] at hstop
      by_cases hlt : qty < o.openQty
      · rw [fill_part l m hstop.1 hstop.2 hlt]
        exact part o l qty m hstop.1 hstop.2 hlt
      · rw [fill_full l m hstop.1 hstop.2 hlt]
        exact full o l qty m _ hstop.1 hstop.2 hlt (ih _ _)

/-- What is left of the walked list is a tail of it, its head perhaps
    reduced. -/
theorem fill_suffix (l : List Resting) (qty : Qty) (m : Nat) :
    ((fill aggressor side limit l qty m).rest.map stamp) <:+ l.map stamp := by
  refine fill_induct (motive := fun l _ _ r => r.rest.map stamp <:+ l.map stamp)
    ?_ ?_ ?_ ?_ l qty m
  · exact fun _ _ => List.suffix_refl _
  · exact fun _ _ _ _ _ => List.suffix_refl _
  · exact fun _ _ _ _ _ _ _ => List.suffix_refl _
  · exact fun _ _ _ _ _ _ _ _ ih => ih.trans (List.suffix_cons _ _)

/-- A fill that leaves shares leaves no order it could still trade with. -/
theorem fill_maximal {l : List Resting} (h : Sorted side.opposite.ahead Resting.price l)
    (qty : Qty) (m : Nat) (hleft : (fill aggressor side limit l qty m).left ≠ 0) :
    ∀ o ∈ (fill aggressor side limit l qty m).rest, ¬ crosses side limit o.price := by
  refine fill_induct
    (motive := fun l _ _ r => Sorted side.opposite.ahead Resting.price l →
      r.left ≠ 0 → ∀ o ∈ r.rest, ¬ crosses side limit o.price) ?_ ?_ ?_ ?_ l qty m h hleft
  · intro _ _ _ _ o ho
    simp at ho
  · intro o l qty m hstop hs hleft x hx hcross
    -- the head does not cross, so nothing behind it does
    refine hstop.elim hleft (fun hn => hn (crosses_of_ahead hcross ?_))
    exact (head_best hs hx).imp Eq.symm id
  · intro _ _ _ _ _ _ _ _ hleft
    exact absurd rfl hleft
  · intro o l qty m r _ _ _ ih hs hleft
    exact ih (List.pairwise_cons.mp hs).2 hleft

/-- Every share is executed or left, counted in exact integers. -/
theorem fill_conserves (l : List Resting) (qty : Qty) (m : Nat) :
    (fill aggressor side limit l qty m).left.toNat +
      ((fill aggressor side limit l qty m).events.map (fun e => e.qty.toNat)).sum = qty.toNat := by
  refine fill_induct
    (motive := fun _ qty _ r => r.left.toNat + (r.events.map (fun e => e.qty.toNat)).sum =
      qty.toNat) ?_ ?_ ?_ ?_ l qty m
  · simp
  · simp
  · simp
  · intro o l qty m r _ _ hle ih
    simp only [List.map_cons, List.sum_cons]
    have hle' : o.openQty ≤ qty := by grind
    rw [UInt32.toNat_sub_of_le _ _ hle'] at ih
    have := UInt32.le_iff_toNat_le.mp hle'
    omega

end fill

/-! ## Section 4: Walking, removing and resting -/

/-- The walk of `executeIoc`. -/
def walk (b : PriorityBook) (id : OrderId) (s : Side) (limit : Price) (qty : Qty) : Fill :=
  fill id s limit (b.side s.opposite) qty b.nextMatchId

/-- The book a walk leaves. -/
def afterWalk (b : PriorityBook) (s : Side) (r : Fill) : PriorityBook :=
  { b.setSide s.opposite r.rest with nextMatchId := r.nextMatchId }

@[simp] theorem side_afterWalk_self (b : PriorityBook) (s : Side) (r : Fill) :
    (b.afterWalk s r).side s = b.side s := by
  cases s <;> rfl

@[simp] theorem side_afterWalk_opposite (b : PriorityBook) (s : Side) (r : Fill) :
    (b.afterWalk s r).side s.opposite = r.rest := by
  cases s <;> rfl

theorem executeIoc_eq (b : PriorityBook) (id : OrderId) (s : Side) (limit : Price) (qty : Qty) :
    b.executeIoc id s limit qty =
      (b.afterWalk s (b.walk id s limit qty), qty - (b.walk id s limit qty).left,
        (b.walk id s limit qty).events.map .executed) := rfl

theorem sub_sub_self_qty (q r : Qty) : q - (q - r) = r := by
  grind

/-- `enter` in terms of its walk: what is left rests. -/
theorem enter_eq (b : PriorityBook) (id : OrderId) (s : Side) (price : Price) (qty : Qty) :
    b.enter id s price qty =
      let r := b.walk id s price qty
      if r.left = 0 then (b.afterWalk s r, qty, r.events.map .executed)
      else ((b.afterWalk s r).rest id s price r.left, qty - r.left,
        r.events.map .executed ++ [.added ⟨id, s, price, r.left⟩]) := by
  unfold enter
  rw [executeIoc_eq]
  simp only [sub_sub_self_qty]
  by_cases h : (b.walk id s price qty).left = 0
  · simp [h]
  · have hpos : (b.walk id s price qty).left > 0 := by grind
    simp [h, hpos]

theorem add_ok (hid : b.contains id = false) (hp : 0 < price) (hq : qty ≠ 0) :
    b.add id s price qty = ((b.enter id s price qty).1,
      ⟨.ok, (b.enter id s price qty).2.1, qty - (b.enter id s price qty).2.1⟩,
      (b.enter id s price qty).2.2) := by
  have hp' : ¬ price ≤ 0 := by lia
  simp [add, hp', hq, hid]

theorem WF.remove (h : b.WF) (id : OrderId) : (b.remove id).WF := by
  refine h.of_sublists (fun s => ?_) (fun s o ho => ?_)
  · rw [side_remove]
    exact List.filter_sublist.map stamp
  · rw [side_remove] at ho
    exact (h.sides s).pos o (List.mem_of_mem_filter ho)

theorem WF.setOpen (h : b.WF) (id : OrderId) (hq : qty ≠ 0) : (b.setOpen id qty).WF := by
  refine h.of_sublists (fun s => ?_) (fun s o ho => ?_)
  · rw [side_setOpen, List.map_map]
    have hstamp : stamp ∘ (fun o : Resting => if o.id = id then { o with openQty := qty } else o) =
        stamp := by
      funext o
      simp only [Function.comp_apply]
      split <;> rfl
    rw [hstamp]
  · rw [side_setOpen, List.mem_map] at ho
    obtain ⟨x, hx, rfl⟩ := ho
    split
    · exact hq
    · exact (h.sides s).pos x hx

/-- An order with a new id that crosses nothing may rest. -/
theorem WF.rest (h : b.WF) (hid : b.contains id = false) (hp : 0 < price) (hq : qty ≠ 0)
    (hc : ∀ o ∈ b.side s.opposite, ¬ crosses s price o.price) : (b.rest id s price qty).WF := by
  have hfresh := contains_eq_false.mp hid
  refine wf_of_side s ?_ ?_ ?_
  · rw [PriorityBook.rest, side_setSide_self]
    refine ⟨sorted_enqueue (h.sides s).sorted _, ?_, fun o ho => ?_, fun o ho => ?_⟩
    · refine ((enqueue_perm _ _).map Resting.id).nodup_iff.mpr ?_
      rw [List.map_cons, List.nodup_cons]
      refine ⟨fun hmem => ?_, (h.sides s).nodup⟩
      obtain ⟨o, ho, heq⟩ := List.mem_map.mp hmem
      exact hfresh s o ho heq
    · rcases mem_enqueue.mp ho with rfl | ho
      · exact hq
      · exact (h.sides s).pos o ho
    · rcases mem_enqueue.mp ho with rfl | ho
      · exact hp
      · exact (h.sides s).price_pos o ho
  · rw [PriorityBook.rest, side_setSide_opposite]
    exact h.sides s.opposite
  · rw [PriorityBook.rest, side_setSide_self, side_setSide_opposite]
    intro x hx y hy
    rcases mem_enqueue.mp hx with rfl | hx
    · exact ⟨fun he => hfresh _ y hy he.symm, hc y hy⟩
    · exact h.apart s x hx y hy

theorem contains_afterWalk (h : b.contains id = false) (aggressor : OrderId) (s : Side)
    (limit : Price) (qty : Qty) :
    (b.afterWalk s (b.walk aggressor s limit qty)).contains id = false := by
  rw [contains_eq_false] at h ⊢
  intro t o ho
  rcases Side.eq_or_eq_opposite t s with rfl | rfl
  · exact h t o (by simpa using ho)
  · rw [side_afterWalk_opposite] at ho
    obtain ⟨o', ho', heq⟩ := List.mem_map.mp ((fill_suffix _ _ _).subset (List.mem_map_of_mem ho))
    have hid : o'.id = o.id := congrArg Prod.fst heq
    exact hid ▸ h _ o' ho'

theorem contains_remove_of_ne {id' : OrderId} (h : id' ≠ id) :
    (b.remove id).contains id' = b.contains id' := by
  rw [Bool.eq_iff_iff, contains_iff, contains_iff]
  refine exists_congr (fun s => exists_congr (fun o => ?_))
  rw [side_remove, List.mem_filter]
  constructor
  · rintro ⟨⟨ho, _⟩, hid⟩
    exact ⟨ho, hid⟩
  · rintro ⟨ho, rfl⟩
    exact ⟨⟨ho, by simpa using h⟩, rfl⟩

/-- An order whose price does not cross the best opposite price crosses no
    opposite order. -/
theorem WF.not_crosses_of_wouldCross (h : b.WF) (hw : b.wouldCross s price = false) :
    ∀ o ∈ b.side s.opposite, ¬ crosses s price o.price := by
  intro o ho hc
  have hs := (h.sides s.opposite).sorted
  simp only [wouldCross, best] at hw
  cases hl : b.side s.opposite with
  | nil => simp [hl] at ho
  | cons x l =>
    rw [hl] at hs ho hw
    simp only [List.head?_cons, Option.map_some, decide_eq_false_iff_not] at hw
    exact hw (crosses_of_ahead hc ((head_best hs ho).imp Eq.symm id))

end PriorityBook

end MatchingEngine
