import MatchingEngine.Client.Consistency

/-! # A builder for some of the symbols

    Two builders hear the same messages, one of them without the adds for some of the
    symbols. As long as no reference is introduced twice, the records and books of
    that one are those of the other for the remaining symbols (`Restricts`). A
    message about an order it does not have finds no record and does nothing.
-/

namespace MatchingEngine

namespace Client

/-! ## Section 1: Records and books of some symbols -/

theorem removeOrder_of_none {b : ItchBookBuilder} {ref : UInt64} (h : b.orders.lookup ref = none) :
    b.removeOrder ref = b := by
  rw [ItchBookBuilder.removeOrder, h]

/-- The records and books of `b'` are those of `b` for the symbols in `T`. -/
structure Restricts (T : Symbol → Bool) (b b' : ItchBookBuilder) : Prop where
  orders : ∀ ref, b'.orders.lookup ref = (b.orders.lookup ref).filter (fun o => T o.symbol)
  books : ∀ symbol, b'.books.lookup symbol = if T symbol then b.books.lookup symbol else none

namespace Restricts

variable {T : Symbol → Bool} {b b' : ItchBookBuilder} {ref : UInt64} {symbol : Symbol}

theorem new (T : Symbol → Bool) : Restricts T {} {} where
  orders _ := rfl
  books symbol := by
    cases T symbol with
    | false => rfl
    | true => rfl

/-- Only the records and the books matter. -/
theorem congr {c c' : ItchBookBuilder} (h : Restricts T b b') (ho : c.orders = b.orders)
    (hb : c.books = b.books) (ho' : c'.orders = b'.orders) (hb' : c'.books = b'.books) :
    Restricts T c c' := by
  constructor
  · intro ref
    rw [ho, ho']
    exact h.orders ref
  · intro symbol
    rw [hb, hb']
    exact h.books symbol

theorem bookAt (h : Restricts T b b') (hT : T symbol = true) :
    b'.bookAt symbol = b.bookAt symbol := by
  rw [ItchBookBuilder.bookAt, h.books, if_pos hT]
  rfl

theorem lookup_tracked (h : Restricts T b b') {o : BuilderOrder} (ho : b.orders.lookup ref = some o)
    (hT : T o.symbol = true) : b'.orders.lookup ref = some o := by
  rw [h.orders, ho]
  exact Option.filter_some_pos hT

theorem lookup_untracked (h : Restricts T b b') {o : BuilderOrder}
    (ho : b.orders.lookup ref = some o)
    (hT : T o.symbol = false) : b'.orders.lookup ref = none := by
  rw [h.orders, ho]
  exact Option.filter_some_neg (by simp [hT])

theorem lookup_none (h : Restricts T b b') (ho : b.orders.lookup ref = none) :
    b'.orders.lookup ref = none := by
  rw [h.orders, ho]
  rfl

theorem setBook_tracked (h : Restricts T b b') (hT : T symbol = true) (book : SymbolBook) :
    Restricts T (b.setBook symbol book) (b'.setBook symbol book) where
  orders := h.orders
  books symbol' := by
    show (b'.books.insert symbol book).lookup symbol' =
      if T symbol' then (b.books.insert symbol book).lookup symbol' else none
    by_cases hs : symbol' = symbol
    · rw [hs, if_pos hT, Finmap.lookup_insert, Finmap.lookup_insert]
    · rw [Finmap.lookup_insert_of_ne _ hs, Finmap.lookup_insert_of_ne _ hs]
      exact h.books symbol'

theorem setBook_untracked (h : Restricts T b b') (hT : T symbol = false) (book : SymbolBook) :
    Restricts T (b.setBook symbol book) b' where
  orders := h.orders
  books symbol' := by
    show _ = if T symbol' then (b.books.insert symbol book).lookup symbol' else none
    rw [h.books]
    by_cases hs : symbol' = symbol
    · rw [hs, hT]
      rfl
    · rw [Finmap.lookup_insert_of_ne _ hs]

/-- A record is put in place in both. -/
theorem setOrder_tracked (h : Restricts T b b') {o : BuilderOrder} (hT : T o.symbol = true) :
    Restricts T (b.setOrder ref o) (b'.setOrder ref o) where
  orders ref' := by
    show (b'.orders.insert ref o).lookup ref' = ((b.orders.insert ref o).lookup ref').filter _
    by_cases hr : ref' = ref
    · rw [hr, Finmap.lookup_insert, Finmap.lookup_insert]
      exact (Option.filter_some_pos (p := fun o : BuilderOrder => T o.symbol) hT).symm
    · rw [Finmap.lookup_insert_of_ne _ hr, Finmap.lookup_insert_of_ne _ hr]
      exact h.orders ref'
  books := h.books

/-- A record that the other does not have. -/
theorem setOrder_untracked (h : Restricts T b b') {o : BuilderOrder} (hT : T o.symbol = false)
    (hnone : b'.orders.lookup ref = none) : Restricts T (b.setOrder ref o) b' where
  orders ref' := by
    show _ = ((b.orders.insert ref o).lookup ref').filter _
    by_cases hr : ref' = ref
    · rw [hr, Finmap.lookup_insert, hnone]
      exact (Option.filter_some_neg (by simp [hT])).symm
    · rw [Finmap.lookup_insert_of_ne _ hr]
      exact h.orders ref'
  books := h.books

theorem addOrder_tracked (h : Restricts T b b') (hT : T symbol = true) (side : UInt8)
    (price : Price) (shares : Qty) :
    Restricts T (b.addOrder ref symbol side price shares)
      (b'.addOrder ref symbol side price shares) := by
  unfold ItchBookBuilder.addOrder
  dsimp only
  rw [h.bookAt hT]
  exact (h.setOrder_tracked hT).setBook_tracked hT _

/-- An add that the other does not see. The reference is new: under it the other
    could have the record of a tracked symbol. -/
theorem addOrder_untracked (h : Restricts T b b') (hT : T symbol = false)
    (hfresh : b.orders.lookup ref = none) (side : UInt8) (price : Price) (shares : Qty) :
    Restricts T (b.addOrder ref symbol side price shares) b' := by
  unfold ItchBookBuilder.addOrder
  dsimp only
  exact (h.setOrder_untracked hT (h.lookup_none hfresh)).setBook_untracked hT _

theorem eraseOrder (h : Restricts T b b') (ref : UInt64) :
    Restricts T { b with orders := b.orders.erase ref }
      { b' with orders := b'.orders.erase ref } where
  orders ref' := by
    by_cases hr : ref' = ref
    · rw [hr, Finmap.lookup_erase, Finmap.lookup_erase]
      rfl
    · rw [Finmap.lookup_erase_ne hr, Finmap.lookup_erase_ne hr]
      exact h.orders ref'
  books := h.books

/-- There is nothing to erase in the other. -/
theorem eraseOrder_untracked (h : Restricts T b b') (hnone : b'.orders.lookup ref = none) :
    Restricts T { b with orders := b.orders.erase ref } b' where
  orders ref' := by
    by_cases hr : ref' = ref
    · rw [hr, Finmap.lookup_erase]
      exact hnone
    · rw [Finmap.lookup_erase_ne hr]
      exact h.orders ref'
  books := h.books

theorem removeOrder (h : Restricts T b b') (ref : UInt64) :
    Restricts T (b.removeOrder ref) (b'.removeOrder ref) := by
  unfold ItchBookBuilder.removeOrder
  cases ho : b.orders.lookup ref with
  | none =>
    rw [h.lookup_none ho]
    exact h
  | some o =>
    cases hT : T o.symbol with
    | true =>
      rw [h.lookup_tracked ho hT]
      dsimp only
      rw [h.bookAt hT]
      exact (h.setBook_tracked hT _).eraseOrder ref
    | false =>
      -- the other has no such order, and no book for its symbol
      rw [h.lookup_untracked ho hT]
      exact (h.setBook_untracked hT _).eraseOrder_untracked (h.lookup_untracked ho hT)

theorem reduceOrder (h : Restricts T b b') (ref : UInt64) (qty : Qty) :
    Restricts T (b.reduceOrder ref qty) (b'.reduceOrder ref qty) := by
  have hremoved := h.removeOrder ref
  unfold ItchBookBuilder.reduceOrder
  cases ho : b.orders.lookup ref with
  | none =>
    rw [h.lookup_none ho]
    exact h
  | some o =>
    cases hT : T o.symbol with
    | true =>
      rw [h.lookup_tracked ho hT]
      dsimp only
      split
      · exact hremoved
      · exact h.setOrder_tracked hT
    | false =>
      -- the other has nothing to reduce or to remove
      have hnone := h.lookup_untracked ho hT
      rw [removeOrder_of_none hnone] at hremoved
      rw [hnone]
      dsimp only
      split
      · exact hremoved
      · exact h.setOrder_untracked hT hnone

/-- A tracked symbol looks the same in both: the references in its book are those
    of its own orders. -/
theorem snapshot (h : Restricts T b b') (hb : Consistent b) {symbol : Symbol}
    (hT : T symbol = true) : b'.snapshot symbol = b.snapshot symbol := by
  have hside : ∀ side, b'.snapshotSide ((b.bookAt symbol).side side) =
      b.snapshotSide ((b.bookAt symbol).side side) := by
    intro side
    apply Machine.mapM_congr
    intro e he
    rw [Machine.mapM_congr]
    intro ref href
    -- a listed reference belongs to an order of this symbol, which both have
    obtain ⟨o, ho, hplace⟩ := hb.listed he href
    have hsymbol : o.symbol = symbol := congrArg Place.symbol hplace
    rw [ho, h.lookup_tracked ho (hsymbol ▸ hT)]
  rw [b'.snapshot_eq, b.snapshot_eq, h.bookAt hT, hside, hside]

end Restricts

/-! ## Section 2: Effects -/

/-- The reference that an effect introduces. -/
def Effect.introduces : Effect → Option UInt64
  | .add ref _ _ _ _ => some ref
  | .replace _ newRef _ _ => some newRef
  | _ => none

/-- An add for another symbol. -/
def Effect.dropped (T : Symbol → Bool) : Effect → Bool
  | .add _ symbol _ _ _ => !T symbol
  | _ => false

namespace Restricts

variable {T : Symbol → Bool} {b b' : ItchBookBuilder}

/-- An effect that the other does not see. -/
theorem perform_dropped (h : Restricts T b b') {e : Effect}
    (hfresh : ∀ ref, e.introduces = some ref → b.orders.lookup ref = none)
    (hdrop : e.dropped T = true) : Restricts T (b.perform e) b' := by
  cases e with
  | add ref symbol side price shares =>
    have hT : T symbol = false := by simpa [Effect.dropped] using hdrop
    exact h.addOrder_untracked hT (hfresh ref rfl) side price shares
  | _ => cases hdrop

/-- An effect on both. -/
theorem perform (h : Restricts T b b') {e : Effect}
    (hfresh : ∀ ref, e.introduces = some ref → b.orders.lookup ref = none)
    (hdrop : e.dropped T = false) : Restricts T (b.perform e) (b'.perform e) := by
  cases e with
  | nothing => exact h
  | add ref symbol side price shares =>
    have hT : T symbol = true := by simpa [Effect.dropped] using hdrop
    exact h.addOrder_tracked hT side price shares
  | reduce ref qty => exact h.reduceOrder ref qty
  | remove ref => exact h.removeOrder ref
  | replace originalRef newRef price shares =>
    have hremoved := h.removeOrder originalRef
    unfold ItchBookBuilder.perform
    dsimp only
    cases ho : b.orders.lookup originalRef with
    | none =>
      rw [h.lookup_none ho]
      exact h
    | some o =>
      cases hT : T o.symbol with
      | true =>
        rw [h.lookup_tracked ho hT]
        exact hremoved.addOrder_tracked hT _ _ _
      | false =>
        -- the other knows neither the old order nor the new one
        have hnone := h.lookup_untracked ho hT
        rw [hnone]
        rw [removeOrder_of_none hnone] at hremoved
        refine hremoved.addOrder_untracked hT ?_ _ _ _
        rw [lookup_removeOrder]
        split
        · rfl
        · exact hfresh newRef rfl

end Restricts

/-! ## Section 3: Records that were introduced -/

section recorded

variable {b : ItchBookBuilder} {ref : UInt64} {o : BuilderOrder}

/-- The price that comes with an effect. -/
def Effect.price : Effect → Option Price
  | .add _ _ _ price _ => some price
  | .replace _ _ price _ => some price
  | _ => none

theorem recorded_addOrder {new : UInt64} {symbol : Symbol} {side : UInt8} {price : Price}
    {shares : Qty} (h : (b.addOrder new symbol side price shares).orders.lookup ref = some o) :
    b.orders.lookup ref = some o ∨ new = ref ∧ price = o.price := by
  rw [lookup_addOrder] at h
  split at h
  · rename_i heq
    cases h
    exact .inr ⟨heq.symm, rfl⟩
  · exact .inl h

theorem recorded_removeOrder {old : UInt64} (h : (b.removeOrder old).orders.lookup ref = some o) :
    b.orders.lookup ref = some o := by
  rw [lookup_removeOrder] at h
  split at h
  · cases h
  · exact h

theorem recorded_reduceOrder {old : UInt64} {qty : Qty}
    (h : (b.reduceOrder old qty).orders.lookup ref = some o) :
    ∃ o', b.orders.lookup ref = some o' ∧ o'.price = o.price := by
  rw [ItchBookBuilder.reduceOrder] at h
  cases hold : b.orders.lookup old with
  | none =>
    rw [hold] at h
    exact ⟨o, h, rfl⟩
  | some o' =>
    rw [hold] at h
    dsimp only at h
    split at h
    · exact ⟨o, recorded_removeOrder h, rfl⟩
    · by_cases hr : ref = old
      · -- the record has a new quantity
        subst hr
        rw [ItchBookBuilder.setOrder, Finmap.lookup_insert] at h
        cases h
        exact ⟨o', hold, rfl⟩
      · rw [ItchBookBuilder.setOrder, Finmap.lookup_insert_of_ne _ hr] at h
        exact ⟨o, h, rfl⟩

/-- A record is old, up to its quantity, or it is introduced. -/
theorem recorded_perform {e : Effect} (h : (b.perform e).orders.lookup ref = some o) :
    (∃ o', b.orders.lookup ref = some o' ∧ o'.price = o.price) ∨
      e.introduces = some ref ∧ e.price = some o.price := by
  cases e with
  | nothing => exact .inl ⟨o, h, rfl⟩
  | add new symbol side price shares =>
    rcases recorded_addOrder h with hold | ⟨rfl, rfl⟩
    · exact .inl ⟨o, hold, rfl⟩
    · exact .inr ⟨rfl, rfl⟩
  | reduce old qty => exact .inl (recorded_reduceOrder h)
  | remove old => exact .inl ⟨o, recorded_removeOrder h, rfl⟩
  | replace old new price shares =>
    unfold ItchBookBuilder.perform at h
    dsimp only at h
    split at h
    · exact .inl ⟨o, h, rfl⟩
    · rcases recorded_addOrder h with hold | ⟨rfl, rfl⟩
      · exact .inl ⟨o, recorded_removeOrder hold, rfl⟩
      · exact .inr ⟨rfl, rfl⟩

end recorded

/-- An effect whose reference is new does not collide. -/
theorem not_collides {orders : Finmap (fun _ : UInt64 => BuilderOrder)} {e : Effect}
    (hfresh : ∀ ref, e.introduces = some ref → orders.lookup ref = none) : ¬ e.Collides orders := by
  intro hcollides
  cases e with
  | add ref symbol side price shares =>
    rw [Effect.Collides, hfresh ref rfl] at hcollides
    cases hcollides
  | replace old new price shares =>
    obtain ⟨-, -, hsome⟩ := hcollides
    rw [hfresh new rfl] at hsome
    cases hsome
  | _ => exact hcollides

end Client

end MatchingEngine
