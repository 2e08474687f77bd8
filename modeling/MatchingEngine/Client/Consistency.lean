import MatchingEngine.Client.ItchBook

/-! # Whether a listener's book fits together

    A listener keeps each order twice: its record in `orders_`, and its reference
    in the list of a price level. `Consistent` says that the two agree. The lists
    hold the references of the recorded orders, each one once and at the place of
    its order, and no list is empty.

    Every message keeps this, with one exception (`Collides`). An add, or the add
    in a replacement, with the reference of an order that is still recorded
    overwrites the record and leaves the old reference in its list. From then on
    the book does not fit together, and a snapshot can ask for a record that is
    gone.
-/

namespace MatchingEngine

namespace Client

open SortedMap

variable {b : ItchBookBuilder}

/-! ## Section 1: Records and places -/

/-- Where a reference is listed. -/
structure Place where
  symbol : Symbol
  side : Side
  price : Price
  deriving DecidableEq

def BuilderOrder.place (o : BuilderOrder) : Place := ⟨o.symbol, sideOf o.side, o.price⟩

namespace ItchBookBuilder

/-- The list of a level, if there is such a level. -/
def level (b : ItchBookBuilder) (k : Place) : Option (List UInt64) :=
  find ((b.bookAt k.symbol).side k.side) k.price

def refsAt (b : ItchBookBuilder) (k : Place) : List UInt64 := (b.level k).getD []

/-- The messages seen so far, from a new builder on. -/
def listened (msgs : List Itch.Message) : ItchBookBuilder := msgs.foldl onMessage {}

end ItchBookBuilder

open ItchBookBuilder (listened)

/-- The lists and the records agree. A price has one level at most, and a level
    is not empty. A reference is listed, and then once, at exactly the place of
    the order that is recorded under it. -/
structure Consistent (b : ItchBookBuilder) : Prop where
  sorted : ∀ symbol side, Sorted side.ahead ((b.bookAt symbol).side side)
  nonempty : ∀ k, b.level k ≠ some []
  nodup : ∀ k, (b.refsAt k).Nodup
  mem_refsAt : ∀ {ref k}, ref ∈ b.refsAt k ↔ ∃ o, b.orders.lookup ref = some o ∧ o.place = k

/-- A message that adds an order under the reference of another recorded order. -/
def Collides (b : ItchBookBuilder) : Itch.Message → Prop
  | .addOrder m => (b.orders.lookup m.orderRef).isSome
  | .addOrderMpid m => (b.orders.lookup m.add.orderRef).isSome
  | .orderReplace m => (b.orders.lookup m.originalRef).isSome ∧ m.newRef ≠ m.originalRef ∧
      (b.orders.lookup m.newRef).isSome
  | _ => False

section operations

variable {b : ItchBookBuilder} {ref : UInt64} {symbol : Symbol} {side : UInt8} {price : Price}
  {shares : Qty}

variable {b' : ItchBookBuilder} {o : BuilderOrder}

theorem consistent_new : Consistent {} where
  sorted _ side := by cases side <;> exact List.Pairwise.nil
  nonempty k := by
    obtain ⟨_, side, _⟩ := k
    cases side <;> exact nofun
  nodup k := by
    obtain ⟨_, side, _⟩ := k
    cases side <;> exact List.nodup_nil
  mem_refsAt {ref k} := by
    obtain ⟨_, side, _⟩ := k
    constructor
    · intro h
      cases side <;> cases h
    · rintro ⟨o, ho, -⟩
      cases ho

/-- Only the records and the lists matter. -/
theorem Consistent.congr (h : Consistent b) (ho : b'.orders = b.orders) (hb : b'.books = b.books) :
    Consistent b' := by
  have hlevel : b'.level = b.level := by
    funext k
    unfold ItchBookBuilder.level ItchBookBuilder.bookAt
    rw [hb]
  have hrefs : b'.refsAt = b.refsAt := by
    funext k
    rw [ItchBookBuilder.refsAt, hlevel, ItchBookBuilder.refsAt]
  refine ⟨?_, ?_, ?_, ?_⟩
  · intro symbol side
    rw [ItchBookBuilder.bookAt, hb]
    exact h.sorted symbol side
  · intro k
    rw [hlevel]
    exact h.nonempty k
  · intro k
    rw [hrefs]
    exact h.nodup k
  · intro ref k
    rw [hrefs, ho]
    exact h.mem_refsAt

/-- One level of a builder changes. -/
theorem level_setBook {k : Place} {m : List (Price × List UInt64)} {new : Option (List UInt64)}
    (hbooks : b'.books = (b.setBook k.symbol ((b.bookAt k.symbol).setSide k.side m)).books)
    (hfind : ∀ p, find m p =
      if p = k.price then new else find ((b.bookAt k.symbol).side k.side) p) (k' : Place) :
    b'.level k' = if k' = k then new else b.level k' := by
  obtain ⟨symbol, side, price⟩ := k
  obtain ⟨symbol', side', price'⟩ := k'
  rw [ItchBookBuilder.level, ItchBookBuilder.bookAt, hbooks, ← ItchBookBuilder.bookAt,
    side_bookAt_setBook]
  simp only [Place.mk.injEq]
  -- the other side and the other books are as before
  by_cases hside : symbol' = symbol ∧ side' = side
  · obtain ⟨rfl, rfl⟩ := hside
    simp only [and_self, if_true, true_and]
    exact hfind price'
  · rw [if_neg hside, if_neg (fun heq => hside ⟨heq.1, heq.2.1⟩)]
    rfl

theorem sorted_setBook {k : Place} {m : List (Price × List UInt64)}
    (h : ∀ symbol side, Sorted side.ahead ((b.bookAt symbol).side side))
    (hbooks : b'.books = (b.setBook k.symbol ((b.bookAt k.symbol).setSide k.side m)).books)
    (hm : Sorted k.side.ahead m) (symbol : Symbol) (side : Side) :
    Sorted side.ahead ((b'.bookAt symbol).side side) := by
  rw [ItchBookBuilder.bookAt, hbooks, ← ItchBookBuilder.bookAt, side_bookAt_setBook]
  split
  · rename_i heq
    rw [heq.2]
    exact hm
  · exact h symbol side

/-! ## Section 2: What an add does -/

/-- The reference joins the list of its level, whatever was recorded under it. -/
theorem level_addOrder (h : Consistent b) (k : Place) :
    (b.addOrder ref symbol side price shares).level k =
      if k = ⟨symbol, sideOf side, price⟩ then some (b.refsAt ⟨symbol, sideOf side, price⟩ ++ [ref])
      else b.level k := by
  apply level_setBook (k := ⟨symbol, sideOf side, price⟩) rfl
  intro p
  rw [find_upsert (h.sorted symbol (sideOf side))]
  rfl

theorem refsAt_addOrder (h : Consistent b) (k : Place) :
    (b.addOrder ref symbol side price shares).refsAt k =
      if k = ⟨symbol, sideOf side, price⟩ then b.refsAt k ++ [ref] else b.refsAt k := by
  rw [ItchBookBuilder.refsAt, level_addOrder h]
  split
  · rename_i heq
    rw [heq]
    rfl
  · rfl

theorem lookup_addOrder (ref' : UInt64) :
    (b.addOrder ref symbol side price shares).orders.lookup ref' =
      if ref' = ref then some ⟨symbol, side, price, shares⟩ else b.orders.lookup ref' := by
  show (b.orders.insert ref _).lookup ref' = _
  split
  · rename_i heq
    rw [heq]
    exact Finmap.lookup_insert _
  · rename_i hne
    exact Finmap.lookup_insert_of_ne _ hne

theorem Consistent.addOrder (h : Consistent b) (hfresh : b.orders.lookup ref = none) :
    Consistent (b.addOrder ref symbol side price shares) := by
  -- a new reference is in no list
  have hunlisted : ∀ k, ref ∉ b.refsAt k := by
    intro k hmem
    obtain ⟨o, ho, -⟩ := h.mem_refsAt.mp hmem
    cases hfresh.symm.trans ho
  refine ⟨?_, ?_, ?_, ?_⟩
  · apply sorted_setBook (k := ⟨symbol, sideOf side, price⟩) h.sorted rfl
    exact sorted_upsert (h.sorted symbol (sideOf side)) _ _ _
  · intro k
    rw [level_addOrder h]
    split
    · simp
    · exact h.nonempty k
  · intro k
    rw [refsAt_addOrder h]
    split
    · apply (h.nodup k).append (List.nodup_singleton ref)
      intro r hr hr'
      rw [List.mem_singleton.mp hr'] at hr
      exact hunlisted k hr
    · exact h.nodup k
  · intro ref' k
    rw [refsAt_addOrder h, lookup_addOrder]
    by_cases hr : ref' = ref
    · -- the new reference is listed at its own place
      subst hr
      have hother := hunlisted k
      simp only [if_true, Option.some.injEq, exists_eq_left']
      by_cases hk : k = ⟨symbol, sideOf side, price⟩
      · rw [if_pos hk]
        exact iff_of_true (List.mem_append_right _ (List.mem_singleton_self _)) hk.symm
      · rw [if_neg hk]
        exact iff_of_false hother (fun heq => hk heq.symm)
    · rw [if_neg hr]
      split
      · rw [List.mem_append, List.mem_singleton, or_iff_left hr]
        exact h.mem_refsAt
      · exact h.mem_refsAt

/-- The old reference stays in its list: it is now listed twice there, or at a
    place where its new record does not belong. -/
theorem Consistent.not_addOrder (h : Consistent b) (hlive : (b.orders.lookup ref).isSome) :
    ¬ Consistent (b.addOrder ref symbol side price shares) := by
  intro h'
  obtain ⟨o, ho⟩ := Option.isSome_iff_exists.mp hlive
  have hlisted : ref ∈ b.refsAt o.place := h.mem_refsAt.mpr ⟨o, ho, rfl⟩
  have hrefs : (b.addOrder ref symbol side price shares).refsAt o.place = _ :=
    refsAt_addOrder h o.place
  by_cases hplace : o.place = ⟨symbol, sideOf side, price⟩
  · rw [if_pos hplace] at hrefs
    have hnodup := h'.nodup o.place
    rw [hrefs] at hnodup
    exact (List.nodup_append.mp hnodup).2.2 ref hlisted ref (List.mem_singleton_self ref) rfl
  · rw [if_neg hplace] at hrefs
    rw [← hrefs] at hlisted
    obtain ⟨o', ho', hplace'⟩ := h'.mem_refsAt.mp hlisted
    rw [lookup_addOrder, if_pos rfl] at ho'
    cases ho'
    exact hplace hplace'.symm

/-! ## Section 3: What a removal and a reduction do -/

/-- The reference leaves the list of its level, and the level goes with the last
    one. -/
theorem level_removeOrder (h : Consistent b) (ho : b.orders.lookup ref = some o) (k : Place) :
    (b.removeOrder ref).level k =
      if k = o.place then
        if (b.refsAt o.place).filter (· ≠ ref) = [] then none
        else some ((b.refsAt o.place).filter (· ≠ ref))
      else b.level k := by
  apply level_setBook (b := b) (k := o.place)
    (m := SymbolBook.eraseFrom o.place.side ((b.bookAt o.symbol).side o.place.side) o.price ref)
  · simp only [ItchBookBuilder.removeOrder, ho]
    rfl
  · intro p
    have hrefs : b.refsAt o.place =
        (find ((b.bookAt o.symbol).side o.place.side) o.price).getD [] := rfl
    rw [hrefs]
    show find _ p = if p = o.price then _ else
      find ((b.bookAt o.symbol).side o.place.side) p
    unfold SymbolBook.eraseFrom
    cases hfound : find ((b.bookAt o.symbol).side o.place.side) o.price with
    | none =>
      by_cases hp : p = o.price
      · subst hp
        simpa using hfound
      · simp [hp]
    | some refs =>
      -- the level is written back, or erased when its list is empty
      simp only [Option.getD_some, List.isEmpty_iff]
      by_cases hnil : refs.filter (· ≠ ref) = []
      · rw [if_pos hnil, if_pos hnil, find_erase]
      · rw [if_neg hnil, if_neg hnil, find_upsert (h.sorted o.symbol o.place.side), hfound,
          Option.getD_some]

theorem refsAt_removeOrder (h : Consistent b) (ho : b.orders.lookup ref = some o) (k : Place) :
    (b.removeOrder ref).refsAt k = (b.refsAt k).filter (· ≠ ref) := by
  rw [ItchBookBuilder.refsAt, level_removeOrder h ho]
  by_cases hk : k = o.place
  · subst hk
    rw [if_pos rfl]
    split
    · rename_i hnil
      rw [hnil]
      rfl
    · rfl
  · -- it is in no other list
    rw [if_neg hk]
    symm
    apply List.filter_eq_self.mpr
    intro r hr
    have hne : r ≠ ref := by
      rintro rfl
      obtain ⟨o', ho', hplace⟩ := h.mem_refsAt.mp hr
      cases ho.symm.trans ho'
      exact hk hplace.symm
    simpa using hne

theorem lookup_removeOrder (ref' : UInt64) :
    (b.removeOrder ref).orders.lookup ref' = if ref' = ref then none else b.orders.lookup ref' := by
  unfold ItchBookBuilder.removeOrder
  cases ho : b.orders.lookup ref with
  | none =>
    by_cases hr : ref' = ref
    · rw [if_pos hr, hr]
      exact ho
    · rw [if_neg hr]
  | some o =>
    show (b.orders.erase ref).lookup ref' = _
    by_cases hr : ref' = ref
    · rw [if_pos hr, hr]
      exact Finmap.lookup_erase _ _
    · rw [if_neg hr]
      exact Finmap.lookup_erase_ne hr

theorem Consistent.removeOrder (h : Consistent b) (ref : UInt64) :
    Consistent (b.removeOrder ref) := by
  cases ho : b.orders.lookup ref with
  | none =>
    have hsame : b.removeOrder ref = b := by simp only [ItchBookBuilder.removeOrder, ho]
    rw [hsame]
    exact h
  | some o =>
    refine ⟨?_, ?_, ?_, ?_⟩
    · apply sorted_setBook (b := b) (k := o.place)
        (m := SymbolBook.eraseFrom o.place.side ((b.bookAt o.symbol).side o.place.side) o.price ref)
        h.sorted
      · simp only [ItchBookBuilder.removeOrder, ho]
        rfl
      · unfold SymbolBook.eraseFrom
        split
        · exact h.sorted _ _
        · split
          · exact sorted_erase _ (h.sorted _ _)
          · exact sorted_upsert (h.sorted _ _) _ _ _
    · intro k
      rw [level_removeOrder h ho]
      split
      · split
        · simp
        · rename_i hnil
          intro heq
          exact hnil (Option.some.inj heq)
      · exact h.nonempty k
    · intro k
      rw [refsAt_removeOrder h ho]
      exact (h.nodup k).filter _
    · intro ref' k
      rw [refsAt_removeOrder h ho, lookup_removeOrder, List.mem_filter, h.mem_refsAt]
      by_cases hr : ref' = ref
      · simp [hr]
      · simp [hr]

/-- A quantity changes nothing about the place. -/
theorem Consistent.setOrder (h : Consistent b) (ho : b.orders.lookup ref = some o) (qty : Qty) :
    Consistent (b.setOrder ref { o with qty := qty }) := by
  refine ⟨h.sorted, h.nonempty, h.nodup, ?_⟩
  intro ref' k
  show ref' ∈ b.refsAt k ↔ ∃ o', (b.orders.insert ref _).lookup ref' = some o' ∧ _
  rw [h.mem_refsAt]
  by_cases hr : ref' = ref
  · subst hr
    rw [Finmap.lookup_insert, ho]
    simp only [Option.some.injEq, exists_eq_left']
    rfl
  · rw [Finmap.lookup_insert_of_ne _ hr]

theorem Consistent.reduceOrder (h : Consistent b) (ref : UInt64) (qty : Qty) :
    Consistent (b.reduceOrder ref qty) := by
  unfold ItchBookBuilder.reduceOrder
  cases ho : b.orders.lookup ref with
  | none => exact h
  | some o =>
    show Consistent (if qty ≥ o.qty then _ else _)
    split
    · exact h.removeOrder ref
    · exact h.setOrder ho _

/-- An add keeps the book consistent exactly when its reference is not in use. -/
theorem Consistent.addOrder_iff (h : Consistent b) :
    Consistent (b.addOrder ref symbol side price shares) ↔ ¬ (b.orders.lookup ref).isSome := by
  constructor
  · intro h' hlive
    exact h.not_addOrder hlive h'
  · intro hfree
    exact h.addOrder (Option.not_isSome_iff_eq_none.mp hfree)

end operations

/-! ## Section 4: Messages -/

/-- An effect that adds an order under the reference of another recorded order. -/
def Effect.Collides (orders : Finmap (fun _ : UInt64 => BuilderOrder)) : Effect → Prop
  | .add ref _ _ _ _ => (orders.lookup ref).isSome
  | .replace originalRef newRef _ _ => (orders.lookup originalRef).isSome ∧ newRef ≠ originalRef ∧
      (orders.lookup newRef).isSome
  | _ => False

theorem collides_eq (b : ItchBookBuilder) (msg : Itch.Message) :
    Collides b msg = (effect msg).Collides b.orders := by
  cases msg <;> rfl

/-- One effect. -/
theorem Consistent.perform_iff (h : Consistent b) (e : Effect) :
    Consistent (b.perform e) ↔ ¬ e.Collides b.orders := by
  cases e with
  | nothing => exact iff_of_true h not_false
  | add ref symbol side price shares => exact h.addOrder_iff
  | reduce ref qty => exact iff_of_true (h.reduceOrder ref qty) not_false
  | remove ref => exact iff_of_true (h.removeOrder ref) not_false
  | replace originalRef newRef price shares =>
    unfold ItchBookBuilder.perform Effect.Collides
    dsimp only
    cases ho : b.orders.lookup originalRef with
    | none =>
      apply iff_of_true h
      rintro ⟨hlive, -⟩
      cases hlive
    | some o =>
      -- the original has left when the replacement is added
      dsimp only
      rw [(h.removeOrder originalRef).addOrder_iff, lookup_removeOrder]
      by_cases hne : newRef = originalRef
      · simp [hne]
      · simp [hne]

/-- One message. -/
theorem Consistent.onMessage_iff (h : Consistent b) (msg : Itch.Message) :
    Consistent (b.onMessage msg) ↔ ¬ Collides b msg := by
  -- what is noted has no part in it
  have hnoted : Consistent (b.noted msg) := h.congr (b.orders_noted msg) (b.books_noted msg)
  rw [ItchBookBuilder.onMessage_eq, hnoted.perform_iff, ItchBookBuilder.orders_noted, collides_eq]

theorem listened_concat (msgs : List Itch.Message) (msg : Itch.Message) :
    listened (msgs ++ [msg]) = (listened msgs).onMessage msg := by
  rw [listened, List.foldl_append]
  rfl

/-- Every listed reference has a record, so `orders_.at` finds it. -/
theorem Consistent.listed (h : Consistent b) {symbol : Symbol} {side : Side}
    {e : Price × List UInt64} (he : e ∈ (b.bookAt symbol).side side) {ref : UInt64}
    (href : ref ∈ e.2) : ∃ o, b.orders.lookup ref = some o ∧ o.place = ⟨symbol, side, e.1⟩ := by
  apply h.mem_refsAt.mp
  rw [ItchBookBuilder.refsAt, ItchBookBuilder.level, find_of_mem (h.sorted symbol side) he]
  exact href

theorem Consistent.snapshot (h : Consistent b) (symbol : Symbol) :
    ∃ snap, b.snapshot symbol = some snap := by
  have hside : ∀ side, ∃ levels, b.snapshotSide ((b.bookAt symbol).side side) = some levels := by
    intro side
    refine ⟨_, ItchBookBuilder.snapshotSide_of_recorded ?_⟩
    intro e he ref href
    obtain ⟨o, ho, -⟩ := h.listed he href
    exact ⟨o, ho⟩
  obtain ⟨bids, hbids⟩ := hside .buy
  obtain ⟨asks, hasks⟩ := hside .sell
  rw [b.snapshot_eq, hbids, hasks]
  exact ⟨⟨bids, asks⟩, rfl⟩

/-- **The book fits together as long as no reference in use is used again.** For
    every sequence of messages, the book is consistent after each of them exactly
    when none of them collides with a recorded order, and a consistent book has a
    snapshot of every symbol. -/
theorem listened_consistent_iff (msgs : List Itch.Message) :
    ((∀ k, Consistent (listened (msgs.take k))) ↔
      ∀ k msg, msgs[k]? = some msg → ¬ Collides (listened (msgs.take k)) msg) ∧
    ∀ k, Consistent (listened (msgs.take k)) →
      ∀ symbol, ∃ snap, (listened (msgs.take k)).snapshot symbol = some snap := by
  constructor
  · apply Machine.forall_take_iff (P := fun msgs => Consistent (listened msgs))
      (Q := fun msgs msg => ¬ Collides (listened msgs) msg) consistent_new
    intro msgs msg h
    rw [listened_concat]
    exact h.onMessage_iff msg
  · intro k h symbol
    exact h.snapshot symbol

/-- An order is added twice, at two prices, and deleted. The list of the first
    price still has the reference, and the snapshot throws. -/
theorem snapshot_throws :
    (listened [.addOrder ⟨⟨0, 0, 0⟩, 1, ch 'B', 5, Vector.replicate 8 65, 100⟩,
      .addOrder ⟨⟨0, 0, 0⟩, 1, ch 'B', 5, Vector.replicate 8 65, 200⟩,
      .orderDelete ⟨⟨0, 0, 0⟩, 1⟩]).snapshot (Vector.replicate 8 65) = none := by
  decide

end Client

end MatchingEngine
