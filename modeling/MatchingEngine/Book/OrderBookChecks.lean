import MatchingEngine.Book.Refinement

/-! # The invariants of the reference book

    `check_invariants` walks both sides of the book and throws when an invariant
    is violated. `Intact` says what is checked. The reference book is intact
    after any calls, so the check passes, and a call that is refused changes
    nothing (`orderBook_stays_intact`).
-/

namespace MatchingEngine

namespace OrderBook

/-! ## Section 1: The check -/

/-- One order of a level. `acc` counts the orders and sums up their shares. -/
def checkOrder (index : Index) (side : Side) (price : Price) (acc : Nat × Qty) (node : Node) :
    Except String (Nat × Qty) := do
  let o := node.order
  failIf (o.openQty = 0) "resting order with zero open qty"
  failIf (o.price ≠ price) "order price != level price"
  failIf (o.side ≠ side) "order side != book side"
  match index.lookup o.id with
  | none => throw "resting order missing from index"
  | some h =>
    failIf (h.it ≠ node.addr) "index handle does not point at order"
    failIf (h.price ≠ price ∨ h.side ≠ side) "index handle side/price mismatch"
    pure (acc.1 + 1, acc.2 + o.openQty)

def checkLevel (index : Index) (side : Side) (count : Nat) (e : Price × Level) :
    Except String Nat := do
  failIf (e.2.orders = []) "empty price level not erased"
  let (count, sum) ← e.2.orders.foldlM (checkOrder index side e.1) (count, 0)
  failIf (sum ≠ e.2.total) "level total != sum of open quantities"
  pure count

def crossed : List (Price × Level) → List (Price × Level) → Bool
  | (bid, _) :: _, (ask, _) :: _ => bid ≥ ask
  | _, _ => false

/-- An error is a thrown `std::logic_error`. -/
def checkInvariants (b : OrderBook) : Except String Unit := do
  let count ← b.bids.foldlM (checkLevel b.index .buy) 0
  let count ← b.asks.foldlM (checkLevel b.index .sell) count
  failIf (count ≠ b.index.keys.card) "index size != resting order count"
  failIf (crossed b.bids b.asks) "book is crossed or locked at rest"

/-! ## Section 2: What is checked -/

/-- The ids that rest on a side. -/
def ids (b : OrderBook) (s : Side) : List OrderId :=
  (b.side s).flatMap (fun e => e.2.orders.map (fun n => n.order.id))

/-- The documented invariants. -/
structure Intact (b : OrderBook) : Prop where
  occupied : ∀ s, ∀ e ∈ b.side s, e.2.orders ≠ []
  resting : ∀ s, ∀ e ∈ b.side s, ∀ n ∈ e.2.orders,
    n.order.openQty ≠ 0 ∧ n.order.price = e.1 ∧ n.order.side = s
  total : ∀ s, ∀ e ∈ b.side s, e.2.total = (e.2.orders.map (fun n => n.order.openQty)).sum
  /-- The index has the place of exactly the resting orders. -/
  index : ∀ id h, b.index.lookup id = some h ↔
    ∃ e ∈ b.side h.side, e.1 = h.price ∧ ∃ n ∈ e.2.orders, n.addr = h.it ∧ n.order.id = id
  distinct : (b.ids .buy ++ b.ids .sell).Nodup
  uncrossed : ∀ bid ∈ b.bestBid, ∀ ask ∈ b.bestAsk, bid < ask

section check

variable {b : OrderBook}

theorem Intact.checkOrder (h : Intact b) {s : Side} {e : Price × Level} (he : e ∈ b.side s)
    {n : Node} (hn : n ∈ e.2.orders) (acc : Nat × Qty) :
    OrderBook.checkOrder b.index s e.1 acc n = pure (acc.1 + 1, acc.2 + n.order.openQty) := by
  obtain ⟨hopen, hprice, hside⟩ := h.resting s e he n hn
  have hplace : b.index.lookup n.order.id = some ⟨s, e.1, n.addr⟩ :=
    (h.index _ _).mpr ⟨e, he, rfl, n, hn, rfl, rfl⟩
  simp [OrderBook.checkOrder, failIf, hopen, hprice, hside, hplace]

theorem foldl_orders (ns : List Node) (acc : Nat × Qty) :
    ns.foldl (fun acc n => (acc.1 + 1, acc.2 + n.order.openQty)) acc =
      (acc.1 + ns.length, acc.2 + (ns.map (fun n => n.order.openQty)).sum) := by
  induction ns generalizing acc with
  | nil => simp
  | cons n ns ih => simp [ih, Nat.add_assoc, Nat.add_comm 1, UInt32.add_assoc]

theorem Intact.checkLevel (h : Intact b) {s : Side} {e : Price × Level} (he : e ∈ b.side s)
    (count : Nat) : OrderBook.checkLevel b.index s count e = pure (count + e.2.orders.length) := by
  have horders := Machine.foldlM_of_pure (fun n hn acc => h.checkOrder he hn acc) (count, 0)
  rw [foldl_orders] at horders
  unfold OrderBook.checkLevel
  rw [failIf_of_not (h.occupied s e he), pure_bind, horders, pure_bind]
  dsimp only
  rw [failIf_of_not (by simp [h.total s e he]), pure_bind]

theorem Intact.checkSide (h : Intact b) (s : Side) (count : Nat) :
    (b.side s).foldlM (OrderBook.checkLevel b.index s) count = pure (count + (b.ids s).length) := by
  rw [Machine.foldlM_of_pure (fun e he count => h.checkLevel he count)]
  congr 1
  unfold ids
  generalize b.side s = m
  induction m generalizing count with
  | nil => rfl
  | cons e m ih => simp [ih, Nat.add_assoc]

theorem mem_ids {s : Side} {id : OrderId} :
    id ∈ b.ids s ↔ ∃ e ∈ b.side s, ∃ n ∈ e.2.orders, n.order.id = id := by
  simp [ids]

/-- The index is as large as the book. -/
theorem Intact.card_keys (h : Intact b) :
    b.index.keys.card = (b.ids .buy).length + (b.ids .sell).length := by
  have hindexed : ∀ id, id ∈ b.index ↔ ∃ s, id ∈ b.ids s := by
    intro id
    rw [← Finmap.lookup_isSome, Option.isSome_iff_exists]
    constructor
    · rintro ⟨hd, hlookup⟩
      obtain ⟨e, he, -, n, hn, -, hid⟩ := (h.index _ _).mp hlookup
      exact ⟨hd.side, mem_ids.mpr ⟨e, he, n, hn, hid⟩⟩
    · rintro ⟨s, hid⟩
      obtain ⟨e, he, n, hn, hid⟩ := mem_ids.mp hid
      exact ⟨⟨s, e.1, n.addr⟩, (h.index _ _).mpr ⟨e, he, rfl, n, hn, rfl, hid⟩⟩
  have hkeys : b.index.keys = (b.ids .buy ++ b.ids .sell).toFinset := by
    ext id
    rw [Finmap.mem_keys, hindexed, List.mem_toFinset, List.mem_append]
    constructor
    · rintro ⟨_ | _, hid⟩
      · exact .inl hid
      · exact .inr hid
    · rintro (hid | hid)
      · exact ⟨_, hid⟩
      · exact ⟨_, hid⟩
  rw [hkeys, List.toFinset_card_of_nodup h.distinct, List.length_append]

theorem Intact.not_crossed (h : Intact b) : ¬ crossed b.bids b.asks := by
  have huncrossed : ∀ bid ∈ b.bids.head?.map Prod.fst, ∀ ask ∈ b.asks.head?.map Prod.fst,
      bid < ask :=
    h.uncrossed
  cases hb : b.bids with
  | nil => simp [crossed]
  | cons bid bids =>
    cases ha : b.asks with
    | nil => simp [crossed]
    | cons ask asks =>
      rw [hb, ha] at huncrossed
      simpa [crossed] using huncrossed

/-- **An intact book passes the check.** -/
theorem Intact.checkInvariants (h : Intact b) : b.checkInvariants = .ok () := by
  have hbids : b.bids.foldlM _ 0 = _ := h.checkSide .buy 0
  have hasks : b.asks.foldlM _ _ = _ := h.checkSide .sell (0 + (b.ids .buy).length)
  unfold OrderBook.checkInvariants
  rw [hbids, pure_bind, hasks, pure_bind, failIf_of_not (by simp [h.card_keys]), pure_bind]
  exact failIf_of_not h.not_crossed _

end check

/-! ## Section 3: The book stays intact -/

section intact

variable {b : OrderBook} {a : PriorityBook} {N : Nodes}

/-- The levels of a side are those of its queues. -/
theorem Rep.mem_side (hrep : Rep b N) {s : Side} {e : Price × Level} (he : e ∈ b.side s) :
    N (s, e.1) ≠ [] ∧ e.2 = levelOf s (N (s, e.1)) := by
  have hfind := SortedMap.find_of_mem (hrep.sorted s) he
  rw [hrep.level, entry] at hfind
  split at hfind
  · cases hfind
  · rename_i hne
    exact ⟨hne, (Option.some.inj hfind).symm⟩

theorem Models.ids (h : Models b a) (s : Side) : b.ids s = (a.side s).map Resting.id := by
  rw [← h.wf.entries_snapshot s, ← h.snapshot]
  have hside : b.snapshot.side s = snapshotLevels (b.side s) := by cases s <;> rfl
  simp [PriorityBook.entries, hside, snapshotLevels, OrderBook.ids, snapshotOrders,
    List.flatMap_map, List.map_flatMap, Function.comp_def]

theorem Models.intact (h : Models b a) : Intact b := by
  obtain ⟨N, hrep, hN⟩ := h.rep
  have hqueue : ∀ {s : Side} {p : Price} {x : Nat × Resting}, x ∈ N (s, p) →
      x.2 ∈ a.side s ∧ x.2.price = p := by
    intro s p x hx
    apply PriorityBook.mem_queues.mp
    rw [hN]
    exact List.mem_map_of_mem hx
  refine ⟨fun s e he => ?_, fun s e he n hn => ?_, fun s e he => ?_, fun id hd => ?_, ?_, ?_⟩
  · obtain ⟨hne, hlevel⟩ := hrep.mem_side he
    rw [hlevel]
    simpa [levelOf] using hne
  · obtain ⟨hne, hlevel⟩ := hrep.mem_side he
    rw [hlevel] at hn
    obtain ⟨x, hx, rfl⟩ := List.mem_map.mp hn
    obtain ⟨hmem, hprice⟩ := hqueue hx
    exact ⟨(h.wf.sides s).pos x.2 hmem, hprice, rfl⟩
  · obtain ⟨hne, hlevel⟩ := hrep.mem_side he
    rw [hlevel]
    simp [levelOf, PriorityBook.total, node, Function.comp_def]
  · rw [hrep.index id hd]
    constructor
    · rintro ⟨o, ho, hid⟩
      have hne : N (hd.side, hd.price) ≠ [] := List.ne_nil_of_mem ho
      refine ⟨(hd.price, levelOf hd.side (N (hd.side, hd.price))), ?_, rfl,
        node hd.side (hd.it, o), List.mem_map_of_mem ho, rfl, hid⟩
      apply SortedMap.mem_of_find
      rw [hrep.level, entry, if_neg hne]
    · rintro ⟨e, he, hprice, n, hn, haddr, hid⟩
      obtain ⟨hne, hlevel⟩ := hrep.mem_side he
      rw [hlevel] at hn
      obtain ⟨⟨i, o⟩, hx, rfl⟩ := List.mem_map.mp hn
      rw [hprice] at hx
      exact ⟨o, haddr ▸ hx, hid⟩
  · rw [h.ids, h.ids, List.nodup_append]
    refine ⟨(h.wf.sides .buy).nodup, (h.wf.sides .sell).nodup, fun x hx y hy => ?_⟩
    obtain ⟨o, ho, rfl⟩ := List.mem_map.mp hx
    obtain ⟨o', ho', rfl⟩ := List.mem_map.mp hy
    exact (h.wf.apart .buy o ho o' ho').1
  · intro bid hbid ask hask
    rw [bestBid, h.best] at hbid
    rw [bestAsk, h.best] at hask
    exact h.wf.best_lt hbid hask

end intact

/-! ## Section 4: Refused calls -/

end OrderBook

/-- A status other than `Ok`, or `false`. -/
def Reply.Refused : Reply → Prop
  | .added r => r.status ≠ .ok
  | .flag ok => ok = false
  | .filled _ | .price _ | .looked => False

namespace OrderBook

section refused

variable {b b' : OrderBook} {events : List BookEvent}

theorem add_refused {id : OrderId} {side : Side} {price : Price} {qty : Qty} {r : AddResult}
    (h : b.add id side price qty = some (b', r, events)) (hr : r.status ≠ .ok) :
    b' = b ∧ events = [] := by
  unfold add at h
  split at h
  · cases h; exact ⟨rfl, rfl⟩
  split at h
  · cases h; exact ⟨rfl, rfl⟩
  split at h
  · cases h; exact ⟨rfl, rfl⟩
  -- an order that is matched is accepted
  obtain ⟨⟨b₁, filled, events₁⟩, -, h⟩ := Option.bind_eq_some_iff.mp h
  dsimp only at h
  split at h
  · cases h; exact absurd rfl hr
  · cases h; exact absurd rfl hr

theorem cancel_refused {id : OrderId} {keep : Qty}
    (h : b.cancel id keep = some (b', false, events)) : b' = b ∧ events = [] := by
  unfold cancel at h
  split at h
  · cases h; exact ⟨rfl, rfl⟩
  obtain ⟨order, -, h⟩ := Option.bind_eq_some_iff.mp h
  split at h
  · cases h; exact ⟨rfl, rfl⟩
  split at h
  · obtain ⟨b₁, -, h⟩ := Option.bind_eq_some_iff.mp h
    cases h
  · obtain ⟨level, -, h⟩ := Option.bind_eq_some_iff.mp h
    cases h

theorem replace_refused {oldId newId : OrderId} {price : Price} {qty : Qty}
    (h : b.replace oldId newId price qty = some (b', false, events)) : b' = b ∧ events = [] := by
  unfold replace at h
  split at h
  · cases h; exact ⟨rfl, rfl⟩
  split at h
  · cases h; exact ⟨rfl, rfl⟩
  split at h
  · cases h; exact ⟨rfl, rfl⟩
  obtain ⟨old, -, h⟩ := Option.bind_eq_some_iff.mp h
  obtain ⟨b₁, -, h⟩ := Option.bind_eq_some_iff.mp h
  split at h
  · obtain ⟨⟨b₂, filled, events₂⟩, -, h⟩ := Option.bind_eq_some_iff.mp h
    dsimp only at h
    split at h <;> cases h
  · cases h

theorem perform_refused {op : BookOp} {answer : Answer} (h : b.perform op = some (b', answer))
    (hr : answer.1.Refused) : b' = b ∧ answer.2 = [] := by
  cases op with
  | add id side price qty =>
    obtain ⟨⟨b₁, r, events⟩, hadd, heq⟩ := Option.map_eq_some_iff.mp h
    cases heq
    exact add_refused hadd hr
  | cancel id keep =>
    obtain ⟨⟨b₁, ok, events⟩, hcancel, heq⟩ := Option.map_eq_some_iff.mp h
    cases heq
    obtain rfl : ok = false := hr
    exact cancel_refused hcancel
  | replace oldId newId price qty =>
    obtain ⟨⟨b₁, ok, events⟩, hreplace, heq⟩ := Option.map_eq_some_iff.mp h
    cases heq
    obtain rfl : ok = false := hr
    exact replace_refused hreplace
  | executeIoc id side limit qty =>
    obtain ⟨⟨b₁, filled, events⟩, -, heq⟩ := Option.map_eq_some_iff.mp h
    cases heq
    exact hr.elim
  | matchable side limit => cases h; exact hr.elim
  | bestBid => cases h; exact hr.elim
  | bestAsk => cases h; exact hr.elim

end refused

/-- **The reference book stays intact.** After any calls the invariants hold and
    the check passes, every further call is defined, and one that is refused
    leaves the book as it is and reports nothing. -/
theorem orderBook_stays_intact (ops : List BookOp) :
    ∃ b answers, Machine.run perform {} ops = some (b, answers) ∧ b.Intact ∧
      b.checkInvariants = .ok () ∧
      ∀ op, ∃ b' answer, b.perform op = some (b', answer) ∧
        (answer.1.Refused → b' = b ∧ answer.2 = []) := by
  obtain ⟨b, a, answers, hrun, -, hmodels⟩ := simulation.run models_empty ops
  refine ⟨b, answers, hrun, hmodels.intact, hmodels.intact.checkInvariants, fun op => ?_⟩
  obtain ⟨b', a', answer, hperform, -, -⟩ := simulation b a hmodels op
  exact ⟨b', answer, hperform, perform_refused hperform⟩

end OrderBook

end MatchingEngine
