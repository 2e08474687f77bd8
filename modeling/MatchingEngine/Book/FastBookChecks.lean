import MatchingEngine.Book.Refinement

/-! # The representation of the fast book

    `Sound fb N` says how the fast book stores the queues `N`: the links of the
    pool, the levels in the ladder and in the fallback maps, the id table, the
    free list and the cursors. It is more than `check_invariants` looks at. As
    long as the size of the ladder fits an `int`, the book is sound after any
    calls, the check passes, and every iteration of `match` takes at least one
    share (`fastBook_sound_iff`).
-/

namespace MatchingEngine

namespace FastBook

open Arena (Link Seg)
open PriorityBook (total)

/-! ## Section 1: The check -/

/-- An access out of range is undefined, a violated invariant is thrown. -/
abbrev Check := ExceptT String Option

/-- An access that may be out of range. -/
def access {α : Type} (x : Option α) : Check α := ExceptT.lift x

@[simp] theorem access_some {α : Type} (x : α) : access (some x) = pure x := rfl

/-- The loop over the orders of a level from slot `i` on. `prev` is the slot
    before, `count` and `sum` are the orders and shares so far. -/
def checkOrders (fb : FastBook) (side : Side) (price : Price) :
    Nat → Link → Link → Nat → Qty → Check (Link × Nat × Qty)
  | _, none, prev, count, sum => pure (prev, count, sum)
  | 0, some _, _, _, _ => access none
  | fuel + 1, some i, prev, count, sum => do
    let o ← access (fb.pool[i]?)
    failIf (o.openQty = 0) "FastBook: resting order with zero open"
    failIf (o.price ≠ price) "FastBook: order price != level price"
    failIf (o.side ≠ side) "FastBook: mixed sides within level"
    failIf (o.prev ≠ prev) "FastBook: broken prev link"
    let pidx ← access (fb.index.find o.id)
    failIf (pidx ≠ some i) "FastBook: index does not map to order"
    fb.checkOrders side price fuel o.next (some i) (count + 1) (sum + o.openQty)

/-- A list has no more orders than the pool. -/
def checkLevel (fb : FastBook) (price : Price) (lvl : Level) (fallbackSideKnown : Bool)
    (expectSide : Side) (count : Nat) : Check Nat :=
  match lvl.head with
  | none => do
    failIf (lvl.total ≠ 0) "FastBook: empty level with nonzero total"
    failIf (lvl.tail ≠ none) "FastBook: empty level with tail set"
    pure count
  | some h => do
    let first ← access (fb.pool[h]?)
    failIf (fallbackSideKnown ∧ first.side ≠ expectSide) "FastBook: fallback level holds wrong side"
    let (prev, count, sum) ← fb.checkOrders first.side price fb.pool.length (some h) none count 0
    failIf (prev ≠ lvl.tail) "FastBook: tail link mismatch"
    failIf (sum ≠ lvl.total) "FastBook: level total != sum of open"
    pure count

/-- The loop over the ladder from index `i` on. -/
def checkLadder (fb : FastBook) : List Level → Nat → Nat → Check Nat
  | [], _, count => pure count
  | lvl :: lvls, i, count => do
    let count ← fb.checkLevel (fb.priceAt (toInt i)) lvl false .buy count
    fb.checkLadder lvls (i + 1) count

def emptyLevelText : Side → String
  | .buy => "FastBook: empty fallback bid level not erased"
  | .sell => "FastBook: empty fallback ask level not erased"

def checkFallback (fb : FastBook) (s : Side) (count : Nat) (e : Price × Level) : Check Nat := do
  failIf (e.2.head = none) (emptyLevelText s)
  fb.checkLevel e.1 e.2 true s count

def crossed : Option Price → Option Price → Bool
  | some bid, some ask => bid ≥ ask
  | _, _ => false

/-- The check is `const`, but the best prices move the cursors. -/
def checkInvariants (fb : FastBook) : Check FastBook := do
  let count ← fb.checkLadder fb.ladder 0 0
  let count ← fb.fbBids.foldlM (fb.checkFallback .buy) count
  let count ← fb.fbAsks.foldlM (fb.checkFallback .sell) count
  failIf (count ≠ fb.index.size) "FastBook: index size != resting order count"
  let (fb, bid) ← access fb.bestBid
  let (fb, ask) ← access fb.bestAsk
  failIf (crossed bid ask) "FastBook: book crossed or locked at rest"
  pure fb

/-! ## Section 2: The representation -/

/-- How the book stores queues of orders with their slots. -/
structure Sound (fb : FastBook) (N : Nodes) : Prop where
  /-- The slots of a queue are linked in both directions. -/
  chain : ∀ k, Seg (mkOrder k.1) fb.pool none ((N k).map Prod.fst) ((N k).map Prod.snd) none
  acyclic : ∀ k, ((N k).map Prod.fst).Nodup
  resting : ∀ k, ∀ e ∈ N k, e.2.openQty ≠ 0 ∧ e.2.price = k.2
  /-- A ladder level has the queue of its price, of one side. -/
  ladder : ∀ (t : Nat) lvl, fb.ladder[t]? = some lvl →
    lvl = levelOf (N (.buy, fb.priceAt t) ++ N (.sell, fb.priceAt t)) ∧
      (N (.buy, fb.priceAt t) = [] ∨ N (.sell, fb.priceAt t) = [])
  /-- Prices of the ladder have an index, and only they. -/
  inBand : ∀ p, 0 ≤ fb.tickIndex p ↔ ∃ t : Nat, t < fb.ladder.length ∧ p = fb.priceAt t
  tick : ∀ t : Nat, t < fb.ladder.length → fb.tickIndex (fb.priceAt t) = t
  /-- All other prices with orders, and only they, have a fallback level. -/
  fallback : ∀ s p, SortedMap.find (fb.fallback s) p =
    if 0 ≤ fb.tickIndex p ∨ N (s, p) = [] then none else some (levelOf (N (s, p)))
  index : ∀ id, ∃ r, fb.index.find id = some r ∧ ∀ i, r = some i ↔ ∃ k, Located N id k i
  free_nodup : fb.free.Nodup
  /-- The free slots and the slots of the queues partition the pool. -/
  slots : ∀ i, i < fb.pool.length ↔ i ∈ fb.free ∨ Listed N i
  free_apart : ∀ i ∈ fb.free, ¬ Listed N i
  slot_unique : ∀ {i : Nat} {k k' : Side × Price} {o o' : Resting}, (i, o) ∈ N k → (i, o') ∈ N k' →
    k = k' ∧ o = o'
  bidCursor : ∀ t : Nat, t < fb.ladder.length → N (.buy, fb.priceAt t) ≠ [] → t ≤ fb.bidCursor
  askCursor : ∀ t : Nat, t < fb.ladder.length → N (.sell, fb.priceAt t) ≠ [] → fb.askCursor ≤ t
  uncrossed : ∀ bid ask, N (.buy, bid) ≠ [] → N (.sell, ask) ≠ [] → bid < ask

section sound

variable {fb : FastBook} {a : PriorityBook} {N : Nodes}

theorem mem_side_of_mem (hN : a.queues = queuesOf N) {k : Side × Price} {e : Nat × Resting}
    (he : e ∈ N k) : e.2 ∈ a.side k.1 ∧ e.2.price = k.2 := by
  apply PriorityBook.mem_queues.mp
  rw [hN]
  exact List.mem_map_of_mem he

theorem Models.sound (h : Models fb a) : ∃ N, Sound fb N := by
  obtain ⟨N, hrep, hN⟩ := h.rep
  have hQ : QueuesWF (queuesOf N) := hN ▸ h.wf.queues
  have htick := fun t ht => hrep.levels.tickIndex_priceAt (t := t) ht
  refine ⟨N, ?_⟩
  constructor
  case chain => exact hrep.pool.chain
  case acyclic => exact hrep.pool.nodup hQ
  case resting =>
    intro k e he
    obtain ⟨hmem, hprice⟩ := mem_side_of_mem hN he
    exact ⟨(h.wf.sides k.1).pos e.2 hmem, hprice⟩
  case ladder =>
    intro t lvl hlvl
    refine ⟨hrep.levels.ladder t lvl hlvl, ?_⟩
    simpa [queuesOf, Side.opposite] using hQ.oneSided .buy (fb.priceAt t)
  case inBand =>
    intro p
    constructor
    · intro hp
      rcases hrep.levels.tick_cases p with ⟨t, ht, heq, -, -⟩ | ⟨hout, -⟩
      · exact ⟨t, ht, heq⟩
      · omega
    · rintro ⟨t, ht, rfl⟩
      rw [htick t ht]
      omega
  case tick => exact htick
  case fallback =>
    intro s p
    rw [hrep.levels.fallback]
    simp
  case index =>
    intro id
    obtain ⟨f, hf, hloc⟩ := hrep.index
    exact ⟨f id, FlatMap.find_spec hf id, hloc id⟩
  case free_nodup => exact hrep.pool.free_nodup
  case slots =>
    intro i
    refine ⟨hrep.pool.covered i, ?_⟩
    rintro (hfree | ⟨k, hlisted⟩)
    · exact hrep.pool.free_lt i hfree
    · obtain ⟨⟨_, o⟩, he, rfl⟩ := List.mem_map.mp hlisted
      obtain ⟨prev, next, hget⟩ := hrep.pool.get he
      exact (List.getElem?_eq_some_iff.mp hget).1
  case free_apart =>
    rintro i hfree ⟨k, hlisted⟩
    obtain ⟨e, he, rfl⟩ := List.mem_map.mp hlisted
    exact hrep.pool.free_apart _ hfree k e he rfl
  case slot_unique => exact hrep.pool.slot_unique hQ
  case bidCursor => exact hrep.cursors.bid
  case askCursor => exact hrep.cursors.ask
  case uncrossed =>
    intro bid ask hbid hask
    obtain ⟨x, hx⟩ := List.exists_mem_of_ne_nil _ hbid
    obtain ⟨y, hy⟩ := List.exists_mem_of_ne_nil _ hask
    obtain ⟨hxmem, hxprice⟩ := mem_side_of_mem hN hx
    obtain ⟨hymem, hyprice⟩ := mem_side_of_mem hN hy
    have hapart := (h.wf.apart .buy x.2 hxmem y.2 hymem).2
    rw [hxprice, hyprice] at hapart
    simpa [crosses] using hapart

/-! ## Section 3: The check passes -/

/-- One order that is as it should be. -/
theorem checkOrders_succ {i : Nat} {o : FOrder} {fuel : Nat} (hget : fb.pool[i]? = some o)
    (hopen : o.openQty ≠ 0) (hfind : fb.index.find o.id = some (some i)) (count : Nat) (sum : Qty) :
    fb.checkOrders o.side o.price (fuel + 1) (some i) o.prev count sum =
      fb.checkOrders o.side o.price fuel o.next (some i) (count + 1) (sum + o.openQty) := by
  rw [checkOrders, hget, access_some, pure_bind, failIf_of_not hopen, pure_bind,
    failIf_of_not (by simp), pure_bind, failIf_of_not (by simp), pure_bind, failIf_of_not (by simp),
    pure_bind, hfind, access_some, pure_bind, failIf_of_not (by simp), pure_bind]

/-- The loop over a queue. -/
theorem checkOrders_spec {s : Side} {p : Price} {n : List (Nat × Resting)} {prev : Link}
    {fuel : Nat} (hseg : Seg (mkOrder s) fb.pool prev (n.map Prod.fst) (n.map Prod.snd) none)
    (hn : ∀ e ∈ n, e.2.openQty ≠ 0 ∧ e.2.price = p ∧ fb.index.find e.2.id = some (some e.1))
    (hfuel : n.length ≤ fuel) (count : Nat) (sum : Qty) :
    fb.checkOrders s p fuel (n.map Prod.fst).head? prev count sum =
      pure ((n.map Prod.fst).getLast?.or prev, count + n.length, sum + total (n.map Prod.snd)) := by
  induction n generalizing prev fuel count sum with
  | nil => simp [checkOrders]
  | cons e n ih =>
    obtain ⟨i, o⟩ := e
    cases fuel with
    | zero => simp at hfuel
    | succ fuel =>
      obtain ⟨hget, htail⟩ := Arena.seg_cons.mp hseg
      obtain ⟨hopen, rfl, hfind⟩ := hn (i, o) List.mem_cons_self
      have hrest := ih htail (fun e he => hn e (List.mem_cons_of_mem _ he)) (by simpa using hfuel)
        (count + 1) (sum + o.openQty)
      have hlast : (i :: n.map Prod.fst).getLast?.or prev =
          (n.map Prod.fst).getLast?.or (some i) := by
        cases n with
        | nil => simp
        | cons e n => simp [List.getLast?_eq_some_getLast]
      rw [Option.or_none] at hget
      refine (checkOrders_succ hget hopen hfind count sum).trans (hrest.trans ?_)
      rw [List.map_cons, hlast]
      simp [Nat.add_assoc, Nat.add_comm 1, UInt32.add_assoc]

theorem checkLevel_of_head {price : Price} {lvl : Level} {i : Nat} {first : FOrder} {known : Bool}
    {expect : Side} {count count' : Nat} (hhead : lvl.head = some i)
    (hget : fb.pool[i]? = some first) (hside : known = true → first.side = expect)
    (horders : fb.checkOrders first.side price fb.pool.length (some i) none count 0 =
      pure (lvl.tail, count', lvl.total)) :
    fb.checkLevel price lvl known expect count = pure count' := by
  have hexpect : ¬ (known = true ∧ first.side ≠ expect) := fun h => h.2 (hside h.1)
  unfold checkLevel
  rw [hhead]
  dsimp only
  rw [hget, access_some, pure_bind, failIf_of_not hexpect, pure_bind, horders, pure_bind]
  dsimp only
  rw [failIf_of_not (by simp), pure_bind, failIf_of_not (by simp), pure_bind]

/-- A level that has a queue of one side. -/
theorem checkLevel_spec {s : Side} {p : Price} {n : List (Nat × Resting)}
    (hseg : Seg (mkOrder s) fb.pool none (n.map Prod.fst) (n.map Prod.snd) none)
    (hn : ∀ e ∈ n, e.2.openQty ≠ 0 ∧ e.2.price = p ∧ fb.index.find e.2.id = some (some e.1))
    (hfuel : n.length ≤ fb.pool.length) {known : Bool} {expect : Side}
    (hside : known = true → s = expect) (count : Nat) :
    fb.checkLevel p (levelOf n) known expect count = pure (count + n.length) := by
  cases n with
  | nil =>
    show (do failIf _ _; failIf _ _; pure count : Check Nat) = _
    rw [failIf_of_not (by simp [levelOf, levelWith]), pure_bind,
      failIf_of_not (by simp [levelOf, levelWith]), pure_bind]
    rfl
  | cons e n =>
    obtain ⟨i, o⟩ := e
    have horders := checkOrders_spec hseg hn hfuel count 0
    rw [Option.or_none, UInt32.zero_add] at horders
    exact checkLevel_of_head rfl (Arena.seg_cons.mp hseg).1 hside horders

/-! ### The levels of the book -/

theorem IndexRep.find_of_mem (h : IndexRep fb.index N) {k : Side × Price} {e : Nat × Resting}
    (he : e ∈ N k) : fb.index.find e.2.id = some (some e.1) := by
  obtain ⟨f, hf, hloc⟩ := h
  rw [FlatMap.find_spec hf, (hloc e.2.id e.1).mpr ⟨k, e.2, he, rfl⟩]

section rep

variable (hrep : Rep fb N none) (hwf : a.WF) (hN : a.queues = queuesOf N)

include hrep hwf hN

/-- The level of a queue passes. -/
theorem checkLevel_queue (k : Side × Price) {known : Bool} {expect : Side}
    (hside : known = true → k.1 = expect) (count : Nat) :
    fb.checkLevel k.2 (levelOf (N k)) known expect count = pure (count + (N k).length) := by
  refine checkLevel_spec (hrep.pool.chain k) (fun e he => ?_)
    (hrep.pool.length_le (hN ▸ hwf.queues) k) hside count
  obtain ⟨hmem, hprice⟩ := mem_side_of_mem hN he
  exact ⟨(hwf.sides k.1).pos e.2 hmem, hprice, hrep.index.find_of_mem he⟩

/-- The orders of both sides at a ladder price. -/
theorem checkLevel_ladder {t : Nat} {lvl : Level} (hlvl : fb.ladder[t]? = some lvl) (count : Nat) :
    fb.checkLevel (fb.priceAt t) lvl false .buy count =
      pure (count + ((N (.buy, fb.priceAt t)).length + (N (.sell, fb.priceAt t)).length)) := by
  have hone := (hN ▸ hwf.queues : QueuesWF (queuesOf N)).oneSided .buy (fb.priceAt t)
  simp only [queuesOf, List.map_eq_nil_iff, Side.opposite] at hone
  rw [hrep.levels.ladder t lvl hlvl]
  rcases hone with hnil | hnil
  · rw [hnil, List.nil_append]
    refine (checkLevel_queue hrep hwf hN (.sell, fb.priceAt t) (by simp) count).trans ?_
    simp
  · rw [hnil, List.append_nil]
    refine (checkLevel_queue hrep hwf hN (.buy, fb.priceAt t) (by simp) count).trans ?_
    simp

theorem checkLadder_spec (lvls : List Level) (i count : Nat)
    (hl : ∀ j, j < lvls.length → fb.ladder[i + j]? = lvls[j]?)
    (hi : i + lvls.length ≤ fb.ladder.length) :
    fb.checkLadder lvls i count = pure (count +
      ((List.range' i lvls.length).map (fun t : Nat =>
        (N (.buy, fb.priceAt t)).length + (N (.sell, fb.priceAt t)).length)).sum) := by
  induction lvls generalizing i count with
  | nil => rfl
  | cons lvl lvls ih =>
    have hlvl : fb.ladder[i]? = some lvl := by simpa using hl 0 (by simp)
    have hsize := hrep.levels.size
    rw [List.length_cons] at hi
    rw [checkLadder, toInt_of_lt (by omega), checkLevel_ladder hrep hwf hN hlvl, pure_bind,
      ih (i + 1) _ (fun j hj => ?_) (by omega)]
    · simp [List.range'_succ, Nat.add_assoc]
    · have := hl (j + 1) (by simpa using hj)
      simpa [Nat.add_assoc, Nat.add_comm 1 j] using this

theorem checkFallback_spec (s : Side) (count : Nat) :
    (fb.fallback s).foldlM (fb.checkFallback s) count =
      pure (count + ((fb.fallback s).map (fun e => (N (s, e.1)).length)).sum) := by
  have hstep : ∀ e ∈ fb.fallback s, ∀ count, fb.checkFallback s count e =
      pure (count + (N (s, e.1)).length) := by
    intro e he count
    obtain ⟨-, hne, hlvl⟩ := (hrep.levels.fallback_keys s).2 e he
    have hhead : e.2.head ≠ none := by
      rw [hlvl]
      cases hn : N (s, e.1) with
      | nil => exact absurd hn hne
      | cons x n => simp [levelOf, levelWith]
    rw [checkFallback, failIf_of_not hhead, pure_bind, hlvl]
    exact checkLevel_queue hrep hwf hN (s, e.1) (fun _ => rfl) count
  rw [Machine.foldlM_of_pure hstep]
  congr 1
  generalize fb.fallback s = m
  induction m generalizing count with
  | nil => rfl
  | cons e m ih => simp [ih, Nat.add_assoc]

omit hwf in
/-- Every order is in the ladder or in a fallback level. -/
theorem count_side (s : Side) :
    ((List.range' 0 fb.ladder.length).map (fun t : Nat => (N (s, fb.priceAt t)).length)).sum +
      ((fb.fallback s).map (fun e => (N (s, e.1)).length)).sum = (a.side s).length := by
  have hc : Covers fb N s ((List.range' 0 fb.ladder.length).map (fun t : Nat => fb.priceAt t)) := by
    refine ⟨fun p hp => ?_, (hrep.levels.priceAt_pairwise List.pairwise_lt_range').imp ne_of_ahead,
      fun t ht _ => List.mem_map_of_mem (by simpa using ht)⟩
    obtain ⟨t, ht, rfl⟩ := List.mem_map.mp hp
    exact ⟨t, by simpa using ht, rfl⟩
  have hqueue : ∀ p, ((PriorityList.queueAt Resting.price p (a.side s)).map (fun _ => 1)).sum =
      (N (s, p)).length := by
    intro p
    rw [show PriorityList.queueAt Resting.price p (a.side s) = a.queues (s, p) from rfl, hN]
    simp [queuesOf, Function.comp_def]
  have hkeys : ∀ o ∈ a.side s, o.price ∈
      (List.range' 0 fb.ladder.length).map (fun t : Nat => fb.priceAt t) ++
        (fb.fallback s).map Prod.fst := by
    intro o ho
    apply hc.complete hrep.levels
    have hne := PriorityBook.queues_ne_nil.mpr ⟨o, ho, rfl⟩
    rw [hN] at hne
    simpa [queuesOf] using hne
  have hsum := PriorityList.sum_queues (fun _ => 1) (hc.nodup hrep.levels) hkeys
  simp only [hqueue, List.map_append, List.map_map, List.sum_append] at hsum
  simpa [Function.comp_def] using hsum

omit hrep in
/-- The table is as large as the book. -/
theorem index_size (hindex : IndexRep fb.index N) :
    fb.index.size = (a.side .buy).length + (a.side .sell).length := by
  obtain ⟨f, hf, hloc⟩ := hindex
  have hnd : ((a.side .buy).map Resting.id ++ (a.side .sell).map Resting.id).Nodup := by
    refine List.nodup_append.mpr ⟨(hwf.sides .buy).nodup, (hwf.sides .sell).nodup,
      fun x hx y hy => ?_⟩
    obtain ⟨o, ho, rfl⟩ := List.mem_map.mp hx
    obtain ⟨o', ho', rfl⟩ := List.mem_map.mp hy
    exact (hwf.apart .buy o ho o' ho').1
  have hks : ∀ id, id ∈ (a.side .buy).map Resting.id ++ (a.side .sell).map Resting.id ↔
      (f id).isSome := by
    intro id
    have hcontains := (FlatMap.contains_spec hf id).symm.trans
      (IndexRep.contains ⟨f, hf, hloc⟩ hN id)
    rw [Option.some.inj hcontains, PriorityBook.contains_iff, List.mem_append, List.mem_map,
      List.mem_map]
    constructor
    · rintro (⟨o, ho, hid⟩ | ⟨o, ho, hid⟩)
      · exact ⟨.buy, o, ho, hid⟩
      · exact ⟨.sell, o, ho, hid⟩
    · rintro ⟨_ | _, o, ho, hid⟩
      · exact .inl ⟨o, ho, hid⟩
      · exact .inr ⟨o, ho, hid⟩
  rw [hf.size_eq_length hnd hks, List.length_append, List.length_map, List.length_map]

end rep

/-- **The check passes.** Only the cursors move. -/
theorem Models.checkInvariants (h : Models fb a) :
    ∃ fb', fb.checkInvariants = pure fb' ∧ Models fb' a := by
  obtain ⟨N, hrep, hN⟩ := h.rep
  obtain ⟨fb₁, hbid, h₁⟩ := h.best .buy
  obtain ⟨fb₂, hask, h₂⟩ := h₁.best .sell
  have hladder := checkLadder_spec hrep h.wf hN fb.ladder 0 0 (by simp) (by simp)
  have hbids : ∀ count, fb.fbBids.foldlM (fb.checkFallback .buy) count = _ :=
    checkFallback_spec hrep h.wf hN .buy
  have hasks : ∀ count, fb.fbAsks.foldlM (fb.checkFallback .sell) count = _ :=
    checkFallback_spec hrep h.wf hN .sell
  refine ⟨fb₂, ?_, h₂⟩
  unfold FastBook.checkInvariants
  rw [hladder, pure_bind, hbids, pure_bind, hasks, pure_bind, failIf_of_not, pure_bind, bestBid,
    hbid, access_some, pure_bind]
  · dsimp only
    rw [bestAsk, hask, access_some, pure_bind]
    dsimp only
    rw [failIf_of_not, pure_bind]
    cases hb : a.best .buy with
    | none => simp [crossed]
    | some bid =>
      cases hs : a.best .sell with
      | none => simp [crossed]
      | some ask => simpa [crossed] using h.wf.best_lt hb hs
  · have hbuy := count_side hrep hN .buy
    have hsell := count_side hrep hN .sell
    rw [index_size h.wf hN hrep.index, ← hbuy, ← hsell, List.sum_map_add]
    simp
    omega

end sound

/-! ## Section 4: Iterations of `match` -/

section iterations

/-- One iteration of the loop of `match`: the quantity and the events, or
    nothing when the loop ends. -/
def matchStep (id : OrderId) (side : Side) (limit : Price) (fb : FastBook) (qty : Qty) :
    Option (FastBook × Option (Qty × List BookEvent)) :=
  if qty > 0 then do
    let (fb, t) ← fb.ladderBest side.opposite
    match fb.bestLevel side.opposite t with
    | none => some (fb, none)
    | some (bestPrice, ref) =>
      if crosses side limit bestPrice then
        let (fb, got, events) ← consumeLevel ref bestPrice id side (qty.toNat + 1) fb qty
        let fb ← fb.eraseConsumed ref
        some (fb, some (got, events))
      else some (fb, none)
  else some (fb, none)

variable {id : OrderId} {side : Side} {limit : Price}

/-- The loop is its iterations. -/
theorem matchLoop_succ (fuel : Nat) (fb : FastBook) (qty : Qty) :
    matchLoop id side limit (fuel + 1) fb qty = (do
      let (fb, r) ← matchStep id side limit fb qty
      match r with
      | none => some (fb, 0, [])
      | some (got, events) =>
        let (fb, filled, events') ← matchLoop id side limit fuel fb (qty - got)
        some (fb, got + filled, events ++ events')) := by
  rw [matchLoop, FastBook.matchStep]
  split
  · cases fb.ladderBest side.opposite with
    | none => rfl
    | some scan =>
      obtain ⟨fb₁, t⟩ := scan
      dsimp only [Option.bind_eq_bind, Option.bind_some]
      cases fb₁.bestLevel side.opposite t with
      | none => rfl
      | some best =>
        obtain ⟨p, ref⟩ := best
        dsimp only
        split
        · cases consumeLevel ref p id side (qty.toNat + 1) fb₁ qty with
          | none => rfl
          | some consumed =>
            obtain ⟨fb₂, got, events⟩ := consumed
            dsimp only [Option.bind_some]
            cases fb₂.eraseConsumed ref <;> rfl
        · rfl
  · rfl

/-- What the loop comes to, before its iterations. -/
inductive Iterated (id : OrderId) (side : Side) (limit : Price) :
    FastBook → Qty → FastBook → Qty → Prop where
  | refl (fb : FastBook) (qty : Qty) : Iterated id side limit fb qty fb qty
  | step {fb fb' fb'' : FastBook} {qty qty' got : Qty} {events : List BookEvent}
      (before : Iterated id side limit fb qty fb' qty')
      (next : matchStep id side limit fb' qty' = some (fb'', some (got, events))) :
      Iterated id side limit fb qty fb'' (qty' - got)

/-- **An iteration takes at least one share.** -/
theorem Models.matchStep {fb : FastBook} {a : PriorityBook} (h : Models fb a) (id : OrderId)
    (side : Side) (limit : Price) (qty : Qty) :
    ∃ fb' r a', FastBook.matchStep id side limit fb qty = some (fb', r) ∧ Models fb' a' ∧
      ∀ got events, r = some (got, events) → 0 < got ∧ got ≤ qty := by
  by_cases hq : qty = 0
  · exact ⟨fb, none, a, by simp [FastBook.matchStep, hq], h, by simp⟩
  have hpos : qty > 0 := by grind
  obtain ⟨N, hrep, hN⟩ := h.rep
  obtain ⟨fb₀, t, hladder, hrep₀, -, hbest, hmid⟩ := hrep.ladderBest h.wf hN side.opposite
  have h₀ : Models fb₀ a := ⟨h.wf, ⟨N, hrep₀, hN⟩, hmid.trans h.nextMatchId⟩
  rw [FastBook.matchStep]
  simp only [hpos, if_true, hladder, Option.bind_eq_bind, Option.bind_some, hbest]
  cases hb : a.best side.opposite with
  | none => exact ⟨fb₀, none, a, rfl, h₀, by simp⟩
  | some p =>
    by_cases hc : crosses side limit p
    · obtain ⟨fb₁, fb', a', es, left, hrun, herase, hmodels, -, hlt⟩ := h₀.consume id hb hc hq
      refine ⟨fb', some (qty - left, es.map .executed), a', ?_, hmodels, fun got events heq => ?_⟩
      · simp only [Option.map_some, hc, if_true, hrun, Option.bind_some, herase]
      · cases heq
        have hle : left ≤ qty := UInt32.le_of_lt (UInt32.lt_iff_toNat_lt.mpr hlt)
        rw [UInt32.lt_iff_toNat_lt, UInt32.le_iff_toNat_le, UInt32.toNat_sub_of_le _ _ hle]
        simp
        omega
    · exact ⟨fb₀, none, a, by simp [hc], h₀, by simp⟩

/-- Iterations lead from sound books to sound books. -/
theorem Iterated.models {fb fb' : FastBook} {qty qty' : Qty}
    (hi : Iterated id side limit fb qty fb' qty') {a : PriorityBook} (h : Models fb a) :
    ∃ a', Models fb' a' := by
  induction hi with
  | refl => exact ⟨a, h⟩
  | step _ next ih =>
    obtain ⟨a₁, h₁⟩ := ih
    obtain ⟨fb₂, r, a₂, hstep, h₂, -⟩ := h₁.matchStep id side limit _
    cases hstep.symm.trans next
    exact ⟨a₂, h₂⟩

end iterations

/-! ## Section 5: A ladder that is too wide

    Nothing is free in a book that has only been added to. -/

section wide

/-- The side and the price of a slot, which links do not change. -/
def place (o : FOrder) : Side × Price := (o.side, o.price)

theorem Sound.poolChains {fb : FastBook} {N : Nodes} (h : Sound fb N) :
    PoolChains fb.pool fb.free N where
  chain := h.chain
  free_nodup := h.free_nodup
  free_lt := fun i hi => (h.slots i).mpr (.inl hi)
  free_apart := fun i hi k _ he heq => h.free_apart i hi ⟨k, heq ▸ List.mem_map_of_mem he⟩

/-- What is in the pool rests. -/
theorem Sound.queue_of_slot {fb : FastBook} {N : Nodes} (h : Sound fb N) (hfree : fb.free = [])
    {i : Nat} {k : Side × Price} (hk : (fb.pool.map place)[i]? = some k) : N k ≠ [] := by
  obtain ⟨o, hget, hplace⟩ := Option.map_eq_some_iff.mp ((List.getElem?_map ..).symm.trans hk)
  have hlt : i < fb.pool.length := (List.getElem?_eq_some_iff.mp hget).1
  obtain ⟨k', hlisted⟩ := ((h.slots i).mp hlt).resolve_left (by simp [hfree])
  obtain ⟨⟨_, r⟩, he, rfl⟩ := List.mem_map.mp hlisted
  obtain ⟨prev, next, hget'⟩ := h.poolChains.get he
  cases hget.symm.trans hget'
  obtain rfl : k' = k := by
    rw [← hplace, place, mkOrder, (h.resting k' _ he).2]
  exact List.ne_nil_of_mem he

/-- A sell order and a buy order come to rest at the same price. -/
theorem wide_not_sound {cfg : Config} (htick : 0 < cfg.tick)
    (hwide : 2 ^ 30 ≤ cfg.bandHalfTicks.toInt) :
    ∃ fb answers, Machine.run perform (create cfg) [.add 1 .sell 1 1, .add 2 .buy 1 1] =
      some (fb, answers) ∧ ∀ N, ¬ Sound fb N := by
  obtain ⟨fb₁, fb₂, t, hadd₁, hadd₂, hshared⟩ := wide_adds htick hwide
  refine ⟨fb₂, _, by simp [Machine.run, perform, hadd₁, hadd₂]; rfl, fun N h => ?_⟩
  have hsell := h.queue_of_slot hshared.free (i := 0) (k := (.sell, 1)) (by rw [hshared.pool]; rfl)
  have hbuy := h.queue_of_slot hshared.free (i := 1) (k := (.buy, 1)) (by rw [hshared.pool]; rfl)
  exact absurd (h.uncrossed 1 1 hbuy hsell) (by decide)

end wide

/-! ## Section 6: The invariant -/

/-- What holds of a book between calls: the representation, the check, and what
    an iteration of `match` does when the loop is entered in this book. -/
structure Reliable (fb : FastBook) : Prop where
  sound : ∃ N, Sound fb N
  check : ∃ fb', fb.checkInvariants = pure fb'
  progress : ∀ {id side limit qty fb' qty'}, Iterated id side limit fb qty fb' qty' →
    (∃ N, Sound fb' N) ∧ ∃ fb'' r, matchStep id side limit fb' qty' = some (fb'', r) ∧
      ∀ got events, r = some (got, events) → 0 < got ∧ got ≤ qty'

theorem Models.reliable {fb : FastBook} {a : PriorityBook} (h : Models fb a) : Reliable fb where
  sound := h.sound
  check := by
    obtain ⟨fb', hcheck, -⟩ := h.checkInvariants
    exact ⟨fb', hcheck⟩
  progress := by
    intro id side limit qty fb' qty' hi
    obtain ⟨a', h'⟩ := hi.models h
    obtain ⟨fb'', r, -, hstep, -, hgot⟩ := h'.matchStep id side limit qty'
    exact ⟨h'.sound, fb'', r, hstep, hgot⟩

end FastBook

/-- **The representation of the fast book is sound** after any calls exactly as
    long as the size of the ladder fits an `int`. Every call is then defined,
    which says that all accesses are in range and the loops end. -/
theorem fastBook_sound_iff (cfg : FastBook.Config) (htick : 0 < cfg.tick)
    (hhalf : 0 ≤ cfg.bandHalfTicks.toInt) :
    (∀ ops, ∃ fb answers, Machine.run FastBook.perform (FastBook.create cfg) ops =
      some (fb, answers) ∧ fb.Reliable) ↔ cfg.bandHalfTicks.toInt < 2 ^ 30 := by
  constructor
  · intro h
    by_contra hwide
    obtain ⟨fb, answers, hrun, hunsound⟩ := FastBook.wide_not_sound htick (Int.not_lt.mp hwide)
    obtain ⟨fb', answers', hrun', hreliable⟩ := h [.add 1 .sell 1 1, .add 2 .buy 1 1]
    cases hrun.symm.trans hrun'
    obtain ⟨N, hsound⟩ := hreliable.sound
    exact hunsound N hsound
  · intro hlt ops
    obtain ⟨fb, a, answers, hrun, -, hmodels⟩ :=
      FastBook.simulation.run (FastBook.models_create ⟨htick, hhalf, hlt⟩) ops
    exact ⟨fb, answers, hrun, hmodels.reliable⟩

/-- The configuration the engine uses is narrow enough. -/
theorem fastBook_sound_default :
    ({} : FastBook.Config).bandHalfTicks.toInt < 2 ^ 30 ∧ ∀ ops, ∃ fb answers,
      Machine.run FastBook.perform (FastBook.create {}) ops = some (fb, answers) ∧ fb.Reliable :=
  ⟨by decide, (fastBook_sound_iff {} (by decide) (by decide)).mpr (by decide)⟩

/-- A half width of 2^30 ticks: a sell and a buy at the same price share a
    level. -/
theorem fastBook_unsound : ∃ fb answers,
    Machine.run FastBook.perform (FastBook.create { bandHalfTicks := 1073741824 })
      [.add 1 .sell 1 1, .add 2 .buy 1 1] = some (fb, answers) ∧ ∀ N, ¬ FastBook.Sound fb N :=
  FastBook.wide_not_sound (by decide) (by decide)

end MatchingEngine
