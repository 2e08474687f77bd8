import MatchingEngine.Book.FastBookQueries

/-! # A ladder that is too wide

    With `band_half_ticks` from 2^30 on, the ladder has more than 2^31 levels.
    `static_cast<int>` of its size is then negative, so that the scan for the
    best ask ends before it begins: the book is `Blind`.

    The example is a sell order and a buy order at the same price. The first
    order fixes the band and rests in its middle. The second one does not see it
    and rests behind it, in the same level (`wide_adds`).
-/

namespace MatchingEngine

namespace FastBook

/-! ## Section 1: One level of the ladder

    What `rest` and `remove_resting` do in a level of the ladder and what a
    snapshot shows of it do not depend on its width. -/

/-- What a call that works on one level of the ladder leaves alone. -/
structure SameFallback (fb fb' : FastBook) : Prop where
  band : SameBand fb fb'
  fallback : ∀ u, fb'.fallback u = fb.fallback u

section ladder

variable {fb : FastBook} {index : OrderId → Option Nat} {t : Nat} {lvl lvl' : Level}
  {pool : List FOrder}

/-- An order rests in a level of the ladder. -/
theorem rest_at (id : OrderId) (s : Side) (price : Price) (qty : Qty) (hset : fb.bandSet = true)
    (ht : fb.tickIndex price = t) (hlvl : fb.ladder[t]? = some lvl) (hfree : fb.free = [])
    (hindex : fb.index.Models index)
    (hlink : linkBack (fb.pool ++ [⟨id, price, qty, none, none, s⟩]) lvl fb.pool.length qty =
      some (pool, lvl')) :
    ∃ fb', fb.rest id s price qty = some fb' ∧ SameFallback fb fb' ∧
      fb'.ladder = fb.ladder.set t lvl' ∧
      fb'.pool = pool ∧ fb'.free = [] ∧
        fb'.index.Models (Function.update index id (some fb.pool.length)) := by
  obtain ⟨m, hinsert, hm⟩ := FlatMap.insert_spec hindex id fb.pool.length
  have hband : fb.setBand price = fb := by rw [setBand, if_pos hset]
  have hfor : fb.levelFor s price = (fb, .ladder t) := by
    rw [levelFor, ht, if_pos (by omega), Int.toNat_natCast]
  let fb₁ : FastBook :=
    { fb with pool := pool, ladder := fb.ladder.set t lvl', index := m, free := [] }
  have hrest : fb.rest id s price qty = some (fb₁.moveCursors s price) := by
    simp only [rest, hband, hfor, allocOrder, hfree, Option.bind_eq_bind, Option.bind_some, level,
      hlvl, hlink]
    simp only [setLevel, hinsert, Option.bind_some]
    rfl
  have hcursors := sameLevels_moveCursors fb₁ s price
  refine ⟨_, hrest, ⟨?_, ?_⟩, hcursors.ladder, ?_, ?_, ?_⟩
  · have hsame : SameBand fb fb₁ := ⟨rfl, rfl, rfl, by simp [fb₁]⟩
    exact hsame.trans hcursors.band
  · intro u
    rw [hcursors.fallback]
    cases u <;> rfl
  · rw [moveCursors_eq]
  · rw [moveCursors_eq]
  · rw [moveCursors_eq]
    exact hm

/-- An order leaves a level of the ladder. -/
theorem removeResting_at {idx : Nat} {o : FOrder} (ho : fb.pool[idx]? = some o)
    (ht : fb.tickIndex o.price = t) (hlvl : fb.ladder[t]? = some lvl)
    (hindex : fb.index.Models index)
    (hunlink : unlink fb.pool { lvl with total := lvl.total - o.openQty } idx = some (pool, lvl')) :
    ∃ fb', fb.removeResting idx = some fb' ∧ SameFallback fb fb' ∧
      fb'.ladder = fb.ladder.set t lvl' ∧ fb'.pool = pool := by
  obtain ⟨m, herase, -⟩ := FlatMap.erase_spec hindex o.id
  have hfor : fb.levelFor o.side o.price = (fb, .ladder t) := by
    rw [levelFor, ht, if_pos (by omega), Int.toNat_natCast]
  let fb₁ : FastBook :=
    { fb with pool := pool, ladder := fb.ladder.set t lvl', index := m, free := idx :: fb.free }
  have hsame : SameBand fb fb₁ := ⟨rfl, rfl, rfl, by simp [fb₁]⟩
  -- the ladder keeps its levels
  have hkeep : fb₁.eraseLevelIfFallback o.side o.price lvl' = fb₁ := by
    rw [eraseLevelIfFallback, if_pos (Or.inr _)]
    rw [hsame.tickIndex, ht]
    omega
  refine ⟨fb₁, ?_, ⟨hsame, ?_⟩, rfl, rfl⟩
  · simp only [removeResting, ho, hfor, Option.bind_eq_bind, Option.bind_some, level, hlvl, hunlink]
    simp only [setLevel, herase, Option.bind_some, freeOrder]
    exact congrArg some hkeep
  · intro u
    cases u <;> rfl

theorem mem_ladderLevels {s : Side} {lvls : List Level} {i : Nat} {levels : List (Price × Level)}
    (h : fb.ladderLevels s lvls i = some levels) (hlvl : lvls[t]? = some lvl)
    (hholds : fb.holds s lvl = some true) : (fb.priceAt (toInt (i + t : Nat)), lvl) ∈ levels := by
  induction lvls generalizing i t levels with
  | nil => cases hlvl
  | cons l lvls ih =>
    simp only [ladderLevels, Option.bind_eq_bind, Option.bind_eq_some_iff] at h
    obtain ⟨rest, hrest, b, hb, heq⟩ := h
    cases t with
    | zero =>
      cases hlvl
      cases hholds.symm.trans hb
      cases heq
      exact List.mem_cons_self
    | succ t =>
      have hmem := ih hrest hlvl
      rw [show i + 1 + t = i + (t + 1) by omega] at hmem
      split at heq
      · cases heq
        exact List.mem_cons_of_mem _ hmem
      · cases heq
        exact hmem

/-- The first order of a level of the ladder is in the snapshot. -/
theorem mem_entries_of_ladder {snap : BookSnapshot} {i : Nat} {o : FOrder}
    (h : fb.snapshot = some snap)
    (hlvl : fb.ladder[t]? = some lvl) (hhead : lvl.head = some i) (ho : fb.pool[i]? = some o) :
    ⟨o.id, fb.priceAt (toInt t), o.openQty⟩ ∈ PriorityBook.entries snap o.side := by
  have hholds : fb.holds o.side lvl = some true := by
    rw [holds, hhead]
    simp [ho]
  have hside : fb.snapshotSide o.side = some (snap.side o.side) := by
    simp only [snapshot, Option.bind_eq_bind, Option.bind_eq_some_iff] at h
    obtain ⟨bids, hbids, asks, hasks, heq⟩ := h
    rw [← Option.some.inj heq]
    cases o.side
    · exact hbids
    · exact hasks
  simp only [snapshotSide, Option.bind_eq_bind, Option.bind_eq_some_iff] at hside
  obtain ⟨levels, hlevels, hmap⟩ := hside
  have hmem := mem_ladderLevels hlevels hlvl hholds
  rw [Nat.zero_add] at hmem
  -- the level is shown with the orders of its list, of which this is the first
  have hsorted : (fb.priceAt (toInt t), lvl) ∈
      (levels ++ fb.fallback o.side).insertionSort (fun a b => ¬ o.side.ahead b.1 a.1) :=
    (List.perm_insertionSort _ _).mem_iff.mpr (List.mem_append_left _ hmem)
  have hshown := List.mem_map_of_mem (f := fun e : Price × Level =>
    (chain fb.pool fb.pool.length e.2.head).bind
      (fun orders => some (⟨e.1, orders⟩ : SnapshotLevel))) hsorted
  rw [Machine.map_of_mapM hmap, List.mem_map] at hshown
  obtain ⟨level, hlevel, heq⟩ := hshown
  have hpool : fb.pool.length ≠ 0 := by
    intro hnil
    rw [List.eq_nil_of_length_eq_zero hnil] at ho
    cases ho
  obtain ⟨n, hn⟩ := Nat.exists_eq_succ_of_ne_zero hpool
  simp only [hhead, hn, chain, ho, Option.bind_eq_bind, Option.bind_some] at heq
  obtain ⟨orders, horders, heq⟩ := Option.bind_eq_some_iff.mp heq.symm
  obtain ⟨rest, -, hrest⟩ := Option.bind_eq_some_iff.mp horders
  cases hrest
  cases heq
  apply List.mem_flatMap.mpr
  exact ⟨_, hlevel, List.mem_map.mpr ⟨⟨o.id, o.openQty⟩, List.mem_cons_self, rfl⟩⟩

end ladder

theorem rest_setBand (fb : FastBook) (id : OrderId) (s : Side) (price : Price) (qty : Qty) :
    (fb.setBand price).rest id s price qty = fb.rest id s price qty := by
  have hagain : (fb.setBand price).setBand price = fb.setBand price := by
    unfold setBand
    split
    · rfl
    · rfl
  rw [rest, hagain]
  rfl

/-- The first price is in the middle of the band. -/
theorem tickIndex_setBand {cfg : Config} (htick : 0 < cfg.tick)
    (hhalf : 0 ≤ cfg.bandHalfTicks.toInt) (price : Price) :
    ((create cfg).setBand price).tickIndex price = cfg.bandHalfTicks.toInt := by
  have hlt : cfg.bandHalfTicks.toInt < 2 ^ 31 := Int32.toInt_lt _
  have hoff : price - (price - cfg.bandHalfTicks.toInt * cfg.tick) =
      cfg.bandHalfTicks.toInt * cfg.tick := by lia
  have hpos : 0 ≤ cfg.bandHalfTicks.toInt * cfg.tick := Int.mul_nonneg hhalf (Int.le_of_lt htick)
  have hidx : toInt cfg.bandHalfTicks.toInt = cfg.bandHalfTicks.toInt := by
    have := toInt_of_lt (n := cfg.bandHalfTicks.toInt.toNat) (by omega)
    rwa [Int.toNat_of_nonneg hhalf] at this
  simp only [tickIndex, create, setBand, Bool.false_eq_true, if_false, hoff, Int.mul_tmod_left,
    Bool.not_true, not_lt.mpr hpos, ne_eq, not_true_eq_false, or_self,
      Int.mul_tdiv_cancel _ (ne_of_gt htick),
    List.length_replicate, hidx]
  rw [if_neg (by omega)]

/-! ## Section 2: A blind book -/

/-- A book that cannot find an ask: the band is set, the size of the ladder is
    no positive `int`, and no ask is outside the ladder. -/
structure Blind (fb : FastBook) : Prop where
  bandSet : fb.bandSet = true
  wide : toInt fb.ladder.length ≤ 0
  asks : fb.fallback .sell = []

theorem Blind.congr {fb fb' : FastBook} (h : Blind fb) (hsame : SameFallback fb fb') :
    Blind fb' where
  bandSet := hsame.band.bandSet.trans h.bandSet
  wide := by rw [hsame.band.length]; exact h.wide
  asks := (hsame.fallback .sell).trans h.asks

theorem toInt_wide {n : Nat} (hlo : 2 ^ 31 ≤ n) (hhi : n < 2 ^ 32) : toInt n ≤ 0 := by
  rw [toInt, Int.bmod_def]
  split <;> omega

theorem Blind.ladderBest {fb : FastBook} (h : Blind fb) :
    ∃ cursor, fb.ladderBest .sell = some ({ fb with askCursor := cursor }, -1) := by
  have hwide := h.wide
  have hsteps : (toInt fb.ladder.length - max fb.askCursor 0).toNat = 0 := by omega
  refine ⟨((max fb.askCursor 0).toNat : Nat), ?_⟩
  simp only [FastBook.ladderBest, h.bandSet, if_true, ladderBestAsk, hsteps, scanUp,
    Option.bind_eq_bind, Option.bind_some]
  rw [if_neg (by omega)]

/-- An order that finds no opposite price is not filled. -/
theorem matchOrder_of_empty {fb fb' : FastBook} {s : Side}
    (hl : fb.ladderBest s.opposite = some (fb', -1))
    (hf : fb'.fallback s.opposite = []) (id : OrderId) (limit : Price) {qty : Qty} (hq : qty ≠ 0) :
    fb.matchOrder id s limit qty = some (fb', 0, []) := by
  have hpos : qty > 0 := by grind
  simp only [matchOrder, matchLoop, hpos, if_true, hl, Option.bind_eq_bind, Option.bind_some,
    bestLevel, hf]
  rfl

theorem Blind.matchOrder {fb : FastBook} (h : Blind fb) (id : OrderId) (limit : Price) {qty : Qty}
    (hq : qty ≠ 0) : ∃ cursor,
    fb.matchOrder id .buy limit qty = some ({ fb with askCursor := cursor }, 0, []) := by
  obtain ⟨cursor, hladder⟩ := h.ladderBest
  exact ⟨cursor, matchOrder_of_empty (s := .buy) hladder h.asks id limit hq⟩

/-- Nothing crosses for a book that sees no ask. -/
theorem Blind.wouldCross {fb : FastBook} (h : Blind fb) (price : Price) : ∃ cursor,
    fb.wouldCross .buy price = some ({ fb with askCursor := cursor }, false) := by
  obtain ⟨cursor, hladder⟩ := h.ladderBest
  refine ⟨cursor, ?_⟩
  have hasks : ({ fb with askCursor := cursor } : FastBook).fallback .sell = [] := h.asks
  simp only [FastBook.wouldCross, best, Side.opposite, hladder, Option.bind_eq_bind,
    Option.bind_some, bestLevel, hasks]
  rfl

/-- An add that matches nothing. -/
theorem add_eq_rest (fb : FastBook) {fb₁ : FastBook} (id : OrderId) (s : Side) (price : Price)
    {qty : Qty} (hp : 0 < price) (hq : qty ≠ 0) (hc : fb.contains id = some false)
    (hm : fb.matchOrder id s price qty = some (fb₁, 0, [])) :
    fb.add id s price qty = (fb₁.rest id s price qty).map (fun fb' =>
      (fb', ⟨.ok, 0, qty⟩, [.added ⟨id, s, price, qty⟩])) := by
  have hpos : qty > 0 := by grind
  simp only [add, not_le.mpr hp, hq, if_false, hc, hm, Option.bind_eq_bind, Option.bind_some,
    Bool.false_eq_true, UInt32.sub_zero, hpos, if_true]
  cases fb₁.rest id s price qty <;> rfl

/-! ## Section 3: A sell and a buy at the same price -/

/-- The book with a sell order and behind it a buy order, both of one share at
    the price 1, in the level `t` of the ladder. -/
structure SharedLevel (fb : FastBook) (t : Nat) : Prop where
  blind : Blind fb
  tick : fb.tickIndex 1 = t
  price : fb.priceAt (toInt t) = 1
  level : fb.ladder[t]? = some ⟨2, some 0, some 1⟩
  pool : fb.pool = [⟨1, 1, 1, none, some 1, .sell⟩, ⟨2, 1, 1, some 0, none, .buy⟩]
  free : fb.free = []
  index : fb.index.Models (Function.update (Function.update (fun _ => none) 1 (some 0)) 2 (some 1))

/-- **The second order does not see the first one.** -/
theorem wide_adds {cfg : Config} (htick : 0 < cfg.tick) (hwide : 2 ^ 30 ≤ cfg.bandHalfTicks.toInt) :
    ∃ fb₁ fb₂ t, (create cfg).add 1 .sell 1 1 = some (fb₁, ⟨.ok, 0, 1⟩, [.added ⟨1, .sell, 1, 1⟩]) ∧
      fb₁.add 2 .buy 1 1 = some (fb₂, ⟨.ok, 0, 1⟩, [.added ⟨2, .buy, 1, 1⟩]) ∧
        SharedLevel fb₂ t := by
  have hlt : cfg.bandHalfTicks.toInt < 2 ^ 31 := Int32.toInt_lt _
  have hhalf : 0 ≤ cfg.bandHalfTicks.toInt := by omega
  have hindex := FlatMap.models_create (K := OrderId) (V := Nat) (cfg.expectedOrders * 2)
  obtain ⟨t, ht⟩ := Int.eq_ofNat_of_zero_le hhalf
  -- the first order is alone in the middle of the ladder
  let fb₀ := (create cfg).setBand 1
  have hlen₀ : fb₀.ladder.length = 2 * t + 1 := by simp [fb₀, setBand, create, ht]
  have hlvl₀ : fb₀.ladder[t]? = some {} := by
    have hin : t < 2 * t + 1 := by omega
    simp [fb₀, setBand, create, ht, hin]
  have htick₀ : fb₀.tickIndex 1 = t := (tickIndex_setBand htick hhalf 1).trans ht
  have hprice₀ : fb₀.priceAt (toInt t) = 1 := by
    rw [toInt_of_lt (by omega), ← ht]
    simp [fb₀, FastBook.priceAt, setBand, create]
  have hblind₀ : Blind fb₀ := ⟨rfl, by rw [hlen₀]; exact toInt_wide (by omega) (by omega), rfl⟩
  obtain ⟨fb₁, hrest₁, hsame₁, hladder₁, hpool₁, hfree₁, hindex₁⟩ :=
    rest_at 1 .sell 1 1 (show fb₀.bandSet = true from rfl) htick₀ hlvl₀ rfl hindex rfl
  have hadd₁ := add_eq_rest (create cfg) 1 .sell 1 (by decide) (show (1 : Qty) ≠ 0 by decide)
    (FlatMap.contains_spec hindex 1) (matchOrder_of_empty rfl rfl 1 1 (by decide))
  rw [← rest_setBand, hrest₁, Option.map_some] at hadd₁
  -- the second order does not see it and rests behind it
  have hblind₁ := hblind₀.congr hsame₁
  obtain ⟨cursor, hmatch₂⟩ := hblind₁.matchOrder 2 1 (show (1 : Qty) ≠ 0 by decide)
  have hadd₂ := add_eq_rest fb₁ 2 .buy 1 (by decide) (by decide)
    (FlatMap.contains_spec hindex₁ 2) hmatch₂
  let fb₁' : FastBook := { fb₁ with askCursor := cursor }
  have hband₁' : SameBand fb₁ fb₁' := ⟨rfl, rfl, rfl, rfl⟩
  have hlvl₁ : fb₁'.ladder[t]? = some ⟨1, some 0, some 0⟩ := by
    show fb₁.ladder[t]? = _
    rw [hladder₁]
    exact Arena.get_set_self _ hlvl₀
  have htick₁ : fb₁'.tickIndex 1 = t := by
    rw [hband₁'.tickIndex, hsame₁.band.tickIndex]
    exact htick₀
  have hpool₁' : fb₁'.pool = [⟨1, 1, 1, none, none, .sell⟩] := hpool₁
  obtain ⟨fb₂, hrest₂, hsame₂, hladder₂, hpool₂, hfree₂, hindex₂⟩ :=
    rest_at 2 .buy 1 1 (show fb₁'.bandSet = true from hblind₁.bandSet) htick₁ hlvl₁ hfree₁
      hindex₁ (by rw [hpool₁']; rfl)
  rw [hrest₂, Option.map_some] at hadd₂
  refine ⟨fb₁, fb₂, t, hadd₁, hadd₂, ?_, ?_, ?_, ?_, hpool₂, hfree₂, ?_⟩
  · have hblind₁' : Blind fb₁' := ⟨hblind₁.bandSet, hblind₁.wide, hblind₁.asks⟩
    exact hblind₁'.congr hsame₂
  · rw [hsame₂.band.tickIndex]
    exact htick₁
  · rw [hsame₂.band.priceAt, hband₁'.priceAt, hsame₁.band.priceAt]
    exact hprice₀
  · rw [hladder₂]
    exact Arena.get_set_self _ hlvl₁
  · rw [hpool₁'] at hindex₂
    exact hindex₂

end FastBook

end MatchingEngine
