import MatchingEngine.Book.FastBookRefines

/-! # The operations of the fast book

    Resting and removing an order, and with them and `match` the operations
    `add`, `cancel`, `replace` and `execute_ioc`: each returns what the priority
    book returns, with the same events, and keeps the books related. The
    queries `matchable`, `best_bid`, `best_ask` and `snapshot` agree as well.
-/

namespace MatchingEngine

namespace FastBook

open PriorityBook (total)

/-! ## Section 1: Resting and removing -/

section rest

variable {fb : FastBook} {a : PriorityBook} {N : Nodes}

theorem Rep.setBand (h : Rep fb N none) (price : Price) :
    Rep (fb.setBand price) N none ∧ (fb.setBand price).bandSet = true ∧
      (fb.setBand price).nextMatchId = fb.nextMatchId := by
  obtain ⟨hl, hset⟩ := h.levels.setBand price
  have hstore : (fb.setBand price).pool = fb.pool ∧ (fb.setBand price).free = fb.free ∧
      (fb.setBand price).index = fb.index ∧ (fb.setBand price).nextMatchId = fb.nextMatchId := by
    unfold FastBook.setBand
    split <;> exact ⟨rfl, rfl, rfl, rfl⟩
  refine ⟨⟨hl, ?_, ?_, ?_⟩, hset, hstore.2.2.2⟩
  · rw [hstore.1, hstore.2.1]
    exact h.pool
  · rw [hstore.2.2.1]
    exact h.index
  · by_cases hb : fb.bandSet = true
    · rw [FastBook.setBand, if_pos hb]
      exact h.cursors
    · -- an unset band has no orders to bound
      have hN := (h.levels.unset (by simpa using hb)).2
      exact ⟨fun t _ hne => absurd (hN _) hne, fun t _ hne => absurd (hN _) hne⟩

/-- `level_for` finds the level of a side and price, or makes an empty one. -/
theorem Rep.levelFor (h : Rep fb N none) (hset : fb.bandSet = true) (s : Side) (p : Price)
    (hopp : N (s.opposite, p) = []) :
    ∃ fb', fb.levelFor s p = (fb', fb'.refOf s p) ∧ Rep fb' N (some (s, p)) ∧
      fb'.level (fb'.refOf s p) = some (levelOf (N (s, p))) ∧ SameBand fb fb' ∧
        SameStore fb fb' := by
  obtain ⟨m, heq, hl⟩ := h.levels.levelFor hset s p
  have hband := sameBand_setFallback fb s m
  have hstore := sameStore_setFallback fb s m
  refine ⟨fb.setFallback s m, by rw [heq, hband.refOf], ⟨hl, ?_, ?_, ?_⟩,
    hl.level_ref hopp (Or.inr (Or.inr rfl)), hband, hstore⟩
  · rw [hstore.pool, hstore.free]
    exact h.pool
  · rw [hstore.index]
    exact h.index
  · exact h.cursors.mono hband hstore.bidCursor hstore.askCursor (fun _ hk => hk)

theorem setLevel_index (fb : FastBook) (ref : LevelRef) (lvl : Level)
    (index : FlatMap OrderId Nat) :
    { fb.setLevel ref lvl with index := index } = { fb with index := index }.setLevel ref lvl := by
  cases ref with
  | ladder i => rfl
  | fallback s p => cases s <;> rfl

theorem sameLevels_moveCursors (fb : FastBook) (s : Side) (p : Price) :
    SameLevels fb (fb.moveCursors s p) := by
  rw [moveCursors_eq]
  exact ⟨rfl, rfl, rfl, rfl, rfl, rfl⟩

theorem Models.rest (h : Models fb a) {id : OrderId} {s : Side} {price : Price} {qty : Qty}
    (hid : a.contains id = false) (hwf : (a.rest id s price qty).WF) :
    ∃ fb', fb.rest id s price qty = some fb' ∧ Models fb' (a.rest id s price qty) := by
  obtain ⟨N, hrep, hN⟩ := h.rep
  have hQ : QueuesWF (queuesOf N) := hN ▸ h.wf.queues
  have hqueues := h.wf.queues_rest id s price qty
  have hfresh : ∀ k, ∀ e ∈ N k, e.2.id ≠ id := by
    intro ⟨t, p⟩ e he
    have hmem : e.2 ∈ a.queues (t, p) := by rw [hN]; exact List.mem_map_of_mem he
    exact PriorityBook.contains_eq_false.mp hid t e.2 (PriorityBook.mem_queues.mp hmem).1
  -- the order does not cross, so nothing rests opposite at its price
  have hopp : N (s.opposite, price) = [] := by
    have := (hwf.queues.oneSided s price).resolve_left (by rw [hqueues]; simp)
    rw [hqueues, Function.update_of_ne (by simp [Side.opposite_ne]), hN] at this
    simpa [queuesOf] using this
  obtain ⟨hrep₀, hset, hmid₀⟩ := hrep.setBand price
  obtain ⟨fb₁, hfor, hrep₁, hlevel₁, hband₁, hstore₁⟩ := hrep₀.levelFor hset s price hopp
  obtain ⟨pool₂, free₂, idx, halloc, hpool₂, hget₂, hslot, hfree, hcovered⟩ :=
    allocOrder_spec hrep₁.pool id s price qty
  obtain ⟨pool₃, hlink, hpool₃⟩ :=
    hpool₂.linkBack (k := (s, price)) hQ hget₂ hslot hfree hcovered
  obtain ⟨index', hinsert, hindex⟩ :=
    hrep₁.index.insert (o := ⟨id, price, qty⟩) hfresh (s, price) idx
  -- the book before the cursors move
  obtain ⟨fb₂, hfb₂⟩ : ∃ fb₂ : FastBook, fb₂ =
      { fb₁ with pool := pool₃, free := free₂, index := index', nextMatchId := fb₁.nextMatchId } :=
    ⟨_, rfl⟩
  have hsame : SameLevels fb₁ fb₂ := by
    rw [hfb₂]
    exact ⟨rfl, rfl, rfl, rfl, rfl, rfl⟩
  generalize hn : N (s, price) ++ [(idx, (⟨id, price, qty⟩ : Resting))] = n at hlink hpool₃ hindex
  obtain ⟨fb₃, hfb₃⟩ : ∃ fb₃ : FastBook, fb₃ = fb₂.setLevel (fb₂.refOf s price) (levelOf n) :=
    ⟨_, rfl⟩
  have hstore₃ : SameStore fb₂ fb₃ := hfb₃ ▸ sameStore_setLevel fb₂ _ _
  have hband₃ : SameBand fb₂ fb₃ := hfb₃ ▸ sameBand_setLevel fb₂ _ _
  have hlevels₃ : LevelsRep fb₃ (Function.update N (s, price) n) (some (s, price)) := by
    rw [hfb₃]
    exact (hrep₁.levels.congr hsame).setLevel (Or.inr rfl) hopp
      (fun _ => hsame.bandSet.trans (hband₁.bandSet.trans hset))
  have hcursors₃ : CursorRep fb₃ N :=
    hrep₁.cursors.mono (hsame.band.trans hband₃) (by rw [hstore₃.bidCursor, hfb₂])
      (by rw [hstore₃.askCursor, hfb₂]) (fun _ hk => hk)
  have hpool : PoolRep fb₃.pool fb₃.free (Function.update N (s, price) n) := by
    rw [hstore₃.pool, hstore₃.free, hfb₂]
    exact hpool₃
  have hidx : IndexRep fb₃.index (Function.update N (s, price) n) := by
    rw [hstore₃.index, hfb₂]
    exact hindex
  refine ⟨fb₃.moveCursors s price, ?_, hwf,
    ⟨Function.update N (s, price) n, ⟨?_, ?_, ?_, ?_⟩, ?_⟩, ?_⟩
  · have hlevel : fb₁.level (fb₁.refOf s price) = some (levelOf (N (s, price))) := hlevel₁
    rw [FastBook.rest]
    simp only [hfor, halloc, Option.bind_eq_bind, Option.bind_some]
    rw [show ({ fb₁ with pool := pool₂, free := free₂ } : FastBook).level (fb₁.refOf s price) =
      some (levelOf (N (s, price))) from hlevel, Option.bind_some, hlink, Option.bind_some]
    simp only [(sameStore_setLevel _ _ _).index, hinsert, Option.bind_some, setLevel_index]
    rw [hfb₃, hsame.band.refOf, hfb₂]
  · refine (hlevels₃.congr (sameLevels_moveCursors fb₃ s price)).close (Or.inr ?_)
    rw [Function.update_self, ← hn]
    simp
  · simp only [moveCursors_eq]
    exact hpool
  · simp only [moveCursors_eq]
    exact hidx
  · exact hcursors₃.moveCursors hlevels₃ s price n
  · rw [hqueues, hN, queuesOf_update, ← hn, List.map_append]
    rfl
  · simp only [moveCursors_eq, hstore₃.nextMatchId, hfb₂, hstore₁.nextMatchId, hmid₀, h.nextMatchId]
    rw [PriorityBook.rest, PriorityBook.nextMatchId_setSide]

/-- `erase_level_if_fallback` drops a fallback level that has no orders. -/
theorem Rep.eraseLevelIfFallback {s : Side} {p : Price} (h : Rep fb N (some (s, p))) :
    Rep (fb.eraseLevelIfFallback s p (levelOf (N (s, p)))) N none ∧
      (fb.eraseLevelIfFallback s p (levelOf (N (s, p)))).nextMatchId = fb.nextMatchId := by
  unfold FastBook.eraseLevelIfFallback
  split
  · next hkeep =>
    refine ⟨⟨h.levels.close ?_, h.pool, h.index, h.cursors⟩, rfl⟩
    rcases hkeep with hne | hin
    · exact Or.inr (fun hnil => hne (by rw [hnil]; rfl))
    · exact Or.inl hin
  · next hkeep =>
    push Not at hkeep
    have hnil : N (s, p) = [] := by
      cases hn : N (s, p) with
      | nil => rfl
      | cons e n => simp [hn, levelOf, levelWith] at hkeep
    have hstore := sameStore_setFallback fb s (SortedMap.erase p (fb.fallback s))
    exact ⟨h.dropFallback (by grind) hnil, hstore.nextMatchId⟩

/-- The level total without one order. -/
theorem total_split (xs : List Resting) (o : Resting) (ys : List Resting) (q : Qty) :
    total (xs ++ o :: ys) - (o.openQty - q) = total (xs ++ { o with openQty := q } :: ys) := by
  simp only [PriorityBook.total_append, PriorityBook.total_cons]
  grind

/-- A stored order fixes the band, and its price has no orders opposite. -/
theorem Rep.stored {k : Side × Price} (h : Rep fb N none) (hQ : QueuesWF (queuesOf N))
    (hk : N k ≠ []) : fb.bandSet = true ∧ N (k.1.opposite, k.2) = [] := by
  constructor
  · by_contra hu
    exact hk ((h.levels.unset (by simpa using hu)).2 k)
  · have := (hQ.oneSided k.1 k.2).resolve_left (by simpa [queuesOf] using hk)
    simpa [queuesOf] using this

theorem Models.removeResting (h : Models fb a) {s : Side} {o : Resting} {i : Nat}
    {xs ys : List (Nat × Resting)} (hrep : Rep fb N none) (hN : a.queues = queuesOf N)
    (hs : N (s, o.price) = xs ++ (i, o) :: ys) :
    ∃ fb', fb.removeResting i = some fb' ∧ Models fb' (a.remove o.id) := by
  have hQ : QueuesWF (queuesOf N) := hN ▸ h.wf.queues
  have hne : N (s, o.price) ≠ [] := by rw [hs]; simp
  obtain ⟨hset, hopp⟩ := hrep.stored hQ hne
  obtain ⟨pv, nx, hget⟩ := hrep.pool.get (k := (s, o.price)) (i := i) (o := o) (by simp [hs])
  obtain ⟨fb₁, hfor, hrep₁, hlevel, hband, hstore⟩ := hrep.levelFor hset s o.price hopp
  obtain ⟨pool', hunlink, hpool⟩ :=
    hrep₁.pool.unlink hQ hs (total ((N (s, o.price)).map Prod.snd) - o.openQty)
  obtain ⟨r, herase, hindex⟩ := hrep₁.index.erase hQ hs
  have hlvl : levelWith (total ((N (s, o.price)).map Prod.snd) - o.openQty) (xs ++ ys) =
      levelOf (xs ++ ys) := by
    rw [levelOf, hs]
    congr 1
    simp only [List.map_append, List.map_cons, PriorityBook.total_append, PriorityBook.total_cons]
    grind
  rw [hlvl] at hunlink
  have hwrite := Rep.write fb₁.nextMatchId hrep₁.levels hrep₁.cursors hopp (fun _ => hne)
    hpool hindex
  generalize hfb₂ : ({ fb₁ with
    pool := pool', free := i :: fb₁.free, index := r.1, nextMatchId := fb₁.nextMatchId } : FastBook
      ).setLevel (fb₁.refOf s o.price) (levelOf (xs ++ ys)) = fb₂ at hwrite
  obtain ⟨hrep', hmid⟩ := hwrite.eraseLevelIfFallback
  rw [Function.update_self] at hrep' hmid
  refine ⟨fb₂.eraseLevelIfFallback s o.price (levelOf (xs ++ ys)), ?_, h.wf.remove o.id,
    ⟨_, hrep', ?_⟩, ?_⟩
  · rw [FastBook.removeResting, hget]
    simp only [Option.bind_eq_bind, Option.bind_some, mkOrder, hfor, hlevel]
    rw [show ({ levelOf (N (s, o.price)) with
        total := (levelOf (N (s, o.price))).total - o.openQty } : Level) =
      levelWith (total ((N (s, o.price)).map Prod.snd) - o.openQty) (N (s, o.price)) from rfl,
        hunlink]
    simp only [Option.bind_some, (sameStore_setLevel _ _ _).index, herase, setLevel_index,
      freeOrder_setLevel]
    rw [← hfb₂]
    rfl
  · have hq : a.queues (s, o.price) = xs.map Prod.snd ++ o :: ys.map Prod.snd := by
      simp [hN, queuesOf, hs]
    rw [h.wf.queues_remove hq, hN, queuesOf_update, List.map_append]
  · rw [hmid, ← hfb₂, (sameStore_setLevel _ _ _).nextMatchId, hstore.nextMatchId, h.nextMatchId]
    rfl

theorem levelFor_pool {fb₁ : FastBook} {s : Side} {p : Price} {ref : LevelRef}
    (h : fb.levelFor s p = (fb₁, ref)) (pool : List FOrder) :
    ({ fb with pool := pool } : FastBook).levelFor s p = ({ fb₁ with pool := pool }, ref) := by
  have htick : ({ fb with pool := pool } : FastBook).tickIndex p = fb.tickIndex p := rfl
  simp only [FastBook.levelFor, htick] at h ⊢
  by_cases ht : fb.tickIndex p ≥ 0
  · rw [if_pos ht] at h ⊢
    cases h
    rfl
  · rw [if_neg ht] at h ⊢
    cases h
    cases s <;> rfl

/-- The branch of `cancel` that leaves some of the order. -/
theorem Models.reduceResting (h : Models fb a) {s : Side} {o : Resting} {i : Nat}
    {xs ys : List (Nat × Resting)} (hrep : Rep fb N none) (hN : a.queues = queuesOf N)
    (hs : N (s, o.price) = xs ++ (i, o) :: ys) {pv nx : Arena.Link}
    (hget : fb.pool[i]? = some (mkOrder s pv nx o)) {keep : Qty} (hkeep : keep ≠ 0) :
    ∃ fb₁ ref lvl, ({ fb with
          pool := fb.pool.set i (mkOrder s pv nx { o with openQty := keep }) } : FastBook).levelFor
        s o.price = (fb₁, ref) ∧ fb₁.level ref = some lvl ∧
      Models (fb₁.setLevel ref { lvl with total := lvl.total - (o.openQty - keep) })
        (a.setOpen o.id keep) := by
  have hQ : QueuesWF (queuesOf N) := hN ▸ h.wf.queues
  have hne : N (s, o.price) ≠ [] := by rw [hs]; simp
  obtain ⟨hset, hopp⟩ := hrep.stored hQ hne
  obtain ⟨fb₁, hfor, hrep₁, hlevel, -, hstore⟩ := hrep.levelFor hset s o.price hopp
  have hpool := hrep₁.pool.setOpen hQ hs keep (hstore.pool ▸ hget)
  have hindex := hrep₁.index.setOpen hs keep
  have hwrite := (Rep.write fb₁.nextMatchId hrep₁.levels hrep₁.cursors hopp (fun _ => hne) hpool
    hindex).closeHole (by simp)
  refine ⟨_, _, _, levelFor_pool hfor _, hlevel, h.wf.setOpen o.id hkeep,
    ⟨Function.update N (s, o.price) (xs ++ (i, { o with openQty := keep }) :: ys), ?_, ?_⟩, ?_⟩
  · -- the record that is written back is that of the new queue
    have hlvl : levelWith (total ((N (s, o.price)).map Prod.snd) - (o.openQty - keep))
        (N (s, o.price)) = levelOf (xs ++ (i, { o with openQty := keep }) :: ys) := by
      have := total_split (xs.map Prod.snd) o (ys.map Prod.snd) keep
      simp only [hs, levelOf, levelWith, List.map_append, List.map_cons, this]
    rw [← hlvl, hstore.pool] at hwrite
    exact hwrite
  · have hq : a.queues (s, o.price) = xs.map Prod.snd ++ o :: ys.map Prod.snd := by
      simp [hN, queuesOf, hs]
    rw [h.wf.queues_setOpen hq, hN, queuesOf_update, List.map_append, List.map_cons]
  · rw [(sameStore_setLevel _ _ _).nextMatchId, hstore.nextMatchId, h.nextMatchId]
    rfl

end rest

/-! ## Section 2: Operations -/

section operations

variable {fb : FastBook} {a : PriorityBook}

theorem Models.contains (h : Models fb a) (id : OrderId) :
    fb.contains id = some (a.contains id) := by
  obtain ⟨N, hrep, hN⟩ := h.rep
  exact hrep.index.contains hN id

/-- The id table finds the slot of a resting order and nothing else. -/
theorem Models.find (h : Models fb a) (id : OrderId) :
    (fb.index.find id = some none ∧ a.lookup id = none) ∨
      ∃ N s o i xs ys, fb.index.find id = some (some i) ∧ a.lookup id = some (s, o) ∧ o.id = id ∧
        Rep fb N none ∧ a.queues = queuesOf N ∧ N (s, o.price) = xs ++ (i, o) :: ys := by
  obtain ⟨N, hrep, hN⟩ := h.rep
  rcases hrep.index.find id with ⟨hf, hnot⟩ | ⟨⟨s, p⟩, i, hf, o, ho, hid⟩
  · refine Or.inl ⟨hf, PriorityBook.lookup_none.mpr (fun s o ho hid => ?_)⟩
    have hmem : o ∈ a.queues (s, o.price) := PriorityBook.mem_queues.mpr ⟨ho, rfl⟩
    rw [hN] at hmem
    obtain ⟨⟨i, o'⟩, he, rfl⟩ := List.mem_map.mp hmem
    exact hnot _ i ⟨o', he, hid⟩
  · have hmem : o ∈ a.queues (s, p) := by rw [hN]; exact List.mem_map_of_mem ho
    have hprice : o.price = p := h.wf.queues.price _ o hmem
    subst hprice
    obtain ⟨xs, ys, hs⟩ := List.append_of_mem ho
    exact Or.inr ⟨N, s, o, i, xs, ys, hf, h.wf.lookup_queues.mpr ⟨hmem, hid⟩, hid, hrep, hN, hs⟩

/-- Matching and resting, as `add` and the crossing `replace` do it. -/
theorem Models.enter (h : Models fb a) {id : OrderId} (s : Side) {price : Price} (qty : Qty)
    (hid : a.contains id = false) (hp : 0 < price) :
    ∃ fb₁ filled events, fb.matchOrder id s price qty = some (fb₁, filled, events) ∧
      (a.enter id s price qty).2.1 = filled ∧
      (a.enter id s price qty).2.2 =
        (if qty - filled > 0 then events ++ [.added ⟨id, s, price, qty - filled⟩] else events) ∧
      ∃ fb', Models fb' (a.enter id s price qty).1 ∧
        (if qty - filled > 0 then fb₁.rest id s price (qty - filled) else some fb₁) = some fb' := by
  obtain ⟨fb₁, hmatch, hmodels⟩ := h.matchOrder id s price qty
  refine ⟨fb₁, (a.executeIoc id s price qty).2.1, (a.executeIoc id s price qty).2.2, hmatch, ?_⟩
  have hwf := (h.wf.enter_trace s qty hid hp).wf h.wf
  unfold PriorityBook.enter at hwf ⊢
  dsimp only at hwf ⊢
  split
  · next hpos =>
    rw [if_pos hpos] at hwf
    obtain ⟨fb', hrest, h'⟩ := hmodels.rest (PriorityBook.contains_afterWalk hid id s price qty) hwf
    exact ⟨rfl, rfl, fb', h', hrest⟩
  · exact ⟨rfl, rfl, fb₁, hmodels, rfl⟩

theorem Models.add (h : Models fb a) (id : OrderId) (s : Side) (price : Price) (qty : Qty) :
    ∃ fb', fb.add id s price qty = some (fb', (a.add id s price qty).2) ∧
      Models fb' (a.add id s price qty).1 := by
  unfold FastBook.add PriorityBook.add
  simp only [h.contains, Option.bind_eq_bind, Option.bind_some]
  split
  · exact ⟨fb, rfl, h⟩
  split
  · exact ⟨fb, rfl, h⟩
  split
  · exact ⟨fb, rfl, h⟩
  next hp _ hid =>
  obtain ⟨fb₁, filled, events, hmatch, hfilled, hevents, fb', hmodels, hrest⟩ :=
    h.enter s qty (Bool.eq_false_iff.mpr hid) (show 0 < price by lia)
  refine ⟨fb', ?_, hmodels⟩
  simp only [hmatch, Option.bind_some, hfilled, hevents]
  by_cases hpos : qty - filled > 0
  · rw [if_pos hpos] at hrest
    simp only [hpos, if_true, hrest, Option.bind_some]
  · rw [if_neg hpos] at hrest
    cases hrest
    simp only [hpos, if_false]

theorem Models.cancel (h : Models fb a) (id : OrderId) (keep : Qty) :
    ∃ fb', fb.cancel id keep = some (fb', (a.cancel id keep).2) ∧
      Models fb' (a.cancel id keep).1 := by
  unfold FastBook.cancel PriorityBook.cancel
  rcases h.find id with ⟨hf, ha⟩ | ⟨N, s, o, i, xs, ys, hf, ha, rfl, hrep, hN, hs⟩
  · simp only [hf, ha, Option.bind_eq_bind, Option.bind_some]
    exact ⟨fb, rfl, h⟩
  · obtain ⟨pv, nx, hget⟩ := hrep.pool.get (k := (s, o.price)) (i := i) (o := o) (by simp [hs])
    simp only [hf, ha, hget, Option.bind_eq_bind, Option.bind_some, mkOrder]
    split
    · exact ⟨fb, rfl, h⟩
    split
    · obtain ⟨fb', hremove, hmodels⟩ := h.removeResting hrep hN hs
      exact ⟨fb', by simp [hremove], hmodels⟩
    · next hk =>
      obtain ⟨fb₁, ref, lvl, hfor, hlevel, hmodels⟩ := h.reduceResting hrep hN hs hget hk
      refine ⟨_, ?_, hmodels⟩
      simp only [mkOrder] at hfor
      simp only [hfor, hlevel, Option.bind_some]

theorem Models.best (h : Models fb a) (s : Side) :
    ∃ fb', fb.best s = some (fb', a.best s) ∧ Models fb' a := by
  obtain ⟨N, hrep, hN⟩ := h.rep
  obtain ⟨fb', t, hladder, hrep', -, hbest, hmid⟩ := hrep.ladderBest h.wf hN s
  refine ⟨fb', ?_, h.wf, ⟨N, hrep', hN⟩, hmid.trans h.nextMatchId⟩
  simp only [FastBook.best, hladder, Option.bind_eq_bind, Option.bind_some, hbest, Option.map_map]
  cases a.best s <;> rfl

theorem Models.wouldCross (h : Models fb a) (s : Side) (price : Price) :
    ∃ fb', fb.wouldCross s price = some (fb', a.wouldCross s price) ∧ Models fb' a := by
  obtain ⟨fb', hbest, h'⟩ := h.best s.opposite
  refine ⟨fb', ?_, h'⟩
  simp only [FastBook.wouldCross, hbest, Option.bind_eq_bind, Option.bind_some]
  rfl

theorem Models.replace (h : Models fb a) (oldId newId : OrderId) (price : Price) (qty : Qty) :
    ∃ fb', fb.replace oldId newId price qty = some (fb', (a.replace oldId newId price qty).2) ∧
      Models fb' (a.replace oldId newId price qty).1 := by
  unfold FastBook.replace PriorityBook.replace
  rcases h.find oldId with ⟨hf, ha⟩ | ⟨N, s, o, i, xs, ys, hf, ha, rfl, hrep, hN, hs⟩
  · simp only [hf, ha, Option.bind_eq_bind, Option.bind_some]
    exact ⟨fb, rfl, h⟩
  · obtain ⟨pv, nx, hget⟩ := hrep.pool.get (k := (s, o.price)) (i := i) (o := o) (by simp [hs])
    simp only [hf, ha, h.contains, hget, Option.bind_eq_bind, Option.bind_some, mkOrder]
    split
    · exact ⟨fb, rfl, h⟩
    next hid =>
    split
    · exact ⟨fb, rfl, h⟩
    next hargs =>
    simp only [not_or, Bool.not_eq_true] at hid hargs
    obtain ⟨fb₁, hremove, h₁⟩ := h.removeResting hrep hN hs
    obtain ⟨fb₂, hcross, h₂⟩ := h₁.wouldCross s price
    have hfresh : (a.remove o.id).contains newId = false := by
      rw [PriorityBook.contains_remove_of_ne hid.1]
      exact hid.2
    simp only [hremove, hcross, Option.bind_some]
    by_cases hw : (a.remove o.id).wouldCross s price = true
    · obtain ⟨fb₃, filled, events, hmatch, -, hevents, fb', hmodels, hrest⟩ :=
        h₂.enter s qty hfresh (show 0 < price by lia)
      simp only [hw, if_true, hmatch, Option.bind_some, hevents]
      refine ⟨fb', ?_, hmodels⟩
      by_cases hpos : qty - filled > 0
      · rw [if_pos hpos] at hrest
        simp only [hpos, if_true, hrest, Option.bind_some, List.cons_append]
      · rw [if_neg hpos] at hrest
        cases hrest
        simp only [hpos, if_false]
    · have hw' : (a.remove o.id).wouldCross s price = false := by simpa using hw
      have hwf : ((a.remove o.id).rest newId s price qty).WF :=
        h₂.wf.rest hfresh (by lia) hargs.2 (h₂.wf.not_crosses_of_wouldCross hw')
      obtain ⟨fb', hrest, hmodels⟩ := h₂.rest hfresh hwf
      simp only [hw', hrest, Option.bind_some]
      exact ⟨fb', rfl, hmodels⟩

end operations

end FastBook

end MatchingEngine
