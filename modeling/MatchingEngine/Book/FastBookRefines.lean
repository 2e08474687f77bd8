import MatchingEngine.Book.FastBookBest

/-! # The fast book implements the priority book

    `FastBook.Models fb a` relates a fast book to a priority book: pool, id
    table, levels and cursors of `fb` all store the queues of `a`. The loops of
    `match` walk the priority book level by level, and every operation and
    query returns what the priority book returns.
-/

namespace MatchingEngine

namespace FastBook

open Function
open PriorityBook (total)

/-! ## Section 1: The refinement relation -/

structure Rep (fb : FastBook) (N : Nodes) (hole : Option (Side × Price)) : Prop where
  levels : LevelsRep fb N hole
  pool : PoolRep fb.pool fb.free N
  index : IndexRep fb.index N
  cursors : CursorRep fb N

/-- **The refinement relation** between the fast book and the priority book. -/
structure Models (fb : FastBook) (a : PriorityBook) : Prop where
  wf : a.WF
  rep : ∃ N, Rep fb N none ∧ a.queues = queuesOf N
  nextMatchId : fb.nextMatchId = a.nextMatchId

theorem sameBand_setLevel (fb : FastBook) (ref : LevelRef) (lvl : Level) :
    SameBand fb (fb.setLevel ref lvl) := by
  cases ref with
  | ladder i => exact ⟨rfl, rfl, rfl, by simp [setLevel]⟩
  | fallback s p => exact sameBand_setFallback fb s _

/-- What a change of the levels leaves alone. -/
structure SameStore (fb fb' : FastBook) : Prop where
  bidCursor : fb'.bidCursor = fb.bidCursor
  askCursor : fb'.askCursor = fb.askCursor
  pool : fb'.pool = fb.pool
  free : fb'.free = fb.free
  index : fb'.index = fb.index
  nextMatchId : fb'.nextMatchId = fb.nextMatchId

theorem sameStore_setFallback (fb : FastBook) (s : Side) (m : List (Price × Level)) :
    SameStore fb (fb.setFallback s m) := by
  cases s <;> exact ⟨rfl, rfl, rfl, rfl, rfl, rfl⟩

theorem sameStore_setLevel (fb : FastBook) (ref : LevelRef) (lvl : Level) :
    SameStore fb (fb.setLevel ref lvl) := by
  cases ref with
  | ladder i => exact ⟨rfl, rfl, rfl, rfl, rfl, rfl⟩
  | fallback s p => exact sameStore_setFallback fb s _

theorem freeOrder_setLevel (fb : FastBook) (ref : LevelRef) (lvl : Level) (idx : Nat) :
    (fb.setLevel ref lvl).freeOrder idx = (fb.freeOrder idx).setLevel ref lvl := by
  cases ref with
  | ladder i => rfl
  | fallback s p => cases s <;> rfl

theorem sameBand_write (fb : FastBook) (pool : List FOrder) (free : List Nat)
    (index : FlatMap OrderId Nat) (m : Nat) (ref : LevelRef) (lvl : Level) :
    SameBand fb ({ fb with
      pool := pool, free := free, index := index, nextMatchId := m }.setLevel ref lvl) :=
  have h := sameBand_setLevel { fb with
    pool := pool, free := free, index := index, nextMatchId := m } ref lvl
  ⟨h.cfg, h.bandSet, h.base, h.length⟩

/-- A level is written back together with a change of the pool and the table
    that takes its queue from `N (s, p)` to `n`. -/
theorem Rep.write {fb : FastBook} {N : Nodes} {s : Side} {p : Price} {n : List (Nat × Resting)}
    {pool : List FOrder} {free : List Nat} {index : FlatMap OrderId Nat} (m : Nat)
    (hl : LevelsRep fb N (some (s, p))) (hc : CursorRep fb N) (hopp : N (s.opposite, p) = [])
    (hn : n ≠ [] → N (s, p) ≠ []) (hp : PoolRep pool free (update N (s, p) n))
    (hi : IndexRep index (update N (s, p) n)) :
    Rep ({ fb with pool := pool, free := free, index := index, nextMatchId := m }.setLevel
        (fb.refOf s p) (levelOf n)) (update N (s, p) n) (some (s, p)) := by
  obtain ⟨fb₁, hfb₁⟩ : ∃ fb₁ : FastBook, fb₁ =
    { fb with pool := pool, free := free, index := index, nextMatchId := m } := ⟨_, rfl⟩
  rw [← hfb₁]
  have hsame : SameLevels fb fb₁ := by
    rw [hfb₁]
    exact ⟨rfl, rfl, rfl, rfl, rfl, rfl⟩
  have hl₁ := hl.congr hsame
  have hstore := sameStore_setLevel fb₁ (fb.refOf s p) (levelOf n)
  refine ⟨?_, ?_, ?_, ?_⟩
  · rw [← hsame.band.refOf]
    refine hl₁.setLevel (Or.inr rfl) hopp (fun hne => ?_)
    by_contra hu
    exact hn hne ((hl₁.unset (by simpa using hu)).2 _)
  · rw [hstore.pool, hstore.free, hfb₁]
    exact hp
  · rw [hstore.index, hfb₁]
    exact hi
  · have hband := sameBand_setLevel fb₁ (fb.refOf s p) (levelOf n)
    have hc₁ : CursorRep fb₁ N := hc.mono hsame.band (by rw [hfb₁]) (by rw [hfb₁]) (fun _ h => h)
    refine hc₁.mono hband hstore.bidCursor hstore.askCursor (fun k hk => ?_)
    by_cases hkk : k = (s, p)
    · subst hkk
      exact hn (by simpa using hk)
    · rwa [update_of_ne hkk] at hk

/-! ## Section 2: Matching -/

section take

variable {fb : FastBook} {N : Nodes} {s : Side} {p : Price} {i : Nat} {o : Resting}
  {n : List (Nat × Resting)}

variable {exec : Qty} {pv nx : Arena.Link}

theorem levelOf_take (hle : exec = o.openQty ∨ o.openQty - exec ≠ 0) :
    levelWith ((levelOf ((i, o) :: n)).total - exec) (nodeLeft (i, o) n exec) =
      levelOf (nodeLeft (i, o) n exec) := by
  unfold levelOf nodeLeft
  simp only [levelWith, List.map_cons, PriorityBook.total_cons]
  split
  · next h0 =>
    have : exec = o.openQty := hle.resolve_right (fun h => h h0)
    subst this
    congr 1
    grind
  · simp only [List.map_cons, PriorityBook.total_cons]
    congr 1
    grind

/-- `takeShares` when the order is taken whole. -/
theorem takeShares_all (fb : FastBook) (ref : LevelRef) (t : Qty) (m : List (Nat × Resting))
    (h : o.openQty - exec = 0) :
    fb.takeShares ref (levelWith t m) i (mkOrder s pv nx o) exec =
      (fb.index.erase o.id).bind (fun r =>
        (unlink (fb.pool.set i (mkOrder s pv nx { o with openQty := o.openQty - exec }))
          (levelWith (t - exec) m) i).bind (fun u =>
            some ({ fb with
              pool := u.1
              free := i :: fb.free
              index := r.1
              nextMatchId := fb.nextMatchId + 1 }.setLevel ref u.2))) := by
  simp only [FastBook.takeShares, mkOrder, h, levelWith, if_true, freeOrder_setLevel]
  rfl

/-- `takeShares` when some of the order stays. -/
theorem takeShares_part (fb : FastBook) (ref : LevelRef) (t : Qty) (m : List (Nat × Resting))
    (h : o.openQty - exec ≠ 0) :
    fb.takeShares ref (levelWith t m) i (mkOrder s pv nx o) exec =
      some ({ fb with
        pool := fb.pool.set i (mkOrder s pv nx { o with openQty := o.openQty - exec })
        nextMatchId := fb.nextMatchId + 1 }.setLevel ref (levelWith (t - exec) m)) := by
  simp only [FastBook.takeShares, mkOrder, h, levelWith, if_false]

/-- Changing the open quantity of one stored order keeps the queues well
    formed. -/
theorem queuesWF_setOpen (hQ : QueuesWF (queuesOf N)) {k : Side × Price}
    {xs ys : List (Nat × Resting)} (hs : N k = xs ++ (i, o) :: ys) (q : Qty) :
    QueuesWF (queuesOf (update N k (xs ++ (i, { o with openQty := q }) :: ys))) := by
  refine hQ.of_stamps (fun k' => ?_)
  by_cases hk : k' = k
  · subst hk
    simp [queuesOf, hs, PriorityBook.stamp]
  · simp [queuesOf, update_of_ne hk]

/-- One iteration of `consume_level` reduces the first order of the level, or
    takes it out. -/
theorem Rep.takeShares (h : Rep fb N (some (s, p))) (hQ : QueuesWF (queuesOf N))
    (hn : N (s, p) = (i, o) :: n) (hle : exec = o.openQty ∨ o.openQty - exec ≠ 0)
    (hget : fb.pool[i]? = some (mkOrder s pv nx o)) :
    ∃ fb', fb.takeShares (fb.refOf s p) (levelOf (N (s, p))) i (mkOrder s pv nx o) exec = some fb' ∧
      Rep fb' (update N (s, p) (nodeLeft (i, o) n exec)) (some (s, p)) ∧
      SameBand fb fb' ∧ fb'.nextMatchId = fb.nextMatchId + 1 := by
  have hn' : N (s, p) = [] ++ (i, o) :: n := hn
  have hopp : N (s.opposite, p) = [] := by
    have := (hQ.oneSided s p).resolve_left (by simp [queuesOf, hn])
    simpa [queuesOf] using this
  have hshrink : nodeLeft (i, o) n exec ≠ [] → N (s, p) ≠ [] := by
    rw [hn]
    exact fun _ => List.cons_ne_nil _ _
  have hsetOpen := h.pool.setOpen hQ hn' (o.openQty - exec) hget
  have htotal := levelOf_take (i := i) (n := n) hle
  rw [← hn] at htotal
  -- both branches start from the pool with the new quantity and the new total
  have hlevel : ∀ t q, levelWith t (N (s, p)) =
      levelWith t ((i, { o with openQty := q }) :: n) := by
    intro t q
    simp [levelWith, hn]
  by_cases hleft : o.openQty - exec = 0
  · -- the order leaves: its slot is unlinked and freed
    have hnode : nodeLeft (i, o) n exec = n := by simp [nodeLeft, hleft]
    rw [hnode] at htotal hshrink ⊢
    obtain ⟨r, herase, hindex⟩ := h.index.erase hQ hn'
    obtain ⟨pool', hunlink, hpool⟩ := hsetOpen.unlink (queuesWF_setOpen hQ hn' _)
      (update_self _ _ _) ((levelOf (N (s, p))).total - exec)
    rw [update_idem, List.nil_append] at hpool
    rw [update_self, List.nil_append, List.nil_append, ← hlevel, htotal] at hunlink
    refine ⟨_, ?_, Rep.write (fb.nextMatchId + 1) h.levels h.cursors hopp hshrink hpool hindex,
      sameBand_write fb _ _ _ _ _ _, (sameStore_setLevel _ _ _).nextMatchId⟩
    rw [levelOf, takeShares_all fb _ _ _ hleft, herase, Option.bind_some]
    exact congrArg (fun x => Option.bind x _) hunlink
  · -- the order stays, reduced
    have hnode : nodeLeft (i, o) n exec = (i, { o with openQty := o.openQty - exec }) :: n := by
      simp [nodeLeft, hleft]
    rw [hnode, ← hlevel] at htotal
    rw [hnode] at hshrink ⊢
    refine ⟨_, ?_, Rep.write (fb.nextMatchId + 1) h.levels h.cursors hopp hshrink hsetOpen
      (h.index.setOpen hn' _), sameBand_write fb _ _ _ _ _ _,
      (sameStore_setLevel _ _ _).nextMatchId⟩
    rw [← htotal, levelOf, takeShares_part fb _ _ _ hleft]
    rfl

end take

theorem SameBand.trans {fb fb' fb'' : FastBook} (h : SameBand fb fb') (h' : SameBand fb' fb'') :
    SameBand fb fb'' :=
  ⟨h'.cfg.trans h.cfg, h'.bandSet.trans h.bandSet, h'.base.trans h.base, h'.length.trans h.length⟩

/-- What `consume_level` has done: the level holds `n`, and the abstract book
    has walked from `a` to `a'` by the executions `es`, which leaves `left`. -/
structure Consumed (id : OrderId) (s : Side) (limit p : Price) (N : Nodes) (a : PriorityBook)
    (qty : Qty) (fb fb' : FastBook) (n : List (Nat × Resting)) (a' : PriorityBook)
    (es : List ExecutedEvent) (left : Qty) : Prop where
  rep : Rep fb' (update N (s.opposite, p) n) (some (s.opposite, p))
  queues : a'.queues = queuesOf (update N (s.opposite, p) n)
  nextMatchId : fb'.nextMatchId = a'.nextMatchId
  walks : PriorityBook.Walks id s limit a qty es a' left
  done : left = 0 ∨ n = []
  band : SameBand fb fb'

theorem consumeLevel_spec {id : OrderId} {s : Side} {limit p : Price} {fuel : Nat} :
    ∀ {fb : FastBook} {N : Nodes} {a : PriorityBook} {qty : Qty},
      Rep fb N (some (s.opposite, p)) → a.WF → a.queues = queuesOf N →
      fb.nextMatchId = a.nextMatchId → N (s, p) = [] →
      (N (s.opposite, p) ≠ [] → a.best s.opposite = some p) → crosses s limit p →
      qty.toNat < fuel →
      ∃ fb' n a' es left, consumeLevel (fb.refOf s.opposite p) p id s fuel fb qty =
          some (fb', qty - left, es.map .executed) ∧
        Consumed id s limit p N a qty fb fb' n a' es left := by
  induction fuel with
  | zero => intro _ _ _ _ _ _ _ _ _ _ _ hf; omega
  | succ fuel ih =>
    intro fb N a qty h hwf hN hmid hown hbest hc hf
    have hQ : QueuesWF (queuesOf N) := hN ▸ hwf.queues
    have hlevel : fb.level (fb.refOf s.opposite p) = some (levelOf (N (s.opposite, p))) :=
      h.levels.level_ref (by simpa using hown) (Or.inr (Or.inr rfl))
    -- the loop ends at once when nothing is wanted or the level is empty
    have hend : qty = 0 ∨ N (s.opposite, p) = [] →
        Consumed id s limit p N a qty fb fb (N (s.opposite, p)) a [] qty := fun hdone =>
      { rep := by rwa [update_eq_self]
        queues := by rwa [update_eq_self]
        nextMatchId := hmid
        walks := .refl a qty
        done := hdone
        band := ⟨rfl, rfl, rfl, rfl⟩ }
    rw [consumeLevel]
    simp only [hlevel, Option.bind_eq_bind, Option.bind_some]
    cases hn : N (s.opposite, p) with
    | nil =>
      refine ⟨fb, _, a, [], qty, ?_, hend (Or.inr hn)⟩
      simp [levelOf, levelWith]
    | cons e n =>
      obtain ⟨i, o⟩ := e
      have hhead : (levelOf ((i, o) :: n)).head = some i := rfl
      simp only [hhead]
      by_cases hq : qty = 0
      · refine ⟨fb, _, a, [], qty, ?_, hend (Or.inl hq)⟩
        simp [hq]
      · have hpos : qty > 0 := by grind
        have hprice : o.price = p :=
          hQ.price (s.opposite, p) o (by simp [queuesOf, hn])
        obtain ⟨pv, nx, hget⟩ := h.pool.get (k := (s.opposite, p)) (i := i) (o := o) (by simp [hn])
        generalize hexec : (if qty < o.openQty then qty else o.openQty) = exec
        have hle : exec = o.openQty ∨ o.openQty - exec ≠ 0 := by
          rw [← hexec]
          split
          · right; grind
          · left; rfl
        obtain ⟨a₁, hstep⟩ :=
          hwf.node_step hN id hn (hbest (by rw [hn]; exact List.cons_ne_nil _ _)) hc hq hexec
        obtain ⟨fb₁, htake, hrep₁, hband₁, hmid₁⟩ := h.takeShares hQ hn hle hget
        have hown₁ : update N (s.opposite, p) (nodeLeft (i, o) n exec) (s, p) = [] := by
          rw [update_of_ne (by simp [Side.ne_opposite]), hown]
        have hfuel : (qty - exec).toNat < fuel := by
          have : (qty - exec).toNat < qty.toNat := hstep.lt
          omega
        obtain ⟨fb', n', a', es, left, hrun, hcons⟩ :=
          ih hrep₁ hstep.wf hstep.queues (by rw [hmid₁, hstep.nextMatchId, hmid]) hown₁ hstep.best
            hc hfuel
        rw [hband₁.refOf] at hrun
        refine ⟨fb', n', a', _, left, ?_, ?_, ?_, hcons.nextMatchId, hstep.walks hcons.walks,
          hcons.done, hband₁.trans hcons.band⟩
        · rw [hn] at htake
          simp only [hpos, if_true, hget, Option.bind_some,
            show (mkOrder s.opposite pv nx o).openQty = o.openQty from rfl,
            show (mkOrder s.opposite pv nx o).id = o.id from rfl, hexec, htake, hrun, hprice, hmid,
            List.map_cons, Option.some.injEq, Prod.mk.injEq, true_and, and_true]
          grind
        · simpa using hcons.rep
        · simpa using hcons.queues

section models

variable {fb : FastBook} {a : PriorityBook} {N : Nodes}

variable {s : Side} {p : Price}

/-- The scan for the best level moves a cursor and finds the best price. -/
theorem Rep.ladderBest (h : Rep fb N none) (hwf : a.WF) (hN : a.queues = queuesOf N) (s : Side) :
    ∃ fb' t, fb.ladderBest s = some (fb', t) ∧ Rep fb' N none ∧ BestIndex fb' N s t ∧
      fb'.bestLevel s t = (a.best s).map (fun p => (p, fb'.refOf s p)) ∧
      fb'.nextMatchId = fb.nextMatchId := by
  obtain ⟨bc, ac, t, heq, hbest, hcur⟩ :=
    ladderBest_spec h.levels h.pool (hN ▸ hwf.queues) h.cursors s
  have hlevels : LevelsRep { fb with bidCursor := bc, askCursor := ac } N none :=
    h.levels.congr ⟨rfl, rfl, rfl, rfl, rfl, rfl⟩
  have hbest' : BestIndex { fb with bidCursor := bc, askCursor := ac } N s t :=
    ⟨hbest.none, hbest.some⟩
  exact ⟨_, t, heq, ⟨hlevels, h.pool, h.index, hcur⟩, hbest',
    bestLevel_spec hlevels hwf hN hbest', rfl⟩

theorem Rep.closeHole {k : Side × Price} (h : Rep fb N (some k)) (hk : N k ≠ []) : Rep fb N none :=
  ⟨h.levels.close (Or.inr hk), h.pool, h.index, h.cursors⟩

theorem Rep.openHole (h : Rep fb N none) {k : Side × Price} (hk : N k ≠ []) :
    Rep fb N (some k) := by
  refine ⟨h.levels.move_hole (fun k' _ hnil => ?_), h.pool, h.index, h.cursors⟩
  simp only [reduceCtorEq, Option.some.injEq, false_iff]
  rintro rfl
  exact hk hnil

/-- The map entry of a fallback level without orders is erased. -/
theorem Rep.dropFallback (h : Rep fb N (some (s, p))) (hout : ¬ 0 ≤ fb.tickIndex p)
    (hnil : N (s, p) = []) : Rep (fb.setFallback s (SortedMap.erase p (fb.fallback s))) N none := by
  have hstore := sameStore_setFallback fb s (SortedMap.erase p (fb.fallback s))
  refine ⟨h.levels.erase hout hnil, ?_, ?_, ?_⟩
  · rw [hstore.pool, hstore.free]
    exact h.pool
  · rw [hstore.index]
    exact h.index
  · exact h.cursors.mono (sameBand_setFallback fb s _) hstore.bidCursor hstore.askCursor
      (fun _ hk => hk)

/-- A level that was emptied is erased if it is a fallback level. -/
theorem Rep.eraseConsumed (h : Rep fb N (some (s, p))) (hopp : N (s.opposite, p) = []) :
    ∃ fb', fb.eraseConsumed (fb.refOf s p) = some fb' ∧ Rep fb' N none ∧
      fb'.nextMatchId = fb.nextMatchId := by
  have hlevel := h.levels.level_ref hopp (Or.inr (Or.inr rfl))
  unfold FastBook.eraseConsumed
  rw [hlevel]
  simp only [Option.bind_eq_bind, Option.bind_some]
  by_cases hin : 0 ≤ fb.tickIndex p
  · refine ⟨fb, ?_, ⟨h.levels.close (Or.inl hin), h.pool, h.index, h.cursors⟩, rfl⟩
    simp only [refOf, if_pos hin]
    split <;> first | rfl | simp_all
  · rw [refOf, if_neg hin]
    by_cases hnil : N (s, p) = []
    · exact ⟨fb.setFallback s (SortedMap.erase p (fb.fallback s)), by rw [hnil]; rfl,
        h.dropFallback hin hnil, (sameStore_setFallback fb s _).nextMatchId⟩
    · refine ⟨fb, ?_, ⟨h.levels.close (Or.inr hnil), h.pool, h.index, h.cursors⟩, rfl⟩
      cases hn : N (s, p) with
      | nil => exact absurd hn hnil
      | cons e n => rfl

/-- One iteration of `match`: the best level is consumed. -/
theorem Models.consume (h : Models fb a) (id : OrderId) {limit : Price} {qty : Qty}
    (hb : a.best s.opposite = some p) (hc : crosses s limit p) (hq : qty ≠ 0) :
    ∃ fb₁ fb' a' es left,
      consumeLevel (fb.refOf s.opposite p) p id s (qty.toNat + 1) fb qty =
        some (fb₁, qty - left, es.map .executed) ∧
      fb₁.eraseConsumed (fb.refOf s.opposite p) = some fb' ∧ Models fb' a' ∧
      PriorityBook.Walks id s limit a qty es a' left ∧ left.toNat < qty.toNat := by
  obtain ⟨N, hrep, hN⟩ := h.rep
  have hne : N (s.opposite, p) ≠ [] := by
    have := (h.wf.best_eq_some.mp hb).1
    rw [hN] at this
    simpa [queuesOf] using this
  have hown : N (s, p) = [] := by
    have := (h.wf.queues.oneSided s p).resolve_right (h.wf.best_eq_some.mp hb).1
    rw [hN] at this
    simpa [queuesOf] using this
  obtain ⟨fb₁, n, a', es, left, hrun, hcons⟩ := consumeLevel_spec (hrep.openHole hne) h.wf hN
    h.nextMatchId hown (fun _ => hb) hc (Nat.lt_succ_self qty.toNat)
  obtain ⟨fb', herase, hrep', hmid⟩ := hcons.rep.eraseConsumed (by
    rw [Side.opposite_opposite, update_of_ne (by simp [Side.ne_opposite]), hown])
  rw [hcons.band.refOf] at herase
  refine ⟨fb₁, fb', a', es, left, hrun, herase,
    ⟨hcons.walks.wf h.wf, ⟨_, hrep', hcons.queues⟩, hmid.trans hcons.nextMatchId⟩, hcons.walks, ?_⟩
  rcases hcons.walks.eq_or_lt h.wf with ⟨heq, hqe⟩ | hlt
  · -- a walk that stood still would have left the level or the order as it was
    exfalso
    rcases hcons.done with h0 | h0
    · exact hq (hqe.trans h0)
    · have hemp : a'.queues (s.opposite, p) = [] := by simp [hcons.queues, queuesOf, h0]
      rw [← heq] at hemp
      exact (h.wf.best_eq_some.mp hb).1 hemp
  · exact hlt

theorem matchLoop_spec {id : OrderId} {limit : Price} {fuel : Nat} :
    ∀ {fb : FastBook} {a : PriorityBook} {qty : Qty}, Models fb a → qty.toNat < fuel →
      ∃ fb' a' qty' es, matchLoop id s limit fuel fb qty =
          some (fb', qty - qty', es.map .executed) ∧
        PriorityBook.Walks id s limit a qty es a' qty' ∧ Models fb' a' ∧
        (qty' = 0 ∨ ∀ o ∈ (a'.side s.opposite).head?, ¬ crosses s limit o.price) := by
  induction fuel with
  | zero => intro _ _ _ _ hf; omega
  | succ fuel ih =>
    intro fb a qty h hf
    by_cases hq : qty = 0
    · exact ⟨fb, a, qty, [], by simp [matchLoop, hq], .refl a qty, h, Or.inl hq⟩
    have hpos : qty > 0 := by grind
    obtain ⟨N, hrep, hN⟩ := h.rep
    obtain ⟨fb₀, t, hladder, hrep₀, -, hbest, hmid⟩ := hrep.ladderBest h.wf hN s.opposite
    have h₀ : Models fb₀ a := ⟨h.wf, ⟨N, hrep₀, hN⟩, hmid.trans h.nextMatchId⟩
    -- the loop stops in the book it is in
    have hstop : (∀ p ∈ a.best s.opposite, ¬ crosses s limit p) →
        ∀ o ∈ (a.side s.opposite).head?, ¬ crosses s limit o.price := by
      intro hn o ho
      exact hn o.price (by simp [PriorityBook.best, Option.mem_def.mp ho])
    rw [matchLoop]
    simp only [hpos, if_true, hladder, Option.bind_eq_bind, Option.bind_some, hbest]
    cases hb : a.best s.opposite with
    | none =>
      refine ⟨fb₀, a, qty, [], by simp, .refl a qty, h₀, Or.inr (hstop ?_)⟩
      simp [hb]
    | some p =>
      by_cases hc : crosses s limit p
      · obtain ⟨fb₁, fb', a', es, left, hrun, herase, hmodels, hwalks, hlt⟩ :=
          h₀.consume id hb hc hq
        have hfuel : left.toNat < fuel := by omega
        obtain ⟨fb'', a'', qty'', es', hloop, hwalks', hmodels', hdone⟩ := ih hmodels hfuel
        have hleft : qty - (qty - left) = left := PriorityBook.sub_sub_self_qty _ _
        refine ⟨fb'', a'', qty'', es ++ es', ?_, hwalks.trans hwalks', hmodels', hdone⟩
        simp only [Option.map_some, hc, if_true, hrun, Option.bind_some, herase, hleft, hloop,
          List.map_append, Option.some.injEq, Prod.mk.injEq, true_and, and_true]
        grind
      · refine ⟨fb₀, a, qty, [], by simp [hc], .refl a qty, h₀, Or.inr (hstop ?_)⟩
        simpa [hb] using hc

/-- `match` and `execute_ioc` are the `executeIoc` of the priority book. -/
theorem Models.matchOrder (h : Models fb a) (id : OrderId) (s : Side) (limit : Price) (qty : Qty) :
    ∃ fb', fb.matchOrder id s limit qty = some (fb', (a.executeIoc id s limit qty).2) ∧
      Models fb' (a.executeIoc id s limit qty).1 := by
  obtain ⟨fb', a', qty', es, hloop, hwalks, hmodels, hdone⟩ :=
    matchLoop_spec h (Nat.lt_succ_self qty.toNat)
  rw [hwalks.executeIoc h.wf hdone]
  exact ⟨fb', hloop, hmodels⟩

end models

end FastBook

end MatchingEngine
