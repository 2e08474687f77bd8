import MatchingEngine.Book.FastBookOps
import MatchingEngine.Lib.Machine

/-! # The queries of the fast book

    `matchable` sums the totals of the levels an order could execute against,
    and `snapshot` lists all levels best first. Both look at the ladder and at
    the fallback map of a side. Between them these hold every price of the
    side exactly once, so the answers are those of the priority book.
-/

namespace MatchingEngine

namespace FastBook

open PriorityBook (total)

/-! ## Section 1: Matchable quantity -/

/-- The loops of `matchable`, over the prices they visit: levels without
    orders are skipped, and the first price that does not cross ends it. -/
def sumLevels (Q : Queues) (side : Side) (limit : Price) : List Price → Qty → Qty
  | [], t => t
  | p :: ps, t =>
    if Q (side.opposite, p) = [] then sumLevels Q side limit ps t
    else if crosses side limit p then sumLevels Q side limit ps (t + total (Q (side.opposite, p)))
    else t

/-- Prices are visited best first, so nothing behind the first one that does
    not cross is missed. -/
theorem sumLevels_eq (Q : Queues) (side : Side) (limit : Price) {ps : List Price}
    (hs : ps.Pairwise side.opposite.ahead) (t : Qty) :
    sumLevels Q side limit ps t = t +
      ((ps.filter (crosses side limit)).map (fun p => total (Q (side.opposite, p)))).sum := by
  induction ps generalizing t with
  | nil => simp [sumLevels]
  | cons p ps ih =>
    obtain ⟨hp, hs⟩ := List.pairwise_cons.mp hs
    rw [sumLevels]
    split
    · next hnil =>
      rw [ih hs, List.filter_cons]
      split
      · simp [hnil]
      · rfl
    split
    · next hc =>
      rw [ih hs, List.filter_cons, if_pos (by simpa using hc), List.map_cons,
        List.sum_cons, add_assoc]
    · next hc =>
      -- all later prices are worse still
      have hnone : (p :: ps).filter (fun q => decide (crosses side limit q)) = [] := by
        rw [List.filter_eq_nil_iff]
        intro q hq hcq
        refine hc (crosses_of_ahead (of_decide_eq_true hcq) ?_)
        rcases List.mem_cons.mp hq with rfl | hq
        · exact Or.inl rfl
        · exact Or.inr (hp q hq)
      simp [hnone]

section matchable

variable {fb : FastBook} {N : Nodes} {hole : Option (Side × Price)}

variable {t : Nat}

/-- A ladder level that holds orders of side `s` is the level of their queue. -/
theorem LevelsRep.ladder_level (h : LevelsRep fb N hole) (hQ : QueuesWF (queuesOf N)) {lvl : Level}
    (hl : fb.ladder[t]? = some lvl) {s : Side} (hne : N (s, fb.priceAt t) ≠ []) :
    lvl = levelOf (N (s, fb.priceAt t)) := by
  have hopp : N (s.opposite, fb.priceAt t) = [] := by
    have := (hQ.oneSided s (fb.priceAt t)).resolve_left (by simpa [queuesOf] using hne)
    simpa [queuesOf] using this
  rw [h.ladder t lvl hl]
  cases s with
  | buy => rw [show N (.sell, fb.priceAt t) = [] from hopp, List.append_nil]
  | sell => rw [show N (.buy, fb.priceAt t) = [] from hopp, List.nil_append]

theorem LevelsRep.ladder_total (h : LevelsRep fb N hole) (hQ : QueuesWF (queuesOf N)) {lvl : Level}
    (hl : fb.ladder[t]? = some lvl) {s : Side} (hne : N (s, fb.priceAt t) ≠ []) :
    lvl.total = total (queuesOf N (s, fb.priceAt t)) := by
  rw [h.ladder_level hQ hl hne]
  rfl

theorem sumAsks_spec (h : LevelsRep fb N hole) (hp : PoolRep fb.pool fb.free N)
    (hQ : QueuesWF (queuesOf N)) {k : Nat} (hk : t + k ≤ fb.ladder.length) (limit : Price)
    (tot : Qty) :
    fb.sumAsks limit k t tot = some (sumLevels (queuesOf N) .buy limit
      ((List.range' t k).map (fun i : Nat => fb.priceAt i)) tot) := by
  induction k generalizing t tot with
  | zero => rfl
  | succ k ih =>
    have hl : fb.ladder[t]? = some fb.ladder[t] := List.getElem?_eq_getElem (by omega)
    rw [sumAsks, hl]
    simp only [Option.bind_eq_bind, Option.bind_some, h.holds hp hQ hl, List.range'_succ,
      List.map_cons, sumLevels, Side.opposite]
    by_cases hne : N (.sell, fb.priceAt t) = []
    · simp [hne, queuesOf, ih (show t + 1 + k ≤ fb.ladder.length by omega)]
    · have hq : queuesOf N (.sell, fb.priceAt t) ≠ [] := by simpa [queuesOf] using hne
      simp only [hne, hq, ne_eq, not_false_iff, decide_true, Bool.not_true, Bool.false_eq_true,
        if_false, h.ladder_total hQ hl hne,
        ih (show t + 1 + k ≤ fb.ladder.length by omega)]
      by_cases hc : crosses .buy limit (fb.priceAt t)
      · rw [if_pos hc, if_neg (not_lt.mpr hc)]
      · rw [if_neg hc, if_pos (not_le.mp hc)]

theorem sumBids_spec (h : LevelsRep fb N hole) (hp : PoolRep fb.pool fb.free N)
    (hQ : QueuesWF (queuesOf N)) (ht : t ≤ fb.ladder.length) (limit : Price) (tot : Qty) :
    fb.sumBids limit t tot = some (sumLevels (queuesOf N) .sell limit
      ((List.range t).reverse.map (fun i : Nat => fb.priceAt i)) tot) := by
  induction t generalizing tot with
  | zero => rfl
  | succ t ih =>
    have hl : fb.ladder[t]? = some fb.ladder[t] := List.getElem?_eq_getElem (by omega)
    rw [sumBids, hl]
    simp only [Option.bind_eq_bind, Option.bind_some, h.holds hp hQ hl, List.range_succ,
      List.reverse_append, List.reverse_singleton, List.singleton_append, List.map_cons, sumLevels,
      Side.opposite]
    by_cases hne : N (.buy, fb.priceAt t) = []
    · simp [hne, queuesOf, ih (show t ≤ fb.ladder.length by omega)]
    · have hq : queuesOf N (.buy, fb.priceAt t) ≠ [] := by simpa [queuesOf] using hne
      simp only [hne, hq, ne_eq, not_false_iff, decide_true, Bool.not_true, Bool.false_eq_true,
        if_false, h.ladder_total hQ hl hne, ih (show t ≤ fb.ladder.length by omega)]
      by_cases hc : crosses .sell limit (fb.priceAt t)
      · rw [if_pos hc, if_neg (not_lt.mpr hc)]
      · rw [if_neg hc, if_pos (not_le.mp hc)]

theorem sumFallback_spec {side : Side} {Q : Queues} {m : List (Price × Level)}
    (hm : ∀ e ∈ m, Q (side.opposite, e.1) ≠ [] ∧ e.2.total = total (Q (side.opposite, e.1)))
    (limit : Price) (tot : Qty) :
    sumFallback side limit m tot = sumLevels Q side limit (m.map Prod.fst) tot := by
  induction m generalizing tot with
  | nil => rfl
  | cons e m ih =>
    obtain ⟨p, lvl⟩ := e
    obtain ⟨hne, htot⟩ := hm (p, lvl) (by simp)
    simp only at hne htot
    simp only [sumFallback, List.map_cons, sumLevels, if_neg hne, htot]
    split
    · exact ih (fun e he => hm e (by simp [he])) _
    · rfl

end matchable

section models

variable {fb : FastBook} {a : PriorityBook} {N : Nodes} {s : Side}

variable {ps : List Price} {t : Int}

/-- The prices of the fallback map of a side. -/
theorem LevelsRep.fallback_keys (h : LevelsRep fb N none) (s : Side) :
    ((fb.fallback s).map Prod.fst).Pairwise s.ahead ∧
      ∀ e ∈ fb.fallback s, fb.tickIndex e.1 < 0 ∧ N (s, e.1) ≠ [] ∧ e.2 = levelOf (N (s, e.1)) :=
  ⟨List.pairwise_map.mpr (h.sorted s),
    fun _ he => h.of_fallback (SortedMap.find_of_mem (h.sorted s) he)⟩

theorem ne_of_ahead {p q : Price} (h : s.ahead p q) : p ≠ q := by
  rintro rfl
  exact s.ahead_irrefl p h

/-- A list of ladder prices that has each one at which orders of side `s`
    rest. -/
structure Covers (fb : FastBook) (N : Nodes) (s : Side) (ps : List Price) : Prop where
  ladder : ∀ p ∈ ps, ∃ t : Nat, t < fb.ladder.length ∧ p = fb.priceAt t
  distinct : ps.Nodup
  cover : ∀ t : Nat, t < fb.ladder.length → N (s, fb.priceAt t) ≠ [] → fb.priceAt t ∈ ps

theorem Covers.nodup (hc : Covers fb N s ps) (h : LevelsRep fb N none) :
    (ps ++ (fb.fallback s).map Prod.fst).Nodup := by
  obtain ⟨hsorted, hkeys⟩ := h.fallback_keys s
  refine List.nodup_append.mpr ⟨hc.distinct, hsorted.imp ne_of_ahead, ?_⟩
  rintro p hp q hq rfl
  obtain ⟨t, ht, rfl⟩ := hc.ladder p hp
  obtain ⟨e, he, heq⟩ := List.mem_map.mp hq
  have := (hkeys e he).1
  rw [heq, h.tickIndex_priceAt ht] at this
  omega

theorem Covers.complete (hc : Covers fb N s ps) (h : LevelsRep fb N none) {p : Price}
    (hne : N (s, p) ≠ []) : p ∈ ps ++ (fb.fallback s).map Prod.fst := by
  rcases h.place hne with ⟨t, ht, rfl⟩ | hf
  · exact List.mem_append_left _ (hc.cover t ht hne)
  · exact List.mem_append_right _ (List.mem_map_of_mem (SortedMap.mem_of_find hf))

/-- The loops of `matchable` sum up what the priority book sums up. -/
theorem Covers.matchable (side : Side) (hc : Covers fb N side.opposite ps)
    (hps : ps.Pairwise side.opposite.ahead) (h : LevelsRep fb N none) (hN : a.queues = queuesOf N)
    (limit : Price) :
    sumFallback side limit (fb.fallback side.opposite)
      (sumLevels (queuesOf N) side limit ps 0) = a.matchable side limit := by
  obtain ⟨hsorted, hkeys⟩ := h.fallback_keys side.opposite
  rw [sumFallback_spec (Q := queuesOf N), sumLevels_eq _ _ _ hsorted, sumLevels_eq _ _ _ hps,
    zero_add, ← List.sum_append, ← List.map_append, ← List.filter_append, ← hN]
  · refine PriorityBook.matchable_eq ((hc.nodup h).filter _)
      (fun p hp => of_decide_eq_true (List.mem_filter.mp hp).2) (fun p hne hcross => ?_)
    refine List.mem_filter.mpr ⟨hc.complete h ?_, decide_eq_true hcross⟩
    rw [hN] at hne
    simpa [queuesOf] using hne
  · intro e he
    obtain ⟨-, hne, heq⟩ := hkeys e he
    exact ⟨by simpa [queuesOf] using hne, by rw [heq]; rfl⟩

theorem LevelsRep.priceAt_pairwise (h : LevelsRep fb N none) {l : List Nat}
    (hl : l.Pairwise (· < ·)) : (l.map (fun i : Nat => fb.priceAt i)).Pairwise Side.sell.ahead := by
  refine List.pairwise_map.mpr (hl.imp (fun {i j} hij => ?_))
  exact (priceAt_lt h.valid.tick_pos).mpr (by omega)

/-- From the best in-band index on, the ladder covers a side. -/
theorem BestIndex.covers_asks (hb : BestIndex fb N .sell t) (h : LevelsRep fb N .none)
    (ht : 0 ≤ t) :
    ∃ ps, ps = (List.range' t.toNat (fb.ladder.length - t.toNat)).map
      (fun i : Nat => fb.priceAt i) ∧ ps.Pairwise Side.sell.ahead ∧ Covers fb N .sell ps := by
  obtain ⟨hlt, -, hbest⟩ := hb.some ht
  have hsorted := h.priceAt_pairwise (List.pairwise_lt_range' (s := t.toNat)
    (n := fb.ladder.length - t.toNat))
  refine ⟨_, rfl, hsorted, fun p hp => ?_, hsorted.imp ne_of_ahead, fun t' ht' hne => ?_⟩
  · obtain ⟨i, hi, rfl⟩ := List.mem_map.mp hp
    rw [List.mem_range'_1] at hi
    exact ⟨i, by omega, rfl⟩
  · refine List.mem_map.mpr ⟨t', List.mem_range'_1.mpr ?_, rfl⟩
    rcases hbest t' ht' hne with heq | hahead
    · omega
    · have : t < t' := (priceAt_lt h.valid.tick_pos).mp hahead
      omega

theorem BestIndex.covers_bids (hb : BestIndex fb N .buy t) (h : LevelsRep fb N .none) (ht : 0 ≤ t) :
    ∃ ps, ps = (List.range (t.toNat + 1)).reverse.map (fun i : Nat => fb.priceAt i) ∧
      ps.Pairwise Side.buy.ahead ∧ Covers fb N .buy ps := by
  obtain ⟨hlt, -, hbest⟩ := hb.some ht
  have hsorted : ((List.range (t.toNat + 1)).reverse.map (fun i : Nat => fb.priceAt i)).Pairwise
      Side.buy.ahead := by
    rw [List.map_reverse, List.pairwise_reverse]
    exact h.priceAt_pairwise List.pairwise_lt_range
  refine ⟨_, rfl, hsorted, fun p hp => ?_, hsorted.imp ne_of_ahead, fun t' ht' hne => ?_⟩
  · obtain ⟨i, hi, rfl⟩ := List.mem_map.mp hp
    rw [List.mem_reverse, List.mem_range] at hi
    exact ⟨i, by omega, rfl⟩
  · refine List.mem_map.mpr ⟨t', List.mem_reverse.mpr (List.mem_range.mpr ?_), rfl⟩
    rcases hbest t' ht' hne with heq | hahead
    · omega
    · have : t' < t := (priceAt_lt h.valid.tick_pos).mp hahead
      omega

theorem BestIndex.covers_nil (hb : BestIndex fb N s t) (ht : ¬ 0 ≤ t) : Covers fb N s [] :=
  ⟨by simp, List.nodup_nil, fun t' ht' hne => absurd (hb.none (by omega) t' ht') hne⟩

theorem Models.matchable (h : Models fb a) (side : Side) (limit : Price) :
    ∃ fb', fb.matchable side limit = some (fb', a.matchable side limit) ∧ Models fb' a := by
  obtain ⟨N, hrep, hN⟩ := h.rep
  have hQ : QueuesWF (queuesOf N) := hN ▸ h.wf.queues
  obtain ⟨fb', t, hladder, hrep', hbest, -, hmid⟩ := hrep.ladderBest h.wf hN side.opposite
  refine ⟨fb', ?_, h.wf, ⟨N, hrep', hN⟩, hmid.trans h.nextMatchId⟩
  simp only [FastBook.matchable, hladder, Option.bind_eq_bind, Option.bind_some]
  have hlen : toInt fb'.ladder.length = fb'.ladder.length := toInt_of_lt hrep'.levels.size
  by_cases ht : 0 ≤ t
  · have hlt := (hbest.some ht).1
    cases side with
    | buy =>
      have hk : (toInt fb'.ladder.length - t).toNat = fb'.ladder.length - t.toNat := by omega
      have hsum := sumAsks_spec hrep'.levels hrep'.pool hQ
        (show t.toNat + (fb'.ladder.length - t.toNat) ≤ fb'.ladder.length by omega) limit 0
      obtain ⟨ps, hps, hsorted, hc⟩ := hbest.covers_asks hrep'.levels ht
      have htotal := Covers.matchable .buy hc hsorted hrep'.levels hN limit
      rw [← hps] at hsum
      simp only [ge_iff_le, ht, if_true, hk, hsum, Option.bind_some, htotal]
    | sell =>
      have hsum := sumBids_spec hrep'.levels hrep'.pool hQ
        (show t.toNat + 1 ≤ fb'.ladder.length by omega) limit 0
      obtain ⟨ps, hps, hsorted, hc⟩ := hbest.covers_bids hrep'.levels ht
      have htotal := Covers.matchable .sell hc hsorted hrep'.levels hN limit
      rw [← hps] at hsum
      simp only [ge_iff_le, ht, if_true, hsum, Option.bind_some, htotal]
  · have hnil := (hbest.covers_nil ht).matchable side List.Pairwise.nil hrep'.levels hN limit
    rw [sumLevels] at hnil
    cases side <;> simp [ht, hnil]

/-! ## Section 2: Snapshot -/

/-- The ladder levels from index `i` on that hold side `s`. -/
theorem ladderLevels_spec (h : LevelsRep fb N none) (hp : PoolRep fb.pool fb.free N)
    (hQ : QueuesWF (queuesOf N)) (s : Side) (lvls : List Level) (i : Nat)
    (hl : ∀ j, j < lvls.length → fb.ladder[i + j]? = lvls[j]?)
    (hi : i + lvls.length ≤ fb.ladder.length) :
    fb.ladderLevels s lvls i = some
      (((List.range' i lvls.length).filter (fun t : Nat => N (s, fb.priceAt t) ≠ [])).map
        (fun t : Nat => (fb.priceAt t, levelOf (N (s, fb.priceAt t))))) := by
  induction lvls generalizing i with
  | nil => rfl
  | cons lvl lvls ih =>
    have hlvl : fb.ladder[i]? = some lvl := by simpa using hl 0 (by simp)
    have hrest := ih (i + 1) (fun j hj => by
      have := hl (j + 1) (by simpa using hj)
      simpa [Nat.add_assoc, Nat.add_comm 1 j] using this) (by simp at hi; omega)
    have hsize := h.size
    have hidx : toInt i = i := toInt_of_lt (by simp at hi; omega)
    simp only [ladderLevels, hrest, h.holds hp hQ hlvl, Option.bind_eq_bind, Option.bind_some, hidx,
      List.length_cons, List.range'_succ, List.filter_cons]
    by_cases hne : N (s, fb.priceAt i) = []
    · simp [hne]
    · simp [hne, h.ladder_level hQ hlvl hne]

/-- A list with one entry for each price of a side. -/
structure Entries (N : Nodes) (s : Side) (m : List (Price × Level)) : Prop where
  distinct : (m.map Prod.fst).Nodup
  entry : ∀ e ∈ m, N (s, e.1) ≠ [] ∧ e.2 = levelOf (N (s, e.1))
  complete : ∀ p, N (s, p) ≠ [] → p ∈ m.map Prod.fst

/-- What `snapshot` collects before it sorts. -/
theorem ladderLevels_entries (h : LevelsRep fb N none) (hp : PoolRep fb.pool fb.free N)
    (hQ : QueuesWF (queuesOf N)) (s : Side) :
    ∃ l, fb.ladderLevels s fb.ladder 0 = some l ∧ Entries N s (l ++ fb.fallback s) := by
  have hladder := ladderLevels_spec h hp hQ s fb.ladder 0 (by simp) (by simp)
  generalize hts : (List.range' 0 fb.ladder.length).filter
    (fun t : Nat => N (s, fb.priceAt t) ≠ []) = ts at hladder
  have hmem : ∀ t, t ∈ ts ↔ t < fb.ladder.length ∧ N (s, fb.priceAt t) ≠ [] := by
    intro t
    simp [← hts, List.mem_range'_1]
  have hlt : ts.Pairwise (· < ·) := by
    rw [← hts]
    exact List.Pairwise.filter _ List.pairwise_lt_range'
  have hc : Covers fb N s (ts.map (fun t : Nat => fb.priceAt t)) := by
    refine ⟨fun p hp => ?_, (h.priceAt_pairwise hlt).imp ne_of_ahead,
      fun t ht hne => List.mem_map_of_mem ((hmem t).mpr ⟨ht, hne⟩)⟩
    obtain ⟨t, ht, rfl⟩ := List.mem_map.mp hp
    exact ⟨t, ((hmem t).mp ht).1, rfl⟩
  have hkeys : (ts.map (fun t : Nat => (fb.priceAt t, levelOf (N (s, fb.priceAt t)))) ++
      fb.fallback s).map Prod.fst =
        ts.map (fun t : Nat => fb.priceAt t) ++ (fb.fallback s).map Prod.fst := by
    simp [Function.comp_def]
  refine ⟨_, hladder, hkeys ▸ hc.nodup h, fun e he => ?_, fun p hne => hkeys ▸ hc.complete h hne⟩
  rcases List.mem_append.mp he with he | he
  · obtain ⟨t, ht, rfl⟩ := List.mem_map.mp he
    exact ⟨((hmem t).mp ht).2, rfl⟩
  · exact ((h.fallback_keys s).2 e he).2

/-- The sorted entries are the levels of the priority book. -/
theorem Entries.snapshotSide {m : List (Price × Level)} (hm : Entries N s m)
    (hN : a.queues = queuesOf N) :
    (m.insertionSort (fun a b => ¬ s.ahead b.1 a.1)).map
        (fun e => (⟨e.1, PriorityBook.snapshotQueue (a.queues (s, e.1))⟩ : SnapshotLevel)) =
      PriorityBook.snapshotSide s (a.side s) := by
  have hsorted : SortedMap.Sorted s.ahead ((m.insertionSort (fun a b => ¬ s.ahead b.1 a.1)).map
      (fun e => (e.1, PriorityBook.snapshotQueue (a.queues (s, e.1))))) :=
    List.pairwise_map.mpr (SortedMap.sorted_insertionSort hm.distinct)
  rw [← PriorityBook.snapshotSide_eq hsorted, List.map_map]
  · rfl
  · intro p
    by_cases hne : N (s, p) = []
    · rw [if_pos (by simp [hN, queuesOf, hne])]
      refine SortedMap.find_eq_none (fun e he heq => ?_)
      obtain ⟨e', he', rfl⟩ := List.mem_map.mp he
      exact (hm.entry e' ((List.mem_insertionSort _).mp he')).1 (heq ▸ hne)
    · rw [if_neg (by simpa [hN, queuesOf] using hne)]
      obtain ⟨e, he, rfl⟩ := List.mem_map.mp (hm.complete p hne)
      exact SortedMap.find_of_mem hsorted
        (List.mem_map.mpr ⟨e, (List.mem_insertionSort _).mpr he, rfl⟩)

theorem Models.snapshotSide (h : Models fb a) (s : Side) :
    fb.snapshotSide s = some (PriorityBook.snapshotSide s (a.side s)) := by
  obtain ⟨N, hrep, hN⟩ := h.rep
  have hQ : QueuesWF (queuesOf N) := hN ▸ h.wf.queues
  obtain ⟨l, hladder, hentries⟩ := ladderLevels_entries hrep.levels hrep.pool hQ s
  simp only [FastBook.snapshotSide, hladder, Option.bind_eq_bind, Option.bind_some]
  rw [← hentries.snapshotSide hN]
  refine Machine.mapM_some (fun e he => ?_)
  obtain ⟨-, heq⟩ := hentries.entry e ((List.mem_insertionSort _).mp he)
  have hchain := chain_spec (hrep.pool.chain (s, e.1)) (hrep.pool.length_le hQ (s, e.1))
  simp only [heq, levelOf, levelWith, hchain, Option.bind_some, hN]
  rfl

theorem Models.snapshot (h : Models fb a) : fb.snapshot = some a.snapshot := by
  simp only [FastBook.snapshot, h.snapshotSide, Option.bind_eq_bind, Option.bind_some]
  rfl

/-- A new book is empty. -/
theorem models_create {cfg : Config} (hcfg : cfg.Valid) : Models (create cfg) {} where
  wf := PriorityBook.wf_empty
  rep := by
    refine ⟨fun _ => [], ⟨⟨hcfg, ?_, fun _ => ⟨rfl, fun _ => rfl⟩, ?_, ?_, ?_⟩, ?_, ?_, ?_⟩, ?_⟩
    · simp [create]
    · simp [create]
    · intro s
      cases s <;> exact List.Pairwise.nil
    · intro s p
      cases s <;> simp [create, FastBook.fallback]
    · exact ⟨⟨fun k => by simp, by simp [create], by simp [create], by simp [create]⟩,
        by simp [create]⟩
    · exact ⟨fun _ => none, FlatMap.models_create _, by simp [Located]⟩
    · exact ⟨by simp [create], by simp [create]⟩
    · funext ⟨s, p⟩
      cases s <;> simp [PriorityBook.queues, PriorityBook.side, queuesOf]
  nextMatchId := rfl

end models

end FastBook

end MatchingEngine
