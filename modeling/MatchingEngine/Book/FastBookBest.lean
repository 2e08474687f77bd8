import MatchingEngine.Book.FastBookLevels

/-! # Cursors and best prices of the fast book

    The cursors bound the best in-band prices (`CursorRep`), so the lazy scans
    that start at them find the best index of a side. The better of that one
    and the first fallback level is the best price of the priority book, and
    `bestLevel` also names the place of its level.
-/

namespace MatchingEngine

namespace FastBook

/-! ## Section 1: Cursors -/

/-- No in-band bid is above the bid cursor and no in-band ask below the ask
    cursor. -/
structure CursorRep (fb : FastBook) (N : Nodes) : Prop where
  bid : ∀ t : Nat, t < fb.ladder.length → N (.buy, fb.priceAt t) ≠ [] → t ≤ fb.bidCursor
  ask : ∀ t : Nat, t < fb.ladder.length → N (.sell, fb.priceAt t) ≠ [] → fb.askCursor ≤ t

/-- The cursors stay right when queues only lose orders. -/
theorem CursorRep.mono {fb fb' : FastBook} {N N' : Nodes} (h : CursorRep fb N)
    (hband : SameBand fb fb') (hbid : fb'.bidCursor = fb.bidCursor)
    (hask : fb'.askCursor = fb.askCursor) (hN : ∀ k, N' k ≠ [] → N k ≠ []) : CursorRep fb' N' := by
  refine ⟨fun t ht hne => ?_, fun t ht hne => ?_⟩
  · rw [hband.length] at ht
    rw [hband.priceAt] at hne
    exact hbid ▸ h.bid t ht (hN _ hne)
  · rw [hband.length] at ht
    rw [hband.priceAt] at hne
    exact hask ▸ h.ask t ht (hN _ hne)

theorem moveCursors_eq (fb : FastBook) (s : Side) (p : Price) :
    fb.moveCursors s p = { fb with
      bidCursor := if s = .buy ∧ 0 ≤ fb.tickIndex p then max fb.bidCursor (fb.tickIndex p)
        else fb.bidCursor
      askCursor := if s = .sell ∧ 0 ≤ fb.tickIndex p then min fb.askCursor (fb.tickIndex p)
        else fb.askCursor } := by
  unfold FastBook.moveCursors
  by_cases hin : 0 ≤ fb.tickIndex p
  · cases s with
    | buy =>
      by_cases hlt : fb.tickIndex p > fb.bidCursor
      · simp [hin, hlt, max_eq_right (le_of_lt hlt)]
      · simp [hin, hlt, max_eq_left (not_lt.mp hlt)]
    | sell =>
      by_cases hlt : fb.tickIndex p < fb.askCursor
      · simp [hin, hlt, min_eq_right (le_of_lt hlt)]
      · simp [hin, hlt, min_eq_left (not_lt.mp hlt)]
  · simp [hin]

theorem sameBand_moveCursors (fb : FastBook) (s : Side) (p : Price) :
    SameBand fb (fb.moveCursors s p) := by
  rw [moveCursors_eq]
  exact ⟨rfl, rfl, rfl, rfl⟩

/-- The cursors after an order came to rest. -/
theorem CursorRep.moveCursors {fb : FastBook} {N M : Nodes} {hole : Option (Side × Price)}
    (h : CursorRep fb N) (hl : LevelsRep fb M hole) (s : Side) (p : Price)
    (n : List (Nat × Resting)) :
    CursorRep (fb.moveCursors s p) (Function.update N (s, p) n) := by
  have hband := sameBand_moveCursors fb s p
  refine ⟨fun t ht hne => ?_, fun t ht hne => ?_⟩
  · rw [hband.length] at ht
    rw [hband.priceAt] at hne
    rw [moveCursors_eq]
    by_cases hk : (Side.buy, fb.priceAt t) = (s, p)
    · obtain ⟨rfl, rfl⟩ := Prod.mk.inj hk
      simp [hl.tickIndex_priceAt ht]
    · rw [Function.update_of_ne hk] at hne
      have hle := h.bid t ht hne
      dsimp only
      split
      · exact le_max_of_le_left hle
      · exact hle
  · rw [hband.length] at ht
    rw [hband.priceAt] at hne
    rw [moveCursors_eq]
    by_cases hk : (Side.sell, fb.priceAt t) = (s, p)
    · obtain ⟨rfl, rfl⟩ := Prod.mk.inj hk
      simp [hl.tickIndex_priceAt ht]
    · rw [Function.update_of_ne hk] at hne
      have hle := h.ask t ht hne
      dsimp only
      split
      · exact min_le_of_left_le hle
      · exact hle

/-! ## Section 2: The best level -/

section best

variable {fb : FastBook} {N : Nodes} {hole : Option (Side × Price)} {s : Side}

variable {lvl : Level} {p : Price}

/-- A ladder level holds a side when that side has orders at its price. -/
theorem LevelsRep.holds (h : LevelsRep fb N hole) (hp : PoolRep fb.pool fb.free N)
    (hQ : QueuesWF (queuesOf N)) {t : Nat} (ht : fb.ladder[t]? = some lvl) (s : Side) :
    fb.holds s lvl = some (decide (N (s, fb.priceAt t) ≠ [])) := by
  -- a queue with orders starts at a slot of its side
  have hfirst : ∀ u, N (u, fb.priceAt t) ≠ [] → N (u.opposite, fb.priceAt t) = [] →
      lvl = levelOf (N (u, fb.priceAt t)) →
      fb.holds s lvl = some (decide (N (s, fb.priceAt t) ≠ [])) := by
    intro u hne hopp hlvl
    cases hn : N (u, fb.priceAt t) with
    | nil => exact absurd hn hne
    | cons e n =>
      obtain ⟨i, o⟩ := e
      obtain ⟨pv, nx, hget⟩ := hp.get (k := (u, fb.priceAt t)) (i := i) (o := o) (by simp [hn])
      have hhead : lvl.head = some i := by rw [hlvl, hn]; rfl
      simp only [FastBook.holds, hhead, hget, Option.map_some, mkOrder]
      rcases Side.eq_or_eq_opposite s u with rfl | rfl
      · simp [hn]
      · simp [hopp, Side.ne_opposite]
  have hlvl := h.ladder t lvl ht
  have hone := hQ.oneSided .buy (fb.priceAt t)
  simp only [queuesOf, List.map_eq_nil_iff, Side.opposite] at hone
  by_cases hb : N (.buy, fb.priceAt t) = []
  · by_cases hs : N (.sell, fb.priceAt t) = []
    · have hhead : lvl.head = none := by rw [hlvl, hb, hs]; rfl
      cases s <;> simp [FastBook.holds, hhead, hb, hs]
    · exact hfirst .sell hs hb (by rw [hlvl, hb, List.nil_append])
  · have hs : N (.sell, fb.priceAt t) = [] := hone.resolve_left hb
    exact hfirst .buy hb hs (by rw [hlvl, hs, List.append_nil])

theorem scanDown_spec (h : LevelsRep fb N hole) (hp : PoolRep fb.pool fb.free N)
    (hQ : QueuesWF (queuesOf N)) {n : Nat} (hn : n ≤ fb.ladder.length) :
    ∃ r, fb.scanDown n = some r ∧
      (r = -1 ∧ (∀ t, t < n → N (.buy, fb.priceAt t) = []) ∨
        ∃ t : Nat, t < n ∧ r = t ∧ N (.buy, fb.priceAt t) ≠ [] ∧
          ∀ t' : Nat, t < t' → t' < n → N (.buy, fb.priceAt t') = []) := by
  induction n with
  | zero => exact ⟨-1, rfl, Or.inl ⟨rfl, by simp⟩⟩
  | succ n ih =>
    have hget : fb.ladder[n]? = some fb.ladder[n] := List.getElem?_eq_getElem (by omega)
    simp only [scanDown, hget, h.holds hp hQ hget, Option.bind_eq_bind, Option.bind_some]
    by_cases hne : N (.buy, fb.priceAt n) = []
    · obtain ⟨r, hr, hcases⟩ := ih (by omega)
      refine ⟨r, by simp [hne, hr], ?_⟩
      rcases hcases with ⟨rfl, hall⟩ | ⟨t, ht, rfl, htne, hall⟩
      · refine Or.inl ⟨rfl, fun t ht => ?_⟩
        rcases Nat.lt_succ_iff_lt_or_eq.mp ht with ht | rfl
        · exact hall t ht
        · exact hne
      · refine Or.inr ⟨t, by omega, rfl, htne, fun t' htt' ht' => ?_⟩
        rcases Nat.lt_succ_iff_lt_or_eq.mp ht' with ht' | rfl
        · exact hall t' htt' ht'
        · exact hne
    · exact ⟨n, by simp [hne], Or.inr ⟨n, by omega, rfl, hne, fun t' h1 h2 => by omega⟩⟩

theorem scanUp_spec (h : LevelsRep fb N hole) (hp : PoolRep fb.pool fb.free N)
    (hQ : QueuesWF (queuesOf N)) {k t : Nat} (hk : t + k ≤ fb.ladder.length ∨ k = 0) :
    ∃ r, fb.scanUp k t = some r ∧ t ≤ r ∧ r ≤ t + k ∧
      (∀ t' : Nat, t ≤ t' → t' < r → N (.sell, fb.priceAt t') = []) ∧
      (r < t + k → N (.sell, fb.priceAt r) ≠ []) := by
  induction k generalizing t with
  | zero => exact ⟨t, rfl, le_refl _, le_refl _, fun t' h1 h2 => by omega, fun h1 => by omega⟩
  | succ k ih =>
    have hget : fb.ladder[t]? = some fb.ladder[t] := List.getElem?_eq_getElem (by omega)
    simp only [scanUp, hget, h.holds hp hQ hget, Option.bind_eq_bind, Option.bind_some]
    by_cases hne : N (.sell, fb.priceAt t) = []
    · obtain ⟨r, hr, hle, hle', hall, hstop⟩ := ih (t := t + 1) (by omega)
      refine ⟨r, by simp [hne, hr], by omega, by omega, fun t' h1 h2 => ?_, fun h1 => ?_⟩
      · rcases Nat.eq_or_lt_of_le h1 with rfl | h1
        · exact hne
        · exact hall t' h1 h2
      · exact hstop (by omega)
    · exact ⟨t, by simp [hne], le_refl _, by omega, fun t' h1 h2 => by omega, fun _ => hne⟩

/-- What the scan of the ladder for a side returns: the best index with orders
    of the side, or a negative number when there is none. -/
structure BestIndex (fb : FastBook) (N : Nodes) (s : Side) (t : Int) : Prop where
  none : t < 0 → ∀ t' : Nat, t' < fb.ladder.length → N (s, fb.priceAt t') = []
  some : 0 ≤ t → t < fb.ladder.length ∧ N (s, fb.priceAt t) ≠ [] ∧
    ∀ t' : Nat, t' < fb.ladder.length → N (s, fb.priceAt t') ≠ [] →
      t' = t ∨ s.ahead (fb.priceAt t) (fb.priceAt t')

theorem ladderBestBid_spec (h : LevelsRep fb N hole) (hp : PoolRep fb.pool fb.free N)
    (hQ : QueuesWF (queuesOf N)) (hc : CursorRep fb N) :
    ∃ t, fb.ladderBestBid = some ({ fb with bidCursor := t }, t) ∧ BestIndex fb N .buy t ∧
      CursorRep { fb with bidCursor := t } N := by
  obtain ⟨m, hm⟩ : ∃ m, m = min fb.bidCursor (toInt fb.ladder.length - 1) := ⟨_, rfl⟩
  have hlen : toInt fb.ladder.length = fb.ladder.length := toInt_of_lt h.size
  -- nothing above the start of the scan
  have habove : ∀ t' : Nat, t' < fb.ladder.length → N (.buy, fb.priceAt t') ≠ [] → t' ≤ m := by
    intro t' ht' hne
    have := hc.bid t' ht' hne
    omega
  suffices hscan : ∃ t, (if m < 0 then Option.some m else fb.scanDown (m.toNat + 1)) = some t ∧
      BestIndex fb N .buy t ∧ ∀ t' : Nat, t' < fb.ladder.length → N (.buy, fb.priceAt t') ≠ [] →
        t' ≤ t by
    obtain ⟨t, heq, hbest, hcur⟩ := hscan
    refine ⟨t, ?_, hbest, ⟨hcur, hc.ask⟩⟩
    by_cases hneg : m < 0
    · obtain rfl : m = t := by simpa [hneg] using heq
      simp [ladderBestBid, ← hm, hneg]
    · rw [if_neg hneg] at heq
      simp [ladderBestBid, ← hm, hneg, heq]
  by_cases hneg : m < 0
  · refine ⟨m, if_pos hneg, ⟨fun _ t' ht' => ?_, fun h0 => by omega⟩, habove⟩
    by_contra hne
    have := habove t' ht' hne
    omega
  · rw [if_neg hneg]
    obtain ⟨r, hr, hcases⟩ := scanDown_spec h hp hQ (n := m.toNat + 1) (by omega)
    refine ⟨r, hr, ?_⟩
    rcases hcases with ⟨rfl, hall⟩ | ⟨t, ht, rfl, hne, hall⟩
    · have hnil : ∀ t' : Nat, t' < fb.ladder.length → N (.buy, fb.priceAt t') = [] := by
        intro t' ht'
        by_contra hne
        have := habove t' ht' hne
        exact hne (hall t' (by omega))
      exact ⟨⟨fun _ => hnil, fun h0 => by omega⟩, fun t' ht' hne => absurd (hnil t' ht') hne⟩
    · have hle : ∀ t' : Nat, t' < fb.ladder.length → N (.buy, fb.priceAt t') ≠ [] → t' ≤ t := by
        intro t' ht' hne'
        have := habove t' ht' hne'
        by_contra hgt
        exact hne' (hall t' (by omega) (by omega))
      refine ⟨⟨fun h0 => by omega, fun _ => ⟨by omega, hne, fun t' ht' hne' => ?_⟩⟩,
        fun t' ht' hne' => by exact_mod_cast hle t' ht' hne'⟩
      rcases Nat.eq_or_lt_of_le (hle t' ht' hne') with rfl | hlt
      · exact Or.inl rfl
      · exact Or.inr ((priceAt_lt h.valid.tick_pos).mpr (by exact_mod_cast hlt))

theorem ladderBestAsk_spec (h : LevelsRep fb N hole) (hp : PoolRep fb.pool fb.free N)
    (hQ : QueuesWF (queuesOf N)) (hc : CursorRep fb N) :
    ∃ (c : Nat) (t : Int), fb.ladderBestAsk = some ({ fb with askCursor := c }, t) ∧
      BestIndex fb N .sell t ∧ CursorRep { fb with askCursor := c } N := by
  have hlen : toInt fb.ladder.length = fb.ladder.length := toInt_of_lt h.size
  obtain ⟨m, hm⟩ : ∃ m, m = max fb.askCursor 0 := ⟨_, rfl⟩
  have hbelow : ∀ t' : Nat, t' < fb.ladder.length → N (.sell, fb.priceAt t') ≠ [] → m ≤ t' := by
    intro t' ht' hne
    have := hc.ask t' ht' hne
    omega
  obtain ⟨r, hr, hle, hle', hall, hstop⟩ := scanUp_spec h hp hQ
    (k := (fb.ladder.length - m).toNat) (t := m.toNat) (by omega)
  have hge : ∀ t' : Nat, t' < fb.ladder.length → N (.sell, fb.priceAt t') ≠ [] → r ≤ t' := by
    intro t' ht' hne
    have := hbelow t' ht' hne
    by_contra hgt
    exact hne (hall t' (by omega) (by omega))
  refine ⟨r, if (r : Int) < fb.ladder.length then (r : Int) else -1, ?_, ?_, ⟨hc.bid, ?_⟩⟩
  · simp only [ladderBestAsk, hlen, ← hm, hr, Option.bind_eq_bind, Option.bind_some]
  · by_cases hlt : (r : Int) < fb.ladder.length
    · rw [if_pos hlt]
      refine ⟨fun h0 => by omega, fun _ => ⟨hlt, hstop (by omega), fun t' ht' hne => ?_⟩⟩
      rcases Nat.eq_or_lt_of_le (hge t' ht' hne) with rfl | hgt
      · exact Or.inl rfl
      · exact Or.inr ((priceAt_lt h.valid.tick_pos).mpr (by exact_mod_cast hgt))
    · rw [if_neg hlt]
      refine ⟨fun _ t' ht' => ?_, fun h0 => by omega⟩
      by_contra hne
      have := hge t' ht' hne
      omega
  · exact fun t' ht' hne => Int.ofNat_le.mpr (hge t' ht' hne)

/-- The two scans as one: the cursors move, and the best index is found. -/
theorem ladderBest_spec (h : LevelsRep fb N hole) (hp : PoolRep fb.pool fb.free N)
    (hQ : QueuesWF (queuesOf N)) (hc : CursorRep fb N) (s : Side) :
    ∃ (bc ac t : Int), fb.ladderBest s = some ({ fb with bidCursor := bc, askCursor := ac }, t) ∧
      BestIndex fb N s t ∧ CursorRep { fb with bidCursor := bc, askCursor := ac } N := by
  unfold FastBook.ladderBest
  by_cases hset : fb.bandSet = true
  · rw [if_pos hset]
    cases s with
    | buy =>
      obtain ⟨t, heq, hbest, hcur⟩ := ladderBestBid_spec h hp hQ hc
      exact ⟨t, fb.askCursor, t, heq, hbest, hcur⟩
    | sell =>
      obtain ⟨c, t, heq, hbest, hcur⟩ := ladderBestAsk_spec h hp hQ hc
      exact ⟨fb.bidCursor, c, t, heq, hbest, hcur⟩
  · rw [if_neg hset]
    refine ⟨fb.bidCursor, fb.askCursor, -1, rfl, ⟨fun _ t' ht' => ?_, fun h0 => by omega⟩, hc⟩
    exact (h.unset (by simpa using hset)).2 _

/-- A queue with orders is in the ladder or in its fallback map. -/
theorem LevelsRep.place (h : LevelsRep fb N none) (hne : N (s, p) ≠ []) :
    (∃ t : Nat, t < fb.ladder.length ∧ p = fb.priceAt t) ∨
      SortedMap.find (fb.fallback s) p = some (levelOf (N (s, p))) := by
  rcases h.tick_cases p with ⟨t, ht, hp, _, _⟩ | ⟨hout, _⟩
  · exact Or.inl ⟨t, ht, hp⟩
  · refine Or.inr ?_
    rw [h.fallback, if_neg]
    rintro (hin | ⟨hnil, -⟩)
    · omega
    · exact hne hnil

/-- A fallback level is out of the band and has orders. -/
theorem LevelsRep.of_fallback (h : LevelsRep fb N none)
    (hf : SortedMap.find (fb.fallback s) p = some lvl) :
    fb.tickIndex p < 0 ∧ N (s, p) ≠ [] ∧ lvl = levelOf (N (s, p)) := by
  rw [h.fallback] at hf
  split at hf
  · cases hf
  · next hn =>
    simp only [not_or, not_le, not_and, ne_eq, reduceCtorEq, not_false_eq_true, not_true_eq_false,
      imp_false] at hn
    exact ⟨hn.1, hn.2, (Option.some.inj hf).symm⟩

/-- The first fallback level is a level of its own. -/
theorem LevelsRep.fallback_head (h : LevelsRep fb N none) {m : List (Price × Level)}
    (hm : fb.fallback s = (p, lvl) :: m) : N (s, p) ≠ [] ∧ fb.refOf s p = .fallback s p := by
  have hf : SortedMap.find (fb.fallback s) p = some lvl := by
    rw [hm, SortedMap.find_cons, if_pos rfl]
  obtain ⟨hout, hne, -⟩ := h.of_fallback hf
  exact ⟨hne, by simp [refOf, not_le.mpr hout]⟩

theorem queues_eq_nil_iff {a : PriorityBook} (hN : a.queues = queuesOf N) (p : Price) :
    a.queues (s, p) = [] ↔ N (s, p) = [] := by
  rw [hN]
  simp [queuesOf]

/-- A price with orders that no other one is ahead of is the best one. -/
theorem best_of_first {a : PriorityBook} (ha : a.WF) (hN : a.queues = queuesOf N)
    (hne : N (s, p) ≠ []) (hmin : ∀ p', N (s, p') ≠ [] → p' = p ∨ s.ahead p p') :
    a.best s = some p := by
  refine ha.best_eq_some.mpr ⟨fun h0 => hne ((queues_eq_nil_iff hN p).mp h0), fun p' hp' => ?_⟩
  exact hmin p' (fun h0 => hp' ((queues_eq_nil_iff hN p').mpr h0))

/-- No price is ahead of one that no ladder price and no fallback price is ahead
    of. -/
theorem LevelsRep.first (h : LevelsRep fb N none)
    (hladder : ∀ t : Nat, t < fb.ladder.length → N (s, fb.priceAt t) ≠ [] →
      fb.priceAt t = p ∨ s.ahead p (fb.priceAt t))
    (hfallback : ∀ {p' : Price} {lvl : Level}, SortedMap.find (fb.fallback s) p' = some lvl →
      p' = p ∨ s.ahead p p') : ∀ p', N (s, p') ≠ [] → p' = p ∨ s.ahead p p' := by
  intro p' hne
  rcases h.place hne with ⟨t, ht, rfl⟩ | hf
  · exact hladder t ht hne
  · exact hfallback hf

/-- The fallback prices come in order. -/
theorem LevelsRep.fallback_least (h : LevelsRep fb N none) {p' : Price} {lvl' : Level}
    {m : List (Price × Level)} (hm : fb.fallback s = (p, lvl) :: m)
    (hf : SortedMap.find (fb.fallback s) p' = some lvl') : p' = p ∨ s.ahead p p' := by
  have hsorted := h.sorted s
  rw [hm] at hf hsorted
  exact SortedMap.head_least hsorted hf

section bestLevel

variable (h : LevelsRep fb N none) {a : PriorityBook} (ha : a.WF) (hN : a.queues = queuesOf N)
  {t : Int} (hbest : BestIndex fb N s t)

include h ha hN hbest

/-- There are no orders in the ladder. -/
theorem bestLevel_of_neg (hneg : t < 0) :
    fb.bestLevel s t = (a.best s).map (fun p => (p, fb.refOf s p)) := by
  have hladder := hbest.none hneg
  unfold FastBook.bestLevel
  rw [if_neg (not_le.mpr hneg)]
  cases hm : fb.fallback s with
  | nil =>
    -- no orders at all
    have hnone : a.best s = none := by
      refine PriorityBook.best_eq_none.mpr (fun p => (queues_eq_nil_iff hN p).mpr ?_)
      by_contra hne
      rcases h.place hne with ⟨t', ht', rfl⟩ | hf
      · exact hne (hladder t' ht')
      · simp [hm] at hf
    simp [hnone]
  | cons e m =>
    obtain ⟨p, lvl⟩ := e
    obtain ⟨hne, href⟩ := h.fallback_head hm
    have hfirst := h.first (p := p) (fun t' ht' hne' => absurd (hladder t' ht') hne')
      (h.fallback_least hm)
    rw [best_of_first ha hN hne hfirst, Option.map_some, href]

/-- The scan of the ladder has found a price. -/
theorem bestLevel_of_nonneg {n : Nat} (hn : t = n) :
    fb.bestLevel s t = (a.best s).map (fun p => (p, fb.refOf s p)) := by
  subst hn
  obtain ⟨hlt, hne, hmin⟩ := hbest.some (by omega)
  have hlt' : n < fb.ladder.length := by exact_mod_cast hlt
  have hidx := h.tickIndex_priceAt hlt'
  have href : fb.refOf s (fb.priceAt n) = .ladder n := by
    rw [refOf, hidx, if_pos (by omega), Int.toNat_natCast]
  -- in the ladder, it is the best one
  have hladder : ∀ t' : Nat, t' < fb.ladder.length → N (s, fb.priceAt t') ≠ [] →
      fb.priceAt t' = fb.priceAt n ∨ s.ahead (fb.priceAt n) (fb.priceAt t') := by
    intro t' ht' hne'
    exact (hmin t' ht' hne').imp_left (fun heq => by rw [heq])
  unfold FastBook.bestLevel
  rw [if_pos (by omega)]
  cases hm : fb.fallback s with
  | nil =>
    have hfirst := h.first hladder (fun hf => by simp [hm] at hf)
    rw [best_of_first ha hN hne hfirst, Option.map_some, href]
    rfl
  | cons e m =>
    obtain ⟨p, lvl⟩ := e
    obtain ⟨hne₁, href₁⟩ := h.fallback_head hm
    simp only [Int.toNat_natCast]
    by_cases hahead : s.ahead p (fb.priceAt n)
    · -- the fallback price is better
      have hbehind : ∀ t' : Nat, t' < fb.ladder.length → N (s, fb.priceAt t') ≠ [] →
          fb.priceAt t' = p ∨ s.ahead p (fb.priceAt t') := by
        intro t' ht' hne'
        rcases hladder t' ht' hne' with heq | h'
        · exact Or.inr (heq ▸ hahead)
        · exact Or.inr (s.ahead_trans hahead h')
      rw [if_pos hahead, best_of_first ha hN hne₁ (h.first hbehind (h.fallback_least hm)),
        Option.map_some, href₁]
    · -- the ladder price is at least as good, and it is another price
      have hahead' : s.ahead (fb.priceAt n) p := by
        rcases s.ahead_trichotomy p (fb.priceAt n) with h1 | rfl | h1
        · exact absurd h1 hahead
        · rw [href] at href₁
          cases href₁
        · exact h1
      have hbehind : ∀ {p' : Price} {lvl' : Level}, SortedMap.find (fb.fallback s) p' = some lvl' →
          p' = fb.priceAt n ∨ s.ahead (fb.priceAt n) p' := by
        intro p' lvl' hf
        rcases h.fallback_least hm hf with rfl | h'
        · exact Or.inr hahead'
        · exact Or.inr (s.ahead_trans hahead' h')
      rw [if_neg hahead, best_of_first ha hN hne (h.first hladder hbehind), Option.map_some, href]

/-- The choice between ladder and fallback finds the best price of the side and
    the level it is at. -/
theorem bestLevel_spec : fb.bestLevel s t = (a.best s).map (fun p => (p, fb.refOf s p)) := by
  by_cases hneg : t < 0
  · exact bestLevel_of_neg h ha hN hbest hneg
  · obtain ⟨n, hn⟩ := Int.eq_ofNat_of_zero_le (not_lt.mp hneg)
    exact bestLevel_of_nonneg h ha hN hbest hn

end bestLevel

end best

end FastBook

end MatchingEngine
