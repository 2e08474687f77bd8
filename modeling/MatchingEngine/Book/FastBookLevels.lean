import MatchingEngine.Book.FastBookPool

/-! # The levels of the fast book

    A price lives in exactly one place: in the ladder when it is in the band
    and on tick, in the fallback map of its side otherwise. `LevelsRep` says
    that the levels stored in these places are those of the queues.

    While a fallback level is being worked on it may be empty and still be in
    its map. `LevelsRep fb N hole` allows that for the one side and price
    `hole`.
-/

namespace MatchingEngine

namespace FastBook

open SortedMap Function
open PriorityBook (total)

variable {fb fb' : FastBook}

/-- The band fits an `int`: the configurations for which the book works. -/
structure Config.Valid (cfg : Config) : Prop where
  tick_pos : 0 < cfg.tick
  half_nonneg : 0 ≤ cfg.bandHalfTicks.toInt
  half_lt : cfg.bandHalfTicks.toInt < 2 ^ 30

/-! ## Section 1: Where a price lives -/

theorem toInt_of_lt {n : Nat} (h : n < 2 ^ 31) : toInt n = n := by
  unfold toInt
  rw [Int.bmod_def]
  omega

theorem priceAt_inj (htick : 0 < fb.cfg.tick) {t t' : Int} (h : fb.priceAt t = fb.priceAt t') :
    t = t' := by
  unfold priceAt at h
  have : t * fb.cfg.tick = t' * fb.cfg.tick := by lia
  exact Int.eq_of_mul_eq_mul_right (ne_of_gt htick) this

theorem priceAt_lt (htick : 0 < fb.cfg.tick) {t t' : Int} :
    fb.priceAt t < fb.priceAt t' ↔ t < t' := by
  unfold priceAt
  rw [Int.add_lt_add_iff_left]
  exact Int.mul_lt_mul_right htick

/-- The two cases of `tick_index`. -/
theorem tickIndex_cases (fb : FastBook) (htick : 0 < fb.cfg.tick)
    (hsize : fb.ladder.length < 2 ^ 31) (p : Price) :
    (∃ t, t < fb.ladder.length ∧ p = fb.priceAt t ∧ fb.bandSet = true ∧ fb.tickIndex p = t) ∨
      (fb.tickIndex p = -1 ∧
        (fb.bandSet = true → ∀ t, t < fb.ladder.length → p ≠ fb.priceAt t)) := by
  unfold tickIndex
  by_cases hset : fb.bandSet
  · simp only [hset, Bool.not_true, if_false, Bool.false_eq_true]
    by_cases hoff : p - fb.base < 0 ∨ (p - fb.base).tmod fb.cfg.tick ≠ 0
    · -- below the band, or off tick
      rw [if_pos hoff]
      refine Or.inr ⟨rfl, fun _ t ht heq => ?_⟩
      have hp : p - fb.base = t * fb.cfg.tick := by rw [heq, priceAt]; lia
      rw [hp] at hoff
      rcases hoff with hneg | hmod
      · exact absurd hneg (not_lt.mpr (Int.mul_nonneg (Int.natCast_nonneg t) (le_of_lt htick)))
      · exact hmod (Int.mul_tmod_left _ _)
    · rw [if_neg hoff]
      simp only [not_or, not_lt, not_not] at hoff
      have hdiv : (p - fb.base).tdiv fb.cfg.tick * fb.cfg.tick = p - fb.base :=
        Int.tdiv_mul_cancel_of_tmod_eq_zero hoff.2
      have hnonneg : 0 ≤ (p - fb.base).tdiv fb.cfg.tick :=
        Int.tdiv_nonneg hoff.1 (le_of_lt htick)
      obtain ⟨n, hn⟩ := Int.eq_ofNat_of_zero_le hnonneg
      rw [hn] at hdiv ⊢
      have hp : p = fb.priceAt n := by rw [priceAt, hdiv]; lia
      by_cases hlt : n < fb.ladder.length
      · rw [if_neg (by omega)]
        exact Or.inl ⟨n, hlt, hp, trivial, toInt_of_lt (by omega)⟩
      · rw [if_pos (by omega)]
        refine Or.inr ⟨rfl, fun _ t ht heq => ?_⟩
        have := priceAt_inj htick (hp.symm.trans heq)
        omega
  · simp only [hset, Bool.not_false, if_true]
    exact Or.inr ⟨trivial, fun h => absurd h (by simp)⟩

/-- The place of the level of a side and price. -/
def refOf (fb : FastBook) (s : Side) (p : Price) : LevelRef :=
  if 0 ≤ fb.tickIndex p then .ladder (fb.tickIndex p).toNat else .fallback s p

/-! ## Section 2: Levels -/

structure LevelsRep (fb : FastBook) (N : Nodes) (hole : Option (Side × Price)) : Prop where
  valid : fb.cfg.Valid
  size : fb.ladder.length < 2 ^ 31
  unset : fb.bandSet = false → fb.ladder = [] ∧ ∀ k, N k = []
  ladder : ∀ (t : Nat) lvl, fb.ladder[t]? = some lvl →
    lvl = levelOf (N (.buy, fb.priceAt t) ++ N (.sell, fb.priceAt t))
  sorted : ∀ s, Sorted s.ahead (fb.fallback s)
  fallback : ∀ s p, find (fb.fallback s) p =
    if 0 ≤ fb.tickIndex p ∨ N (s, p) = [] ∧ hole ≠ some (s, p) then none
    else some (levelOf (N (s, p)))

/-- Two books with the same levels. -/
structure SameLevels (fb fb' : FastBook) : Prop where
  cfg : fb'.cfg = fb.cfg
  bandSet : fb'.bandSet = fb.bandSet
  base : fb'.base = fb.base
  ladder : fb'.ladder = fb.ladder
  bids : fb'.fbBids = fb.fbBids
  asks : fb'.fbAsks = fb.fbAsks

/-- Two books with the same band. -/
structure SameBand (fb fb' : FastBook) : Prop where
  cfg : fb'.cfg = fb.cfg
  bandSet : fb'.bandSet = fb.bandSet
  base : fb'.base = fb.base
  length : fb'.ladder.length = fb.ladder.length

theorem SameLevels.band (h : SameLevels fb fb') : SameBand fb fb' :=
  ⟨h.cfg, h.bandSet, h.base, by rw [h.ladder]⟩

theorem SameLevels.fallback (h : SameLevels fb fb') (s : Side) :
    fb'.fallback s = fb.fallback s := by
  cases s
  · exact h.bids
  · exact h.asks

theorem SameBand.tickIndex (h : SameBand fb fb') (p : Price) :
    fb'.tickIndex p = fb.tickIndex p := by
  unfold FastBook.tickIndex
  rw [h.cfg, h.bandSet, h.base, h.length]

theorem SameBand.priceAt (h : SameBand fb fb') (t : Int) : fb'.priceAt t = fb.priceAt t := by
  unfold FastBook.priceAt
  rw [h.cfg, h.base]

theorem SameBand.refOf (h : SameBand fb fb') (s : Side) (p : Price) :
    fb'.refOf s p = fb.refOf s p := by
  unfold FastBook.refOf
  rw [h.tickIndex]

theorem LevelsRep.congr {N : Nodes} {hole : Option (Side × Price)} (h : LevelsRep fb N hole)
    (hs : SameLevels fb fb') : LevelsRep fb' N hole where
  valid := hs.cfg ▸ h.valid
  size := hs.ladder ▸ h.size
  unset := fun hu => hs.ladder ▸ h.unset (hs.bandSet ▸ hu)
  ladder := fun t lvl hl => by
    rw [hs.band.priceAt]
    exact h.ladder t lvl (hs.ladder ▸ hl)
  sorted := fun s => hs.fallback s ▸ h.sorted s
  fallback := fun s p => by
    rw [hs.fallback, hs.band.tickIndex]
    exact h.fallback s p

section levels

variable {fb : FastBook} {N : Nodes} {hole : Option (Side × Price)} {s : Side} {p : Price}

variable {n : List (Nat × Resting)}

theorem LevelsRep.tick_cases (h : LevelsRep fb N hole) (p : Price) :
    (∃ t, t < fb.ladder.length ∧ p = fb.priceAt t ∧ fb.bandSet = true ∧ fb.tickIndex p = t) ∨
      (fb.tickIndex p = -1 ∧ ∀ t, t < fb.ladder.length → p ≠ fb.priceAt t) := by
  rcases tickIndex_cases fb h.valid.tick_pos h.size p with hin | ⟨hout, hne⟩
  · exact Or.inl hin
  · refine Or.inr ⟨hout, ?_⟩
    by_cases hset : fb.bandSet = true
    · exact hne hset
    · intro t ht
      simp [(h.unset (by simpa using hset)).1] at ht

/-- An in-band index is the index of its price. -/
theorem LevelsRep.tickIndex_priceAt (h : LevelsRep fb N hole) {t : Nat}
    (ht : t < fb.ladder.length) : fb.tickIndex (fb.priceAt t) = t := by
  rcases h.tick_cases (fb.priceAt t) with ⟨t', _, hp, _, hidx⟩ | ⟨_, hne⟩
  · rw [hidx, priceAt_inj h.valid.tick_pos hp]
  · exact absurd rfl (hne t ht)

/-- What the level of a side and price holds, when the other side has nothing
    at that price. -/
theorem LevelsRep.level_ref (h : LevelsRep fb N hole) (hopp : N (s.opposite, p) = [])
    (hthere : 0 ≤ fb.tickIndex p ∨ N (s, p) ≠ [] ∨ hole = some (s, p)) :
    fb.level (fb.refOf s p) = some (levelOf (N (s, p))) := by
  unfold refOf
  rcases h.tick_cases p with ⟨t, ht, hp, hset, hidx⟩ | ⟨hout, -⟩
  · rw [hidx, if_pos (by omega), level, Int.toNat_natCast, List.getElem?_eq_getElem ht,
      Option.some.injEq, h.ladder t _ (List.getElem?_eq_getElem ht), ← hp]
    cases s with
    | buy => rw [show N (.sell, p) = [] from hopp, List.append_nil]
    | sell => rw [show N (.buy, p) = [] from hopp, List.nil_append]
  · rw [hout, if_neg (by omega), level, h.fallback, if_neg]
    rintro (hin | ⟨hnil, hhole⟩)
    · omega
    · rcases hthere with hin | hne | heq
      · omega
      · exact hne hnil
      · exact hhole heq

/-- A hole says nothing about a price of the band or a queue with orders. -/
theorem LevelsRep.move_hole (h : LevelsRep fb N hole) {hole' : Option (Side × Price)}
    (hagree : ∀ k, ¬ 0 ≤ fb.tickIndex k.2 → N k = [] → (hole = some k ↔ hole' = some k)) :
    LevelsRep fb N hole' := by
  refine ⟨h.valid, h.size, h.unset, h.ladder, h.sorted, fun u p' => ?_⟩
  rw [h.fallback]
  by_cases hin : 0 ≤ fb.tickIndex p'
  · simp [hin]
  · by_cases hnil : N (u, p') = []
    · simp only [hin, hnil, ne_eq, hagree (u, p') hin hnil]
    · simp [hnil]

theorem LevelsRep.close (h : LevelsRep fb N (some (s, p)))
    (hp : 0 ≤ fb.tickIndex p ∨ N (s, p) ≠ []) : LevelsRep fb N none := by
  refine h.move_hole (fun k hout hnil => ?_)
  simp only [Option.some.injEq, reduceCtorEq, iff_false]
  rintro rfl
  exact hp.elim hout (fun hne => hne hnil)

@[simp] theorem fallback_setFallback_self (m : List (Price × Level)) :
    (fb.setFallback s m).fallback s = m := by
  cases s <;> rfl

@[simp] theorem fallback_setFallback_opposite (m : List (Price × Level)) :
    (fb.setFallback s m).fallback s.opposite = fb.fallback s.opposite := by
  cases s <;> rfl

theorem sameBand_setFallback (fb : FastBook) (s : Side) (m : List (Price × Level)) :
    SameBand fb (fb.setFallback s m) := by
  cases s <;> exact ⟨rfl, rfl, rfl, rfl⟩

@[simp] theorem ladder_setFallback (m : List (Price × Level)) :
    (fb.setFallback s m).ladder = fb.ladder := by
  cases s <;> rfl

/-- Changing one fallback map. -/
theorem LevelsRep.setFallback (h : LevelsRep fb N hole) {hole' : Option (Side × Price)}
    {m : List (Price × Level)} (hout : fb.tickIndex p = -1) (hset : n ≠ [] → fb.bandSet = true)
    (hm : Sorted s.ahead m)
    (hfind : ∀ p', find m p' =
      if p' = p then (if n = [] ∧ hole' ≠ some (s, p) then none else some (levelOf n))
      else find (fb.fallback s) p')
    (hhole : ∀ k, k ≠ (s, p) → (hole' = some k ↔ hole = some k)) :
    LevelsRep (fb.setFallback s m) (update N (s, p) n) hole' := by
  have hband := sameBand_setFallback fb s m
  -- the ladder does not hold the price
  have hne : ∀ t, t < fb.ladder.length → p ≠ fb.priceAt t := by
    rcases h.tick_cases p with ⟨t, _, _, _, hidx⟩ | ⟨_, hne⟩
    · omega
    · exact hne
  refine ⟨hband.cfg ▸ h.valid, by simpa using h.size, fun hu => ?_, fun t lvl hl => ?_, fun u => ?_,
    fun u p' => ?_⟩
  · rw [hband.bandSet] at hu
    obtain ⟨hl, hN⟩ := h.unset hu
    have hn : n = [] := by
      by_contra hn
      rw [hset hn] at hu
      cases hu
    refine ⟨by simpa using hl, fun k => ?_⟩
    by_cases hk : k = (s, p)
    · subst hk; simpa using hn
    · rw [update_of_ne hk, hN]
  · rw [ladder_setFallback] at hl
    have ht : t < fb.ladder.length := (List.getElem?_eq_some_iff.mp hl).1
    rw [hband.priceAt, update_of_ne (by simp [(hne t ht).symm]),
      update_of_ne (by simp [(hne t ht).symm])]
    exact h.ladder t lvl hl
  · rcases Side.eq_or_eq_opposite u s with rfl | rfl
    · simpa using hm
    · simpa using h.sorted s.opposite
  · rw [hband.tickIndex]
    by_cases hk : (u, p') = (s, p)
    · obtain ⟨rfl, rfl⟩ := Prod.mk.inj hk
      rw [fallback_setFallback_self, hfind p', if_pos rfl, hout, update_self]
      simp
    · rw [update_of_ne hk]
      have hother : find ((fb.setFallback s m).fallback u) p' =
          find (fb.fallback u) p' := by
        rcases Side.eq_or_eq_opposite u s with rfl | rfl
        · rw [fallback_setFallback_self, hfind p', if_neg (fun hp => hk (by rw [hp]))]
        · rw [fallback_setFallback_opposite]
      rw [hother, h.fallback]
      simp only [ne_eq, hhole (u, p') hk]

/-- Changing one ladder level, at a price where the other side has nothing. -/
theorem LevelsRep.setLadder (h : LevelsRep fb N hole) {t : Nat} (ht : t < fb.ladder.length)
    (hopp : N (s.opposite, fb.priceAt t) = []) :
    LevelsRep { fb with ladder := fb.ladder.set t (levelOf n) }
      (update N (s, fb.priceAt t) n) hole := by
  have hband : SameBand fb { fb with ladder := fb.ladder.set t (levelOf n) } :=
    ⟨rfl, rfl, rfl, by simp⟩
  refine ⟨h.valid, by simpa using h.size, fun hu => ?_, fun t' lvl hl => ?_, h.sorted,
    fun u p' => ?_⟩
  · simp [(h.unset hu).1] at ht
  · rw [hband.priceAt]
    by_cases htt : t' = t
    · -- the level that changed: one of its two queues is empty
      subst htt
      simp only [List.getElem?_set_self ht, Option.some.injEq] at hl
      rw [← hl]
      cases s with
      | buy =>
        rw [update_self, update_of_ne (by simp),
          show N (.sell, fb.priceAt t') = [] from hopp, List.append_nil]
      | sell =>
        rw [update_self, update_of_ne (by simp),
          show N (.buy, fb.priceAt t') = [] from hopp, List.nil_append]
    · have hp : fb.priceAt t' ≠ fb.priceAt t := by
        intro hp
        have := priceAt_inj h.valid.tick_pos hp
        omega
      simp only [List.getElem?_set_ne (Ne.symm htt)] at hl
      rw [update_of_ne (by simp [hp]), update_of_ne (by simp [hp])]
      exact h.ladder t' lvl hl
  · rw [hband.tickIndex]
    by_cases hk : (u, p') = (s, fb.priceAt t)
    · -- the price is in the band, so no map has it
      obtain ⟨rfl, rfl⟩ := Prod.mk.inj hk
      have hin := h.tickIndex_priceAt ht
      have := h.fallback u (fb.priceAt t)
      rw [if_pos (Or.inl (by omega))] at this ⊢
      exact this
    · rw [update_of_ne hk]
      exact h.fallback u p'

/-- Writing the level of a side and price back through its reference. -/
theorem LevelsRep.setLevel (h : LevelsRep fb N hole) (hhole : hole = none ∨ hole = some (s, p))
    (hopp : N (s.opposite, p) = []) (hset : n ≠ [] → fb.bandSet = true) :
    LevelsRep (fb.setLevel (fb.refOf s p) (levelOf n)) (update N (s, p) n)
      (some (s, p)) := by
  rcases h.tick_cases p with ⟨t, ht, rfl, _, hidx⟩ | ⟨hout, -⟩
  · have hl := h.setLadder ht (n := n) hopp
    have hband : SameBand fb { fb with ladder := fb.ladder.set t (levelOf n) } :=
      ⟨rfl, rfl, rfl, by simp⟩
    rw [refOf, hidx, if_pos (by omega), FastBook.setLevel, Int.toNat_natCast]
    -- the hole is at an in-band price, where it allows nothing
    refine hl.move_hole (fun k hk _ => ?_)
    have hne : (s, fb.priceAt t) ≠ k := by
      rintro rfl
      rw [hband.tickIndex, hidx] at hk
      omega
    rcases hhole with rfl | rfl <;> simp [hne]
  · rw [refOf, hout, if_neg (by omega), FastBook.setLevel]
    refine h.setFallback hout hset (sorted_upsert (h.sorted s) _ _ _) (fun p' => ?_)
      (fun k hk => ?_)
    · rw [find_upsert (h.sorted s)]
      simp
    · rcases hhole with rfl | rfl
      · simpa using Ne.symm hk
      · exact Iff.rfl

theorem setFallback_fallback (fb : FastBook) (s : Side) :
    fb.setFallback s (fb.fallback s) = fb := by
  cases s <;> rfl

/-- `level_for` makes the level if need be. -/
theorem LevelsRep.levelFor (h : LevelsRep fb N none) (hset : fb.bandSet = true) (s : Side)
    (p : Price) :
    ∃ m, fb.levelFor s p = (fb.setFallback s m, fb.refOf s p) ∧
      LevelsRep (fb.setFallback s m) N (some (s, p)) := by
  unfold FastBook.levelFor refOf
  by_cases hin : 0 ≤ fb.tickIndex p
  · refine ⟨fb.fallback s, by simp [hin, setFallback_fallback], ?_⟩
    rw [setFallback_fallback]
    refine h.move_hole (fun k hk _ => ?_)
    have hne : (s, p) ≠ k := by
      rintro rfl
      exact hk hin
    simp [hne]
  · have hout : fb.tickIndex p = -1 := by
      rcases h.tick_cases p with ⟨t, _, _, _, hidx⟩ | ⟨hout, -⟩
      · omega
      · exact hout
    refine ⟨upsert s.ahead p {} (fun lvl => lvl) (fb.fallback s), by simp [hin], ?_⟩
    rw [← update_eq_self (s, p) N]
    refine h.setFallback hout (fun _ => hset)
      (sorted_upsert (h.sorted s) p {} (fun lvl => lvl)) (fun p' => ?_) (fun k hk => ?_)
    · rw [find_upsert (h.sorted s), h.fallback s p, hout]
      by_cases hnil : N (s, p) = []
      · simp [hnil, levelOf, levelWith]
      · simp [hnil]
    · simpa using Ne.symm hk

/-- Erasing the empty level of a hole. -/
theorem LevelsRep.erase (h : LevelsRep fb N (some (s, p))) (hout : ¬ 0 ≤ fb.tickIndex p)
    (hnil : N (s, p) = []) :
    LevelsRep (fb.setFallback s (erase p (fb.fallback s))) N none := by
  have hout' : fb.tickIndex p = -1 := by
    rcases h.tick_cases p with ⟨t, _, _, _, hidx⟩ | ⟨hout, -⟩
    · omega
    · exact hout
  rw [← update_eq_self (s, p) N, hnil]
  refine h.setFallback hout' (fun h0 => absurd rfl h0)
    (sorted_erase p (h.sorted s)) (fun p' => ?_) (fun k hk => ?_)
  · rw [find_erase]
    simp
  · simpa using Ne.symm hk

/-- The band is set with an empty ladder. -/
theorem LevelsRep.setBand (h : LevelsRep fb N none) (price : Price) :
    LevelsRep (fb.setBand price) N none ∧ (fb.setBand price).bandSet = true := by
  unfold FastBook.setBand
  by_cases hset : fb.bandSet = true
  · rw [if_pos hset]
    exact ⟨h, hset⟩
  · rw [if_neg hset]
    obtain ⟨hl, hN⟩ := h.unset (by simpa using hset)
    have hlt := h.valid.half_lt
    have hempty : ∀ s p, find (fb.fallback s) p = none := by
      intro s p
      rw [h.fallback, if_pos (Or.inr ⟨hN _, by simp⟩)]
    refine ⟨⟨h.valid, ?_, fun hu => ?_, fun t lvl hl => ?_, h.sorted, fun s p => ?_⟩, rfl⟩
    · simp only [List.length_replicate]
      omega
    · cases hu
    · obtain ⟨_, heq⟩ := List.getElem?_eq_some_iff.mp hl
      simp only [List.getElem_replicate] at heq
      rw [← heq, hN, hN]
      rfl
    · rw [if_pos (Or.inr ⟨hN _, by simp⟩)]
      exact hempty s p

end levels

end FastBook

end MatchingEngine
