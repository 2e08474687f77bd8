import MatchingEngine.Book.FastBook
import MatchingEngine.Book.Queues

/-! # The order pool of the fast book

    The pool, the free list and the id table of the fast book store, for each
    side and price, a queue of orders at slots of the pool (`Nodes`). This
    module shows what the three primitive changes do to that reading: rewriting
    an open quantity, unlinking a slot, and linking a new slot behind a tail.

    No slot is in two queues, because a slot's record names its side, its price
    and its id; so every change is local to one chain.
-/

namespace MatchingEngine

namespace FastBook

open Arena Function PriorityBook
open Arena (Link Seg)
open PriorityBook (total)

/-! ## Section 1: Representation -/

def mkOrder (s : Side) (prev next : Link) (o : Resting) : FOrder :=
  ⟨o.id, o.price, o.openQty, prev, next, s⟩

/-- The level record of a queue, with a total of its own. -/
def levelWith (t : Qty) (n : List (Nat × Resting)) : Level :=
  { total := t, head := (n.map Prod.fst).head?, tail := (n.map Prod.fst).getLast? }

/-- The level record of a queue. -/
def levelOf (n : List (Nat × Resting)) : Level := levelWith (total (n.map Prod.snd)) n

/-- Each queue is a chain of the pool, and free slots are in no queue. -/
structure PoolChains (pool : List FOrder) (free : List Nat) (N : Nodes) : Prop where
  chain : ∀ k, Seg (mkOrder k.1) pool none ((N k).map Prod.fst) ((N k).map Prod.snd) none
  free_nodup : free.Nodup
  free_lt : ∀ i ∈ free, i < pool.length
  free_apart : ∀ i ∈ free, ∀ k, ∀ e ∈ N k, e.1 ≠ i

/-- The slot `i` is in a queue. -/
def Listed (N : Nodes) (i : Nat) : Prop := ∃ k, i ∈ (N k).map Prod.fst

/-- The queues and the free slots share the pool between them. -/
structure PoolRep (pool : List FOrder) (free : List Nat) (N : Nodes) : Prop
    extends PoolChains pool free N where
  covered : ∀ i < pool.length, i ∈ free ∨ Listed N i

/-- The table maps the id of each stored order to its slot. -/
def IndexRep (index : FlatMap OrderId Nat) (N : Nodes) : Prop :=
  ∃ f, index.Models f ∧ ∀ id i, f id = some i ↔ ∃ k, Located N id k i

section pool

variable {pool : List FOrder} {free : List Nat} {N : Nodes} {k : Side × Price}
  {i : Nat} {o : Resting} {xs ys : List (Nat × Resting)}

/-- A chain around one of its slots. -/
theorem PoolChains.around (h : PoolChains pool free N) (hs : N k = xs ++ (i, o) :: ys) :
    Seg (mkOrder k.1) pool none (xs.map Prod.fst) (xs.map Prod.snd) (some i) ∧
      pool[i]? = some (mkOrder k.1 (xs.map Prod.fst).getLast? (ys.map Prod.fst).head? o) ∧
        Seg (mkOrder k.1) pool (some i) (ys.map Prod.fst) (ys.map Prod.snd) none := by
  have hc := h.chain k
  rw [hs, List.map_append, List.map_append, List.map_cons, List.map_cons,
    seg_middle (by simp)] at hc
  simpa using hc

theorem PoolChains.get (h : PoolChains pool free N) (hmem : (i, o) ∈ N k) :
    ∃ prev next, pool[i]? = some (mkOrder k.1 prev next o) := by
  obtain ⟨xs, ys, hs⟩ := List.append_of_mem hmem
  exact ⟨_, _, (h.around hs).2.1⟩

/-- A slot holds one order of one queue. -/
theorem PoolChains.slot_unique (h : PoolChains pool free N) (hQ : QueuesWF (queuesOf N))
    {k' : Side × Price} {o' : Resting} (hmem : (i, o) ∈ N k) (hmem' : (i, o') ∈ N k') :
    k = k' ∧ o = o' := by
  obtain ⟨p, n, hget⟩ := h.get hmem
  obtain ⟨p', n', hget'⟩ := h.get hmem'
  rw [hget] at hget'
  simp only [mkOrder, Option.some.injEq, FOrder.mk.injEq] at hget'
  obtain ⟨hid, hprice, hopen, -, -, -⟩ := hget'
  have hk : k = k' := hQ.unique (List.mem_map_of_mem hmem) (List.mem_map_of_mem hmem') hid
  refine ⟨hk, ?_⟩
  cases o
  cases o'
  simp_all

theorem PoolChains.nodup (h : PoolChains pool free N) (hQ : QueuesWF (queuesOf N))
    (k : Side × Price) : ((N k).map Prod.fst).Nodup := by
  have hnd : (N k).Nodup := by
    have := hQ.nodup k
    unfold queuesOf at this
    exact List.Nodup.of_map _ (List.Nodup.of_map _ this)
  refine hnd.map_on (fun x hx y hy hxy => ?_)
  obtain ⟨ix, ox⟩ := x
  obtain ⟨iy, oy⟩ := y
  obtain rfl : ix = iy := hxy
  rw [(h.slot_unique hQ hx hy).2]

theorem PoolChains.ne_of_split (h : PoolChains pool free N) (hQ : QueuesWF (queuesOf N))
    (hs : N k = xs ++ (i, o) :: ys) :
    (xs.map Prod.fst).Nodup ∧ (ys.map Prod.fst).Nodup ∧ (i ∉ xs.map Prod.fst) ∧
      (i ∉ ys.map Prod.fst) ∧ ∀ j ∈ xs.map Prod.fst, j ∉ ys.map Prod.fst := by
  have hnd := h.nodup hQ k
  rw [hs, List.map_append, List.map_cons, List.nodup_append, List.nodup_cons] at hnd
  obtain ⟨hxs, ⟨hi, hys⟩, hdisj⟩ := hnd
  refine ⟨hxs, hys, fun hmem => hdisj i hmem i List.mem_cons_self rfl, hi, fun j hj hj' => ?_⟩
  exact hdisj j hj j (List.mem_cons_of_mem _ hj') rfl

/-- Another queue does not hear of changes to the slots of this one. -/
theorem PoolChains.other (h : PoolChains pool free N) (hQ : QueuesWF (queuesOf N))
    {k' : Side × Price} (hk : k' ≠ k) {pool' : List FOrder}
    (hframe : ∀ j ∈ (N k').map Prod.fst, j ∉ (N k).map Prod.fst → pool'[j]? = pool[j]?) :
    Seg (mkOrder k'.1) pool' none ((N k').map Prod.fst) ((N k').map Prod.snd) none := by
  refine seg_frame (h.chain k') (fun j hj => hframe j hj (fun hj' => hk ?_))
  obtain ⟨⟨_, o₁⟩, h₁, rfl⟩ := List.mem_map.mp hj
  obtain ⟨⟨_, o₂⟩, h₂, heq⟩ := List.mem_map.mp hj'
  simp only at heq
  subst heq
  exact (h.slot_unique hQ h₁ h₂).1

theorem listed_update {n : List (Nat × Resting)} {j : Nat} (h : Listed N j)
    (hn : j ∈ (N k).map Prod.fst → j ∈ n.map Prod.fst) : Listed (update N k n) j := by
  obtain ⟨k', hj⟩ := h
  refine ⟨k', ?_⟩
  by_cases hk : k' = k
  · subst hk
    rw [update_self]
    exact hn hj
  · rwa [update_of_ne hk]

end pool

/-! ## Section 2: Re-pointing links -/

section relink

variable {s : Side} {pool : List FOrder} {is : List Nat} {os : List Resting}

/-- Pointing the last slot of a chain at `nx`, or the level's head when the
    chain is empty. -/
theorem relinkNext_spec {prev next : Link} (lvl : Level) (nx : Link)
    (h : Seg (mkOrder s) pool prev is os next) (hnd : is.Nodup) :
    ∃ pool', relinkNext pool lvl is.getLast? nx =
        some (pool', { lvl with head := if is = [] then nx else lvl.head }) ∧
      Seg (mkOrder s) pool' prev is os nx ∧ (∀ j, j ∉ is → pool'[j]? = pool[j]?) ∧
      pool'.length = pool.length := by
  rcases List.eq_nil_or_concat is with rfl | ⟨js, t, rfl⟩
  · have hos : os = [] := (seg_nil_iff h).mp rfl
    subst hos
    exact ⟨pool, by simp [relinkNext], trivial, fun _ _ => rfl, rfl⟩
  · simp only [List.concat_eq_append] at h hnd ⊢
    have hlen := seg_length h
    obtain ⟨os', a, rfl⟩ : ∃ os' a, os = os' ++ [a] := by
      rcases List.eq_nil_or_concat os with rfl | ⟨os', a, rfl⟩
      · simp at hlen
      · exact ⟨os', a, by simp⟩
    have hmid : Seg (mkOrder s) pool prev (js ++ t :: []) (os' ++ a :: []) next := h
    have hget := ((seg_middle (by simpa using hlen)).mp hmid).2.1
    refine ⟨pool.set t (mkOrder s (js.getLast?.or prev) nx a), ?_, ?_, fun j hj => ?_, by simp⟩
    · simp [relinkNext, update_of_get _ hget, mkOrder]
    · refine seg_setNext h hnd (fun t' p b ht hb => ?_) (fun j hj hne => ?_)
      · simp only [List.getLast?_append, List.getLast?_singleton, Option.some_or,
          Option.some.injEq] at ht
        subst ht
        rw [hget] at hb
        rw [get_set_self _ hget]
        simp only [mkOrder, Option.some.injEq, FOrder.mk.injEq] at hb ⊢
        obtain ⟨h1, h2, h3, h4, -, -⟩ := hb
        exact ⟨h1, h2, h3, h4, trivial, trivial⟩
      · exact get_set_ne _ (fun ht => hne (by simp [ht]))
    · exact get_set_ne _ (fun ht => hj (by simp [ht]))

/-- Pointing the first slot of a chain back at `pv`, or the level's tail when
    the chain is empty. -/
theorem relinkPrev_spec {prev next : Link} (lvl : Level) (pv : Link)
    (h : Seg (mkOrder s) pool prev is os next) (hnd : is.Nodup) :
    ∃ pool', relinkPrev pool lvl is.head? pv =
        some (pool', { lvl with tail := if is = [] then pv else lvl.tail }) ∧
      Seg (mkOrder s) pool' pv is os next ∧ (∀ j, j ∉ is → pool'[j]? = pool[j]?) ∧
      pool'.length = pool.length := by
  cases is with
  | nil =>
    have hos : os = [] := (seg_nil_iff h).mp rfl
    subst hos
    exact ⟨pool, by simp [relinkPrev], trivial, fun _ _ => rfl, rfl⟩
  | cons i is =>
    cases os with
    | nil => exact h.elim
    | cons a os =>
      have hget := (seg_cons.mp h).1
      refine ⟨pool.set i (mkOrder s pv (is.head?.or next) a), ?_, ?_, fun j hj => ?_, by simp⟩
      · simp [relinkPrev, update_of_get _ hget, mkOrder]
      · refine seg_setPrev h hnd (fun i' n b hi hb => ?_) (fun j hj hne => ?_)
        · simp only [List.head?_cons, Option.some.injEq] at hi
          subst hi
          rw [hget] at hb
          rw [get_set_self _ hget]
          simp only [mkOrder, Option.some.injEq, FOrder.mk.injEq] at hb ⊢
          obtain ⟨h1, h2, h3, -, h5, -⟩ := hb
          exact ⟨h1, h2, h3, trivial, h5, trivial⟩
        · exact get_set_ne _ (fun ht => hne (by simp [ht]))
      · exact get_set_ne _ (fun ht => hj (by simp [ht]))

end relink

/-! ## Section 3: The primitive changes -/

section changes

variable {pool : List FOrder} {free : List Nat} {N : Nodes} {k : Side × Price}
  {i : Nat} {o : Resting} {xs ys : List (Nat × Resting)}

/-- Rewriting the open quantity of a stored order. -/
theorem PoolRep.setOpen (h : PoolRep pool free N) (hQ : QueuesWF (queuesOf N))
    (hs : N k = xs ++ (i, o) :: ys) (q : Qty) {prev next : Link}
    (hget : pool[i]? = some (mkOrder k.1 prev next o)) :
    PoolRep (pool.set i (mkOrder k.1 prev next { o with openQty := q })) free
      (update N k (xs ++ (i, { o with openQty := q }) :: ys)) := by
  obtain ⟨hxs, hi, hys⟩ := h.around hs
  obtain ⟨-, -, hixs, hiys, -⟩ := h.ne_of_split hQ hs
  have hlinks : mkOrder k.1 prev next { o with openQty := q } =
      mkOrder k.1 (xs.map Prod.fst).getLast? (ys.map Prod.fst).head? { o with openQty := q } := by
    have := Option.some.inj (hget.symm.trans hi)
    simp only [mkOrder, FOrder.mk.injEq] at this ⊢
    simp [this]
  have hne : ∀ j, j ≠ i →
      (pool.set i (mkOrder k.1 prev next { o with openQty := q }))[j]? = pool[j]? :=
    fun j hj => get_set_ne _ (Ne.symm hj)
  have hplaces : (xs ++ (i, { o with openQty := q }) :: ys).map Prod.fst = (N k).map Prod.fst := by
    simp [hs]
  refine ⟨⟨fun k' => ?_, h.free_nodup, fun j hj => by simpa using h.free_lt j hj,
    fun j hj k' e he => ?_⟩, fun j hj => ?_⟩
  · by_cases hk : k' = k
    · subst hk
      rw [update_self, List.map_append, List.map_append, List.map_cons, List.map_cons,
        seg_middle (by simp)]
      refine ⟨seg_frame hxs (fun j hj => hne j (fun hji => hixs (hji ▸ hj))), ?_,
        seg_frame hys (fun j hj => hne j (fun hji => hiys (hji ▸ hj)))⟩
      rw [get_set_self _ hget, hlinks]
      simp
    · rw [update_of_ne hk]
      refine h.other hQ hk (fun j _ hj => hne j (fun hji => hj ?_))
      rw [hji, hs]
      simp
  · by_cases hk : k' = k
    · subst hk
      rw [update_self] at he
      have hplace : e.1 ∈ (N k').map Prod.fst := hplaces ▸ List.mem_map_of_mem he
      obtain ⟨e', he', heq⟩ := List.mem_map.mp hplace
      exact heq ▸ h.free_apart j hj k' e' he'
    · rw [update_of_ne hk] at he
      exact h.free_apart j hj k' e he
  · refine (h.covered j (by simpa using hj)).imp_right (fun hl => listed_update hl ?_)
    rw [hplaces]
    exact id

/-- Emptying one place of a queue, in a pool that differs only there. -/
theorem PoolRep.without (h : PoolRep pool free N) (hQ : QueuesWF (queuesOf N))
    (hs : N k = xs ++ (i, o) :: ys) {pool' : List FOrder}
    (hframe : ∀ j, j ∉ (N k).map Prod.fst → pool'[j]? = pool[j]?)
    (hlen : pool'.length = pool.length)
    (hchain : Seg (mkOrder k.1) pool' none ((xs ++ ys).map Prod.fst)
      ((xs ++ ys).map Prod.snd) none) :
    PoolRep pool' (i :: free) (update N k (xs ++ ys)) := by
  have hmem : (i, o) ∈ N k := by simp [hs]
  have hsub : ∀ e ∈ xs ++ ys, e ∈ N k := by
    intro e he
    rw [hs]
    rcases List.mem_append.mp he with he | he <;> simp [he]
  obtain ⟨-, -, hixs, hiys, -⟩ := h.ne_of_split hQ hs
  refine ⟨⟨fun k' => ?_, ?_, fun j hj => ?_, fun j hj k' e he => ?_⟩, fun j hj => ?_⟩
  · by_cases hk : k' = k
    · subst hk
      rwa [update_self]
    · rw [update_of_ne hk]
      exact h.other hQ hk (fun j _ hj => hframe j hj)
  · exact List.nodup_cons.mpr ⟨fun hf => h.free_apart i hf k _ hmem rfl, h.free_nodup⟩
  · rw [hlen]
    rcases List.mem_cons.mp hj with rfl | hj
    · exact (List.getElem?_eq_some_iff.mp (h.around hs).2.1).1
    · exact h.free_lt j hj
  · rcases List.mem_cons.mp hj with rfl | hj
    · rintro rfl
      by_cases hk : k' = k
      · subst hk
        rw [update_self] at he
        rcases List.mem_append.mp he with he | he
        · exact hixs (List.mem_map_of_mem he)
        · exact hiys (List.mem_map_of_mem he)
      · rw [update_of_ne hk] at he
        exact hk (h.slot_unique hQ he hmem).1
    · by_cases hk : k' = k
      · subst hk
        rw [update_self] at he
        exact h.free_apart j hj k' e (hsub e he)
      · rw [update_of_ne hk] at he
        exact h.free_apart j hj k' e he
  · -- the slot that left the queue is free now
    by_cases hji : j = i
    · exact .inl (hji ▸ List.mem_cons_self)
    · refine (h.covered j (hlen ▸ hj)).imp (List.mem_cons_of_mem i) (fun hl => listed_update hl ?_)
      rw [hs]
      simp [hji]

/-- `unlink` takes a slot out of its queue, and the slot may be freed. -/
theorem PoolRep.unlink (h : PoolRep pool free N) (hQ : QueuesWF (queuesOf N))
    (hs : N k = xs ++ (i, o) :: ys) (t : Qty) :
    ∃ pool', FastBook.unlink pool (levelWith t (N k)) i = some (pool', levelWith t (xs ++ ys)) ∧
      PoolRep pool' (i :: free) (update N k (xs ++ ys)) := by
  obtain ⟨hxs, hi, hys⟩ := h.around hs
  obtain ⟨hndx, hndy, hixs, hiys, hdisj⟩ := h.ne_of_split hQ hs
  -- the predecessor, or the level's head, skips the slot
  obtain ⟨p₁, heq₁, hxs₁, hfr₁, hlen₁⟩ :=
    relinkNext_spec (levelWith t (N k)) (ys.map Prod.fst).head? hxs hndx
  have hi₁ : p₁[i]? = _ := (hfr₁ i hixs).trans hi
  have hys₁ := seg_frame hys (fun j hj => hfr₁ j (fun hj' => hdisj j hj' hj))
  -- the successor, or the level's tail, points back past it
  obtain ⟨p₂, heq₂, hys₂, hfr₂, hlen₂⟩ :=
    relinkPrev_spec { levelWith t (N k) with
      head := if xs.map Prod.fst = [] then (ys.map Prod.fst).head? else (levelWith t (N k)).head }
      (xs.map Prod.fst).getLast? hys₁ hndy
  have hi₂ : p₂[i]? = _ := (hfr₂ i hiys).trans hi₁
  have hxs₂ := seg_frame hxs₁ (fun j hj => hfr₂ j (hdisj j hj))
  refine ⟨p₂.set i ⟨o.id, o.price, o.openQty, none, none, k.1⟩, ?_, ?_⟩
  · simp only [FastBook.unlink, hi, Option.bind_eq_bind, Option.bind_some, mkOrder, heq₁, hi₁, heq₂,
      update_of_get _ hi₂, Option.some.injEq, Prod.mk.injEq, true_and]
    simp only [levelWith, hs, Level.mk.injEq, true_and]
    refine ⟨?_, ?_⟩
    · cases xs <;> simp
    · cases ys <;> simp [List.getLast?_append, List.getLast?_cons_cons]
  · have hset : ∀ j, j ≠ i →
        (p₂.set i ⟨o.id, o.price, o.openQty, none, none, k.1⟩)[j]? = p₂[j]? :=
      fun j hj => get_set_ne _ (Ne.symm hj)
    refine h.without hQ hs (fun j hj => ?_) (by simp [hlen₁, hlen₂]) ?_
    · rw [hs] at hj
      simp only [List.map_append, List.map_cons, List.mem_append, List.mem_cons, not_or] at hj
      rw [hset j hj.2.1, hfr₂ j hj.2.2, hfr₁ j hj.1]
    · rw [List.map_append, List.map_append, seg_append (by simp)]
      refine ⟨?_, ?_⟩
      · simpa using seg_frame hxs₂ (fun j hj => hset j (fun hji => hixs (hji ▸ hj)))
      · simpa using seg_frame hys₂ (fun j hj => hset j (fun hji => hiys (hji ▸ hj)))

/-- A new slot is in no queue and not free. -/
theorem allocOrder_spec {fb : FastBook} (h : PoolRep fb.pool fb.free N) (id : OrderId) (s : Side)
    (p : Price) (q : Qty) :
    ∃ pool' free' idx, fb.allocOrder id s p q = some ({ fb with pool := pool', free := free' },
      idx) ∧ PoolChains pool' free' N ∧ pool'[idx]? = some (mkOrder s none none ⟨id, p, q⟩) ∧
      (∀ k, ∀ e ∈ N k, e.1 ≠ idx) ∧ idx ∉ free' ∧
      ∀ j < pool'.length, j ≠ idx → j ∈ free' ∨ Listed N j := by
  unfold allocOrder
  cases hf : fb.free with
  | cons idx free' =>
    have hmem : idx ∈ fb.free := by simp [hf]
    have hlt := h.free_lt idx hmem
    have hnd := h.free_nodup
    rw [hf, List.nodup_cons] at hnd
    have hget : fb.pool[idx]? = some fb.pool[idx] := List.getElem?_eq_getElem hlt
    refine ⟨fb.pool.set idx ⟨id, p, q, none, none, s⟩, free', idx, ?_, ?_,
      get_set_self _ hget, h.free_apart idx hmem, hnd.1, fun j hj hne => ?_⟩
    · simp [update_of_get _ hget]
    · refine ⟨fun k => ?_, hnd.2, fun i hi => ?_, fun i hi => ?_⟩
      · refine seg_frame (h.chain k) (fun j hj => get_set_ne _ ?_)
        obtain ⟨e, he, rfl⟩ := List.mem_map.mp hj
        exact (h.free_apart idx hmem k e he).symm
      · simpa using h.free_lt i (by simp [hf, hi])
      · exact h.free_apart i (by simp [hf, hi])
    · have hcovered := h.covered j (by simpa using hj)
      rw [hf] at hcovered
      exact hcovered.imp_left (fun hmem => (List.mem_cons.mp hmem).resolve_left hne)
  | nil =>
    have hold : ∀ j, j < fb.pool.length →
        (fb.pool ++ [⟨id, p, q, none, none, s⟩])[j]? = fb.pool[j]? :=
      fun j hj => List.getElem?_append_left hj
    have hlt : ∀ k, ∀ e ∈ N k, e.1 < fb.pool.length := by
      intro k e he
      obtain ⟨i, o⟩ := e
      obtain ⟨_, _, hget⟩ := h.get he
      exact (List.getElem?_eq_some_iff.mp hget).1
    refine ⟨fb.pool ++ [⟨id, p, q, none, none, s⟩], [], fb.pool.length, by simp [← hf], ?_, ?_,
      ?_, ?_, fun j hj hne => ?_⟩
    · refine ⟨fun k => seg_frame (h.chain k) (fun j hj => ?_), List.nodup_nil, ?_, ?_⟩
      · obtain ⟨e, he, rfl⟩ := List.mem_map.mp hj
        exact hold _ (hlt k e he)
      · simp
      · simp
    · simp [mkOrder]
    · exact fun k e he => Nat.ne_of_lt (hlt k e he)
    · simp
    · have hj' : j < fb.pool.length + 1 := by simpa using hj
      have hcovered := h.covered j (by omega)
      rwa [hf] at hcovered

/-- `rest` links a new slot behind the tail of its queue. -/
theorem PoolChains.linkBack (h : PoolChains pool free N) (hQ : QueuesWF (queuesOf N))
    (hget : pool[i]? = some (mkOrder k.1 none none o)) (hfresh : ∀ k, ∀ e ∈ N k, e.1 ≠ i)
    (hfree : i ∉ free) (hcovered : ∀ j < pool.length, j ≠ i → j ∈ free ∨ Listed N j) :
    ∃ pool', FastBook.linkBack pool (levelOf (N k)) i o.openQty =
        some (pool', levelOf (N k ++ [(i, o)])) ∧
      PoolRep pool' free (update N k (N k ++ [(i, o)])) := by
  have hnot : i ∉ (N k).map Prod.fst := by
    intro hmem
    obtain ⟨e, he, rfl⟩ := List.mem_map.mp hmem
    exact hfresh k e he rfl
  -- the slot points back at the old tail, which then points on to the slot
  obtain ⟨p₁, hp₁⟩ : ∃ p₁, p₁ = pool.set i (mkOrder k.1 ((N k).map Prod.fst).getLast? none o) :=
    ⟨_, rfl⟩
  have hi₁ : p₁[i]? = _ := hp₁ ▸ get_set_self _ hget
  have hfr₁ : ∀ j, j ≠ i → p₁[j]? = pool[j]? := fun j hj => hp₁ ▸ get_set_ne _ (Ne.symm hj)
  have hchain₁ := seg_frame (h.chain k)
    (fun j hj => hfr₁ j (fun hji => hnot (hji ▸ hj)))
  obtain ⟨p₂, heq₂, hchain₂, hfr₂, hlen₂⟩ :=
    relinkNext_spec (levelOf (N k)) (some i) hchain₁ (h.nodup hQ k)
  have hi₂ : p₂[i]? = _ := (hfr₂ i hnot).trans hi₁
  refine ⟨p₂, ?_, ⟨fun k' => ?_, h.free_nodup, fun j hj => ?_, fun j hj k' e he => ?_⟩,
    fun j hj => ?_⟩
  · have hupd : update pool i
        (fun n => { n with prev := ((N k).map Prod.fst).getLast? }) = some p₁ := by
      rw [update_of_get _ hget, hp₁]
      rfl
    have htail : (levelOf (N k)).tail = ((N k).map Prod.fst).getLast? := rfl
    simp only [FastBook.linkBack, hupd, Option.bind_eq_bind, Option.bind_some, htail, heq₂]
    simp only [levelOf, levelWith, List.map_append, List.map_cons, List.map_nil,
      total_append, total_cons, total_nil, Option.some.injEq,
      Prod.mk.injEq, true_and, Level.mk.injEq]
    refine ⟨by simp, ?_, by simp⟩
    cases N k <;> simp
  · by_cases hk : k' = k
    · subst hk
      rw [update_self, List.map_append, List.map_append, seg_append (by simp)]
      refine ⟨by simpa using hchain₂, ?_⟩
      rw [List.map_singleton, List.map_singleton, seg_singleton, hi₂]
      simp
    · rw [update_of_ne hk]
      refine h.other hQ hk (fun j hj hj' => (hfr₂ j hj').trans (hfr₁ j ?_))
      obtain ⟨e, he, rfl⟩ := List.mem_map.mp hj
      exact hfresh k' e he
  · rw [hlen₂, hp₁]
    simpa using h.free_lt j hj
  · by_cases hk : k' = k
    · subst hk
      rw [update_self] at he
      rcases List.mem_append.mp he with he | he
      · exact h.free_apart j hj k' e he
      · rw [List.mem_singleton.mp he]
        rintro rfl
        exact hfree hj
    · rw [update_of_ne hk] at he
      exact h.free_apart j hj k' e he
  · by_cases hji : j = i
    · exact .inr ⟨k, by simp [hji]⟩
    · rw [hlen₂, hp₁, List.length_set] at hj
      refine (hcovered j hj hji).imp_right (fun hl => listed_update hl (fun hj => ?_))
      rw [List.map_append]
      exact List.mem_append_left _ hj

end changes

/-! ## Section 4: The id table -/

section index

variable {index : FlatMap OrderId Nat} {N : Nodes} {k : Side × Price} {i : Nat} {o : Resting}
  {xs ys : List (Nat × Resting)}

theorem IndexRep.erase (h : IndexRep index N) (hQ : QueuesWF (queuesOf N))
    (hs : N k = xs ++ (i, o) :: ys) :
    ∃ r, index.erase o.id = some r ∧ IndexRep r.1 (update N k (xs ++ ys)) := by
  obtain ⟨f, hf, hloc⟩ := h
  obtain ⟨index', herase, hmodels⟩ := FlatMap.erase_spec hf o.id
  refine ⟨_, herase, update f o.id none, hmodels, fun id j => ?_⟩
  simp only [located_remove hQ hs, exists_and_left, ← hloc]
  by_cases hid : id = o.id
  · subst hid; simp
  · simp [hid]

theorem IndexRep.setOpen (h : IndexRep index N) (hs : N k = xs ++ (i, o) :: ys) (q : Qty) :
    IndexRep index (update N k (xs ++ (i, { o with openQty := q }) :: ys)) := by
  obtain ⟨f, hf, hloc⟩ := h
  refine ⟨f, hf, fun id j => ?_⟩
  rw [hloc]
  exact exists_congr (fun k' => (located_setOpen hs q).symm)

theorem IndexRep.insert (h : IndexRep index N) (hfresh : ∀ k, ∀ e ∈ N k, e.2.id ≠ o.id)
    (k : Side × Price) (i : Nat) :
    ∃ index', index.insert o.id i = some index' ∧
      IndexRep index' (update N k (N k ++ [(i, o)])) := by
  obtain ⟨f, hf, hloc⟩ := h
  obtain ⟨index', hinsert, hmodels⟩ := FlatMap.insert_spec hf o.id i
  have hnot : ∀ k i, ¬ Located N o.id k i := fun k i ⟨o', ho', hid⟩ => hfresh k _ ho' hid
  refine ⟨index', hinsert, update f o.id (some i), hmodels, fun id j => ?_⟩
  simp only [located_append]
  by_cases hid : id = o.id
  · subst hid
    simp [hnot, eq_comm]
  · simp [hid, hloc]

/-- What the table finds. -/
theorem IndexRep.find (h : IndexRep index N) (id : OrderId) :
    index.find id = some none ∧ (∀ k i, ¬ Located N id k i) ∨
      ∃ k i, index.find id = some (some i) ∧ Located N id k i := by
  obtain ⟨f, hf, hloc⟩ := h
  rw [FlatMap.find_spec hf]
  cases hfid : f id with
  | none =>
    refine Or.inl ⟨rfl, fun k i hl => ?_⟩
    have := (hloc id i).mpr ⟨k, hl⟩
    rw [hfid] at this
    cases this
  | some i =>
    obtain ⟨k, hl⟩ := (hloc id i).mp hfid
    exact Or.inr ⟨k, i, rfl, hl⟩

theorem IndexRep.contains (h : IndexRep index N) {a : PriorityBook} (hN : a.queues = queuesOf N)
    (id : OrderId) : index.contains id = some (a.contains id) := by
  obtain ⟨f, hf, hloc⟩ := h
  rw [FlatMap.contains_spec hf, Option.some.injEq, Bool.eq_iff_iff, contains_iff]
  rw [Option.isSome_iff_exists]
  constructor
  · rintro ⟨i, hi⟩
    obtain ⟨⟨s, p⟩, o, ho, rfl⟩ := (hloc id i).mp hi
    have hmem : o ∈ a.queues (s, p) := by rw [hN]; exact List.mem_map_of_mem ho
    exact ⟨s, o, (mem_queues.mp hmem).1, rfl⟩
  · rintro ⟨s, o, ho, rfl⟩
    have hmem : o ∈ a.queues (s, o.price) := mem_queues.mpr ⟨ho, rfl⟩
    rw [hN] at hmem
    obtain ⟨⟨i, o'⟩, he, rfl⟩ := List.mem_map.mp hmem
    exact ⟨i, (hloc _ i).mpr ⟨_, o', he, rfl⟩⟩

end index

/-! ## Section 5: Walking a chain -/

/-- The traversal of `snapshot` returns the queue of the chain. -/
theorem chain_spec {s : Side} {pool : List FOrder} {n : List (Nat × Resting)} {prev : Link}
    {fuel : Nat} (h : Seg (mkOrder s) pool prev (n.map Prod.fst) (n.map Prod.snd) none)
    (hfuel : n.length ≤ fuel) :
    chain pool fuel (n.map Prod.fst).head? = some (snapshotQueue (n.map Prod.snd)) := by
  induction n generalizing prev fuel with
  | nil => simp [chain, snapshotQueue]
  | cons e n ih =>
    obtain ⟨i, o⟩ := e
    cases fuel with
    | zero => simp at hfuel
    | succ fuel =>
      obtain ⟨hget, htail⟩ := seg_cons.mp h
      have hrest := ih htail (by simpa using hfuel)
      simp only [List.map_cons, List.head?_cons, chain, hget, Option.bind_eq_bind, Option.bind_some,
        mkOrder, Option.or_none, hrest, snapshotQueue]

/-- A queue is no longer than the pool. -/
theorem PoolChains.length_le {pool : List FOrder} {free : List Nat} {N : Nodes}
    (h : PoolChains pool free N) (hQ : QueuesWF (queuesOf N)) (k : Side × Price) :
    (N k).length ≤ pool.length := by
  have hsub : (N k).map Prod.fst ⊆ List.range pool.length := by
    intro i hi
    obtain ⟨⟨_, o⟩, he, rfl⟩ := List.mem_map.mp hi
    obtain ⟨_, _, hget⟩ := h.get he
    exact List.mem_range.mpr (List.getElem?_eq_some_iff.mp hget).1
  simpa using ((h.nodup hQ k).subperm hsub).length_le

end FastBook

end MatchingEngine
