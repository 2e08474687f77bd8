import MatchingEngine.Book.BookSteps
import Mathlib.Data.UInt

/-! # The queues of a book

    Neither book of the source keeps a side as one list. What both keep, each
    in its own way, is one FIFO queue per side and price. This module looks at
    the priority book that way: `queues b` is the function from side and price
    to queue, each step of the book changes it at one point, and best price,
    matchable quantity and snapshot are read off it.

    A concrete book is then related to the abstract one by what it stores for
    each side and price.
-/

namespace MatchingEngine

open Function PriorityList

/-- A FIFO queue for each side and price. -/
abbrev Queues := Side × Price → List Resting

/-- What the queues of a well-formed book satisfy. -/
structure QueuesWF (Q : Queues) : Prop where
  price : ∀ k, ∀ o ∈ Q k, o.price = k.2
  nodup : ∀ k, ((Q k).map Resting.id).Nodup
  unique : ∀ {k k' : Side × Price} {o o' : Resting}, o ∈ Q k → o' ∈ Q k' → o.id = o'.id → k = k'
  oneSided : ∀ s p, Q (s, p) = [] ∨ Q (s.opposite, p) = []

namespace PriorityBook

variable {b : PriorityBook} {p : Price} {s : Side}

def queues (b : PriorityBook) : Queues :=
  fun k => queueAt Resting.price k.2 (b.side k.1)

theorem mem_queues {o : Resting} : o ∈ b.queues (s, p) ↔ o ∈ b.side s ∧ o.price = p :=
  mem_queueAt

theorem queues_eq_nil : b.queues (s, p) = [] ↔ ∀ o ∈ b.side s, o.price ≠ p :=
  queueAt_eq_nil

theorem queues_ne_nil : b.queues (s, p) ≠ [] ↔ ∃ o ∈ b.side s, o.price = p := by
  rw [ne_eq, queues_eq_nil]
  push Not
  rfl

theorem WF.queues (h : b.WF) : QueuesWF b.queues where
  price := fun _ _ ho => (mem_queues.mp ho).2
  nodup := fun k => (h.sides k.1).nodup.sublist (List.filter_sublist.map _)
  unique := by
    rintro ⟨s, p⟩ ⟨s', p'⟩ o o' ho ho' hid
    obtain ⟨hmem, rfl⟩ := mem_queues.mp ho
    obtain ⟨hmem', rfl⟩ := mem_queues.mp ho'
    obtain ⟨rfl, rfl⟩ := h.unique hmem hmem' hid
    rfl
  oneSided := by
    intro s p
    by_contra hboth
    rw [not_or] at hboth
    obtain ⟨x, hx, rfl⟩ := queues_ne_nil.mp hboth.1
    obtain ⟨y, hy, hp⟩ := queues_ne_nil.mp hboth.2
    -- an equal price on both sides would cross
    refine (h.apart s x hx y hy).2 ?_
    rw [hp]
    cases s <;> simp [crosses]

/-! ## Section 1: How the queues change -/

theorem queues_matchId (b : PriorityBook) (m : Nat) :
    ({ b with nextMatchId := m } : PriorityBook).queues = b.queues := by
  funext k
  simp [queues]

theorem WF.queues_rest (h : b.WF) (id : OrderId) (s : Side) (p : Price) (q : Qty) :
    (b.rest id s p q).queues =
      update b.queues (s, p) (b.queues (s, p) ++ [⟨id, p, q⟩]) := by
  funext ⟨t, p'⟩
  unfold PriorityBook.rest PriorityBook.queues
  rcases Side.eq_or_eq_opposite t s with rfl | rfl
  · rw [side_setSide_self, queueAt_enqueue (h.sides t).sorted]
    by_cases hp : p' = p
    · subst hp; simp
    · rw [update_of_ne (by simpa using hp)]
      simp [Ne.symm hp]
  · rw [side_setSide_opposite, update_of_ne (by simp [Side.opposite_ne])]

end PriorityBook

namespace QueuesWF

variable {Q : Queues} {k : Side × Price} {o : Resting} {xs ys : List Resting}

theorem ne_of_split (h : QueuesWF Q) (hs : Q k = xs ++ o :: ys) :
    (∀ x ∈ xs, x.id ≠ o.id) ∧ (∀ y ∈ ys, y.id ≠ o.id) ∧
      ∀ k', k' ≠ k → ∀ z ∈ Q k', z.id ≠ o.id := by
  have ho : o ∈ Q k := by simp [hs]
  have hnd := h.nodup k
  rw [hs, List.map_append, List.map_cons, List.nodup_append] at hnd
  obtain ⟨-, hys, hdisj⟩ := hnd
  refine ⟨fun x hx => ?_, fun y hy heq => ?_, fun k' hk z hz heq => ?_⟩
  · exact hdisj _ (List.mem_map_of_mem hx) _ List.mem_cons_self
  · exact (List.nodup_cons.mp hys).1 (heq ▸ List.mem_map_of_mem hy)
  · exact hk (h.unique hz ho heq)

/-- Dropping orders and changing open quantities keeps queues well formed. -/
theorem of_stamps (h : QueuesWF Q) {Q' : Queues}
    (hs : ∀ k, ((Q' k).map PriorityBook.stamp).Sublist ((Q k).map PriorityBook.stamp)) :
    QueuesWF Q' := by
  have hmem : ∀ {k : Side × Price} {o : Resting}, o ∈ Q' k →
      ∃ o' ∈ Q k, o'.id = o.id ∧ o'.price = o.price := by
    intro k o ho
    obtain ⟨o', ho', heq⟩ := List.mem_map.mp ((hs k).subset (List.mem_map_of_mem ho))
    exact ⟨o', ho', congrArg Prod.fst heq, congrArg Prod.snd heq⟩
  refine ⟨fun k o ho => ?_, fun k => ?_, fun ho ho' hid => ?_, fun s p => ?_⟩
  · obtain ⟨o', ho', -, hp⟩ := hmem ho
    exact hp ▸ h.price k o' ho'
  · refine (h.nodup k).sublist ?_
    have := (hs k).map Prod.fst
    simpa [PriorityBook.stamp, comp_def] using this
  · obtain ⟨x, hx, hxid, -⟩ := hmem ho
    obtain ⟨y, hy, hyid, -⟩ := hmem ho'
    exact h.unique hx hy (hxid.trans (hid.trans hyid.symm))
  · refine (h.oneSided s p).imp (fun h0 => ?_) (fun h0 => ?_)
    · have := hs (s, p)
      rw [h0] at this
      simpa using this
    · have := hs (s.opposite, p)
      rw [h0] at this
      simpa using this

end QueuesWF

namespace PriorityBook

section split

variable {b : PriorityBook} {k : Side × Price} {o : Resting} {xs ys : List Resting}

theorem WF.queues_remove (h : b.WF) (hs : b.queues k = xs ++ o :: ys) :
    (b.remove o.id).queues = update b.queues k (xs ++ ys) := by
  obtain ⟨hxs, hys, hother⟩ := h.queues.ne_of_split hs
  have hfilter : ∀ k', (b.remove o.id).queues k' = (b.queues k').filter (fun x => x.id ≠ o.id) := by
    intro k'
    unfold PriorityBook.queues queueAt
    rw [side_remove, List.filter_filter, List.filter_filter]
    exact List.filter_congr (fun x _ => Bool.and_comm _ _)
  funext k'
  rw [hfilter]
  by_cases hk : k' = k
  · subst hk
    rw [update_self, hs, List.filter_append, List.filter_cons_of_neg (by simp),
      List.filter_eq_self.mpr (by simpa using hxs), List.filter_eq_self.mpr (by simpa using hys)]
  · rw [update_of_ne hk, List.filter_eq_self.mpr (by simpa using hother k' hk)]

theorem WF.queues_setOpen (h : b.WF) (hs : b.queues k = xs ++ o :: ys) (q : Qty) :
    (b.setOpen o.id q).queues =
      update b.queues k (xs ++ { o with openQty := q } :: ys) := by
  obtain ⟨hxs, hys, hother⟩ := h.queues.ne_of_split hs
  have hkeep : ∀ l : List Resting, (∀ x ∈ l, x.id ≠ o.id) →
      l.map (fun x => if x.id = o.id then { x with openQty := q } else x) = l := by
    intro l hl
    refine (List.map_congr_left (fun x hx => ?_)).trans (List.map_id l)
    simp [hl x hx]
  have hmap : ∀ k', (b.setOpen o.id q).queues k' =
      (b.queues k').map (fun x => if x.id = o.id then { x with openQty := q } else x) := by
    intro k'
    unfold PriorityBook.queues queueAt
    rw [side_setOpen, List.filter_map]
    refine congrArg _ (List.filter_congr (fun x _ => ?_))
    simp only [comp_apply]
    split <;> rfl
  funext k'
  rw [hmap]
  by_cases hk : k' = k
  · subst hk
    rw [update_self, hs, List.map_append, List.map_cons, hkeep xs hxs, hkeep ys hys]
    simp
  · rw [update_of_ne hk, hkeep _ (hother k' hk)]

end split

/-! ## Section 2: What is read off the queues -/

section read

variable {b : PriorityBook} {s : Side} {p : Price}

variable {o : Resting}

theorem WF.lookup_queues (h : b.WF) {id : OrderId} :
    b.lookup id = some (s, o) ↔ o ∈ b.queues (s, o.price) ∧ o.id = id := by
  rw [h.lookup_iff, mem_queues]
  simp

theorem best_eq_none : b.best s = none ↔ ∀ p, b.queues (s, p) = [] := by
  unfold best
  rw [Option.map_eq_none_iff, List.head?_eq_none_iff]
  constructor
  · intro hl p
    rw [queues_eq_nil, hl]
    simp
  · intro hq
    refine List.eq_nil_iff_forall_not_mem.mpr (fun o ho => ?_)
    exact queues_eq_nil.mp (hq o.price) o ho rfl

/-- The best price is the price of the best queue that is not empty. -/
theorem WF.best_eq_some (h : b.WF) : b.best s = some p ↔
    b.queues (s, p) ≠ [] ∧ ∀ p', b.queues (s, p') ≠ [] → p' = p ∨ s.ahead p p' := by
  have hfwd : ∀ p, b.best s = some p →
      b.queues (s, p) ≠ [] ∧ ∀ p', b.queues (s, p') ≠ [] → p' = p ∨ s.ahead p p' := by
    intro p hb
    unfold best at hb
    obtain ⟨o, ho, rfl⟩ := Option.map_eq_some_iff.mp hb
    obtain ⟨l, hl⟩ := List.head?_eq_some_iff.mp ho
    refine ⟨queues_ne_nil.mpr ⟨o, by simp [hl], rfl⟩, fun p' hp' => ?_⟩
    obtain ⟨x, hx, rfl⟩ := queues_ne_nil.mp hp'
    have hs := (h.sides s).sorted
    rw [hl] at hs hx
    exact head_best hs hx
  refine ⟨hfwd p, fun ⟨hne, hmin⟩ => ?_⟩
  cases hb : b.best s with
  | none => exact absurd (best_eq_none.mp hb p) hne
  | some p' =>
    obtain ⟨hne', hmin'⟩ := hfwd p' hb
    rcases hmin p' hne' with rfl | h₁
    · rfl
    · rcases hmin' p hne with rfl | h₂
      · rfl
      · exact absurd (s.ahead_trans h₁ h₂) (s.ahead_irrefl p)

/-- The best queue starts with the head of the side. -/
theorem head_of_best {q : List Resting} (hb : b.best s = some p) (hq : b.queues (s, p) = o :: q) :
    ∃ l, b.side s = o :: l := by
  unfold best at hb
  obtain ⟨x, hx, rfl⟩ := Option.map_eq_some_iff.mp hb
  obtain ⟨l, hl⟩ := List.head?_eq_some_iff.mp hx
  have : b.queues (s, x.price) = x :: queueAt Resting.price x.price l := by
    unfold PriorityBook.queues
    rw [hl, queueAt_cons_self l rfl]
  rw [this] at hq
  exact ⟨l, (List.cons.inj hq).1 ▸ hl⟩

/-- One execution against the best level: the head of its queue is reduced or
    leaves, and the level stays the best one until it is empty. -/
theorem WF.level_step (h : b.WF) (id : OrderId) (qty : Qty) {q : List Resting}
    (hb : b.best s.opposite = some p) (hq : b.queues (s.opposite, p) = o :: q) :
    (b.applyEvent (.executed (b.execution id s o qty))).queues =
        update b.queues (s.opposite, p) (headLeft o q (b.execution id s o qty).qty) ∧
      (headLeft o q (b.execution id s o qty).qty ≠ [] →
        (b.applyEvent (.executed (b.execution id s o qty))).best s.opposite = some p) := by
  obtain ⟨l, hl⟩ := head_of_best hb hq
  have ho : o ∈ b.side s.opposite := by rw [hl]; exact List.mem_cons_self
  have hq' : b.queues (s.opposite, p) = [] ++ o :: q := hq
  have hqueues : (b.applyEvent (.executed (b.execution id s o qty))).queues =
      update b.queues (s.opposite, p) (headLeft o q (b.execution id s o qty).qty) := by
    simp only [PriorityBook.applyEvent, queues_matchId, headLeft]
    rw [show (b.execution id s o qty).restingId = o.id from rfl, h.reduce_of_mem ho]
    split
    · exact h.queues_remove hq'
    · exact h.queues_setOpen hq' _
  refine ⟨hqueues, fun hne => ?_⟩
  have hwf : (b.applyEvent (.executed (b.execution id s o qty))).WF := by
    simp only [PriorityBook.applyEvent]
    exact wf_of_matchId (h.reduce _ _) _
  refine hwf.best_eq_some.mpr ⟨by simpa [hqueues] using hne, fun p' hp' => ?_⟩
  by_cases heq : p' = p
  · exact Or.inl heq
  · rw [hqueues, update_of_ne (by simpa using heq)] at hp'
    exact (h.best_eq_some.mp hb).2 p' hp'

/-- The total open quantity of a queue, modulo 2^32. -/
def total (q : List Resting) : Qty := (q.map Resting.openQty).sum

@[simp] theorem total_nil : total [] = 0 := rfl

@[simp] theorem total_cons (o : Resting) (q : List Resting) :
    total (o :: q) = o.openQty + total q := by
  simp [total]

@[simp] theorem total_append (q r : List Resting) : total (q ++ r) = total q + total r := by
  simp [total]

/-- `matchable`, summed level by level over any list of distinct prices that
    has every crossing price at which orders rest. -/
theorem matchable_eq {limit : Price} {ps : List Price} (hnd : ps.Nodup)
    (hcross : ∀ p ∈ ps, crosses s limit p)
    (hcov : ∀ p, b.queues (s.opposite, p) ≠ [] → crosses s limit p → p ∈ ps) :
    (ps.map (fun p => total (b.queues (s.opposite, p)))).sum = b.matchable s limit := by
  have hkeys : ∀ o ∈ (b.side s.opposite).filter (fun o => crosses s limit o.price),
      o.price ∈ ps := by
    intro o ho
    obtain ⟨ho, hc⟩ := List.mem_filter.mp ho
    exact hcov o.price (queues_ne_nil.mpr ⟨o, ho, rfl⟩) (by simpa using hc)
  unfold matchable
  rw [← sum_queues Resting.openQty hnd hkeys]
  refine congrArg List.sum (List.map_congr_left (fun p hp => ?_))
  unfold total PriorityBook.queues queueAt
  rw [List.filter_filter]
  refine congrArg (fun l => (List.map Resting.openQty l).sum) (List.filter_congr (fun o _ => ?_))
  by_cases ho : o.price = p
  · simp [ho, hcross p hp]
  · simp [ho]

def snapshotQueue (q : List Resting) : List SnapshotOrder := q.map (fun o => ⟨o.id, o.openQty⟩)

/-- An ordered map that holds, at each price, the queue of that price has the
    snapshot of the side. -/
theorem snapshotSide_eq {m : List (Price × List SnapshotOrder)}
    (hs : SortedMap.Sorted s.ahead m)
    (hm : ∀ p, SortedMap.find m p =
      if b.queues (s, p) = [] then none else some (snapshotQueue (b.queues (s, p)))) :
    m.map (fun e => ⟨e.1, e.2⟩) = snapshotSide s (b.side s) := by
  have heq : m = (levels s.ahead Resting.price (b.side s)).map
      (fun e => (e.1, snapshotQueue e.2)) := by
    refine SortedMap.ext_sorted hs (SortedMap.sorted_map _ (sorted_levels _))
      (fun p => ?_)
    rw [SortedMap.find_map, find_levels, hm p]
    unfold PriorityBook.queues
    split <;> simp
  rw [heq, snapshotSide, List.map_map]
  rfl

end read

end PriorityBook

/-! ## Section 3: Queues with places

    Both books of the source keep an order at a place, the address of a list
    node or a slot of a pool. -/

/-- For each side and price, the orders with their places. -/
abbrev Nodes := Side × Price → List (Nat × Resting)

/-- The queues without the places. -/
def queuesOf (N : Nodes) : Queues := fun k => (N k).map Prod.snd

theorem queuesOf_update (N : Nodes) (k : Side × Price) (n : List (Nat × Resting)) :
    queuesOf (update N k n) = update (queuesOf N) k (n.map Prod.snd) := by
  funext k'
  unfold queuesOf
  by_cases h : k' = k
  · subst h; simp
  · simp [update_of_ne h]

/-- What is left of a queue when its head is executed against. -/
def nodeLeft (e : Nat × Resting) (n : List (Nat × Resting)) (exec : Qty) : List (Nat × Resting) :=
  if e.2.openQty - exec = 0 then n else (e.1, { e.2 with openQty := e.2.openQty - exec }) :: n

theorem map_nodeLeft (e : Nat × Resting) (n : List (Nat × Resting)) (exec : Qty) :
    (nodeLeft e n exec).map Prod.snd = PriorityBook.headLeft e.2 (n.map Prod.snd) exec := by
  unfold nodeLeft PriorityBook.headLeft
  split <;> rfl

theorem place_nodeLeft (e : Nat × Resting) (n : List (Nat × Resting)) (exec : Qty) :
    ((nodeLeft e n exec).map Prod.fst).Sublist ((e :: n).map Prod.fst) := by
  unfold nodeLeft
  split
  · exact List.sublist_cons_self _ _
  · exact List.Sublist.refl _

/-- One iteration of a loop over the best level, seen from both sides: the
    abstract book goes from `a` to `a'` by the execution `x`, and the level at
    `p` from `N` to `N'`. -/
structure NodeStep (id : OrderId) (s : Side) (limit p : Price) (a : PriorityBook) (qty : Qty)
    (x : ExecutedEvent) (N' : Nodes) (a' : PriorityBook) : Prop where
  wf : a'.WF
  queues : a'.queues = queuesOf N'
  best : N' (s.opposite, p) ≠ [] → a'.best s.opposite = some p
  nextMatchId : a'.nextMatchId = a.nextMatchId + 1
  lt : (qty - x.qty).toNat < qty.toNat
  walks : ∀ {es : List ExecutedEvent} {b : PriorityBook} {left : Qty},
    PriorityBook.Walks id s limit a' (qty - x.qty) es b left →
      PriorityBook.Walks id s limit a qty (x :: es) b left

theorem PriorityBook.WF.node_step {a : PriorityBook} (h : a.WF) {N : Nodes}
    (hN : a.queues = queuesOf N)
    (id : OrderId) {s : Side} {limit p : Price} {e : Nat × Resting} {n : List (Nat × Resting)}
    (hn : N (s.opposite, p) = e :: n) (hb : a.best s.opposite = some p) (hc : crosses s limit p)
    {qty : Qty} (hq : qty ≠ 0) {exec : Qty}
    (hexec : (if qty < e.2.openQty then qty else e.2.openQty) = exec) :
    ∃ a', NodeStep id s limit p a qty ⟨e.2.id, id, s, e.2.price, exec, a.nextMatchId⟩
      (update N (s.opposite, p) (nodeLeft e n exec)) a' := by
  have hqueue : a.queues (s.opposite, p) = e.2 :: n.map Prod.snd := by
    rw [hN]; simp [queuesOf, hn]
  have hprice : e.2.price = p := h.queues.price (s.opposite, p) e.2 (by simp [hqueue])
  obtain ⟨l, hl⟩ := head_of_best hb hqueue
  obtain ⟨hqueues', hbest'⟩ := h.level_step id qty hb hqueue
  have hx : a.execution id s e.2 qty = ⟨e.2.id, id, s, e.2.price, exec, a.nextMatchId⟩ := by
    rw [← hexec]; rfl
  have hqx : (a.execution id s e.2 qty).qty = exec := hexec
  rw [hqx] at hqueues' hbest'
  refine ⟨a.applyEvent (.executed (a.execution id s e.2 qty)),
    h.applyEvent (h.enabled_execution hl hq), ?_, fun hne => ?_, rfl, ?_, fun hw => ?_⟩
  · rw [hqueues', queuesOf_update, map_nodeLeft, hN]
  · rw [update_self] at hne
    refine hbest' (fun h0 => hne ?_)
    rw [← map_nodeLeft] at h0
    simpa using h0
  · have hlt : (qty - (a.execution id s e.2 qty).qty).toNat < qty.toNat := h.execution_lt hl hq
    rwa [hqx] at hlt
  · rw [← hx]
    refine .step hl hq (by rw [hprice]; exact hc) ?_
    rwa [hqx]

/-- The order `id` is in the queue `k` at place `i`. -/
def Located (N : Nodes) (id : OrderId) (k : Side × Price) (i : Nat) : Prop :=
  ∃ o, (i, o) ∈ N k ∧ o.id = id

section located

variable {N : Nodes} {k k' : Side × Price} {id : OrderId} {i : Nat} {e : Nat × Resting}
  {xs ys : List (Nat × Resting)}

theorem located_remove (hQ : QueuesWF (queuesOf N)) (hs : N k = xs ++ e :: ys) :
    Located (update N k (xs ++ ys)) id k' i ↔ id ≠ e.2.id ∧ Located N id k' i := by
  have hso : queuesOf N k = xs.map Prod.snd ++ e.2 :: ys.map Prod.snd := by simp [queuesOf, hs]
  obtain ⟨hxs, hys, hother⟩ := hQ.ne_of_split hso
  unfold Located
  by_cases hk : k' = k
  · subst hk
    rw [update_self, hs]
    constructor
    · rintro ⟨o, ho, rfl⟩
      rcases List.mem_append.mp ho with ho | ho
      · exact ⟨hxs o (List.mem_map_of_mem ho), o, by simp [ho], rfl⟩
      · exact ⟨hys o (List.mem_map_of_mem ho), o, by simp [ho], rfl⟩
    · rintro ⟨hne, o, ho, rfl⟩
      have hne' : (i, o) ≠ e := fun heq => hne (by rw [← heq])
      exact ⟨o, by simpa [hne'] using ho, rfl⟩
  · rw [update_of_ne hk]
    refine ⟨fun ⟨o, ho, hid⟩ => ⟨hid ▸ hother k' hk o (List.mem_map_of_mem ho), o, ho, hid⟩,
      fun h => h.2⟩

theorem located_setOpen (hs : N k = xs ++ e :: ys) (q : Qty) :
    Located (update N k (xs ++ (e.1, { e.2 with openQty := q }) :: ys)) id k' i ↔
      Located N id k' i := by
  unfold Located
  by_cases hk : k' = k
  · subst hk
    rw [update_self, hs]
    constructor
    · rintro ⟨o, ho, rfl⟩
      rcases List.mem_append.mp ho with ho | ho
      · exact ⟨o, by simp [ho], rfl⟩
      rcases List.mem_cons.mp ho with heq | ho
      · obtain ⟨rfl, rfl⟩ := Prod.mk.inj heq
        exact ⟨e.2, by simp, rfl⟩
      · exact ⟨o, by simp [ho], rfl⟩
    · rintro ⟨o, ho, rfl⟩
      rcases List.mem_append.mp ho with ho | ho
      · exact ⟨o, by simp [ho], rfl⟩
      rcases List.mem_cons.mp ho with rfl | ho
      · exact ⟨{ o with openQty := q }, by simp, rfl⟩
      · exact ⟨o, by simp [ho], rfl⟩
  · rw [update_of_ne hk]

theorem located_append (i₀ : Nat) (o : Resting) :
    Located (update N k (N k ++ [(i₀, o)])) id k' i ↔
      Located N id k' i ∨ id = o.id ∧ k' = k ∧ i = i₀ := by
  unfold Located
  by_cases hk : k' = k
  · subst hk
    rw [update_self]
    constructor
    · rintro ⟨o', ho', rfl⟩
      rcases List.mem_append.mp ho' with ho' | ho'
      · exact Or.inl ⟨o', ho', rfl⟩
      · obtain ⟨rfl, rfl⟩ := Prod.mk.inj (List.mem_singleton.mp ho')
        exact Or.inr ⟨rfl, rfl, rfl⟩
    · rintro (⟨o', ho', rfl⟩ | ⟨rfl, -, rfl⟩)
      · exact ⟨o', by simp [ho'], rfl⟩
      · exact ⟨o, by simp, rfl⟩
  · rw [update_of_ne hk]
    simp [hk]

end located

end MatchingEngine
