import MatchingEngine.Book.OrderBook

/-! # The reference book implements the priority book

    The reference book is seen through its queues: for each side and price, the
    orders of the level together with the addresses of their list nodes
    (`Nodes`). `Rep b N` says that the book `b` stores exactly `N`; the abstract
    book has the same queues without the addresses.

    The operations are shown correct bottom up: what a change of one level does
    to `Rep` (`Rep.update`, with three index lemmas), the two loops of `match`,
    then `add`, `cancel` and `replace`.
-/

namespace MatchingEngine

namespace OrderBook

open SortedMap Function
open PriorityBook (total)

variable {b : OrderBook} {s : Side} {p limit : Price} {fuel : Nat} {a : PriorityBook}

/-! ## Section 1: Representation -/

def node (s : Side) (e : Nat × Resting) : Node := ⟨e.1, ⟨e.2.id, s, e.2.price, e.2.openQty⟩⟩

def levelOf (s : Side) (n : List (Nat × Resting)) : Level :=
  { total := total (n.map Prod.snd), orders := n.map (node s) }

/-- Levels without orders are not stored. -/
def entry (s : Side) (n : List (Nat × Resting)) : Option Level :=
  if n = [] then none else some (levelOf s n)

/-- The index has a handle for exactly the stored orders. -/
def IndexRep (index : Index) (N : Nodes) : Prop :=
  ∀ id h, index.lookup id = some h ↔ Located N id (h.side, h.price) h.it

structure Rep (b : OrderBook) (N : Nodes) : Prop where
  sorted : ∀ s, Sorted s.ahead (b.side s)
  level : ∀ s p, find (b.side s) p = entry s (N (s, p))
  index : IndexRep b.index N
  addr_nodup : ∀ k, ((N k).map Prod.fst).Nodup
  addr_lt : ∀ k, ∀ e ∈ N k, e.1 < b.nextNode

/-- **The refinement relation** between the reference book and the priority
    book. -/
structure Models (b : OrderBook) (a : PriorityBook) : Prop where
  wf : a.WF
  rep : ∃ N, Rep b N ∧ a.queues = queuesOf N
  nextMatchId : b.nextMatchId = a.nextMatchId

@[simp] theorem side_setSide_self (b : OrderBook) (s : Side) (m : List (Price × Level)) :
    (b.setSide s m).side s = m := by
  cases s <;> rfl

@[simp] theorem side_setSide_opposite (b : OrderBook) (s : Side) (m : List (Price × Level)) :
    (b.setSide s m).side s.opposite = b.side s.opposite := by
  cases s <;> rfl

@[simp] theorem nextNode_setSide (b : OrderBook) (s : Side) (m : List (Price × Level)) :
    (b.setSide s m).nextNode = b.nextNode := by
  cases s <;> rfl

@[simp] theorem nextMatchId_setSide (b : OrderBook) (s : Side) (m : List (Price × Level)) :
    (b.setSide s m).nextMatchId = b.nextMatchId := by
  cases s <;> rfl

@[simp] theorem side_with (b : OrderBook) (s : Side) (i : Index) (m n : Nat) :
    ({ b with index := i, nextMatchId := m, nextNode := n } : OrderBook).side s = b.side s := by
  cases s <;> rfl

/-- Changing the level at one side and price. -/
theorem Rep.update {N : Nodes} (h : Rep b N) {n : List (Nat × Resting)} {m : List (Price × Level)}
    {index : Index} {next nextMatchId : Nat} (hs : Sorted s.ahead m)
    (hm : ∀ p', find m p' = if p' = p then entry s n else find (b.side s) p')
    (hi : IndexRep index (update N (s, p) n)) (hnd : (n.map Prod.fst).Nodup)
    (hlt : ∀ e ∈ n, e.1 < next) (hle : b.nextNode ≤ next) :
    Rep { b.setSide s m with index := index, nextMatchId := nextMatchId, nextNode := next }
      (update N (s, p) n) := by
  refine ⟨fun t => ?_, fun t p' => ?_, hi, fun k => ?_, fun k e he => ?_⟩
  · rcases Side.eq_or_eq_opposite t s with rfl | rfl
    · simpa using hs
    · simpa using h.sorted s.opposite
  · rcases Side.eq_or_eq_opposite t s with rfl | rfl
    · rw [side_with, side_setSide_self, hm p']
      by_cases hp : p' = p
      · subst hp; simp
      · rw [if_neg hp, update_of_ne (by simpa using hp), h.level]
    · rw [side_with, side_setSide_opposite, h.level,
        update_of_ne (by simp [Side.opposite_ne])]
  · by_cases hk : k = (s, p)
    · subst hk; simpa using hnd
    · simpa [update_of_ne hk] using h.addr_nodup k
  · by_cases hk : k = (s, p)
    · subst hk
      exact hlt e (by simpa using he)
    · rw [update_of_ne hk] at he
      exact lt_of_lt_of_le (h.addr_lt k e he) hle

/-! ### The index -/

section index

variable {index : Index} {N : Nodes} {k : Side × Price} {e : Nat × Resting}
  {xs ys : List (Nat × Resting)}

theorem IndexRep.remove (h : IndexRep index N) (hQ : QueuesWF (queuesOf N))
    (hs : N k = xs ++ e :: ys) :
    IndexRep (index.erase e.2.id) (update N k (xs ++ ys)) := by
  intro id hd
  rw [located_remove hQ hs]
  by_cases hid : id = e.2.id
  · subst hid
    simp
  · rw [Finmap.lookup_erase_ne hid, h id hd]
    simp [hid]

theorem IndexRep.setOpen (h : IndexRep index N) (hs : N k = xs ++ e :: ys) (q : Qty) :
    IndexRep index (update N k (xs ++ (e.1, { e.2 with openQty := q }) :: ys)) := by
  intro id hd
  rw [located_setOpen hs, h id hd]

theorem IndexRep.rest (h : IndexRep index N) {s : Side} {p : Price} {o : Resting} {addr : Nat}
    (hfresh : ∀ k, ∀ e ∈ N k, e.2.id ≠ o.id) :
    IndexRep (emplace index o.id ⟨s, p, addr⟩)
      (update N (s, p) (N (s, p) ++ [(addr, o)])) := by
  have hnot : ∀ k i, ¬ Located N o.id k i := fun k i ⟨o', ho', hid⟩ => hfresh k _ ho' hid
  have hnone : index.lookup o.id = none := by
    cases hl : index.lookup o.id with
    | none => rfl
    | some hd => exact absurd ((h _ _).mp hl) (hnot _ _)
  have hemp : emplace index o.id ⟨s, p, addr⟩ = index.insert o.id ⟨s, p, addr⟩ := by
    simp [emplace, hnone]
  intro id hd
  rw [hemp, located_append]
  by_cases hid : id = o.id
  · subst hid
    rw [Finmap.lookup_insert]
    obtain ⟨hs, hp, hi⟩ := hd
    simp only [hnot, Option.some.injEq, Handle.mk.injEq, Prod.mk.injEq]
    grind
  · rw [Finmap.lookup_insert_of_ne _ hid, h id hd]
    simp [hid]

end index

/-! ## Section 2: Matching -/

/-- What the loop over the level at `p` has done: the level holds `n`, and the
    abstract book has walked from `a` to `a'` by the executions `es`. -/
structure Consumed (id : OrderId) (s : Side) (limit p : Price) (N : Nodes) (a : PriorityBook)
    (qty : Qty) (run : LevelRun) (n : List (Nat × Resting)) (a' : PriorityBook)
    (es : List ExecutedEvent) : Prop where
  level : run.level = levelOf s.opposite n
  index : IndexRep run.index (update N (s.opposite, p) n)
  queues : a'.queues = queuesOf (update N (s.opposite, p) n)
  nextMatchId : run.nextMatchId = a'.nextMatchId
  events : run.events = es.map .executed
  filled : run.filled = qty - run.qty
  walks : PriorityBook.Walks id s limit a qty es a' run.qty
  done : run.qty = 0 ∨ n = []
  addrs : (n.map Prod.fst).Sublist ((N (s.opposite, p)).map Prod.fst)

/-- One iteration of the inner loop, with the two branches of the source as one
    recursive call. -/
theorem matchLevel_succ {id : OrderId} {t : Side} {e : Nat × Resting} {n : List (Nat × Resting)}
    {index : Index} {m : Nat} {qty exec : Qty} (hq : qty ≠ 0)
    (hexec : exec = if qty < e.2.openQty then qty else e.2.openQty) :
    matchLevel id s (fuel + 1) (levelOf t (e :: n)) index m qty =
      (matchLevel id s fuel (levelOf t (nodeLeft e n exec))
        (if e.2.openQty - exec = 0 then index.erase e.2.id else index) (m + 1) (qty - exec)).map
        (fun run => { run with
          filled := exec + run.filled
          events := .executed ⟨e.2.id, id, s, e.2.price, exec, m⟩ :: run.events }) := by
  have hpos : qty > 0 := by grind
  subst hexec
  rw [matchLevel]
  simp only [levelOf, List.map_cons, node, total, List.sum_cons, hpos, if_true, nodeLeft]
  generalize (if qty < e.2.openQty then qty else e.2.openQty) = x
  by_cases hleft : e.2.openQty - x = 0
  · have hx : x = e.2.openQty := by grind
    simp only [hleft, if_true]
    subst hx
    have : e.2.openQty + (List.map Resting.openQty (List.map Prod.snd n)).sum - e.2.openQty =
        (List.map Resting.openQty (List.map Prod.snd n)).sum := by grind
    rw [this]
    cases matchLevel id s fuel _ _ _ _ <;> rfl
  · simp only [hleft, if_false, List.map_cons, node, List.sum_cons]
    have : e.2.openQty + (List.map Resting.openQty (List.map Prod.snd n)).sum - x =
        e.2.openQty - x + (List.map Resting.openQty (List.map Prod.snd n)).sum := by grind
    rw [this]
    cases matchLevel id s fuel _ _ _ _ <;> rfl

theorem matchLevel_spec {id : OrderId} :
    ∀ {a : PriorityBook} {N : Nodes} {index : Index} {qty : Qty}, a.WF → a.queues = queuesOf N →
      IndexRep index N → (N (s.opposite, p) ≠ [] → a.best s.opposite = some p) →
      crosses s limit p → qty.toNat < fuel →
      ∃ run n a' es,
        matchLevel id s fuel (levelOf s.opposite (N (s.opposite, p))) index a.nextMatchId qty =
          some run ∧ Consumed id s limit p N a qty run n a' es := by
  induction fuel with
  | zero => intro _ _ _ qty _ _ _ _ _ hf; omega
  | succ fuel ih =>
    intro a N index qty hwf hN hidx hbest hc hf
    -- the loop ends at once when nothing is wanted or the level is empty
    have hend : qty = 0 ∨ N (s.opposite, p) = [] →
        Consumed id s limit p N a qty
          ⟨levelOf s.opposite (N (s.opposite, p)), index, a.nextMatchId, qty, 0, []⟩
          (N (s.opposite, p)) a [] := fun hdone =>
      { level := rfl
        index := by rwa [update_eq_self]
        queues := by rwa [update_eq_self]
        nextMatchId := rfl
        events := rfl
        filled := by simp
        walks := .refl a qty
        done := hdone
        addrs := List.Sublist.refl _ }
    cases hn : N (s.opposite, p) with
    | nil =>
      refine ⟨_, _, _, _, ?_, hn ▸ hend (Or.inr hn)⟩
      simp [matchLevel, levelOf]
    | cons e n =>
      by_cases hq : qty = 0
      · refine ⟨_, _, _, _, ?_, hn ▸ hend (Or.inl hq)⟩
        simp [matchLevel, levelOf, hq]
      · generalize hexec : (if qty < e.2.openQty then qty else e.2.openQty) = exec
        obtain ⟨a₁, hstep⟩ :=
          hwf.node_step hN id hn (hbest (by rw [hn]; exact List.cons_ne_nil e n)) hc hq hexec
        have hidx' : IndexRep (if e.2.openQty - exec = 0 then index.erase e.2.id else index)
            (update N (s.opposite, p) (nodeLeft e n exec)) := by
          have hn' : N (s.opposite, p) = [] ++ e :: n := hn
          unfold nodeLeft
          split
          · exact hidx.remove (hN ▸ hwf.queues) hn'
          · exact hidx.setOpen hn' _
        have hfuel : (qty - exec).toNat < fuel := by
          have : (qty - exec).toNat < qty.toNat := hstep.lt
          omega
        obtain ⟨run, n', a', es, hrun, hcons⟩ :=
          ih hstep.wf hstep.queues hidx' hstep.best hc hfuel
        rw [update_self, hstep.nextMatchId] at hrun
        refine ⟨{ run with
            filled := exec + run.filled
            events := .executed ⟨e.2.id, id, s, e.2.price, exec, a.nextMatchId⟩ :: run.events },
          n', a', ⟨e.2.id, id, s, e.2.price, exec, a.nextMatchId⟩ :: es, ?_, ?_⟩
        · rw [matchLevel_succ hq hexec.symm, hrun]
          rfl
        · refine ⟨hcons.level, ?_, ?_, hcons.nextMatchId, ?_, ?_, hstep.walks hcons.walks,
            hcons.done, ?_⟩
          · simpa using hcons.index
          · simpa using hcons.queues
          · simp [hcons.events]
          · simp only [hcons.filled]
            grind
          · have := hcons.addrs
            rw [update_self] at this
            exact this.trans (hn ▸ place_nodeLeft e n exec)

theorem Rep.queue_nil_iff {N : Nodes} (h : Rep b N) :
    find (b.side s) p = none ↔ N (s, p) = [] := by
  rw [h.level, entry]
  split <;> simp_all

theorem Models.best (h : Models b a) (s : Side) : b.best s = a.best s := by
  obtain ⟨N, hrep, hN⟩ := h.rep
  have hqueue : ∀ p, find (b.side s) p = none ↔ a.queues (s, p) = [] := by
    intro p
    rw [hrep.queue_nil_iff, hN]
    simp [queuesOf]
  unfold OrderBook.best
  cases hm : b.side s with
  | nil =>
    rw [hm] at hqueue
    exact (PriorityBook.best_eq_none.mpr (fun p => (hqueue p).mp rfl)).symm
  | cons e m =>
    obtain ⟨p, level⟩ := e
    have hs := hrep.sorted s
    rw [hm] at hs hqueue
    refine (h.wf.best_eq_some.mpr ⟨fun h0 => ?_, fun p' hp' => ?_⟩).symm
    · simpa [find_cons] using (hqueue p).mpr h0
    · obtain ⟨level', hl'⟩ := Option.ne_none_iff_exists'.mp (fun h0 => hp' ((hqueue p').mp h0))
      exact head_least hs hl'

/-- The map after the best level was walked: without the level, or with what is
    left of it. -/
theorem find_after {level : Level} {rest : List (Price × Level)}
    (hs : Sorted s.ahead ((p, level) :: rest)) (n : List (Nat × Resting)) :
    Sorted s.ahead
        (if (levelOf s n).orders = [] then rest else (p, levelOf s n) :: rest) ∧
      ∀ p', find (if (levelOf s n).orders = [] then rest else (p, levelOf s n) :: rest) p' =
        if p' = p then entry s n else find ((p, level) :: rest) p' := by
  have hnil : (levelOf s n).orders = [] ↔ n = [] := by simp [levelOf]
  obtain ⟨hhead, htail⟩ := List.pairwise_cons.mp hs
  by_cases hn : n = []
  · rw [if_pos (hnil.mpr hn)]
    refine ⟨htail, fun p' => ?_⟩
    by_cases hp : p' = p
    · rw [if_pos hp, hp, sorted_cons_find hs]
      simp [entry, hn]
    · rw [if_neg hp, find_cons, if_neg hp]
  · rw [if_neg (fun h => hn (hnil.mp h))]
    refine ⟨List.pairwise_cons.mpr ⟨hhead, htail⟩, fun p' => ?_⟩
    rw [find_cons, find_cons]
    split
    · simp [entry, hn]
    · rfl

/-- One iteration of the outer loop: the best level is walked and written
    back. -/
theorem Models.matchLevel (h : Models b a) (id : OrderId) {qty : Qty} {level : Level}
    {rest : List (Price × Level)} (hm : b.side s.opposite = (p, level) :: rest)
    (hc : crosses s limit p) (hq : qty ≠ 0) :
    ∃ run a' es, OrderBook.matchLevel id s (qty.toNat + 1) level b.index b.nextMatchId qty =
      some run ∧ PriorityBook.Walks id s limit a qty es a' run.qty ∧ run.events = es.map .executed ∧
      run.filled = qty - run.qty ∧ run.qty.toNat < qty.toNat ∧
      Models { b.setSide s.opposite
          (if run.level.orders = [] then rest else (p, run.level) :: rest) with
        index := run.index, nextMatchId := run.nextMatchId } a' := by
  obtain ⟨N, hrep, hN⟩ := h.rep
  have hbest : a.best s.opposite = some p := by
    rw [← h.best, OrderBook.best, hm]
    rfl
  have hlevel : entry s.opposite (N (s.opposite, p)) = some level := by
    rw [← hrep.level, hm]
    simp [find_cons]
  have hne : N (s.opposite, p) ≠ [] := fun h0 => by simp [entry, h0] at hlevel
  obtain rfl : levelOf s.opposite (N (s.opposite, p)) = level := by
    simpa [entry, hne] using hlevel
  obtain ⟨run, n, a', es, hrun, hcons⟩ := matchLevel_spec h.wf hN hrep.index
    (fun _ => hbest) hc (Nat.lt_succ_self qty.toNat)
  have hs := hrep.sorted s.opposite
  rw [hm] at hs
  obtain ⟨hs', hfind⟩ := find_after hs n
  rw [← h.nextMatchId] at hrun
  refine ⟨run, a', es, hrun, hcons.walks, hcons.events, hcons.filled, ?_, ?_⟩
  · rcases hcons.walks.eq_or_lt h.wf with ⟨heq, hqe⟩ | hlt
    · -- a walk that stood still would have left the level or the order as it was
      exfalso
      rcases hcons.done with h0 | h0
      · exact hq (hqe.trans h0)
      · have hemp : a'.queues (s.opposite, p) = [] := by simp [hcons.queues, queuesOf, h0]
        rw [← heq, hN] at hemp
        exact hne (by simpa [queuesOf] using hemp)
    · exact hlt
  · refine ⟨hcons.walks.wf h.wf, ⟨_, ?_, hcons.queues⟩, hcons.nextMatchId⟩
    rw [← hm] at hfind
    rw [hcons.level]
    refine hrep.update hs' hfind hcons.index ?_ (fun e he => ?_) (by simp)
    · exact (hrep.addr_nodup _).sublist hcons.addrs
    · obtain ⟨e', he', heq⟩ := List.mem_map.mp (hcons.addrs.subset (List.mem_map_of_mem he))
      rw [nextNode_setSide, ← heq]
      exact hrep.addr_lt _ e' he'

theorem matchLoop_spec {id : OrderId} :
    ∀ {b : OrderBook} {a : PriorityBook} {qty : Qty}, Models b a → qty.toNat < fuel →
      ∃ b' a' qty' es, matchLoop id s limit fuel b qty =
          some (b', qty - qty', es.map .executed) ∧
        PriorityBook.Walks id s limit a qty es a' qty' ∧ Models b' a' ∧
        (qty' = 0 ∨ ∀ o ∈ (a'.side s.opposite).head?, ¬ crosses s limit o.price) := by
  induction fuel with
  | zero => intro _ _ _ _ hf; omega
  | succ fuel ih =>
    intro b a qty h hf
    -- the loop stops in the book it is in
    have hstop : (qty = 0 ∨ ∀ p ∈ b.best s.opposite, ¬ crosses s limit p) →
        matchLoop id s limit (fuel + 1) b qty = some (b, 0, []) →
        ∃ b' a' qty' es, matchLoop id s limit (fuel + 1) b qty =
          some (b', qty - qty', es.map .executed) ∧
        PriorityBook.Walks id s limit a qty es a' qty' ∧ Models b' a' ∧
        (qty' = 0 ∨ ∀ o ∈ (a'.side s.opposite).head?, ¬ crosses s limit o.price) := by
      intro hdone heq
      refine ⟨b, a, qty, [], by simpa using heq, .refl a qty, h,
        hdone.imp_right (fun hn o ho => ?_)⟩
      refine hn o.price ?_
      rw [h.best]
      simp [PriorityBook.best, Option.mem_def.mp ho]
    by_cases hq : qty = 0
    · exact hstop (Or.inl hq) (by simp [matchLoop, hq])
    have hpos : qty > 0 := by grind
    cases hm : b.side s.opposite with
    | nil => exact hstop (Or.inr (by simp [OrderBook.best, hm])) (by simp [matchLoop, hm])
    | cons e rest =>
      obtain ⟨p, level⟩ := e
      by_cases hc : crosses s limit p
      · obtain ⟨run, a₁, es₁, hrun, hwalks, hevents, hfilled, hlt, hmodels⟩ :=
          h.matchLevel id hm hc hq
        have hfuel : run.qty.toNat < fuel := by omega
        obtain ⟨b', a', qty', es, hloop, hwalks', hmodels', hdone⟩ := ih hmodels hfuel
        refine ⟨b', a', qty', es₁ ++ es, ?_, hwalks.trans hwalks', hmodels', hdone⟩
        rw [matchLoop]
        simp only [hpos, if_true, hm, hc, hrun, hloop, Option.bind_eq_bind, Option.bind_some,
          hfilled, hevents, List.map_append, Option.some.injEq, Prod.mk.injEq, true_and, and_true]
        grind
      · exact hstop (Or.inr (by simpa [OrderBook.best, hm] using hc)) (by simp [matchLoop, hm, hc])

/-- `match` is the `executeIoc` of the priority book. -/
theorem Models.matchOrder (h : Models b a) (id : OrderId) (s : Side) (limit : Price) (qty : Qty) :
    ∃ b', b.matchOrder id s limit qty = some (b', (a.executeIoc id s limit qty).2) ∧
      Models b' (a.executeIoc id s limit qty).1 := by
  obtain ⟨b', a', qty', es, hloop, hwalks, hmodels, hdone⟩ :=
    matchLoop_spec h (Nat.lt_succ_self qty.toNat)
  rw [hwalks.executeIoc h.wf hdone]
  exact ⟨b', hloop, hmodels⟩

/-! ## Section 3: Resting, removing and reducing -/

section operations

variable {b : OrderBook} {a : PriorityBook}

variable {id : OrderId}

theorem levelOf_append (s : Side) (n : List (Nat × Resting)) (e : Nat × Resting) :
    levelOf s (n ++ [e]) =
      { total := (levelOf s n).total + e.2.openQty
        orders := (levelOf s n).orders ++ [node s e] } := by
  simp [levelOf]

theorem getD_entry (s : Side) (n : List (Nat × Resting)) : (entry s n).getD {} = levelOf s n := by
  unfold entry
  split
  · next h => subst h; rfl
  · rfl

theorem entry_ne_nil {s : Side} {n : List (Nat × Resting)} (h : n ≠ []) :
    entry s n = some (levelOf s n) := if_neg h

theorem Models.rest (h : Models b a) {s : Side} {price : Price} {qty : Qty}
    (hid : a.contains id = false) (hwf : (a.rest id s price qty).WF) :
    Models (b.rest id s price qty) (a.rest id s price qty) := by
  obtain ⟨N, hrep, hN⟩ := h.rep
  have hfresh : ∀ k, ∀ e ∈ N k, e.2.id ≠ id := by
    intro ⟨t, p⟩ e he
    have hmem : e.2 ∈ a.queues (t, p) := by rw [hN]; exact List.mem_map_of_mem he
    exact PriorityBook.contains_eq_false.mp hid t e.2 (PriorityBook.mem_queues.mp hmem).1
  refine ⟨hwf, ⟨update N (s, price) (N (s, price) ++ [(b.nextNode, ⟨id, price, qty⟩)]),
    ?_, ?_⟩, ?_⟩
  · refine hrep.update (sorted_upsert (hrep.sorted s) _ _ _) (fun p' => ?_)
      (hrep.index.rest (o := ⟨id, price, qty⟩) hfresh) ?_ (fun e he => ?_) (by omega)
    · rw [find_upsert (hrep.sorted s)]
      by_cases hp : p' = price
      · rw [if_pos hp, if_pos hp, entry_ne_nil (by simp), levelOf_append, hrep.level, getD_entry]
        rfl
      · rw [if_neg hp, if_neg hp]
    · rw [List.map_append, List.nodup_append]
      refine ⟨hrep.addr_nodup _, by simp, fun x hx y hy => ?_⟩
      obtain ⟨e, he, rfl⟩ := List.mem_map.mp hx
      simp only [List.map_cons, List.map_nil, List.mem_singleton] at hy
      have := hrep.addr_lt _ e he
      omega
    · rcases List.mem_append.mp he with he | he
      · have := hrep.addr_lt _ e he
        omega
      · simp only [List.mem_singleton] at he
        simp [he]
  · rw [h.wf.queues_rest, hN, queuesOf_update]
    simp [queuesOf]
  · simpa [OrderBook.rest, PriorityBook.rest] using h.nextMatchId

/-- What an index entry points at. -/
theorem Models.lookup_some (h : Models b a) {hd : Handle} (hl : b.index.lookup id = some hd) :
    ∃ N o xs ys, Rep b N ∧ a.queues = queuesOf N ∧ N (hd.side, hd.price) = xs ++ (hd.it, o) :: ys ∧
      o.id = id ∧ o.price = hd.price ∧ a.lookup id = some (hd.side, o) := by
  obtain ⟨N, hrep, hN⟩ := h.rep
  obtain ⟨o, ho, hid⟩ := (hrep.index id hd).mp hl
  obtain ⟨xs, ys, hs⟩ := List.append_of_mem ho
  have hmem : o ∈ a.queues (hd.side, hd.price) := by rw [hN]; exact List.mem_map_of_mem ho
  have hprice : o.price = hd.price := h.wf.queues.price _ o hmem
  exact ⟨N, o, xs, ys, hrep, hN, hs, hid, hprice, h.wf.lookup_queues.mpr ⟨hprice ▸ hmem, hid⟩⟩

theorem Models.lookup_none (h : Models b a) : b.index.lookup id = none ↔ a.lookup id = none := by
  obtain ⟨N, hrep, hN⟩ := h.rep
  constructor
  · intro hl
    cases ha : a.lookup id with
    | none => rfl
    | some e =>
      obtain ⟨s, o⟩ := e
      obtain ⟨ho, hid⟩ := h.wf.lookup_queues.mp ha
      rw [hN] at ho
      obtain ⟨⟨addr, o'⟩, he, rfl⟩ := List.mem_map.mp ho
      have := (hrep.index id ⟨s, o'.price, addr⟩).mpr ⟨o', he, hid⟩
      rw [hl] at this
      cases this
  · intro ha
    cases hl : b.index.lookup id with
    | none => rfl
    | some hd =>
      obtain ⟨_, _, _, _, _, _, _, _, _, hsome⟩ := h.lookup_some hl
      rw [ha] at hsome
      cases hsome

theorem Models.contains (h : Models b a) (id : OrderId) : b.contains id = a.contains id := by
  unfold OrderBook.contains PriorityBook.contains
  rw [Bool.eq_iff_iff, Option.isSome_iff_ne_none, Option.isSome_iff_ne_none, ne_eq, ne_eq,
    h.lookup_none]

section deref

variable {N : Nodes} {hd : Handle} {o : Resting} {xs ys : List (Nat × Resting)}

/-- The node of a handle is the only one of its level with that address. -/
theorem Rep.addr_ne (hrep : Rep b N) (hs : N (hd.side, hd.price) = xs ++ (hd.it, o) :: ys) :
    (∀ e ∈ xs, e.1 ≠ hd.it) ∧ ∀ e ∈ ys, e.1 ≠ hd.it := by
  have hnd := hrep.addr_nodup (hd.side, hd.price)
  rw [hs, List.map_append, List.map_cons, List.nodup_append] at hnd
  obtain ⟨-, hys, hdisj⟩ := hnd
  refine ⟨fun e he => hdisj _ (List.mem_map_of_mem he) _ List.mem_cons_self, fun e he heq => ?_⟩
  have hmem : e.1 ∈ ys.map Prod.fst := List.mem_map_of_mem he
  exact (List.nodup_cons.mp hys).1 (heq ▸ hmem)

theorem Rep.find_level (hrep : Rep b N) (hs : N (hd.side, hd.price) = xs ++ (hd.it, o) :: ys) :
    find (b.side hd.side) hd.price =
      some (levelOf hd.side (xs ++ (hd.it, o) :: ys)) := by
  rw [hrep.level, hs, entry_ne_nil (by simp)]

theorem Rep.deref (hrep : Rep b N) (hs : N (hd.side, hd.price) = xs ++ (hd.it, o) :: ys) :
    b.deref hd = some ⟨o.id, hd.side, o.price, o.openQty⟩ := by
  obtain ⟨hxs, -⟩ := hrep.addr_ne hs
  have hnone : (xs.map (node hd.side)).find? (fun n => n.addr = hd.it) = none := by
    rw [List.find?_eq_none]
    intro n hn
    obtain ⟨e, he, rfl⟩ := List.mem_map.mp hn
    exact fun heq => hxs e he (of_decide_eq_true heq)
  simp [OrderBook.deref, hrep.find_level hs, levelOf, List.find?_append, hnone, node]

/-- Writing a level back, or erasing it when it has no orders left. -/
theorem find_write {s : Side} {m : List (Price × Level)} (hm : Sorted s.ahead m)
    (p : Price) (n : List (Nat × Resting)) :
    Sorted s.ahead
        (if n = [] then erase p m
         else upsert s.ahead p {} (fun _ => levelOf s n) m) ∧
      ∀ p', find
          (if n = [] then erase p m
           else upsert s.ahead p {} (fun _ => levelOf s n) m) p' =
        if p' = p then entry s n else find m p' := by
  by_cases hn : n = []
  · simp only [hn, if_true]
    exact ⟨sorted_erase _ hm, fun p' => find_erase m p p'⟩
  · simp only [hn, if_false]
    refine ⟨sorted_upsert hm _ _ _, fun p' => ?_⟩
    rw [find_upsert hm, entry_ne_nil hn]

/-- The part of a level that an operation on another node leaves alone. -/
theorem map_filter_ne {s : Side} {l : List (Nat × Resting)} {addr : Nat}
    (hl : ∀ e ∈ l, e.1 ≠ addr) :
    (l.map (node s)).filter (fun n => n.addr ≠ addr) = l.map (node s) := by
  refine List.filter_eq_self.mpr (fun n hn => ?_)
  obtain ⟨e, he, rfl⟩ := List.mem_map.mp hn
  exact decide_eq_true (hl e he)

theorem map_set_ne {s : Side} {l : List (Nat × Resting)} {addr : Nat} {q : Qty}
    (hl : ∀ e ∈ l, e.1 ≠ addr) :
    (l.map (node s)).map (fun n =>
      if n.addr = addr then { n with order := { n.order with openQty := q } } else n) =
        l.map (node s) := by
  rw [List.map_map]
  refine List.map_congr_left (fun e he => ?_)
  simp [node, hl e he]

theorem Models.remove (h : Models b a) (hrep : Rep b N) (hN : a.queues = queuesOf N)
    (hs : N (hd.side, hd.price) = xs ++ (hd.it, o) :: ys) :
    ∃ b', b.remove o.id hd = some b' ∧ Models b' (a.remove o.id) := by
  obtain ⟨hxs, hys⟩ := hrep.addr_ne hs
  have hqueue : a.queues (hd.side, hd.price) = xs.map Prod.snd ++ o :: ys.map Prod.snd := by
    rw [hN]; simp [queuesOf, hs]
  -- what is left of the level
  have horders : (levelOf hd.side (xs ++ (hd.it, o) :: ys)).orders.filter
      (fun n => n.addr ≠ hd.it) = (levelOf hd.side (xs ++ ys)).orders := by
    simp only [levelOf, List.map_append, List.map_cons, List.filter_append]
    rw [map_filter_ne hxs, List.filter_cons_of_neg (by simp [node]), map_filter_ne hys]
  have htotal : (levelOf hd.side (xs ++ (hd.it, o) :: ys)).total - o.openQty =
      (levelOf hd.side (xs ++ ys)).total := by
    simp only [levelOf, List.map_append, List.map_cons, PriorityBook.total_append,
      PriorityBook.total_cons]
    grind
  have hsub : (xs ++ ys).Sublist (xs ++ (hd.it, o) :: ys) :=
    (List.Sublist.refl xs).append (List.sublist_cons_self _ _)
  obtain ⟨hsorted, hfind⟩ := find_write (hrep.sorted hd.side) hd.price (xs ++ ys)
  refine ⟨{ b.setSide hd.side
      (if xs ++ ys = [] then erase hd.price (b.side hd.side)
        else upsert hd.side.ahead hd.price {} (fun _ => levelOf hd.side (xs ++ ys))
          (b.side hd.side)) with index := b.index.erase o.id }, ?_, h.wf.remove _,
    ⟨update N (hd.side, hd.price) (xs ++ ys), ?_, ?_⟩, ?_⟩
  · have hnil : (levelOf hd.side (xs ++ ys)).orders = [] ↔ xs ++ ys = [] := by simp [levelOf]
    simp only [OrderBook.remove, hrep.find_level hs, hrep.deref hs, Option.bind_eq_bind,
      Option.bind_some, horders, htotal, hnil]
  · have hQ : QueuesWF (queuesOf N) := hN ▸ h.wf.queues
    have hindex := hrep.index.remove hQ hs
    refine hrep.update hsorted hfind hindex ?_ (fun e he => ?_) (by simp)
    · exact (hs ▸ hrep.addr_nodup (hd.side, hd.price)).sublist (hsub.map _)
    · rw [nextNode_setSide]
      exact hrep.addr_lt _ e (hs ▸ hsub.subset he)
  · rw [h.wf.queues_remove hqueue, queuesOf_update, hN, List.map_append]
  · simpa [PriorityBook.remove] using h.nextMatchId

/-- The partial branch of `cancel`. -/
theorem Models.setOpen (h : Models b a) (hrep : Rep b N) (hN : a.queues = queuesOf N)
    (hs : N (hd.side, hd.price) = xs ++ (hd.it, o) :: ys) {keep : Qty} (hk : keep ≠ 0) :
    Models (b.setSide hd.side (upsert hd.side.ahead hd.price {}
      (fun _ =>
        { total := (levelOf hd.side (xs ++ (hd.it, o) :: ys)).total - (o.openQty - keep)
          orders := (levelOf hd.side (xs ++ (hd.it, o) :: ys)).orders.map (fun n =>
            if n.addr = hd.it then { n with order := { n.order with openQty := keep } } else n) })
      (b.side hd.side))) (a.setOpen o.id keep) := by
  obtain ⟨hxs, hys⟩ := hrep.addr_ne hs
  have hqueue : a.queues (hd.side, hd.price) = xs.map Prod.snd ++ o :: ys.map Prod.snd := by
    rw [hN]; simp [queuesOf, hs]
  have hlevel : (⟨(levelOf hd.side (xs ++ (hd.it, o) :: ys)).total - (o.openQty - keep),
      (levelOf hd.side (xs ++ (hd.it, o) :: ys)).orders.map (fun n =>
        if n.addr = hd.it then { n with order := { n.order with openQty := keep } } else n)⟩ :
          Level) =
        levelOf hd.side (xs ++ (hd.it, { o with openQty := keep }) :: ys) := by
    simp only [levelOf, List.map_append, List.map_cons]
    rw [map_set_ne hxs, map_set_ne hys]
    simp only [PriorityBook.total_append, PriorityBook.total_cons, Level.mk.injEq, node, if_true,
      and_true]
    grind
  obtain ⟨hsorted, hfind⟩ := find_write (hrep.sorted hd.side) hd.price
    (xs ++ (hd.it, { o with openQty := keep }) :: ys)
  simp only [List.append_eq_nil_iff, reduceCtorEq, and_false, if_false] at hsorted hfind
  refine ⟨h.wf.setOpen _ hk, ⟨update N (hd.side, hd.price)
    (xs ++ (hd.it, { o with openQty := keep }) :: ys), ?_, ?_⟩, ?_⟩
  · rw [hlevel]
    have heq : ∀ m, b.setSide hd.side m = { b.setSide hd.side m with
        index := b.index, nextMatchId := b.nextMatchId, nextNode := b.nextNode } := by
      intro m
      cases hd.side <;> rfl
    have haddr : (xs ++ (hd.it, { o with openQty := keep }) :: ys).map Prod.fst =
        (N (hd.side, hd.price)).map Prod.fst := by
      simp [hs]
    rw [heq]
    refine hrep.update hsorted hfind (hrep.index.setOpen hs keep) ?_ (fun e he => ?_) (le_refl _)
    · rw [haddr]
      exact hrep.addr_nodup _
    · have hmem : e.1 ∈ (N (hd.side, hd.price)).map Prod.fst := haddr ▸ List.mem_map_of_mem he
      obtain ⟨e', he', hfst⟩ := List.mem_map.mp hmem
      exact hfst ▸ hrep.addr_lt _ e' he'
  · rw [h.wf.queues_setOpen hqueue, queuesOf_update, hN]
    simp
  · simpa [PriorityBook.setOpen] using h.nextMatchId

end deref

/-! ## Section 4: The operations -/

/-- Matching and resting, as `add` and the crossing `replace` do it. -/
theorem Models.enter (h : Models b a) (s : Side) {price : Price} (qty : Qty)
    (hid : a.contains id = false) (hp : 0 < price) :
    ∃ b₁ filled events, b.matchOrder id s price qty = some (b₁, filled, events) ∧
      (a.enter id s price qty).2.1 = filled ∧
      (a.enter id s price qty).2.2 =
        (if qty - filled > 0 then events ++ [.added ⟨id, s, price, qty - filled⟩] else events) ∧
      Models (if qty - filled > 0 then b₁.rest id s price (qty - filled) else b₁)
        (a.enter id s price qty).1 := by
  obtain ⟨b₁, hmatch, hmodels⟩ := h.matchOrder id s price qty
  refine ⟨b₁, (a.executeIoc id s price qty).2.1, (a.executeIoc id s price qty).2.2, hmatch, ?_⟩
  have hwf := (h.wf.enter_trace s qty hid hp).wf h.wf
  unfold PriorityBook.enter at hwf ⊢
  dsimp only at hwf ⊢
  split
  · next hpos =>
    rw [if_pos hpos] at hwf
    exact ⟨rfl, rfl, hmodels.rest (PriorityBook.contains_afterWalk hid id s price qty) hwf⟩
  · exact ⟨rfl, rfl, hmodels⟩

theorem Models.add (h : Models b a) (id : OrderId) (s : Side) (price : Price) (qty : Qty) :
    ∃ b', b.add id s price qty = some (b', (a.add id s price qty).2) ∧
      Models b' (a.add id s price qty).1 := by
  unfold OrderBook.add PriorityBook.add
  rw [h.contains]
  split
  · exact ⟨b, rfl, h⟩
  split
  · exact ⟨b, rfl, h⟩
  split
  · exact ⟨b, rfl, h⟩
  next hp _ hid =>
  obtain ⟨b₁, filled, events, hmatch, hfilled, hevents, hmodels⟩ :=
    h.enter s qty (Bool.eq_false_iff.mpr hid) (show 0 < price by lia)
  refine ⟨_, ?_, hmodels⟩
  simp only [hmatch, Option.bind_eq_bind, Option.bind_some, hfilled, hevents]
  split <;> rfl

theorem Models.cancel (h : Models b a) (id : OrderId) (keep : Qty) :
    ∃ b', b.cancel id keep = some (b', (a.cancel id keep).2) ∧ Models b' (a.cancel id keep).1 := by
  unfold OrderBook.cancel PriorityBook.cancel
  cases hl : b.index.lookup id with
  | none =>
    rw [h.lookup_none.mp hl]
    exact ⟨b, rfl, h⟩
  | some hd =>
    obtain ⟨N, o, xs, ys, hrep, hN, hs, rfl, hprice, ha⟩ := h.lookup_some hl
    simp only [ha, hrep.deref hs, Option.bind_eq_bind, Option.bind_some]
    split
    · exact ⟨b, rfl, h⟩
    split
    · obtain ⟨b', hremove, hmodels⟩ := h.remove hrep hN hs
      exact ⟨b', by simp [hremove], hmodels⟩
    · next hk =>
      simp only [hrep.find_level hs, Option.bind_some]
      exact ⟨_, rfl, h.setOpen hrep hN hs hk⟩

theorem Models.wouldCross (h : Models b a) (s : Side) (price : Price) :
    b.wouldCross s price = a.wouldCross s price := by
  have hbest := h.best s.opposite
  unfold PriorityBook.wouldCross
  rw [← hbest]
  cases s with
  | buy =>
    cases hm : b.asks with
    | nil => simp [OrderBook.wouldCross, OrderBook.best, OrderBook.side, Side.opposite, hm]
    | cons e m =>
      simp [OrderBook.wouldCross, OrderBook.best, OrderBook.side, Side.opposite, hm, crosses]
  | sell =>
    cases hm : b.bids with
    | nil => simp [OrderBook.wouldCross, OrderBook.best, OrderBook.side, Side.opposite, hm]
    | cons e m =>
      simp [OrderBook.wouldCross, OrderBook.best, OrderBook.side, Side.opposite, hm, crosses]

theorem Models.replace (h : Models b a) (oldId newId : OrderId) (price : Price) (qty : Qty) :
    ∃ b', b.replace oldId newId price qty = some (b', (a.replace oldId newId price qty).2) ∧
      Models b' (a.replace oldId newId price qty).1 := by
  unfold OrderBook.replace PriorityBook.replace
  rw [h.contains]
  cases hl : b.index.lookup oldId with
  | none =>
    rw [h.lookup_none.mp hl]
    exact ⟨b, rfl, h⟩
  | some hd =>
    obtain ⟨N, o, xs, ys, hrep, hN, hs, rfl, hprice, ha⟩ := h.lookup_some hl
    simp only [ha]
    split
    · exact ⟨b, rfl, h⟩
    next hid =>
    split
    · exact ⟨b, rfl, h⟩
    next hargs =>
    simp only [not_or, Bool.not_eq_true] at hid hargs
    obtain ⟨b₁, hremove, h₁⟩ := h.remove hrep hN hs
    have hfresh : (a.remove o.id).contains newId = false := by
      rw [PriorityBook.contains_remove_of_ne hid.1]
      exact hid.2
    simp only [hrep.deref hs, hremove, Option.bind_eq_bind, Option.bind_some]
    rw [h₁.wouldCross]
    split
    · obtain ⟨b₂, filled, events, hmatch, -, hevents, hmodels⟩ :=
        h₁.enter hd.side qty hfresh (show 0 < price by lia)
      refine ⟨_, ?_, hmodels⟩
      simp only [hmatch, Option.bind_some, hevents]
      split <;> rfl
    · next hw =>
      refine ⟨_, rfl, h₁.rest hfresh (h₁.wf.rest hfresh (by lia) hargs.2 ?_)⟩
      exact h₁.wf.not_crosses_of_wouldCross (by simpa using hw)

theorem Models.snapshot (h : Models b a) : b.snapshot = a.snapshot := by
  obtain ⟨N, hrep, hN⟩ := h.rep
  have hside : ∀ s, snapshotLevels (b.side s) = PriorityBook.snapshotSide s (a.side s) := by
    intro s
    rw [← PriorityBook.snapshotSide_eq (sorted_map snapshotOrders (hrep.sorted s)),
      snapshotLevels, List.map_map]
    · rfl
    · intro p
      rw [find_map, hrep.level, hN, entry]
      by_cases h0 : N (s, p) = []
      · simp [queuesOf, h0]
      · simp [queuesOf, h0, levelOf, node, snapshotOrders, PriorityBook.snapshotQueue]
  have hbuy := hside .buy
  have hsell := hside .sell
  simp only [OrderBook.side, PriorityBook.side] at hbuy hsell
  simp [OrderBook.snapshot, PriorityBook.snapshot, hbuy, hsell]

theorem models_empty : Models {} {} where
  wf := PriorityBook.wf_empty
  rep := by
    refine ⟨fun _ => [], ⟨fun s => ?_, fun s p => ?_, fun id hd => ?_, fun k => ?_,
      fun k e he => ?_⟩, ?_⟩
    · cases s <;> simp [OrderBook.side, Sorted]
    · cases s <;> simp [OrderBook.side, entry]
    · simp [Located]
    · simp
    · simp at he
    · funext k
      obtain ⟨s, p⟩ := k
      cases s <;> simp [PriorityBook.queues, PriorityBook.side, queuesOf]
  nextMatchId := rfl

end operations

end OrderBook

end MatchingEngine
