import MatchingEngine.Book.Refinement

/-! # Price-time priority

    A listener that sees the calls and the events, and nothing of the book,
    keeps a `View`: the resting orders in the order of their arrival. `Fair`
    says what such a listener may expect of every execution. The view holds the
    queues of the priority book, so what the priority book does is fair; the
    fast book does the same.
-/

namespace MatchingEngine

/-! ## Section 1: What a listener sees -/

/-- The resting orders with their sides, in order of arrival. -/
abbrev View := List (Side × Resting)

namespace View

/-- What is left of an order after `qty` shares of the order `id` are gone. -/
def lessShares (id : OrderId) (qty : Qty) (o : Resting) : Option Resting :=
  if o.id = id then
    if o.openQty - qty = 0 then none else some { o with openQty := o.openQty - qty }
  else some o

def reduce (v : View) (id : OrderId) (qty : Qty) : View :=
  v.filterMap (fun x => (lessShares id qty x.2).map (fun o => (x.1, o)))

def drop (v : View) (id : OrderId) : View := v.filter (fun x => x.2.id ≠ id)

/-- The view after an event. An order that is added or that replaces another
    one arrives last. -/
def apply (v : View) : BookEvent → View
  | .added e => v ++ [(e.side, ⟨e.id, e.price, e.qty⟩)]
  | .executed e => v.reduce e.restingId e.qty
  | .canceled e => if e.removed then v.drop e.id else v.reduce e.id e.canceledQty
  | .replaced e => v.drop e.oldId ++ [(e.side, ⟨e.newId, e.price, e.qty⟩)]

/-- No order of the side has a better price, or the same price and arrived
    earlier. -/
def IsBest (v : View) (s : Side) (o : Resting) : Prop :=
  ∃ xs ys, v = xs ++ (s, o) :: ys ∧ (∀ x ∈ xs, x.1 = s → s.ahead o.price x.2.price) ∧
    ∀ y ∈ ys, y.1 = s → ¬ s.ahead y.2.price o.price

end View

/-- An incoming order with the quantity it has left. -/
structure Aggressor where
  id : OrderId
  side : Side
  limit : Price
  left : Qty
  deriving DecidableEq, Repr

/-- The aggressor of a call that was accepted. A replacement trades on the side
    of the order it replaces. -/
def aggressor (v : View) : BookOp → Reply → Option Aggressor
  | .add id side price qty, .added ⟨.ok, _, _⟩ => some ⟨id, side, price, qty⟩
  | .executeIoc id side limit qty, _ => some ⟨id, side, limit, qty⟩
  | .replace oldId newId price qty, .flag true =>
    (v.find? (fun x => x.2.id = oldId)).map (fun x => ⟨newId, x.1, price, qty⟩)
  | _, _ => none

structure FairExecution (v : View) (g : Aggressor) (matchId : Nat) (e : ExecutedEvent) : Prop where
  aggressor : e.aggressorId = g.id ∧ e.aggressorSide = g.side
  best : ∃ o, v.IsBest g.side.opposite o ∧ e.restingId = o.id ∧ e.price = o.price ∧
    e.qty.toNat = min g.left.toNat o.openQty.toNat
  limit : crosses g.side g.limit e.price
  qty : 0 < e.qty
  matchId : e.matchId = matchId

/-- The events of one call. When they end with some of the aggressor left over,
    nothing that rests opposite crosses its limit. -/
def FairEvents (v : View) (g : Option Aggressor) (matchId : Nat) : List BookEvent → Prop
  | [] => ∀ a ∈ g, a.left ≠ 0 → ∀ x ∈ v, x.1 = a.side.opposite → ¬ crosses a.side a.limit x.2.price
  | .executed e :: es => ∃ a, g = some a ∧ FairExecution v a matchId e ∧
      FairEvents (v.apply (.executed e)) (some { a with left := a.left - e.qty }) (matchId + 1) es
  | e :: es => FairEvents (v.apply e) g matchId es

def executions (es : List BookEvent) : Nat :=
  es.countP (fun e => match e with
    | .executed _ => true
    | _ => false)

/-- A history of calls with their answers; match ids run on without gaps. -/
def Fair (v : View) (matchId : Nat) : List (BookOp × Answer) → Prop
  | [] => True
  | (op, r, es) :: rest => FairEvents v (aggressor v op r) matchId es ∧
      Fair (es.foldl View.apply v) (matchId + executions es) rest

/-! ## Section 2: The view holds the queues -/

namespace View

def queues (v : View) : Queues :=
  fun k => (v.filter (fun x => x.1 = k.1 ∧ x.2.price = k.2)).map Prod.snd

theorem queues_append (v w : View) (k : Side × Price) :
    (v ++ w).queues k = v.queues k ++ w.queues k := by
  simp [queues]

theorem queues_singleton (s : Side) (o : Resting) (k : Side × Price) :
    queues [(s, o)] k = if k = (s, o.price) then [o] else [] := by
  obtain ⟨t, p⟩ := k
  by_cases h : s = t ∧ o.price = p
  · obtain ⟨rfl, rfl⟩ := h
    simp [queues]
  · rw [if_neg (fun heq => h (by cases heq; exact ⟨rfl, rfl⟩))]
    simp only [queues, List.filter_cons, List.filter_nil]
    rw [if_neg (by simpa using h)]
    rfl

theorem queues_drop (v : View) (id : OrderId) (k : Side × Price) :
    (v.drop id).queues k = (v.queues k).filter (fun o => o.id ≠ id) := by
  simp only [queues, drop, List.filter_filter, List.filter_map]
  congr 1
  exact List.filter_congr (fun x _ => by simp [Bool.and_comm])

theorem lessShares_price {id : OrderId} {qty : Qty} {o o' : Resting}
    (h : lessShares id qty o = some o') : o'.price = o.price := by
  unfold lessShares at h
  split at h
  · split at h <;> cases h
    rfl
  · cases h
    rfl

theorem queues_reduce (v : View) (id : OrderId) (qty : Qty) (k : Side × Price) :
    (v.reduce id qty).queues k = (v.queues k).filterMap (lessShares id qty) := by
  induction v with
  | nil => rfl
  | cons x v ih =>
    obtain ⟨s, o⟩ := x
    have hhead : (reduce [(s, o)] id qty).queues k =
        (queues [(s, o)] k).filterMap (lessShares id qty) := by
      rw [queues_singleton]
      cases hl : lessShares id qty o with
      | none =>
        rw [show reduce [(s, o)] id qty = [] by simp [reduce, hl]]
        split <;> simp [queues, hl]
      | some o' =>
        rw [show reduce [(s, o)] id qty = [(s, o')] by simp [reduce, hl], queues_singleton,
          lessShares_price hl]
        split <;> simp [hl]
    calc (reduce ((s, o) :: v) id qty).queues k
        = (reduce [(s, o)] id qty ++ reduce v id qty).queues k := by
          rw [reduce, ← List.singleton_append, List.filterMap_append]
          rfl
      _ = (queues ([(s, o)] ++ v) k).filterMap (lessShares id qty) := by
          rw [queues_append, queues_append, hhead, ih, List.filterMap_append]

/-- The view holds the queues of the book. -/
def Sees (v : View) (b : PriorityBook) : Prop := b.queues = v.queues

section sees

variable {v : View} {b : PriorityBook}

theorem Sees.mem (h : Sees v b) {s : Side} {o : Resting} : (s, o) ∈ v ↔ o ∈ b.side s := by
  have hk : o ∈ b.queues (s, o.price) ↔ o ∈ v.queues (s, o.price) := by rw [h]
  rw [PriorityBook.mem_queues] at hk
  simp only [and_true] at hk
  rw [hk]
  simp only [queues, List.mem_map, List.mem_filter, decide_eq_true_eq, Prod.exists,
    exists_eq_right]
  simp

/-- The first order of a side is the best one of the view. -/
theorem Sees.isBest (h : Sees v b) (hb : b.WF) {s : Side} {o : Resting} {l : List Resting}
    (hl : b.side s = o :: l) : v.IsBest s o := by
  have hsorted : ∀ x, (s, x) ∈ v → x.price = o.price ∨ s.ahead o.price x.price := by
    intro x hx
    have hmem := h.mem.mp hx
    rw [hl] at hmem
    exact PriorityList.head_best (hl ▸ (hb.sides s).sorted) hmem
  have hq : v.queues (s, o.price) = o :: l.filter (fun x => x.price = o.price) := by
    rw [← h]
    simp [PriorityBook.queues, PriorityList.queueAt, hl]
  simp only [queues, List.map_eq_cons_iff] at hq
  obtain ⟨⟨t, o'⟩, rest, hf, ho, -⟩ := hq
  obtain ⟨xs, ys, hv, hxs, hp, -⟩ := List.filter_eq_cons_iff.mp hf
  simp only [decide_eq_true_eq] at hp ho
  obtain ⟨rfl, -⟩ := hp
  subst ho
  refine ⟨xs, ys, hv, ?_, ?_⟩
  · rintro ⟨t', x⟩ hx rfl
    rcases hsorted x (by simp [hv, hx]) with heq | hlt
    · exact absurd heq (by simpa using hxs _ hx)
    · exact hlt
  · rintro ⟨t', y⟩ hy rfl hlt
    rcases hsorted y (by simp [hv, hy]) with heq | hgt
    · rw [heq] at hlt
      exact Side.ahead_irrefl _ _ hlt
    · exact Side.ahead_irrefl _ _ (Side.ahead_trans _ hlt hgt)

theorem Sees.remove (h : Sees v b) (id : OrderId) : Sees (v.drop id) (b.remove id) := by
  funext ⟨s, p⟩
  rw [queues_drop, ← h]
  simp only [PriorityBook.queues, PriorityList.queueAt, PriorityBook.side_remove,
    List.filter_filter]
  exact List.filter_congr (fun x _ => by simp [Bool.and_comm])

theorem Sees.rest (h : Sees v b) (hb : b.WF) (id : OrderId) (s : Side) (p : Price) (q : Qty) :
    Sees (v ++ [(s, ⟨id, p, q⟩)]) (b.rest id s p q) := by
  funext k
  rw [hb.queues_rest, queues_append, queues_singleton, ← h]
  by_cases hk : k = (s, p)
  · subst hk
    simp
  · simp [hk]

theorem queues_setOpen (b : PriorityBook) (id : OrderId) (q : Qty) (k : Side × Price) :
    (b.setOpen id q).queues k =
      (b.queues k).map (fun o => if o.id = id then { o with openQty := q } else o) := by
  simp only [PriorityBook.queues, PriorityList.queueAt, PriorityBook.side_setOpen, List.filter_map]
  congr 1
  refine List.filter_congr (fun x _ => ?_)
  simp only [Function.comp_apply]
  split <;> rfl

theorem Sees.reduce (h : Sees v b) (hb : b.WF) (id : OrderId) (qty : Qty) :
    Sees (v.reduce id qty) (b.reduce id qty) := by
  funext ⟨s, p⟩
  rw [queues_reduce, ← h]
  unfold PriorityBook.reduce
  cases hl : b.lookup id with
  | none =>
    -- no order has the id
    have hne := PriorityBook.lookup_none.mp hl
    refine (List.filterMap_some.symm.trans (List.filterMap_congr (fun x hx => ?_)))
    simp [lessShares, hne s x (PriorityBook.mem_queues.mp hx).1]
  | some e =>
    obtain ⟨t, o⟩ := e
    obtain ⟨ho, rfl⟩ := PriorityBook.lookup_some hl
    have huniq : ∀ x ∈ b.queues (s, p), x.id = o.id → x = o := by
      intro x hx hid
      exact (hb.unique (PriorityBook.mem_queues.mp hx).1 ho hid).2
    dsimp only
    split
    · next hzero =>
      rw [h.remove, queues_drop, ← h, ← List.filterMap_eq_filter]
      refine List.filterMap_congr (fun x hx => ?_)
      by_cases hid : x.id = o.id
      · obtain rfl := huniq x hx hid
        simp [lessShares, hzero]
      · simp [lessShares, hid]
    · next hleft =>
      rw [queues_setOpen, ← List.filterMap_eq_map]
      refine List.filterMap_congr (fun x hx => ?_)
      by_cases hid : x.id = o.id
      · obtain rfl := huniq x hx hid
        simp [lessShares, hleft]
      · simp [lessShares, hid]

theorem Sees.matchId (h : Sees v b) (m : Nat) : Sees v { b with nextMatchId := m } :=
  (PriorityBook.queues_matchId b m).trans h

/-- The view follows the book, event by event. -/
theorem Sees.apply (h : Sees v b) (hb : b.WF) (e : BookEvent) :
    Sees (v.apply e) (b.applyEvent e) := by
  cases e with
  | added e => exact h.rest hb e.id e.side e.price e.qty
  | executed e => exact (h.reduce hb e.restingId e.qty).matchId _
  | canceled e =>
    simp only [View.apply, PriorityBook.applyEvent]
    split
    · exact h.remove e.id
    · exact h.reduce hb e.id e.canceledQty
  | replaced e => exact (h.remove e.oldId).rest (hb.remove e.oldId) e.newId e.side e.price e.qty

theorem nextMatchId_applyEvent (b : PriorityBook) (e : BookEvent) :
    (b.applyEvent e).nextMatchId = b.nextMatchId + executions [e] := by
  have hrest : ∀ (b : PriorityBook) id s p q, (b.rest id s p q).nextMatchId = b.nextMatchId :=
    fun b id s p q => PriorityBook.nextMatchId_setSide b s _
  cases e with
  | added e => exact hrest b _ _ _ _
  | executed e => rfl
  | canceled e =>
    simp only [PriorityBook.applyEvent, PriorityBook.reduce]
    split
    · rfl
    split
    · rfl
    split <;> rfl
  | replaced e => exact hrest _ _ _ _ _

/-- A run of events: the view has followed it, and the match ids have gone up by
    one for each execution. -/
theorem Sees.trace (h : Sees v b) (hb : b.WF) {es : List BookEvent} {b' : PriorityBook}
    (ht : PriorityBook.Trace b es b') :
    Sees (es.foldl View.apply v) b' ∧ b'.nextMatchId = b.nextMatchId + executions es := by
  induction ht generalizing v with
  | nil b => exact ⟨h, rfl⟩
  | @cons b e es b' he _ ih =>
    obtain ⟨hs, hm⟩ := ih (h.apply hb e) (hb.applyEvent he)
    refine ⟨hs, ?_⟩
    rw [hm, nextMatchId_applyEvent, Nat.add_assoc]
    simp only [executions, ← List.countP_append, List.singleton_append]

end sees

end View

/-! ## Section 3: The priority book is fair -/

section fair

variable {v : View} {b b' : PriorityBook} {id : OrderId} {s : Side} {limit : Price} {qty left : Qty}

open View (Sees)

/-- One step of a walk is a fair execution. -/
theorem fairExecution (h : Sees v b) (hb : b.WF) {o : Resting} {l : List Resting}
    (hl : b.side s.opposite = o :: l) (hq : qty ≠ 0) (hc : crosses s limit o.price) :
    FairExecution v ⟨id, s, limit, qty⟩ b.nextMatchId (b.execution id s o qty) where
  aggressor := ⟨rfl, rfl⟩
  best := by
    refine ⟨o, h.isBest hb hl, rfl, rfl, ?_⟩
    simp only [PriorityBook.execution]
    split
    · next hlt => exact (Nat.min_eq_left (Nat.le_of_lt (UInt32.lt_iff_toNat_lt.mp hlt))).symm
    · next hlt => exact (Nat.min_eq_right (UInt32.le_iff_toNat_le.mp (UInt32.not_lt.mp hlt))).symm
  limit := hc
  qty := by
    have := (hb.sides s.opposite).pos o (by simp [hl])
    simp only [PriorityBook.execution]
    split <;> grind
  matchId := rfl

/-- A walk is fair, whatever fair events come after it. -/
theorem fairEvents_walks {es : List ExecutedEvent}
    (hw : PriorityBook.Walks id s limit b qty es b' left)
    (h : Sees v b) (hb : b.WF) {rest : List BookEvent}
    (hrest : ∀ v', Sees v' b' → FairEvents v' (some ⟨id, s, limit, left⟩) b'.nextMatchId rest) :
    FairEvents v (some ⟨id, s, limit, qty⟩) b.nextMatchId (es.map .executed ++ rest) := by
  induction hw generalizing v with
  | refl b qty => exact hrest v h
  | step hl hq hc _ ih =>
    exact ⟨_, rfl, fairExecution h hb hl hq hc,
      ih (h.apply hb _) (hb.applyEvent (hb.enabled_execution hl hq)) hrest⟩

/-- What is left over finds nothing to trade with. -/
theorem fairEvents_nil (h : Sees v b)
    (hdone : left ≠ 0 → ∀ o ∈ b.side s.opposite, ¬ crosses s limit o.price) :
    FairEvents v (some ⟨id, s, limit, left⟩) b.nextMatchId [] := by
  rintro a ha hleft ⟨t, o⟩ hx rfl
  cases ha
  exact hdone hleft o (h.mem.mp hx)

/-- The same when the rest of the aggressor has come to rest, on its own side. -/
theorem fairEvents_rested (h : Sees v b) (m : Nat) {o : Resting}
    (hdone : ∀ o ∈ b.side s.opposite, ¬ crosses s limit o.price) :
    FairEvents (v ++ [(s, o)]) (some ⟨id, s, limit, left⟩) m [] := by
  rintro a ha - ⟨t, x⟩ hx rfl
  cases ha
  rcases List.mem_append.mp hx with hx | hx
  · exact hdone x (h.mem.mp hx)
  · rw [List.mem_singleton, Prod.mk.injEq] at hx
    exact absurd hx.1 s.opposite_ne

theorem fairEvents_enter (h : Sees v b) (hb : b.WF) (id : OrderId) (s : Side) (price : Price)
    (qty : Qty) :
    FairEvents v (some ⟨id, s, price, qty⟩) b.nextMatchId (b.enter id s price qty).2.2 := by
  obtain ⟨es, b₁, left, hw, hdone, heq⟩ := hb.enter_walks id s price qty
  rw [heq]
  split
  · have := fairEvents_walks hw h hb (fun v' h' => fairEvents_nil h' hdone)
    simpa using this
  · next hleft =>
      exact fairEvents_walks hw h hb
        (fun v' h' => fairEvents_rested h' b₁.nextMatchId (hdone hleft))

theorem fairEvents_none (v : View) (m : Nat) : FairEvents v none m [] := by
  rintro a ⟨⟩

/-- The listener finds the side of a resting order in its view. -/
theorem View.Sees.find (h : Sees v b) (hb : b.WF) {o : Resting} (ho : o ∈ b.side s) :
    v.find? (fun x => x.2.id = o.id) = some (s, o) := by
  have hmem : (s, o) ∈ v := h.mem.mpr ho
  cases hf : v.find? (fun x => x.2.id = o.id) with
  | none => simpa using List.find?_eq_none.mp hf _ hmem
  | some x =>
    obtain ⟨t, y⟩ := x
    have hid : y.id = o.id := by simpa using List.find?_some hf
    obtain ⟨rfl, rfl⟩ := hb.unique (h.mem.mp (List.mem_of_find?_eq_some hf)) ho hid
    rfl

/-- **Each call of the priority book is fair.** -/
theorem fairEvents_perform (h : Sees v b) (hb : b.WF) (op : BookOp) :
    FairEvents v (aggressor v op (b.perform op).2.1) b.nextMatchId (b.perform op).2.2 := by
  cases op with
  | add id s price qty =>
    simp only [PriorityBook.perform, PriorityBook.add]
    split
    · exact fairEvents_none v _
    split
    · exact fairEvents_none v _
    split
    · exact fairEvents_none v _
    · exact fairEvents_enter h hb id s price qty
  | cancel id keep =>
    simp only [PriorityBook.perform, PriorityBook.cancel]
    split
    · exact fairEvents_none v _
    split
    · exact fairEvents_none v _
    split <;> exact fairEvents_none _ b.nextMatchId
  | replace oldId newId price qty =>
    simp only [PriorityBook.perform, PriorityBook.replace]
    split
    · exact fairEvents_none v _
    next s o hl =>
    obtain ⟨ho, rfl⟩ := PriorityBook.lookup_some hl
    split
    · exact fairEvents_none v _
    split
    · exact fairEvents_none v _
    split
    · simp only [aggressor, h.find hb ho, Option.map_some, FairEvents]
      exact fairEvents_enter (h.remove o.id) (hb.remove o.id) newId s price qty
    · next hw =>
      simp only [aggressor, h.find hb ho, Option.map_some, FairEvents]
      exact fairEvents_rested (h.remove o.id) b.nextMatchId
        ((hb.remove o.id).not_crosses_of_wouldCross (by simpa using hw))
  | executeIoc id s limit qty =>
    obtain ⟨es, b₁, left, hw, heq, hdone⟩ := hb.executeIoc_walks id s limit qty
    simp only [PriorityBook.perform, heq, aggressor]
    have := fairEvents_walks hw h hb (fun v' h' => fairEvents_nil h' hdone)
    simpa using this
  | matchable => exact fairEvents_none v _
  | bestBid => exact fairEvents_none v _
  | bestAsk => exact fairEvents_none v _

theorem PriorityBook.WF.perform_trace (hb : b.WF) (op : BookOp) :
    PriorityBook.Trace b (b.perform op).2.2 (b.perform op).1 := by
  cases op with
  | add id s price qty => exact hb.add_trace id s price qty
  | cancel id keep => exact hb.cancel_trace id keep
  | replace oldId newId price qty => exact hb.replace_trace oldId newId price qty
  | executeIoc id s limit qty => exact hb.executeIoc_trace id s limit qty
  | matchable => exact .nil b
  | bestBid => exact .nil b
  | bestAsk => exact .nil b

/-- **Run lemma.** Every history of the priority book is fair. -/
theorem fair_run (h : Sees v b) (hb : b.WF) {ops : List BookOp} {answers : List Answer}
    (hrun : Machine.run (fun b op => some (b.perform op)) b ops = some (b', answers)) :
    Fair v b.nextMatchId (ops.zip answers) := by
  induction ops generalizing v b answers with
  | nil => trivial
  | cons op ops ih =>
    simp only [Machine.run, Option.bind_eq_bind, Option.bind_some, Option.bind_eq_some_iff] at hrun
    obtain ⟨⟨b₁, os⟩, hrun, heq⟩ := hrun
    cases heq
    have htrace := hb.perform_trace op
    obtain ⟨hsees, hmid⟩ := h.trace hb htrace
    refine ⟨fairEvents_perform h hb op, ?_⟩
    rw [← hmid]
    exact ih hsees (htrace.wf hb) hrun

end fair

/-! ## Section 4: The fast book is fair -/

theorem FastBook.Config.Valid.fair {cfg : FastBook.Config} (h : cfg.Valid) (ops : List BookOp) :
    ∃ fb answers, Machine.run FastBook.perform (FastBook.create cfg) ops = some (fb, answers) ∧
      Fair [] 1 (ops.zip answers) := by
  obtain ⟨fb, a, answers, hf, ha, -⟩ := FastBook.simulation.run (FastBook.models_create h) ops
  refine ⟨fb, answers, hf, fair_run (b := {}) ?_ PriorityBook.wf_empty ha⟩
  funext ⟨s, p⟩
  cases s <;> simp [PriorityBook.queues, PriorityBook.side, View.queues]

/-- With a ladder that is too wide a buy order is left over although an ask at
    its price rests. -/
theorem not_fair_of_wide {cfg : FastBook.Config} (htick : 0 < cfg.tick)
    (hwide : 2 ^ 30 ≤ cfg.bandHalfTicks.toInt) :
    ¬ ∃ fb answers, Machine.run FastBook.perform (FastBook.create cfg)
        [.add 1 .sell 1 1, .add 2 .buy 1 1] = some (fb, answers) ∧
      Fair [] 1 ([.add 1 .sell 1 1, .add 2 .buy 1 1].zip answers) := by
  rintro ⟨fb, answers, hrun, hfair⟩
  obtain ⟨fb₁, fb₂, t, hadd₁, hadd₂, -⟩ := FastBook.wide_adds htick hwide
  simp only [Machine.run, FastBook.perform, hadd₁, hadd₂, Option.map_some, Option.bind_eq_bind,
    Option.bind_some] at hrun
  cases hrun
  obtain ⟨-, hsecond, -⟩ := hfair
  exact hsecond ⟨2, .buy, 1, 1⟩ rfl (by decide) (.sell, ⟨1, 1, 1⟩) (by simp [View.apply])
    rfl (by decide)

/-- **Price-time priority.** Every history of a fast book is fair, exactly as
    long as the size of the ladder fits an `int`. -/
theorem fastBook_fair_iff (cfg : FastBook.Config) (htick : 0 < cfg.tick)
    (hhalf : 0 ≤ cfg.bandHalfTicks.toInt) :
    (∀ ops, ∃ fb answers,
        Machine.run FastBook.perform (FastBook.create cfg) ops = some (fb, answers) ∧
          Fair [] 1 (ops.zip answers)) ↔
      cfg.bandHalfTicks.toInt < 2 ^ 30 := by
  constructor
  · intro h
    by_contra hwide
    exact not_fair_of_wide htick (by omega) (h _)
  · intro hlt ops
    exact FastBook.Config.Valid.fair ⟨htick, hhalf, hlt⟩ ops

/-- The books of the engine are fair. -/
theorem fastBook_fair_default :
    ({} : FastBook.Config).bandHalfTicks.toInt < 2 ^ 30 ∧ ∀ ops, ∃ fb answers,
      Machine.run FastBook.perform (FastBook.create {}) ops = some (fb, answers) ∧
        Fair [] 1 (ops.zip answers) :=
  ⟨by decide, (fastBook_fair_iff {} (by decide) (by decide)).mpr (by decide)⟩

/-- A half width of 2^30 ticks: the second order trades through the first. -/
theorem fastBook_fair_fails :
    ¬ ∃ fb answers, Machine.run FastBook.perform (FastBook.create { bandHalfTicks := 1073741824 })
        [.add 1 .sell 1 1, .add 2 .buy 1 1] = some (fb, answers) ∧
      Fair [] 1 ([.add 1 .sell 1 1, .add 2 .buy 1 1].zip answers) :=
  not_fair_of_wide (by decide) (by decide)

end MatchingEngine
