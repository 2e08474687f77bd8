import MatchingEngine.Book.PriorityBook

/-! # The priority book as a transition system

    Every operation of the book is a sequence of atomic steps, and each step is
    one event: an order comes to rest, the best opposite order is executed
    against, an order is reduced or removed, an order is replaced.

    `Enabled b e` says when the event `e` may happen in `b`, and `applyEvent`
    what it does. `Trace b es b'` is a run of enabled events. The main results
    are that the events of each operation are such a run, from the book before
    to the book after. A listener that sees only the events therefore sees
    everything, and a property of whole histories needs to be shown for one
    enabled event only.
-/

namespace MatchingEngine

namespace PriorityBook

variable {b b' : PriorityBook} {e : BookEvent} {id : OrderId} {s : Side} {qty qty' : Qty}
  {es : List ExecutedEvent} {limit : Price}

/-! ## Section 1: Events as steps -/

/-- Take `qty` shares off an order; an order without shares leaves. -/
def reduce (b : PriorityBook) (id : OrderId) (qty : Qty) : PriorityBook :=
  match b.lookup id with
  | none => b
  | some (_, o) =>
    if o.openQty - qty = 0 then b.remove id else b.setOpen id (o.openQty - qty)

/-- The effect of one event. -/
def applyEvent (b : PriorityBook) : BookEvent → PriorityBook
  | .added e => b.rest e.id e.side e.price e.qty
  | .executed e => { b.reduce e.restingId e.qty with nextMatchId := b.nextMatchId + 1 }
  | .canceled e => if e.removed then b.remove e.id else b.reduce e.id e.canceledQty
  | .replaced e => (b.remove e.oldId).rest e.newId e.side e.price e.qty

/-- When an event may happen. -/
inductive Enabled (b : PriorityBook) : BookEvent → Prop where
  | added (e : AddedEvent) (fresh : b.contains e.id = false) (price : 0 < e.price)
      (qty : e.qty ≠ 0) (open_ : ∀ o ∈ b.side e.side.opposite, ¬ crosses e.side e.price o.price) :
      Enabled b (.added e)
  | executed (e : ExecutedEvent) (o : Resting) (l : List Resting)
      (best : b.side e.aggressorSide.opposite = o :: l) (id : e.restingId = o.id)
      (price : e.price = o.price) (qty : e.qty ≠ 0) (le : e.qty ≤ o.openQty)
      (matchId : e.matchId = b.nextMatchId) : Enabled b (.executed e)
  | canceled (e : CanceledEvent) (s : Side) (o : Resting) (mem : o ∈ b.side s) (id : o.id = e.id)
      (qty : e.canceledQty ≠ 0) (le : e.canceledQty ≤ o.openQty)
      (removed : e.removed = true ↔ e.canceledQty = o.openQty) : Enabled b (.canceled e)
  | replaced (e : ReplacedEvent) (o : Resting) (mem : o ∈ b.side e.side) (id : o.id = e.oldId)
      (ne : e.newId ≠ e.oldId) (fresh : b.contains e.newId = false) (price : 0 < e.price)
      (qty : e.qty ≠ 0) (open_ : ∀ o ∈ b.side e.side.opposite, ¬ crosses e.side e.price o.price) :
      Enabled b (.replaced e)

/-! ### Removing and reducing an order in place -/

section split

variable {b : PriorityBook} {t : Side} {o : Resting} {xs ys : List Resting}

/-- The other orders of the book have other ids. -/
theorem WF.ne_of_split (h : b.WF) (hs : b.side t = xs ++ o :: ys) :
    (∀ x ∈ xs, x.id ≠ o.id) ∧ (∀ y ∈ ys, y.id ≠ o.id) ∧ ∀ z ∈ b.side t.opposite, z.id ≠ o.id := by
  have ho : o ∈ b.side t := by simp [hs]
  have hnd := (h.sides t).nodup
  rw [hs, List.map_append, List.map_cons, List.nodup_append] at hnd
  obtain ⟨-, hys, hdisj⟩ := hnd
  refine ⟨fun x hx => ?_, fun y hy heq => ?_, fun z hz heq => ?_⟩
  · exact hdisj _ (List.mem_map_of_mem hx) _ List.mem_cons_self
  · exact (List.nodup_cons.mp hys).1 (heq ▸ List.mem_map_of_mem hy)
  · exact (h.apart t o ho z hz).1 heq.symm

theorem WF.remove_split (h : b.WF) (hs : b.side t = xs ++ o :: ys) :
    b.remove o.id = b.setSide t (xs ++ ys) := by
  obtain ⟨hxs, hys, hopp⟩ := h.ne_of_split hs
  refine ext_side (fun u => ?_) (by simp [PriorityBook.remove])
  rw [side_remove]
  rcases Side.eq_or_eq_opposite u t with rfl | rfl
  · rw [side_setSide_self, hs, List.filter_append, List.filter_cons_of_neg (by simp),
      List.filter_eq_self.mpr (by simpa using hxs), List.filter_eq_self.mpr (by simpa using hys)]
  · rw [side_setSide_opposite, List.filter_eq_self.mpr (by simpa using hopp)]

theorem WF.setOpen_split (h : b.WF) (hs : b.side t = xs ++ o :: ys) (q : Qty) :
    b.setOpen o.id q = b.setSide t (xs ++ { o with openQty := q } :: ys) := by
  obtain ⟨hxs, hys, hopp⟩ := h.ne_of_split hs
  have hkeep : ∀ l : List Resting, (∀ x ∈ l, x.id ≠ o.id) →
      l.map (fun x => if x.id = o.id then { x with openQty := q } else x) = l := by
    intro l hl
    refine (List.map_congr_left (fun x hx => ?_)).trans (List.map_id l)
    simp [hl x hx]
  refine ext_side (fun u => ?_) (by simp [PriorityBook.setOpen])
  rw [side_setOpen]
  rcases Side.eq_or_eq_opposite u t with rfl | rfl
  · rw [side_setSide_self, hs, List.map_append, List.map_cons, hkeep xs hxs, hkeep ys hys]
    simp
  · rw [side_setSide_opposite, hkeep _ hopp]

theorem WF.reduce_of_mem (h : b.WF) (ho : o ∈ b.side t) (qty : Qty) :
    b.reduce o.id qty =
      if o.openQty - qty = 0 then b.remove o.id else b.setOpen o.id (o.openQty - qty) := by
  unfold PriorityBook.reduce
  rw [h.lookup_iff.mpr ⟨ho, rfl⟩]

end split

/-- Only executions move the counter. -/
theorem nextMatchId_applyEvent (he : ∀ x, e ≠ .executed x) :
    (b.applyEvent e).nextMatchId = b.nextMatchId := by
  have hreduce : ∀ id qty, (b.reduce id qty).nextMatchId = b.nextMatchId := by
    intro id qty
    unfold reduce
    split
    · rfl
    · split <;> rfl
  cases e with
  | added x => exact nextMatchId_setSide b _ _
  | executed x => exact absurd rfl (he x)
  | canceled x =>
    simp only [applyEvent]
    split
    · rfl
    · exact hreduce _ _
  | replaced x => exact nextMatchId_setSide (b.remove x.oldId) _ _

theorem wf_of_matchId (h : b.WF) (m : Nat) : ({ b with nextMatchId := m } : PriorityBook).WF :=
  ⟨fun s => by cases s; exacts [h.sides .buy, h.sides .sell],
    fun s => by cases s; exacts [h.apart .buy, h.apart .sell]⟩

theorem WF.reduce (h : b.WF) (id : OrderId) (qty : Qty) : (b.reduce id qty).WF := by
  unfold PriorityBook.reduce
  split
  · exact h
  split
  · exact h.remove id
  · next hne => exact h.setOpen id hne

theorem mem_side_remove {o : Resting} : o ∈ (b.remove id).side s ↔ o ∈ b.side s ∧ o.id ≠ id := by
  simp [side_remove]

/-- **Step lemma.** An enabled event keeps the book well formed. -/
theorem WF.applyEvent (h : b.WF) (he : b.Enabled e) : (b.applyEvent e).WF := by
  cases he with
  | added e fresh price qty open_ => exact h.rest fresh price qty open_
  | executed e o l best id price qty le matchId =>
    exact wf_of_matchId (h.reduce _ _) _
  | canceled e s o mem id qty le removed =>
    simp only [PriorityBook.applyEvent]
    split
    · exact h.remove _
    · exact h.reduce _ _
  | replaced e o mem id ne fresh price qty open_ =>
    refine (h.remove _).rest ?_ price qty (fun x hx => open_ x (mem_side_remove.mp hx).1)
    rw [contains_remove_of_ne ne]
    exact fresh

/-- A cancellation takes off its shares, down to a removal. -/
theorem WF.applyEvent_canceled (h : b.WF) {x : CanceledEvent} {o : Resting} (ho : o ∈ b.side s)
    (hid : o.id = x.id) (hr : x.removed = true ↔ x.canceledQty = o.openQty) :
    b.applyEvent (.canceled x) = b.reduce o.id x.canceledQty := by
  simp only [PriorityBook.applyEvent, ← hid]
  split
  · next hremoved =>
    rw [h.reduce_of_mem ho, hr.mp hremoved, if_pos (UInt32.sub_self _)]
  · rfl

theorem mem_side_rest {t : Side} {p : Price} {q : Qty} {o : Resting} :
    o ∈ (b.rest id s p q).side t ↔ o ∈ b.side t ∨ t = s ∧ o = ⟨id, p, q⟩ := by
  rcases Side.eq_or_eq_opposite t s with rfl | rfl
  · simp [PriorityBook.rest, PriorityList.mem_enqueue, or_comm]
  · simp [PriorityBook.rest, Side.opposite_ne]

/-- The orders after a reduction: the others, and what is left of the one. -/
theorem WF.mem_side_reduce (h : b.WF) {t : Side} {o y : Resting} (ho : o ∈ b.side s) :
    y ∈ (b.reduce o.id qty).side t ↔ y ∈ b.side t ∧ y.id ≠ o.id ∨
      t = s ∧ o.openQty - qty ≠ 0 ∧ y = { o with openQty := o.openQty - qty } := by
  rw [h.reduce_of_mem ho]
  split
  · next hzero => simp [mem_side_remove, hzero]
  · next hleft =>
    rw [side_setOpen, List.mem_map]
    constructor
    · rintro ⟨x, hx, rfl⟩
      by_cases hid : x.id = o.id
      · obtain ⟨rfl, rfl⟩ := h.unique hx ho hid
        exact Or.inr ⟨rfl, hleft, by simp⟩
      · exact Or.inl ⟨by simpa [hid] using hx, by simp [hid]⟩
    · rintro (⟨hy, hid⟩ | ⟨rfl, -, rfl⟩)
      · exact ⟨y, hy, by simp [hid]⟩
      · exact ⟨o, ho, by simp⟩

/-! ## Section 2: Traces -/

/-- A run of enabled events. -/
inductive Trace : PriorityBook → List BookEvent → PriorityBook → Prop where
  | nil (b : PriorityBook) : Trace b [] b
  | cons {b : PriorityBook} {e : BookEvent} {es : List BookEvent} {b' : PriorityBook}
      (he : b.Enabled e) (ht : Trace (b.applyEvent e) es b') : Trace b (e :: es) b'

theorem Trace.append {b'' : PriorityBook} {es es' : List BookEvent} (h : Trace b es b')
    (h' : Trace b' es' b'') : Trace b (es ++ es') b'' := by
  induction h with
  | nil => exact h'
  | cons he _ ih => exact .cons he (ih h')

theorem Trace.single (h : b.Enabled e) : Trace b [e] (b.applyEvent e) :=
  .cons h (.nil _)

/-- **Run lemma.** A trace keeps the book well formed. -/
theorem Trace.wf {es : List BookEvent} (h : Trace b es b') (hb : b.WF) : b'.WF := by
  induction h with
  | nil => exact hb
  | cons he _ ih => exact ih (hb.applyEvent he)

/-! ## Section 3: A walk is a run of executions -/

/-- The execution of an incoming order against the resting order `o`. -/
def execution (b : PriorityBook) (id : OrderId) (s : Side) (o : Resting) (qty : Qty) :
    ExecutedEvent :=
  ⟨o.id, id, s, o.price, if qty < o.openQty then qty else o.openQty, b.nextMatchId⟩

section walk

variable {b : PriorityBook} {id : OrderId} {s : Side} {limit : Price} {qty : Qty}

variable {l : List Resting} {o : Resting}

@[simp] theorem side_matchId (m : Nat) :
    ({ b with nextMatchId := m } : PriorityBook).side s = b.side s := by
  cases s <;> rfl

theorem walk_done (h : qty = 0 ∨ ∀ o ∈ (b.side s.opposite).head?, ¬ crosses s limit o.price) :
    b.walk id s limit qty = ⟨b.side s.opposite, qty, b.nextMatchId, []⟩ := by
  unfold walk
  cases hl : b.side s.opposite with
  | nil => rfl
  | cons o l =>
    rcases h with rfl | h
    · exact fill_zero _ _
    · exact fill_stop _ _ _ (h o (by simp [hl]))

theorem afterWalk_done : b.afterWalk s ⟨b.side s.opposite, qty, b.nextMatchId, []⟩ = b := by
  cases s <;> rfl

/-- What is left of a side when its head is executed against. -/
def headLeft (o : Resting) (l : List Resting) (exec : Qty) : List Resting :=
  if o.openQty - exec = 0 then l else { o with openQty := o.openQty - exec } :: l

theorem WF.applyEvent_execution (h : b.WF) (hl : b.side s.opposite = o :: l) :
    b.applyEvent (.executed (b.execution id s o qty)) =
      { b.setSide s.opposite (headLeft o l (b.execution id s o qty).qty) with
        nextMatchId := b.nextMatchId + 1 } := by
  have ho : o ∈ b.side s.opposite := by simp [hl]
  have hl' : b.side s.opposite = [] ++ o :: l := hl
  simp only [PriorityBook.applyEvent, headLeft]
  generalize (b.execution id s o qty).qty = q
  rw [show (b.execution id s o qty).restingId = o.id from rfl, h.reduce_of_mem ho,
    h.remove_split hl', h.setOpen_split hl']
  split <;> rfl

theorem WF.enabled_execution (h : b.WF) (hl : b.side s.opposite = o :: l) (hq : qty ≠ 0) :
    b.Enabled (.executed (b.execution id s o qty)) := by
  have hpos : o.openQty ≠ 0 := (h.sides _).pos o (by rw [hl]; exact List.mem_cons_self)
  refine .executed _ o l hl rfl rfl ?_ ?_ rfl
  · simp only [execution]
    split <;> assumption
  · simp only [execution]
    split <;> grind

/-- An execution is of shares that both orders have. -/
theorem execution_le (b : PriorityBook) (id : OrderId) (s : Side) (o : Resting) (qty : Qty) :
    (b.execution id s o qty).qty ≤ qty ∧ (b.execution id s o qty).qty ≤ o.openQty := by
  simp only [execution]
  split <;> grind

/-- Each execution takes at least one share. -/
theorem WF.execution_lt (h : b.WF) (hl : b.side s.opposite = o :: l) (hq : qty ≠ 0) :
    (qty - (b.execution id s o qty).qty).toNat < qty.toNat := by
  have hpos : o.openQty ≠ 0 := (h.sides _).pos o (by rw [hl]; exact List.mem_cons_self)
  have hle := (execution_le b id s o qty).1
  have hne : (b.execution id s o qty).qty ≠ 0 := by
    simp only [execution]
    split <;> assumption
  have hlt : (b.execution id s o qty).qty.toNat ≠ 0 := by
    simpa [← UInt32.toNat_inj] using hne
  have := UInt32.le_iff_toNat_le.mp hle
  rw [UInt32.toNat_sub_of_le _ _ hle]
  omega

/-- One iteration of the matching loop: execute against the best order and go
    on from the book that leaves. -/
theorem WF.walk_step (h : b.WF) (hl : b.side s.opposite = o :: l) (hq : qty ≠ 0)
    (hc : crosses s limit o.price) :
    b.walk id s limit qty =
      { (b.applyEvent (.executed (b.execution id s o qty))).walk id s limit
          (qty - (b.execution id s o qty).qty) with
        events := b.execution id s o qty ::
          ((b.applyEvent (.executed (b.execution id s o qty))).walk id s limit
            (qty - (b.execution id s o qty).qty)).events } := by
  rw [h.applyEvent_execution hl]
  simp only [walk, hl, side_matchId, side_setSide_self]
  by_cases hlt : qty < o.openQty
  · have hne : o.openQty - qty ≠ 0 := by grind
    rw [fill_part l _ hq hc hlt]
    simp [execution, headLeft, hlt, hne]
  · rw [fill_full l _ hq hc hlt]
    simp [execution, headLeft, hlt]

theorem WF.afterWalk_step (h : b.WF) (hl : b.side s.opposite = o :: l) (r : Fill) :
    (b.applyEvent (.executed (b.execution id s o qty))).afterWalk s r = b.afterWalk s r := by
  rw [h.applyEvent_execution hl]
  cases s <;> rfl

/-- Induction along a walk: it is done, or it executes against the head of the
    opposite side and goes on in a well-formed book. -/
theorem walk_induct (id : OrderId) (s : Side) (limit : Price)
    {motive : PriorityBook → Qty → Prop}
    (done : ∀ b qty, b.WF →
      (qty = 0 ∨ ∀ o ∈ (b.side s.opposite).head?, ¬ crosses s limit o.price) → motive b qty)
    (step : ∀ b qty o l, b.WF → b.side s.opposite = o :: l → qty ≠ 0 → crosses s limit o.price →
      motive (b.applyEvent (.executed (b.execution id s o qty)))
        (qty - (b.execution id s o qty).qty) → motive b qty)
    (h : b.WF) : motive b qty := by
  generalize hn : qty.toNat = n
  induction n using Nat.strongRecOn generalizing b qty with
  | ind n ih =>
    by_cases hdone : qty = 0 ∨ ∀ o ∈ (b.side s.opposite).head?, ¬ crosses s limit o.price
    · exact done b qty h hdone
    · simp only [not_or, not_forall, not_not] at hdone
      obtain ⟨hq, o, ho, hc⟩ := hdone
      obtain ⟨l, hl⟩ := List.head?_eq_some_iff.mp ho
      have he : b.Enabled (.executed (b.execution id s o qty)) := h.enabled_execution hl hq
      refine step b qty o l h hl hq hc (ih _ ?_ (h.applyEvent he) rfl)
      exact hn ▸ h.execution_lt hl hq

/-- **A walk is a trace** of executions. -/
theorem WF.walk_trace (h : b.WF) :
    Trace b ((b.walk id s limit qty).events.map .executed)
      (b.afterWalk s (b.walk id s limit qty)) := by
  refine walk_induct id s limit
    (motive := fun b qty => Trace b ((b.walk id s limit qty).events.map .executed)
      (b.afterWalk s (b.walk id s limit qty))) ?_ ?_ h
  · intro b qty _ hdone
    rw [walk_done hdone, afterWalk_done]
    exact .nil b
  · intro b qty o l h hl hq hc ih
    rw [h.walk_step hl hq hc]
    refine .cons (h.enabled_execution hl hq) ?_
    rw [h.afterWalk_step hl] at ih
    exact ih

end walk

/-! ### Walks in parts

    A concrete book walks level by level, so its loops produce a walk piece by
    piece. `Walks id s limit b qty es b' qty'`: the incoming order has gone from
    `b` with `qty` shares to `b'` with `qty'` shares by the executions `es`. -/

inductive Walks (id : OrderId) (s : Side) (limit : Price) :
    PriorityBook → Qty → List ExecutedEvent → PriorityBook → Qty → Prop where
  | refl (b : PriorityBook) (qty : Qty) : Walks id s limit b qty [] b qty
  | step {b b' : PriorityBook} {qty qty' : Qty} {o : Resting} {l : List Resting}
      {es : List ExecutedEvent} (hl : b.side s.opposite = o :: l) (hq : qty ≠ 0)
      (hc : crosses s limit o.price)
      (rest : Walks id s limit (b.applyEvent (.executed (b.execution id s o qty)))
        (qty - (b.execution id s o qty).qty) es b' qty') :
      Walks id s limit b qty (b.execution id s o qty :: es) b' qty'

theorem Walks.trans {b'' : PriorityBook} {qty'' : Qty} {es' : List ExecutedEvent}
    (h : Walks id s limit b qty es b' qty') (h' : Walks id s limit b' qty' es' b'' qty'') :
    Walks id s limit b qty (es ++ es') b'' qty'' := by
  induction h with
  | refl => exact h'
  | step hl hq hc _ ih => exact .step hl hq hc (ih h')

theorem Walks.wf (h : Walks id s limit b qty es b' qty') (hb : b.WF) : b'.WF := by
  induction h with
  | refl => exact hb
  | step hl hq _ _ ih => exact ih (hb.applyEvent (hb.enabled_execution hl hq))

/-- A walk has not moved, or shares were executed. -/
theorem Walks.eq_or_lt (h : Walks id s limit b qty es b' qty') (hb : b.WF) :
    b = b' ∧ qty = qty' ∨ qty'.toNat < qty.toNat := by
  induction h with
  | refl => exact Or.inl ⟨rfl, rfl⟩
  | step hl hq _ _ ih =>
    rcases ih (hb.applyEvent (hb.enabled_execution hl hq)) with ⟨-, rfl⟩ | h
    · exact Or.inr (hb.execution_lt hl hq)
    · exact Or.inr (Nat.lt_trans h (hb.execution_lt hl hq))

/-- A walk that can go no further is the whole of `executeIoc`. -/
theorem Walks.executeIoc (h : Walks id s limit b qty es b' qty') (hb : b.WF)
    (hdone : qty' = 0 ∨ ∀ o ∈ (b'.side s.opposite).head?, ¬ crosses s limit o.price) :
    b.executeIoc id s limit qty = (b', qty - qty', es.map .executed) := by
  have hwalk : b.walk id s limit qty = ⟨b'.side s.opposite, qty', b'.nextMatchId, es⟩ ∧
      b.afterWalk s ⟨b'.side s.opposite, qty', b'.nextMatchId, es⟩ = b' := by
    induction h with
    | refl b qty => exact ⟨walk_done hdone, afterWalk_done⟩
    | step hl hq hc _ ih =>
      obtain ⟨hw, ha⟩ := ih (hb.applyEvent (hb.enabled_execution hl hq)) hdone
      refine ⟨by rw [hb.walk_step hl hq hc, hw], ?_⟩
      rw [hb.afterWalk_step hl] at ha
      exact ha
  rw [executeIoc_eq, hwalk.1, hwalk.2]

/-- No price of the side crosses when its best one does not. -/
theorem WF.not_crosses_of_head (h : b.WF)
    (hhead : ∀ o ∈ (b.side s.opposite).head?, ¬ crosses s limit o.price) :
    ∀ o ∈ b.side s.opposite, ¬ crosses s limit o.price := by
  intro o ho hc
  cases hl : b.side s.opposite with
  | nil => simp [hl] at ho
  | cons o₀ l =>
    have hsorted := (h.sides s.opposite).sorted
    rw [hl] at hsorted ho
    refine hhead o₀ (by simp [hl]) (crosses_of_ahead hc ?_)
    exact (PriorityList.head_best hsorted ho).imp_left Eq.symm

/-- `executeIoc` is a walk, and it goes on as long as it can. -/
theorem WF.executeIoc_walks (h : b.WF) (id : OrderId) (s : Side) (limit : Price) (qty : Qty) :
    ∃ es b' left, Walks id s limit b qty es b' left ∧
      b.executeIoc id s limit qty = (b', qty - left, es.map .executed) ∧
      (left ≠ 0 → ∀ o ∈ b'.side s.opposite, ¬ crosses s limit o.price) := by
  have hwalks : ∃ es b' left, Walks id s limit b qty es b' left ∧
      (left = 0 ∨ ∀ o ∈ (b'.side s.opposite).head?, ¬ crosses s limit o.price) := by
    refine walk_induct id s limit (motive := fun b qty => ∃ es b' left,
      Walks id s limit b qty es b' left ∧
        (left = 0 ∨ ∀ o ∈ (b'.side s.opposite).head?, ¬ crosses s limit o.price)) ?_ ?_ h
    · intro b qty _ hdone
      exact ⟨[], b, qty, .refl b qty, hdone⟩
    · rintro b qty o l - hl hq hc ⟨es, b', left, hw, hdone⟩
      exact ⟨_, b', left, .step hl hq hc hw, hdone⟩
  obtain ⟨es, b', left, hw, hdone⟩ := hwalks
  exact ⟨es, b', left, hw, hw.executeIoc h hdone,
    fun hleft => (hw.wf h).not_crosses_of_head (hdone.resolve_left hleft)⟩

/-- What an order that enters the book does: it walks, and what is left of it
    comes to rest. -/
theorem WF.enter_walks (h : b.WF) (id : OrderId) (s : Side) (price : Price) (qty : Qty) :
    ∃ es b' left, Walks id s price b qty es b' left ∧
      (left ≠ 0 → ∀ o ∈ b'.side s.opposite, ¬ crosses s price o.price) ∧
      b.enter id s price qty = if left = 0 then (b', qty, es.map .executed)
        else (b'.rest id s price left, qty - left,
          es.map .executed ++ [.added ⟨id, s, price, left⟩]) := by
  obtain ⟨es, b', left, hw, heq, hdone⟩ := h.executeIoc_walks id s price qty
  refine ⟨es, b', left, hw, hdone, ?_⟩
  simp only [enter, heq, sub_sub_self_qty]
  by_cases hleft : left = 0
  · simp [hleft]
  · have hpos : left > 0 := by grind
    simp [hleft, hpos]

/-! ## Section 4: Every operation is a trace -/

section operations

variable {b : PriorityBook}

theorem WF.executeIoc_trace (h : b.WF) (id : OrderId) (s : Side) (limit : Price) (qty : Qty) :
    Trace b (b.executeIoc id s limit qty).2.2 (b.executeIoc id s limit qty).1 :=
  h.walk_trace

theorem WF.enter_trace (h : b.WF) {id : OrderId} (s : Side) {price : Price} (qty : Qty)
    (hid : b.contains id = false) (hp : 0 < price) :
    Trace b (b.enter id s price qty).2.2 (b.enter id s price qty).1 := by
  rw [enter_eq]
  dsimp only
  split
  · exact h.walk_trace
  · next hleft =>
    refine h.walk_trace.append (.single (.added _ (contains_afterWalk hid _ _ _ _) hp hleft ?_))
    rw [side_afterWalk_opposite]
    exact fill_maximal (h.sides _).sorted _ _ hleft

theorem WF.add_trace (h : b.WF) (id : OrderId) (s : Side) (price : Price) (qty : Qty) :
    Trace b (b.add id s price qty).2.2 (b.add id s price qty).1 := by
  unfold PriorityBook.add
  split
  · exact .nil b
  split
  · exact .nil b
  split
  · exact .nil b
  · next hp _ hid => exact h.enter_trace s qty (by simpa using hid) (by lia)

/-- A cancellation of a resting order: nothing, or one event. -/
theorem WF.cancel_spec (h : b.WF) {s : Side} {o : Resting} (ho : o ∈ b.side s) (keep : Qty) :
    b.cancel o.id keep = (b, false, []) ∨
      ∃ x : CanceledEvent, o.id = x.id ∧ x.canceledQty ≠ 0 ∧ x.canceledQty ≤ o.openQty ∧
        (x.removed = true ↔ x.canceledQty = o.openQty) ∧
        b.cancel o.id keep = (b.applyEvent (.canceled x), true, [.canceled x]) := by
  have hpos : o.openQty ≠ 0 := (h.sides s).pos o ho
  simp only [PriorityBook.cancel, h.lookup_iff.mpr ⟨ho, rfl⟩]
  split
  · exact Or.inl rfl
  next hkeep =>
  refine Or.inr ?_
  split
  · exact ⟨⟨o.id, o.openQty, true⟩, rfl, hpos, UInt32.le_refl _, by simp, rfl⟩
  · next hk =>
    have hsub : o.openQty - (o.openQty - keep) = keep := sub_sub_self_qty _ _
    have hb : b.applyEvent (.canceled ⟨o.id, o.openQty - keep, false⟩) = b.setOpen o.id keep := by
      simp [PriorityBook.applyEvent, h.reduce_of_mem ho, hsub, hk]
    exact ⟨⟨o.id, o.openQty - keep, false⟩, rfl, by grind, by grind, by grind, by rw [hb]⟩

theorem WF.cancel_trace (h : b.WF) (id : OrderId) (keep : Qty) :
    Trace b (b.cancel id keep).2.2 (b.cancel id keep).1 := by
  cases hl : b.lookup id with
  | none =>
    simp only [PriorityBook.cancel, hl]
    exact .nil b
  | some so =>
    obtain ⟨ho, rfl⟩ := lookup_some hl
    rcases h.cancel_spec ho keep with heq | ⟨x, hid, hqty, hle, hr, heq⟩
    · rw [heq]
      exact .nil b
    · rw [heq]
      exact .single (.canceled x so.1 so.2 ho hid hqty hle hr)

/-- A replacement of a resting order. If it would cross, it is a removal and
    then the life of a new order. -/
theorem WF.replace_spec (h : b.WF) {s : Side} {o : Resting} (ho : o ∈ b.side s) {newId : OrderId}
    (hne : newId ≠ o.id) (hfresh : b.contains newId = false) {price : Price} (hp : 0 < price)
    {qty : Qty} (hq : qty ≠ 0) :
    b.replace o.id newId price qty = (((b.remove o.id).enter newId s price qty).1, true,
        .canceled ⟨o.id, o.openQty, true⟩ :: ((b.remove o.id).enter newId s price qty).2.2) ∨
      (b.replace o.id newId price qty = ((b.remove o.id).rest newId s price qty, true,
          [.replaced ⟨o.id, newId, s, price, qty⟩]) ∧
        ∀ x ∈ b.side s.opposite, ¬ crosses s price x.price) := by
  have hp' : ¬ price ≤ 0 := by lia
  simp only [PriorityBook.replace, h.lookup_iff.mpr ⟨ho, rfl⟩, hne, hfresh, hp', hq,
    Bool.false_eq_true, or_self, if_false]
  split
  · exact Or.inl rfl
  · next hw =>
    refine Or.inr ⟨rfl, fun x hx => ?_⟩
    refine (h.remove o.id).not_crosses_of_wouldCross (by simpa using hw) x
      (mem_side_remove.mpr ⟨hx, ?_⟩)
    exact fun heq => (h.apart s o ho x hx).1 heq.symm

theorem WF.replace_trace (h : b.WF) (oldId newId : OrderId) (price : Price) (qty : Qty) :
    Trace b (b.replace oldId newId price qty).2.2 (b.replace oldId newId price qty).1 := by
  cases hl : b.lookup oldId with
  | none =>
    simp only [PriorityBook.replace, hl]
    exact .nil b
  | some so =>
    obtain ⟨ho, rfl⟩ := lookup_some hl
    by_cases hid : newId = so.2.id ∨ b.contains newId
    · simp only [PriorityBook.replace, hl, if_pos hid]
      exact .nil b
    by_cases hargs : price ≤ 0 ∨ qty = 0
    · simp only [PriorityBook.replace, hl, if_neg hid, if_pos hargs]
      exact .nil b
    simp only [not_or, Bool.not_eq_true] at hid hargs
    have hp : 0 < price := by lia
    have hpos : so.2.openQty ≠ 0 := (h.sides so.1).pos so.2 ho
    have hfresh : (b.remove so.2.id).contains newId = false := by
      rw [contains_remove_of_ne hid.1]
      exact hid.2
    rcases h.replace_spec ho hid.1 hid.2 hp hargs.2 with heq | ⟨heq, hdone⟩
    · rw [heq]
      exact .cons (.canceled ⟨so.2.id, so.2.openQty, true⟩ so.1 so.2 ho rfl hpos (UInt32.le_refl _)
        (by simp)) ((h.remove so.2.id).enter_trace so.1 qty hfresh hp)
    · rw [heq]
      exact .single (.replaced ⟨so.2.id, newId, so.1, price, qty⟩ so.2 ho rfl hid.1 hid.2 hp hargs.2
        hdone)

end operations

end PriorityBook

end MatchingEngine
