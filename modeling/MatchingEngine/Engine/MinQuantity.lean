import MatchingEngine.Book.Liquidity
import MatchingEngine.Engine.Isolation
import MatchingEngine.Engine.Fills

/-! # The minimum quantity

    An accepted order executes against the orders that rest within its limit, as
    far as they and its own shares go. It changes nothing else.

    An order with a minimum quantity is first compared with the peek of its book.
    It executes that much, or it leaves everything as it was. The peek is the
    real liquidity as long as that fits 32 bits; beyond, an order can be killed
    although its minimum quantity is there.
-/

namespace MatchingEngine

open Venue Function

/-! ## Section 1: Executions of an order in flight -/

/-- The record of an order after an execution. -/
def fillRecord (id : OrderId) (info : Option OrderInfo) (x : ExecutedEvent) : Option OrderInfo :=
  if x.restingId = id then info.bind (fun i => i.less x.qty) else info

/-- The orders of a side after an execution. -/
def fillSide (l : List Resting) (x : ExecutedEvent) : List Resting :=
  l.filterMap (reduceAt x.restingId x.qty.toNat)

section executes

variable {now : Nat} {v v' : Venue} {f f' : Flight} {es : List ExecutedEvent}

theorem Executes.inv (h : Executes now v f es v' f') (hinv : Inv v (some f)) : Inv v' (some f') :=
  (hinv.steps_kept (h.steps 0)).1

/-- Only the shares of the order in flight change. -/
theorem Executes.flight (h : Executes now v f es v' f') : f' = { f with left := f'.left } := by
  induction h with
  | refl v f => rfl
  | step _ _ _ _ _ _ ih => exact ih

theorem Executes.same (h : Executes now v f es v' f') :
    v'.used = v.used ∧ v'.nextRef = v.nextRef ∧ ∀ symbol, symbol ≠ f.symbol →
      v'.book symbol = v.book symbol := by
  induction h with
  | refl v f => exact ⟨rfl, rfl, fun _ _ => rfl⟩
  | @step v v' f f' o l resting aggressor es _ _ _ _ _ _ ih =>
    obtain ⟨hused, hnext, hbook⟩ := ih
    refine ⟨hused, hnext, fun symbol hs => ?_⟩
    rw [hbook symbol hs, book_executed, update_of_ne hs]

/-- What is sent: the executions, and their reports. -/
theorem Executes.log (h : Executes now v f es v' f') :
    ∃ body, v'.log = v.log ++ body ∧
      marketEventsOf body = es.map (fun x => ⟨now, f.symbol, .executed x⟩) ∧
      ∀ r ∈ responsesOf body, ∃ m, r.msg = .executed m := by
  induction h with
  | refl v f => exact ⟨[], by simp, rfl, by simp⟩
  | @step v v' f f' o l resting aggressor es _ _ _ _ _ _ ih =>
    obtain ⟨body, hlog, hmarket, htold⟩ := ih
    refine ⟨_, by rw [hlog, log_executed, List.append_assoc], ?_, ?_⟩
    · simp [hmarket]
    · intro r hr
      simp only [responsesOf_append, responsesOf_market, responsesOf_response, responsesOf_nil,
        List.mem_append, List.mem_cons, List.not_mem_nil, or_false] at hr
      obtain (rfl | rfl) | hr := hr
      · exact ⟨_, rfl⟩
      · exact ⟨_, rfl⟩
      · exact htold r hr

theorem Executes.within (h : Executes now v f es v' f') :
    ∀ x ∈ es, x.aggressorId = f.id ∧ crosses f.side f.limit x.price := by
  induction h with
  | refl v f => simp
  | step _ _ cross _ _ _ ih =>
    intro x hx
    rcases List.mem_cons.mp hx with rfl | hx
    · exact ⟨rfl, cross⟩
    · exact ih x hx

theorem Executes.shares (h : Executes now v f es v' f') :
    (es.map (fun x => x.qty.toNat)).sum + f'.left.toNat = f.left.toNat := by
  induction h with
  | refl v f => simp
  | @step v v' f f' o l resting aggressor es _ _ _ _ _ _ ih =>
    have hle : (v.execution f o).qty ≤ f.left := (PriorityBook.execution_le _ _ _ _ _).1
    have hle' : (v.execution f o).qty.toNat ≤ f.left.toNat := hle
    rw [List.map_cons, List.sum_cons, Nat.add_assoc, ih]
    show _ + (f.left - (v.execution f o).qty).toNat = _
    rw [UInt32.toNat_sub_of_le _ _ hle]
    omega

/-- The other orders lose what is executed against them. -/
theorem Executes.orders (h : Executes now v f es v' f') {id : OrderId} (hid : id ≠ f.id) :
    v'.orders id = es.foldl (fillRecord id) (v.orders id) := by
  induction h with
  | refl v f => rfl
  | @step v v' f f' o l resting aggressor es _ _ _ restingInfo _ _ ih =>
    rw [ih hid, List.foldl_cons]
    congr 1
    -- two records change, and one of them is that of the order in flight
    show update (update v.orders o.id _) f.id _ id = if o.id = id then _ else _
    rw [update_of_ne hid]
    by_cases ho : id = o.id
    · subst ho
      rw [update_self, if_pos rfl, restingInfo]
      rfl
    · rw [update_of_ne ho, if_neg (Ne.symm ho)]

theorem Executes.sides (h : Executes now v f es v' f') (hinv : Inv v (some f)) (s : Side) :
    (v'.book f.symbol).side s = es.foldl fillSide ((v.book f.symbol).side s) := by
  induction h with
  | refl v f => rfl
  | @step v v' f f' o l resting aggressor es best left cross restingInfo aggressorInfo _ ih =>
    have hstep : Step now 0 (v, some f) _ :=
      .execute v f o l resting aggressor best left cross restingInfo aggressorInfo
    have ho : o ∈ (v.book f.symbol).side f.side.opposite := by simp [best]
    have hle : (v.execution f o).qty ≤ o.openQty := (PriorityBook.execution_le _ _ _ _ _).2
    have hafter : ((v.executed now f o resting aggressor).book f.symbol).side s =
        fillSide ((v.book f.symbol).side s) (v.execution f o) := by
      -- on its own side the execution finds no order, and changes nothing
      rw [book_executed, update_self, PriorityBook.applyEvent, PriorityBook.side_matchId]
      exact (hinv.mirror.wf f.symbol).side_reduce ho hle
    rw [ih (hinv.step hstep), List.foldl_cons, ← hafter]

/-- Every share that is executed is taken off the liquidity. -/
theorem Executes.liquidity (h : Executes now v f es v' f') (hinv : Inv v (some f)) :
    (es.map (fun x => x.qty.toNat)).sum +
        crossing f.side f.limit ((v'.book f.symbol).side f.side.opposite) =
      crossing f.side f.limit ((v.book f.symbol).side f.side.opposite) := by
  induction h with
  | refl v f => simp
  | @step v v' f f' o l resting aggressor es best left cross restingInfo aggressorInfo _ ih =>
    have hstep : Step now 0 (v, some f) _ :=
      .execute v f o l resting aggressor best left cross restingInfo aggressorInfo
    have hle : (v.execution f o).qty ≤ o.openQty := (PriorityBook.execution_le _ _ _ _ _).2
    have hafter : ((v.executed now f o resting aggressor).book f.symbol).side f.side.opposite =
        PriorityBook.headLeft o l (v.execution f o).qty := by
      rw [book_executed, update_self]
      rw [execution, (hinv.mirror.wf f.symbol).applyEvent_execution best, PriorityBook.side_matchId,
        PriorityBook.side_setSide_self]
    have hrest := ih (hinv.step hstep)
    rw [hafter] at hrest
    rw [List.map_cons, List.sum_cons, Nat.add_assoc, hrest, best]
    exact PriorityBook.crossing_headLeft cross hle

/-- **An order that goes as far as it can** executes all its shares or all the
    liquidity. -/
theorem Executes.filled (h : Executes now v f es v' f') (hinv : Inv v (some f))
    (hdone : f'.left ≠ 0 → Exhausted v' f') :
    (es.map (fun x => x.qty.toNat)).sum = min f.left.toNat
      (crossing f.side f.limit ((v.book f.symbol).side f.side.opposite)) := by
  have hshares := h.shares
  have hcrossing := h.liquidity hinv
  -- it ends for want of its own shares or for want of orders within its limit
  by_cases hleft : f'.left = 0
  · have hzero : f'.left.toNat = 0 := by rw [hleft]; rfl
    omega
  · have hnone := crossing_eq_zero (hdone hleft)
    rw [h.flight] at hnone
    dsimp only at hnone
    omega

end executes

/-! ## Section 2: Outcomes -/

/-- The shares of an order that are executed in a log. -/
def executedOf (ref : OrderId) (log : List Output) : Nat :=
  (((executionsOf log).filter (fun f => f.2.aggressorId = ref ∨ f.2.restingId = ref)).map
    (fun f => f.2.qty.toNat)).sum

/-- A cancellation for the minimum quantity is in the log. -/
def KilledByMin (log : List Output) : Prop :=
  ∃ r ∈ responsesOf log, ∃ c, r.msg = .canceled c ∧ c.reason = ch 'D'

theorem executedOf_eq {ref : OrderId} {log : List Output} {now : Nat} {symbol : Symbol}
    {es : List ExecutedEvent}
    (h : marketEventsOf log = es.map (fun x => ⟨now, symbol, .executed x⟩))
    (hid : ∀ x ∈ es, x.aggressorId = ref) : executedOf ref log =
      (es.map (fun x => x.qty.toNat)).sum := by
  have hexec : executionsOf log = es.map (fun x => (symbol, x)) := by
    rw [executionsOf, h, List.filterMap_map]
    simp
  rw [executedOf, hexec, List.filter_eq_self.mpr, List.map_map]
  · rfl
  · intro x hx
    obtain ⟨y, hy, rfl⟩ := List.mem_map.mp hx
    simp [hid y hy]

theorem executedOf_append (ref : OrderId) (log log' : List Output) :
    executedOf ref (log ++ log') = executedOf ref log + executedOf ref log' := by
  simp [executedOf, executionsOf]

section outcome

variable {now client : Nat} {m : Ouch.EnterOrder} {v v' : Venue} {f : Flight}

/-- The report of an execution, or the cancellation of what is left. -/
def Traded (r : ClientResponse) : Prop :=
  (∃ x, r.msg = .executed x) ∨ ∃ c, r.msg = .canceled c ∧ c.reason = ch 'I'

/-- An order whose minimum quantity is there executes as far as it can. -/
theorem Outcome.traded (h : Outcome now client m v f v') (hinv : Inv v (some f))
    (hmet : ¬ Unmet v f m.minQty) :
    ∃ log, v'.log = v.log ++ log ∧ (∀ r ∈ responsesOf log, Traded r) ∧
      executedOf f.id log = min f.left.toNat
        (crossing f.side f.limit ((v.book f.symbol).side f.side.opposite)) := by
  -- what comes after the executions reports none
  have hall : ∀ {v₁ f₁ es tail}, Executes now v f es v₁ f₁ → (f₁.left ≠ 0 → Exhausted v₁ f₁) →
      v'.log = v₁.log ++ tail → (∀ r ∈ responsesOf tail, Traded r) → executionsOf tail = [] →
      ∃ log, v'.log = v.log ++ log ∧ (∀ r ∈ responsesOf log, Traded r) ∧
        executedOf f.id log = min f.left.toNat
          (crossing f.side f.limit ((v.book f.symbol).side f.side.opposite)) := by
    intro v₁ f₁ es tail hexec hdone hlog htail hnone
    obtain ⟨body, hbody, hmarket, htold⟩ := hexec.log
    refine ⟨body ++ tail, by rw [hlog, hbody, List.append_assoc], ?_, ?_⟩
    · intro r hr
      rw [responsesOf_append] at hr
      rcases List.mem_append.mp hr with hr | hr
      · exact Or.inl (htold r hr)
      · exact htail r hr
    · rw [executedOf_append, executedOf_eq hmarket (fun x hx => (hexec.within x hx).1)]
      rw [← hexec.filled hinv hdone, executedOf, hnone]
      rfl
  cases h with
  | killed unmet => exact absurd unmet hmet
  | filled _ _ executes left =>
    exact hall executes (fun hne => absurd left hne) (List.append_nil _).symm (by simp) rfl
  | @canceled v₁ f₁ es info _ _ executes left done live owner =>
    refine hall executes (fun _ => done) rfl ?_ rfl
    intro r hr
    cases List.mem_singleton.mp hr
    exact Or.inr ⟨_, rfl, rfl⟩
  | entered _ _ enters =>
    cases enters with
    | landed executes left =>
      exact hall executes (fun hne => absurd left hne) (List.append_nil _).symm (by simp) rfl
    | rested executes left price done => exact hall executes (fun _ => done) rfl (by simp) rfl

end outcome

/-! ## Section 3: The engine -/

namespace Engine

section entry

variable {now client : Nat} {m : Ouch.EnterOrder} {side : Side} {e e' : Engine FastBook}
  {v v' : Venue}

/-- The order in flight, right after it was accepted. -/
def flightOf (ref : OrderId) (m : Ouch.EnterOrder) (side : Side) : Flight :=
  ⟨ref, m.stock, side, limitFor m side, m.shares⟩

theorem Realizes.inv_accepted (h : Realizes e v) (hinv : Inv v none) (now : Nat)
    (hacc : e.Accepts client m side) :
    Inv (v.accepted now client m side) (some (flightOf v.nextRef m side)) := by
  have hnew : tokenKey client m.token ∉ v.used := by
    simpa [tokenUsed, h.records.used] using hacc.token
  exact hinv.step (.accept v m side (limitFor m side) hnew hacc.shares)

/-- The gate looks at the liquidity modulo 2^32. -/
theorem unmet_iff (now client : Nat) (hwf : (v.book m.stock).WF) :
    Unmet (v.accepted now client m side) (flightOf v.nextRef m side) m.minQty ↔
      0 < m.minQty ∧ liquidity (v.book m.stock).snapshot side (limitFor m side) % 2 ^ 32 <
        m.minQty.toNat := by
  rw [liquidity, hwf.entries_snapshot, ← PriorityBook.toNat_matchable]
  exact Iff.rfl

/-- The orders, tokens and books of two engines are the same. -/
structure SameState (e e' : Engine FastBook) : Prop where
  snapshots : ∀ symbol, e'.bookSnapshot symbol = e.bookSnapshot symbol
  orders : e'.orders = e.orders
  liveTokens : e'.liveTokens = e.liveTokens

theorem sameState_of_realizes (h : Realizes e v) (h' : Realizes e' v') (hbook : v'.book = v.book)
    (horders : v'.orders = v.orders) : SameState e e' where
  snapshots := fun symbol => by rw [h'.bookSnapshot, h.bookSnapshot, hbook]
  orders := Finmap.ext_lookup (fun id => by rw [h'.records.orders, h.records.orders, horders])
  liveTokens := by
    apply Finmap.ext_lookup
    intro key
    apply Option.ext
    intro id
    rw [h'.records.live, h.records.live, horders]

/-- What an order leaves behind that is killed for its minimum quantity. -/
structure Undone (now client : Nat) (m : Ouch.EnterOrder) (side : Side) (e e' : Engine FastBook)
    (new : List Output) : Prop where
  told : new = [.response ⟨client, .accepted (acceptedMsg now e.nextRef side m)⟩,
    .response ⟨client, .canceled ⟨now, m.token, m.shares, ch 'D'⟩⟩]
  same : SameState e e'
  usedTokens : e'.usedTokens = insert (tokenKey client m.token) e.usedTokens
  nextRef : e'.nextRef = e.nextRef + 1

/-- The two ways of an accepted order. -/
theorem Realizes.enter_cases (h : Realizes e v) (hinv : Inv v none) (now : Nat)
    (hacc : e.Accepts client m side) :
    ∃ e' new, e.process now ⟨client, .enter m⟩ = some e' ∧ e'.out = e.out ++ new ∧
      (Unmet (v.accepted now client m side) (flightOf v.nextRef m side) m.minQty ∧
          Undone now client m side e e' new ∨
        ¬ Unmet (v.accepted now client m side) (flightOf v.nextRef m side) m.minQty ∧
          (∃ body, new = .response ⟨client, .accepted (acceptedMsg now e.nextRef side m)⟩ :: body ∧
            ∀ r ∈ responsesOf body, Traded r) ∧
          executedOf e.nextRef new = min m.shares.toNat
            (liquidity (v.book m.stock).snapshot side (limitFor m side))) := by
  have hinv₁ := h.inv_accepted hinv now hacc
  obtain ⟨e', v', hprocess, hout, h'⟩ := h.enter hinv now hacc
  have hlog : e.out = v.log := h.records.out
  have hnext : e.nextRef = v.nextRef := h.records.nextRef
  by_cases hunmet : Unmet (v.accepted now client m side) (flightOf v.nextRef m side) m.minQty
  · cases hout with
    | filled met => exact absurd hunmet met
    | canceled met => exact absurd hunmet met
    | entered met => exact absurd hunmet met
    | @killed info _ _ live owner =>
      -- the gate comes before the book
      rw [orders_accepted, update_self] at live
      cases live
      refine ⟨e', [.response ⟨client, .accepted (acceptedMsg now e.nextRef side m)⟩,
        .response ⟨client, .canceled ⟨now, m.token, m.shares, ch 'D'⟩⟩], hprocess, ?_,
        Or.inl ⟨hunmet, rfl, sameState_of_realizes h h' rfl ?_, ?_, ?_⟩⟩
      · rw [h'.records.out, hlog, hnext]
        exact List.append_assoc _ [_] [_]
      · -- the record of the order is made and dropped
        have hfree : v.orders v.nextRef = none := by
          by_contra hne
          obtain ⟨info, hi⟩ := Option.ne_none_iff_exists'.mp hne
          exact Nat.lt_irrefl _ (hinv.keys.fresh hi)
        show update (update v.orders v.nextRef _) v.nextRef none = v.orders
        rw [update_idem, ← hfree, update_eq_self]
      · rw [h'.records.used, h.records.used]
        rfl
      · rw [h'.records.nextRef, hnext]
        rfl
  · obtain ⟨log, hlog', htold, hexec⟩ := hout.traded hinv₁ hunmet
    refine ⟨e', .response ⟨client, .accepted (acceptedMsg now e.nextRef side m)⟩ :: log,
      hprocess, ?_, Or.inr ⟨hunmet, ⟨log, rfl, htold⟩, ?_⟩⟩
    · rw [h'.records.out, hlog', hlog, hnext]
      exact List.append_assoc _ [_] log
    · rw [liquidity, (hinv.mirror.wf m.stock).entries_snapshot, hnext]
      exact hexec

/-- The orders that are killed. -/
theorem Realizes.killed_iff (h : Realizes e v) (hinv : Inv v none) (now : Nat)
    (hacc : e.Accepts client m side) :
    ∃ e' new, e.process now ⟨client, .enter m⟩ = some e' ∧ e'.out = e.out ++ new ∧
      (KilledByMin new ↔ 0 < m.minQty ∧
        liquidity (v.book m.stock).snapshot side (limitFor m side) % 2 ^ 32 < m.minQty.toNat) := by
  obtain ⟨e', new, hprocess, hout, hcases⟩ := h.enter_cases hinv now hacc
  refine ⟨e', new, hprocess, hout, ?_⟩
  rw [← unmet_iff now client (hinv.mirror.wf m.stock)]
  rcases hcases with ⟨hunmet, hundone⟩ | ⟨hmet, ⟨body, rfl, htold⟩, -⟩
  · refine ⟨fun _ => hunmet, fun _ => ?_⟩
    rw [hundone.told]
    exact ⟨_, List.mem_cons_of_mem _ List.mem_cons_self, _, rfl, rfl⟩
  · -- the only cancellation is that of a remainder
    refine ⟨?_, fun hunmet => absurd hunmet hmet⟩
    rintro ⟨r, hr, c, hc, hreason⟩
    rw [responsesOf_response] at hr
    rcases List.mem_cons.mp hr with rfl | hr
    · cases hc
    · rcases htold r hr with ⟨x, hx⟩ | ⟨c', hc', hreason'⟩
      · cases hc.symm.trans hx
      · cases hc.symm.trans hc'
        cases hreason.symm.trans hreason'

end entry

/-- **The peek and the fills.** In a fast book the peek is the exact liquidity as
    long as that fits a `Qty`, and fills go by the exact liquidity; this holds for
    every ladder whose size fits an `int`. The engine kills an order for its minimum
    quantity by the liquidity modulo 2^32. -/
theorem peek_exact_iff (cfg : FastBook.Config) (cmds : List (Nat × Command)) (now client : Nat)
    (m : Ouch.EnterOrder) (side : Side) :
    (0 < cfg.tick → 0 ≤ cfg.bandHalfTicks.toInt →
      ((∀ ops, ∃ fb answers snap, Machine.run FastBook.perform (FastBook.create cfg) ops =
        some (fb, answers) ∧
        fb.snapshot = some snap ∧ fb.Peeks snap) ↔ cfg.bandHalfTicks.toInt < 2 ^ 30)) ∧
    ∃ e snap, Engine.run ({} : Engine FastBook) cmds = some e ∧
      e.bookSnapshot m.stock = some snap ∧
      (e.Accepts client m side → ∃ e' new, e.process now ⟨client, .enter m⟩ = some e' ∧
        e'.out = e.out ++ new ∧
        (KilledByMin new ↔ 0 < m.minQty ∧
          liquidity snap side (limitFor m side) % 2 ^ 32 < m.minQty.toNat) ∧
        (liquidity snap side (limitFor m side) < 2 ^ 32 →
          (KilledByMin new ↔ 0 < m.minQty ∧ liquidity snap side (limitFor m side) <
            m.minQty.toNat))) := by
  constructor
  · intro htick hhalf
    exact FastBook.peeks_iff htick hhalf
  · obtain ⟨e, v, hrun, hv, hreal⟩ := realizes_fresh.run inv_fresh cmds
    refine ⟨e, _, hrun, hreal.bookSnapshot m.stock, fun hacc => ?_⟩
    obtain ⟨e', new, hprocess, hout, hkilled⟩ := hreal.killed_iff (hv.inv inv_fresh) now hacc
    refine ⟨e', new, hprocess, hout, hkilled, fun hlt => ?_⟩
    rwa [Nat.mod_eq_of_lt hlt] at hkilled

/-- Two sell orders of 2^31 shares each. -/
def largeSells : List (Nat × Command) :=
  [(0, ⟨1, .enter { dayOrder 65 .sell 65 with shares := 2147483648 }⟩),
    (0, ⟨1, .enter { dayOrder 66 .sell 65 with shares := 2147483648 }⟩)]

/-- A buy order for one share, which is its minimum quantity. -/
def smallBuy : Ouch.EnterOrder := { dayOrder 65 .buy 65 with minQty := 1 }

/-- Against 2^32 shares the peek of the book says 0, although a share would be
    filled; and the engine kills an order for one share. -/
theorem killed_despite_liquidity :
    (∃ fb answers, Machine.run FastBook.perform (FastBook.create {})
        [.add 1 .sell 1 2147483648, .add 2 .sell 1 2147483648] = some (fb, answers) ∧
      (∃ fb', fb.matchable .buy 1 = some (fb', 0)) ∧
      ∃ fb' filled es, fb.executeIoc 3 .buy 1 1 = some (fb', filled, es) ∧ filled = 1) ∧
    ∃ e e' snap new, Engine.run ({} : Engine FastBook) largeSells = some e ∧
      e.bookSnapshot smallBuy.stock = some snap ∧ liquidity snap .buy smallBuy.price = 2 ^ 32 ∧
      e.process 0 ⟨2, .enter smallBuy⟩ = some e' ∧ e'.out = e.out ++ new ∧ KilledByMin new := by
  constructor
  · obtain ⟨fb, a, answers, hrun, harun, h⟩ := FastBook.simulation.run
      (FastBook.models_create
        (show FastBook.Config.Valid {} from ⟨by decide, by decide, by decide⟩))
      [.add 1 .sell 1 2147483648, .add 2 .sell 1 2147483648]
    have ha : a = { asks := [⟨1, 1, 2147483648⟩, ⟨2, 1, 2147483648⟩] } := by
      have heval : (Machine.run (fun a op => some (PriorityBook.perform a op)) {}
          [.add 1 .sell 1 2147483648, .add 2 .sell 1 2147483648]).map Prod.fst =
            some { asks := [⟨1, 1, 2147483648⟩, ⟨2, 1, 2147483648⟩] } := by decide +kernel
      rw [harun] at heval
      exact Option.some.inj heval
    have hliq : liquidity a.snapshot .buy 1 = 2 ^ 32 := by
      rw [ha]
      decide +kernel
    refine ⟨fb, answers, hrun, ?_, ?_⟩
    · obtain ⟨fb', available, heq, hmod, -⟩ := h.peeks.matchable .buy 1
      rw [hliq] at hmod
      have hzero : available = 0 := UInt32.toNat_inj.mp hmod
      exact ⟨fb', hzero ▸ heq⟩
    · obtain ⟨fb', filled, es, heq, hfilled, -⟩ := h.peeks.executeIoc 3 .buy 1 1
      rw [hliq] at hfilled
      exact ⟨fb', filled, es, heq, UInt32.toNat_inj.mp hfilled⟩
  · obtain ⟨e, a, he, ha, hsim⟩ := sim_fresh.run largeSells
    obtain ⟨e₁, v, hrun, hv, hreal⟩ := realizes_fresh.run inv_fresh largeSells
    cases he.symm.trans hrun
    -- the run is evaluated over priority books
    have heval : (({} : Engine PriorityBook).run largeSells).map (fun a =>
        ((a.bookSnapshot smallBuy.stock).map (fun snap => liquidity snap .buy smallBuy.price),
          a.tokenUsed 2 smallBuy.token)) = some (some (2 ^ 32), false) := by decide +kernel
    rw [ha, Option.map_some, Option.some.injEq, Prod.mk.injEq] at heval
    have hsnap := hreal.bookSnapshot smallBuy.stock
    rw [hsim.bookSnapshot] at hsnap
    rw [hsnap, Option.map_some, Option.some.injEq] at heval
    have hacc : e.Accepts 2 smallBuy .buy := by
      refine ⟨?_, by decide, by decide, by decide⟩
      obtain ⟨books, rfl, -⟩ := hsim
      exact heval.2
    obtain ⟨e', new, hprocess, hout, hkilled⟩ := hreal.killed_iff (hv.inv inv_fresh) 0 hacc
    refine ⟨e, e', _, new, hrun, hreal.bookSnapshot _, heval.1, hprocess, hout, hkilled.mpr ?_⟩
    have hlimit : limitFor smallBuy .buy = smallBuy.price := by decide
    rw [hlimit, heval.1]
    decide

/-- **Minimum quantity is all or nothing.** -/
theorem min_qty_all_or_nothing (cmds : List (Nat × Command)) (now client : Nat)
    (m : Ouch.EnterOrder) (side : Side) :
    ∃ e, Engine.run ({} : Engine FastBook) cmds = some e ∧
      (e.Accepts client m side → 0 < m.minQty →
        ∃ e' new, e.process now ⟨client, .enter m⟩ = some e' ∧ e'.out = e.out ++ new ∧
          (min m.minQty.toNat m.shares.toNat ≤ executedOf e.nextRef new ∨
            executedOf e.nextRef new = 0 ∧ Undone now client m side e e' new)) := by
  obtain ⟨e, v, hrun, hv, hreal⟩ := realizes_fresh.run inv_fresh cmds
  refine ⟨e, hrun, fun hacc hmin => ?_⟩
  have hinv := hv.inv inv_fresh
  obtain ⟨e', new, hprocess, hout, hcases⟩ := hreal.enter_cases hinv now hacc
  refine ⟨e', new, hprocess, hout, ?_⟩
  rcases hcases with ⟨-, hundone⟩ | ⟨hmet, -, hexec⟩
  · refine Or.inr ⟨?_, hundone⟩
    rw [hundone.told]
    rfl
  · -- the gate never overstates the liquidity
    rw [unmet_iff now client (hinv.mirror.wf m.stock)] at hmet
    have hle : m.minQty.toNat ≤ liquidity (v.book m.stock).snapshot side (limitFor m side) := by
      have hmod := Nat.mod_le (liquidity (v.book m.stock).snapshot side (limitFor m side)) (2 ^ 32)
      have hge := Nat.not_lt.mp (fun hlt => hmet ⟨hmin, hlt⟩)
      omega
    rw [hexec]
    omega

end Engine

end MatchingEngine
