import MatchingEngine.Engine.Simulation
import MatchingEngine.Engine.Entry

/-! # The engine refines the venue

    The engine over priority books takes every command in steps of the venue.
    `Records` relates what the engine records to the venue; it does not speak of
    the books, which the engine changes before its callbacks run. A callback is
    then one step of the venue, or a part of one.
-/

namespace MatchingEngine

open Function PriorityBook
open Ouch (Token Response)
open Venue

namespace Engine

/-! ## Section 1: Records -/

/-- The engine's records are those of the venue. -/
structure Records {B : Type} (now : Nat) (symbol : Symbol) (suppress : Bool) (e : Engine B)
    (v : Venue) : Prop where
  orders : ∀ id, e.orders.lookup id = v.orders id
  live : ∀ {key id}, e.liveTokens.lookup key = some id ↔
    ∃ info, v.orders id = some info ∧ info.key = key
  used : e.usedTokens = v.used
  nextRef : e.nextRef = v.nextRef
  out : e.out = v.log
  faults : e.faults = []
  now : e.now = now
  symbol : e.currentSymbol = symbol
  suppress : e.suppressOuchCancel = suppress

section records

variable {now : Nat} {symbol : Symbol} {flag : Bool} {e : Engine PriorityBook} {v : Venue}
  {id : OrderId} {info : OrderInfo}

theorem Records.push (h : Records now symbol flag e v) (o : Output) :
    Records now symbol flag (e.push o) (v.say [o]) :=
  { h with out := congrArg (· ++ [o]) h.out }

theorem Records.respond (h : Records now symbol flag e v) (client : Nat) (msg : Response) :
    Records now symbol flag (e.respond client msg) (v.say [.response ⟨client, msg⟩]) :=
  h.push _

/-- Nothing here depends on the books. -/
theorem Records.setBook (h : Records now symbol flag e v) (s : Symbol) (b : PriorityBook) :
    Records now symbol flag (e.setBook s b) v :=
  { h with }

theorem Records.setSymbol (h : Records now symbol flag e v) (s : Symbol) :
    Records now s flag (e.setSymbol s) v :=
  { h with symbol := rfl }

theorem Records.setSuppress (h : Records now symbol flag e v) (flag' : Bool) :
    Records now symbol flag' (e.setSuppress flag') v :=
  { h with suppress := rfl }

theorem Records.setNow (h : Records now symbol flag e v) (now' : Nat) :
    Records now' symbol flag (e.setNow now') v :=
  { h with now := rfl }

theorem Records.publish (h : Records now symbol flag e v) (ev : BookEvent) :
    Records now symbol flag (e.publish ev) (v.event now symbol ev) := by
  have hp := h.push (.market ⟨now, symbol, ev⟩)
  rw [Engine.publish, h.now, h.symbol]
  exact { hp with }

/-- A live order and its token go. -/
theorem Records.drop (h : Records now symbol flag e v) (hk : Keys v)
    (hi : v.orders id = some info) : Records now symbol flag
      { e with liveTokens := e.liveTokens.erase info.key, orders := e.orders.erase id }
      (v.setOrder id none) where
  orders := fun id' => by
    rw [orders_setOrder]
    by_cases hid : id' = id
    · rw [hid, Finmap.lookup_erase, update_self]
    · rw [Finmap.lookup_erase_ne hid, update_of_ne hid, h.orders]
  live := fun {key id'} => by
    rw [orders_setOrder]
    by_cases hkey : key = info.key
    · -- no other live order has the key
      rw [hkey, Finmap.lookup_erase]
      refine ⟨(fun h => by cases h), fun ⟨i, hi', hik⟩ => ?_⟩
      by_cases hid : id' = id
      · rw [hid, update_self] at hi'
        cases hi'
      · rw [update_of_ne hid] at hi'
        exact absurd (hk.unique hi' hi hik) hid
    · rw [Finmap.lookup_erase_ne hkey, h.live]
      by_cases hid : id' = id
      · rw [hid, update_self, hi]
        refine ⟨fun ⟨i, hi', hik⟩ => ?_, fun ⟨i, hi', _⟩ => by cases hi'⟩
        cases hi'
        exact absurd hik.symm hkey
      · rw [update_of_ne hid]
  used := h.used
  nextRef := h.nextRef
  out := h.out
  faults := h.faults
  now := h.now
  symbol := h.symbol
  suppress := h.suppress

/-- A live order gets another open quantity. -/
theorem Records.setOpen (h : Records now symbol flag e v) (hi : v.orders id = some info)
    (qty : Qty) :
    Records now symbol flag { e with orders := e.orders.insert id { info with openQty := qty } }
      (v.setOrder id (some { info with openQty := qty })) where
  orders := fun id' => by
    rw [orders_setOrder]
    by_cases hid : id' = id
    · rw [hid, Finmap.lookup_insert, update_self]
    · rw [Finmap.lookup_insert_of_ne _ hid, update_of_ne hid, h.orders]
  live := fun {key id'} => by
    rw [orders_setOrder, h.live]
    by_cases hid : id' = id
    · rw [hid, update_self, hi]
      simp [OrderInfo.key]
    · rw [update_of_ne hid]
  used := h.used
  nextRef := h.nextRef
  out := h.out
  faults := h.faults
  now := h.now
  symbol := h.symbol
  suppress := h.suppress

/-- A new order with a new token. -/
theorem Records.enroll (h : Records now symbol flag e v) (info : OrderInfo) (hk : Keys v)
    (hnew : info.key ∉ v.used) :
    Records now symbol flag
      { e with
        nextRef := e.nextRef + 1
        usedTokens := insert info.key e.usedTokens
        liveTokens := e.liveTokens.insert info.key e.nextRef
        orders := e.orders.insert e.nextRef info } (v.enroll info) where
  orders := fun id' => by
    simp only [Venue.enroll, orders_setOrder, h.nextRef]
    by_cases hid : id' = v.nextRef
    · rw [hid, Finmap.lookup_insert, update_self]
    · rw [Finmap.lookup_insert_of_ne _ hid, update_of_ne hid, h.orders]
  live := fun {key id'} => by
    simp only [Venue.enroll, orders_setOrder, h.nextRef]
    have hold : ∀ {i}, v.orders id' = some i → id' ≠ v.nextRef ∧ i.key ≠ info.key :=
      fun hi => ⟨Nat.ne_of_lt (hk.fresh hi), fun heq => hnew (heq ▸ hk.used hi)⟩
    by_cases hid : id' = v.nextRef
    · rw [hid, update_self]
      by_cases hkey : key = info.key
      · rw [hkey, Finmap.lookup_insert]
        simp
      · rw [Finmap.lookup_insert_of_ne _ hkey, h.live]
        constructor
        · rintro ⟨i, hi, -⟩
          exact absurd hid (hold (hid ▸ hi)).1
        · rintro ⟨i, hi, hik⟩
          exact absurd (Option.some.inj hi ▸ hik).symm hkey
    · rw [update_of_ne hid]
      by_cases hkey : key = info.key
      · rw [hkey, Finmap.lookup_insert]
        constructor
        · intro hi
          exact absurd (Option.some.inj hi).symm hid
        · rintro ⟨i, hi, hik⟩
          exact absurd hik (hold hi).2
      · rw [Finmap.lookup_insert_of_ne _ hkey, h.live]
  used := congrArg (insert info.key) h.used
  nextRef := congrArg (· + 1) h.nextRef
  out := h.out
  faults := h.faults
  now := h.now
  symbol := h.symbol
  suppress := h.suppress

/-! ### Callbacks -/

theorem Records.reduceOpen (h : Records now symbol flag e v) (hk : Keys v) (id : OrderId)
    (qty : Qty) (hi : v.orders id = some info) (hle : qty ≤ info.openQty) :
    Records now symbol flag (e.reduceOpen id qty) (v.setOrder id (info.less qty)) := by
  have hlt : ¬ info.openQty < qty := UInt32.not_lt.mpr hle
  simp only [Engine.reduceOpen, h.orders, hi, audit, hlt, decide_false, Bool.false_eq_true,
    if_false, OrderInfo.less]
  split
  · exact h.drop hk hi
  · exact h.setOpen hi _

theorem Records.notify (h : Records now symbol flag e v) (hi : v.orders id = some info)
    (x : ExecutedEvent) (liquidity : Char) :
    Records now symbol flag (e.notify x id liquidity)
      (v.say [.response ⟨info.clientId, .executed (executedMsg now info x liquidity)⟩]) := by
  simp only [Engine.notify, h.orders, hi, h.now]
  exact h.respond _ _

/-- The callback of an execution. -/
theorem Records.onExecuted (h : Records now symbol flag e v) {f : Flight} (hinv : Inv v (some f))
    (hsym : f.symbol = symbol) {o : Resting} {l : List Resting} {resting aggressor : OrderInfo}
    (hl : (v.book f.symbol).side f.side.opposite = o :: l) (hleft : f.left ≠ 0)
    (hr : v.orders o.id = some resting) (ha : v.orders f.id = some aggressor) :
    Records now symbol flag (e.onExecuted (v.execution f o))
      (v.executed now f o resting aggressor) := by
  have ho : o ∈ (v.book f.symbol).side f.side.opposite := by simp [hl]
  have hne : f.id ≠ o.id := (hinv.mirror.apart f rfl ho).symm
  obtain ⟨hqa, hqr⟩ := execution_le (v.book f.symbol) f.id f.side o f.left
  have hopen : resting.openQty = o.openQty := (hinv.mirror.record ho hr).2.2
  obtain ⟨info, hi, -, -, hleft'⟩ := hinv.mirror.flight f rfl hleft
  cases ha.symm.trans hi
  -- one line of the callback after the other
  have h₁ := (h.publish (.executed (v.execution f o))).notify hr (v.execution f o) 'A'
  have h₂ := h₁.notify ha (v.execution f o) 'R'
  have h₃ := h₂.reduceOpen (hinv.keys.congr rfl rfl rfl) o.id (v.execution f o).qty hr (hopen ▸ hqr)
  have hk := hinv.keys.setLess hr (v.execution f o).qty
  have ha' : (v.setOrder o.id (resting.less (v.execution f o).qty)).orders f.id =
      some aggressor := by
    rw [orders_setOrder, update_of_ne hne, ha]
  have h₄ := h₃.reduceOpen (hk.congr rfl rfl rfl) f.id (v.execution f o).qty ha'
    (by rw [hleft']; exact hqa)
  subst hsym
  exact { h₄ with out := h₄.out.trans (by simp [say, setOrder, executed]) }

/-- The callback of a cancellation the owner asked for. -/
theorem Records.onCanceled (h : Records now symbol false e v) (hinv : Inv v none)
    {x : CanceledEvent} (hsym : info.symbol = symbol) {o : Resting} (hi : v.orders x.id = some info)
    (ho : o ∈ (v.book info.symbol).side info.side) (hid : o.id = x.id)
    (hle : x.canceledQty ≤ o.openQty) (hr : x.removed = true ↔ x.canceledQty = o.openQty) :
    Records now symbol false (e.onCanceled x) (v.canceled now info x) := by
  have hopen : info.openQty = o.openQty := (hinv.mirror.record ho (hid ▸ hi)).2.2
  have h₁ := (h.publish (.canceled x)).respond info.clientId
    (.canceled ⟨now, info.token, x.canceledQty, ch 'U'⟩)
  have htell : (e.publish (.canceled x)).tellCanceled x =
      (e.publish (.canceled x)).respond info.clientId
        (.canceled ⟨now, info.token, x.canceledQty, ch 'U'⟩) := by
    have h₀ := h.publish (.canceled x)
    rw [tellCanceled, h₀.suppress, h₀.orders, h₀.now]
    simp [event, hi]
  subst hsym
  simp only [Engine.onCanceled, htell]
  generalize (e.publish (.canceled x)).respond info.clientId
    (.canceled ⟨now, info.token, x.canceledQty, ch 'U'⟩) = e₁ at h₁
  split
  · exact h₁.reduceOpen (hinv.keys.congr rfl rfl rfl) x.id x.canceledQty hi (hopen ▸ hle)
  · next hkept =>
    have hne : x.canceledQty ≠ o.openQty := fun heq => hkept (hr.mpr heq)
    have hless : info.less x.canceledQty =
        some { info with openQty := info.openQty - x.canceledQty } := by
      rw [OrderInfo.less, if_neg (by rw [hopen]; grind)]
    have hlt : ¬ info.openQty < x.canceledQty := by
      rw [hopen]
      exact UInt32.not_lt.mpr hle
    have hi₁ : e₁.orders.lookup x.id = some info := (h₁.orders _).trans hi
    have h₂ := h₁.setOpen hi (info.openQty - x.canceledQty)
    rw [← hless] at h₂
    simp only [hi₁, audit, hlt, decide_false, Bool.false_eq_true, if_false]
    exact h₂

/-- The callback of the cancellation inside a replace: the order is no longer
    recorded, and nobody is told. -/
theorem Records.onCanceled_suppressed (h : Records now symbol true e v) {x : CanceledEvent}
    (hi : v.orders x.id = none) (hr : x.removed = true) :
    Records now symbol true (e.onCanceled x) (v.event now symbol (.canceled x)) := by
  have h₁ := h.publish (.canceled x)
  have hi' : (e.publish (.canceled x)).orders.lookup x.id = none := (h₁.orders _).trans hi
  simpa only [Engine.onCanceled, tellCanceled, h₁.suppress, if_true, hr, Engine.reduceOpen,
    hi'] using h₁

/-- The end of an order that does not rest. -/
theorem Records.cancelUnrested (h : Records now symbol flag e v) (hk : Keys v) (f : Flight)
    (hi : v.orders f.id = some info) (reason : Char) {client : Nat} {token : Token}
    (hclient : info.clientId = client) (htoken : info.token = token) :
    Records now symbol flag (e.cancelUnrested client f.id token f.left reason)
      (v.killed now f info reason) := by
  subst hclient htoken
  have h₁ := h.respond info.clientId (.canceled ⟨now, info.token, f.left, ch reason⟩)
  rw [Engine.cancelUnrested, h.now]
  exact h₁.drop (hk.congr rfl rfl rfl) hi

/-- A walk of the book is a run of executions of the order in flight. -/
theorem Records.walk {id : OrderId} {side : Side} {limit : Price} {b b' : PriorityBook}
    {qty left : Qty} {es : List ExecutedEvent}
    (hw : Walks id side limit b qty es b' left) (hb : v.book symbol = b)
    (h : Records now symbol flag e v) (hinv : Inv v (some ⟨id, symbol, side, limit, qty⟩)) :
    ∃ v', Executes now v ⟨id, symbol, side, limit, qty⟩ es v' ⟨id, symbol, side, limit, left⟩ ∧
      v'.book = update v.book symbol b' ∧
      Records now symbol flag (e.onEvents (es.map .executed)) v' := by
  induction hw generalizing e v with
  | refl b qty => exact ⟨v, .refl v _, by rw [← hb, update_eq_self], h⟩
  | @step b b' qty qty' o l es hl hq hc _ ih =>
    subst hb
    have ho : o ∈ (v.book symbol).side side.opposite := by simp [hl]
    obtain ⟨resting, hr, -⟩ := hinv.mirror.resting ho
    obtain ⟨aggressor, ha, -⟩ := hinv.mirror.flight _ rfl hq
    have hstep : Step now 0 (v, _) _ := .execute v ⟨id, symbol, side, limit, qty⟩ o l resting
      aggressor hl hq hc hr ha
    obtain ⟨v', hexec, hbook, hrec⟩ := ih (v := v.executed now ⟨id, symbol, side, limit, qty⟩ o
      resting aggressor) (e := e.onExecuted (v.execution ⟨id, symbol, side, limit, qty⟩ o))
      (by rw [book_executed, update_self]; rfl)
      (h.onExecuted hinv rfl hl hq hr ha) (hinv.step hstep)
    refine ⟨v', .step hl hq hc hr ha hexec, ?_, hrec⟩
    rw [hbook, book_executed, update_idem]

/-- An order that enters the book executes, and what is left of it rests. -/
theorem Records.enter {id : OrderId} {side : Side} {price : Price} {qty : Qty}
    (h : Records now symbol flag e v) (hinv : Inv v (some ⟨id, symbol, side, price, qty⟩))
    (hp : 0 < price) :
    ∃ v', Enters now v ⟨id, symbol, side, price, qty⟩ v' ∧
      v'.book = update v.book symbol ((v.book symbol).enter id side price qty).1 ∧
      Records now symbol flag (e.onEvents ((v.book symbol).enter id side price qty).2.2) v' := by
  obtain ⟨es, b', left, hw, hdone, heq⟩ := (hinv.mirror.wf symbol).enter_walks id side price qty
  obtain ⟨v', hexec, hbook, hrec⟩ := Records.walk hw rfl h hinv
  have hb' : v'.book symbol = b' := by rw [hbook, update_self]
  rw [heq]
  by_cases hleft : left = 0
  · rw [if_pos hleft]
    exact ⟨v', .landed hexec hleft, hbook, hrec⟩
  · rw [if_neg hleft]
    refine ⟨_, .rested hexec hleft hp (by simpa only [Exhausted, hb'] using hdone hleft), ?_, ?_⟩
    · rw [book_rested, hbook, update_idem, update_self]
    · simp only [onEvents, List.foldl_append]
      exact hrec.publish _

end records

/-! ## Section 2: Commands -/

/-- The books of the engine are those of the venue. A book that was never asked
    for is empty. -/
def Shelves (e : Engine PriorityBook) (v : Venue) : Prop :=
  ∀ symbol, (e.books.lookup symbol).getD {} = v.book symbol

section commands

variable {now client : Nat} {symbol : Symbol} {flag : Bool} {e e' : Engine PriorityBook}
  {v v' : Venue}

theorem Shelves.update (h : Shelves e v) {b : PriorityBook}
    (he : e'.books = e.books.insert symbol b) (hv : v'.book = update v.book symbol b) :
    Shelves e' v' := by
  intro symbol'
  rw [he, hv]
  by_cases hs : symbol' = symbol
  · rw [hs, Finmap.lookup_insert, update_self, Option.getD_some]
  · rw [Finmap.lookup_insert_of_ne _ hs, update_of_ne hs]
    exact h symbol'

theorem bookFor_spec (h : Records now symbol flag e v) (hb : Shelves e v) (s : Symbol) :
    ∃ e₁, e.bookFor s = (e₁, v.book s) ∧ Records now symbol flag e₁ v ∧ Shelves e₁ v := by
  have hs := hb s
  unfold bookFor
  cases hl : e.books.lookup s with
  | some book =>
    rw [hl, Option.getD_some] at hs
    exact ⟨e, by rw [hs], h, hb⟩
  | none =>
    rw [hl, Option.getD_none] at hs
    refine ⟨e.setBook s {}, by rw [← hs]; rfl, h.setBook s {}, hb.update (b := {}) rfl ?_⟩
    rw [hs, update_eq_self]

theorem minQtyUnmet_spec (b : PriorityBook) (side : Side) (limit : Price) (minQty : Qty) :
    minQtyUnmet b side limit minQty =
      some (b, decide (0 < minQty ∧ b.matchable side limit < minQty)) := by
  unfold minQtyUnmet
  split
  · next hpos => simp [show 0 < minQty from hpos, book_matchable]
  · next hpos => simp [show ¬ 0 < minQty from hpos]

/-- What becomes of an order that was accepted. -/
theorem Records.execute {m : Ouch.EnterOrder} {side : Side} {ref : OrderId}
    (h : Records now m.stock false e v) (hb : Shelves e v)
    (hinv : Inv v (some ⟨ref, m.stock, side, limitFor m side, m.shares⟩)) (hshares : m.shares ≠ 0)
    (hi : v.orders ref = some ⟨client, m.token, m.stock, side, m.shares⟩)
    (hp : m.price ≠ Ouch.kMarketPrice → 0 < m.price) :
    ∃ e' v', e.execute client m side ref = some e' ∧
      Outcome now client m v ⟨ref, m.stock, side, limitFor m side, m.shares⟩ v' ∧
      Records now m.stock false e' v' ∧ Shelves e' v' := by
  obtain ⟨e₁, hfor, h₁, hb₁⟩ := bookFor_spec h hb m.stock
  have hunmet := minQtyUnmet_spec (v.book m.stock) side (limitFor m side) m.minQty
  have h₂ : Records now m.stock false (e₁.setBook m.stock (v.book m.stock)) v := { h₁ with }
  have hb₂ : Shelves (e₁.setBook m.stock (v.book m.stock)) v :=
    hb₁.update rfl (update_eq_self _ _).symm
  simp only [Engine.execute, hfor, hunmet, Option.bind_eq_bind, Option.bind_some, decide_eq_true_eq]
  generalize e₁.setBook m.stock (v.book m.stock) = e₂ at h₂ hb₂
  split
  · -- the minimum quantity is not there
    next hun =>
    exact ⟨_, _, rfl, .killed hun hshares hi ⟨rfl, rfl⟩,
      h₂.cancelUnrested hinv.keys ⟨ref, m.stock, side, limitFor m side, m.shares⟩ hi 'D' rfl rfl,
        hb₂⟩
  next hmet =>
  split
  · -- immediate or cancel
    next himm =>
    obtain ⟨es, b', left, hw, heq, hdone⟩ :=
      (hinv.mirror.wf m.stock).executeIoc_walks ref side (limitFor m side) m.shares
    obtain ⟨v', hexec, hbook, hrec⟩ := Records.walk hw rfl (h₂.setBook m.stock b') hinv
    have hb₃ : Shelves ((e₂.setBook m.stock b').onEvents (es.map .executed)) v' :=
      hb₂.update (onEvents_withBooks _ e₂.books _).2 hbook
    rw [book_executeIoc, heq]
    simp only [Option.bind_some, sub_sub_self_qty]
    split
    · next hpos =>
      have hleft : left ≠ 0 := by grind
      have hb' : v'.book m.stock = b' := by rw [hbook, update_self]
      obtain ⟨hinv', hkept⟩ := hinv.steps_kept (hexec.steps client)
      obtain ⟨info, hi', -⟩ := hinv'.mirror.flight _ rfl hleft
      obtain ⟨info₀, hi₀, hinfo⟩ := hkept.record (hinv.keys.fresh hi) hi'
      cases hi.symm.trans hi₀
      have howner : info.clientId = client ∧ info.token = m.token := by
        rw [hinfo]
        exact ⟨rfl, rfl⟩
      refine ⟨_, _, rfl, .canceled hmet himm hexec hleft ?_ hi' howner, ?_, hb₃⟩
      · simpa only [Exhausted, hb'] using hdone hleft
      · exact hrec.cancelUnrested hinv'.keys ⟨ref, m.stock, side, limitFor m side, left⟩ hi' 'I'
          howner.1 howner.2
    · next hzero =>
      have hleft : left = 0 := by grind
      exact ⟨_, _, rfl, .filled hmet himm hexec hleft, hrec, hb₃⟩
  · -- a day order
    next himm =>
    obtain ⟨hmarket, -⟩ := not_or.mp himm
    have hlimit : limitFor m side = m.price := if_neg hmarket
    have hfresh : (v.book m.stock).contains ref = false :=
      contains_eq_false.mpr (fun _ _ ho => hinv.mirror.apart _ rfl ho)
    rw [hlimit] at hmet hinv ⊢
    obtain ⟨v', henters, hbook, hrec⟩ := Records.enter
      (h₂.setBook m.stock ((v.book m.stock).enter ref side m.price m.shares).1) hinv (hp hmarket)
    rw [book_add, add_ok hfresh (hp hmarket) hshares]
    simp only [Option.bind_some, audit, ne_eq, not_true_eq_false, decide_false, Bool.false_eq_true,
      if_false]
    exact ⟨_, v', rfl, .entered hmet himm henters, hrec,
      hb₂.update (onEvents_withBooks _ e₂.books _).2 hbook⟩

theorem Records.accept {m : Ouch.EnterOrder} (h : Records now symbol flag e v) (hk : Keys v)
    (hnew : tokenKey client m.token ∉ v.used) (side : Side) :
    Records now m.stock flag (e.accept client m side) (v.accepted now client m side) := by
  have h₁ := h.enroll ⟨client, m.token, m.stock, side, m.shares⟩ hk hnew
  have h₂ := (h₁.setSymbol m.stock).respond client (.accepted (acceptedMsg e.now e.nextRef side m))
  rw [accepted, ← h.nextRef, ← h.now]
  exact { h₂ with now := rfl }

/-- The bookkeeping of a replace. -/
theorem Records.swap {m : Ouch.ReplaceOrder} {oldRef : OrderId} {old : OrderInfo}
    (h : Records now symbol flag e v) (hk : Keys v) (hi : v.orders oldRef = some old)
    (hkey : old.key = tokenKey client m.existingToken)
    (hnew : tokenKey client m.replacementToken ∉ v.used) :
    Records now old.symbol flag (e.swap client m oldRef old)
      (v.swapped now client m oldRef old) := by
  have h₁ := (h.drop hk hi).enroll ⟨client, m.replacementToken, old.symbol, old.side,
    m.shares⟩ (hk.setNone oldRef) hnew
  have h₂ := (h₁.setSymbol old.symbol).respond client
    (.replaced (replacedMsg e.now e.nextRef old m))
  rw [hkey] at h₂
  rw [swapped, ← h.nextRef, ← h.now]
  exact { h₂ with now := rfl }

/-- **Refinement.** Every command is processed, in steps of the venue. -/
def Taken (now client : Nat) (v : Venue) (r : Option (Engine PriorityBook)) : Prop :=
  ∃ e' v' symbol, r = some e' ∧ Commands now client v v' ∧ Records now symbol false e' v' ∧
    Shelves e' v'

theorem Records.reject (h : Records now symbol false e v) (hb : Shelves e v) (token : Token)
    (reason : Char) : Taken now client v (some (e.reject client token reason)) := by
  refine ⟨_, _, symbol, rfl, .single (.reject v token reason), ?_, hb⟩
  rw [Engine.reject, h.now]
  exact h.respond _ _

/-- The checks an order passes to be accepted. -/
structure Accepts {B : Type} (e : Engine B) (client : Nat) (m : Ouch.EnterOrder)
    (side : Side) : Prop where
  token : e.tokenUsed client m.token = false
  price : m.price = Ouch.kMarketPrice ∨ 0 < m.price
  shares : m.shares ≠ 0
  side : Side.ofByte m.side = some side

/-- An order that is accepted. -/
theorem Records.enterAccepted {m : Ouch.EnterOrder} {side : Side} (h : Records now symbol false e v)
    (hb : Shelves e v) (hinv : Inv v none) (hacc : e.Accepts client m side) :
    ∃ e' v', e.handleEnter client m = some e' ∧
      Outcome now client m (v.accepted now client m side)
        ⟨v.nextRef, m.stock, side, limitFor m side, m.shares⟩ v' ∧
      Records now m.stock false e' v' ∧ Shelves e' v' := by
  have hnew : tokenKey client m.token ∉ v.used := by simpa [tokenUsed, h.used] using hacc.token
  have hprice : ¬ (m.price ≠ Ouch.kMarketPrice ∧ m.price ≤ 0) := by
    have := hacc.price
    grind
  have hstep : Step now client (v, none) _ := .accept v m side (limitFor m side) hnew hacc.shares
  have hi : (v.accepted now client m side).orders v.nextRef =
      some ⟨client, m.token, m.stock, side, m.shares⟩ := by
    simp [accepted, Venue.enroll, orders_setOrder]
  obtain ⟨e', v', heq, hout, hrec, hb'⟩ := (h.accept hinv.keys hnew side).execute
    hb (hinv.step hstep) hacc.shares hi (fun hne => hacc.price.resolve_left hne)
  refine ⟨e', v', ?_, hout, hrec, hb'⟩
  rw [Engine.handleEnter, if_neg (by simp [hacc.token]), if_neg hprice, if_neg hacc.shares,
    hacc.side, h.nextRef]
  exact heq

theorem Records.handleEnter (h : Records now symbol false e v) (hb : Shelves e v)
    (hinv : Inv v none) (m : Ouch.EnterOrder) : Taken now client v (e.handleEnter client m) := by
  by_cases hacc : ∃ side, e.Accepts client m side
  · obtain ⟨side, hacc⟩ := hacc
    obtain ⟨e', v', heq, hout, hrec, hb'⟩ := h.enterAccepted hb hinv hacc
    have hnew : tokenKey client m.token ∉ v.used := by simpa [tokenUsed, h.used] using hacc.token
    exact ⟨e', v', m.stock, heq, .head (.accept v m side (limitFor m side) hnew hacc.shares)
      hout.steps, hrec, hb'⟩
  · unfold Engine.handleEnter
    split
    · exact h.reject hb m.token 'T'
    next hused =>
    split
    · exact h.reject hb m.token 'X'
    next hprice =>
    split
    · exact h.reject hb m.token 'Z'
    next hshares =>
    cases hside : Side.ofByte m.side with
    | none => exact h.reject hb m.token 'S'
    | some side =>
      refine absurd ⟨side, ?_, ?_, hshares, hside⟩ hacc
      · simpa using hused
      · grind

theorem Records.handleCancel (h : Records now symbol false e v) (hb : Shelves e v)
    (hinv : Inv v none) (m : Ouch.CancelOrder) : Taken now client v (e.handleCancel client m) := by
  unfold Engine.handleCancel
  cases hl : e.liveTokens.lookup (tokenKey client m.token) with
  | none => exact ⟨e, v, symbol, rfl, .refl, h, hb⟩
  | some id =>
    obtain ⟨info, hi, hkey⟩ := h.live.mp hl
    simp only [h.orders, hi]
    obtain ⟨e₁, hfor, h₁, hb₁⟩ := bookFor_spec (h.setSymbol info.symbol) hb info.symbol
    obtain ⟨o, ho, rfl⟩ := hinv.rests hi
    simp only [hfor, book_cancel, Option.bind_eq_bind, Option.bind_some]
    rcases (hinv.mirror.wf info.symbol).cancel_spec ho m.shares with heq |
      ⟨x, hid, hqty, hle, hr, heq⟩
    · rw [heq]
      exact ⟨_, v, _, rfl, .refl, h₁.setBook _ _, hb₁.update rfl (update_eq_self _ _).symm⟩
    · rw [heq]
      rw [hid] at hi
      have h₂ := (h₁.setBook info.symbol ((v.book info.symbol).applyEvent (.canceled x))).onCanceled
        hinv rfl hi ho hid hle hr
      exact ⟨_, _, _, rfl, .single (.cancel v info o x hi (congrArg Prod.fst hkey) ho hid hqty hle
        hr), h₂, hb₁.update (onEvents_withBooks _ e₁.books [.canceled x]).2 rfl⟩

theorem Records.handleReplace (h : Records now symbol false e v) (hb : Shelves e v)
    (hinv : Inv v none) (m : Ouch.ReplaceOrder) : Taken now client v
      (e.handleReplace client m) := by
  unfold Engine.handleReplace
  cases hl : e.liveTokens.lookup (tokenKey client m.existingToken) with
  | none => exact ⟨e, v, symbol, rfl, .refl, h, hb⟩
  | some oldRef =>
    obtain ⟨old, hi, hkey⟩ := h.live.mp hl
    simp only [h.orders, hi]
    split
    · exact ⟨e, v, symbol, rfl, .refl, h, hb⟩
    next hused =>
    split
    · exact ⟨e, v, symbol, rfl, .refl, h, hb⟩
    next hargs =>
    obtain ⟨hprice, hshares⟩ := not_or.mp hargs
    have hp : 0 < m.price := by lia
    have hnew : tokenKey client m.replacementToken ∉ v.used :=
      by simpa [tokenUsed, h.used] using hused
    have howner : old.clientId = client := congrArg Prod.fst hkey
    obtain ⟨o, ho, rfl⟩ := hinv.rests hi
    have hfresh : ∀ {s y}, y ∈ (v.book old.symbol).side s → y.id ≠ v.nextRef := fun hy => by
      obtain ⟨i, hi', -⟩ := hinv.mirror.resting hy
      exact Nat.ne_of_lt (hinv.keys.fresh hi')
    -- the bookkeeping is swapped before the book is touched
    have h₁ := (h.swap hinv.keys hi hkey hnew).setSuppress true
    obtain ⟨e₂, hfor, h₂, hb₂⟩ :=
      bookFor_spec (v := v.swapped now client m o.id old) h₁ hb old.symbol
    have hold : (v.swapped now client m o.id old).orders o.id = none := by
      rw [orders_swapped, update_of_ne (hfresh ho), update_self]
    have hwf := hinv.mirror.wf old.symbol
    have hid : (v.book old.symbol).contains v.nextRef = false :=
      contains_eq_false.mpr (fun _ _ hy => hfresh hy)
    rw [h.nextRef]
    -- the swap changes the records and leaves the books
    have hsame : (v.swapped now client m o.id old).book old.symbol = v.book old.symbol := rfl
    simp only [hfor, hsame, book_replace, Option.bind_eq_bind, Option.bind_some]
    rcases hwf.replace_spec ho (hfresh ho).symm hid hp hshares with heq | ⟨heq, hdone⟩
    · rw [heq]
      generalize hb' : (((v.book old.symbol).remove o.id).enter v.nextRef old.side m.price
        m.shares).1 = b'
      have hstep : Step now client (v, none) _ :=
        .replaceCross v m o.id old o hi howner ho rfl hnew hp hshares
      have h₃ := (h₂.setBook old.symbol b').onCanceled_suppressed
        (x := ⟨o.id, o.openQty, true⟩) hold rfl
      obtain ⟨v', henters, hbook, hrec⟩ := Records.enter h₃ (hinv.step hstep) hp
      have hremoved : ((v.swapped now client m o.id old).event now old.symbol
          (.canceled ⟨o.id, o.openQty, true⟩)).book old.symbol =
            (v.book old.symbol).remove o.id := by
        rw [book_event, update_self]
        rfl
      rw [hremoved] at hrec
      rw [hremoved, hb', book_event, update_idem] at hbook
      exact ⟨_, v', _, rfl, .head hstep (henters.steps client), hrec.setSuppress false,
        hb₂.update (onEvents_withBooks _ e₂.books (.canceled ⟨o.id, o.openQty, true⟩ :: _)).2 hbook⟩
    · rw [heq]
      have hstep : Step now client (v, none) _ :=
        .replaceRest v m o.id old o hi howner ho rfl hnew hp hshares hdone
      have h₃ := (h₂.setBook old.symbol ((v.book old.symbol).applyEvent
        (.replaced ⟨o.id, v.nextRef, old.side, m.price, m.shares⟩))).publish
          (.replaced ⟨o.id, v.nextRef, old.side, m.price, m.shares⟩)
      exact ⟨_, _, _, rfl, .single hstep, h₃.setSuppress false, hb₂.update rfl rfl⟩

end commands

/-! ## Section 3: Runs -/

/-- The engine between commands. -/
structure Refines (e : Engine PriorityBook) (v : Venue) : Prop where
  records : Records e.now e.currentSymbol false e v
  books : Shelves e v

theorem refines_fresh : Refines {} {} :=
  ⟨⟨by simp, by simp, rfl, rfl, rfl, rfl, rfl, rfl, rfl⟩, fun _ => by simp⟩

/-- **Refinement**, one command. -/
theorem Refines.process {e : Engine PriorityBook} {v : Venue} (h : Refines e v) (hinv : Inv v none)
    (now : Nat) (cmd : Command) :
    ∃ e' v', e.process now cmd = some e' ∧ Commands now cmd.clientId v v' ∧ Refines e' v' := by
  have hrec := h.records.setNow now
  have htaken : Taken now cmd.clientId v (e.process now cmd) := by
    unfold Engine.process
    cases cmd.msg with
    | enter m => exact hrec.handleEnter h.books hinv m
    | cancel m => exact hrec.handleCancel h.books hinv m
    | replace m => exact hrec.handleReplace h.books hinv m
  obtain ⟨e', v', symbol, heq, hcmd, hrec', hb'⟩ := htaken
  exact ⟨e', v', heq, hcmd, ⟨{ hrec' with now := rfl, symbol := rfl }, hb'⟩⟩

/-- **Refinement**, an order that is accepted. -/
theorem Refines.enter {e : Engine PriorityBook} {v : Venue} {client : Nat} {m : Ouch.EnterOrder}
    {side : Side}
    (h : Refines e v) (hinv : Inv v none) (now : Nat) (hacc : e.Accepts client m side) :
    ∃ e' v', e.process now ⟨client, .enter m⟩ = some e' ∧
      Outcome now client m (v.accepted now client m side)
        ⟨v.nextRef, m.stock, side, limitFor m side, m.shares⟩ v' ∧ Refines e' v' := by
  have hacc' : (e.setNow now).Accepts client m side :=
    ⟨hacc.token, hacc.price, hacc.shares, hacc.side⟩
  obtain ⟨e', v', heq, hout, hrec, hb'⟩ := (h.records.setNow now).enterAccepted h.books hinv hacc'
  exact ⟨e', v', heq, hout, ⟨{ hrec with now := rfl, symbol := rfl }, hb'⟩⟩

/-! ### The engine of the source

    It is the engine over fast books. -/

/-- The engine of the source stands for a venue. -/
def Realizes (e : Engine FastBook) (v : Venue) : Prop := ∃ a, Sim e a ∧ Refines a v

theorem realizes_fresh : Realizes {} {} := ⟨{}, sim_fresh, refines_fresh⟩

section realizes

variable {e : Engine FastBook} {v : Venue}

theorem Realizes.records (h : Realizes e v) : Records e.now e.currentSymbol false e v := by
  obtain ⟨a, ⟨books, rfl, -⟩, hr⟩ := h
  exact { hr.records with }

theorem Realizes.models (h : Realizes e v) {symbol : Symbol} {fb : FastBook}
    (hl : e.books.lookup symbol = some fb) : fb.Models (v.book symbol) := by
  obtain ⟨a, ⟨books, rfl, hrel⟩, hr⟩ := h
  rcases hrel.lookup symbol with ⟨hl', -⟩ | ⟨fb', b, hl', hb, hm⟩
  · cases hl.symm.trans hl'
  · cases hl.symm.trans hl'
    rw [← hr.books symbol, hb]
    exact hm

theorem Realizes.bookSnapshot (h : Realizes e v) (symbol : Symbol) :
    e.bookSnapshot symbol = some (v.book symbol).snapshot := by
  cases hl : e.books.lookup symbol with
  | some fb =>
    simp only [Engine.bookSnapshot, hl]
    exact (h.models hl).snapshot
  | none =>
    obtain ⟨a, hsim, hr⟩ := h
    have hnone : a.books.lookup symbol = none := by
      obtain ⟨books, rfl, hrel⟩ := hsim
      rcases hrel.lookup symbol with ⟨-, ha⟩ | ⟨fb, b, hl', -⟩
      · exact ha
      · cases hl.symm.trans hl'
    rw [← hr.books symbol, hnone]
    simp only [Engine.bookSnapshot, hl]
    rfl

/-- **Refinement**, one command. -/
theorem Realizes.process (h : Realizes e v) (hinv : Inv v none) (now : Nat) (cmd : Command) :
    ∃ e' v', e.process now cmd = some e' ∧ Commands now cmd.clientId v v' ∧ Realizes e' v' := by
  obtain ⟨a, hsim, hr⟩ := h
  obtain ⟨e', a', he, ha, hsim'⟩ := hsim.process now cmd
  obtain ⟨a'', v', ha', hcmd, hr'⟩ := hr.process hinv now cmd
  cases ha.symm.trans ha'
  exact ⟨e', v', he, hcmd, a', hsim', hr'⟩

/-- **Refinement**, an order that is accepted. -/
theorem Realizes.enter {client : Nat} {m : Ouch.EnterOrder} {side : Side} (h : Realizes e v)
    (hinv : Inv v none) (now : Nat) (hacc : e.Accepts client m side) :
    ∃ e' v', e.process now ⟨client, .enter m⟩ = some e' ∧
      Outcome now client m (v.accepted now client m side)
        ⟨v.nextRef, m.stock, side, limitFor m side, m.shares⟩ v' ∧ Realizes e' v' := by
  obtain ⟨a, hsim, hr⟩ := h
  obtain ⟨e', a', he, ha, hsim'⟩ := hsim.process now ⟨client, .enter m⟩
  have hacc' : a.Accepts client m side := by
    obtain ⟨books, rfl, -⟩ := hsim
    exact ⟨hacc.token, hacc.price, hacc.shares, hacc.side⟩
  obtain ⟨a'', v', ha', hout, hr'⟩ := hr.enter hinv now hacc'
  cases ha.symm.trans ha'
  exact ⟨e', v', he, hout, a', hsim', hr'⟩

/-- **Refinement**, a run. -/
theorem Realizes.run (h : Realizes e v) (hinv : Inv v none) (cmds : List (Nat × Command)) :
    ∃ e' v', e.run cmds = some e' ∧ Run v v' ∧ Realizes e' v' := by
  induction cmds using List.reverseRecOn with
  | nil => exact ⟨e, v, rfl, .nil v, h⟩
  | append_singleton cmds c ih =>
    obtain ⟨e₁, v₁, heq, hrun, h₁⟩ := ih
    obtain ⟨e', v', heq', hcmd, h'⟩ := h₁.process (hrun.inv hinv) c.1 c.2
    refine ⟨e', v', ?_, .snoc c.1 c.2.clientId hrun hcmd, h'⟩
    rw [Engine.run, List.foldlM_append]
    exact (congrArg (· >>= _) heq).trans (by simpa using heq')

end realizes

end Engine

end MatchingEngine
