import MatchingEngine.Book.BookSteps
import MatchingEngine.Engine.Engine
import Mathlib.Logic.Relation

/-! # The venue: what the engine is for

    An abstract engine. Its state is one priority book per symbol, the live
    orders with their owners, the tokens in use and the log of everything that
    was sent. It moves in atomic steps: an order is accepted and is then *in
    flight*; in flight it executes against the best opposite order, one
    execution at a time; it comes to rest, is killed, or has nothing left.
    Orders that rest are canceled or replaced by their owners.

    `Step` says once what can happen, and every property of whole runs is shown
    for one step. `Inv` is the central invariant: the live orders are the
    orders that rest, and the one in flight.
-/

namespace MatchingEngine

open Function
open Ouch (Token)

variable {info : OrderInfo}

/-! ## Section 1: States and steps -/

/-- An incoming order between its acceptance and its end. -/
structure Flight where
  id : OrderId
  symbol : Symbol
  side : Side
  limit : Price
  left : Qty

structure Venue where
  book : Symbol → PriorityBook := fun _ => {}
  orders : OrderId → Option OrderInfo := fun _ => none
  used : Finset TokenKey := ∅
  nextRef : OrderId := 1
  log : List Output := []

/-- What is left of an order when `qty` shares are gone. -/
def OrderInfo.less (info : OrderInfo) (qty : Qty) : Option OrderInfo :=
  if info.openQty - qty = 0 then none else some { info with openQty := info.openQty - qty }

namespace Venue

def say (v : Venue) (outs : List Output) : Venue := { v with log := v.log ++ outs }

def setBook (v : Venue) (symbol : Symbol) (b : PriorityBook) : Venue :=
  { v with book := update v.book symbol b }

def setOrder (v : Venue) (id : OrderId) (info : Option OrderInfo) : Venue :=
  { v with orders := update v.orders id info }

/-- A new order with a token of its own. -/
def enroll (v : Venue) (info : OrderInfo) : Venue :=
  { v.setOrder v.nextRef (some info) with
    used := insert info.key v.used
    nextRef := v.nextRef + 1 }

/-- An event of the book of a symbol, as the feed gets it. -/
def event (v : Venue) (now : Nat) (symbol : Symbol) (ev : BookEvent) : Venue :=
  (v.setBook symbol ((v.book symbol).applyEvent ev)).say [.market ⟨now, symbol, ev⟩]

def accepted (v : Venue) (now client : Nat) (m : Ouch.EnterOrder) (side : Side) : Venue :=
  (v.enroll ⟨client, m.token, m.stock, side, m.shares⟩).say
    [.response ⟨client, .accepted (acceptedMsg now v.nextRef side m)⟩]

/-- The next execution of an order in flight. -/
def execution (v : Venue) (f : Flight) (o : Resting) : ExecutedEvent :=
  (v.book f.symbol).execution f.id f.side o f.left

def executed (v : Venue) (now : Nat) (f : Flight) (o : Resting) (resting aggressor : OrderInfo) :
    Venue :=
  let x := v.execution f o
  (((v.event now f.symbol (.executed x)).say
    [.response ⟨resting.clientId, .executed (executedMsg now resting x 'A')⟩,
      .response ⟨aggressor.clientId, .executed (executedMsg now aggressor x 'R')⟩]).setOrder
        o.id (resting.less x.qty)).setOrder f.id (aggressor.less x.qty)

def rested (v : Venue) (now : Nat) (f : Flight) : Venue :=
  v.event now f.symbol (.added ⟨f.id, f.side, f.limit, f.left⟩)

def killed (v : Venue) (now : Nat) (f : Flight) (info : OrderInfo) (reason : Char) : Venue :=
  (v.say [.response ⟨info.clientId, .canceled ⟨now, info.token, f.left, ch reason⟩⟩]).setOrder
    f.id none

def canceled (v : Venue) (now : Nat) (info : OrderInfo) (x : CanceledEvent) : Venue :=
  ((v.event now info.symbol (.canceled x)).say
    [.response ⟨info.clientId, .canceled ⟨now, info.token, x.canceledQty, ch 'U'⟩⟩]).setOrder
      x.id (info.less x.canceledQty)

/-- The old order loses its record to the new one. -/
def swapped (v : Venue) (now client : Nat) (m : Ouch.ReplaceOrder) (oldRef : OrderId)
    (old : OrderInfo) : Venue :=
  ((v.setOrder oldRef none).enroll ⟨client, m.replacementToken, old.symbol, old.side, m.shares⟩).say
    [.response ⟨client, .replaced (replacedMsg now v.nextRef old m)⟩]

section fields

variable (v : Venue) (symbol : Symbol) (b : PriorityBook) (id : OrderId) (info : Option OrderInfo)
  (outs : List Output)

@[simp] theorem book_say : (v.say outs).book = v.book := rfl

@[simp] theorem orders_say : (v.say outs).orders = v.orders := rfl

@[simp] theorem log_say : (v.say outs).log = v.log ++ outs := rfl

@[simp] theorem log_setOrder : (v.setOrder id info).log = v.log := rfl

@[simp] theorem log_enroll (new : OrderInfo) : (v.enroll new).log = v.log := rfl

@[simp] theorem log_event (now : Nat) (ev : BookEvent) :
    (v.event now symbol ev).log = v.log ++ [.market ⟨now, symbol, ev⟩] := rfl

@[simp] theorem book_setOrder : (v.setOrder id info).book = v.book := rfl

@[simp] theorem orders_setBook : (v.setBook symbol b).orders = v.orders := rfl

@[simp] theorem book_setBook_self : (v.setBook symbol b).book symbol = b := by simp [setBook]

@[simp] theorem setBook_setBook (b' : PriorityBook) :
    (v.setBook symbol b).setBook symbol b' = v.setBook symbol b' := by simp [setBook]

theorem orders_setOrder : (v.setOrder id info).orders = update v.orders id info := rfl

theorem mem_setBook {symbol' : Symbol} {side : Side} {o : Resting} :
    o ∈ ((v.setBook symbol b).book symbol').side side ↔
      symbol' = symbol ∧ o ∈ b.side side ∨ symbol' ≠ symbol ∧ o ∈ (v.book symbol').side side := by
  by_cases hs : symbol' = symbol
  · subst hs
    simp [setBook]
  · simp [setBook, hs]

theorem book_executed (now : Nat) (f : Flight) (o : Resting) (resting aggressor : OrderInfo) :
    (v.executed now f o resting aggressor).book =
      update v.book f.symbol ((v.book f.symbol).applyEvent (.executed (v.execution f o))) :=
  rfl

theorem log_executed (now : Nat) (f : Flight) (o : Resting) (resting aggressor : OrderInfo) :
    (v.executed now f o resting aggressor).log = v.log ++
      [.market ⟨now, f.symbol, .executed (v.execution f o)⟩,
        .response ⟨resting.clientId, .executed (executedMsg now resting (v.execution f o) 'A')⟩,
        .response ⟨aggressor.clientId,
          .executed (executedMsg now aggressor (v.execution f o) 'R')⟩] := by
  simp [executed]

theorem log_canceled (now : Nat) (info : OrderInfo) (x : CanceledEvent) :
    (v.canceled now info x).log = v.log ++ [.market ⟨now, info.symbol, .canceled x⟩,
      .response ⟨info.clientId, .canceled ⟨now, info.token, x.canceledQty, ch 'U'⟩⟩] := by
  simp [canceled]

/-- What a replacement sends, before the new order executes. -/
theorem log_swapped (now client : Nat) (m : Ouch.ReplaceOrder) (old : OrderInfo) (ev : BookEvent) :
    ((v.swapped now client m id old).event now old.symbol ev).log = v.log ++
      [.response ⟨client, .replaced (replacedMsg now v.nextRef old m)⟩,
        .market ⟨now, old.symbol, ev⟩] := by
  simp [swapped]

theorem book_event (now : Nat) (ev : BookEvent) :
    (v.event now symbol ev).book = update v.book symbol ((v.book symbol).applyEvent ev) :=
  rfl

@[simp] theorem orders_event (now : Nat) (ev : BookEvent) :
    (v.event now symbol ev).orders = v.orders :=
  rfl

theorem orders_accepted (now client : Nat) (m : Ouch.EnterOrder) (side : Side) :
    (v.accepted now client m side).orders =
      update v.orders v.nextRef (some ⟨client, m.token, m.stock, side, m.shares⟩) :=
  rfl

theorem orders_swapped (now client : Nat) (m : Ouch.ReplaceOrder) (old : OrderInfo) :
    (v.swapped now client m id old).orders = update (update v.orders id none)
      v.nextRef (some ⟨client, m.replacementToken, old.symbol, old.side, m.shares⟩) :=
  rfl

theorem book_canceled (now : Nat) (info : OrderInfo) (x : CanceledEvent) :
    (v.canceled now info x).book =
      update v.book info.symbol ((v.book info.symbol).applyEvent (.canceled x)) :=
  rfl

theorem book_swapped (now client : Nat) (m : Ouch.ReplaceOrder) (old : OrderInfo) (ev : BookEvent) :
    ((v.swapped now client m id old).event now old.symbol ev).book =
      update v.book old.symbol ((v.book old.symbol).applyEvent ev) :=
  rfl

theorem book_rested (now : Nat) (f : Flight) :
    (v.rested now f).book =
      update v.book f.symbol ((v.book f.symbol).rest f.id f.side f.limit f.left) :=
  rfl

end fields

end Venue

open Venue

/-- What can happen while a command of `client` is processed at time `now`. -/
inductive Step (now client : Nat) : Venue × Option Flight → Venue × Option Flight → Prop where
  | reject (v : Venue) (token : Token) (reason : Char) :
      Step now client (v, none)
        (v.say [.response ⟨client, .rejected ⟨now, token, ch reason⟩⟩], none)
  | accept (v : Venue) (m : Ouch.EnterOrder) (side : Side) (limit : Price)
      (unused : tokenKey client m.token ∉ v.used) (shares : m.shares ≠ 0) :
      Step now client (v, none)
        (v.accepted now client m side, some ⟨v.nextRef, m.stock, side, limit, m.shares⟩)
  | execute (v : Venue) (f : Flight) (o : Resting) (l : List Resting)
      (resting aggressor : OrderInfo)
      (best : (v.book f.symbol).side f.side.opposite = o :: l) (left : f.left ≠ 0)
      (cross : crosses f.side f.limit o.price) (restingInfo : v.orders o.id = some resting)
      (aggressorInfo : v.orders f.id = some aggressor) :
      Step now client (v, some f) (v.executed now f o resting aggressor,
        some { f with left := f.left - (v.execution f o).qty })
  | rest (v : Venue) (f : Flight) (left : f.left ≠ 0) (price : 0 < f.limit)
      (done : ∀ o ∈ (v.book f.symbol).side f.side.opposite, ¬ crosses f.side f.limit o.price) :
      Step now client (v, some f) (v.rested now f, none)
  | kill (v : Venue) (f : Flight) (info : OrderInfo) (reason : Char) (left : f.left ≠ 0)
      (live : v.orders f.id = some info) :
      Step now client (v, some f) (v.killed now f info reason, none)
  | land (v : Venue) (f : Flight) (left : f.left = 0) : Step now client (v, some f) (v, none)
  | cancel (v : Venue) (info : OrderInfo) (o : Resting) (x : CanceledEvent)
      (live : v.orders x.id = some info) (owner : info.clientId = client)
      (rests : o ∈ (v.book info.symbol).side info.side) (id : o.id = x.id) (qty : x.canceledQty ≠ 0)
      (le : x.canceledQty ≤ o.openQty) (removed : x.removed = true ↔ x.canceledQty = o.openQty) :
      Step now client (v, none) (v.canceled now info x, none)
  | replaceCross (v : Venue) (m : Ouch.ReplaceOrder) (oldRef : OrderId) (old : OrderInfo)
      (o : Resting)
      (live : v.orders oldRef = some old) (owner : old.clientId = client)
      (rests : o ∈ (v.book old.symbol).side old.side) (id : o.id = oldRef)
      (unused : tokenKey client m.replacementToken ∉ v.used) (price : 0 < m.price)
      (shares : m.shares ≠ 0) :
      Step now client (v, none)
        ((v.swapped now client m oldRef old).event now old.symbol
            (.canceled ⟨oldRef, o.openQty, true⟩),
          some ⟨v.nextRef, old.symbol, old.side, m.price, m.shares⟩)
  | replaceRest (v : Venue) (m : Ouch.ReplaceOrder) (oldRef : OrderId) (old : OrderInfo)
      (o : Resting)
      (live : v.orders oldRef = some old) (owner : old.clientId = client)
      (rests : o ∈ (v.book old.symbol).side old.side) (id : o.id = oldRef)
      (unused : tokenKey client m.replacementToken ∉ v.used) (price : 0 < m.price)
      (shares : m.shares ≠ 0)
      (done : ∀ o ∈ (v.book old.symbol).side old.side.opposite,
        ¬ crosses old.side m.price o.price) :
      Step now client (v, none)
        ((v.swapped now client m oldRef old).event now old.symbol
          (.replaced ⟨oldRef, v.nextRef, old.side, m.price, m.shares⟩), none)

/-- The steps of one command, which ends with nothing in flight. -/
def Commands (now client : Nat) (v v' : Venue) : Prop :=
  Relation.ReflTransGen (Step now client) (v, none) (v', none)

/-- A run of commands, each with its time and its client. -/
inductive Run : Venue → Venue → Prop where
  | nil (v : Venue) : Run v v
  | snoc {v v' v'' : Venue} (now client : Nat) (run : Run v v') (cmd : Commands now client v' v'') :
      Run v v''

/-! ## Section 2: The invariant -/

/-- The books and the live orders mirror each other. -/
structure Mirror (v : Venue) (f : Option Flight) : Prop where
  wf : ∀ symbol, (v.book symbol).WF
  /-- Orders that rest are live, and recorded as they rest. -/
  resting : ∀ {symbol side o}, o ∈ (v.book symbol).side side → ∃ info, v.orders o.id = some info ∧
    info.symbol = symbol ∧ info.side = side ∧ info.openQty = o.openQty
  /-- Live orders rest or are in flight. -/
  live : ∀ {id info}, v.orders id = some info →
    (∃ o ∈ (v.book info.symbol).side info.side, o.id = id) ∨ ∃ g ∈ f, g.id = id
  /-- The order in flight does not rest. -/
  apart : ∀ g ∈ f, ∀ {symbol side o}, o ∈ (v.book symbol).side side → o.id ≠ g.id
  /-- It is live as long as it has shares left. -/
  flight : ∀ g ∈ f, g.left ≠ 0 → ∃ info, v.orders g.id = some info ∧ info.symbol = g.symbol ∧
    info.side = g.side ∧ info.openQty = g.left
  landed : ∀ g ∈ f, g.left = 0 → v.orders g.id = none

/-- Tokens and references name one live order. -/
structure Keys (v : Venue) : Prop where
  used : ∀ {id info}, v.orders id = some info → info.key ∈ v.used
  unique : ∀ {id id' info info'}, v.orders id = some info → v.orders id' = some info' →
    info.key = info'.key → id = id'
  fresh : ∀ {id info}, v.orders id = some info → id < v.nextRef

structure Inv (v : Venue) (f : Option Flight) : Prop where
  mirror : Mirror v f
  keys : Keys v

/-! ### Keys -/

theorem OrderInfo.less_some {info' : OrderInfo} {qty : Qty} (h : info.less qty = some info') :
    info.openQty - qty ≠ 0 ∧ info' = { info with openQty := info.openQty - qty } := by
  unfold OrderInfo.less at h
  split at h
  · cases h
  · next hne => exact ⟨hne, (Option.some.inj h).symm⟩

theorem OrderInfo.less_none {qty : Qty} (h : info.less qty = none) : info.openQty - qty = 0 := by
  unfold OrderInfo.less at h
  split at h
  · assumption
  · cases h

variable {v : Venue}

theorem Keys.congr {u : Venue} (h : Keys u) (ho : v.orders = u.orders) (hu : v.used = u.used)
    (hn : v.nextRef = u.nextRef) : Keys v :=
  ⟨by rw [ho, hu]; exact h.used, by rw [ho]; exact h.unique, by rw [ho, hn]; exact h.fresh⟩

/-- Orders may lose shares or go; their keys stay. -/
theorem Keys.shrink (h : Keys v) {orders' : OrderId → Option OrderInfo}
    (hs : ∀ id info', orders' id = some info' → ∃ info, v.orders id = some info ∧
      info'.key = info.key) : Keys { v with orders := orders' } where
  used := fun {id info'} hi => by
    obtain ⟨info, ho, hk⟩ := hs id info' hi
    exact hk ▸ h.used ho
  unique := fun {id id' info info'} hi hi' hk => by
    obtain ⟨i, ho, hik⟩ := hs id info hi
    obtain ⟨i', ho', hik'⟩ := hs id' info' hi'
    exact h.unique ho ho' (hik.symm.trans (hk.trans hik'))
  fresh := fun {id info'} hi => by
    obtain ⟨info, ho, -⟩ := hs id info' hi
    exact h.fresh ho

theorem Keys.setLess (h : Keys v) {id : OrderId} (hi : v.orders id = some info) (qty : Qty) :
    Keys (v.setOrder id (info.less qty)) := by
  refine h.shrink (fun id' info' hi' => ?_)
  by_cases hid : id' = id
  · subst hid
    rw [update_self] at hi'
    obtain ⟨-, rfl⟩ := OrderInfo.less_some hi'
    exact ⟨info, hi, rfl⟩
  · rw [update_of_ne hid] at hi'
    exact ⟨info', hi', rfl⟩

theorem Keys.setNone (h : Keys v) (id : OrderId) : Keys (v.setOrder id none) := by
  refine h.shrink (fun id' info' hi' => ?_)
  by_cases hid : id' = id
  · subst hid
    simp at hi'
  · rw [update_of_ne hid] at hi'
    exact ⟨info', hi', rfl⟩

theorem Keys.enroll (h : Keys v) (info : OrderInfo) (hk : info.key ∉ v.used) :
    Keys (v.enroll info) := by
  have hnew : ∀ {id i}, (v.enroll info).orders id = some i →
      (id = v.nextRef ∧ i = info) ∨ (id ≠ v.nextRef ∧ v.orders id = some i) := by
    intro id i hi
    simp only [Venue.enroll, setOrder] at hi
    by_cases hid : id = v.nextRef
    · rw [hid, update_self] at hi
      exact Or.inl ⟨hid, (Option.some.inj hi).symm⟩
    · rw [update_of_ne hid] at hi
      exact Or.inr ⟨hid, hi⟩
  refine ⟨fun hi => ?_, fun hi hi' hkk => ?_, fun hi => ?_⟩
  · rcases hnew hi with ⟨-, rfl⟩ | ⟨-, ho⟩
    · exact Finset.mem_insert_self _ _
    · exact Finset.mem_insert_of_mem (h.used ho)
  · rcases hnew hi with ⟨rfl, rfl⟩ | ⟨-, ho⟩ <;> rcases hnew hi' with ⟨rfl, rfl⟩ | ⟨-, ho'⟩
    · rfl
    · exact absurd (hkk ▸ h.used ho') hk
    · exact absurd (hkk ▸ h.used ho) hk
    · exact h.unique ho ho' hkk
  · simp only [Venue.enroll]
    rcases hnew hi with ⟨rfl, -⟩ | ⟨-, ho⟩
    · exact Nat.lt_succ_self _
    · exact Nat.lt_succ_of_lt (h.fresh ho)

/-! ### Books and live orders -/

section mirror

variable {v : Venue} {f : Option Flight} {symbol : Symbol} {side : Side} {o : Resting}
  {info : OrderInfo}

variable {g : Flight}

theorem Mirror.congr {u : Venue} (h : Mirror u f) (hb : v.book = u.book)
    (ho : v.orders = u.orders) : Mirror v f :=
  ⟨by rw [hb]; exact h.wf, by rw [hb, ho]; exact h.resting, by rw [hb, ho]; exact h.live,
    by rw [hb]; exact h.apart, by rw [ho]; exact h.flight, by rw [ho]; exact h.landed⟩

/-- The record of an order that rests. -/
theorem Mirror.record (h : Mirror v f) (ho : o ∈ (v.book symbol).side side)
    (hi : v.orders o.id = some info) :
    info.symbol = symbol ∧ info.side = side ∧ info.openQty = o.openQty := by
  obtain ⟨info', hi', hrest⟩ := h.resting ho
  cases hi.symm.trans hi'
  exact hrest

/-- An order rests in one book only. -/
theorem Mirror.ne_of_symbol (h : Mirror v f) (ho : o ∈ (v.book symbol).side side) {symbol' : Symbol}
    {side' : Side} {y : Resting} (hy : y ∈ (v.book symbol').side side') (hs : symbol' ≠ symbol) :
    y.id ≠ o.id := by
  intro hid
  obtain ⟨info, hi, hsym, -⟩ := h.resting hy
  exact hs (hsym.symm.trans (h.record ho (hid ▸ hi)).1)

/-- Shares of a resting order go, in its book and in its record. -/
theorem Mirror.reduce (h : Mirror v f) (ho : o ∈ (v.book symbol).side side)
    (hi : v.orders o.id = some info) (qty : Qty) {b : PriorityBook} (hb : b.WF)
    (hside : ∀ t, b.side t = ((v.book symbol).reduce o.id qty).side t) :
    Mirror ((v.setBook symbol b).setOrder o.id (info.less qty)) f := by
  obtain ⟨hsym, hsd, hopen⟩ := h.record ho hi
  -- the orders that rest afterwards
  have hmem : ∀ {symbol' t y}, y ∈ ((v.setBook symbol b).book symbol').side t ↔
      y ∈ (v.book symbol').side t ∧ y.id ≠ o.id ∨ symbol' = symbol ∧ t = side ∧
        o.openQty - qty ≠ 0 ∧ y = { o with openQty := o.openQty - qty } := by
    intro symbol' t y
    rw [mem_setBook, hside, (h.wf symbol).mem_side_reduce ho]
    by_cases hs : symbol' = symbol
    · subst hs
      simp
    · simp only [hs, false_and, ne_eq, not_false_iff, true_and, false_or, or_false]
      exact ⟨fun hy => ⟨hy, h.ne_of_symbol ho hy hs⟩, And.left⟩
  refine ⟨fun sym => ?_, fun {sym t y} hy => ?_, fun {id i} hi' => ?_, fun g hg {sym t y} hy => ?_,
    fun g hg hl => ?_, fun g hg hl => ?_⟩
  · simp only [book_setOrder, setBook]
    by_cases hs : sym = symbol
    · subst hs
      rwa [update_self]
    · rw [update_of_ne hs]
      exact h.wf sym
  · rcases hmem.mp hy with ⟨hy, hne⟩ | ⟨rfl, rfl, hleft, rfl⟩
    · rw [orders_setOrder, update_of_ne hne]
      exact h.resting hy
    · refine ⟨{ info with openQty := info.openQty - qty }, ?_, hsym, hsd, by rw [hopen]⟩
      rw [orders_setOrder, update_self, OrderInfo.less, if_neg (hopen ▸ hleft)]
  · by_cases hid : id = o.id
    · subst hid
      rw [orders_setOrder, update_self] at hi'
      obtain ⟨hleft, rfl⟩ := OrderInfo.less_some hi'
      exact Or.inl ⟨_, hmem.mpr (Or.inr ⟨hsym, hsd, hopen ▸ hleft, rfl⟩), rfl⟩
    · rw [orders_setOrder, update_of_ne hid] at hi'
      rcases h.live hi' with ⟨y, hy, rfl⟩ | hg
      · exact Or.inl ⟨y, hmem.mpr (Or.inl ⟨hy, hid⟩), rfl⟩
      · exact Or.inr hg
  · rcases hmem.mp hy with ⟨hy, -⟩ | ⟨rfl, rfl, -, rfl⟩
    · exact h.apart g hg hy
    · have hne : o.id ≠ g.id := h.apart g hg ho
      exact hne
  · rw [orders_setOrder, update_of_ne (h.apart g hg ho).symm]
    exact h.flight g hg hl
  · rw [orders_setOrder, update_of_ne (h.apart g hg ho).symm]
    exact h.landed g hg hl

/-- The order in flight loses shares. -/
theorem Mirror.spend (h : Mirror v (some g)) (hi : v.orders g.id = some info) (hleft : g.left ≠ 0)
    (qty : Qty) :
    Mirror (v.setOrder g.id (info.less qty)) (some { g with left := g.left - qty }) := by
  obtain ⟨info', hi', hsym, hsd, hopen⟩ := h.flight g rfl hleft
  cases hi.symm.trans hi'
  refine ⟨h.wf, fun {sym t y} hy => ?_, fun {id i} hi' => ?_, ?_, ?_, ?_⟩
  · rw [orders_setOrder, update_of_ne (h.apart g rfl hy)]
    exact h.resting hy
  · by_cases hid : id = g.id
    · exact Or.inr ⟨_, rfl, hid.symm⟩
    · rw [orders_setOrder, update_of_ne hid] at hi'
      rcases h.live hi' with hr | ⟨g', hg', hid'⟩
      · exact Or.inl hr
      · cases hg'
        exact absurd hid'.symm hid
  · rintro g' ⟨⟩ sym t y hy
    exact h.apart g rfl hy
  · rintro g' ⟨⟩ hl
    refine ⟨{ info with openQty := info.openQty - qty }, ?_, hsym, hsd, by rw [hopen]⟩
    rw [orders_setOrder, update_self, OrderInfo.less, if_neg (hopen ▸ hl)]
  · rintro g' ⟨⟩ hl
    rw [orders_setOrder, update_self, OrderInfo.less, if_pos (hopen ▸ hl)]

/-- A new order takes off. -/
theorem Mirror.enroll (h : Mirror v none) (hk : Keys v) (info : OrderInfo) (g : Flight)
    (hid : g.id = v.nextRef) (hsym : info.symbol = g.symbol) (hsd : info.side = g.side)
    (hopen : info.openQty = g.left) (hleft : g.left ≠ 0) : Mirror (v.enroll info) (some g) := by
  have hne : ∀ {sym t y}, y ∈ (v.book sym).side t → y.id ≠ v.nextRef := by
    intro sym t y hy heq
    obtain ⟨i, hi, -⟩ := h.resting hy
    exact absurd (hk.fresh hi) (by rw [heq]; exact Nat.lt_irrefl _)
  have horders : (v.enroll info).orders = update v.orders v.nextRef (some info) := rfl
  refine ⟨h.wf, fun {sym t y} hy => ?_, fun {id i} hi' => ?_, ?_, ?_, ?_⟩
  · rw [horders, update_of_ne (hne hy)]
    exact h.resting hy
  · by_cases hid' : id = v.nextRef
    · exact Or.inr ⟨g, rfl, hid.trans hid'.symm⟩
    · rw [horders, update_of_ne hid'] at hi'
      rcases h.live hi' with hr | ⟨g', hg', -⟩
      · exact Or.inl hr
      · cases hg'
  · rintro g' ⟨⟩ sym t y hy
    rw [hid]
    exact hne hy
  · rintro g' ⟨⟩ -
    exact ⟨info, by rw [horders, hid, update_self], hsym, hsd, hopen⟩
  · rintro g' ⟨⟩ hl
    exact absurd hl hleft

/-- What is left of the order in flight comes to rest. -/
theorem Mirror.rest (h : Mirror v (some g)) (hleft : g.left ≠ 0) (hp : 0 < g.limit)
    (hdone : ∀ o ∈ (v.book g.symbol).side g.side.opposite, ¬ crosses g.side g.limit o.price) :
    Mirror (v.setBook g.symbol ((v.book g.symbol).rest g.id g.side g.limit g.left)) none := by
  obtain ⟨info, hi, hsym, hsd, hopen⟩ := h.flight g rfl hleft
  have hmem : ∀ {symbol' t y}, y ∈ ((v.setBook g.symbol
      ((v.book g.symbol).rest g.id g.side g.limit g.left)).book symbol').side t ↔
      y ∈ (v.book symbol').side t ∨ symbol' = g.symbol ∧ t = g.side ∧
        y = ⟨g.id, g.limit, g.left⟩ := by
    intro symbol' t y
    rw [mem_setBook, PriorityBook.mem_side_rest]
    by_cases hs : symbol' = g.symbol
    · subst hs
      simp
    · simp [hs]
  have hfresh : (v.book g.symbol).contains g.id = false :=
    PriorityBook.contains_eq_false.mpr (fun s o ho => h.apart g rfl ho)
  refine ⟨fun sym => ?_, fun {sym t y} hy => ?_, fun {id i} hi' => ?_, ?_, ?_, ?_⟩
  · simp only [setBook]
    by_cases hs : sym = g.symbol
    · subst hs
      rw [update_self]
      exact (h.wf _).rest hfresh hp hleft hdone
    · rw [update_of_ne hs]
      exact h.wf sym
  · rcases hmem.mp hy with hy | ⟨rfl, rfl, rfl⟩
    · exact h.resting hy
    · exact ⟨info, hi, hsym, hsd, hopen⟩
  · refine Or.inl ?_
    rcases h.live hi' with ⟨y, hy, rfl⟩ | ⟨g', hg', rfl⟩
    · exact ⟨y, hmem.mpr (Or.inl hy), rfl⟩
    · cases hg'
      cases hi.symm.trans hi'
      exact ⟨_, hmem.mpr (Or.inr ⟨hsym, hsd, rfl⟩), rfl⟩
  · rintro g' ⟨⟩
  · rintro g' ⟨⟩
  · rintro g' ⟨⟩

/-- The order in flight is dropped. -/
theorem Mirror.dropFlight (h : Mirror v (some g)) : Mirror (v.setOrder g.id none) none := by
  refine ⟨h.wf, fun {sym t y} hy => ?_, fun {id i} hi' => ?_, ?_, ?_, ?_⟩
  · rw [orders_setOrder, update_of_ne (h.apart g rfl hy)]
    exact h.resting hy
  · by_cases hid : id = g.id
    · rw [orders_setOrder, hid, update_self] at hi'
      cases hi'
    · rw [orders_setOrder, update_of_ne hid] at hi'
      rcases h.live hi' with hr | ⟨g', hg', hid'⟩
      · exact Or.inl hr
      · cases hg'
        exact absurd hid'.symm hid
  · rintro g' ⟨⟩
  · rintro g' ⟨⟩
  · rintro g' ⟨⟩

end mirror

/-! ## Section 3: Every step keeps the invariant -/

section step

variable {v v' : Venue} {f f' : Option Flight} {now client : Nat}

variable {o : Resting}

theorem Inv.say (h : Inv v f) (outs : List Output) : Inv (v.say outs) f :=
  ⟨h.mirror.congr rfl rfl, h.keys.congr rfl rfl rfl⟩

/-- The next execution leaves the book well formed. -/
theorem Mirror.enabled_execution {g : Flight} (h : Mirror v (some g)) {l : List Resting}
    (hl : (v.book g.symbol).side g.side.opposite = o :: l) (hleft : g.left ≠ 0) :
    (v.book g.symbol).Enabled (.executed (v.execution g o)) :=
  (h.wf g.symbol).enabled_execution hl hleft

theorem Inv.executed {g : Flight} (h : Inv v (some g)) {l : List Resting}
    {resting aggressor : OrderInfo} (hl : (v.book g.symbol).side g.side.opposite = o :: l)
    (hleft : g.left ≠ 0) (hr : v.orders o.id = some resting) (ha : v.orders g.id = some aggressor) :
    Inv (v.executed now g o resting aggressor)
      (some { g with left := g.left - (v.execution g o).qty }) := by
  have ho : o ∈ (v.book g.symbol).side g.side.opposite := by simp [hl]
  have hne : g.id ≠ o.id := (h.mirror.apart g rfl ho).symm
  have hwf := (h.mirror.wf g.symbol).applyEvent (h.mirror.enabled_execution hl hleft)
  have hm := h.mirror.reduce ho hr (v.execution g o).qty hwf (fun t => by cases t <;> rfl)
  have hk := h.keys.setLess hr (v.execution g o).qty
  have ha' : (v.setOrder o.id (resting.less (v.execution g o).qty)).orders g.id =
      some aggressor := by
    rw [orders_setOrder, update_of_ne hne, ha]
  have hm' := hm.spend ha' hleft (v.execution g o).qty
  have hk' := hk.setLess ha' (v.execution g o).qty
  exact ⟨hm'.congr rfl rfl, hk'.congr rfl rfl rfl⟩

theorem Inv.canceled (h : Inv v none) {info : OrderInfo} {x : CanceledEvent}
    (hi : v.orders x.id = some info) (ho : o ∈ (v.book info.symbol).side info.side)
    (hid : o.id = x.id) (hqty : x.canceledQty ≠ 0) (hle : x.canceledQty ≤ o.openQty)
    (hr : x.removed = true ↔ x.canceledQty = o.openQty) : Inv (v.canceled now info x) none := by
  have hwf := h.mirror.wf info.symbol
  have he : (v.book info.symbol).Enabled (.canceled x) := .canceled x info.side o ho hid hqty hle hr
  have hm := h.mirror.reduce ho (hid ▸ hi) x.canceledQty (hwf.applyEvent he)
    (fun t => by rw [hwf.applyEvent_canceled ho hid hr])
  have hk := h.keys.setLess (hid ▸ hi) x.canceledQty
  rw [hid] at hm hk
  exact ⟨hm.congr rfl rfl, hk.congr rfl rfl rfl⟩

/-- A replaced order leaves, and the new one takes off. -/
theorem Inv.swapped (h : Inv v none) (now : Nat) (m : Ouch.ReplaceOrder) {oldRef : OrderId}
    {old : OrderInfo} (hi : v.orders oldRef = some old) (ho : o ∈ (v.book old.symbol).side old.side)
    (hid : o.id = oldRef) (hk : tokenKey client m.replacementToken ∉ v.used)
    (hshares : m.shares ≠ 0) :
    Inv ((v.swapped now client m oldRef old).setBook old.symbol ((v.book old.symbol).remove oldRef))
      (some ⟨v.nextRef, old.symbol, old.side, m.price, m.shares⟩) := by
  subst hid
  have hwf := h.mirror.wf old.symbol
  have hopen := (h.mirror.record ho hi).2.2
  have hm := h.mirror.reduce ho hi o.openQty (hwf.remove o.id)
    (fun t => by rw [hwf.reduce_of_mem ho, if_pos (UInt32.sub_self _)])
  have hless : old.less o.openQty = none := by
    rw [OrderInfo.less, hopen, if_pos (UInt32.sub_self _)]
  rw [hless] at hm
  have hkeys := h.keys.setNone o.id
  have hm' := hm.enroll (hkeys.congr rfl rfl rfl)
    ⟨client, m.replacementToken, old.symbol, old.side, m.shares⟩
    ⟨v.nextRef, old.symbol, old.side, m.price, m.shares⟩ rfl rfl rfl rfl hshares
  have hk' := hkeys.enroll ⟨client, m.replacementToken, old.symbol, old.side, m.shares⟩ hk
  exact ⟨hm'.congr rfl rfl, hk'.congr rfl rfl rfl⟩

/-- **Step lemma.** -/
theorem Inv.step (h : Inv v f) (hs : Step now client (v, f) (v', f')) : Inv v' f' := by
  cases hs with
  | reject _ token reason => exact h.say _
  | accept _ m side limit unused shares =>
    have hm := h.mirror.enroll h.keys ⟨client, m.token, m.stock, side, m.shares⟩
      ⟨v.nextRef, m.stock, side, limit, m.shares⟩ rfl rfl rfl rfl shares
    exact Inv.say ⟨hm, h.keys.enroll _ unused⟩ _
  | execute _ g o l resting aggressor best left cross hr ha => exact h.executed best left hr ha
  | rest _ g left price done =>
    exact Inv.say ⟨h.mirror.rest left price done,
      h.keys.congr rfl rfl rfl⟩ _
  | kill _ g info reason left live =>
    have hm := h.mirror.dropFlight
    have hk := h.keys.setNone g.id
    exact ⟨hm.congr rfl rfl, hk.congr rfl rfl rfl⟩
  | land _ g left =>
    have hm := h.mirror.dropFlight
    have hnone : v.setOrder g.id none = v := by
      rw [setOrder, ← h.mirror.landed g rfl left, update_eq_self]
    exact ⟨hnone ▸ hm, h.keys⟩
  | cancel _ info o x live owner rests id qty le removed =>
    exact h.canceled live rests id qty le removed
  | replaceCross _ m oldRef old o live owner rests id unused price shares =>
    exact (h.swapped now m live rests id unused shares).say _
  | replaceRest _ m oldRef old o live owner rests id unused price shares done =>
    subst id
    have hsw := h.swapped now m live rests rfl unused shares
    have hdone : ∀ y ∈ ((v.book old.symbol).remove o.id).side old.side.opposite,
        ¬ crosses old.side m.price y.price :=
          fun y hy => done y (PriorityBook.mem_side_remove.mp hy).1
    have hm := hsw.mirror.rest shares price (by simpa using hdone)
    simp only [book_setBook_self, setBook_setBook] at hm
    exact Inv.say ⟨hm, hsw.keys.congr rfl rfl rfl⟩ _

/-- Between commands, live orders rest. -/
theorem Inv.rests (h : Inv v none) {id : OrderId} {info : OrderInfo}
    (hi : v.orders id = some info) : ∃ o ∈ (v.book info.symbol).side info.side, o.id = id := by
  rcases h.mirror.live hi with hr | ⟨g, hg, -⟩
  · exact hr
  · cases hg

theorem inv_fresh : Inv {} none := by
  refine ⟨⟨fun _ => PriorityBook.wf_empty, ?_, by simp, by simp, by simp, by simp⟩,
    ⟨by simp, by simp, by simp⟩⟩
  intro symbol side o ho
  cases side <;> cases ho

/-- **Run lemma**, inside a command. A property that every step keeps under the
    invariant holds after any number of steps. -/
theorem Inv.steps {P : Venue → Option Flight → Prop} (h : Inv v f) (hP : P v f)
    (step : ∀ {u u' g g'}, Inv u g → P u g → Step now client (u, g) (u', g') → P u' g')
    (hs : Relation.ReflTransGen (Step now client) (v, f) (v', f')) : Inv v' f' ∧ P v' f' := by
  have hall : ∀ {x y}, Relation.ReflTransGen (Step now client) x y →
      Inv x.1 x.2 ∧ P x.1 x.2 → Inv y.1 y.2 ∧ P y.1 y.2 := by
    intro x y hxy hx
    induction hxy with
    | refl => exact hx
    | tail _ hstep ih => exact ⟨ih.1.step hstep, step ih.1 ih.2 hstep⟩
  exact hall hs ⟨h, hP⟩

/-- **Run lemma**, over commands. -/
theorem Run.induct {P : Venue → Option Flight → Prop} (hr : Run v v') (h : Inv v none)
    (hP : P v none)
    (step : ∀ {now client u u' g g'}, Inv u g → P u g → Step now client (u, g) (u', g') → P u' g') :
    Inv v' none ∧ P v' none := by
  induction hr with
  | nil => exact ⟨h, hP⟩
  | snoc now client _ cmd ih => exact ih.1.steps ih.2 step cmd

theorem Run.inv (hr : Run v v') (h : Inv v none) : Inv v' none :=
  (hr.induct (P := fun _ _ => True) h trivial (fun _ _ _ => trivial)).1

/-! ### Records over a run -/

/-- Nothing in the record of an order changes but its open quantity, and an
    order that is gone does not come back. -/
structure Kept (v v' : Venue) : Prop where
  nextRef : v.nextRef ≤ v'.nextRef
  record : ∀ {id info'}, id < v.nextRef → v'.orders id = some info' →
    ∃ info, v.orders id = some info ∧ info' = { info with openQty := info'.openQty }

theorem Kept.refl (v : Venue) : Kept v v := ⟨Nat.le_refl _, fun _ hi => ⟨_, hi, rfl⟩⟩

theorem Kept.congr {u : Venue} (h : Kept v u) (ho : v'.orders = u.orders)
    (hn : v'.nextRef = u.nextRef) : Kept v v' :=
  ⟨hn ▸ h.nextRef, by rw [ho]; exact h.record⟩

theorem Kept.trans {v'' : Venue} (h : Kept v v') (h' : Kept v' v'') : Kept v v'' := by
  refine ⟨Nat.le_trans h.nextRef h'.nextRef, fun hid hi'' => ?_⟩
  obtain ⟨info', hi', heq'⟩ := h'.record (Nat.lt_of_lt_of_le hid h.nextRef) hi''
  obtain ⟨info, hi, heq⟩ := h.record hid hi'
  exact ⟨info, hi, by rw [heq', heq]⟩

theorem Kept.setLess {id : OrderId} {info : OrderInfo} (hi : v.orders id = some info) (qty : Qty) :
    Kept v (v.setOrder id (info.less qty)) := by
  refine ⟨Nat.le_refl _, fun {id' info'} _ hi' => ?_⟩
  by_cases hid : id' = id
  · rw [hid, orders_setOrder, update_self] at hi'
    obtain ⟨-, rfl⟩ := OrderInfo.less_some hi'
    exact ⟨info, hid ▸ hi, rfl⟩
  · rw [orders_setOrder, update_of_ne hid] at hi'
    exact ⟨info', hi', rfl⟩

theorem Kept.setNone (v : Venue) (id : OrderId) : Kept v (v.setOrder id none) := by
  refine ⟨Nat.le_refl _, fun {id' info'} _ hi' => ?_⟩
  by_cases hid : id' = id
  · rw [hid, orders_setOrder, update_self] at hi'
    cases hi'
  · rw [orders_setOrder, update_of_ne hid] at hi'
    exact ⟨info', hi', rfl⟩

theorem Kept.enroll (v : Venue) (info : OrderInfo) : Kept v (v.enroll info) := by
  refine ⟨Nat.le_succ _, fun {id' info'} hid hi' => ?_⟩
  simp only [Venue.enroll, orders_setOrder, update_of_ne (Nat.ne_of_lt hid)] at hi'
  exact ⟨info', hi', rfl⟩

/-- **Step lemma.** -/
theorem Inv.kept (h : Inv v f) (hs : Step now client (v, f) (v', f')) : Kept v v' := by
  cases hs with
  | reject | rest | land => exact (Kept.refl v).congr rfl rfl
  | accept _ m side =>
    exact (Kept.enroll v ⟨client, m.token, m.stock, side, m.shares⟩).congr rfl rfl
  | execute _ g o l resting aggressor best left cross hr ha =>
    have ho : o ∈ (v.book g.symbol).side g.side.opposite := by simp [best]
    have hne : g.id ≠ o.id := (h.mirror.apart g rfl ho).symm
    have h₁ : Kept v _ := .setLess hr (v.execution g o).qty
    have ha' : (v.setOrder o.id (resting.less (v.execution g o).qty)).orders g.id =
        some aggressor := by
      rw [orders_setOrder, update_of_ne hne, ha]
    have h₂ := h₁.trans (.setLess ha' (v.execution g o).qty)
    exact h₂.congr rfl rfl
  | kill _ g => exact (Kept.setNone v g.id).congr rfl rfl
  | cancel _ info o x live =>
    have h₁ : Kept v _ := .setLess live x.canceledQty
    exact h₁.congr rfl rfl
  | replaceCross _ m oldRef old | replaceRest _ m oldRef old =>
    have h₁ := (Kept.setNone v oldRef).trans
      (.enroll _ ⟨client, m.replacementToken, old.symbol, old.side, m.shares⟩)
    exact h₁.congr rfl rfl

theorem Inv.steps_kept (h : Inv v f)
    (hs : Relation.ReflTransGen (Step now client) (v, f) (v', f')) : Inv v' f' ∧ Kept v v' :=
  h.steps (P := fun u _ => Kept v u) (.refl v) (fun hu hk hstep => hk.trans (hu.kept hstep)) hs

end step

end MatchingEngine
