import MatchingEngine.Book.FastBook
import MatchingEngine.Book.PriorityBook
import MatchingEngine.Ouch.Messages
import Mathlib.Data.Finmap

/-! # The engine

    `engine/engine.cpp`. The engine takes OUCH commands, drives one book per
    symbol and answers with OUCH responses and market events. It keeps its own
    record of every live order, which it updates in the callbacks of the books.

    Modelling choices:

    * The engine is written over the operations it uses of a book (`Book`). The
      engine of the source is `Engine FastBook`.
    * The callbacks of an operation run in the middle of it in the source. No
      book reads the engine, so here they run after it, on the list of its events.
    * The queues to the gateway and to the feed are one log, `out`, in the order
      of the pushes.
    * The clock is an argument of `process`.
    * `faults` is a ghost: it records the results the source discards and the
      subtractions it does not check. Nothing reads it.
-/

namespace MatchingEngine

/-- What the engine uses of a book. `none` is undefined behaviour. -/
class Book (B : Type) where
  fresh : B
  add : B → OrderId → Side → Price → Qty → Option (B × AddResult × List BookEvent)
  cancel : B → OrderId → Qty → Option (B × Bool × List BookEvent)
  replace : B → OrderId → OrderId → Price → Qty → Option (B × Bool × List BookEvent)
  executeIoc : B → OrderId → Side → Price → Qty → Option (B × Qty × List BookEvent)
  matchable : B → Side → Price → Option (B × Qty)
  snapshot : B → Option BookSnapshot

instance : Book FastBook where
  fresh := FastBook.create {}
  add := FastBook.add
  cancel := FastBook.cancel
  replace := FastBook.replace
  executeIoc := FastBook.executeIoc
  matchable := FastBook.matchable
  snapshot := FastBook.snapshot

instance : Book PriorityBook where
  fresh := {}
  add := fun b id side price qty => some (b.add id side price qty)
  cancel := fun b id keep => some (b.cancel id keep)
  replace := fun b oldId newId price qty => some (b.replace oldId newId price qty)
  executeIoc := fun b id side limit qty => some (b.executeIoc id side limit qty)
  matchable := fun b side limit => some (b, b.matchable side limit)
  snapshot := fun b => some b.snapshot

section priority

variable (b : PriorityBook) (id newId : OrderId) (side : Side) (price : Price) (qty : Qty)

theorem PriorityBook.book_add : Book.add b id side price qty = some (b.add id side price qty) := rfl

theorem PriorityBook.book_cancel : Book.cancel b id qty = some (b.cancel id qty) := rfl

theorem PriorityBook.book_replace :
    Book.replace b id newId price qty = some (b.replace id newId price qty) := rfl

theorem PriorityBook.book_executeIoc :
    Book.executeIoc b id side price qty = some (b.executeIoc id side price qty) := rfl

theorem PriorityBook.book_matchable :
    Book.matchable b side price = some (b, b.matchable side price) := rfl

end priority

/-- The events of an operation that returns. -/
theorem events_of_returned {B R : Type} {x : B × R × List BookEvent} {b : B} {r : R}
    {events : List BookEvent} (h : some x = some (b, r, events)) : events = x.2.2 := by
  cases h
  rfl

open Ouch (Token Response tokenView)

/-! ### Commands and outputs -/

inductive CommandMsg where
  | enter (m : Ouch.EnterOrder)
  | cancel (m : Ouch.CancelOrder)
  | replace (m : Ouch.ReplaceOrder)
  deriving DecidableEq, Repr, Inhabited

structure Command where
  clientId : Nat
  msg : CommandMsg
  deriving DecidableEq, Repr, Inhabited

structure ClientResponse where
  clientId : Nat
  msg : Response
  deriving DecidableEq, Repr

structure MarketEvent where
  ts : Nat
  symbol : Symbol
  ev : BookEvent
  deriving DecidableEq, Repr

/-- A push to the gateway or to the feed. -/
inductive Output where
  | response (r : ClientResponse)
  | market (m : MarketEvent)
  deriving DecidableEq, Repr

def responsesOf (log : List Output) : List ClientResponse :=
  log.filterMap (fun o => match o with
    | .response r => some r
    | .market _ => none)

def marketEventsOf (log : List Output) : List MarketEvent :=
  log.filterMap (fun o => match o with
    | .response _ => none
    | .market m => some m)

section outputs

variable (r : ClientResponse) (m : MarketEvent) (log : List Output)

@[simp] theorem responsesOf_nil : responsesOf [] = [] := rfl

@[simp] theorem responsesOf_response :
    responsesOf (.response r :: log) = r :: responsesOf log := rfl

@[simp] theorem responsesOf_market : responsesOf (.market m :: log) = responsesOf log := rfl

@[simp] theorem marketEventsOf_nil : marketEventsOf [] = [] := rfl

@[simp] theorem marketEventsOf_response :
    marketEventsOf (.response r :: log) = marketEventsOf log := rfl

@[simp] theorem marketEventsOf_market :
    marketEventsOf (.market m :: log) = m :: marketEventsOf log := rfl

end outputs

@[simp] theorem responsesOf_append (log log' : List Output) :
    responsesOf (log ++ log') = responsesOf log ++ responsesOf log' :=
  List.filterMap_append

@[simp] theorem marketEventsOf_append (log log' : List Output) :
    marketEventsOf (log ++ log') = marketEventsOf log ++ marketEventsOf log' :=
  List.filterMap_append

/-- A client with one of its tokens. -/
abbrev TokenKey := Nat × List UInt8

def tokenKey (client : Nat) (token : Token) : TokenKey := (client, tokenView token)

structure OrderInfo where
  clientId : Nat
  token : Token
  symbol : Symbol
  side : Side
  openQty : Qty
  deriving DecidableEq, Repr

def OrderInfo.key (info : OrderInfo) : TokenKey := tokenKey info.clientId info.token

def acceptedMsg (now : Nat) (ref : OrderId) (side : Side) (m : Ouch.EnterOrder) :
    Ouch.Accepted where
  timestamp := now
  token := m.token
  side := side
  shares := m.shares
  stock := m.stock
  price := m.price
  tif := m.tif
  firm := m.firm
  display := m.display
  orderRef := ref
  capacity := m.capacity
  intermarketSweep := m.intermarketSweep
  minQty := m.minQty
  crossType := m.crossType
  orderState := ch 'L'

def replacedMsg (now : Nat) (ref : OrderId) (old : OrderInfo) (m : Ouch.ReplaceOrder) :
    Ouch.Replaced where
  timestamp := now
  replacementToken := m.replacementToken
  side := old.side
  shares := m.shares
  stock := old.symbol
  price := m.price
  tif := m.tif
  display := m.display
  orderRef := ref
  intermarketSweep := m.intermarketSweep
  minQty := m.minQty
  orderState := ch 'L'
  previousToken := old.token

def executedMsg (now : Nat) (info : OrderInfo) (x : ExecutedEvent) (liquidity : Char) :
    Ouch.Executed :=
  ⟨now, info.token, x.qty, x.price, ch liquidity, x.matchId⟩

/-- What the source does not look at. -/
inductive Fault where
  | addFailed (status : AddStatus)
  | replaceFailed
  | underflow (id : OrderId)
  deriving DecidableEq, Repr

structure Engine (B : Type) where
  books : Finmap (fun _ : Symbol => B) := ∅
  orders : Finmap (fun _ : OrderId => OrderInfo) := ∅
  /-- The order a client's token stands for while it is live. -/
  liveTokens : Finmap (fun _ : TokenKey => OrderId) := ∅
  /-- All tokens of the day. -/
  usedTokens : Finset TokenKey := ∅
  nextRef : OrderId := 1
  currentSymbol : Symbol := Vector.replicate 8 0
  now : Nat := 0
  /-- Set while a replace may cross. -/
  suppressOuchCancel : Bool := false
  out : List Output := []
  faults : List Fault := []

namespace Engine

variable {B : Type}

def push (e : Engine B) (o : Output) : Engine B := { e with out := e.out ++ [o] }

def respond (e : Engine B) (client : Nat) (msg : Response) : Engine B :=
  e.push (.response ⟨client, msg⟩)

def publish (e : Engine B) (ev : BookEvent) : Engine B :=
  e.push (.market ⟨e.now, e.currentSymbol, ev⟩)

def setSymbol (e : Engine B) (symbol : Symbol) : Engine B := { e with currentSymbol := symbol }

def setSuppress (e : Engine B) (flag : Bool) : Engine B := { e with suppressOuchCancel := flag }

def setNow (e : Engine B) (now : Nat) : Engine B := { e with now := now }

/-- Record a fault when there is one. -/
def audit (e : Engine B) (bad : Bool) (fault : Fault) : Engine B :=
  if bad then { e with faults := e.faults ++ [fault] } else e

def tokenUsed (e : Engine B) (client : Nat) (token : Token) : Bool :=
  tokenKey client token ∈ e.usedTokens

def reject (e : Engine B) (client : Nat) (token : Token) (reason : Char) : Engine B :=
  e.respond client (.rejected ⟨e.now, token, ch reason⟩)

def reduceOpen (e : Engine B) (id : OrderId) (qty : Qty) : Engine B :=
  match e.orders.lookup id with
  | none => e
  | some info =>
    let e := e.audit (info.openQty < qty) (.underflow id)
    if info.openQty - qty = 0 then
      { e with
        liveTokens := e.liveTokens.erase info.key
        orders := e.orders.erase id }
    else { e with orders := e.orders.insert id { info with openQty := info.openQty - qty } }

/-! ### Callbacks -/

/-- Tell the owner of an order about a fill. -/
def notify (e : Engine B) (x : ExecutedEvent) (id : OrderId) (liquidity : Char) : Engine B :=
  match e.orders.lookup id with
  | none => e
  | some info => e.respond info.clientId (.executed (executedMsg e.now info x liquidity))

def onAdded (e : Engine B) (x : AddedEvent) : Engine B := e.publish (.added x)

def onExecuted (e : Engine B) (x : ExecutedEvent) : Engine B :=
  let e := e.publish (.executed x)
  let e := e.notify x x.restingId 'A'
  let e := e.notify x x.aggressorId 'R'
  let e := e.reduceOpen x.restingId x.qty
  e.reduceOpen x.aggressorId x.qty

/-- The response of `on_canceled`, which a replace suppresses. -/
def tellCanceled (e : Engine B) (x : CanceledEvent) : Engine B :=
  if e.suppressOuchCancel then e
  else
    match e.orders.lookup x.id with
    | none => e
    | some info => e.respond info.clientId (.canceled ⟨e.now, info.token, x.canceledQty, ch 'U'⟩)

def onCanceled (e : Engine B) (x : CanceledEvent) : Engine B :=
  let e := e.publish (.canceled x)
  let e := e.tellCanceled x
  if x.removed then e.reduceOpen x.id x.canceledQty
  else
    match e.orders.lookup x.id with
    | none => e
    | some info =>
      let e := e.audit (info.openQty < x.canceledQty) (.underflow x.id)
      { e with
        orders := e.orders.insert x.id { info with openQty := info.openQty - x.canceledQty } }

def onReplaced (e : Engine B) (x : ReplacedEvent) : Engine B := e.publish (.replaced x)

def onEvent (e : Engine B) : BookEvent → Engine B
  | .added x => e.onAdded x
  | .executed x => e.onExecuted x
  | .canceled x => e.onCanceled x
  | .replaced x => e.onReplaced x

/-- The callbacks of one book operation. -/
def onEvents (e : Engine B) (events : List BookEvent) : Engine B := events.foldl onEvent e

/-! ### Commands -/

variable [Book B]

/-- `book_for`: the book of a symbol, made when it is first asked for. -/
def bookFor (e : Engine B) (symbol : Symbol) : Engine B × B :=
  match e.books.lookup symbol with
  | some book => (e, book)
  | none => ({ e with books := e.books.insert symbol Book.fresh }, Book.fresh)

def setBook (e : Engine B) (symbol : Symbol) (book : B) : Engine B :=
  { e with books := e.books.insert symbol book }

/-- Cancel shares that never rested: the remainder of an immediate order, or
    an order whose minimum quantity is not there. -/
def cancelUnrested (e : Engine B) (client : Nat) (ref : OrderId) (token : Token) (qty : Qty)
    (reason : Char) : Engine B :=
  let e := e.respond client (.canceled ⟨e.now, token, qty, ch reason⟩)
  { e with
    liveTokens := e.liveTokens.erase (tokenKey client token)
    orders := e.orders.erase ref }

/-- The test of the minimum quantity: is the order killed? -/
def minQtyUnmet (book : B) (side : Side) (limit : Price) (minQty : Qty) : Option (B × Bool) :=
  if minQty > 0 then
    (Book.matchable book side limit).map (fun (book, qty) => (book, decide (qty < minQty)))
  else some (book, false)

/-- The limit of an order. No resting price is beyond that of a market order. -/
def limitFor (m : Ouch.EnterOrder) (side : Side) : Price :=
  if m.price = Ouch.kMarketPrice then (if side = .buy then 2 ^ 63 - 1 else 1) else m.price

/-- What happens to an accepted order. -/
def execute (e : Engine B) (client : Nat) (m : Ouch.EnterOrder) (side : Side) (ref : OrderId) :
    Option (Engine B) := do
  let market := m.price = Ouch.kMarketPrice
  let (e, book) := e.bookFor m.stock
  let limit := limitFor m side
  let (book, unmet) ← minQtyUnmet book side limit m.minQty
  let e := e.setBook m.stock book
  if unmet then some (e.cancelUnrested client ref m.token m.shares 'D')
  else if market ∨ m.tif = Ouch.kTifIOC then
    let (book, filled, events) ← Book.executeIoc book ref side limit m.shares
    let e := (e.setBook m.stock book).onEvents events
    if m.shares - filled > 0 then
      some (e.cancelUnrested client ref m.token (m.shares - filled) 'I')
    else some e
  else
    let (book, result, events) ← Book.add book ref side m.price m.shares
    let e := (e.setBook m.stock book).onEvents events
    some (e.audit (result.status ≠ .ok) (.addFailed result.status))

/-- The bookkeeping of an accepted order, and its acknowledgement. -/
def accept (e : Engine B) (client : Nat) (m : Ouch.EnterOrder) (side : Side) : Engine B :=
  let ref := e.nextRef
  let e := { e with
    nextRef := e.nextRef + 1
    usedTokens := insert (tokenKey client m.token) e.usedTokens
    liveTokens := e.liveTokens.insert (tokenKey client m.token) ref
    orders := e.orders.insert ref ⟨client, m.token, m.stock, side, m.shares⟩
    currentSymbol := m.stock }
  e.respond client (.accepted (acceptedMsg e.now ref side m))

def handleEnter (e : Engine B) (client : Nat) (m : Ouch.EnterOrder) : Option (Engine B) :=
  if e.tokenUsed client m.token then some (e.reject client m.token 'T')
  else if m.price ≠ Ouch.kMarketPrice ∧ m.price ≤ 0 then some (e.reject client m.token 'X')
  else if m.shares = 0 then some (e.reject client m.token 'Z')
  else
    match Side.ofByte m.side with
    | none => some (e.reject client m.token 'S')
    | some side => (e.accept client m side).execute client m side e.nextRef

def handleCancel (e : Engine B) (client : Nat) (m : Ouch.CancelOrder) : Option (Engine B) :=
  match e.liveTokens.lookup (tokenKey client m.token) with
  | none => some e
  | some id =>
    match e.orders.lookup id with
    | none => some e
    | some info => do
      let (e, book) := (e.setSymbol info.symbol).bookFor info.symbol
      let (book, _, events) ← Book.cancel book id m.shares
      some ((e.setBook info.symbol book).onEvents events)

/-- The acknowledgement of a replace, and the swap of the bookkeeping to the
    new order. -/
def swap (e : Engine B) (client : Nat) (m : Ouch.ReplaceOrder) (oldRef : OrderId)
    (old : OrderInfo) : Engine B :=
  let newRef := e.nextRef
  let e := { e with
    currentSymbol := old.symbol
    nextRef := e.nextRef + 1
    usedTokens := insert (tokenKey client m.replacementToken) e.usedTokens }
  let e := e.respond client (.replaced (replacedMsg e.now newRef old m))
  { e with
    liveTokens := (e.liveTokens.erase (tokenKey client m.existingToken)).insert
      (tokenKey client m.replacementToken) newRef
    orders := (e.orders.erase oldRef).insert newRef
      ⟨client, m.replacementToken, old.symbol, old.side, m.shares⟩ }

def handleReplace (e : Engine B) (client : Nat) (m : Ouch.ReplaceOrder) : Option (Engine B) :=
  match e.liveTokens.lookup (tokenKey client m.existingToken) with
  | none => some e
  | some oldRef =>
    if e.tokenUsed client m.replacementToken then some e
    else if m.price ≤ 0 ∨ m.shares = 0 then some e
    else
      match e.orders.lookup oldRef with
      | none => some e
      | some old => do
        let newRef := e.nextRef
        let e := (e.swap client m oldRef old).setSuppress true
        let (e, book) := e.bookFor old.symbol
        let (book, ok, events) ← Book.replace book oldRef newRef m.price m.shares
        let e := (e.setBook old.symbol book).onEvents events
        let e := e.audit (!ok) .replaceFailed
        some (e.setSuppress false)

def process (e : Engine B) (now : Nat) (cmd : Command) : Option (Engine B) :=
  let e := e.setNow now
  match cmd.msg with
  | .enter m => e.handleEnter cmd.clientId m
  | .cancel m => e.handleCancel cmd.clientId m
  | .replace m => e.handleReplace cmd.clientId m

/-! ### What a command does

    Each command inverted once: its guards, the book operation and the callbacks. -/

section cases

variable {e e' : Engine B} {client : Nat}

theorem execute_cases {m : Ouch.EnterOrder} {side : Side} {ref : OrderId}
    (h : e.execute client m side ref = some e') :
    ∃ e₁ book book₁ unmet e₂, e.bookFor m.stock = (e₁, book) ∧
      minQtyUnmet book side (limitFor m side) m.minQty = some (book₁, unmet) ∧
      e₂ = e₁.setBook m.stock book₁ ∧
      (e' = e₂.cancelUnrested client ref m.token m.shares 'D' ∨
        (∃ book₂ filled events e₃, (m.price = Ouch.kMarketPrice ∨ m.tif = Ouch.kTifIOC) ∧
          Book.executeIoc book₁ ref side (limitFor m side) m.shares = some (book₂, filled, events) ∧
          e₃ = (e₂.setBook m.stock book₂).onEvents events ∧
          (e' = e₃.cancelUnrested client ref m.token (m.shares - filled) 'I' ∨ e' = e₃)) ∨
        ∃ book₂ result events, ¬ (m.price = Ouch.kMarketPrice ∨ m.tif = Ouch.kTifIOC) ∧
          Book.add book₁ ref side m.price m.shares = some (book₂, result, events) ∧
          e' = ((e₂.setBook m.stock book₂).onEvents events).audit (result.status ≠ .ok)
            (.addFailed result.status)) := by
  unfold execute at h
  dsimp only at h
  obtain ⟨⟨book₁, unmet⟩, hunmet, h⟩ := Option.bind_eq_some_iff.mp h
  refine ⟨_, _, book₁, unmet, _, rfl, hunmet, rfl, ?_⟩
  dsimp only at h
  split at h
  · cases h
    exact .inl rfl
  split at h
  · rename_i himmediate
    obtain ⟨⟨book₂, filled, events⟩, hioc, h⟩ := Option.bind_eq_some_iff.mp h
    refine .inr (.inl ⟨book₂, filled, events, _, himmediate, hioc, rfl, ?_⟩)
    dsimp only at h
    split at h
    · cases h
      exact .inl rfl
    · cases h
      exact .inr rfl
  · rename_i hday
    obtain ⟨⟨book₂, result, events⟩, hadd, h⟩ := Option.bind_eq_some_iff.mp h
    cases h
    exact .inr (.inr ⟨book₂, result, events, hday, hadd, rfl⟩)

theorem handleEnter_cases {m : Ouch.EnterOrder} (h : e.handleEnter client m = some e') :
    (∃ reason, e' = e.reject client m.token reason) ∨
      ∃ side, e.tokenUsed client m.token = false ∧ m.shares ≠ 0 ∧ Side.ofByte m.side = some side ∧
        (e.accept client m side).execute client m side e.nextRef = some e' := by
  unfold handleEnter at h
  split at h
  · cases h
    exact .inl ⟨'T', rfl⟩
  rename_i hused
  split at h
  · cases h
    exact .inl ⟨'X', rfl⟩
  split at h
  · cases h
    exact .inl ⟨'Z', rfl⟩
  rename_i hshares
  split at h
  · cases h
    exact .inl ⟨'S', rfl⟩
  · rename_i side hside
    exact .inr ⟨side, by simpa using hused, hshares, hside, h⟩

theorem handleCancel_cases {m : Ouch.CancelOrder} (h : e.handleCancel client m = some e') :
    e' = e ∨ ∃ id info e₁ book book₁ ok events,
      e.liveTokens.lookup (tokenKey client m.token) = some id ∧ e.orders.lookup id = some info ∧
      (e.setSymbol info.symbol).bookFor info.symbol = (e₁, book) ∧
      Book.cancel book id m.shares = some (book₁, ok, events) ∧
      e' = (e₁.setBook info.symbol book₁).onEvents events := by
  unfold handleCancel at h
  split at h
  · cases h
    exact .inl rfl
  · rename_i id hlive
    split at h
    · cases h
      exact .inl rfl
    · rename_i info hinfo
      dsimp only at h
      obtain ⟨⟨book₁, ok, events⟩, hcancel, h⟩ := Option.bind_eq_some_iff.mp h
      cases h
      exact .inr ⟨id, info, _, _, book₁, ok, events, hlive, hinfo, rfl, hcancel, rfl⟩

theorem handleReplace_cases {m : Ouch.ReplaceOrder} (h : e.handleReplace client m = some e') :
    e' = e ∨ ∃ oldRef old e₁ book book₁ ok events,
      e.liveTokens.lookup (tokenKey client m.existingToken) = some oldRef ∧
      e.tokenUsed client m.replacementToken = false ∧ 0 < m.price ∧ m.shares ≠ 0 ∧
      e.orders.lookup oldRef = some old ∧
      ((e.swap client m oldRef old).setSuppress true).bookFor old.symbol = (e₁, book) ∧
      Book.replace book oldRef e.nextRef m.price m.shares = some (book₁, ok, events) ∧
      e' = (((e₁.setBook old.symbol book₁).onEvents events).audit (!ok) .replaceFailed).setSuppress
        false := by
  unfold handleReplace at h
  split at h
  · cases h
    exact .inl rfl
  · rename_i oldRef hlive
    split at h
    · cases h
      exact .inl rfl
    rename_i hused
    split at h
    · cases h
      exact .inl rfl
    rename_i hargs
    obtain ⟨hprice, hshares⟩ := not_or.mp hargs
    split at h
    · cases h
      exact .inl rfl
    · rename_i old hold
      dsimp only at h
      obtain ⟨⟨book₁, ok, events⟩, hreplace, h⟩ := Option.bind_eq_some_iff.mp h
      cases h
      exact .inr ⟨oldRef, old, _, _, book₁, ok, events, hlive, by simpa using hused, by lia,
        hshares, hold, rfl, hreplace, rfl⟩

end cases

def bookSnapshot (e : Engine B) (symbol : Symbol) : Option BookSnapshot :=
  match e.books.lookup symbol with
  | none => some {}
  | some book => Book.snapshot book

/-- Commands with the times at which they are processed. -/
def run (e : Engine B) (cmds : List (Nat × Command)) : Option (Engine B) :=
  cmds.foldlM (fun e (now, cmd) => e.process now cmd) e

/-- The responses, as the gateway gets them. -/
def responses (e : Engine B) : List ClientResponse := responsesOf e.out

/-- The market events, as the feed gets them. -/
def marketEvents (e : Engine B) : List MarketEvent := marketEventsOf e.out

end Engine

end MatchingEngine
