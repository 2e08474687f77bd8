import MatchingEngine.Book.Renaming
import MatchingEngine.Engine.Refines

/-! # Two engines that trade one symbol alike

    One engine has processed commands of many symbols, another one only those of
    a symbol `S`. As far as `S` goes they are *twins*: they have the same book,
    the same live orders and tokens and have sent the same, apart from times and
    from the references of orders, which the first engine has also given out to
    orders of other symbols. A renaming `ρ` takes the references of the second
    engine to those of the first.

    Twins that process a command of `S` remain twins (`Twin.process`).
-/

namespace MatchingEngine

open PriorityBook
open Ouch (Token Response)

/-! ## Section 1: Outputs without times and references -/

/-- The token a response is for. -/
def Ouch.Response.token : Response → Token
  | .accepted m => m.token
  | .executed m => m.token
  | .canceled m => m.token
  | .replaced m => m.replacementToken
  | .rejected m => m.token

/-- A response without its time, and with its reference renamed. -/
def Ouch.Response.relabel (ρ : OrderId → OrderId) : Response → Response
  | .accepted m => .accepted { m with timestamp := 0, orderRef := ρ m.orderRef }
  | .executed m => .executed { m with timestamp := 0 }
  | .canceled m => .canceled { m with timestamp := 0 }
  | .replaced m => .replaced { m with timestamp := 0, orderRef := ρ m.orderRef }
  | .rejected m => .rejected { m with timestamp := 0 }

def ClientResponse.relabel (ρ : OrderId → OrderId) (r : ClientResponse) : ClientResponse :=
  ⟨r.clientId, r.msg.relabel ρ⟩

/-- A market event without its time, and with its references renamed. -/
def MarketEvent.relabel (ρ : OrderId → OrderId) (m : MarketEvent) : MarketEvent :=
  ⟨0, m.symbol, m.ev.rename ρ⟩

def Output.relabel (ρ : OrderId → OrderId) : Output → Output
  | .response r => .response (r.relabel ρ)
  | .market m => .market (m.relabel ρ)

/-- The symbol that an output is about, when `sym` says it of tokens. -/
def Output.symbol (sym : TokenKey → Symbol) : Output → Symbol
  | .response r => sym (tokenKey r.clientId r.msg.token)
  | .market m => m.symbol

/-- The references in an output. -/
def Output.refs : Output → List OrderId
  | .response r =>
    match r.msg with
    | .accepted m => [m.orderRef]
    | .replaced m => [m.orderRef]
    | .executed _ | .canceled _ | .rejected _ => []
  | .market m => m.ev.ids

@[simp] theorem Output.symbol_relabel (sym : TokenKey → Symbol) (ρ : OrderId → OrderId)
    (o : Output) : (o.relabel ρ).symbol sym = o.symbol sym := by
  cases o with
  | response r =>
    obtain ⟨client, msg⟩ := r
    cases msg <;> rfl
  | market m => rfl

theorem Output.relabel_congr {ρ ρ' : OrderId → OrderId} {o : Output}
    (h : ∀ r ∈ o.refs, ρ r = ρ' r) : o.relabel ρ = o.relabel ρ' := by
  cases o with
  | response r =>
    obtain ⟨client, msg⟩ := r
    cases msg <;> simp_all [refs, relabel, ClientResponse.relabel, Response.relabel]
  | market m => simp [relabel, MarketEvent.relabel, BookEvent.rename_congr h]

/-- The token a command is about. -/
def Command.token (cmd : Command) : Token :=
  match cmd.msg with
  | .enter m => m.token
  | .cancel m => m.token
  | .replace m => m.existingToken

/-- A command keeps to the symbols that `sym` gives to the tokens of clients: a
    new order is for the symbol of its token, and both tokens of a replace have
    the same symbol. -/
def Command.KeepsTo (sym : Nat → Token → Symbol) (cmd : Command) : Prop :=
  match cmd.msg with
  | .enter m => m.stock = sym cmd.clientId m.token
  | .cancel _ => True
  | .replace m => sym cmd.clientId m.existingToken = sym cmd.clientId m.replacementToken

/-- What is seen of a log for the symbol `S`. -/
def seen (sym : TokenKey → Symbol) (S : Symbol) (ρ : OrderId → OrderId) (log : List Output) :
    List Output :=
  (log.filter (fun o => o.symbol sym = S)).map (Output.relabel ρ)

section seen

variable {sym : TokenKey → Symbol} {S : Symbol} {ρ ρ' : OrderId → OrderId} {log log' : List Output}

theorem seen_push (h : seen sym S ρ log = seen sym S ρ' log') {o o' : Output}
    (ho : o.relabel ρ = o'.relabel ρ') :
    seen sym S ρ (log ++ [o]) = seen sym S ρ' (log' ++ [o']) := by
  have hsymbol : o.symbol sym = o'.symbol sym := by
    rw [← o.symbol_relabel sym ρ, ho, Output.symbol_relabel]
  unfold seen at h ⊢
  rw [List.filter_append, List.filter_append, List.map_append, List.map_append, h]
  congr 1
  by_cases hS : o.symbol sym = S
  · simp [hS, ← hsymbol, ho]
  · simp [hS, ← hsymbol]

theorem seen_congr (h : ∀ o ∈ log, ∀ r ∈ o.refs, ρ r = ρ' r) :
    seen sym S ρ log = seen sym S ρ' log :=
  List.map_congr_left (fun o ho => Output.relabel_congr (h o (List.mem_of_mem_filter ho)))

end seen

namespace Engine

/-! ## Section 2: Twins -/

/-- The book of a symbol, which is empty when it was never asked for. -/
def bookOf (e : Engine PriorityBook) (symbol : Symbol) : PriorityBook :=
  (e.books.lookup symbol).getD {}

@[simp] theorem bookOf_setBook_self (e : Engine PriorityBook) (symbol : Symbol) (b : PriorityBook) :
    (e.setBook symbol b).bookOf symbol = b := by
  simp [bookOf, setBook]

theorem bookOf_setBook_ne {e : Engine PriorityBook} {symbol symbol' : Symbol} (h : symbol' ≠ symbol)
    (b : PriorityBook) : (e.setBook symbol b).bookOf symbol' = e.bookOf symbol' := by
  simp [bookOf, setBook, Finmap.lookup_insert_of_ne _ h]

/-- `book_for` gives the book of the symbol, and puts an empty one where there
    was none. -/
theorem bookFor_eq (e : Engine PriorityBook) (symbol : Symbol) :
    ∃ e₁, e.bookFor symbol = (e₁, e.bookOf symbol) ∧
      (e₁ = e ∨ e₁ = e.setBook symbol (e.bookOf symbol)) := by
  unfold bookFor bookOf
  cases hl : e.books.lookup symbol with
  | some book => exact ⟨e, rfl, .inl rfl⟩
  | none => exact ⟨_, rfl, .inr rfl⟩

/-- `e` and `a` are alike as far as the symbol `S` goes. -/
structure Twin (sym : TokenKey → Symbol) (S : Symbol) (ρ : OrderId → OrderId)
    (e a : Engine PriorityBook) : Prop where
  orders : ∀ id, e.orders.lookup (ρ id) = a.orders.lookup id
  /-- The second engine trades nothing but `S`. -/
  only : ∀ {id info}, a.orders.lookup id = some info → info.symbol = S
  live : ∀ {key}, sym key = S → e.liveTokens.lookup key = (a.liveTokens.lookup key).map ρ
  used : ∀ {key}, sym key = S → (key ∈ e.usedTokens ↔ key ∈ a.usedTokens)
  book : e.bookOf S = (a.bookOf S).rename ρ
  /-- References to come go to references to come. -/
  next : ∀ k, ρ (a.nextRef + k) = e.nextRef + k
  suppress : e.suppressOuchCancel = a.suppressOuchCancel
  out : seen sym S id e.out = seen sym S ρ a.out

/-- Twins in the middle of the same command. -/
structure Dealing (sym : TokenKey → Symbol) (S : Symbol) (ρ : OrderId → OrderId)
    (e a : Engine PriorityBook) : Prop extends Twin sym S ρ e a where
  symbol : e.currentSymbol = a.currentSymbol

section dealing

variable {sym : TokenKey → Symbol} {S : Symbol} {ρ : OrderId → OrderId} {e a : Engine PriorityBook}

variable {m : Ouch.EnterOrder} {client : Nat}

theorem Twin.nextRef (h : Twin sym S ρ e a) : e.nextRef = ρ a.nextRef := (h.next 0).symm

theorem Twin.nextRefSucc (h : Twin sym S ρ e a) (k : Nat) :
    ρ (a.nextRef + 1 + k) = e.nextRef + 1 + k := by
  rw [Nat.add_assoc, Nat.add_assoc]
  exact h.next (1 + k)

theorem Twin.respond (h : Twin sym S ρ e a) (client : Nat) {msg msg' : Response}
    (hmsg : msg.relabel id = msg'.relabel ρ) :
    Twin sym S ρ (e.respond client msg) (a.respond client msg') := by
  have ho : (Output.response ⟨client, msg⟩).relabel id =
      (Output.response ⟨client, msg'⟩).relabel ρ := by
    simp only [Output.relabel, ClientResponse.relabel, hmsg]
  exact { h with out := seen_push h.out ho }

theorem Dealing.respond (h : Dealing sym S ρ e a) (client : Nat) {msg msg' : Response}
    (hmsg : msg.relabel id = msg'.relabel ρ) :
    Dealing sym S ρ (e.respond client msg) (a.respond client msg') :=
  ⟨h.toTwin.respond client hmsg, h.symbol⟩

theorem Dealing.publish (h : Dealing sym S ρ e a) (ev : BookEvent) :
    Dealing sym S ρ (e.publish (ev.rename ρ)) (a.publish ev) := by
  have ho : (Output.market ⟨e.now, e.currentSymbol, ev.rename ρ⟩).relabel id =
      (Output.market ⟨a.now, a.currentSymbol, ev⟩).relabel ρ := by
    simp only [Output.relabel, MarketEvent.relabel, BookEvent.rename_id, h.symbol]
  exact { h with out := seen_push h.out ho }

/-- What the source does not look at may differ. -/
theorem Dealing.audit (h : Dealing sym S ρ e a) (bad bad' : Bool) (fault fault' : Fault) :
    Dealing sym S ρ (e.audit bad fault) (a.audit bad' fault') := by
  cases bad <;> cases bad' <;> exact { h with }

theorem Dealing.setSuppress (h : Dealing sym S ρ e a) (flag : Bool) :
    Dealing sym S ρ (e.setSuppress flag) (a.setSuppress flag) :=
  { h with suppress := rfl }

theorem Dealing.setBook (h : Dealing sym S ρ e a) (b : PriorityBook) :
    Dealing sym S ρ (e.setBook S (b.rename ρ)) (a.setBook S b) :=
  { h with book := by rw [bookOf_setBook_self, bookOf_setBook_self] }

theorem Dealing.bookFor (h : Dealing sym S ρ e a) :
    ∃ e₁ a₁, e.bookFor S = (e₁, (a.bookOf S).rename ρ) ∧ a.bookFor S = (a₁, a.bookOf S) ∧
      Dealing sym S ρ e₁ a₁ := by
  obtain ⟨e₁, he, he₁⟩ := bookFor_eq e S
  obtain ⟨a₁, ha, ha₁⟩ := bookFor_eq a S
  refine ⟨e₁, a₁, by rw [he, h.book], ha, ?_⟩
  have hkeep : ∀ (x : Engine PriorityBook), (x.setBook S (x.bookOf S)).bookOf S = x.bookOf S :=
    fun x => bookOf_setBook_self x S _
  -- each of them may have been asked for the book before, or not
  rcases he₁ with rfl | rfl <;> rcases ha₁ with rfl | rfl
  · exact h
  · exact { h with book := by rw [hkeep]; exact h.book }
  · exact { h with book := by rw [hkeep]; exact h.book }
  · exact { h with book := by rw [hkeep, hkeep]; exact h.book }

/-! ### Records -/

variable (hρ : Function.Injective ρ)

include hρ

theorem Dealing.setOrder (h : Dealing sym S ρ e a) (id : OrderId) {info : OrderInfo}
    (hinfo : info.symbol = S) :
    Dealing sym S ρ { e with orders := e.orders.insert (ρ id) info }
      { a with orders := a.orders.insert id info } :=
  { h with
    orders := by
      intro i
      by_cases hi : i = id
      · subst hi
        simp
      · have hne : ρ i ≠ ρ id := fun heq => hi (hρ heq)
        simpa [Finmap.lookup_insert_of_ne _ hi, Finmap.lookup_insert_of_ne _ hne] using h.orders i
    only := by
      intro i info' hi'
      by_cases hi : i = id
      · subst hi
        have hsame : (a.orders.insert i info).lookup i = some info' := hi'
        rw [Finmap.lookup_insert] at hsame
        exact Option.some.inj hsame ▸ hinfo
      · have hsame : (a.orders.insert id info).lookup i = some info' := hi'
        rw [Finmap.lookup_insert_of_ne _ hi] at hsame
        exact h.only hsame }

/-- An order that is no longer live. -/
theorem Dealing.drop (h : Dealing sym S ρ e a) (id : OrderId) (key : TokenKey) :
    Dealing sym S ρ { e with liveTokens := e.liveTokens.erase key, orders := e.orders.erase (ρ id) }
      { a with liveTokens := a.liveTokens.erase key, orders := a.orders.erase id } :=
  { h with
    orders := by
      intro i
      by_cases hi : i = id
      · subst hi
        simp
      · have hne : ρ i ≠ ρ id := fun heq => hi (hρ heq)
        simpa [Finmap.lookup_erase_ne hi, Finmap.lookup_erase_ne hne] using h.orders i
    only := by
      intro i info' hi'
      by_cases hi : i = id
      · subst hi
        simp at hi'
      · have hsame : (a.orders.erase id).lookup i = some info' := hi'
        rw [Finmap.lookup_erase_ne hi] at hsame
        exact h.only hsame
    live := by
      intro k hk
      by_cases hkey : k = key
      · subst hkey
        simp
      · simpa [Finmap.lookup_erase_ne hkey] using h.live hk }

theorem Dealing.reduceOpen (h : Dealing sym S ρ e a) (id : OrderId) (qty : Qty) :
    Dealing sym S ρ (e.reduceOpen (ρ id) qty) (a.reduceOpen id qty) := by
  unfold Engine.reduceOpen
  rw [h.orders]
  cases hl : a.orders.lookup id with
  | none => exact h
  | some info =>
    have hsymbol : info.symbol = S := h.only hl
    have haudit := h.audit (info.openQty < qty) (info.openQty < qty) (.underflow (ρ id))
      (.underflow id)
    dsimp only
    split
    · exact haudit.drop hρ id info.key
    · exact haudit.setOrder hρ id hsymbol

omit hρ

theorem Dealing.notify (h : Dealing sym S ρ e a) (x : ExecutedEvent) (id : OrderId)
    (liquidity : Char) :
    Dealing sym S ρ (e.notify (x.rename ρ) (ρ id) liquidity) (a.notify x id liquidity) := by
  unfold Engine.notify
  rw [h.orders]
  cases a.orders.lookup id with
  | none => exact h
  | some info => exact h.respond info.clientId rfl

theorem Dealing.tellCanceled (h : Dealing sym S ρ e a) (x : CanceledEvent) :
    Dealing sym S ρ (e.tellCanceled { x with id := ρ x.id }) (a.tellCanceled x) := by
  unfold Engine.tellCanceled
  rw [h.suppress, h.orders]
  split
  · exact h
  · cases a.orders.lookup x.id with
    | none => exact h
    | some info => exact h.respond info.clientId rfl

include hρ

theorem Dealing.onEvent (h : Dealing sym S ρ e a) (ev : BookEvent) :
    Dealing sym S ρ (e.onEvent (ev.rename ρ)) (a.onEvent ev) := by
  cases ev with
  | added x => exact h.publish (.added x)
  | replaced x => exact h.publish (.replaced x)
  | executed x =>
    have htold := ((h.publish (.executed x)).notify x x.restingId 'A').notify x x.aggressorId 'R'
    exact (htold.reduceOpen hρ x.restingId x.qty).reduceOpen hρ x.aggressorId x.qty
  | canceled x =>
    have htold := (h.publish (.canceled x)).tellCanceled x
    simp only [Engine.onEvent, BookEvent.rename, Engine.onCanceled] at htold ⊢
    split
    · exact htold.reduceOpen hρ x.id x.canceledQty
    · rw [htold.orders]
      cases hl : ((a.publish (.canceled x)).tellCanceled x).orders.lookup x.id with
      | none => exact htold
      | some info =>
        have hsymbol : info.symbol = S := htold.only hl
        exact (htold.audit _ _ _ _).setOrder hρ x.id hsymbol

theorem Dealing.onEvents (h : Dealing sym S ρ e a) (evs : List BookEvent) :
    Dealing sym S ρ (e.onEvents (evs.map (BookEvent.rename ρ))) (a.onEvents evs) := by
  induction evs generalizing e a with
  | nil => exact h
  | cons ev evs ih => exact ih (h.onEvent hρ ev)

theorem Dealing.cancelUnrested (h : Dealing sym S ρ e a) (client : Nat) (ref : OrderId)
    (token : Token) (qty : Qty) (reason : Char) :
    Dealing sym S ρ (e.cancelUnrested client (ρ ref) token qty reason)
      (a.cancelUnrested client ref token qty reason) :=
  (h.respond client rfl).drop hρ ref (tokenKey client token)

/-! ## Section 3: Commands -/

omit hρ in
theorem Twin.setSymbol (h : Twin sym S ρ e a) (symbol : Symbol) :
    Dealing sym S ρ (e.setSymbol symbol) (a.setSymbol symbol) :=
  { h with symbol := rfl }

/-- A new order under the next reference. -/
theorem Dealing.enroll (h : Dealing sym S ρ e a) {info : OrderInfo} (hinfo : info.symbol = S) :
    Dealing sym S ρ
      { e with
        nextRef := e.nextRef + 1
        usedTokens := insert info.key e.usedTokens
        liveTokens := e.liveTokens.insert info.key e.nextRef
        orders := e.orders.insert e.nextRef info }
      { a with
        nextRef := a.nextRef + 1
        usedTokens := insert info.key a.usedTokens
        liveTokens := a.liveTokens.insert info.key a.nextRef
        orders := a.orders.insert a.nextRef info } := by
  -- the two references differ, but the renaming takes the one to the other
  have hset := h.setOrder hρ a.nextRef hinfo
  rw [← h.nextRef] at hset
  exact { hset with
    next := h.nextRefSucc
    used := by
      intro key hkey
      simp [h.used hkey]
    live := by
      intro key hkey
      by_cases hk : key = info.key
      · subst hk
        simp [h.nextRef]
      · simpa [Finmap.lookup_insert_of_ne _ hk] using h.live hkey }

theorem Twin.accept (h : Twin sym S ρ e a) (client : Nat) (side : Side) (hstock : m.stock = S) :
    Dealing sym S ρ (e.accept client m side) (a.accept client m side) := by
  have henroll := (h.setSymbol m.stock).enroll hρ
    (show (⟨client, m.token, m.stock, side, m.shares⟩ : OrderInfo).symbol = S from hstock)
  refine henroll.respond client ?_
  simp [Response.relabel, acceptedMsg, h.nextRef]

theorem Twin.swap (h : Twin sym S ρ e a) (client : Nat) (m : Ouch.ReplaceOrder) (oldRef : OrderId)
    {old : OrderInfo} (hold : old.symbol = S) :
    Dealing sym S ρ (e.swap client m (ρ oldRef) old) (a.swap client m oldRef old) := by
  have hdrop := (h.setSymbol old.symbol).drop hρ oldRef (tokenKey client m.existingToken)
  have henroll := hdrop.enroll hρ
    (show (⟨client, m.replacementToken, old.symbol, old.side, m.shares⟩ : OrderInfo).symbol =
      S from hold)
  have hmsg : (Response.replaced (replacedMsg e.now e.nextRef old m)).relabel id =
      (Response.replaced (replacedMsg a.now a.nextRef old m)).relabel ρ := by
    simp [Response.relabel, replacedMsg, h.nextRef]
  exact henroll.respond client hmsg

theorem Dealing.execute (h : Dealing sym S ρ e a) (client : Nat) (side : Side) (ref : OrderId)
    (hstock : m.stock = S) :
    ∃ e' a', e.execute client m side (ρ ref) = some e' ∧ a.execute client m side ref = some a' ∧
      Dealing sym S ρ e' a' := by
  subst hstock
  obtain ⟨e₁, a₁, he, ha, h₁⟩ := h.bookFor
  generalize a.bookOf m.stock = b at he ha
  -- how much can be matched does not depend on the references
  have hunmet : ∃ unmet, minQtyUnmet b side (limitFor m side) m.minQty = some (b, unmet) ∧
      minQtyUnmet (b.rename ρ) side (limitFor m side) m.minQty = some (b.rename ρ, unmet) := by
    unfold minQtyUnmet
    split
    · refine ⟨_, rfl, ?_⟩
      simp only [Book.matchable, matchable_rename]
      rfl
    · exact ⟨false, rfl, rfl⟩
  obtain ⟨unmet, hb, hb'⟩ := hunmet
  have h₂ := h₁.setBook b
  simp only [Engine.execute, he, ha, hb, hb', Option.bind_eq_bind, Option.bind_some]
  split
  · exact ⟨_, _, rfl, rfl, h₂.cancelUnrested hρ client ref m.token m.shares 'D'⟩
  split
  · -- the order executes at once
    rw [book_executeIoc, book_executeIoc, executeIoc_rename]
    obtain ⟨b', filled, evs⟩ := b.executeIoc ref side (limitFor m side) m.shares
    have h₃ := (h₂.setBook b').onEvents hρ evs
    simp only [Option.bind_some, renameResult]
    split
    · exact ⟨_, _, rfl, rfl, h₃.cancelUnrested hρ client ref m.token _ 'I'⟩
    · exact ⟨_, _, rfl, rfl, h₃⟩
  · -- what it leaves may rest
    rw [book_add, book_add, add_rename hρ]
    obtain ⟨b', result, evs⟩ := b.add ref side m.price m.shares
    have h₃ := (h₂.setBook b').onEvents hρ evs
    exact ⟨_, _, rfl, rfl, h₃.audit _ _ _ _⟩

theorem Twin.handleEnter (h : Twin sym S ρ e a) (hsym : sym (tokenKey client m.token) = S)
    (hstock : m.stock = S) :
    ∃ e' a', e.handleEnter client m = some e' ∧ a.handleEnter client m = some a' ∧
      Twin sym S ρ e' a' := by
  have hreject : ∀ reason,
      Twin sym S ρ (e.reject client m.token reason) (a.reject client m.token reason) :=
    fun _ => h.respond client rfl
  have hused : e.tokenUsed client m.token = a.tokenUsed client m.token := by
    simp [tokenUsed, h.used hsym]
  unfold Engine.handleEnter
  rw [hused]
  split
  · exact ⟨_, _, rfl, rfl, hreject 'T'⟩
  split
  · exact ⟨_, _, rfl, rfl, hreject 'X'⟩
  split
  · exact ⟨_, _, rfl, rfl, hreject 'Z'⟩
  split
  · exact ⟨_, _, rfl, rfl, hreject 'S'⟩
  · next side _ =>
    obtain ⟨e', a', he, ha, h'⟩ :=
      (h.accept hρ client side hstock).execute hρ client side a.nextRef hstock
    exact ⟨e', a', by rw [h.nextRef]; exact he, ha, h'.toTwin⟩

theorem Twin.handleCancel (h : Twin sym S ρ e a) {m : Ouch.CancelOrder}
    (hsym : sym (tokenKey client m.token) = S) :
    ∃ e' a', e.handleCancel client m = some e' ∧ a.handleCancel client m = some a' ∧
      Twin sym S ρ e' a' := by
  unfold Engine.handleCancel
  rw [h.live hsym]
  cases a.liveTokens.lookup (tokenKey client m.token) with
  | none => exact ⟨e, a, rfl, rfl, h⟩
  | some id =>
    simp only [Option.map_some, h.orders]
    cases hinfo : a.orders.lookup id with
    | none => exact ⟨e, a, rfl, rfl, h⟩
    | some info =>
      obtain rfl : info.symbol = S := h.only hinfo
      obtain ⟨e₁, a₁, he, ha, h₁⟩ := (h.setSymbol info.symbol).bookFor
      simp only [he, ha]
      generalize (a.setSymbol info.symbol).bookOf info.symbol = b
      rw [book_cancel, book_cancel, cancel_rename hρ]
      obtain ⟨b', ok, evs⟩ := b.cancel id m.shares
      exact ⟨_, _, rfl, rfl, ((h₁.setBook b').onEvents hρ evs).toTwin⟩

theorem Twin.handleReplace (h : Twin sym S ρ e a) {m : Ouch.ReplaceOrder}
    (hsym : sym (tokenKey client m.existingToken) = S)
    (hsym' : sym (tokenKey client m.replacementToken) = S) :
    ∃ e' a', e.handleReplace client m = some e' ∧ a.handleReplace client m = some a' ∧
      Twin sym S ρ e' a' := by
  have hused : e.tokenUsed client m.replacementToken = a.tokenUsed client m.replacementToken := by
    simp [tokenUsed, h.used hsym']
  unfold Engine.handleReplace
  rw [h.live hsym, hused]
  cases a.liveTokens.lookup (tokenKey client m.existingToken) with
  | none => exact ⟨e, a, rfl, rfl, h⟩
  | some oldRef =>
    simp only [Option.map_some, h.orders]
    split
    · exact ⟨e, a, rfl, rfl, h⟩
    split
    · exact ⟨e, a, rfl, rfl, h⟩
    cases hold : a.orders.lookup oldRef with
    | none => exact ⟨e, a, rfl, rfl, h⟩
    | some old =>
      obtain rfl : old.symbol = S := h.only hold
      obtain ⟨e₁, a₁, he, ha, h₁⟩ := ((h.swap hρ client m oldRef rfl).setSuppress true).bookFor
      simp only [he, ha, h.nextRef]
      generalize ((a.swap client m oldRef old).setSuppress true).bookOf old.symbol = b
      rw [book_replace, book_replace, replace_rename hρ]
      obtain ⟨b', ok, evs⟩ := b.replace oldRef a.nextRef m.price m.shares
      have h₂ := ((h₁.setBook b').onEvents hρ evs).audit (!ok) (!ok) .replaceFailed .replaceFailed
      exact ⟨_, _, rfl, rfl, (h₂.setSuppress false).toTwin⟩

/-- **Step lemma.** A command of `S`, for both. -/
theorem Twin.process (h : Twin sym S ρ e a) {cmd : Command}
    (hkeeps : cmd.KeepsTo (fun client token => sym (tokenKey client token)))
    (hS : sym (tokenKey cmd.clientId cmd.token) = S) (now now' : Nat) :
    ∃ e' a', e.process now cmd = some e' ∧ a.process now' cmd = some a' ∧ Twin sym S ρ e' a' := by
  have hnow : Twin sym S ρ (e.setNow now) (a.setNow now') := { h with }
  unfold Engine.process
  unfold Command.KeepsTo at hkeeps
  unfold Command.token at hS
  cases hmsg : cmd.msg with
  | enter m =>
    rw [hmsg] at hkeeps hS
    exact hnow.handleEnter hρ hS (hkeeps.trans hS)
  | cancel m =>
    rw [hmsg] at hS
    exact hnow.handleCancel hρ hS
  | replace m =>
    rw [hmsg] at hkeeps hS
    exact hnow.handleReplace hρ hS (hkeeps.symm.trans hS)

end dealing

end Engine

end MatchingEngine
